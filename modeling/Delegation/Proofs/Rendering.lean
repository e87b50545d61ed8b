import Delegation.Client.Payload
import Delegation.Proofs.Lexing

/-!
This module contains the tokens of the types that are written into a declaration file.
-/

namespace Delegation

def IsName (name : String) : Prop :=
  Spells name.toList (.identifier name)

theorem isName_ofList {c : Char} {cs : List Char} (hc : isIdentifierStart c = true)
    (hcs : ∀ x ∈ cs, isIdentifierPart x = true) : IsName (.ofList (c :: cs)) := by
  unfold IsName
  rw [String.toList_ofList]
  exact .identifier hc hcs

theorem Spells.exists_chars {text : List Char} {name : String} (h : Spells text (.identifier name)) :
    ∃ c cs, text = c :: cs ∧ name = .ofList (c :: cs) ∧ isIdentifierStart c = true
      ∧ ∀ x ∈ cs, isIdentifierPart x = true := by
  generalize htoken : Token.identifier name = token at h
  cases h with
  | identifier hc hcs =>
    cases htoken
    exact ⟨_, _, rfl, rfl, hc, hcs⟩
  | char h =>
    subst htoken
    exfalso
    unfold Token.ofChar? at h
    split at h
    case h_10 =>
      obtain ⟨s, _, hs⟩ := Option.map_eq_some_iff.mp h
      cases hs
    all_goals cases h
  | _ => cases htoken

theorem Spells.isName {text : List Char} {name : String} (h : Spells text (.identifier name)) :
    IsName name := by
  obtain ⟨c, cs, _, rfl, hc, hcs⟩ := h.exists_chars
  exact isName_ofList hc hcs

theorem isName_of_check {name : String}
    (h : (name.toList.head?.any isIdentifierStart
      && name.toList.tail.all isIdentifierPart) = true) : IsName name := by
  rw [Bool.and_eq_true, List.all_eq_true] at h
  cases hname : name.toList with
  | nil =>
    rw [hname] at h
    cases h.1
  | cons c cs =>
    rw [hname] at h
    have hall : IsName (.ofList (c :: cs)) := isName_ofList h.1 h.2
    rwa [← hname, String.ofList_toList] at hall

theorem IsName.endsBefore {name : String} (h : IsName name) (rest : List Char) {token : Token}
    (htoken : token ∈ [.whitespace, .sign .dot, .sign .atSign]) :
    token.endsBefore (name.toList ++ rest) = true := by
  obtain ⟨c, cs, hname, _, hc, _⟩ := h.exists_chars
  have hspacing : readPiece.isSpacing c = false := by
    rw [Bool.eq_false_iff]
    intro hspacing
    rw [(of_isSpacing hspacing).2.2.1] at hc
    cases hc
  have hne : ∀ d ∈ ['.', '@'], c ≠ d := by
    rintro d hd rfl
    have hall : ['.', '@'].all (!isIdentifierStart ·) = true := by decide +kernel
    have := List.all_eq_true.mp hall c hd
    rw [hc] at this
    cases this
  rw [hname, List.cons_append]
  simp only [List.mem_cons, List.not_mem_nil, or_false] at htoken
  rcases htoken with rfl | rfl | rfl
  . simp [Token.endsBefore, hspacing]
  . simp [Token.endsBefore, List.isPrefixOf, Ne.symm (hne '.' (by simp))]
  . simp [Token.endsBefore, hne '@' (by simp)]

theorem toNat_lt_of_isIdentChar {c : Char} (h : isIdentChar c = true) : c.toNat < 128 := by
  delta isIdentChar Char.isAlphanum Char.isAlpha Char.isUpper Char.isLower Char.isDigit at h
  simp only [Bool.or_eq_true, Bool.and_eq_true, decide_eq_true_eq, beq_iff_eq, ge_iff_le,
    UInt32.le_iff_toNat_le] at h
  rcases h with ((h | h) | h) | h
  . exact Nat.lt_of_le_of_lt h.2 (by decide)
  . exact Nat.lt_of_le_of_lt h.2 (by decide)
  . exact Nat.lt_of_le_of_lt h.2 (by decide)
  . subst h
    decide

theorem of_isIdentChar {c : Char} (h : isIdentChar c = true) :
    isIdentifierPart c = true ∧ (c.isDigit = true ∨ isIdentifierStart c = true)
      ∧ c ≠ '\n' ∧ c ≠ '\r' := by
  have hall : ∀ n ∈ List.range 128, isIdentChar (Char.ofNat n) = true →
      isIdentifierPart (Char.ofNat n) = true
        ∧ ((Char.ofNat n).isDigit = true ∨ isIdentifierStart (Char.ofNat n) = true)
        ∧ Char.ofNat n ≠ '\n' ∧ Char.ofNat n ≠ '\r' := by
    decide +kernel
  have := hall c.toNat (List.mem_range.mpr (toNat_lt_of_isIdentChar h))
  rw [Char.ofNat_toNat] at this
  exact this h

theorem Ident.exists_chars (ident : Ident) :
    ∃ c cs, ident.name.toList = c :: cs ∧ c.isDigit = false
      ∧ ∀ x ∈ c :: cs, isIdentChar x = true := by
  have h := ident.isIdent_name
  unfold isIdent at h
  split at h
  . cases h
  . next c cs hname =>
    rw [Bool.and_eq_true, Bool.not_eq_true', List.all_eq_true] at h
    exact ⟨c, cs, hname, h.1, h.2⟩

theorem Ident.isName (ident : Ident) : IsName ident.name := by
  obtain ⟨c, cs, hname, hdigit, hall⟩ := ident.exists_chars
  have hstart : isIdentifierStart c = true := by
    rcases (of_isIdentChar (hall c (.head _))).2.1 with h | h
    . rw [hdigit] at h
      cases h
    . exact h
  have hparts : ∀ x ∈ cs, isIdentifierPart x = true := by
    intro x hx
    exact (of_isIdentChar (hall x (.tail _ hx))).1
  have := isName_ofList hstart hparts
  rw [← hname, String.ofList_toList] at this
  exact this

theorem scan_escape {read opened cs rest : List Char} (hcs : ∀ c ∈ cs, c ≠ '\n' ∧ c ≠ '\r') :
    Quoted.scan read [.string '\x27' opened] (TypeNode.escape cs ++ '\x27' :: rest)
      = .closed (read.reverse ++ TypeNode.escape cs ++ ['\x27']) rest := by
  induction cs generalizing read with
  | nil => simp [TypeNode.escape, Quoted.scan]
  | cons c cs ih =>
    have hc := hcs c (.head _)
    have htail : ∀ c ∈ cs, c ≠ '\n' ∧ c ≠ '\r' := fun d hd => hcs d (.tail _ hd)
    rw [TypeNode.escape, List.flatMap_cons]
    rw [← TypeNode.escape]
    split
    . simp only [List.cons_append, List.nil_append]
      rw [Quoted.scan, ih htail]
      simp
    . next hescape =>
      simp only [Bool.or_eq_true, beq_iff_eq, not_or] at hescape
      simp only [List.cons_append, List.nil_append]
      rw [Quoted.scan]
      . simp only [beq_iff_eq, hescape, if_false, hc, Bool.or_eq_true, or_self, ih htail]
        simp
      . intro d rest h
        exact absurd h hescape.2

theorem spells_stringLiteral {value : String} (h : ∀ c ∈ value.toList, c ≠ '\n' ∧ c ≠ '\r') :
    Spells ('\x27' :: (TypeNode.escape value.toList ++ ['\x27']))
      (.string (.ofList (TypeNode.escape value.toList))) := by
  have := @Spells.string '\x27' (TypeNode.escape value.toList ++ ['\x27']) (.inl rfl) (scan_escape h)
  rw [List.dropLast_concat] at this
  exact this

namespace TypeNode

mutual

def tokens : TypeNode → List Token
  | reference name [] => [.identifier name]
  | reference name (arg :: args) =>
    .identifier name :: .opening .angle :: (tokens arg ++ moreTokens (.sign .comma) args
      ++ [.closing .angle])
  | stringLiteral value => [.string (.ofList (escape value.toList))]
  | object [] => [.opening .brace, .closing .brace]
  | object (property :: properties) =>
    .opening .brace :: (propertyTokens property ++ propertiesTokens properties
      ++ [.closing .brace])
  | intersection members => joinedTokens (.sign .ampersand) members
  | union members => joinedTokens (.sign .pipe) members
  | parenthesized inner => .opening .paren :: (tokens inner ++ [.closing .paren])

def joinedTokens (separator : Token) : List TypeNode → List Token
  | [] => []
  | node :: nodes => tokens node ++ moreTokens separator nodes

def moreTokens (separator : Token) : List TypeNode → List Token
  | [] => []
  | node :: nodes => separator :: (tokens node ++ moreTokens separator nodes)

def propertyTokens : String × TypeNode → List Token
  | (name, type) => .identifier name :: .sign .colon :: tokens type

def propertiesTokens : List (String × TypeNode) → List Token
  | [] => []
  | property :: properties =>
    .sign .semicolon :: (propertyTokens property ++ propertiesTokens properties)

end

mutual

/--
Whether all names in a type are identifiers, and all strings in it fit on one line.
-/
def IsWritable : TypeNode → Prop
  | reference name args => IsName name ∧ AreWritable args
  | stringLiteral value => ∀ c ∈ value.toList, c ≠ '\n' ∧ c ≠ '\r'
  | object properties => ArePropertiesWritable properties
  | intersection members | union members => AreWritable members
  | parenthesized inner => IsWritable inner

def AreWritable : List TypeNode → Prop
  | [] => True
  | node :: nodes => IsWritable node ∧ AreWritable nodes

def ArePropertiesWritable : List (String × TypeNode) → Prop
  | [] => True
  | (name, type) :: properties => (IsName name ∧ IsWritable type) ∧ ArePropertiesWritable properties

end

end TypeNode

def EndsName (rest : List Char) : Prop :=
  rest.head?.all (!isIdentifierPart ·) = true

theorem endsName_cons {c : Char} (rest : List Char)
    (h : c ∈ [' ', '\n', ',', ';', '.', '?', ':', '(', ')', '[', '<', '>']) :
    EndsName (c :: rest) := by
  have hall : [' ', '\n', ',', ';', '.', '?', ':', '(', ')', '[', '<', '>'].all
      (!isIdentifierPart ·) = true := by
    decide +kernel
  exact List.all_eq_true.mp hall c h

namespace Reads

variable {rest cs : List Char} {ts : List Token}

theorem char {c : Char} {token : Token} (h : Reads rest cs ts)
    (hc : Token.ofChar? c = some token) (hends : ∀ rest, token.endsBefore rest = true) :
    Reads rest (c :: cs) (token :: ts) :=
  .token (.char hc) (Token.ne_whitespace_of_ofChar? hc) (hends _) h

theorem blank (h : Reads rest cs ts) : Reads rest (' ' :: cs) ts :=
  .space (by decide +kernel) h

theorem name {name : String} (h : Reads rest cs ts) (hname : IsName name)
    (hends : EndsName (cs ++ rest)) : Reads rest (name.toList ++ cs) (.identifier name :: ts) :=
  .token hname (by simp) hends h

end Reads

structure IsSeparatorOf (separator : List Char) (token : Token) : Prop where
  endsName : ∀ rest, EndsName (separator ++ rest)
  reads : ∀ {rest cs ts}, Reads rest cs ts → Reads rest (separator ++ cs) (token :: ts)

theorem isSeparatorOf_comma : IsSeparatorOf ", ".toList (.sign .comma) where
  endsName rest := endsName_cons _ (by decide)
  reads h := h.blank.char rfl fun _ => rfl

theorem isSeparatorOf_ampersand : IsSeparatorOf " & ".toList (.sign .ampersand) where
  endsName rest := endsName_cons _ (by decide)
  reads h := (h.blank.char rfl fun _ => rfl).blank

theorem isSeparatorOf_pipe : IsSeparatorOf " | ".toList (.sign .pipe) where
  endsName rest := endsName_cons _ (by decide)
  reads h := (h.blank.char rfl fun _ => rfl).blank

theorem endsName_renderMore {separator : List Char} {token : Token}
    (h : IsSeparatorOf separator token) (nodes : List TypeNode) {rest : List Char}
    (hrest : EndsName rest) : EndsName (TypeNode.renderMore separator nodes ++ rest) := by
  cases nodes with
  | nil => exact hrest
  | cons node nodes =>
    rw [TypeNode.renderMore, List.append_assoc, List.append_assoc]
    exact h.endsName _

theorem endsName_renderProperties (properties : List (String × TypeNode)) {rest : List Char}
    (hrest : EndsName rest) : EndsName (TypeNode.renderProperties properties ++ rest) := by
  cases properties with
  | nil => exact hrest
  | cons property properties =>
    rw [TypeNode.renderProperties, List.append_assoc, List.append_assoc]
    exact endsName_cons _ (by decide)

section

variable {rest : List Char}

mutual

theorem reads_render {cs : List Char} {ts : List Token} (node : TypeNode) (h : node.IsWritable)
    (hends : EndsName (cs ++ rest)) (hcs : Reads rest cs ts) :
    Reads rest (node.render ++ cs) (node.tokens ++ ts) := by
  match node with
  | .reference name [] =>
    rw [TypeNode.render, TypeNode.tokens]
    exact hcs.name h.1 hends
  | .reference name (arg :: args) =>
    rw [TypeNode.render, TypeNode.tokens]
    have hclose : Reads rest ('>' :: cs) (.closing .angle :: ts) := hcs.char rfl fun _ => rfl
    have hmore := reads_renderMore isSeparatorOf_comma args h.2.2 (endsName_cons _ (by decide)) hclose
    have harg := reads_render arg h.2.1
      (by
        rw [List.append_assoc]
        exact endsName_renderMore isSeparatorOf_comma args (endsName_cons _ (by decide))) hmore
    have hopen : Reads rest ('<' :: _) (.opening .angle :: _) := harg.char rfl fun _ => rfl
    have := hopen.name h.1 (endsName_cons _ (by decide))
    simpa using this
  | .stringLiteral value =>
    rw [TypeNode.render, TypeNode.tokens]
    have := Reads.token (spells_stringLiteral h) (by simp) rfl hcs
    simpa using this
  | .object [] =>
    rw [TypeNode.render, TypeNode.tokens]
    have hclose : Reads rest ('}' :: cs) (.closing .brace :: ts) := hcs.char rfl fun _ => rfl
    exact hclose.char rfl fun _ => rfl
  | .object (property :: properties) =>
    rw [TypeNode.render, TypeNode.tokens]
    have hclose : Reads rest (" \x7d".toList ++ cs) (.closing .brace :: ts) :=
      (hcs.char rfl fun _ => rfl).blank
    have hends' : EndsName (" \x7d".toList ++ cs ++ rest) := endsName_cons _ (by decide)
    have hmore := reads_renderProperties properties h.2 hends' hclose
    have hproperty := reads_renderProperty property h.1
      (by
        rw [List.append_assoc]
        exact endsName_renderProperties properties hends') hmore
    have hopen : Reads rest ('\x7b' :: ' ' :: _) (.opening .brace :: _) :=
      hproperty.blank.char rfl fun _ => rfl
    simpa using hopen
  | .intersection members =>
    rw [TypeNode.render, TypeNode.tokens]
    exact reads_renderJoined isSeparatorOf_ampersand members h hends hcs
  | .union members =>
    rw [TypeNode.render, TypeNode.tokens]
    exact reads_renderJoined isSeparatorOf_pipe members h hends hcs
  | .parenthesized inner =>
    rw [TypeNode.render, TypeNode.tokens]
    have hclose : Reads rest (')' :: cs) (.closing .paren :: ts) := hcs.char rfl fun _ => rfl
    have hinner := reads_render inner h (endsName_cons _ (by decide)) hclose
    have hopen : Reads rest ('(' :: _) (.opening .paren :: _) := hinner.char rfl fun _ => rfl
    simpa using hopen

theorem reads_renderJoined {cs : List Char} {ts : List Token} {separator : List Char}
    {token : Token} (hseparator : IsSeparatorOf separator token) (nodes : List TypeNode)
    (h : TypeNode.AreWritable nodes) (hends : EndsName (cs ++ rest)) (hcs : Reads rest cs ts) :
    Reads rest (TypeNode.renderJoined separator nodes ++ cs)
      (TypeNode.joinedTokens token nodes ++ ts) := by
  match nodes with
  | [] => exact hcs
  | node :: nodes =>
    rw [TypeNode.renderJoined, TypeNode.joinedTokens, List.append_assoc, List.append_assoc]
    apply reads_render node h.1
    . rw [List.append_assoc]
      exact endsName_renderMore hseparator nodes hends
    . exact reads_renderMore hseparator nodes h.2 hends hcs

theorem reads_renderMore {cs : List Char} {ts : List Token} {separator : List Char}
    {token : Token} (hseparator : IsSeparatorOf separator token) (nodes : List TypeNode)
    (h : TypeNode.AreWritable nodes) (hends : EndsName (cs ++ rest)) (hcs : Reads rest cs ts) :
    Reads rest (TypeNode.renderMore separator nodes ++ cs)
      (TypeNode.moreTokens token nodes ++ ts) := by
  match nodes with
  | [] => exact hcs
  | node :: nodes =>
    rw [TypeNode.renderMore, TypeNode.moreTokens, List.append_assoc, List.append_assoc,
      List.cons_append, List.append_assoc]
    apply hseparator.reads
    apply reads_render node h.1
    . rw [List.append_assoc]
      exact endsName_renderMore hseparator nodes hends
    . exact reads_renderMore hseparator nodes h.2 hends hcs

theorem reads_renderProperty {cs : List Char} {ts : List Token} (property : String × TypeNode)
    (h : IsName property.1 ∧ property.2.IsWritable) (hends : EndsName (cs ++ rest))
    (hcs : Reads rest cs ts) :
    Reads rest (TypeNode.renderProperty property ++ cs)
      (TypeNode.propertyTokens property ++ ts) := by
  match property with
  | (name, type) =>
    rw [TypeNode.renderProperty, TypeNode.propertyTokens, List.append_assoc, List.append_assoc]
    have htype := reads_render type h.2 hends hcs
    have hcolon : Reads rest (':' :: ' ' :: _) (.sign .colon :: _) :=
      htype.blank.char rfl fun _ => rfl
    exact hcolon.name h.1 (endsName_cons _ (by decide))

theorem reads_renderProperties {cs : List Char} {ts : List Token}
    (properties : List (String × TypeNode)) (h : TypeNode.ArePropertiesWritable properties)
    (hends : EndsName (cs ++ rest)) (hcs : Reads rest cs ts) :
    Reads rest (TypeNode.renderProperties properties ++ cs)
      (TypeNode.propertiesTokens properties ++ ts) := by
  match properties with
  | [] => exact hcs
  | property :: properties =>
    rw [TypeNode.renderProperties, TypeNode.propertiesTokens, List.append_assoc, List.append_assoc,
      List.cons_append, List.append_assoc]
    have hproperty := reads_renderProperty property h.1
      (by
        rw [List.append_assoc]
        exact endsName_renderProperties properties hends)
      (reads_renderProperties properties h.2 hends hcs)
    exact hproperty.blank.char rfl fun _ => rfl

end

end

namespace Client

theorem isName_payloadAlias (entity : Ident) : IsName (payloadAlias entity.name) := by
  obtain ⟨c, cs, hname, _, hall⟩ := entity.exists_chars
  have : payloadAlias entity.name = .ofList ('$' :: (c :: cs ++ "Payload".toList)) := by
    rw [← hname]
    simp [payloadAlias, String.ext_iff]
  rw [this]
  apply isName_ofList (by decide +kernel)
  intro x hx
  rcases List.mem_append.mp hx with hx | hx
  . exact (of_isIdentChar (hall x hx)).1
  . have hall : "Payload".toList.all isIdentifierPart = true := by decide +kernel
    exact List.all_eq_true.mp hall x hx

theorem isWritable_payloadArm {params : List String} (hparams : ∀ p ∈ params, IsName p)
    (subtype : Ident) : (payloadArm params subtype).IsWritable := by
  have hargs : TypeNode.AreWritable (params.map (TypeNode.reference · [])) := by
    induction params with
    | nil => trivial
    | cons p params ih =>
      refine ⟨⟨hparams p (.head _), trivial⟩, ih ?_⟩
      intro q hq
      exact hparams q (.tail _ hq)
  refine ⟨⟨isName_payloadAlias subtype, hargs⟩, ⟨⟨?_, ⟨?_, ?_⟩, trivial⟩, trivial⟩, trivial⟩
  . exact isName_ofList (by decide +kernel) (List.all_eq_true.mp (by decide +kernel))
  . exact isName_ofList (by decide +kernel) (List.all_eq_true.mp (by decide +kernel))
  . obtain ⟨c, cs, hname, _, hall⟩ := subtype.exists_chars
    intro x hx
    rw [hname] at hx
    exact (of_isIdentChar (hall x hx)).2.2

theorem isWritable_payloadUnion {params : List String} (hparams : ∀ p ∈ params, IsName p)
    (subtypes : List Ident) : (payloadUnion subtypes params).IsWritable := by
  show TypeNode.AreWritable (subtypes.map (payloadArm params))
  induction subtypes with
  | nil => trivial
  | cons subtype subtypes ih => exact ⟨isWritable_payloadArm hparams subtype, ih⟩

theorem getLast?_tokens_payloadUnion (subtype : Ident) (subtypes : List Ident)
    (params : List String) :
    (payloadUnion (subtype :: subtypes) params).tokens.getLast? = some (.closing .paren) := by
  show (TypeNode.joinedTokens _ _).getLast? = _
  induction subtypes generalizing subtype with
  | nil =>
    simp [TypeNode.joinedTokens, TypeNode.moreTokens, payloadArm, TypeNode.tokens,
      List.getLast?_cons, List.getLast?_append]
  | cons next subtypes ih =>
    have := ih next
    rw [List.map_cons, TypeNode.joinedTokens] at this ⊢
    rw [List.map_cons, TypeNode.moreTokens, List.getLast?_append, List.getLast?_cons, this]
    rfl

theorem reads_payloadUnion {subtypes : List Ident} {params : List String} (h : subtypes ≠ [])
    (hparams : ∀ p ∈ params, IsName p) (rest : List Char) :
    Reads rest (payloadUnion subtypes params).render (payloadUnion subtypes params).tokens := by
  have hends : EndsName ([] ++ []) := rfl
  have := reads_render _ (isWritable_payloadUnion hparams subtypes) hends .nil
  rw [List.append_nil, List.append_nil] at this
  apply this.before
  obtain ⟨subtype, subtypes, rfl⟩ := List.exists_cons_of_ne_nil h
  rw [getLast?_tokens_payloadUnion]
  rintro t ht
  cases ht
  exact ⟨by simp, rfl⟩

theorem render_payloadUnion_eq_cons {subtypes : List Ident} (h : subtypes ≠ [])
    (params : List String) :
    ∃ cs, (payloadUnion subtypes params).render = '(' :: cs := by
  obtain ⟨subtype, subtypes, rfl⟩ := List.exists_cons_of_ne_nil h
  exact ⟨_, rfl⟩

end Client
end Delegation
