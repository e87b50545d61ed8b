import Delegation.Proofs.Grammar.Reading
import Delegation.Proofs.Rereading.Remains

/-!
This module contains the steps in which members are read again when all is done that had to be done
about them. What is left of a type expression or of a member is read up to the same place as before,
and there is nothing more to be done about it.
-/

namespace Delegation

open Item Stretch

def Owner.Resembles : Owner → Owner → Prop
  | .typeLiteral _, .typeLiteral _ | .classBlock _, .classBlock _ => True
  | .interfaceBlock b, .interfaceBlock c => b.name.value = c.name.value
  | _, _ => False

section

variable (g : DelegateGraph) (isInput : Bool)

theorem memberFinding?_eq_none_of_resembles {owner owner' : Owner} {m m' : Member}
    (howner : owner'.Resembles owner) (hkind : m'.kind = m.kind) (hname : m'.name? = m.name?)
    (h : memberFinding? g isInput owner m = none) : memberFinding? g isInput owner' m' = none := by
  unfold memberFinding? at h ⊢
  have hnamed : m'.isNamedSignature = m.isNamedSignature := by
    simp [Member.isNamedSignature, hkind]
  rw [hname, hnamed, hkind]
  cases hm : m.name? with
  | none => rfl
  | some name =>
    rw [hm] at h
    cases owner with
    | typeLiteral o =>
      cases owner' with
      | typeLiteral o' => simpa [Owner.isSignatureOwner, ite_eq_iff] using h
      | interfaceBlock => cases howner
      | classBlock => cases howner
    | interfaceBlock b =>
      cases owner' with
      | typeLiteral => cases howner
      | interfaceBlock b' =>
        have hname : b'.name.value = b.name.value := howner
        simpa [Owner.isSignatureOwner, MemberBlock.isAccessor, hname, ite_eq_iff] using h
      | classBlock => cases howner
    | classBlock b =>
      cases owner' with
      | typeLiteral => cases howner
      | interfaceBlock => cases howner
      | classBlock b' => rfl

end

namespace Stretch

variable (g : DelegateGraph) (isInput : Bool)

/--
Whether `ss`, wherever they stand, ask for the edits that settle `findings`, and nothing at their
end goes.
-/
structure Covers (findings : List Finding) (ss : List Stretch) : Prop where
  editsOf_eq : editsOf ss = editsFor findings
  allFit (last : Option Token) : AllFit last ss
  isBrokenAfter_eq : isBrokenAfter false ss = false

theorem covers_map_kept (items : List Item) : Covers [] (items.map kept) where
  editsOf_eq := editsOf_map_kept items
  allFit last := allFit_map_kept last items
  isBrokenAfter_eq := isBrokenAfter_map_kept items

variable {g isInput} {findings findings' : List Finding} {ss ss' : List Stretch}

theorem Covers.append (h : Covers findings ss) (h' : Covers findings' ss') :
    Covers (findings ++ findings') (ss ++ ss') where
  editsOf_eq := by rw [editsOf_append, editsFor_append, h.editsOf_eq, h'.editsOf_eq]
  allFit last := (h.allFit last).append (h'.allFit _)
  isBrokenAfter_eq := by
    rw [isBrokenAfter_append, h.isBrokenAfter_eq, h'.isBrokenAfter_eq]

theorem Covers.cons (h : Covers findings ss) (item : Item) : Covers findings (kept item :: ss) where
  editsOf_eq := h.editsOf_eq
  allFit _ := ⟨trivial, h.allFit _⟩
  isBrokenAfter_eq := h.isBrokenAfter_eq

variable (g isInput)

def TermRereads (collect : Bool) (item : Item) (ss : List Stretch) (last : Token) : Prop :=
  ∀ {text : List Char} {after others : List Item} {item' : Item}, item'.token = item.token →
    Remains text false ss others → AreLoose after ss → ∀ rest',
    Leaves rest' (fun term => term.last = last ∧ objectsFindings g isInput term.objects = [])
      (parseTerm collect item' (others ++ rest'))

def GroupRereads (collect : Bool) (d : Delimiter) (ss : List Stretch) : Prop :=
  ∀ {text : List Char} {after others : List Item} {opening : OpenDelimiter},
    opening.delimiter = d → Remains text false ss others → AreLoose after ss → ∀ rest',
    Leaves rest' (fun group => objectsFindings g isInput group.1 = [])
      (parseGroup collect opening (others ++ rest'))

/--
Whether what is left of `ss`, in front of what looks like `rest`, is the run that goes on behind
`last`.
-/
def RunRereads (collect : Bool) (place : Place) (last : Option Token) (ss : List Stretch)
    (rest : List Item) : Prop :=
  ∀ {text : List Char} {after others rest' : List Item}, Remains text false ss others →
    AreLoose after ss → Ahead rest rest' → ∀ stop,
    Leaves rest' (fun run => objectsFindings g isInput run.1 = [])
      (parseRun collect place last stop (others ++ rest'))

def TailRereads (collect : Bool) (place : Place) (last : Option Token) (ss : List Stretch)
    (rest : List Item) : Prop :=
  ∀ {text : List Char} {after others rest' : List Item}, Remains text false ss others →
    AreLoose after ss → Ahead rest rest' → ∀ stop,
    ∃ run, parseRun collect place last stop (others ++ rest') = .ok run
      ∧ objectsFindings g isInput run.value.1 = []
      ∧ (terminator run.value.2 run.rest).rest = rest'

def MemberRereads (owner : Owner) (ss : List Stretch) (rest : List Item) : Prop :=
  ∀ {text : List Char} {isBroken : Bool} {after others rest' : List Item} {item : Item},
    Remains text isBroken ss (item :: others) → AreLoose after ss → Ahead rest rest' →
    Leaves rest'
      (fun m => ∀ owner', owner'.Resembles owner → memberFindings g isInput owner' m = [])
      (parseMember item (others ++ rest'))

def MembersRereads (owner : Owner) (ss : List Stretch) : Prop :=
  ∀ {text : List Char} {isBroken : Bool} {after others : List Item},
    Remains text isBroken ss others → AreLoose after ss → ∀ opening rest',
    Leaves rest'
      (fun ms => ∀ owner', owner'.Resembles owner → membersFindings g isInput owner' ms.1 = [])
      (parseMembers opening (others ++ rest'))

variable {g isInput}

theorem RunRereads.exists_tail {collect : Bool} {place : Place} {last : Option Token} {stop : Nat}
    {items : List Item} {p : Parsed Item (List ObjectType × Nat) (items.length + 1)}
    {ss : List Stretch} (h : parseRun collect place last stop items = .ok p)
    (hitems : items = itemsOf ss ++ p.rest) (hcovers : Covers findings ss) (hsteady : IsSteady ss)
    (hreads : RunRereads g isInput collect place last ss p.rest) :
    ∃ ss', items = itemsOf ss' ++ (terminator p.value.2 p.rest).rest ∧ Covers findings ss'
      ∧ IsSteady ss'
      ∧ TailRereads g isInput collect place last ss' (terminator p.value.2 p.rest).rest := by
  obtain ⟨_, _, _, _, hends⟩ := parseRun_eq_ok h
  obtain ⟨separator, hrest, _, hterminator⟩ := terminator_reads p.value.2 hends
  refine ⟨ss ++ separator.map .kept, ?_, ?_, ?_, ?_⟩
  . rw [itemsOf_append, itemsOf_map_kept, List.append_assoc, ← hrest, ← hitems]
  . simpa using hcovers.append (covers_map_kept separator)
  . exact hsteady.append (isSteady_map_kept separator)
  . intro text after others rest' hremains hloose hahead stop'
    obtain ⟨front, back, rfl, hfront, hback⟩ := hremains.of_append
    rw [hcovers.isBrokenAfter_eq] at hback
    obtain ⟨htoken, hline⟩ := hback.of_map_kept
    have hnext := hback.ahead (isSteady_map_kept separator) hahead
    rw [itemsOf_map_kept, ← hrest] at hnext
    obtain ⟨run, hlt, hrun, hobjects⟩ :=
      hreads hfront (areLoose_append.mp hloose).1 hnext stop'
    rw [List.append_assoc]
    refine ⟨_, hrun, hobjects, hterminator htoken (hline rfl) ?_ _⟩
    rintro rfl
    rw [hrest]
    exact hahead

theorem startsMemberName_or_opensSignature {t : Token}
    (h : t.startsMemberName = true ∨ t.opensSignature = true) :
    (t.continuesBefore = true → t.isWordOf linkWords = true) ∧ t ≠ .sign .bang ∧ t ≠ .sign .plus
      ∧ t ≠ .sign .minus := by
  refine ⟨?_, ?_, ?_, ?_⟩
  . intro hbefore
    unfold Token.continuesBefore at hbefore
    split at hbefore
    case h_7 => exact hbefore
    all_goals simp [Token.startsMemberName, Token.opensSignature] at h
  all_goals
    rintro rfl
    simp [Token.startsMemberName, Token.opensSignature] at h

theorem startsMemberName_of_isWordOf {t : Token} {words : List String}
    (h : t.isWordOf words = true) : t.startsMemberName = true := by
  unfold Token.isWordOf at h
  split at h
  . rfl
  . cases h

theorem startsMemberName_of_memberHead {item : Item} {rest : List Item}
    {p : Parsed Item MemberHead (rest.length + 1)} (h : memberHead item rest = .ok p) :
    item.token.startsMemberName = true := by
  unfold memberHead at h
  split at h
  case h_6 => cases h
  all_goals
    next hitem => simp [hitem, Token.startsMemberName]

theorem opensSignature_of_signatureStart? {item : Item} {rest : List Item}
    {start : MemberKind × Parsed Item Item (rest.length + 1)}
    (h : signatureStart? item rest = some start) :
    item.token.startsMemberName = true ∨ item.token.opensSignature = true := by
  unfold signatureStart? at h
  split at h
  . next hopens => exact .inr hopens
  . split at h
    . split at h
      . next hnew =>
        rw [Bool.and_eq_true] at hnew
        have := hnew.1
        unfold Token.isWord at this
        split at this
        . next hname => exact .inl (by simp [hname, Token.startsMemberName])
        . cases this
      . cases h
    . cases h

theorem isRow_of_ne {item : Item} (h : (∃ d, item.token = .closing d)
    ∨ item.token = .sign .semicolon ∨ item.token = .sign .comma) (ss : List Stretch) :
    IsRow (kept item :: ss) := by
  refine .kept ?_ ?_ ?_
  all_goals
    rcases h with ⟨d, h⟩ | h | h
    all_goals simp [h, Token.continuesBefore, Token.isWordOf]

theorem isRow_of_modifiers {item first : Item} {rest rest₁ mods : List Item}
    {hlt : rest₁.length < rest.length + 1}
    (hskip : skipMemberModifiers item rest = ⟨first, rest₁, hlt⟩)
    (hmods : item :: rest = mods ++ first :: rest₁)
    (hfirst : first.token.startsMemberName = true ∨ first.token.opensSignature = true)
    (ss : List Stretch) : IsRow (mods.map kept ++ kept first :: ss) := by
  cases mods with
  | nil =>
    obtain ⟨hbefore, hbang, hplus, hminus⟩ := startsMemberName_or_opensSignature hfirst
    refine .kept hbefore hbang ?_
    rintro (hsign | hsign)
    . exact absurd hsign hplus
    . exact absurd hsign hminus
  | cons mod mods =>
    have hnext : ∃ next more, rest = next :: more ∧ isMemberModifier item next = true := by
      have hlength := congrArg List.length hmods
      cases rest with
      | nil => simp at hlength
      | cons next more =>
        cases hmodifier : isMemberModifier item next with
        | true => exact ⟨next, more, rfl, hmodifier⟩
        | false =>
          rw [skipMemberModifiers, if_neg (by simp [hmodifier])] at hskip
          cases hskip
          simp only [List.length_append, List.length_cons] at hlength
          omega
    obtain ⟨next, more, rfl, hmodifier⟩ := hnext
    obtain ⟨rfl, hmore⟩ := List.cons.inj hmods
    have hkept : ∃ more', mods.map kept ++ kept first :: ss = kept next :: more' := by
      cases mods with
      | nil => exact ⟨ss, by rw [(List.cons.inj hmore).1]; rfl⟩
      | cons mod mods => exact ⟨_, by rw [(List.cons.inj hmore).1]; rfl⟩
    obtain ⟨more', hkept⟩ := hkept
    rw [List.map_cons, List.cons_append, hkept]
    unfold isMemberModifier at hmodifier
    refine .kept ?_ ?_ ?_
    . intro hbefore
      split at hmodifier
      . next h => simp [h, Token.continuesBefore, Token.isWordOf] at hbefore
      . next h => simp [h, Token.continuesBefore, Token.isWordOf] at hbefore
      . rw [Bool.and_eq_true] at hmodifier
        exact (startsMemberName_or_opensSignature (.inl
          (startsMemberName_of_isWordOf hmodifier.1))).1 hbefore
    . rintro hbang
      simp [hbang, Token.isWordOf] at hmodifier
    . intro hsign
      refine ⟨next, more', rfl, ?_⟩
      rcases hsign with hsign | hsign
      . simpa [hsign] using hmodifier
      . simpa [hsign] using hmodifier

theorem exists_row {item first : Item} {rest rest₁ rest₂ mods behind : List Item}
    {hlt : rest₁.length < rest.length + 1}
    (hskip : skipMemberModifiers item rest = ⟨first, rest₁, hlt⟩)
    (hmods : item :: rest = mods ++ first :: rest₁)
    (hfirst : first.token.startsMemberName = true ∨ first.token.opensSignature = true)
    (hbehind : rest₁ = behind ++ rest₂) :
    ∃ more, rest = more ++ rest₂ ∧ item :: more = mods ++ first :: behind
      ∧ ∀ ss, IsRow ((item :: more).map kept ++ ss) := by
  obtain ⟨x, more, hfront⟩ := List.exists_cons_of_ne_nil (by simp : mods ++ first :: behind ≠ [])
  have hitems : item :: rest = x :: more ++ rest₂ := by
    rw [hmods, hbehind, ← hfront]
    simp
  obtain ⟨rfl, hrest⟩ := List.cons.inj hitems
  refine ⟨more, hrest, hfront.symm, ?_⟩
  intro ss
  rw [← hfront]
  simpa using isRow_of_modifiers hskip hmods hfirst (behind.map kept ++ ss)

theorem TailRereads.exists_member {owner : Owner} {item first : Item}
    {rest rest₁ rest₂ rest₃ rest₄ : List Item} {h₁ : rest₁.length < rest.length + 1}
    {h₂ : rest₂.length < rest₁.length + 1} {h₃ : rest₃.length < rest₂.length + 1}
    {head : MemberHead} {isOptional : Bool} {stop : Nat} {m : Member} {ss : List Stretch}
    (hskip : skipMemberModifiers item rest = ⟨first, rest₁, h₁⟩)
    (hsignature : signatureStart? first rest₁ = none)
    (hhead : memberHead first rest₁ = .ok ⟨head, rest₂, h₂⟩)
    (hmark : optionalMark head.stop rest₂ = ⟨(isOptional, stop), rest₃, h₃⟩)
    (hrest : rest₃ = itemsOf ss ++ rest₄) (hsteady : IsSteady ss)
    (hreads : TailRereads g isInput true .member none ss rest₄)
    (hkind : m.kind = head.kindBefore rest₃) (hname : m.name = head.name)
    (hstays : memberFinding? g isInput owner m = none) :
    ∃ more, rest = more ++ rest₃ ∧ (∀ ss, IsRow ((item :: more).map kept ++ ss))
      ∧ MemberRereads g isInput owner ((item :: more).map kept ++ ss) rest₄ := by
  obtain ⟨mods, hmods, hskip'⟩ := skipMemberModifiers_reads item rest
  obtain ⟨hplus, hminus, used, hrest₁, hhead'⟩ := memberHead_reads hhead
  obtain ⟨mark, hrest₂, hmark'⟩ := optionalMark_reads head.stop rest₂
  have hfirst : first.token.startsMemberName = true := startsMemberName_of_memberHead hhead
  rw [hskip] at hmods hskip'
  rw [hmark] at hrest₂ hmark'
  dsimp only at hmods hskip' hhead' hmark' hrest₁ hrest₂
  subst hrest₂ hrest₁
  obtain ⟨more, hmore, hfront, hrow⟩ :=
    exists_row hskip hmods (.inl hfirst) (List.append_assoc used mark rest₃).symm
  refine ⟨more, hmore, hrow, ?_⟩
  have hstretches : (item :: more).map kept ++ ss
      = mods.map kept ++ kept first :: (used.map kept ++ (mark.map kept ++ ss)) := by
    rw [hfront]
    simp
  rw [hstretches]
  intro text isBroken after others rest' item' hremains hloose hahead
  obtain ⟨mods', back, hothers, hmods', hback⟩ := hremains.of_append
  cases hback with
  | @kept _ _ first' _ back hfirst' _ hback =>
  obtain ⟨used', back, rfl, hused', hback, hahead₁⟩ := hback.of_kept
  obtain ⟨mark', back, rfl, hmark₁, hback, hahead₂⟩ := hback.of_kept
  have hloose : AreLoose after (used.map kept ++ (mark.map kept ++ ss)) :=
    (areLoose_append.mp hloose).2
  have hloose := (areLoose_append.mp (areLoose_append.mp hloose).2).2
  have hahead₃ : Ahead rest₃ (back ++ rest') := by
    rw [hrest]
    exact hback.ahead hsteady hahead
  have hitem' : item' :: (others ++ rest')
      = mods' ++ first' :: (used' ++ (mark' ++ (back ++ rest'))) := by
    rw [← List.cons_append, hothers]
    simp
  obtain ⟨hvalue, hskipped⟩ := hskip' hmods'.of_map_kept.1 hfirst'
    (by rw [hfirst']; exact ⟨hplus, hminus⟩) (hahead₁ (hahead₂ hahead₃)) hitem'
  obtain ⟨hlt₁, hskipped⟩ := Parsed.exists_eq hvalue hskipped
  unfold parseMember
  rw [hskipped]
  dsimp only
  rw [signatureStart?_eq_none hsignature hfirst' (hahead₁ (hahead₂ hahead₃))]
  dsimp only
  apply (hhead' hused' hfirst' (hahead₂ hahead₃).opensSignature_eq).bind
  rintro head' hlt₂ ⟨hkind', hname'⟩
  obtain ⟨hlt₃, hmarked⟩ := Parsed.exists_eq rfl (hmark' hmark₁ hahead₃ head'.stop)
  dsimp only
  rw [hmarked]
  obtain ⟨run, hrun, hobjects, hterminator⟩ := hreads hback hloose hahead _
  dsimp only
  rw [hrun]
  refine .of_rest hterminator ?_
  intro owner' howner
  dsimp only [Parsed.map]
  rw [memberFindings, memberFinding?_eq_none_of_resembles g isInput howner _ _ hstays]
  . exact hobjects
  . rw [hkind]
    simp [MemberHead.kindBefore, hkind', hahead₃.opensSignature_eq]
  . simp [Member.name?, hname, hname']

theorem TailRereads.exists_signature (owner : Owner) {item first start : Item}
    {rest rest₁ rest₂ rest₃ rest₄ : List Item} {h₁ : rest₁.length < rest.length + 1}
    {h₂ : rest₂.length < rest₁.length + 1} {kind : MemberKind} {last : Token}
    {ss ss' : List Stretch} (hskip : skipMemberModifiers item rest = ⟨first, rest₁, h₁⟩)
    (hsignature : signatureStart? first rest₁ = some (kind, ⟨start, rest₂, h₂⟩))
    (hrest₂ : rest₂ = itemsOf ss ++ rest₃) (hbroken : isBrokenAfter false ss = false)
    (hsteady : IsSteady ss)
    (hterm : TermRereads g isInput true start ss last)
    (hrest₃ : rest₃ = itemsOf ss' ++ rest₄) (hsteady' : IsSteady ss')
    (hreads : TailRereads g isInput true .member (some last) ss' rest₄) :
    ∃ more, rest = more ++ rest₂ ∧ (∀ ss, IsRow ((item :: more).map kept ++ ss))
      ∧ MemberRereads g isInput owner ((item :: more).map kept ++ (ss ++ ss')) rest₄ := by
  obtain ⟨mods, hmods, hskip'⟩ := skipMemberModifiers_reads item rest
  obtain ⟨used, hused, hsignature'⟩ := signatureStart?_reads hsignature
  have hfirst := opensSignature_of_signatureStart? hsignature
  obtain ⟨_, _, hplus, hminus⟩ := startsMemberName_or_opensSignature hfirst
  rw [hskip] at hmods hskip'
  dsimp only at hmods hskip'
  have hbehind : ∃ behind, rest₁ = behind ++ rest₂ ∧ used ++ [start] = first :: behind := by
    cases used with
    | nil =>
      obtain ⟨rfl, rfl⟩ := List.cons.inj hused
      exact ⟨[], rfl, rfl⟩
    | cons x used =>
      obtain ⟨rfl, rfl⟩ := List.cons.inj hused
      exact ⟨used ++ [start], by simp, rfl⟩
  obtain ⟨behind, hrest₁, hstart⟩ := hbehind
  obtain ⟨more, hmore, hfront, hrow⟩ := exists_row hskip hmods hfirst hrest₁
  refine ⟨more, hmore, hrow, ?_⟩
  have hstretches : (item :: more).map kept ++ (ss ++ ss')
      = mods.map kept ++ kept first :: (behind.map kept ++ (ss ++ ss')) := by
    rw [hfront]
    simp
  rw [hstretches]
  intro text isBroken after others rest' item' hremains hloose hahead
  obtain ⟨mods', back, hothers, hmods', hback⟩ := hremains.of_append
  cases hback with
  | @kept _ _ first' _ back hfirst' _ hback =>
  obtain ⟨behind', back, rfl, hbehind', hback, hahead₁⟩ := hback.of_kept
  obtain ⟨front, back, rfl, hterm', hback'⟩ := hback.of_append
  rw [hbroken] at hback'
  have hloose : AreLoose after (behind.map kept ++ (ss ++ ss')) :=
    (areLoose_append.mp hloose).2
  have hloose := areLoose_append.mp (areLoose_append.mp hloose).2
  have hahead₂ : Ahead rest₂ (front ++ back ++ rest') := by
    have := hback.ahead (hsteady.append hsteady') hahead
    rwa [itemsOf_append, List.append_assoc, ← hrest₃, ← hrest₂] at this
  have hitem' : item' :: (others ++ rest')
      = mods' ++ first' :: (behind' ++ (front ++ back ++ rest')) := by
    rw [← List.cons_append, hothers]
    simp
  have hahead₁ : Ahead rest₁ (behind' ++ (front ++ back ++ rest')) := by
    rw [hrest₁]
    exact hahead₁ hahead₂
  obtain ⟨hvalue, hskipped⟩ := hskip' hmods'.of_map_kept.1 hfirst'
    (by rw [hfirst']; exact ⟨hplus, hminus⟩) hahead₁ hitem'
  obtain ⟨hlt₁, hskipped⟩ := Parsed.exists_eq hvalue hskipped
  have hused' : (first' :: behind').map token = used.map token ++ [start.token] := by
    rw [List.map_cons, hfirst', hbehind', ← List.map_cons, ← hstart]
    simp
  obtain ⟨used', start', hstart', hused', hstarts⟩ : ∃ used' start',
      first' :: behind' = used' ++ [start'] ∧ used'.map token = used.map token
        ∧ start'.token = start.token := by
    obtain ⟨used', more', heq, hused', hmore'⟩ := List.map_eq_append_iff.mp hused'
    obtain ⟨start', more', rfl, hstarts, hnil⟩ := List.map_eq_cons_iff.mp hmore'
    obtain rfl := List.map_eq_nil_iff.mp hnil
    exact ⟨used', start', heq, hused', hstarts⟩
  have hfirst₁ : first' :: (behind' ++ (front ++ back ++ rest'))
      = used' ++ start' :: (front ++ (back ++ rest')) := by
    rw [← List.cons_append, hstart']
    simp
  obtain ⟨hlt₂, hsignature₁⟩ := hsignature' hused' hstarts hfirst₁
  unfold parseMember
  rw [hskipped]
  dsimp only
  rw [hsignature₁]
  dsimp only
  apply (hterm hstarts hterm' hloose.1 (back ++ rest')).bind
  rintro term hlt₃ ⟨rfl, hobjects⟩
  obtain ⟨run, hrun, hobjects', hterminator⟩ := hreads hback' hloose.2 hahead term.stop
  dsimp only
  rw [hrun]
  refine .of_rest hterminator ?_
  intro owner' _
  dsimp only [Parsed.map]
  rw [memberFindings]
  show objectsFindings g isInput (term.objects ++ run.value.1) = []
  rw [objectsFindings_append, hobjects, hobjects']
  rfl

/-!
Each step of a parser is taken again.
-/

theorem TermRereads.of_ne {collect : Bool} {item : Item} (hitem : ∀ d, item.token ≠ .opening d) :
    TermRereads g isInput collect item [] item.token := by
  intro text after others item' hitem' hremains _ rest'
  cases hremains
  rw [parseTerm_of_ne (by rw [hitem']; exact hitem)]
  exact .leaving ⟨hitem', rfl⟩

theorem GroupRereads.term {collect : Bool} {item : Item} {d : Delimiter} {ss : List Stretch}
    (h : GroupRereads g isInput collect d ss) (hitem : item.token = .opening d)
    (hcollect : (collect && d == .brace) = false) :
    TermRereads g isInput collect item ss (.closing d) := by
  intro text after others item' hitem' hremains hloose rest'
  rw [parseTerm_group (hitem'.trans hitem) hcollect]
  apply (h rfl hremains hloose rest').bind
  intro group hlt hobjects
  exact ⟨_, _, rfl, rfl, hobjects⟩

theorem MembersRereads.term {item : Item} {o : ObjectType} {ss : List Stretch}
    (h : MembersRereads g isInput (.typeLiteral o) ss) (hitem : item.token = .opening .brace) :
    TermRereads g isInput true item ss (.closing .brace) := by
  intro text after others item' hitem' hremains hloose rest'
  unfold parseTerm
  simp only [hitem', hitem]
  apply (h hremains hloose item'.span rest').bind
  rintro ⟨ms, close⟩ hlt hms
  refine ⟨_, _, rfl, rfl, ?_⟩
  have hresembles : ∀ o', Owner.Resembles (.typeLiteral o') (.typeLiteral o) := fun _ => trivial
  show objectsFindings g isInput [⟨ms, _⟩] = []
  rw [objectsFindings, objectFindings, hms _ (hresembles _)]
  rfl

theorem groupRereads_closer {collect : Bool} {item : Item} {d : Delimiter}
    (hitem : item.token = .closing d) : GroupRereads g isInput collect d [kept item] := by
  rintro text after others opening rfl hremains _ rest'
  cases hremains with
  | kept htoken _ htail =>
    cases htail
    rw [List.cons_append, parseGroup, if_pos (by rw [htoken, hitem]; exact beq_self_eq_true _)]
    exact .leaving rfl

theorem GroupRereads.cons {collect : Bool} {item : Item} {d : Delimiter} {last : Token}
    {ss ss' : List Stretch} (hitem : ∀ d, item.token ≠ .closing d)
    (hbroken : isBrokenAfter false ss = false)
    (hterm : TermRereads g isInput collect item ss last)
    (h : GroupRereads g isInput collect d ss') :
    GroupRereads g isInput collect d (kept item :: (ss ++ ss')) := by
  rintro text after others opening rfl hremains hloose rest'
  cases hremains with
  | @kept _ _ item' _ _ htoken _ htail =>
    obtain ⟨front, back, rfl, hfront, hback⟩ := htail.of_append
    rw [hbroken] at hback
    have hloose := areLoose_append.mp hloose
    rw [List.cons_append, List.append_assoc, parseGroup_cons (by rw [htoken]; exact hitem)]
    apply (hterm htoken hfront hloose.1 (back ++ rest')).bind
    rintro term hlt ⟨_, hobjects⟩
    apply (h rfl hback hloose.2 rest').bind
    intro group hlt' hobjects'
    refine ⟨_, _, rfl, ?_⟩
    show objectsFindings g isInput (term.objects ++ group.1) = []
    rw [objectsFindings_append, hobjects, hobjects']
    rfl

theorem runRereads_nil {collect : Bool} {place : Place} {last : Option Token} {rest : List Item}
    (h : ∀ item ∈ rest.head?, endsBefore place last item = true) :
    RunRereads g isInput collect place last [] rest := by
  intro text after others rest' hremains _ hahead stop
  cases hremains
  rw [List.nil_append]
  have hends := hahead.endsBefore h
  cases rest' with
  | nil =>
    unfold parseRun
    exact .leaving rfl
  | cons item rest' =>
    apply (Leaves.parseRun_nil (hends item rfl)).mono
    rintro _ rfl
    rfl

theorem RunRereads.cons {collect : Bool} {place : Place} {last : Option Token} {last' : Token}
    {item : Item} {rest : List Item} {ss ss' : List Stretch}
    (hends : endsBefore place last item = false) (hbroken : isBrokenAfter false ss = false)
    (hterm : TermRereads g isInput collect item ss last')
    (h : RunRereads g isInput collect place (some last') ss' rest) :
    RunRereads g isInput collect place last (kept item :: (ss ++ ss')) rest := by
  intro text after others rest' hremains hloose hahead stop
  cases hremains with
  | @kept _ _ item' _ _ htoken hline htail =>
    obtain ⟨front, back, rfl, hfront, hback⟩ := htail.of_append
    rw [hbroken] at hback
    have hloose := areLoose_append.mp hloose
    have hends' : endsBefore place last item' = false := by
      rw [← hends]
      simp [endsBefore, htoken, hline]
    rw [List.cons_append, List.append_assoc]
    unfold parseRun
    rw [if_neg (by simp [hends'])]
    apply (hterm htoken hfront hloose.1 (back ++ rest')).bind
    rintro term hlt ⟨rfl, hobjects⟩
    apply (h hback hloose.2 hahead term.stop).bind
    intro run hlt' hobjects'
    refine ⟨_, _, rfl, ?_⟩
    show objectsFindings g isInput (term.objects ++ run.1) = []
    rw [objectsFindings_append, hobjects, hobjects']
    rfl

theorem membersRereads_closer {owner : Owner} {item : Item} (hitem : item.token = .closing .brace) :
    MembersRereads g isInput owner [kept item] := by
  intro text isBroken after others hremains _ opening rest'
  cases hremains with
  | kept htoken _ htail =>
    cases htail
    apply (Leaves.parseMembers_nil (htoken.trans hitem)).mono
    rintro _ rfl owner' _
    rfl

theorem MembersRereads.separator {owner : Owner} {item : Item} {ss : List Stretch}
    (hitem : item.isSeparator) (h : MembersRereads g isInput owner ss) :
    MembersRereads g isInput owner (kept item :: ss) := by
  intro text isBroken after others hremains hloose opening rest'
  cases hremains with
  | @kept _ _ item' _ others htoken _ htail =>
    have hagain := (h htail hloose opening rest').loosen
    rw [List.cons_append]
    unfold parseMembers
    rcases hitem with hitem | hitem
    . simp only [htoken, hitem]
      exact hagain
    . simp only [htoken, hitem]
      exact hagain

theorem MembersRereads.removed {owner : Owner} {first : Item} {more : List Item} {ss : List Stretch}
    (h : MembersRereads g isInput owner ss) :
    MembersRereads g isInput owner (removed first more :: ss) := by
  intro text isBroken after others hremains hloose opening rest'
  cases hremains with
  | removed htail => exact h htail hloose.2.2 opening rest'

theorem MembersRereads.member {owner : Owner} {item : Item} {items : List Item}
    {ss ss' : List Stretch} (hitem : ¬ item.isSeparator) (hclosing : ∀ d, item.token ≠ .closing d)
    (hbroken : ∀ isBroken, isBrokenAfter isBroken (kept item :: ss) = false)
    (hmember : MemberRereads g isInput owner (kept item :: ss) (itemsOf ss' ++ items))
    (hrow : IsRow ss') (h : MembersRereads g isInput owner ss') :
    MembersRereads g isInput owner (kept item :: ss ++ ss') := by
  intro text isBroken after others hremains hloose opening rest'
  obtain ⟨front, back, rfl, hfront, hback⟩ := hremains.of_append
  rw [hbroken] at hback
  have hloose := areLoose_append.mp hloose
  have hahead := hback.ahead_of_isRow hrow hloose.2 items rest'
  have htoken : ∃ item' front', front = item' :: front' ∧ item'.token = item.token := by
    cases hfront with
    | @kept _ _ item' _ front' htoken => exact ⟨item', front', rfl, htoken⟩
  obtain ⟨item', front', rfl, htoken⟩ := htoken
  have hread := hmember hfront hloose.1 hahead
  rw [Item.isSeparator, not_or, ← htoken] at hitem
  rw [← htoken] at hclosing
  rw [List.append_assoc, List.cons_append]
  unfold parseMembers
  dsimp only
  split
  . next d hd => exact absurd hd (hclosing d)
  . next hsemicolon => exact absurd hsemicolon hitem.1
  . next hcomma => exact absurd hcomma hitem.2
  . apply hread.bind
    intro m hlt hm
    apply (h hback hloose.2 opening rest').bind
    intro ms hlt' hms
    refine ⟨_, _, rfl, ?_⟩
    intro owner' howner
    show membersFindings g isInput owner' (m :: ms.1) = []
    rw [membersFindings, hm owner' howner, hms owner' howner]
    rfl

end Stretch
end Delegation
