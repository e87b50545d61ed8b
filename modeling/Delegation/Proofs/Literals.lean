import Delegation.Proofs.Grammar.Node

/-!
This module contains which braces of a declaration file begin the object types of its tree. The file
is divided into pieces: items that are looked at, one by one, and what the parser passes over.
-/

namespace Delegation

open Item

def Node.literal? : Node → Option Nat
  | object o => some o.span.start
  | _ => none

def Node.heading? : Node → Option (Located String × List TypeParam)
  | typeAlias a => some (a.name, a.params)
  | interfaceBlock b | classBlock b => some (b.name, b.params)
  | _ => none

def Node.hasBody : Node → Bool
  | interfaceBlock _ | classBlock _ | namespaceBlock .. => true
  | _ => false

/--
Whether a statement that begins with `first` and is no declaration shows the object types in it: it
is about variables or a function.
-/
def showsLiterals (first : Item) (rest : List Item) : Bool :=
  let keyword := skipModifiers statementModifiers first rest
  keyword.value.token.isWordOf variableWords && !startsWith (·.isWord "enum") keyword.rest

/--
A part of a declaration file, by how it is looked through for object types.
-/
inductive Portion where
  /--
  An item that is looked at. If it is a brace, it begins an object type.
  -/
  | seen (item : Item)
  | head (items : List Item)
  | body (opener : Item)
  | name (items : List Item)
  | closed (items : List Item)

namespace Portion

def items : Portion → List Item
  | seen item | body item => [item]
  | head items | name items | closed items => items

def literal? : Portion → Option Nat
  | seen item => if item.token = .opening .brace then some item.span.start else none
  | _ => none

/--
Whether a piece is passed over as a part of `node`. The node has `front` in front of the piece and
`back` behind it, and the file goes on with `behind`.
-/
def IsPassedIn (node : Node) (front back behind : List Item) : Portion → Prop
  | seen _ => False
  | head items => front = [] ∧ ∃ name params, node.heading? = some (name, params)
    ∧ HeadOf items name params
  | body opener => node.hasBody = true ∧ opener.token = .opening .brace
    ∧ IsBraceless (delimitersOf front)
  | name items => (∃ owner m, node = .member owner m) ∧ (∀ item ∈ front, item.CanModify)
    ∧ IsMemberName items none
  | closed items => front = [] ∧ back = [] ∧ (∃ span, node = .other [] span)
    ∧ ∃ first more, items = first :: more ∧ showsLiterals first (more ++ behind) = false

def FitsIn (nodes : List Node) (behind : List Item) (p : Portion) : Prop :=
  (∃ item, p = seen item) ∨ ∃ node ∈ nodes, ∃ front back, node.IsReadFrom (front ++ p.items ++ back)
    ∧ back <+: behind ∧ p.IsPassedIn node front back behind

def AllFitIn (nodes : List Node) (behind : List Item) : List Portion → Prop
  | [] => True
  | p :: ps => p.FitsIn nodes (ps.flatMap items ++ behind) ∧ AllFitIn nodes behind ps

theorem FitsIn.mono {nodes more : List Node} {behind : List Item} {p : Portion}
    (h : p.FitsIn nodes behind) (hmore : ∀ node ∈ nodes, node ∈ more) : p.FitsIn more behind := by
  rcases h with h | ⟨node, hnode, hpassed⟩
  . exact .inl h
  . exact .inr ⟨node, hmore node hnode, hpassed⟩

theorem AllFitIn.mono {nodes more : List Node} {behind : List Item} {ps : List Portion}
    (h : AllFitIn nodes behind ps) (hmore : ∀ node ∈ nodes, node ∈ more) :
    AllFitIn more behind ps := by
  induction ps with
  | nil => trivial
  | cons p ps ih => exact ⟨h.1.mono hmore, ih h.2⟩

theorem AllFitIn.append {nodes : List Node} {behind : List Item} {ps qs : List Portion}
    (h : AllFitIn nodes (qs.flatMap items ++ behind) ps) (h' : AllFitIn nodes behind qs) :
    AllFitIn nodes behind (ps ++ qs) := by
  induction ps with
  | nil => exact h'
  | cons p ps ih =>
    refine ⟨?_, ih h.2⟩
    show p.FitsIn nodes ((ps ++ qs).flatMap items ++ behind)
    rw [List.flatMap_append, List.append_assoc]
    exact h.1

end Portion

open Portion

/--
Whether pieces that fit in `nodes` divide `items` up to `rest`, and begin the object types among
`nodes`, in their order.
-/
def AreDivided (items rest : List Item) (nodes : List Node) : Prop :=
  ∃ ps : List Portion, items = ps.flatMap Portion.items ++ rest ∧ AllFitIn nodes rest ps
    ∧ ps.filterMap Portion.literal? = nodes.filterMap Node.literal?

namespace AreDivided

variable {items mid rest : List Item} {nodes more : List Node} {node : Node}

theorem nil (items : List Item) : AreDivided items items [] :=
  ⟨[], rfl, trivial, rfl⟩

theorem exists_append (h : AreDivided items rest nodes) : ∃ front, items = front ++ rest := by
  obtain ⟨ps, hitems, _⟩ := h
  exact ⟨_, hitems⟩

theorem append (h : AreDivided items mid nodes) (h' : AreDivided mid rest more) :
    AreDivided items rest (nodes ++ more) := by
  obtain ⟨ps, rfl, hfit, hliterals⟩ := h
  obtain ⟨qs, rfl, hfit', hliterals'⟩ := h'
  refine ⟨ps ++ qs, by simp, ?_, by simp [hliterals, hliterals']⟩
  apply (hfit.mono _).append (hfit'.mono _)
  . exact fun node hnode => List.mem_append_left _ hnode
  . exact fun node hnode => List.mem_append_right _ hnode

theorem mono (h : AreDivided items rest nodes) (hmore : ∀ node ∈ nodes, node ∈ more)
    (hliterals : nodes.filterMap Node.literal? = more.filterMap Node.literal?) :
    AreDivided items rest more := by
  obtain ⟨ps, hitems, hfit, heq⟩ := h
  exact ⟨ps, hitems, hfit.mono hmore, heq.trans hliterals⟩

theorem under (h : AreDivided items rest nodes) (hnode : node.literal? = none) :
    AreDivided items rest (node :: nodes) :=
  h.mono (fun _ => List.mem_cons_of_mem _) (List.filterMap_cons_none hnode).symm

theorem plain (rest : List Item) (h : ∀ item ∈ items, item.token ≠ .opening .brace) :
    AreDivided (items ++ rest) rest [] := by
  induction items with
  | nil => exact .nil rest
  | cons item items ih =>
    rw [List.forall_mem_cons] at h
    obtain ⟨ps, hitems, hfit, hliterals⟩ := ih h.2
    refine ⟨.seen item :: ps, ?_, ⟨.inl ⟨item, rfl⟩, hfit⟩, ?_⟩
    . rw [List.cons_append, hitems]
      rfl
    . rw [List.filterMap_cons_none (by simp [Portion.literal?, h.1]), hliterals]

theorem item {item : Item} (h : item.token ≠ .opening .brace) (rest : List Item) :
    AreDivided (item :: rest) rest [] := by
  have hitem : ∀ x ∈ [item], x.token ≠ .opening .brace := by simpa using h
  exact .plain rest hitem

theorem object {opener : Item} {o : ObjectType} (h : AreDivided items rest nodes)
    (hopener : opener.token = .opening .brace) (hspan : o.span.start = opener.span.start) :
    AreDivided (opener :: items) rest (.object o :: nodes) := by
  obtain ⟨ps, rfl, hfit, hliterals⟩ := h
  refine ⟨.seen opener :: ps, rfl, ⟨.inl ⟨opener, rfl⟩, hfit.mono ?_⟩, ?_⟩
  . exact fun _ => List.mem_cons_of_mem _
  . rw [List.filterMap_cons_some (b := opener.span.start) (by simp [Portion.literal?, hopener]),
      List.filterMap_cons_some (b := opener.span.start) (by simp [Node.literal?, hspan]), hliterals]

theorem passed {p : Portion} (front back : List Item)
    (hread : node.IsReadFrom (front ++ p.items ++ back)) (hback : back <+: rest)
    (hpassed : p.IsPassedIn node front back rest)
    (hnode : node.literal? = none) : AreDivided (p.items ++ rest) rest [node] := by
  have hp : p.literal? = none := by
    cases p with
    | seen item => exact hpassed.elim
    | _ => rfl
  refine ⟨[p], by simp, ⟨.inr ⟨node, .head _, front, back, hread, hback, hpassed⟩, trivial⟩, ?_⟩
  rw [List.filterMap_cons_none hp, List.filterMap_cons_none hnode]
  rfl

theorem visitObjects_nil (items : List Item) :
    AreDivided items items (visitObjects (fun _ => false) []) := by
  rw [visitObjects]
  exact .nil items

theorem visitObjects_append {os os' : List ObjectType}
    (h : AreDivided items mid (visitObjects (fun _ => false) os))
    (h' : AreDivided mid rest (visitObjects (fun _ => false) os')) :
    AreDivided items rest (visitObjects (fun _ => false) (os ++ os')) := by
  rw [Delegation.visitObjects_append]
  exact h.append h'

end AreDivided

theorem Item.isSeparator.areDivided {items : List Item} (h : ∀ item ∈ items, item.isSeparator)
    (rest : List Item) : AreDivided (items ++ rest) rest [] :=
  .plain rest fun item hitem => (h item hitem).ne_opening _

theorem areDivided_of_delimitersOf {items : List Item} (h : delimitersOf items = [])
    (rest : List Item) : AreDivided (items ++ rest) rest [] := by
  apply AreDivided.plain
  intro item hitem htoken
  rw [delimitersOf, List.filter_eq_nil_iff] at h
  exact h item.token (List.mem_map.mpr ⟨item, hitem, rfl⟩) (by simp [htoken, Token.isDelimiter])

theorem areDivided_terminator (stop : Nat) (items : List Item) :
    AreDivided items (terminator stop items).rest [] := by
  obtain ⟨separator, hitems, hall, _⟩ := terminator_eq stop items
  have := Item.isSeparator.areDivided hall (terminator stop items).rest
  rwa [← hitems] at this

theorem IsMark.areDivided {items : List Item} {isOptional : Bool} (h : IsMark items isOptional)
    (rest : List Item) : AreDivided (items ++ rest) rest [] := by
  apply AreDivided.plain
  cases h with
  | none => simp
  | question hitem => simp [hitem]
  | bang hitem => simp [hitem]
  | added hsign hitem => simp [hsign, hitem]
  | taken hsign hitem => simp [hsign, hitem]

theorem Item.CanModify.areDivided {items : List Item} (h : ∀ item ∈ items, item.CanModify)
    (rest : List Item) : AreDivided (items ++ rest) rest [] := by
  apply AreDivided.plain
  intro item hitem htoken
  have := h item hitem
  simp [CanModify, htoken, Token.isWordOf] at this

theorem IsMemberName.areDivided {items mods back next : List Item} {m : Member} (owner : Owner)
    (h : IsMemberName items m.name) (hmods : ∀ item ∈ mods, item.CanModify)
    (hread : MemberOf (mods ++ items ++ back) next m) :
    AreDivided (items ++ (back ++ next)) (back ++ next) [.member owner m] := by
  generalize hname : m.name = name at h
  cases h with
  | plain hitem =>
    refine (AreDivided.plain _ ?_).under rfl
    rcases hitem with hitem | hitem | hitem <;> simp [hitem]
  | secret hhash hitem => exact (AreDivided.plain _ (by simp [hhash, hitem])).under rfl
  | computed hopener hcloser hinner =>
    exact .passed (p := .name _) mods back ⟨next, hread⟩ (List.prefix_append back next)
      ⟨⟨owner, m, rfl⟩, hmods, .computed hopener hcloser hinner⟩ rfl

theorem areDivided_signatureStart? {item start : Item} {rest rest' : List Item} {kind : MemberKind}
    {hlt : rest'.length < rest.length + 1}
    (h : signatureStart? item rest = some (kind, ⟨start, rest', hlt⟩)) :
    AreDivided (item :: rest) (start :: rest') [] := by
  unfold signatureStart? at h
  split at h
  . cases h
    exact .nil _
  . split at h
    . next next rest'' =>
      split at h
      . next hnew =>
        rw [Bool.and_eq_true] at hnew
        cases h
        apply AreDivided.item
        intro htoken
        simp [htoken, Token.isWord] at hnew
      . cases h
    . cases h

mutual

theorem parseTerm_areDivided {item : Item} {rest : List Item}
    {p : Parsed Item Term (rest.length + 1)} (h : parseTerm true item rest = .ok p) :
    AreDivided (item :: rest) p.rest (visitObjects (fun _ => false) p.value.objects) := by
  unfold parseTerm at h
  split at h
  . next d hd =>
    split at h
    . next hbrace =>
      rw [Bool.and_eq_true, beq_iff_eq] at hbrace
      obtain ⟨members, hmembers, h⟩ := bind_eq_ok h
      cases h
      have hinner := parseMembers_areDivided hmembers (.typeLiteral ⟨members.value.1,
        ⟨item.span.start, members.value.2.stop⟩⟩)
      simp only [Parsed.map, Parsed.loosen, visitObjects, visitObject, List.append_nil]
      exact hinner.object (hd.trans (congrArg Token.opening hbrace.2)) rfl
    . next hbrace =>
      obtain ⟨group, hgroup, h⟩ := bind_eq_ok h
      cases h
      have hitem : item.token ≠ .opening .brace := by
        rw [Bool.true_and, beq_iff_eq] at hbrace
        simpa [hd] using hbrace
      exact (AreDivided.item hitem rest).append (parseGroup_areDivided hgroup)
  . next hopening =>
    cases h
    exact (AreDivided.item (hopening _) rest).append (.visitObjects_nil rest)
termination_by 4 * rest.length + 4

theorem parseGroup_areDivided {opening : OpenDelimiter} {items : List Item}
    {p : Parsed Item (List ObjectType × Span) items.length}
    (h : parseGroup true opening items = .ok p) :
    AreDivided items p.rest (visitObjects (fun _ => false) p.value.1) := by
  unfold parseGroup at h
  split at h
  . cases h
  . next item rest =>
    split at h
    . next hcloser =>
      cases h
      have hitem : item.token ≠ .opening .brace := by simp [beq_iff_eq.mp hcloser]
      exact (AreDivided.item hitem rest).append (.visitObjects_nil rest)
    . split at h
      . cases h
      . obtain ⟨⟨term, rest', hlt⟩, hterm, h⟩ := bind_eq_ok h
        obtain ⟨⟨group, rest'', hlt'⟩, hgroup, h⟩ := bind_eq_ok h
        have hfirst := parseTerm_areDivided hterm
        have hothers := parseGroup_areDivided hgroup
        cases h
        exact .visitObjects_append hfirst hothers
termination_by 4 * items.length + 1

theorem parseRun_areDivided {place : Place} {last : Option Token} {stop : Nat}
    {items : List Item} {p : Parsed Item (List ObjectType × Nat) (items.length + 1)}
    (h : parseRun true place last stop items = .ok p) :
    AreDivided items p.rest (visitObjects (fun _ => false) p.value.1) := by
  unfold parseRun at h
  split at h
  . cases h
    exact .visitObjects_nil []
  . next item rest =>
    split at h
    . cases h
      exact .visitObjects_nil (item :: rest)
    . obtain ⟨⟨term, rest', hlt⟩, hterm, h⟩ := bind_eq_ok h
      obtain ⟨⟨run, rest'', hlt'⟩, hrun, h⟩ := bind_eq_ok h
      have hfirst := parseTerm_areDivided hterm
      have hothers := parseRun_areDivided hrun
      cases h
      exact .visitObjects_append hfirst hothers
termination_by 4 * items.length + 1

theorem parseMembers_areDivided {opening : Span} {items : List Item}
    {p : Parsed Item (List Member × Span) items.length}
    (h : parseMembers opening items = .ok p) (owner : Owner) :
    AreDivided items p.rest (visitMembers (fun _ => false) owner p.value.1) := by
  unfold parseMembers at h
  split at h
  . cases h
  . next item rest =>
    have step : item.isSeparator → (parseMembers opening rest).map .loosen = .ok p →
        AreDivided (item :: rest) p.rest (visitMembers (fun _ => false) owner p.value.1) := by
      intro hitem hmap
      obtain ⟨q, hq, rfl⟩ := map_eq_ok hmap
      exact (AreDivided.item (hitem.ne_opening _) rest).append (parseMembers_areDivided hq owner)
    split at h
    . next d hd =>
      split at h
      . cases h
        simp only [Parsed.leaving, visitMembers]
        exact .item (by simp [hd]) rest
      . cases h
    . next hitem => exact step (.inl hitem) h
    . next hitem => exact step (.inr hitem) h
    . next hclosing hsemicolon hcomma =>
      obtain ⟨⟨m, rest', hlt⟩, hmember, h⟩ := bind_eq_ok h
      obtain ⟨⟨members, rest'', hlt'⟩, hmembers, h⟩ := bind_eq_ok h
      have hitem : ¬ item.isSeparator := by
        rintro (hitem | hitem)
        . exact hsemicolon hitem
        . exact hcomma hitem
      have hfirst := parseMember_areDivided hmember hitem hclosing owner
      have hothers := parseMembers_areDivided hmembers owner
      cases h
      simp only [Parsed.map, Parsed.within, Parsed.loosen, visitMembers]
      exact hfirst.append hothers
termination_by 4 * items.length + 3

theorem parseMember_areDivided {item : Item} {rest : List Item}
    {p : Parsed Item Member (rest.length + 1)} (h : parseMember item rest = .ok p)
    (hitem : ¬ item.isSeparator) (hclosing : ∀ d, item.token ≠ .closing d) (owner : Owner) :
    AreDivided (item :: rest) p.rest (visitMember (fun _ => false) owner p.value) := by
  have hself : AreDivided (item :: rest) p.rest
      (.member owner p.value :: visitObjects (fun _ => false) p.value.objects) := by
    obtain ⟨used, hused, hread⟩ := parseMember_eq_ok h hitem hclosing
    obtain ⟨mods, hmods, hmodify⟩ := skipMemberModifiers_eq item rest
    unfold parseMember at h
    generalize skipMemberModifiers item rest = skipped at h hmods
    obtain ⟨first, rest₁, h₁⟩ := skipped
    dsimp only at h hmods
    split at h
    . next kind start rest₂ h₂ hsignature =>
      obtain ⟨⟨term, rest₃, h₃⟩, hterm, h⟩ := bind_eq_ok h
      obtain ⟨⟨⟨os, stop⟩, rest₄, h₄⟩, hrun, h⟩ := bind_eq_ok h
      have hbody := (parseTerm_areDivided hterm).visitObjects_append (parseRun_areDivided hrun)
      cases h
      rw [hmods]
      refine AreDivided.under ?_ rfl
      have hend := hbody.append (areDivided_terminator stop rest₄)
      rw [List.append_nil] at hend
      exact (Item.CanModify.areDivided hmodify _).append
        ((areDivided_signatureStart? hsignature).append hend)
    . obtain ⟨⟨head, rest₂, h₂⟩, hhead, h⟩ := bind_eq_ok h
      obtain ⟨more, hrest₁, hname, _⟩ := memberHead_eq_ok hhead
      obtain ⟨mark, hrest₂, hmark, _⟩ := optionalMark_eq head.stop rest₂
      dsimp only at h hrest₁
      generalize optionalMark head.stop rest₂ = marked at h hrest₂ hmark
      obtain ⟨⟨isOptional, stop⟩, rest₃, h₃⟩ := marked
      obtain ⟨⟨⟨os, stop'⟩, rest₄, h₄⟩, hrun, h⟩ := bind_eq_ok h
      have hend := (parseRun_areDivided hrun).append (areDivided_terminator stop' rest₄)
      have hnext : (terminator stop' rest₄).rest = p.rest := by
        cases h
        rfl
      have hvalue : head.name = p.value.name ∧ os = p.value.objects := by
        cases h
        exact ⟨rfl, rfl⟩
      rw [List.append_nil, hnext] at hend
      obtain ⟨tail, htail⟩ := hend.exists_append
      dsimp only at hrest₂ hname hmark htail hend
      have hitems : item :: rest = mods ++ (first :: more ++ (mark ++ rest₃)) := by
        rw [hmods, hrest₁, hrest₂]
        simp
      have hmember : item :: used = mods ++ (first :: more) ++ (mark ++ tail) := by
        rw [hused, htail, ← List.cons_append] at hitems
        apply List.append_cancel_right (hitems.trans _)
        simp
      rw [hmember] at hread
      rw [hvalue.1] at hname
      have hnamed := hname.areDivided owner hmodify hread
      rw [List.append_assoc mark, ← htail] at hnamed
      rw [hitems, ← hvalue.2]
      exact (Item.CanModify.areDivided hmodify _).append
        (hnamed.append ((hmark.areDivided rest₃).append hend))
  generalize p.value = value at hself
  cases value
  rw [visitMember]
  exact hself
termination_by 4 * rest.length + 6

end

theorem parseExpression_areDivided {what : Expectation} {items : List Item}
    {p : Parsed Item TypeExpr items.length} (h : parseExpression true what items = .ok p) :
    AreDivided items p.rest (visitObjects (fun _ => false) p.value.objects) := by
  unfold parseExpression at h
  split at h
  . cases h
  . next item rest =>
    split at h
    . cases h
    . obtain ⟨⟨term, rest', hlt⟩, hterm, h⟩ := bind_eq_ok h
      obtain ⟨run, hrun, h⟩ := bind_eq_ok h
      obtain ⟨⟨⟨os, stop⟩, rest'', hlt'⟩, hrun, hmap⟩ := bind_eq_ok hrun
      have hfirst := parseTerm_areDivided hterm
      have hothers := parseRun_areDivided hrun
      cases hmap
      cases h
      exact .visitObjects_append hfirst hothers

theorem parseAlias_areDivided {start : Nat} {items : List Item}
    {p : Parsed Item TypeAlias items.length} (h : parseAlias start items = .ok p) :
    ∃ head behind, items = head ++ behind
      ∧ (∀ front, delimitersOf front = [] → HeadOf (front ++ head) p.value.name p.value.params)
      ∧ AreDivided behind p.rest (visitObjects (fun _ => false) p.value.type.objects) := by
  unfold parseAlias at h
  obtain ⟨⟨name, rest₁, h₁⟩, hname, h⟩ := bind_eq_ok h
  obtain ⟨_, hand, h⟩ := bind_eq_ok h
  obtain ⟨params, rest₂, h₂, _, hparams, rfl⟩ := andMaybe_eq_ok hand
  obtain ⟨_, hand, h⟩ := bind_eq_ok h
  obtain ⟨equals, rest₃, h₃, _, hequals, rfl⟩ := andThen_eq_ok hand
  obtain ⟨_, hand, h⟩ := bind_eq_ok h
  obtain ⟨type, rest₄, h₄, _, htype, rfl⟩ := andThen_eq_ok hand
  obtain ⟨item, text, hitems, hitem, hlocated⟩ := parseName_eq_ok hname
  obtain ⟨list, hrest₁, hlist⟩ := parseParamList_eq_ok hparams
  obtain ⟨hrest₂, htoken⟩ := parseToken_eq_ok hequals
  have hbody := (parseExpression_areDivided htype).append
    (areDivided_terminator type.span.stop rest₄)
  cases h
  dsimp only at hitems hlocated hrest₁ hlist hrest₂ htoken hbody
  refine ⟨item :: list, equals :: rest₃, by simp [hitems, hrest₁, hrest₂], ?_, ?_⟩
  . intro front hfront
    have := HeadOf.mk hfront hitem hlist .nil .nil
    rwa [List.append_nil, ← hlocated] at this
  . have hplain : equals.token ≠ .opening .brace := by simp [htoken]
    rw [List.append_nil] at hbody
    exact (AreDivided.item hplain rest₃).append hbody

theorem parseBlock_areDivided {start : Nat} {items : List Item}
    {p : Parsed Item MemberBlock items.length} (h : parseBlock start items = .ok p)
    (owner : Owner) :
    ∃ head opener inner, items = head ++ opener :: inner
      ∧ (∀ front, delimitersOf front = [] → HeadOf (front ++ head) p.value.name p.value.params)
      ∧ opener.token = .opening .brace
      ∧ AreDivided inner p.rest (visitMembers (fun _ => false) owner p.value.members) := by
  unfold parseBlock at h
  obtain ⟨⟨name, rest₁, h₁⟩, hname, h⟩ := bind_eq_ok h
  obtain ⟨_, hand, h⟩ := bind_eq_ok h
  obtain ⟨params, rest₂, h₂, _, hparams, rfl⟩ := andMaybe_eq_ok hand
  obtain ⟨_, hand, h⟩ := bind_eq_ok h
  obtain ⟨opening, rest₃, h₃, _, hopening, rfl⟩ := andThen_eq_ok hand
  obtain ⟨_, hand, h⟩ := bind_eq_ok h
  obtain ⟨⟨ms, close⟩, rest₄, h₄, _, hmembers, rfl⟩ := andThen_eq_ok hand
  obtain ⟨item, text, hitems, hitem, hlocated⟩ := parseName_eq_ok hname
  obtain ⟨list, hrest₁, hlist⟩ := parseParamList_eq_ok hparams
  obtain ⟨heritage, opener, hrest₂, hheritage, hbraces, hopener, _⟩ := parseHeritage_eq_ok hopening
  have hms := parseMembers_areDivided hmembers owner
  cases h
  dsimp only at hitems hlocated hrest₁ hlist hrest₂ hms
  refine ⟨item :: list ++ heritage, opener, rest₃, by simp [hitems, hrest₁, hrest₂], ?_, hopener,
    hms⟩
  intro front hfront
  have := HeadOf.mk hfront hitem hlist hheritage hbraces
  rwa [← hlocated] at this

theorem AreDivided.passedOf {p : Portion} {node : Node} (front : List Item)
    {behind used next : List Item} (hused : used ++ next = front ++ p.items ++ behind)
    (hread : node.IsReadFrom used)
    (hbehind : ∃ tail, behind = tail ++ next)
    (hpassed : ∀ back, p.IsPassedIn node front back behind) (hnode : node.literal? = none) :
    AreDivided (p.items ++ behind) behind [node] := by
  obtain ⟨tail, rfl⟩ := hbehind
  have hsplit : used = front ++ p.items ++ tail := by
    apply List.append_cancel_right (hused.trans _)
    simp
  rw [hsplit] at hread
  exact .passed front tail hread (List.prefix_append tail next) (hpassed tail) hnode

theorem areDivided_block (node : Node) {nodes : List Node} {head used inner next : List Item}
    {opener : Item} {name : Located String} {params : List TypeParam}
    (hused : used ++ next = head ++ opener :: inner) (hread : node.IsReadFrom used)
    (hheading : node.heading? = some (name, params)) (hbody : node.hasBody = true)
    (hhead : HeadOf head name params) (hopener : opener.token = .opening .brace)
    (hinner : AreDivided inner next nodes) : AreDivided (used ++ next) next (node :: nodes) := by
  have hnode : node.literal? = none := by
    cases node <;> first | rfl | cases hbody
  obtain ⟨tail, htail⟩ := hinner.exists_append
  have hfront : AreDivided (head ++ opener :: inner) (opener :: inner) [node] :=
    .passedOf (p := .head head) [] hused hread ⟨opener :: tail, by simp [htail]⟩
      (fun _ => ⟨rfl, name, params, hheading, hhead⟩) hnode
  have hbrace : AreDivided (opener :: inner) inner [node] :=
    .passedOf (p := .body opener) head (by simpa [Portion.items] using hused) hread ⟨tail, htail⟩
      (fun _ => ⟨hbody, hopener, hhead.isBraceless⟩) hnode
  rw [hused]
  apply ((hfront.append hbrace).append hinner).mono
  . simp
  . simp [hnode]

theorem TermsOf.eq_nil {collect : Bool} {items : List Item} {os : List ObjectType}
    (h : TermsOf collect items os) (hcollect : collect = false) : os = [] := by
  match h with
  | .nil => rfl
  | .item _ _ htail => exact htail.eq_nil hcollect
  | .group _ _ _ hinner htail =>
    rw [hinner.eq_nil hcollect, htail.eq_nil hcollect, List.nil_append]
  | .object _ _ _ _ => cases hcollect

theorem areDivided_closed {first : Item} {more next : List Item} {span : Span}
    (hread : StatementOf (first :: more) (.other [] span))
    (hshows : showsLiterals first (more ++ next) = false) :
    AreDivided (first :: more ++ next) next (visitStatement (fun _ => false) (.other [] span)) := by
  have hself : AreDivided (first :: more ++ next) next [.other [] span] :=
    .passed (p := .closed (first :: more)) [] []
      (by rwa [List.nil_append, List.append_nil]) List.nil_prefix
      ⟨rfl, rfl, ⟨span, rfl⟩, first, more, rfl, hshows⟩ rfl
  exact (hself.append (.visitObjects_nil next)).under rfl

theorem isWordOf_variableWords_of_namespace {token : Token} {p q : Bool}
    (h : (token.isWordOf ["namespace", "module"] && p || token.isWord "global" && q) = true) :
    token.isWordOf variableWords = false := by
  cases token with
  | identifier name =>
    have hname : name ∈ ["namespace", "module", "global"] := by
      simp only [Token.isWordOf, Token.isWord, Bool.or_eq_true, Bool.and_eq_true,
        List.contains_iff_mem, beq_iff_eq] at h
      rcases h with ⟨hmem, _⟩ | ⟨rfl, _⟩
      . exact List.mem_append_left ["global"] hmem
      . decide
    have hall : ∀ name ∈ ["namespace", "module", "global"],
        variableWords.contains name = false := by decide
    exact hall name hname
  | _ => rfl

theorem showsLiterals_eq {first keyword : Item} {rest rest' : List Item}
    (hskip : (skipModifiers statementModifiers first rest).value = keyword
      ∧ (skipModifiers statementModifiers first rest).rest = rest') :
    (∀ collect, statementForm keyword rest' = .other collect → showsLiterals first rest = collect)
      ∧ (statementForm keyword rest' = .namespaceBlock → showsLiterals first rest = false) := by
  obtain ⟨rfl, rfl⟩ := hskip
  unfold showsLiterals statementForm
  dsimp only
  constructor
  . intro collect h
    split at h
    . cases h
    . split at h
      . cases h
      . split at h
        . cases h
        . split at h
          . cases h
          . exact StatementForm.other.inj h
  . intro h
    split at h
    . cases h
    . split at h
      . cases h
      . split at h
        . cases h
        . split at h
          . next hword =>
            rw [isWordOf_variableWords_of_namespace hword]
            rfl
          . cases h

mutual

theorem parseStatement_areDivided {item : Item} {rest : List Item}
    {p : Parsed Item Statement (rest.length + 1)} (h : parseStatement item rest = .ok p) :
    AreDivided (item :: rest) p.rest (visitStatement (fun _ => false) p.value) := by
  obtain ⟨more, hmore, hread⟩ := parseStatement_eq_ok h
  obtain ⟨mods, hmods, hplain⟩ := skipModifiers_eq statementModifiers item rest
  obtain ⟨s, next, hnext⟩ := p
  dsimp only at hmore hread ⊢
  have hused : item :: rest = item :: more ++ next := congrArg (item :: ·) hmore
  unfold parseStatement at h
  dsimp only at h
  generalize hskip : skipModifiers statementModifiers item rest = skipped at h hmods
  obtain ⟨keyword, rest₁, h₁⟩ := skipped
  have hshows := @showsLiterals_eq item keyword rest rest₁ (by rw [hskip]; exact ⟨rfl, rfl⟩)
  have hkeyword := @isDelimiter_of_statementForm keyword rest₁
  have hfront (hword : keyword.token.isDelimiter = false) : delimitersOf (mods ++ [keyword]) = [] := by
    simp [delimitersOf_cons, hplain, hword]
  rw [hused] at hmods ⊢
  dsimp only at h hmods
  split at h
  . next hform =>
    replace hkeyword := hfront (hkeyword (by simp [hform]))
    obtain ⟨⟨a, rest₂, h₂⟩, hdecl, h⟩ := bind_eq_ok h
    obtain ⟨head, behind, hrest₁, hhead, hobjects⟩ := parseAlias_areDivided hdecl
    obtain ⟨rfl, rfl⟩ : s = .typeAlias a ∧ next = rest₂ := by
      cases h
      exact ⟨rfl, rfl⟩
    have hitems : item :: more ++ next = mods ++ [keyword] ++ head ++ behind := by
      rw [hmods, hrest₁]
      simp
    have hfirst : AreDivided (mods ++ [keyword] ++ head ++ behind) behind [.typeAlias a] :=
      .passedOf (p := .head _) [] hitems hread hobjects.exists_append
        (fun _ => ⟨rfl, _, _, rfl, hhead _ hkeyword⟩) rfl
    rw [hitems]
    exact (hfirst.append hobjects).under rfl
  . next hform =>
    replace hkeyword := hfront (hkeyword (by simp [hform]))
    obtain ⟨⟨b, rest₂, h₂⟩, hdecl, h⟩ := bind_eq_ok h
    obtain ⟨head, opener, inner, hrest₁, hhead, hopener, hinner⟩ :=
      parseBlock_areDivided hdecl (.interfaceBlock b)
    obtain ⟨rfl, rfl⟩ : s = .interfaceBlock b ∧ next = rest₂ := by
      cases h
      exact ⟨rfl, rfl⟩
    have hitems : item :: more ++ next = mods ++ [keyword] ++ head ++ opener :: inner := by
      rw [hmods, hrest₁]
      simp
    exact (areDivided_block (.interfaceBlock b) hitems hread rfl rfl (hhead _ hkeyword) hopener
      hinner).under rfl
  . next hform =>
    replace hkeyword := hfront (hkeyword (by simp [hform]))
    obtain ⟨⟨b, rest₂, h₂⟩, hdecl, h⟩ := bind_eq_ok h
    obtain ⟨head, opener, inner, hrest₁, hhead, hopener, hinner⟩ :=
      parseBlock_areDivided hdecl (.classBlock b)
    obtain ⟨rfl, rfl⟩ : s = .classBlock b ∧ next = rest₂ := by
      cases h
      exact ⟨rfl, rfl⟩
    have hitems : item :: more ++ next = mods ++ [keyword] ++ head ++ opener :: inner := by
      rw [hmods, hrest₁]
      simp
    exact (areDivided_block (.classBlock b) hitems hread rfl rfl (hhead _ hkeyword) hopener
      hinner).under rfl
  . next hform =>
    replace hkeyword := hfront (hkeyword (by simp [hform]))
    obtain ⟨⟨name, rest₂, h₂⟩, hname, h⟩ := bind_eq_ok h
    obtain ⟨dotted, hrest₁, hdotted, _⟩ := parseNamespaceName_eq_ok hname
    dsimp only at h hrest₁
    split at h
    . next opening rest₃ h₃ htake =>
      obtain ⟨⟨⟨body, stop⟩, rest₄, h₄⟩, hbody, h⟩ := bind_eq_ok h
      obtain ⟨hrest₂, hopening⟩ := takeToken?_eq_some htake
      obtain ⟨ss, hss, hinner⟩ := parseStatements_areDivided hbody
      rw [List.reverse_nil, List.nil_append] at hss
      dsimp only at hrest₂ hopening hss hinner
      obtain ⟨rfl, rfl⟩ : s = .namespaceBlock name body ⟨item.span.start, stop⟩ ∧ next = rest₄ := by
        cases h
        exact ⟨rfl, rfl⟩
      subst hss
      have hhead : delimitersOf (mods ++ [keyword] ++ dotted) = [] := by
        rw [delimitersOf_append, hkeyword, hdotted]
        rfl
      have hitems : item :: more ++ next = mods ++ [keyword] ++ dotted ++ opening :: rest₃ := by
        rw [hmods, hrest₁, hrest₂]
        simp
      have hbrace : AreDivided (opening :: rest₃) rest₃
          [.namespaceBlock name body ⟨item.span.start, stop⟩] :=
        .passedOf (p := .body opening) _ (by simpa [Portion.items] using hitems) hread
          hinner.exists_append
          (fun _ => ⟨rfl, hopening, isBraceless_of_delimitersOf hhead⟩) rfl
      rw [hitems]
      exact ((areDivided_of_delimitersOf hhead _).append (hbrace.append hinner)).under rfl
    . obtain ⟨⟨⟨os, stop⟩, rest₃, h₃⟩, hrun, h⟩ := bind_eq_ok h
      obtain ⟨_, _, hbody, _⟩ := parseRun_eq_ok hrun
      obtain rfl : os = [] := hbody.eq_nil rfl
      obtain ⟨span, rfl⟩ : ∃ span, s = .other [] span := by
        cases h
        exact ⟨_, rfl⟩
      exact areDivided_closed hread (by rw [← hmore]; exact hshows.2 hform)
  . next collect hform =>
    obtain ⟨⟨⟨os, span⟩, rest₂, h₂⟩, hexpr, h⟩ := bind_eq_ok h
    obtain ⟨rfl, rfl⟩ : s = .other os ⟨item.span.start, (terminator span.stop rest₂).value⟩
        ∧ next = (terminator span.stop rest₂).rest := by
      cases h
      exact ⟨rfl, rfl⟩
    cases collect with
    | true =>
      have hbody := (parseExpression_areDivided hexpr).append (areDivided_terminator span.stop rest₂)
      rw [List.append_nil] at hbody
      rw [hmods]
      exact (((areDivided_of_delimitersOf hplain _).append hbody).under rfl).under rfl
    | false =>
      obtain ⟨_, _, _, hbody, _⟩ := parseExpression_eq_ok hexpr
      obtain rfl : os = [] := hbody.eq_nil rfl
      exact areDivided_closed hread (by rw [← hmore]; exact hshows.1 false hform)
termination_by 2 * rest.length + 2

theorem parseStatements_areDivided {opening : Option Span} {acc : List Statement}
    {items : List Item} {p : Parsed Item (List Statement × Nat) (items.length + 1)}
    (h : parseStatements opening acc items = .ok p) :
    ∃ ss, p.value.1 = acc.reverse ++ ss
      ∧ AreDivided items p.rest (visitStatements (fun _ => false) ss) := by
  cases items with
  | nil =>
    unfold parseStatements at h
    split at h
    . cases h
    . cases h
      refine ⟨[], (List.append_nil _).symm, ?_⟩
      rw [visitStatements]
      exact .nil []
  | cons item rest =>
    unfold parseStatements at h
    dsimp only at h
    split at h
    . next d hd =>
      split at h
      . cases h
        refine ⟨[], (List.append_nil _).symm, ?_⟩
        rw [visitStatements]
        exact .item (by simp [hd]) rest
      . cases h
    . next hitem =>
      obtain ⟨q, hq, rfl⟩ := map_eq_ok h
      obtain ⟨ss, hss, hall⟩ := parseStatements_areDivided hq
      exact ⟨ss, hss, (AreDivided.item (by simp [hitem]) rest).append hall⟩
    . obtain ⟨⟨s, rest', hlt⟩, hstatement, h⟩ := bind_eq_ok h
      obtain ⟨statements, hstatements, h⟩ := bind_eq_ok h
      have hfirst := parseStatement_areDivided hstatement
      obtain ⟨ss, hss, hall⟩ := parseStatements_areDivided hstatements
      cases h
      refine ⟨s :: ss, by simpa [Parsed.within, Parsed.loosen] using hss, ?_⟩
      rw [visitStatements]
      exact hfirst.append hall
termination_by 2 * items.length + 1

end

/--
The object types of a declaration tree begin at the braces of its file that are looked at. All other
braces are the bodies of declarations, or stand in what is passed over: in front of the type or the
body of a declaration, in the computed name of a member, or in a statement that is neither a
declaration nor about variables or a function.
-/
theorem DeclarationTree.areDivided {ls : List Lexeme} {tree : DeclarationTree}
    (h : ofLexemes ls = .ok tree) :
    AreDivided (Item.ofLexemes ls) [] (tree.visit fun _ => false) := by
  unfold ofLexemes at h
  dsimp only at h
  split at h
  . next statements stop rest hlt hparse =>
    cases h
    obtain ⟨_, _, _, _, _, _, hend, _⟩ := parseStatements_eq_ok hparse
    obtain ⟨ss, hss, hall⟩ := parseStatements_areDivided hparse
    have hrest := (hend rfl).2
    rw [List.reverse_nil, List.nil_append] at hss
    dsimp only at hss hrest hall
    rw [hrest, ← hss] at hall
    exact hall
  . cases h

end Delegation
