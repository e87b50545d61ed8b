import Delegation.Proofs.Progress.LoopedDeclarations
import Delegation.Proofs.Grammar.Statement

/-!
This module contains that the parser of declaration files gets on: each round of its loops reads
something if another one follows, so that there are no more of them than items.
-/

namespace Delegation

section

variable {item : Item} {rest : List Item}

theorem rest_suffix_of_parseTerm {collect : Bool} {p : Parsed Item Term (rest.length + 1)}
    (h : parseTerm collect item rest = .ok p) : p.rest <:+ rest := by
  rcases item.token.delimiter_cases with ⟨d, hd⟩ | ⟨d, hd⟩ | ⟨_, hclosing⟩
  . obtain ⟨more, hrest, _⟩ := parseTerm_eq_ok h (by simp [hd])
    exact ⟨more, hrest.symm⟩
  . rw [parseTerm_of_ne (by simp [hd])] at h
    cases h
    exact List.suffix_refl _
  . obtain ⟨more, hrest, _⟩ := parseTerm_eq_ok h hclosing
    exact ⟨more, hrest.symm⟩

theorem skipModifiers_suffix (modifiers : List String) (item : Item) (rest : List Item) :
    (skipModifiers modifiers item rest).rest <:+ rest := by
  induction rest generalizing item with
  | nil => exact List.suffix_refl _
  | cons next rest ih =>
    unfold skipModifiers
    split
    . exact (ih next).trans (List.suffix_cons ..)
    . exact List.suffix_refl _

end

namespace DeclarationLoops

open Attempt

/--
What is read of the items wherever a loop goes round once more, and wherever something is parsed
that has to be there. Groups and object types are entered behind the delimiter that opens them.
-/
structure GetsOn (loops : DeclarationLoops) : Prop where
  groupRound : ∀ collect opening objects items,
    Advances items (groupRound (loops.term collect) opening objects items)
  scanRound : ∀ collect place started scanned items,
    Advances items (scanRound (loops.term collect) place started scanned items)
  membersRound : ∀ opening members items, Advances items (loops.membersRound opening members items)
  suffixRound : ∀ opening stop items, Advances items (loops.suffixRound opening stop items)
  paramsRound : ∀ opening params items, Advances items (loops.paramsRound opening params items)
  heritageRound : ∀ items, Advances items (loops.heritageRound items)
  statementsRound : ∀ opening statements items,
    Advances items (loops.statementsRound opening statements items)
  group : ∀ collect opening objects items,
    Consumes items (loops.group collect opening objects items)
  objectType : ∀ opening items, Consumes items (loops.objectType opening items)
  member : ∀ item rest, ¬ item.isSeparator → (∀ d, item.token ≠ .closing d) →
    Consumes (item :: rest) (loops.member item rest)
  statement : ∀ item rest, item.token.isTerminator = false →
    Consumes (item :: rest) (loops.statement item rest)

theorem consumes_term (collect : Bool) (item : Item) (rest : List Item) :
    Consumes (item :: rest) (bounded.term collect item rest) := by
  rw [term_bounded]
  exact consumes_of fun p h => .of_suffix_tail (rest_suffix_of_parseTerm h)

theorem advances_groupRound (collect : Bool) (opening : OpenDelimiter) (objects : List ObjectType)
    (items : List Item) :
    Advances items (groupRound (bounded.term collect) opening objects items) := by
  cases items with
  | nil => exact .fails _
  | cons item rest =>
    rw [groupRound]
    split
    . exact .leaves
    split
    . exact .fails _
    . exact (consumes_term collect item rest).round fun _ _ h => .reads h

theorem advances_scanRound (collect : Bool) (place : Place) (started : Bool) (scanned : Scanned)
    (items : List Item) :
    Advances items (scanRound (bounded.term collect) place started scanned items) := by
  cases items with
  | nil => exact .leaves
  | cons item rest =>
    rw [scanRound]
    split
    . exact .leaves
    . exact (consumes_term collect item rest).round fun _ _ h => .reads h

theorem consumes_group (collect : Bool) (opening : OpenDelimiter) (objects : List ObjectType)
    (items : List Item) : Consumes items (bounded.group collect opening objects items) := by
  rw [bounded_group]
  refine (consumes_of fun p h => ?_).bind fun _ _ h => .reads h
  obtain ⟨inner, closer, hitems, _⟩ := parseGroup_eq_ok h
  exact .of_suffix ⟨inner ++ [closer], by simpa using hitems.symm⟩ p.rest_lt

theorem consumes_members (opening : Span) (members : List Member) (items : List Item) :
    Consumes items (bounded.members opening members items) := by
  rw [bounded_members]
  refine (consumes_of fun p h => ?_).bind fun _ _ h => .reads h
  obtain ⟨inner, closer, hitems, _⟩ := parseMembers_eq_ok h
  exact .of_suffix ⟨inner ++ [closer], by simpa using hitems.symm⟩ p.rest_lt

theorem consumes_objectType (opening : Span) (items : List Item) :
    Consumes items (bounded.objectType opening items) :=
  (consumes_members opening [] items).bind fun _ _ h => .reads h

theorem consumes_member {item : Item} (rest : List Item) (hitem : ¬ item.isSeparator)
    (hclosing : ∀ d, item.token ≠ .closing d) :
    Consumes (item :: rest) (bounded.member item rest) := by
  rw [member_bounded]
  refine consumes_of fun p h => .of_suffix_tail ?_
  obtain ⟨more, hrest, _⟩ := parseMember_eq_ok h hitem hclosing
  exact ⟨more, hrest.symm⟩

theorem advances_membersRound (opening : Span) (members : List Member) (items : List Item) :
    Advances items (bounded.membersRound opening members items) := by
  cases items with
  | nil => exact .fails _
  | cons item rest =>
    rw [membersRound]
    split
    . split
      . exact .leaves
      . exact .fails _
    . exact .reads (.of_suffix_tail (List.suffix_refl _))
    . exact .reads (.of_suffix_tail (List.suffix_refl _))
    . next hclosing hsemicolon hcomma =>
      have hitem : ¬ item.isSeparator := fun h => h.elim hsemicolon hcomma
      exact (consumes_member rest hitem hclosing).round fun _ _ h => .reads h

theorem advances_suffixRound (opening : Span) (stop : Nat) (items : List Item) :
    Advances items (bounded.suffixRound opening stop items) := by
  cases items with
  | nil => exact .fails _
  | cons item rest =>
    rw [suffixRound]
    split
    . exact .leaves
    . split
      . exact .leaves
      . exact .fails _
    . next d _ =>
      have hgroup := consumes_group false ⟨d, item.span⟩ [] rest
      exact (hgroup.cons item).round fun _ _ h => .reads h
    . exact .reads (.of_suffix_tail (List.suffix_refl _))

theorem advances_paramsRound (opening : Span) (params : List TypeParam) (items : List Item) :
    Advances items (bounded.paramsRound opening params items) := by
  cases items with
  | nil => exact .fails _
  | cons item rest =>
    rw [paramsRound]
    split
    . exact .leaves
    . have hskip := skipModifiers_suffix paramModifiers item rest
      generalize skipModifiers paramModifiers item rest = skipped at hskip
      obtain ⟨first, rest₁, h₁⟩ := skipped
      dsimp only at hskip ⊢
      split
      . refine (consumes_of fun p h => .of_suffix_tail ?_).round fun _ _ h => .reads h
        obtain ⟨used, separator, hitems, _⟩ := parseParamSuffix_eq_ok h
        exact List.IsSuffix.trans ⟨used ++ separator, by simpa using hitems.symm⟩ hskip
      . exact .fails _

theorem advances_heritageRound (items : List Item) :
    Advances items (bounded.heritageRound items) := by
  cases items with
  | nil => exact .fails _
  | cons item rest =>
    rw [heritageRound]
    split
    . next d _ =>
      split
      . exact .leaves
      . have hgroup := consumes_group false ⟨d, item.span⟩ [] rest
        exact (hgroup.cons item).round fun _ _ h => .reads h
    . exact .fails _
    . exact .fails _
    . exact .reads (.of_suffix_tail (List.suffix_refl _))

theorem consumes_statement {item : Item} (rest : List Item)
    (hitem : item.token.isTerminator = false) :
    Consumes (item :: rest) (bounded.statement item rest) := by
  rw [statement_bounded rest hitem]
  refine consumes_of fun p h => .of_suffix_tail ?_
  obtain ⟨more, hrest, _⟩ := parseStatement_eq_ok h
  exact ⟨more, hrest.symm⟩

theorem advances_statementsRound (opening : Option Span) (statements : List Statement)
    (items : List Item) : Advances items (bounded.statementsRound opening statements items) := by
  cases items with
  | nil =>
    cases opening with
    | none => exact .leaves
    | some opening => exact .fails _
  | cons item rest =>
    rw [statementsRound]
    split
    . split
      . exact .leaves
      . exact .fails _
    . exact .reads (.of_suffix_tail (List.suffix_refl _))
    . next hclosing hsemicolon =>
      exact (consumes_statement rest (isTerminator_of_ne hclosing hsemicolon)).round
        fun _ _ h => .reads h

theorem getsOn_bounded : GetsOn bounded where
  groupRound := advances_groupRound
  scanRound := advances_scanRound
  membersRound := advances_membersRound
  suffixRound := advances_suffixRound
  paramsRound := advances_paramsRound
  heritageRound := advances_heritageRound
  statementsRound := advances_statementsRound
  group := consumes_group
  objectType := consumes_objectType
  member _ rest := consumes_member rest
  statement _ rest := consumes_statement rest

/--
Whether the loops come to the same where less than `calls` items are left.
-/
structure AgreeBelow (calls : Nat) (loops loops' : DeclarationLoops) : Prop where
  group : ∀ {items}, items.length < calls → ∀ collect opening objects,
    loops.group collect opening objects items = loops'.group collect opening objects items
  scan : ∀ {items}, items.length < calls → ∀ collect place started scanned,
    loops.scan collect place started scanned items
      = loops'.scan collect place started scanned items
  members : ∀ {items}, items.length < calls → ∀ opening members,
    loops.members opening members items = loops'.members opening members items
  suffix : ∀ {items}, items.length < calls → ∀ opening stop,
    loops.suffix opening stop items = loops'.suffix opening stop items
  params : ∀ {items}, items.length < calls → ∀ opening params,
    loops.params opening params items = loops'.params opening params items
  heritage : ∀ {items}, items.length < calls → loops.heritage items = loops'.heritage items
  statements : ∀ {items}, items.length < calls → ∀ opening statements,
    loops.statements opening statements items = loops'.statements opening statements items

namespace AgreeBelow

variable {calls : Nat} {loops : DeclarationLoops} {items rest : List Item}

section

variable (h : AgreeBelow calls loops bounded)

include h

/-!
What is entered from the next round of a loop is entered behind its first item.
-/

theorem term (hrest : rest.length < calls) (collect : Bool) (item : Item) :
    loops.term collect item rest = bounded.term collect item rest := by
  unfold DeclarationLoops.term objectType
  simp only [h.group hrest, h.members hrest]

theorem groupRound (hitems : items.length < calls + 1) (collect : Bool) (opening : OpenDelimiter)
    (objects : List ObjectType) :
    groupRound (loops.term collect) opening objects items
      = groupRound (bounded.term collect) opening objects items := by
  cases items with
  | nil => rfl
  | cons item rest =>
    have hrest : rest.length < calls := Nat.lt_of_succ_lt_succ hitems
    simp only [Delegation.groupRound, h.term hrest]

theorem scanning (hitems : items.length < calls + 1) (collect : Bool) (place : Place)
    (started : Bool) (scanned : Scanned) :
    loops.scanning collect place started scanned items
      = bounded.scanning collect place started scanned items := by
  have hround : scanRound (loops.term collect) place started scanned items
      = scanRound (bounded.term collect) place started scanned items := by
    cases items with
    | nil => rfl
    | cons item rest =>
      have hrest : rest.length < calls := Nat.lt_of_succ_lt_succ hitems
      simp only [scanRound, h.term hrest]
  exact loop_congr hround (advances_scanRound _ _ _ _ _)
    fun scanned rest hlt => h.scan (by omega) ..

theorem run (hitems : items.length < calls) (collect : Bool) (place : Place) (stop : Nat) :
    loops.run collect place stop items = bounded.run collect place stop items := by
  simp only [DeclarationLoops.run, h.scan hitems]

theorem head (hrest : rest.length < calls) (item : Item) :
    loops.head item rest = bounded.head item rest := by
  simp only [DeclarationLoops.head, h.group hrest]

theorem member (hrest : rest.length < calls) (item : Item) :
    loops.member item rest = bounded.member item rest := by
  unfold DeclarationLoops.member
  generalize skipMemberModifiers item rest = skipped
  obtain ⟨first, rest₁, h₁⟩ := skipped
  dsimp only
  generalize signatureStart? first rest₁ = signature
  rcases signature with _ | ⟨kind, start, rest₂, h₂⟩
  . rw [h.head (by omega), head_bounded]
    apply of_bind_congr
    intro head rest₂ h₂
    have hmark := (optionalMark head.stop rest₂).rest_lt
    simp only [h.run (Nat.lt_of_lt_of_le hmark (by omega))]
  . have hstart : (start :: rest₂).length < calls + 1 := by
      rw [List.length_cons]
      omega
    simp only [h.scanning hstart]

theorem membersRound (hitems : items.length < calls + 1) (opening : Span)
    (members : List Member) :
    loops.membersRound opening members items = bounded.membersRound opening members items := by
  cases items with
  | nil => rfl
  | cons item rest =>
    have hrest : rest.length < calls := Nat.lt_of_succ_lt_succ hitems
    simp only [DeclarationLoops.membersRound, h.member hrest]

theorem suffixRound (hitems : items.length < calls + 1) (opening : Span) (stop : Nat) :
    loops.suffixRound opening stop items = bounded.suffixRound opening stop items := by
  cases items with
  | nil => rfl
  | cons item rest =>
    have hrest : rest.length < calls := Nat.lt_of_succ_lt_succ hitems
    simp only [DeclarationLoops.suffixRound, h.group hrest]

theorem paramsRound (hitems : items.length < calls + 1) (opening : Span)
    (params : List TypeParam) :
    loops.paramsRound opening params items = bounded.paramsRound opening params items := by
  cases items with
  | nil => rfl
  | cons item rest =>
    have hrest : (skipModifiers paramModifiers item rest).rest.length < calls :=
      Nat.lt_of_lt_of_le (skipModifiers paramModifiers item rest).rest_lt
        (Nat.le_of_lt_succ hitems)
    simp only [DeclarationLoops.paramsRound, h.suffix hrest]

theorem heritageRound (hitems : items.length < calls + 1) :
    loops.heritageRound items = bounded.heritageRound items := by
  cases items with
  | nil => rfl
  | cons item rest =>
    have hrest : rest.length < calls := Nat.lt_of_succ_lt_succ hitems
    simp only [DeclarationLoops.heritageRound, h.group hrest]

theorem paramList (hitems : items.length < calls) :
    loops.paramList items = bounded.paramList items := by
  cases items with
  | nil => rfl
  | cons item rest =>
    have hrest : rest.length < calls := Nat.lt_of_succ_lt hitems
    simp only [DeclarationLoops.paramList, h.params hrest]

theorem typeAlias (hitems : items.length < calls) (start : Nat) :
    loops.typeAlias start items = bounded.typeAlias start items := by
  unfold DeclarationLoops.typeAlias
  apply of_bind_congr
  intro name rest₁ h₁
  dsimp only
  rw [h.paramList (by omega), paramList_bounded]
  apply of_bind_congr
  intro params rest₂ h₂
  apply of_bind_congr
  intro equals rest₃ h₃
  dsimp only at h₃
  have hscan : rest₃.length < calls := by omega
  simp only [aliasedType, h.scan hscan]

theorem block (hitems : items.length < calls) (start : Nat) :
    loops.block start items = bounded.block start items := by
  unfold DeclarationLoops.block
  apply of_bind_congr
  intro name rest₁ h₁
  dsimp only
  rw [h.paramList (by omega), paramList_bounded]
  apply of_bind_congr
  intro params rest₂ h₂
  dsimp only
  rw [h.heritage (by omega), bounded_heritage]
  apply of_bind_congr
  intro opening rest₃ h₃
  have h₃ : rest₃.length < calls := by omega
  simp only [h.members h₃]

theorem namespaceBlock (hitems : items.length < calls) (start : Nat) (keyword : Item) :
    loops.namespaceBlock start keyword items = bounded.namespaceBlock start keyword items := by
  unfold DeclarationLoops.namespaceBlock
  apply of_bind_congr
  intro name rest₁ h₁
  dsimp only
  generalize takeToken? (.opening .brace) rest₁ = taken
  rcases taken with _ | ⟨opening, rest₂, h₂⟩
  . have h₁ : rest₁.length < calls := by omega
    simp only [h.run h₁]
  . have h₂ : rest₂.length < calls := by omega
    simp only [h.statements h₂]

theorem statement (hrest : rest.length < calls) (item : Item) :
    loops.statement item rest = bounded.statement item rest := by
  unfold DeclarationLoops.statement
  generalize skipModifiers statementModifiers item rest = skipped
  obtain ⟨keyword, rest₁, h₁⟩ := skipped
  have h₁ : rest₁.length < calls := by omega
  have hother : (keyword :: rest₁).length < calls + 1 := Nat.succ_lt_succ h₁
  simp only [h.typeAlias h₁, h.block h₁, h.namespaceBlock h₁, otherStatement, h.scanning hother]

theorem statementsRound (hitems : items.length < calls + 1) (opening : Option Span)
    (statements : List Statement) :
    loops.statementsRound opening statements items
      = bounded.statementsRound opening statements items := by
  cases items with
  | nil => rfl
  | cons item rest =>
    have hrest : rest.length < calls := Nat.lt_of_succ_lt_succ hitems
    simp only [DeclarationLoops.statementsRound, h.statement hrest]

theorem next : AgreeBelow (calls + 1) loops.next bounded.next where
  group hitems collect opening objects :=
    loop_congr (h.groupRound hitems ..) (advances_groupRound _ _ _ _)
      fun objects rest hlt => h.group (by omega) ..
  scan hitems := h.scanning hitems
  members hitems opening members :=
    loop_congr (h.membersRound hitems ..) (advances_membersRound _ _ _)
      fun members rest hlt => h.members (by omega) ..
  suffix hitems opening stop :=
    loop_congr (h.suffixRound hitems ..) (advances_suffixRound _ _ _)
      fun stop rest hlt => h.suffix (by omega) ..
  params hitems opening params :=
    loop_congr (h.paramsRound hitems ..) (advances_paramsRound _ _ _)
      fun params rest hlt => h.params (by omega) ..
  heritage hitems :=
    loop_congr (h.heritageRound hitems) (advances_heritageRound _)
      fun _ rest hlt => h.heritage (by omega)
  statements hitems opening statements :=
    loop_congr (h.statementsRound hitems ..) (advances_statementsRound _ _ _)
      fun statements rest hlt => h.statements (by omega) ..

end

end AgreeBelow

/--
With as many calls as there are items behind it, a loop comes to what it does in the library.
-/
theorem within_agreeBelow (calls : Nat) : AgreeBelow calls (within calls) bounded := by
  induction calls with
  | zero => constructor <;> intro items hitems <;> cases hitems
  | succ calls ih =>
    have hnext := ih.next
    rwa [next_bounded] at hnext

theorem tree_within {ls : List Lexeme} {calls : Nat} (h : (Item.ofLexemes ls).length < calls) :
    (within calls).tree ls = some (DeclarationTree.ofLexemes ls) := by
  rw [← tree_bounded, tree, tree, (within_agreeBelow calls).statements h]

end DeclarationLoops
end Delegation
