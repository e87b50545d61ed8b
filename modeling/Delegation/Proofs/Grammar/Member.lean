import Delegation.Declaration.Member
import Delegation.Proofs.Nesting

/-!
This module contains which items type expressions and members are read from. Their parsers are
shown to read nothing else, so that what holds of a member can be shown along its items.
-/

namespace Delegation

namespace Item

def stopAfter (stop : Nat) : List Item → Nat
  | [] => stop
  | item :: items => stopAfter item.span.stop items

def lastAfter (last : Option Token) : List Item → Option Token
  | [] => last
  | item :: items => lastAfter (some item.token) items

theorem stopAfter_append (stop : Nat) (items more : List Item) :
    stopAfter stop (items ++ more) = stopAfter (stopAfter stop items) more := by
  induction items generalizing stop with
  | nil => rfl
  | cons item items ih => exact ih item.span.stop

theorem lastAfter_append (last : Option Token) (items more : List Item) :
    lastAfter last (items ++ more) = lastAfter (lastAfter last items) more := by
  induction items generalizing last with
  | nil => rfl
  | cons item items ih => exact ih (some item.token)

def isSeparator (item : Item) : Prop :=
  item.token = .sign .semicolon ∨ item.token = .sign .comma

theorem isSeparator.ne_opening {item : Item} (h : item.isSeparator) (d : Delimiter) :
    item.token ≠ .opening d := by
  rcases h with h | h <;> simp [h]

theorem isSeparator.ne_closing {item : Item} (h : item.isSeparator) (d : Delimiter) :
    item.token ≠ .closing d := by
  rcases h with h | h <;> simp [h]

end Item

open Item

/--
Whether a member that ends with `separator` is over before `next`. Without a separator the next
item is on another line, or ends every member.
-/
def IsOver (separator next : List Item) : Prop :=
  separator = [] → ∀ item ∈ next.head?,
    item.isOnNewLine = true ∨ item.token.isTerminator = true ∨ item.token = .sign .comma

mutual

inductive TermsOf : (collect : Bool) → List Item → List ObjectType → Prop where
  | nil {collect : Bool} : TermsOf collect [] []
  | item {collect : Bool} {item : Item} {items : List Item} {os : List ObjectType}
    (hopening : ∀ d, item.token ≠ .opening d) (hclosing : ∀ d, item.token ≠ .closing d)
    (htail : TermsOf collect items os) : TermsOf collect (item :: items) os
  | group {collect : Bool} {opener closer : Item} {inner items : List Item} {d : Delimiter}
    {os os' : List ObjectType} (hopener : opener.token = .opening d)
    (hcloser : closer.token = .closing d) (hcollect : (collect && d == .brace) = false)
    (hinner : TermsOf collect inner os) (htail : TermsOf collect items os') :
    TermsOf collect (opener :: (inner ++ closer :: items)) (os ++ os')
  | object {opener closer : Item} {inner items : List Item} {ms : List Member}
    {os : List ObjectType} (hopener : opener.token = .opening .brace)
    (hcloser : closer.token = .closing .brace) (hinner : MembersOf inner ms)
    (htail : TermsOf true items os) :
    TermsOf true (opener :: (inner ++ closer :: items))
      (⟨ms, ⟨opener.span.start, closer.span.stop⟩⟩ :: os)

inductive MembersOf : List Item → List Member → Prop where
  | nil : MembersOf [] []
  | separator {item : Item} {items : List Item} {ms : List Member} (hitem : item.isSeparator)
    (htail : MembersOf items ms) : MembersOf (item :: items) ms
  | member {used items : List Item} {m : Member} {ms : List Member}
    (hmember : MemberOf used items m) (htail : MembersOf items ms) :
    MembersOf (used ++ items) (m :: ms)

/--
A member in front of `next`: its modifiers and its name, the rest of it with its object types, and
its separator.
-/
inductive MemberOf : List Item → (next : List Item) → Member → Prop where
  | mk {first : Item} {more head body separator next : List Item} {kind : MemberKind}
    {name : Option (Located String)} {isOptional : Bool} {os : List ObjectType}
    (hused : first :: more = head ++ body ++ separator) (hfirst : ¬ first.isSeparator)
    (hclosing : ∀ d, first.token ≠ .closing d) (hhead : IsBalanced head)
    (hbody : TermsOf true body os) (hseparator : ∀ item ∈ separator, item.isSeparator)
    (hover : IsOver separator next) :
    MemberOf (first :: more) next
      ⟨kind, name, isOptional, os, ⟨first.lead, stopAfter first.span.stop more⟩⟩

end

theorem TermsOf.append {collect : Bool} {items more : List Item} {os os' : List ObjectType}
    (h : TermsOf collect items os) (hmore : TermsOf collect more os') :
    TermsOf collect (items ++ more) (os ++ os') := by
  match h with
  | .nil => exact hmore
  | .item hopening hclosing htail => exact .item hopening hclosing (htail.append hmore)
  | .group hopener hcloser hcollect hinner htail =>
    rw [List.cons_append, List.append_assoc, List.cons_append, List.append_assoc]
    exact .group hopener hcloser hcollect hinner (htail.append hmore)
  | .object hopener hcloser hinner htail =>
    rw [List.cons_append, List.append_assoc, List.cons_append, List.cons_append]
    exact .object hopener hcloser hinner (htail.append hmore)

theorem Item.isSeparator.isBalanced {items : List Item} (h : ∀ item ∈ items, item.isSeparator) :
    IsBalanced items := by
  induction items with
  | nil => exact .nil
  | cons item items ih =>
    have hitem := h item (.head _)
    apply (ih _).cons hitem.ne_opening hitem.ne_closing
    intro x hx
    exact h x (.tail _ hx)

mutual

theorem TermsOf.isBalanced {collect : Bool} {items : List Item} {os : List ObjectType}
    (h : TermsOf collect items os) : IsBalanced items := by
  match h with
  | .nil => exact .nil
  | .item hopening hclosing htail => exact htail.isBalanced.cons hopening hclosing
  | .group hopener hcloser hcollect hinner htail =>
    have := (IsBalanced.group hopener hcloser hinner.isBalanced).append htail.isBalanced
    simpa using this
  | .object hopener hcloser hinner htail =>
    have := (IsBalanced.group hopener hcloser hinner.isBalanced).append htail.isBalanced
    simpa using this

theorem MembersOf.isBalanced {items : List Item} {ms : List Member} (h : MembersOf items ms) :
    IsBalanced items := by
  match h with
  | .nil => exact .nil
  | .separator hitem htail => exact htail.isBalanced.cons hitem.ne_opening hitem.ne_closing
  | .member hmember htail => exact hmember.isBalanced.append htail.isBalanced

theorem MemberOf.isBalanced {used next : List Item} {m : Member} (h : MemberOf used next m) :
    IsBalanced used := by
  match h with
  | .mk hused _ _ hhead hbody hseparator _ =>
    rw [hused]
    exact (hhead.append hbody.isBalanced).append (isSeparator.isBalanced hseparator)

end

theorem MemberOf.of_append {used next more : List Item} {m : Member}
    (h : MemberOf used (next ++ more) m) : MemberOf used next m := by
  cases h with
  | mk hused hfirst hclosing hhead hbody hseparator hover =>
    apply MemberOf.mk hused hfirst hclosing hhead hbody hseparator
    intro hnone item hitem
    apply hover hnone
    cases next with
    | nil => cases hitem
    | cons => exact hitem

/-!
The parsers without recursion come first.
-/

theorem isBalanced_singleton {item : Item} (hopening : ∀ d, item.token ≠ .opening d)
    (hclosing : ∀ d, item.token ≠ .closing d) : IsBalanced [item] :=
  IsBalanced.nil.cons hopening hclosing

def Item.CanModify (item : Item) : Prop :=
  item.token = .sign .plus ∨ item.token = .sign .minus ∨ item.token.isWordOf memberModifiers = true

inductive IsMemberName : List Item → Option (Located String) → Prop where
  | plain {item : Item} {text : String}
    (hitem : item.token = .identifier text ∨ item.token = .string text ∨ item.token = .number text) :
    IsMemberName [item] (some ⟨text, item.span⟩)
  | secret {hash item : Item} {text : String} (hhash : hash.token = .sign .hash)
    (hitem : item.token = .identifier text) :
    IsMemberName [hash, item] (some ⟨"#" ++ text, ⟨hash.span.start, item.span.stop⟩⟩)
  | computed {opener closer : Item} {inner : List Item} (hopener : opener.token = .opening .bracket)
    (hcloser : closer.token = .closing .bracket) (hinner : IsBalanced inner) :
    IsMemberName (opener :: (inner ++ [closer])) none

inductive IsMark : List Item → Bool → Prop where
  | none : IsMark [] false
  | question {item : Item} (hitem : item.token = .sign .question) : IsMark [item] true
  | bang {item : Item} (hitem : item.token = .sign .bang) : IsMark [item] false
  | added {sign item : Item} (hsign : sign.token = .sign .plus)
    (hitem : item.token = .sign .question) : IsMark [sign, item] true
  | taken {sign item : Item} (hsign : sign.token = .sign .minus)
    (hitem : item.token = .sign .question) : IsMark [sign, item] false

theorem Item.CanModify.isBalanced {items : List Item} (h : ∀ item ∈ items, item.CanModify) :
    IsBalanced items := by
  induction items with
  | nil => exact .nil
  | cons item items ih =>
    rw [List.forall_mem_cons] at h
    apply (ih h.2).cons
    all_goals
      intro d hd
      rcases h.1 with hitem | hitem | hitem
      . simp [hd] at hitem
      . simp [hd] at hitem
      . simp [hd, Token.isWordOf] at hitem

theorem IsMemberName.isBalanced {items : List Item} {name : Option (Located String)}
    (h : IsMemberName items name) : IsBalanced items := by
  cases h with
  | plain hitem =>
    apply isBalanced_singleton
    all_goals
      intro d hd
      simp [hd] at hitem
  | secret hhash hitem =>
    apply (isBalanced_singleton _ _).cons
    all_goals simp [hhash, hitem]
  | computed hopener hcloser hinner => exact IsBalanced.group hopener hcloser hinner

theorem IsMark.isBalanced {items : List Item} {isOptional : Bool} (h : IsMark items isOptional) :
    IsBalanced items := by
  cases h with
  | none => exact .nil
  | question hitem => exact isBalanced_singleton (by simp [hitem]) (by simp [hitem])
  | bang hitem => exact isBalanced_singleton (by simp [hitem]) (by simp [hitem])
  | added hsign hitem =>
    apply (isBalanced_singleton _ _).cons
    all_goals simp [hsign, hitem]
  | taken hsign hitem =>
    apply (isBalanced_singleton _ _).cons
    all_goals simp [hsign, hitem]

theorem skipMemberModifiers_eq (item : Item) (rest : List Item) :
    ∃ used, item :: rest = used ++ (skipMemberModifiers item rest).value
      :: (skipMemberModifiers item rest).rest ∧ ∀ item ∈ used, item.CanModify := by
  induction rest generalizing item with
  | nil => exact ⟨[], rfl, by simp⟩
  | cons next rest ih =>
    unfold skipMemberModifiers
    split
    . next hmodifier =>
      obtain ⟨used, hused, hall⟩ := ih next
      refine ⟨item :: used, congrArg (item :: ·) hused, List.forall_mem_cons.mpr ⟨?_, hall⟩⟩
      unfold isMemberModifier at hmodifier
      split at hmodifier
      . next hplus => exact .inl hplus
      . next hminus => exact .inr (.inl hminus)
      . rw [Bool.and_eq_true] at hmodifier
        exact .inr (.inr hmodifier.1)
    . exact ⟨[], rfl, by simp⟩

theorem optionalMark_eq (stop : Nat) (items : List Item) :
    ∃ used, items = used ++ (optionalMark stop items).rest
      ∧ IsMark used (optionalMark stop items).value.1
      ∧ (optionalMark stop items).value.2 = stopAfter stop used := by
  fun_cases optionalMark stop items with
  | case1 => exact ⟨[], rfl, .none, rfl⟩
  | case2 item rest hitem =>
    simp only [optionalMark, hitem]
    exact ⟨[item], rfl, .question hitem, rfl⟩
  | case3 item rest hitem =>
    simp only [optionalMark, hitem]
    exact ⟨[item], rfl, .bang hitem, rfl⟩
  | case4 item next rest hitem hnext =>
    simp only [optionalMark, hitem, hnext, if_true]
    exact ⟨[item, next], rfl, .added hitem (beq_iff_eq.mp hnext), rfl⟩
  | case5 item next rest hitem hnext =>
    simp only [optionalMark, hitem, hnext]
    exact ⟨[], rfl, .none, rfl⟩
  | case6 item next rest hitem hnext =>
    simp only [optionalMark, hitem, hnext, if_true]
    exact ⟨[item, next], rfl, .taken hitem (beq_iff_eq.mp hnext), rfl⟩
  | case7 item next rest hitem hnext =>
    simp only [optionalMark, hitem, hnext]
    exact ⟨[], rfl, .none, rfl⟩
  | case8 =>
    simp only [optionalMark]
    exact ⟨[], rfl, .none, rfl⟩

theorem terminator_eq (stop : Nat) (items : List Item) :
    ∃ used, items = used ++ (terminator stop items).rest ∧ (∀ item ∈ used, item.isSeparator)
      ∧ (terminator stop items).value = stopAfter stop used := by
  unfold terminator
  split
  . exact ⟨[], rfl, by simp, rfl⟩
  . next item rest =>
    split
    . next hitem =>
      simp only [Bool.and_eq_true, Bool.or_eq_true, beq_iff_eq] at hitem
      refine ⟨[item], rfl, ?_, rfl⟩
      intro x hx
      rw [List.mem_singleton] at hx
      subst hx
      exact hitem.1
    . exact ⟨[], rfl, by simp, rfl⟩

theorem parseName_eq_ok {what : Expectation} {items : List Item}
    {p : Parsed Item (Located String) items.length} (h : parseName what items = .ok p) :
    ∃ item name, items = item :: p.rest ∧ item.token = .identifier name
      ∧ p.value = ⟨name, item.span⟩ := by
  unfold parseName at h
  split at h
  . cases h
  . next item rest =>
    split at h
    . next name hname =>
      cases h
      exact ⟨item, name, rfl, hname, rfl⟩
    . cases h

theorem memberHead_eq_ok {item : Item} {rest : List Item}
    {p : Parsed Item MemberHead (rest.length + 1)} (h : memberHead item rest = .ok p) :
    ∃ more, rest = more ++ p.rest ∧ IsMemberName (item :: more) p.value.name
      ∧ p.value.stop = stopAfter item.span.stop more
      ∧ (p.value.kind = .method → startsWith Token.opensSignature p.rest = true) := by
  unfold memberHead at h
  split at h
  case h_4 hitem =>
    obtain ⟨name, hname, h⟩ := bind_eq_ok h
    obtain ⟨part, text, hrest, hpart, hvalue⟩ := parseName_eq_ok hname
    cases h
    refine ⟨[part], hrest, ?_, ?_, by rintro ⟨⟩⟩
    . simp only [Parsed.map, Parsed.loosen, hvalue]
      exact .secret hitem hpart
    . simp [Parsed.map, Parsed.loosen, hvalue, stopAfter]
  case h_5 hitem =>
    obtain ⟨close, hclose, h⟩ := bind_eq_ok h
    obtain ⟨inner, hrest, hcloser, hinner⟩ := skipGroup_eq_ok hclose
    cases h
    refine ⟨inner ++ [close.value], ?_, .computed hitem hcloser hinner, ?_, ?_⟩
    . rw [List.append_assoc]
      exact hrest
    . rw [stopAfter_append]
      rfl
    . intro hkind
      simp only [Parsed.map, Parsed.loosen] at hkind ⊢
      split at hkind
      . assumption
      . cases hkind
  case h_6 => cases h
  all_goals
    next hitem =>
    cases h
    exact ⟨[], rfl, .plain (by simp [hitem]), rfl, by rintro ⟨⟩⟩

theorem signatureStart?_eq_some {item start : Item} {rest rest' : List Item} {kind : MemberKind}
    {hlt : rest'.length < rest.length + 1}
    (h : signatureStart? item rest = some (kind, ⟨start, rest', hlt⟩)) :
    ∃ used, item :: rest = used ++ start :: rest' ∧ IsBalanced used
      ∧ start.token.opensSignature = true ∧ kind ≠ .method := by
  unfold signatureStart? at h
  split at h
  . next hopens =>
    cases h
    exact ⟨[], rfl, .nil, hopens, by simp⟩
  . split at h
    . next next rest'' =>
      split at h
      . next hnew =>
        rw [Bool.and_eq_true] at hnew
        cases h
        refine ⟨[item], rfl, isBalanced_singleton ?_ ?_, hnew.2, by simp⟩
        all_goals
          intro d hd
          simp [hd, Token.isWord] at hnew
      . cases h
    . cases h

theorem isOver_terminator {last : Option Token} {stop : Nat} {items : List Item}
    (h : ∀ item ∈ items.head?, endsBefore .member last item = true) {used : List Item}
    (hused : items = used ++ (terminator stop items).rest) :
    IsOver used (terminator stop items).rest := by
  rintro rfl item hitem
  rw [List.nil_append] at hused
  rw [← hused] at hitem
  have := h item hitem
  simp only [endsBefore, Bool.or_eq_true, Bool.and_eq_true, beq_iff_eq] at this
  rcases this with (hterminator | hcomma) | hline
  . exact .inr (.inl hterminator)
  . exact .inr (.inr hcomma.1)
  . exact .inl hline.1.1

theorem MemberOf.ofParts {item : Item} {rest body used next : List Item} (front : List Item) {kind : MemberKind}
    {name : Option (Located String)} {isOptional : Bool} {os : List ObjectType} {stop : Nat}
    (hitem : ¬ item.isSeparator) (hclosing : ∀ d, item.token ≠ .closing d)
    (hrest : item :: rest = front ++ body ++ used ++ next)
    (hne : front ++ body ≠ []) (hfront : IsBalanced front) (hbody : TermsOf true body os)
    (hused : ∀ item ∈ used, item.isSeparator) (hover : IsOver used next)
    (hstop : stop = stopAfter 0 (front ++ body ++ used)) :
    ∃ more, rest = more ++ next
      ∧ MemberOf (item :: more) next ⟨kind, name, isOptional, os, ⟨item.lead, stop⟩⟩ := by
  obtain ⟨first, more, hfirst⟩ := List.exists_cons_of_ne_nil hne
  rw [hfirst] at hrest hstop
  cases hrest
  refine ⟨more ++ used, rfl, ?_⟩
  rw [hstop]
  exact .mk (by rw [hfirst]; rfl) hitem hclosing hfront hbody hused hover

mutual

theorem parseTerm_eq_ok {collect : Bool} {item : Item} {rest : List Item}
    {p : Parsed Item Term (rest.length + 1)} (h : parseTerm collect item rest = .ok p)
    (hitem : ∀ d, item.token ≠ .closing d) :
    ∃ more, rest = more ++ p.rest ∧ TermsOf collect (item :: more) p.value.objects
      ∧ p.value.stop = stopAfter item.span.stop more
      ∧ some p.value.last = lastAfter (some item.token) more := by
  unfold parseTerm at h
  split at h
  . next d hd =>
    split at h
    . next hcollect =>
      rw [Bool.and_eq_true, beq_iff_eq] at hcollect
      obtain ⟨rfl, rfl⟩ := hcollect
      obtain ⟨members, hmembers, h⟩ := bind_eq_ok h
      obtain ⟨inner, closer, hrest, hinner, hcloser, hspan⟩ := parseMembers_eq_ok hmembers
      cases h
      refine ⟨inner ++ [closer], by rw [List.append_assoc]; exact hrest, ?_, ?_, ?_⟩
      . have := TermsOf.object hd hcloser hinner .nil
        rw [← hspan] at this
        exact this
      . rw [stopAfter_append]
        exact congrArg Span.stop hspan
      . rw [lastAfter_append]
        exact congrArg some hcloser.symm
    . next hcollect =>
      obtain ⟨group, hgroup, h⟩ := bind_eq_ok h
      obtain ⟨inner, closer, hrest, hinner, hcloser, hspan⟩ := parseGroup_eq_ok hgroup
      cases h
      refine ⟨inner ++ [closer], by rw [List.append_assoc]; exact hrest, ?_, ?_, ?_⟩
      . have := TermsOf.group hd hcloser (by simpa using hcollect) hinner .nil
        rw [List.append_nil] at this
        exact this
      . rw [stopAfter_append]
        exact congrArg Span.stop hspan
      . rw [lastAfter_append]
        exact congrArg some hcloser.symm
  . next hopening =>
    cases h
    exact ⟨[], rfl, .item hopening hitem .nil, rfl, rfl⟩
termination_by 4 * rest.length + 4

theorem parseGroup_eq_ok {collect : Bool} {opening : OpenDelimiter} {items : List Item}
    {p : Parsed Item (List ObjectType × Span) items.length}
    (h : parseGroup collect opening items = .ok p) :
    ∃ inner closer, items = inner ++ closer :: p.rest ∧ TermsOf collect inner p.value.1
      ∧ closer.token = .closing opening.delimiter ∧ p.value.2 = closer.span := by
  unfold parseGroup at h
  split at h
  . cases h
  . next item rest =>
    split at h
    . next hcloser =>
      cases h
      exact ⟨[], item, rfl, .nil, beq_iff_eq.mp hcloser, rfl⟩
    . split at h
      . cases h
      . next hclosing =>
        obtain ⟨⟨term, rest', hlt⟩, hterm, h⟩ := bind_eq_ok h
        obtain ⟨⟨group, rest'', hlt'⟩, hgroup, h⟩ := bind_eq_ok h
        have hitem : ∀ d, item.token ≠ .closing d := by
          intro d hd
          simp [hd, Token.isClosing] at hclosing
        obtain ⟨more, hrest, hmore, _⟩ := parseTerm_eq_ok hterm hitem
        obtain ⟨inner, closer, hrest', hinner, hcloser, hspan⟩ := parseGroup_eq_ok hgroup
        cases h
        refine ⟨item :: (more ++ inner), closer, ?_, hmore.append hinner, hcloser, hspan⟩
        dsimp only at hrest hrest'
        subst hrest' hrest
        simp [Parsed.map, Parsed.within, Parsed.loosen]
termination_by 4 * items.length + 1

theorem parseRun_eq_ok {collect : Bool} {place : Place} {last : Option Token} {stop : Nat}
    {items : List Item} {p : Parsed Item (List ObjectType × Nat) (items.length + 1)}
    (h : parseRun collect place last stop items = .ok p) :
    ∃ used, items = used ++ p.rest ∧ TermsOf collect used p.value.1
      ∧ p.value.2 = stopAfter stop used
      ∧ ∀ item ∈ p.rest.head?, endsBefore place (lastAfter last used) item = true := by
  unfold parseRun at h
  split at h
  . cases h
    exact ⟨[], rfl, .nil, rfl, by simp [Parsed.leaving]⟩
  . next item rest =>
    split at h
    . next hends =>
      cases h
      refine ⟨[], rfl, .nil, rfl, ?_⟩
      intro x hx
      cases hx
      exact hends
    . next hends =>
      obtain ⟨⟨term, rest', hlt⟩, hterm, h⟩ := bind_eq_ok h
      obtain ⟨⟨run, rest'', hlt'⟩, hrun, h⟩ := bind_eq_ok h
      have hitem : ∀ d, item.token ≠ .closing d := by
        intro d hd
        simp [endsBefore, hd, Token.isTerminator] at hends
      obtain ⟨more, hrest, hmore, hstop, hlast⟩ := parseTerm_eq_ok hterm hitem
      obtain ⟨used, hrest', hused, hstop', hover⟩ := parseRun_eq_ok hrun
      cases h
      refine ⟨item :: (more ++ used), ?_, hmore.append hused, ?_, ?_⟩
      . dsimp only at hrest hrest'
        subst hrest' hrest
        simp [Parsed.map, Parsed.within, Parsed.loosen]
      . rw [stopAfter, stopAfter_append, ← hstop]
        exact hstop'
      . rw [lastAfter, lastAfter_append, ← hlast]
        exact hover
termination_by 4 * items.length + 1

theorem parseMembers_eq_ok {opening : Span} {items : List Item}
    {p : Parsed Item (List Member × Span) items.length}
    (h : parseMembers opening items = .ok p) :
    ∃ inner closer, items = inner ++ closer :: p.rest ∧ MembersOf inner p.value.1
      ∧ closer.token = .closing .brace ∧ p.value.2 = closer.span := by
  unfold parseMembers at h
  split at h
  . cases h
  . next item rest =>
    have step : item.isSeparator → (parseMembers opening rest).map .loosen = .ok p →
        ∃ inner closer, item :: rest = inner ++ closer :: p.rest ∧ MembersOf inner p.value.1
          ∧ closer.token = .closing .brace ∧ p.value.2 = closer.span := by
      intro hitem hmap
      obtain ⟨q, hq, hp⟩ := map_eq_ok hmap
      obtain ⟨inner, closer, hrest, hinner, hcloser, hspan⟩ := parseMembers_eq_ok hq
      subst hp
      exact ⟨item :: inner, closer, congrArg (item :: ·) hrest, .separator hitem hinner, hcloser,
        hspan⟩
    split at h
    . next d hd =>
      split at h
      . next heq =>
        cases h
        subst heq
        exact ⟨[], item, rfl, .nil, hd, rfl⟩
      . cases h
    . next hitem => exact step (.inl hitem) h
    . next hitem => exact step (.inr hitem) h
    . next hclosing hsemicolon hcomma =>
      obtain ⟨⟨m, rest', hlt⟩, hmember, h⟩ := bind_eq_ok h
      obtain ⟨⟨members, rest'', hlt'⟩, hmembers, h⟩ := bind_eq_ok h
      have hitem : ¬ item.isSeparator := by
        rintro (hitem | hitem)
        . exact hsemicolon hitem
        . exact hcomma hitem
      obtain ⟨more, hrest, hm⟩ := parseMember_eq_ok hmember hitem hclosing
      obtain ⟨inner, closer, hrest', hinner, hcloser, hspan⟩ := parseMembers_eq_ok hmembers
      cases h
      dsimp only at hrest hm hrest'
      subst hrest' hrest
      refine ⟨item :: more ++ inner, closer, ?_, .member hm.of_append hinner, hcloser, hspan⟩
      simp [Parsed.map, Parsed.within, Parsed.loosen]
termination_by 4 * items.length + 3

theorem parseMember_eq_ok {item : Item} {rest : List Item}
    {p : Parsed Item Member (rest.length + 1)} (h : parseMember item rest = .ok p)
    (hitem : ¬ item.isSeparator) (hclosing : ∀ d, item.token ≠ .closing d) :
    ∃ more, rest = more ++ p.rest ∧ MemberOf (item :: more) p.rest p.value := by
  obtain ⟨mods, hmods, hmodify⟩ := skipMemberModifiers_eq item rest
  have hbalanced := CanModify.isBalanced hmodify
  unfold parseMember at h
  generalize skipMemberModifiers item rest = skipped at h hmods
  obtain ⟨first, rest₁, h₁⟩ := skipped
  dsimp only at h hmods
  split at h
  . next kind start rest₂ h₂ hsignature =>
    obtain ⟨used, hused, hbalanced', hopens, _⟩ := signatureStart?_eq_some hsignature
    obtain ⟨⟨term, rest₃, h₃⟩, hterm, h⟩ := bind_eq_ok h
    obtain ⟨⟨⟨os, stop⟩, rest₄, h₄⟩, hrun, h⟩ := bind_eq_ok h
    have hstart : ∀ d, start.token ≠ .closing d := by
      intro d hd
      simp [hd, Token.opensSignature] at hopens
    obtain ⟨more, hrest₂, hmore, hstop, _⟩ := parseTerm_eq_ok hterm hstart
    obtain ⟨body, hrest₃, hbody, hstop', hends⟩ := parseRun_eq_ok hrun
    obtain ⟨separator, hrest₄, hall, hvalue⟩ := terminator_eq stop rest₄
    have hover := isOver_terminator hends hrest₄
    dsimp only [Parsed.onward] at h hrest₂ hstop hrest₃ hstop' hmore hbody
    generalize terminator stop rest₄ = last at h hrest₄ hvalue hover
    obtain ⟨stop', rest₅, h₅⟩ := last
    cases h
    apply MemberOf.ofParts (mods ++ used) hitem hclosing _ (by simp)
      (hbalanced.append hbalanced') (hmore.append hbody) hall hover
    . dsimp only at hvalue
      simp only [Parsed.within, stopAfter_append, List.cons_append, stopAfter, hvalue, hstop',
        hstop]
    . dsimp only at hrest₄
      subst hrest₄ hrest₃ hrest₂
      rw [hmods, hused]
      simp
  . next hsignature =>
    obtain ⟨⟨head, rest₂, h₂⟩, hhead, h⟩ := bind_eq_ok h
    obtain ⟨more, hrest₁, hname, hstop, _⟩ := memberHead_eq_ok hhead
    obtain ⟨mark, hrest₂, hmark, hstop'⟩ := optionalMark_eq head.stop rest₂
    dsimp only at h hrest₁ hstop
    generalize optionalMark head.stop rest₂ = marked at h hrest₂ hmark hstop'
    obtain ⟨⟨isOptional, stop⟩, rest₃, h₃⟩ := marked
    obtain ⟨⟨⟨os, stop'⟩, rest₄, h₄⟩, hrun, h⟩ := bind_eq_ok h
    obtain ⟨body, hrest₃, hbody, hstop'', hends⟩ := parseRun_eq_ok hrun
    obtain ⟨separator, hrest₄, hall, hvalue⟩ := terminator_eq stop' rest₄
    have hover := isOver_terminator hends hrest₄
    dsimp only [Parsed.onward] at h hrest₂ hstop' hrest₃ hstop'' hbody
    generalize terminator stop' rest₄ = last at h hrest₄ hvalue hover
    obtain ⟨stop'', rest₅, h₅⟩ := last
    cases h
    apply MemberOf.ofParts (mods ++ (first :: more) ++ mark) hitem hclosing _ (by simp)
      ((hbalanced.append hname.isBalanced).append hmark.isBalanced) hbody hall hover
    . dsimp only at hvalue
      simp only [Parsed.within, stopAfter_append, stopAfter, hvalue, hstop'', hstop', hstop]
    . dsimp only at hrest₄
      subst hrest₄ hrest₃ hrest₂ hrest₁
      rw [hmods]
      simp
termination_by 4 * rest.length + 6

end

end Delegation
