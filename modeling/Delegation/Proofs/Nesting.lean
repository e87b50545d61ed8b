import Delegation.Token.Group

/-!
This module contains how delimiters nest. The items that a delimiter encloses are those up to the
first one that closes more than was opened behind it. A group is skipped up to there.
-/

namespace Delegation

theorem bind_eq_ok {ε α β : Type} {x : Except ε α} {f : α → Except ε β} {b : β}
    (h : (x >>= f) = .ok b) : ∃ a, x = .ok a ∧ f a = .ok b := by
  cases x with
  | error e => cases h
  | ok a => exact ⟨a, rfl, h⟩

theorem map_eq_ok {ε α β : Type} {x : Except ε α} {f : α → β} {b : β}
    (h : x.map f = .ok b) : ∃ a, x = .ok a ∧ f a = b := by
  cases x with
  | error e => cases h
  | ok a =>
    cases h
    exact ⟨a, rfl, rfl⟩

theorem exists_of_isOk {ε α : Type} {x : Except ε α} (h : x.isOk = true) : ∃ a, x = .ok a := by
  cases x with
  | error e => cases h
  | ok a => exact ⟨a, rfl⟩

theorem Token.delimiter_cases (token : Token) :
    (∃ d, token = .opening d) ∨ (∃ d, token = .closing d)
      ∨ (∀ d, token ≠ .opening d) ∧ ∀ d, token ≠ .closing d := by
  cases token <;> simp

/--
The delimiters that are open behind `item` if those in `stack` are open in front of it, the
innermost first. There is no answer if `item` closes what it does not match.
-/
def Item.nest? (stack : List Delimiter) (item : Item) : Option (List Delimiter) :=
  match item.token with
  | .opening d => some (d :: stack)
  | .closing d =>
    match stack with
    | innermost :: outer => if d = innermost then some outer else none
    | [] => none
  | _ => some stack

theorem Item.nest?_of_ne {item : Item} (hopening : ∀ d, item.token ≠ .opening d)
    (hclosing : ∀ d, item.token ≠ .closing d) (stack : List Delimiter) :
    item.nest? stack = some stack := by
  unfold Item.nest?
  split
  . next d hd => exact absurd hd (hopening d)
  . next d hd => exact absurd hd (hclosing d)
  . rfl

def nest? (stack : List Delimiter) (items : List Item) : Option (List Delimiter) :=
  items.foldlM Item.nest? stack

def IsBalanced (items : List Item) : Prop :=
  nest? [] items = some []

instance (items : List Item) : Decidable (IsBalanced items) :=
  inferInstanceAs (Decidable (_ = _))

theorem Item.nest?_append {stack after : List Delimiter} {item : Item}
    (h : item.nest? stack = some after) (outer : List Delimiter) :
    item.nest? (stack ++ outer) = some (after ++ outer) := by
  unfold Item.nest? at h ⊢
  split at h
  . cases h
    rfl
  . split at h
    . split at h
      . next heq =>
        cases h
        simp [heq]
      . cases h
    . cases h
  . cases h
    rfl

theorem nest?_cons (stack : List Delimiter) (item : Item) (items : List Item) :
    nest? stack (item :: items) = (item.nest? stack).bind (nest? · items) := by
  unfold nest?
  rw [List.foldlM_cons]
  rfl

theorem nest?_append (stack : List Delimiter) (items more : List Item) :
    nest? stack (items ++ more) = (nest? stack items).bind (nest? · more) := by
  unfold nest?
  rw [List.foldlM_append]
  rfl

theorem nest?_congr {items others : List Item} (h : items.map Item.token = others.map Item.token)
    (stack : List Delimiter) : nest? stack items = nest? stack others := by
  induction items generalizing others stack with
  | nil =>
    cases others with
    | nil => rfl
    | cons => cases h
  | cons item items ih =>
    cases others with
    | nil => cases h
    | cons other others =>
      rw [List.map_cons, List.map_cons, List.cons.injEq] at h
      have hitem : item.nest? stack = other.nest? stack := by
        unfold Item.nest?
        rw [h.1]
      rw [nest?_cons, nest?_cons, hitem]
      congr 1
      funext stack'
      exact ih h.2 stack'

theorem nest?_append_stack {stack after : List Delimiter} {items : List Item}
    (h : nest? stack items = some after) (outer : List Delimiter) :
    nest? (stack ++ outer) items = some (after ++ outer) := by
  induction items generalizing stack with
  | nil =>
    cases h
    rfl
  | cons item items ih =>
    rw [nest?_cons] at h ⊢
    obtain ⟨stack', hitem, htail⟩ := Option.bind_eq_some_iff.mp h
    rw [Item.nest?_append hitem outer]
    exact ih htail

namespace IsBalanced

theorem nest?_eq {items : List Item} (h : IsBalanced items) (stack : List Delimiter) :
    nest? stack items = some stack := by
  have := nest?_append_stack h stack
  simpa using this

theorem nil : IsBalanced [] := rfl

theorem append {items more : List Item} (h : IsBalanced items) (hmore : IsBalanced more) :
    IsBalanced (items ++ more) := by
  unfold IsBalanced at h
  rw [IsBalanced, nest?_append, h]
  exact hmore

theorem cons {item : Item} {items : List Item} (hopening : ∀ d, item.token ≠ .opening d)
    (hclosing : ∀ d, item.token ≠ .closing d) (h : IsBalanced items) :
    IsBalanced (item :: items) := by
  rw [IsBalanced, nest?_cons, Item.nest?_of_ne hopening hclosing]
  exact h

theorem group {opener closer : Item} {inner : List Item} {d : Delimiter}
    (hopener : opener.token = .opening d) (hcloser : closer.token = .closing d)
    (h : IsBalanced inner) : IsBalanced (opener :: (inner ++ [closer])) := by
  rw [IsBalanced, nest?_cons]
  have hopen : opener.nest? [] = some [d] := by
    unfold Item.nest?
    rw [hopener]
  have hclose : closer.nest? [d] = some [] := by
    unfold Item.nest?
    rw [hcloser]
    simp
  rw [hopen, Option.bind_some, nest?_append, h.nest?_eq, Option.bind_some, nest?_cons, hclose]
  rfl

end IsBalanced

theorem skipGroup_eq_ok {opening : OpenDelimiter} {inner : List OpenDelimiter} {items : List Item}
    {p : Parsed Item Item items.length} (h : skipGroup opening inner items = .ok p) :
    ∃ used, items = used ++ p.value :: p.rest ∧ p.value.token = .closing opening.delimiter
      ∧ nest? (inner.map (·.delimiter)) used = some [] := by
  induction items generalizing inner with
  | nil => cases h
  | cons item items ih =>
    have step : ∀ inner', (skipGroup opening inner' items).map .loosen = .ok p →
        item.nest? (inner.map (·.delimiter)) = some (inner'.map (·.delimiter)) →
        ∃ used, item :: items = used ++ p.value :: p.rest
          ∧ p.value.token = .closing opening.delimiter
          ∧ nest? (inner.map (·.delimiter)) used = some [] := by
      intro inner' hskip hitem
      obtain ⟨q, hq, hp⟩ := map_eq_ok hskip
      obtain ⟨used, hused, hcloser, hnest⟩ := ih hq
      subst hp
      refine ⟨item :: used, ?_, hcloser, ?_⟩
      . rw [List.cons_append]
        exact congrArg _ hused
      . rw [nest?_cons, hitem]
        exact hnest
    unfold skipGroup at h
    split at h
    . next d hd =>
      apply step _ h
      unfold Item.nest?
      rw [hd]
      rfl
    . next d hd =>
      split at h
      . split at h
        . next heq =>
          cases h
          exact ⟨[], rfl, heq ▸ hd, rfl⟩
        . cases h
      . next innermost inner' =>
        split at h
        . next heq =>
          apply step _ h
          unfold Item.nest?
          rw [hd]
          simp [heq]
        . cases h
    . next hopening hclosing =>
      apply step _ h
      exact Item.nest?_of_ne hopening hclosing _

theorem Parsed.exists_eq {ι α : Type} {n : Nat} {p : Parsed ι α n} {value : α} {rest : List ι}
    (hvalue : p.value = value) (hrest : p.rest = rest) : ∃ hlt, p = ⟨value, rest, hlt⟩ := by
  subst hvalue hrest
  exact ⟨p.rest_lt, rfl⟩

/--
Whether a parser succeeds in front of `rest` with a value that has the property `P`.
-/
def Leaves {α : Type} {n : Nat} (rest : List Item) (P : α → Prop) (x : Parse α n) : Prop :=
  ∃ value hlt, x = .ok ⟨value, rest, hlt⟩ ∧ P value

namespace Leaves

variable {α β : Type} {m n : Nat} {rest rest' : List Item} {P : α → Prop} {Q : β → Prop}

theorem leaving {value : α} (h : P value) :
    Leaves rest P (.ok (Parsed.leaving value rest)) :=
  ⟨value, _, rfl, h⟩

theorem of_rest {p : Parsed Item α n} (hrest : p.rest = rest) (h : P p.value) :
    Leaves rest P (.ok p) := by
  subst hrest
  exact ⟨_, p.rest_lt, rfl, h⟩

theorem mono {x : Parse α n} {P' : α → Prop} (h : Leaves rest P x) (hP : ∀ value, P value → P' value) :
    Leaves rest P' x := by
  obtain ⟨value, hlt, rfl, hvalue⟩ := h
  exact ⟨value, hlt, rfl, hP value hvalue⟩

theorem bind {x : Parse α m} {f : Parsed Item α m → Parse β n} (h : Leaves rest P x)
    (hf : ∀ value hlt, P value → Leaves rest' Q (f ⟨value, rest, hlt⟩)) :
    Leaves rest' Q (x >>= f) := by
  obtain ⟨value, hlt, rfl, hvalue⟩ := h
  exact hf value hlt hvalue

theorem loosen {x : Parse α n} (h : Leaves rest P x) : Leaves rest P (x.map .loosen) := by
  obtain ⟨value, hlt, rfl, hvalue⟩ := h
  exact ⟨value, _, rfl, hvalue⟩

theorem andThen {p : Parsed Item α m} {f : (items : List Item) → Parse β items.length}
    (h : Leaves rest Q (f p.rest)) : Leaves rest Q (p.andThen f) := by
  obtain ⟨value, hlt, hf, hvalue⟩ := h
  rw [Parsed.andThen, hf]
  exact ⟨value, _, rfl, hvalue⟩

theorem andMaybe {p : Parsed Item α m} {f : (items : List Item) → Parse β (items.length + 1)}
    (h : Leaves rest Q (f p.rest)) : Leaves rest Q (p.andMaybe f) := by
  obtain ⟨value, hlt, hf, hvalue⟩ := h
  rw [Parsed.andMaybe, hf]
  exact ⟨value, _, rfl, hvalue⟩

end Leaves

theorem leaves_parseName {what : Expectation} {item : Item} {rest : List Item} {name : String}
    (h : item.token = .identifier name) :
    Leaves rest (fun located => located.value = name) (parseName what (item :: rest)) := by
  simp only [parseName, h]
  exact .leaving rfl

theorem leaves_parseToken {token : Token} {what : Expectation} {item : Item} {rest : List Item}
    (h : item.token = token) :
    Leaves rest (fun found => found = item) (parseToken token what (item :: rest)) := by
  simp only [parseToken, takeToken?, h, if_true]
  exact .leaving rfl

theorem leaves_skipGroup {opening : OpenDelimiter} {inner : List OpenDelimiter}
    {items rest : List Item} {closer : Item}
    (h : nest? (inner.map (·.delimiter)) items = some [])
    (hcloser : closer.token = .closing opening.delimiter) :
    Leaves rest (fun found => found = closer) (skipGroup opening inner (items ++ closer :: rest)) := by
  induction items generalizing inner with
  | nil =>
    rw [List.nil_append]
    unfold skipGroup
    cases inner with
    | nil =>
      simp only [hcloser, if_true]
      exact .leaving rfl
    | cons => cases h
  | cons item items ih =>
    rw [nest?_cons] at h
    obtain ⟨stack, hitem, htail⟩ := Option.bind_eq_some_iff.mp h
    rw [List.cons_append]
    rcases item.token.delimiter_cases with ⟨d, hd⟩ | ⟨d, hd⟩ | ⟨hopening, hclosing⟩
    . simp only [Item.nest?, hd, Option.some.injEq] at hitem
      subst hitem
      simp only [skipGroup, hd]
      exact (@ih (⟨d, item.span⟩ :: inner) htail).loosen
    . cases inner with
      | nil => simp [Item.nest?, hd] at hitem
      | cons innermost inner =>
        by_cases heq : d = innermost.delimiter
        . simp only [Item.nest?, hd, List.map_cons, heq, if_true, Option.some.injEq] at hitem
          subst hitem
          simp only [skipGroup, hd, heq, if_true]
          exact (ih htail).loosen
        . simp [Item.nest?, hd, heq] at hitem
    . rw [Item.nest?_of_ne hopening hclosing, Option.some.injEq] at hitem
      subst hitem
      unfold skipGroup
      split
      . next d hd => exact absurd hd (hopening d)
      . next d hd => exact absurd hd (hclosing d)
      . exact (ih htail).loosen

theorem IsBalanced.leaves_skipGroup {opening : OpenDelimiter} {items rest : List Item}
    {closer : Item} (h : IsBalanced items) (hcloser : closer.token = .closing opening.delimiter) :
    Leaves rest (fun found => found = closer) (skipGroup opening [] (items ++ closer :: rest)) :=
  Delegation.leaves_skipGroup h hcloser

end Delegation
