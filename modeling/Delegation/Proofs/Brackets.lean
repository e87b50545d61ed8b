import Delegation.Proofs.Nesting

/-!
This module contains words over the four kinds of brackets. What balances as items is a word in
which every bracket has its partner.
-/

namespace Delegation

def Token.isDelimiter : Token → Bool
  | opening _ | closing _ => true
  | _ => false

theorem filter_isDelimiter_cons (token : Token) (ts : List Token) :
    (token :: ts).filter Token.isDelimiter
      = (if token.isDelimiter then [token] else []) ++ ts.filter Token.isDelimiter := by
  rw [List.filter_cons]
  split
  . rfl
  . rfl

theorem isDelimiter_eq_false {token : Token} (hopening : ∀ d, token ≠ .opening d)
    (hclosing : ∀ d, token ≠ .closing d) : token.isDelimiter = false := by
  unfold Token.isDelimiter
  split
  . exact absurd rfl (hopening _)
  . exact absurd rfl (hclosing _)
  . rfl

/--
Whether every bracket of `ts` has its partner: the brackets between the two have theirs there as
well.
-/
inductive IsWellNested : List Token → Prop where
  | nil : IsWellNested []
  | group {d : Delimiter} {inner after : List Token} (hinner : IsWellNested inner)
    (hafter : IsWellNested after) : IsWellNested (.opening d :: (inner ++ .closing d :: after))

/--
The same, if all braces of `ts` stand between other brackets.
-/
inductive IsBraceless : List Token → Prop where
  | nil : IsBraceless []
  | group {d : Delimiter} {inner after : List Token} (hd : d ≠ .brace)
    (hinner : IsWellNested inner) (hafter : IsBraceless after) :
    IsBraceless (.opening d :: (inner ++ .closing d :: after))

theorem IsBraceless.append {ts us : List Token} (h : IsBraceless ts) (hus : IsBraceless us) :
    IsBraceless (ts ++ us) := by
  induction h with
  | nil => exact hus
  | group hd hinner _ ih =>
    rw [List.cons_append, List.append_assoc, List.cons_append]
    exact .group hd hinner ih

namespace Item

def delimitersOf (items : List Item) : List Token :=
  (items.map token).filter Token.isDelimiter

@[simp]
theorem delimitersOf_nil : delimitersOf [] = [] := rfl

@[simp]
theorem delimitersOf_append (items more : List Item) :
    delimitersOf (items ++ more) = delimitersOf items ++ delimitersOf more := by
  simp [delimitersOf]

theorem delimitersOf_cons (item : Item) (items : List Item) :
    delimitersOf (item :: items)
      = (if item.token.isDelimiter then [item.token] else []) ++ delimitersOf items :=
  filter_isDelimiter_cons ..

theorem delimitersOf_group {opener closer : Item} {d : Delimiter} (inner : List Item)
    (hopener : opener.token = .opening d) (hcloser : closer.token = .closing d) :
    delimitersOf (opener :: (inner ++ [closer])) = .opening d :: (delimitersOf inner ++ [.closing d]) := by
  simp [delimitersOf_cons, hopener, hcloser, Token.isDelimiter]

end Item

open Item

/--
Whether `ts` closes all that `stack` holds open, the innermost first.
-/
def Closes : List Delimiter → List Token → Prop
  | [], ts => IsWellNested ts
  | d :: outer, ts =>
    ∃ inner after, ts = inner ++ .closing d :: after ∧ IsWellNested inner ∧ Closes outer after

theorem Closes.group {stack : List Delimiter} {d : Delimiter} {inner after : List Token}
    (hinner : IsWellNested inner) (hafter : Closes stack after) :
    Closes stack (.opening d :: (inner ++ .closing d :: after)) := by
  cases stack with
  | nil => exact IsWellNested.group hinner hafter
  | cons innermost outer =>
    obtain ⟨inner', after', rfl, hinner', hafter'⟩ := hafter
    exact ⟨.opening d :: (inner ++ .closing d :: inner'), after', by simp, .group hinner hinner',
      hafter'⟩

theorem closes_of_nest? {stack : List Delimiter} {items : List Item}
    (h : nest? stack items = some []) : Closes stack (delimitersOf items) := by
  induction items generalizing stack with
  | nil =>
    cases h
    exact IsWellNested.nil
  | cons item items ih =>
    rw [nest?_cons] at h
    obtain ⟨stack', hitem, htail⟩ := Option.bind_eq_some_iff.mp h
    have htail := ih htail
    rw [delimitersOf_cons]
    unfold Item.nest? at hitem
    split at hitem
    . next d hd =>
      cases hitem
      obtain ⟨inner, after, hinner, hnested, hafter⟩ := htail
      rw [hd, hinner]
      exact .group hnested hafter
    . next d hd =>
      split at hitem
      . split at hitem
        . next heq =>
          cases hitem
          rw [hd, heq]
          exact ⟨[], _, rfl, .nil, htail⟩
        . cases hitem
      . cases hitem
    . next hopening hclosing =>
      cases hitem
      rw [isDelimiter_eq_false hopening hclosing]
      exact htail

theorem IsBalanced.isWellNested {items : List Item} (h : IsBalanced items) :
    IsWellNested (delimitersOf items) :=
  closes_of_nest? h

theorem isBalanced_of_delimitersOf {items : List Item} (h : delimitersOf items = []) :
    IsBalanced items := by
  induction items with
  | nil => exact .nil
  | cons item items ih =>
    rw [delimitersOf_cons, List.append_eq_nil_iff] at h
    obtain ⟨hitem, hitems⟩ := h
    apply (ih hitems).cons
    all_goals
      intro d hd
      simp [hd, Token.isDelimiter] at hitem

theorem isBraceless_of_delimitersOf {items : List Item} (h : delimitersOf items = []) :
    IsBraceless (delimitersOf items) := by
  rw [h]
  exact .nil

end Delegation
