import Delegation.Proofs.Grammar.Lookahead
import Delegation.Proofs.Stretch

/-!
This module contains what is left of the items of a declaration file when each of its stretches
stays, goes or is replaced. What is left looks to a parser like the items did before, as long as
nothing that a parser looks ahead for is behind a member that is gone.
-/

namespace Delegation

open Item

namespace Stretch

/--
Whether a line break is left behind `ss` that stood in front of a member that is gone. `isBroken`
tells whether one is left in front of `ss`.
-/
def isBrokenAfter (isBroken : Bool) : List Stretch → Bool
  | [] => isBroken
  | removed first _ :: ss => isBrokenAfter (isBroken || first.isOnNewLine) ss
  | kept _ :: ss => isBrokenAfter false ss
  | replaced .. :: ss => isBrokenAfter false ss

structure IsWritten (text new : List Char) (first : Item) (more : List Item) : Prop where
  reads : Reads [] new ((first :: more).map token)
  isOnNewLine : ∀ item ∈ more, item.isOnNewLine = false
  slice : Span.slice? ⟨first.span.start, stopAfter first.span.stop more⟩ text = some new

/--
Whether `items`, which are some of `text`, are what is left of `ss`. A line break in front of a
member that is gone stays, and `isBroken` tells whether one is left in front of `ss`.
-/
inductive Remains (text : List Char) : (isBroken : Bool) → List Stretch → List Item → Prop where
  | nil {isBroken : Bool} : Remains text isBroken [] []
  | kept {isBroken : Bool} {item other : Item} {ss : List Stretch} {others : List Item}
    (htoken : other.token = item.token) (hline : other.isOnNewLine = (isBroken || item.isOnNewLine))
    (htail : Remains text false ss others) :
    Remains text isBroken (kept item :: ss) (other :: others)
  | removed {isBroken : Bool} {first : Item} {more : List Item} {ss : List Stretch}
    {others : List Item} (htail : Remains text (isBroken || first.isOnNewLine) ss others) :
    Remains text isBroken (removed first more :: ss) others
  | replaced {isBroken : Bool} {first first' : Item} {more more' : List Item} {new : List Char}
    {inner : List Edit} {ss : List Stretch} {others : List Item}
    (hwritten : IsWritten text new first' more') (htail : Remains text false ss others) :
    Remains text isBroken (replaced first more new inner :: ss) (first' :: more' ++ others)

/--
Whether nothing that a parser looks ahead for is behind the members of `ss` that are gone, which
stand in front of `rest`: no signature, and no word that goes on with the line above. Such a member
begins with its name or with a word.
-/
def AreLoose (rest : List Item) : List Stretch → Prop
  | [] => True
  | kept _ :: ss | replaced .. :: ss => AreLoose rest ss
  | removed first _ :: ss => first.token.startsMemberName = true
    ∧ (∀ next ∈ (itemsOf ss ++ rest).head?,
      next.token.opensSignature = false ∧ next.token.isWordOf linkWords = false)
    ∧ AreLoose rest ss

inductive IsRow : List Stretch → Prop where
  | kept {item : Item} {ss : List Stretch} (hbefore : item.token.continuesBefore = true →
      item.token.isWordOf linkWords = true) (hbang : item.token ≠ .sign .bang)
    (hsign : item.token = .sign .plus ∨ item.token = .sign .minus →
      ∃ next more, ss = kept next :: more ∧ next.token.isWord "readonly" = true) :
    IsRow (kept item :: ss)
  | removed {first : Item} {more : List Item} {ss : List Stretch} (htail : IsRow ss) :
    IsRow (removed first more :: ss)

/--
Whether `ss` begins with an item that stays, and then, unless that item opens a group, with another
one.
-/
def IsSteady (ss : List Stretch) : Prop :=
  ∀ s ∈ ss.head?, ∃ item, s = kept item
    ∧ ((∀ d, item.token ≠ .opening d) → ∀ next ∈ ss.tail.head?, ∃ item', next = kept item')

variable {text : List Char} {isBroken : Bool} {ss ss' : List Stretch}
  {items others rest : List Item}

theorem isBrokenAfter_append (isBroken : Bool) (ss ss' : List Stretch) :
    isBrokenAfter isBroken (ss ++ ss') = isBrokenAfter (isBrokenAfter isBroken ss) ss' := by
  induction ss generalizing isBroken with
  | nil => rfl
  | cons s ss ih =>
    cases s with
    | kept => exact ih false
    | removed first => exact ih (isBroken || first.isOnNewLine)
    | replaced => exact ih false

theorem isBrokenAfter_map_kept (items : List Item) :
    isBrokenAfter false (items.map kept) = false := by
  induction items with
  | nil => rfl
  | cons item items ih => exact ih

theorem Remains.of_append (h : Remains text isBroken (ss ++ ss') others) :
    ∃ front back, others = front ++ back ∧ Remains text isBroken ss front
      ∧ Remains text (isBrokenAfter isBroken ss) ss' back := by
  induction ss generalizing isBroken others with
  | nil => exact ⟨[], others, rfl, .nil, h⟩
  | cons s ss ih =>
    cases h with
    | kept htoken hline htail =>
      obtain ⟨front, back, rfl, hfront, hback⟩ := ih htail
      exact ⟨_ :: front, back, rfl, .kept htoken hline hfront, hback⟩
    | removed htail =>
      obtain ⟨front, back, rfl, hfront, hback⟩ := ih htail
      exact ⟨front, back, rfl, .removed hfront, hback⟩
    | replaced hwritten htail =>
      obtain ⟨front, back, rfl, hfront, hback⟩ := ih htail
      exact ⟨_ ++ front, back, by simp, .replaced hwritten hfront, hback⟩

theorem Remains.of_map_kept (h : Remains text isBroken (items.map .kept) others) :
    others.map token = items.map token
      ∧ (isBroken = false → others.map isOnNewLine = items.map isOnNewLine) := by
  induction items generalizing isBroken others with
  | nil =>
    cases h
    exact ⟨rfl, fun _ => rfl⟩
  | cons item items ih =>
    cases h with
    | kept htoken hline htail =>
      obtain ⟨htokens, hlines⟩ := ih htail
      refine ⟨by simp [htoken, htokens], ?_⟩
      rintro rfl
      simp [hline, hlines]

theorem areLoose_append : AreLoose rest (ss ++ ss') ↔ AreLoose (itemsOf ss' ++ rest) ss
    ∧ AreLoose rest ss' := by
  induction ss with
  | nil => simp [AreLoose]
  | cons s ss ih =>
    cases s with
    | kept => exact ih
    | removed first more =>
      simp only [List.cons_append, AreLoose, ih, itemsOf_append, List.append_assoc, and_assoc]
    | replaced => exact ih

theorem isSteady_nil : IsSteady [] := by
  simp [IsSteady]

theorem IsSteady.cons {item : Item} (h : IsSteady ss) : IsSteady (kept item :: ss) := by
  intro s hs
  cases hs
  refine ⟨item, rfl, ?_⟩
  intro _ next hnext
  obtain ⟨item', hitem', _⟩ := h next hnext
  exact ⟨item', hitem'⟩

theorem IsSteady.map_kept (h : IsSteady ss) (items : List Item) :
    IsSteady (items.map kept ++ ss) := by
  induction items with
  | nil => exact h
  | cons item items ih => exact ih.cons

theorem isSteady_map_kept (items : List Item) : IsSteady (items.map kept) := by
  simpa using isSteady_nil.map_kept items

theorem isSteady_two (item next : Item) (ss : List Stretch) :
    IsSteady (kept item :: kept next :: ss) := by
  intro s hs
  cases hs
  refine ⟨item, rfl, ?_⟩
  rintro _ _ ⟨⟩
  exact ⟨next, rfl⟩

theorem isSteady_of_opening {item : Item} {d : Delimiter} (h : item.token = .opening d)
    (ss : List Stretch) : IsSteady (kept item :: ss) := by
  intro s hs
  cases hs
  exact ⟨item, rfl, fun hne => absurd h (hne d)⟩

theorem IsSteady.append (h : IsSteady ss) (h' : IsSteady ss') : IsSteady (ss ++ ss') := by
  cases ss with
  | nil => exact h'
  | cons s ss =>
    obtain ⟨item, rfl, hnext⟩ := h s rfl
    intro s hs
    cases hs
    refine ⟨item, rfl, ?_⟩
    intro hopening next hmem
    cases ss with
    | nil =>
      obtain ⟨item', hitem', _⟩ := h' next hmem
      exact ⟨item', hitem'⟩
    | cons s ss => exact hnext hopening next hmem

theorem isSteady_behind {item : Item} (h : (∀ d, item.token ≠ .opening d) → IsSteady ss) :
    IsSteady (kept item :: ss) := by
  by_cases hopening : ∃ d, item.token = .opening d
  . obtain ⟨d, hd⟩ := hopening
    exact isSteady_of_opening hd _
  . exact (h (not_exists.mp hopening)).cons

theorem isSteady_term {item : Item} (hss : (∀ d, item.token ≠ .opening d) → ss = [])
    (h : IsSteady ss') : IsSteady (kept item :: (ss ++ ss')) := by
  by_cases hopening : ∃ d, item.token = .opening d
  . obtain ⟨d, hd⟩ := hopening
    exact isSteady_of_opening hd _
  . rw [hss (not_exists.mp hopening)]
    exact h.cons

theorem Remains.ahead (h : Remains text false ss others) (hsteady : IsSteady ss)
    (hrest : Ahead items rest) : Ahead (itemsOf ss ++ items) (others ++ rest) := by
  cases h with
  | nil => exact hrest
  | @kept _ item other ss others htoken hline htail =>
    obtain ⟨_, hkept, hnext⟩ := hsteady _ rfl
    cases hkept
    refine .same htoken hline ?_
    intro hsign hquestion
    have hopening : ∀ d, item.token ≠ .opening d := by
      intro d hd
      simp [hd] at hsign
    cases htail with
    | nil => exact hrest.question hquestion
    | kept hnext' =>
      simpa [startsWith, hnext', Stretch.items] using hquestion
    | removed =>
      obtain ⟨_, hkept⟩ := hnext hopening _ rfl
      cases hkept
    | replaced =>
      obtain ⟨_, hkept⟩ := hnext hopening _ rfl
      cases hkept
  | removed =>
    obtain ⟨_, hkept, _⟩ := hsteady _ rfl
    cases hkept
  | replaced =>
    obtain ⟨_, hkept, _⟩ := hsteady _ rfl
    cases hkept

theorem Remains.of_kept (h : Remains text false (items.map Stretch.kept ++ ss) others) :
    ∃ front back, others = front ++ back ∧ front.map token = items.map token
      ∧ Remains text false ss back
      ∧ ∀ {rest rest'}, Ahead rest rest' → Ahead (items ++ rest) (front ++ rest') := by
  obtain ⟨front, back, rfl, hfront, hback⟩ := h.of_append
  rw [isBrokenAfter_map_kept] at hback
  refine ⟨front, back, rfl, hfront.of_map_kept.1, hback, ?_⟩
  intro rest rest' hrest
  have := hfront.ahead (isSteady_map_kept items) hrest
  rwa [itemsOf_map_kept] at this

theorem Remains.meets (h : Remains text false ss others) (hsteady : IsSteady ss)
    (hrest : Meets items rest) : Meets (itemsOf ss ++ items) (others ++ rest) := by
  cases h with
  | nil => exact hrest
  | @kept _ item other ss others htoken hline htail =>
    obtain ⟨_, hkept, hnext⟩ := hsteady _ rfl
    cases hkept
    refine .cons htoken hline ?_
    intro hopening
    cases htail with
    | nil => exact hrest.head?_eq
    | kept htoken => exact congrArg some htoken
    | removed =>
      obtain ⟨_, hkept⟩ := hnext hopening _ rfl
      cases hkept
    | replaced =>
      obtain ⟨_, hkept⟩ := hnext hopening _ rfl
      cases hkept
  | removed =>
    obtain ⟨_, hkept, _⟩ := hsteady _ rfl
    cases hkept
  | replaced =>
    obtain ⟨_, hkept, _⟩ := hsteady _ rfl
    cases hkept

theorem Remains.exists_head (h : Remains text isBroken ss others) (hrow : IsRow ss)
    (hloose : AreLoose rest ss) (hhead : ∀ next ∈ (itemsOf ss).head?,
      next.token.opensSignature = false ∧ next.token.isWordOf linkWords = false) :
    ∃ other more, others = other :: more ∧ (isBroken = true → other.isOnNewLine = true)
      ∧ other.token.opensSignature = false ∧ other.token.continuesBefore = false
      ∧ other.token ≠ .sign .bang
      ∧ (other.token = .sign .plus ∨ other.token = .sign .minus → ∀ items,
        startsWith (· == .sign .question) (more ++ items) = false) := by
  induction hrow generalizing isBroken others with
  | @kept item ss hbefore hbang hsign =>
    obtain ⟨hopens, hword⟩ := hhead item rfl
    cases h with
    | @kept _ _ other _ others htoken hline htail =>
      rw [← htoken] at hopens hword hbefore hbang hsign
      refine ⟨other, others, rfl, ?_, hopens, ?_, hbang, ?_⟩
      . rintro rfl
        simp [hline]
      . cases hcontinues : other.token.continuesBefore with
        | false => rfl
        | true =>
          rw [hbefore hcontinues] at hword
          cases hword
      . intro hitem items
        obtain ⟨next, more, rfl, hreadonly⟩ := hsign hitem
        cases htail with
        | kept hnext =>
          cases hquestion : next.token == .sign .question with
          | false => simp [startsWith, hnext, hquestion]
          | true =>
            rw [beq_iff_eq.mp hquestion] at hreadonly
            cases hreadonly
  | @removed first more ss htail ih =>
    cases h with
    | removed h =>
      obtain ⟨_, hnext, hloose⟩ := hloose
      have hhead : ∀ next ∈ (itemsOf ss).head?,
          next.token.opensSignature = false ∧ next.token.isWordOf linkWords = false := by
        intro next hmem
        apply hnext
        rw [List.head?_append, hmem]
        rfl
      obtain ⟨other, others, heq, hline, hall⟩ := ih h hloose hhead
      refine ⟨other, others, heq, ?_, hall⟩
      rintro rfl
      exact hline rfl

theorem Remains.ahead_of_isRow (h : Remains text false ss others) (hrow : IsRow ss)
    (hloose : AreLoose rest ss) (items items' : List Item) :
    Ahead (itemsOf ss ++ items) (others ++ items') := by
  cases hrow with
  | @kept item ss hbefore hbang hsign =>
    cases h with
    | @kept _ _ other _ others htoken hline htail =>
      refine .same htoken hline ?_
      intro hitem hquestion
      obtain ⟨next, more, rfl, hreadonly⟩ := hsign hitem
      cases htail with
      | kept hnext => simpa [startsWith, hnext, Stretch.items] using hquestion
  | @removed first more ss htail =>
    cases h with
    | removed h =>
      obtain ⟨hfirst, hnext, hloose⟩ := hloose
      have hhead : ∀ next ∈ (itemsOf ss).head?,
          next.token.opensSignature = false ∧ next.token.isWordOf linkWords = false := by
        intro next hmem
        apply hnext
        rw [List.head?_append, hmem]
        rfl
      obtain ⟨other, others, rfl, hline, hopens, hbefore, hbang, hsign⟩ :=
        h.exists_head htail hloose hhead
      exact .parted hfirst hline hopens hbefore hbang fun hother => hsign hother items'

end Stretch
end Delegation
