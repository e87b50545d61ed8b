import Delegation.Proofs.Items

/-!
This module contains what a parser of declarations sees of the tokens of a text: those that are no
trivia, and whether a line ends in front of them.
-/

namespace Delegation

open Item Lexeme

def Item.lineMark (item : Item) : Token × Bool :=
  (item.token, item.isOnNewLine)

/--
The tokens among `ts` that are no trivia, and whether each of them is on another line than the one
before it. `isBroken` tells whether a line ends in front of `ts`.
-/
def lineMarks (isBroken : Bool) : List Token → List (Token × Bool)
  | [] => []
  | t :: ts =>
    if t.isTrivia then
      lineMarks (isBroken || t == .newline) ts
    else
      (t, isBroken) :: lineMarks false ts

def isBrokenBehind (isBroken : Bool) : List Token → Bool
  | [] => isBroken
  | t :: ts =>
    if t.isTrivia then
      isBrokenBehind (isBroken || t == .newline) ts
    else
      isBrokenBehind false ts

theorem lineMarks_append (isBroken : Bool) (ts us : List Token) :
    lineMarks isBroken (ts ++ us)
      = lineMarks isBroken ts ++ lineMarks (isBrokenBehind isBroken ts) us := by
  induction ts generalizing isBroken with
  | nil => rfl
  | cons t ts ih =>
    rw [List.cons_append, lineMarks, lineMarks, isBrokenBehind]
    split
    . exact ih _
    . rw [ih, List.cons_append]

theorem isBrokenBehind_append (isBroken : Bool) (ts us : List Token) :
    isBrokenBehind isBroken (ts ++ us) = isBrokenBehind (isBrokenBehind isBroken ts) us := by
  induction ts generalizing isBroken with
  | nil => rfl
  | cons t ts ih =>
    rw [List.cons_append, isBrokenBehind, isBrokenBehind]
    split
    . exact ih _
    . exact ih false

theorem lineMarks_trivia (isBroken : Bool) {ts : List Token} (h : ∀ t ∈ ts, t.isTrivia = true) :
    lineMarks isBroken ts = [] := by
  induction ts generalizing isBroken with
  | nil => rfl
  | cons t ts ih =>
    rw [lineMarks, if_pos (h t (.head _))]
    exact ih _ fun x hx => h x (.tail _ hx)

theorem isBrokenBehind_trivia (isBroken : Bool) {ts : List Token}
    (h : ∀ t ∈ ts, t.isTrivia = true) :
    isBrokenBehind isBroken ts = true ↔ isBroken = true ∨ .newline ∈ ts := by
  induction ts generalizing isBroken with
  | nil => simp [isBrokenBehind]
  | cons t ts ih =>
    rw [isBrokenBehind, if_pos (h t (.head _)), ih _ fun x hx => h x (.tail _ hx)]
    rw [Bool.or_eq_true, beq_iff_eq, List.mem_cons, or_assoc, @eq_comm _ t]

theorem Token.ne_of_isTrivia {token : Token} (h : token.isTrivia = false) :
    token ≠ .newline ∧ token ≠ .whitespace := by
  constructor
  . rintro rfl
    cases h
  . rintro rfl
    cases h

theorem Lexeme.tokensOf_concat (ls : List Lexeme) {l : Lexeme} (h : l.token ≠ .whitespace) :
    tokensOf (ls ++ [l]) = tokensOf ls ++ [l.token] := by
  simp [tokensOf, h]

theorem isBrokenBehind_eq_false {ls : List Lexeme}
    (h : ∀ l ∈ ls.getLast?, l.token.isTrivia = false) :
    isBrokenBehind false (tokensOf ls) = false := by
  rcases List.eq_nil_or_concat ls with rfl | ⟨front, l, rfl⟩
  . rfl
  . rw [List.concat_eq_append] at h ⊢
    have hl : l.token.isTrivia = false := h l (by simp)
    rw [tokensOf_concat _ (Token.ne_of_isTrivia hl).2, isBrokenBehind_append, isBrokenBehind,
      if_neg (by simp [hl])]
    rfl

theorem isTrivia_of_mem_tokensOf {ls : List Lexeme} (h : ∀ l ∈ ls, l.token.isTrivia = true) :
    ∀ t ∈ tokensOf ls, t.isTrivia = true := by
  intro t ht
  obtain ⟨l, hl, rfl⟩ := List.mem_map.mp (List.mem_filter.mp ht).1
  exact h l hl

theorem map_lineMark_itemsFrom (gap : Gap) (ls : List Lexeme) :
    (itemsFrom gap ls).map lineMark = lineMarks gap.hasNewline (tokensOf ls) := by
  induction ls generalizing gap with
  | nil => rfl
  | cons l ls ih =>
    have htokens : tokensOf (l :: ls) = tokensOf [l] ++ tokensOf ls := tokensOf_append [l] ls
    cases htrivia : l.token.isTrivia with
    | true =>
      rw [itemsFrom_cons_trivia ls htrivia, ih, Gap.hasNewline_push _ _ htrivia, htokens]
      by_cases hblank : l.token = .whitespace
      . have hne : (Token.whitespace == Token.newline) = false := rfl
        simp [tokensOf, hblank, hne]
      . simp [tokensOf, hblank, lineMarks, htrivia]
    | false =>
      have hblank := (Token.ne_of_isTrivia htrivia).2
      rw [itemsFrom_cons_item ls htrivia, List.map_cons, ih, htokens]
      simp [tokensOf, hblank, lineMarks, htrivia, lineMark, ofLexeme, Gap.empty]

theorem line_of_itemsFrom_eq_cons {gap : Gap} {ls : List Lexeme} {first : Item} {more : List Item}
    (htrivia : ∀ t ∈ tokensOf ls, t.isTrivia = false) (h : itemsFrom gap ls = first :: more) :
    (first :: more).map Item.token = tokensOf ls ∧ first.isOnNewLine = gap.hasNewline
      ∧ ∀ item ∈ more, item.isOnNewLine = false := by
  have hline (ts : List Token) (hts : ∀ t ∈ ts, t.isTrivia = false) :
      lineMarks false ts = ts.map (·, false) := by
    induction ts with
    | nil => rfl
    | cons t ts ih =>
      rw [lineMarks, if_neg (by simp [hts t (.head _)]), ih fun x hx => hts x (.tail _ hx)]
      rfl
  have hmarks := map_lineMark_itemsFrom gap ls
  rw [h] at hmarks
  cases hts : tokensOf ls with
  | nil =>
    rw [hts] at hmarks
    cases hmarks
  | cons t ts =>
    rw [hts] at hmarks htrivia
    rw [lineMarks, if_neg (by simp [htrivia t (.head _)]),
      hline ts fun x hx => htrivia x (.tail _ hx), List.map_cons, List.cons.injEq, lineMark,
      Prod.mk.injEq] at hmarks
    obtain ⟨⟨hfirst, hbreak⟩, hmore⟩ := hmarks
    refine ⟨?_, hbreak, ?_⟩
    . have htokens := congrArg (List.map Prod.fst) hmore
      rw [List.map_map, List.map_map] at htokens
      rw [List.map_cons, hfirst]
      exact congrArg _ (htokens.trans (List.map_id ts))
    . intro item hitem
      have hmem : item.lineMark ∈ more.map lineMark := List.mem_map_of_mem hitem
      rw [hmore] at hmem
      obtain ⟨_, _, hmark⟩ := List.mem_map.mp hmem
      exact (congrArg Prod.snd hmark).symm

theorem lineMarks_append_items {kept : List Lexeme} {items : List Item}
    (hkept : ∀ l ∈ kept.getLast?, l.token.isTrivia = false)
    (hmarks : lineMarks false (tokensOf kept) = items.map lineMark) (ls : List Lexeme) :
    lineMarks false (tokensOf (kept ++ ls)) = (items ++ itemsFrom .empty ls).map lineMark := by
  rw [tokensOf_append, lineMarks_append, hmarks, isBrokenBehind_eq_false hkept, List.map_append,
    map_lineMark_itemsFrom]
  rfl

theorem lineMarks_append_trivia {kept trivia : List Lexeme} {items : List Item}
    (hmarks : lineMarks false (tokensOf kept) = items.map lineMark)
    (htrivia : ∀ l ∈ trivia, l.token.isTrivia = true) :
    lineMarks false (tokensOf (kept ++ trivia)) = items.map lineMark := by
  rw [tokensOf_append, lineMarks_append, hmarks,
    lineMarks_trivia _ (isTrivia_of_mem_tokensOf htrivia), List.append_nil]

end Delegation
