import Delegation.Proofs.Lexing
import Delegation.Proofs.Stretch
import Mathlib.Data.List.Induction

/-!
This module contains where items stand among the lexemes of a text.
-/

namespace Delegation

open Item Lexeme

/--
The items of `ls`, which stand behind the trivia that `gap` tells of.
-/
def itemsFrom (gap : Gap) (ls : List Lexeme) : List Item :=
  ofLexemes.go [] gap ls

theorem Item.ofLexemes.go_eq_append (acc : List Item) (gap : Gap) (ls : List Lexeme) :
    go acc gap ls = acc.reverse ++ go [] gap ls := by
  induction ls generalizing acc gap with
  | nil => simp [go]
  | cons l ls ih =>
    unfold go
    split
    . rw [ih]
    . rw [ih, ih [_]]
      simp

@[simp]
theorem itemsFrom_nil (gap : Gap) : itemsFrom gap [] = [] := rfl

theorem itemsFrom_cons_trivia {gap : Gap} {l : Lexeme} (ls : List Lexeme)
    (h : l.token.isTrivia = true) : itemsFrom gap (l :: ls) = itemsFrom (gap.push l) ls := by
  unfold itemsFrom
  rw [ofLexemes.go, if_pos h]

theorem itemsFrom_cons_item {gap : Gap} {l : Lexeme} (ls : List Lexeme)
    (h : l.token.isTrivia = false) :
    itemsFrom gap (l :: ls) = ofLexeme gap l :: itemsFrom .empty ls := by
  unfold itemsFrom
  rw [ofLexemes.go, if_neg (by simp [h]), ofLexemes.go_eq_append]
  rfl

theorem map_token_itemsFrom (gap : Gap) (ls : List Lexeme) :
    (itemsFrom gap ls).map Item.token = (ls.map Lexeme.token).filter (!·.isTrivia) := by
  induction ls generalizing gap with
  | nil => rfl
  | cons l ls ih =>
    cases htrivia : l.token.isTrivia with
    | true => simp [itemsFrom_cons_trivia ls htrivia, htrivia, ih]
    | false =>
      simp only [itemsFrom_cons_item ls htrivia, List.map_cons, ih, htrivia, Bool.not_false,
        List.filter_cons_of_pos]
      rfl

def Gap.pushAll (gap : Gap) (trivia : List Lexeme) : Gap :=
  trivia.foldl push gap

@[simp]
theorem Gap.pushAll_nil (gap : Gap) : gap.pushAll [] = gap := rfl

theorem Gap.pushAll_append (gap : Gap) (trivia more : List Lexeme) :
    gap.pushAll (trivia ++ more) = (gap.pushAll trivia).pushAll more := by
  simp [pushAll]

def Gap.after (gap : Gap) (ls : List Lexeme) : Gap :=
  ls.foldl (fun gap l => if l.token.isTrivia then gap.push l else .empty) gap

theorem itemsFrom_append (gap : Gap) (ls ms : List Lexeme) :
    itemsFrom gap (ls ++ ms) = itemsFrom gap ls ++ itemsFrom (gap.after ls) ms := by
  induction ls generalizing gap with
  | nil => rfl
  | cons l ls ih =>
    rw [List.cons_append, Gap.after, List.foldl_cons, ← Gap.after]
    cases htrivia : l.token.isTrivia with
    | true =>
      rw [itemsFrom_cons_trivia _ htrivia, itemsFrom_cons_trivia _ htrivia]
      exact ih _
    | false =>
      rw [itemsFrom_cons_item _ htrivia, itemsFrom_cons_item _ htrivia, List.cons_append]
      exact congrArg _ (ih _)

theorem itemsFrom_append_cons {gap : Gap} {trivia : List Lexeme} {l : Lexeme} (ls : List Lexeme)
    (htrivia : ∀ x ∈ trivia, x.token.isTrivia = true) (hl : l.token.isTrivia = false) :
    itemsFrom gap (trivia ++ l :: ls) = ofLexeme (gap.pushAll trivia) l :: itemsFrom .empty ls := by
  induction trivia generalizing gap with
  | nil => exact itemsFrom_cons_item ls hl
  | cons x trivia ih =>
    rw [List.cons_append, itemsFrom_cons_trivia _ (htrivia x (.head _))]
    exact ih fun y hy => htrivia y (.tail _ hy)

theorem itemsFrom_eq_cons {gap : Gap} {ls : List Lexeme} {item : Item} {items : List Item}
    (h : itemsFrom gap ls = item :: items) :
    ∃ trivia l rest, ls = trivia ++ l :: rest ∧ (∀ x ∈ trivia, x.token.isTrivia = true)
      ∧ l.token.isTrivia = false ∧ item = ofLexeme (gap.pushAll trivia) l
      ∧ items = itemsFrom .empty rest := by
  induction ls generalizing gap with
  | nil => cases h
  | cons l ls ih =>
    cases hl : l.token.isTrivia with
    | true =>
      rw [itemsFrom_cons_trivia ls hl] at h
      obtain ⟨trivia, l', rest, hls, htrivia, hl', hitem, hitems⟩ := ih h
      refine ⟨l :: trivia, l', rest, congrArg (l :: ·) hls, ?_, hl', hitem, hitems⟩
      intro x hx
      rcases List.mem_cons.mp hx with rfl | hx
      . exact hl
      . exact htrivia x hx
    | false =>
      rw [itemsFrom_cons_item ls hl] at h
      cases h
      exact ⟨[], l, ls, rfl, by simp, hl, rfl, rfl⟩

theorem itemsFrom_eq_append {ls : List Lexeme} {more items : List Item} {start : Nat}
    (hls : AreLaid start ls) (h : itemsFrom .empty ls = more ++ items) :
    ∃ used rest, ls = used ++ rest ∧ (∀ l ∈ used.getLast?, l.token.isTrivia = false)
      ∧ stopAfter start more = start + byteLength (textOf used) ∧ items = itemsFrom .empty rest := by
  induction more generalizing ls start with
  | nil => exact ⟨[], ls, rfl, by simp, rfl, h.symm⟩
  | cons item more ih =>
    rw [List.cons_append] at h
    obtain ⟨trivia, l, rest, rfl, htrivia, hl, rfl, hmore⟩ := itemsFrom_eq_cons h
    obtain ⟨hstart, _, _, hrest⟩ := hls.split.cons
    obtain ⟨used, rest', rfl, hlast, hstop, hitems⟩ := ih hrest hmore.symm
    refine ⟨trivia ++ l :: used, rest', by simp, ?_, ?_, hitems⟩
    . intro x hx
      rw [List.getLast?_append, List.getLast?_cons] at hx
      cases hused : used.getLast? with
      | none =>
        rw [hused] at hx
        cases hx
        exact hl
      | some y =>
        rw [hused] at hx
        cases hx
        exact hlast _ hused
    . rw [stopAfter]
      refine hstop.trans ?_
      simp only [Lexeme.stop, textOf_append, textOf_cons, byteLength_append]
      omega

theorem itemsFrom_eq_append_cons {gap : Gap} {ls : List Lexeme} {more items : List Item}
    {item : Item} (h : itemsFrom gap ls = more ++ item :: items) :
    ∃ front l rest, ls = front ++ l :: rest ∧ itemsFrom gap front = more ∧ l.token = item.token
      ∧ l.span = item.span ∧ items = itemsFrom .empty rest := by
  induction ls generalizing gap more with
  | nil => simp at h
  | cons l ls ih =>
    cases hl : l.token.isTrivia with
    | true =>
      rw [itemsFrom_cons_trivia ls hl] at h
      obtain ⟨front, l', rest, rfl, hfront, hall⟩ := ih h
      exact ⟨l :: front, l', rest, rfl, by rw [itemsFrom_cons_trivia front hl, hfront], hall⟩
    | false =>
      rw [itemsFrom_cons_item ls hl] at h
      cases more with
      | nil =>
        cases h
        exact ⟨[], l, ls, rfl, rfl, rfl, rfl, rfl⟩
      | cons first more =>
        rw [List.cons_append, List.cons.injEq] at h
        obtain ⟨front, l', rest, rfl, hfront, hall⟩ := ih h.2
        exact ⟨l :: front, l', rest, rfl, by rw [itemsFrom_cons_item front hl, hfront, h.1], hall⟩

def Token.IsComment (token : Token) : Prop :=
  token.isTrivia = true ∧ token ≠ .newline ∧ token ≠ .whitespace

theorem Gap.push_newline (gap : Gap) {l : Lexeme} (h : l.token = .newline) :
    gap.push l = ⟨false, true, true, if gap.isLineStart then none else gap.comment⟩ := by
  unfold push
  rw [h]

theorem Gap.push_whitespace (gap : Gap) {l : Lexeme} (h : l.token = .whitespace) :
    gap.push l = { gap with isNarrow := false } := by
  unfold push
  rw [h]

theorem Gap.push_comment (gap : Gap) {l : Lexeme} (h : l.token.isTrivia = true)
    (hnewline : l.token ≠ .newline) (hblank : l.token ≠ .whitespace) :
    gap.push l = ⟨false, gap.hasNewline, false,
      if gap.hasNewline then some (gap.comment.getD l.start) else gap.comment⟩ := by
  unfold push
  split
  . next hl => exact absurd hl hnewline
  . rfl
  . rfl
  . next hline hblock =>
    unfold Token.isTrivia at h
    split at h
    . next hl => exact absurd hl (hline _)
    . next hl => exact absurd hl (hblock _)
    . next hl => exact absurd hl hblank
    . next hl => exact absurd hl hnewline
    . cases h

theorem Gap.hasNewline_push (gap : Gap) (l : Lexeme) (h : l.token.isTrivia = true) :
    (gap.push l).hasNewline = (gap.hasNewline || l.token == .newline) := by
  by_cases hnewline : l.token = .newline
  . rw [gap.push_newline hnewline, hnewline]
    simp
  by_cases hblank : l.token = .whitespace
  . rw [gap.push_whitespace hblank, hblank]
    exact (Bool.or_false _).symm
  . rw [gap.push_comment h hnewline hblank, beq_false_of_ne hnewline]
    exact (Bool.or_false _).symm

theorem Gap.pushAll_empty (trivia : List Lexeme) (htrivia : ∀ l ∈ trivia, l.token.isTrivia = true) :
    let gap := Gap.empty.pushAll trivia
    (gap.hasNewline = true ↔ .newline ∈ tokensOf trivia)
      ∧ (gap.hasNewline = false → gap.comment = none)
      ∧ (gap.hasNewline = true → gap.comment = none →
        (tokensOf trivia).getLast? = some .newline)
      ∧ ∀ start, gap.comment = some start → ∃ before l after, trivia = before ++ l :: after
        ∧ l.start = start ∧ (tokensOf before).getLast? = some .newline
        ∧ l.token ≠ .newline ∧ l.token ≠ .whitespace := by
  induction trivia using List.reverseRecOn with
  | nil => simp [Gap.empty]
  | append_singleton trivia l ih =>
    obtain ⟨hnewline, hnone, hlast, hcomment⟩ :=
      ih fun x hx => htrivia x (List.mem_append_left _ hx)
    have hl := htrivia l (by simp)
    have hpush : Gap.empty.pushAll (trivia ++ [l]) = (Gap.empty.pushAll trivia).push l :=
      Gap.pushAll_append ..
    have more : ∀ {start}, (Gap.empty.pushAll trivia).comment = some start →
        ∃ before l' after, trivia ++ [l] = before ++ l' :: after ∧ l'.start = start
          ∧ (tokensOf before).getLast? = some .newline ∧ l'.token ≠ .newline
          ∧ l'.token ≠ .whitespace := by
      intro start hstart
      obtain ⟨before, l', after, htrivia', h⟩ := hcomment start hstart
      exact ⟨before, l', after ++ [l], by rw [htrivia']; simp, h⟩
    rw [hpush]
    generalize Gap.empty.pushAll trivia = gap at *
    by_cases hl' : l.token = .newline
    . have htokens : tokensOf (trivia ++ [l]) = tokensOf trivia ++ [.newline] := by
        simp [tokensOf, hl']
      rw [gap.push_newline hl', htokens]
      refine ⟨by simp, by simp, by simp, ?_⟩
      intro start hstart
      dsimp only at hstart
      split at hstart
      . cases hstart
      . exact more hstart
    by_cases hblank : l.token = .whitespace
    . have htokens : tokensOf (trivia ++ [l]) = tokensOf trivia := by
        simp [tokensOf, hblank]
      rw [gap.push_whitespace hblank, htokens]
      exact ⟨hnewline, hnone, hlast, fun start => more⟩
    have htokens : tokensOf (trivia ++ [l]) = tokensOf trivia ++ [l.token] := by
      simp [tokensOf, hblank]
    rw [gap.push_comment hl hl' hblank, htokens]
    cases hline : gap.hasNewline with
    | false =>
      rw [hline] at hnewline
      refine ⟨?_, fun _ => hnone hline, by simp, ?_⟩
      . simpa [Ne.symm hl'] using hnewline
      . simp [hnone hline]
    | true =>
      refine ⟨?_, by simp, by simp, ?_⟩
      . simpa using .inl (hnewline.mp hline)
      . intro start hstart
        rw [if_pos rfl, Option.some.injEq] at hstart
        cases hcomment' : gap.comment with
        | none =>
          rw [hcomment'] at hstart
          exact ⟨trivia, l, [], rfl, hstart, hlast hline hcomment', hl', hblank⟩
        | some start' =>
          rw [hcomment'] at hstart
          cases hstart
          exact more hcomment'

theorem Gap.comment_push {gap : Gap} {l : Lexeme} {start : Nat}
    (h : (gap.push l).comment = some start) :
    gap.comment = some start ∨ start = l.start ∧ l.token.IsComment := by
  have comment : (if gap.hasNewline then some (gap.comment.getD l.start) else gap.comment)
      = some start → gap.comment = some start ∨ start = l.start := by
    intro h
    split at h
    . rw [Option.some.injEq] at h
      cases hcomment : gap.comment with
      | none =>
        rw [hcomment] at h
        exact .inr h.symm
      | some start' =>
        rw [hcomment] at h
        exact .inl (congrArg some h)
    . exact .inl h
  unfold push at h
  split at h
  . dsimp only at h
    split at h
    . cases h
    . exact .inl h
  . next hl => exact (comment h).imp_right fun h => ⟨h, by simp [Token.IsComment, hl, Token.isTrivia]⟩
  . next hl => exact (comment h).imp_right fun h => ⟨h, by simp [Token.IsComment, hl, Token.isTrivia]⟩
  . exact .inl h

theorem Spells.byteLength_pos {text : List Char} {token : Token} (h : Spells text token) :
    0 < byteLength text := by
  obtain ⟨c, cs, rfl⟩ := List.exists_cons_of_ne_nil h.ne_nil
  have := c.utf8Size_pos
  rw [byteLength_cons]
  omega

theorem inOrder_itemsFrom {gap : Gap} {ls : List Lexeme} {start from' : Nat}
    (hls : AreLaid start ls) (hstart : from' ≤ start)
    (hgap : ∀ comment, gap.comment = some comment → from' ≤ comment ∧ comment ≤ start) :
    InOrder from' (itemsFrom gap ls) := by
  induction ls generalizing gap start from' with
  | nil => trivial
  | cons l ls ih =>
    obtain ⟨hl, hspells, _, htail⟩ := hls.cons
    have hpos := hspells.byteLength_pos
    have hstop : l.stop = start + byteLength l.text := by
      rw [Lexeme.stop, hl]
    cases htrivia : l.token.isTrivia with
    | true =>
      rw [itemsFrom_cons_trivia ls htrivia]
      apply ih htail (by omega)
      intro comment hcomment
      rcases Gap.comment_push hcomment with h | ⟨h, _⟩
      . have := hgap comment h
        omega
      . omega
    | false =>
      rw [itemsFrom_cons_item ls htrivia]
      have hlead : from' ≤ (ofLexeme gap l).lead ∧ (ofLexeme gap l).lead ≤ l.start := by
        show from' ≤ gap.comment.getD l.start ∧ gap.comment.getD l.start ≤ l.start
        cases hcomment : gap.comment with
        | none =>
          rw [Option.getD_none]
          omega
        | some comment =>
          have := hgap comment hcomment
          rw [Option.getD_some]
          omega
      refine ⟨hlead.1, hlead.2, ?_, ih htail (Nat.le_refl _) (by simp [Gap.empty])⟩
      show l.start < l.stop
      omega

theorem Lexeme.AreLaid.inOrder {start : Nat} {ls : List Lexeme} (hls : AreLaid start ls) :
    InOrder start (itemsFrom .empty ls) :=
  inOrder_itemsFrom hls (Nat.le_refl start) (by simp [Gap.empty])

theorem exists_lexeme_of_mem_itemsFrom {gap : Gap} {ls : List Lexeme} {item : Item}
    (h : item ∈ itemsFrom gap ls) :
    ∃ l ∈ ls, l.token = item.token ∧ l.span = item.span ∧ l.token.isTrivia = false := by
  induction ls generalizing gap with
  | nil => cases h
  | cons l ls ih =>
    have tail : ∀ {gap'}, item ∈ itemsFrom gap' ls → ∃ x ∈ l :: ls,
        x.token = item.token ∧ x.span = item.span ∧ x.token.isTrivia = false := by
      intro gap' hitem
      obtain ⟨x, hx, hall⟩ := ih hitem
      exact ⟨x, .tail _ hx, hall⟩
    cases htrivia : l.token.isTrivia with
    | true =>
      rw [itemsFrom_cons_trivia ls htrivia] at h
      exact tail h
    | false =>
      rw [itemsFrom_cons_item ls htrivia] at h
      rcases List.mem_cons.mp h with rfl | h
      . exact ⟨l, .head _, rfl, rfl, htrivia⟩
      . exact tail h

theorem exists_lead_of_mem_itemsFrom {gap : Gap} {ls : List Lexeme} {item : Item}
    (h : item ∈ itemsFrom gap ls) :
    gap.comment = some item.lead
      ∨ ∃ l ∈ ls, l.start = item.lead ∧ (l.token.isTrivia = false ∨ l.token.IsComment) := by
  induction ls generalizing gap with
  | nil => cases h
  | cons l ls ih =>
    cases htrivia : l.token.isTrivia with
    | true =>
      rw [itemsFrom_cons_trivia ls htrivia] at h
      rcases ih h with hcomment | ⟨x, hx, hall⟩
      . rcases Gap.comment_push hcomment with hcomment | ⟨hstart, hl⟩
        . exact .inl hcomment
        . exact .inr ⟨l, .head _, hstart.symm, .inr hl⟩
      . exact .inr ⟨x, .tail _ hx, hall⟩
    | false =>
      rw [itemsFrom_cons_item ls htrivia] at h
      rcases List.mem_cons.mp h with rfl | h
      . cases hcomment : gap.comment with
        | none => exact .inr ⟨l, .head _, by simp [ofLexeme, hcomment], .inl htrivia⟩
        | some start => exact .inl (by simp [ofLexeme, hcomment])
      . rcases ih h with hcomment | ⟨x, hx, hall⟩
        . cases hcomment
        . exact .inr ⟨x, .tail _ hx, hall⟩

theorem isName_of_mem_itemsFrom {gap : Gap} {ls : List Lexeme} {start : Nat}
    (hls : AreLaid start ls) {item : Item} (hitem : item ∈ itemsFrom gap ls) {name : String}
    (hname : item.token = .identifier name) : IsName name := by
  induction ls generalizing gap start with
  | nil => cases hitem
  | cons l ls ih =>
    obtain ⟨_, hspells, _, htail⟩ := hls.cons
    cases htrivia : l.token.isTrivia with
    | true =>
      rw [itemsFrom_cons_trivia ls htrivia] at hitem
      exact ih htail hitem
    | false =>
      rw [itemsFrom_cons_item ls htrivia] at hitem
      rcases List.mem_cons.mp hitem with rfl | hitem
      . have htoken : l.token = .identifier name := hname
        rw [htoken] at hspells
        exact hspells.isName
      . exact ih htail hitem

end Delegation
