import Delegation.Proofs.Joining
import Delegation.Proofs.Rendering

/-!
This module contains the items of a text that is put together from its end: each part is written in
front of a text whose items are known already.
-/

namespace Delegation

open Item Lexeme

/-!
A text by itself has the lexemes that it has in front of another one.
-/

def Lexeme.shift (offset : Nat) (l : Lexeme) : Lexeme :=
  ⟨offset + l.start, l.token, l.text⟩

@[simp]
theorem Lexeme.token_shift (offset : Nat) (l : Lexeme) : (l.shift offset).token = l.token := rfl

theorem eq_map_shift {offset : Nat} {ls ls' : List Lexeme}
    (h : List.Forall₂ (IsShift 0 offset) ls ls') : ls' = ls.map (Lexeme.shift offset) := by
  induction h with
  | nil => rfl
  | @cons l l' ls ls' hl _ ih =>
    obtain ⟨htoken, htext, hstart⟩ := hl
    rw [Nat.zero_add] at hstart
    rw [List.map_cons, ← ih, Lexeme.shift, ← htoken, ← htext, ← hstart]

theorem Lexes.shift {cs : List Char} {ls : List Lexeme} (h : Lexes 0 cs ls) (offset : Nat) :
    Lexes offset cs (ls.map (Lexeme.shift offset)) := by
  obtain ⟨ls', hls', hall⟩ := h.exists_shift offset
  rwa [eq_map_shift hall] at hls'

theorem Token.endsBefore_cons (token : Token) {c : Char} (rest : List Char)
    (hc : c ∈ ['\n', ')', '}'])
    (hcomment : c = '\n' ∨ ∀ content, token ≠ .lineComment content) :
    token.endsBefore (c :: rest) = true := by
  have hall : ['\n', ')', '}'].all (fun c => !isIdentifierPart c && !isNumberPart c
      && !readPiece.isSpacing c && c != '>' && c != '@' && c != '.') = true := by
    decide +kernel
  have hc := List.all_eq_true.mp hall c hc
  simp only [Bool.and_eq_true, Bool.not_eq_true', bne_iff_ne, ne_eq] at hc
  obtain ⟨⟨⟨⟨⟨hidentifier, hnumber⟩, hspacing⟩, harrow⟩, hat⟩, hdot⟩ := hc
  unfold endsBefore
  split
  . simp [hidentifier]
  . simp [hnumber]
  . simp [hspacing]
  . next content =>
    rcases hcomment with rfl | hcomment
    . rfl
    . exact absurd rfl (hcomment content)
  . simp [harrow]
  . simp [hat]
  . simp [List.isPrefixOf, Ne.symm hdot]
  . rfl

theorem Lexes.append_cons {start : Nat} {cs rest : List Char} {ls ms : List Lexeme} {c : Char}
    (h : Lexes start cs ls) (hc : c ∈ ['\n', ')', '}'])
    (hcomment : c = '\n' ∨ ∀ l ∈ ls.getLast?, ∀ content, l.token ≠ .lineComment content)
    (hrest : Lexes (start + byteLength cs) (c :: rest) ms) :
    Lexes start (cs ++ c :: rest) (ls ++ ms) := by
  induction h with
  | nil => exact hrest
  | @cons start text cs token ls hspells hends htail ih =>
    rw [byteLength_append, ← Nat.add_assoc] at hrest
    rw [List.append_assoc]
    cases htail with
    | nil =>
      apply Lexes.cons hspells _ hrest
      apply token.endsBefore_cons rest hc
      exact hcomment.imp_right fun h => h _ rfl
    | @cons _ text' cs' token' ls' hspells' hends' htail' =>
      rw [List.getLast?_cons_cons] at hcomment
      apply Lexes.cons hspells _ (ih hcomment hrest)
      obtain ⟨d, ds, rfl⟩ := List.exists_cons_of_ne_nil hspells'.ne_nil
      simp only [List.cons_append] at hends ⊢
      by_cases hdot : d ≠ '.' ∨ ds ++ cs' ≠ []
      . rw [token.endsBefore_append hdot _ [], List.append_nil]
        exact hends
      . -- One dot is read alone in front of a dot at the end of the text.
        rw [not_or, not_not, not_not, List.append_eq_nil_iff] at hdot
        obtain ⟨rfl, rfl, rfl⟩ := hdot
        have hne : ('.' == c) = false := by
          simp only [List.mem_cons, List.not_mem_nil, or_false] at hc
          rcases hc with rfl | rfl | rfl <;> rfl
        cases token with
        | sign s => cases s <;> first | exact hends | simp [Token.endsBefore, List.isPrefixOf, hne]
        | _ => exact hends

/-!
Of the trivia in front of an item, parsers see whether there was any and whether a line ended.
-/

/--
Whether the first of `items` is divided from what is in front of it.
-/
def IsApart (items : List Item) : Prop :=
  ∀ item ∈ items.head?, item.isAdjacent = false

def BeginsLine (items : List Item) : Prop :=
  ∀ item ∈ items.head?, item.isOnNewLine = true

theorem isApart_itemsFrom {gap : Gap} (hgap : gap.isNarrow = false) (ls : List Lexeme) :
    IsApart (itemsFrom gap ls) := by
  induction ls generalizing gap with
  | nil => simp [IsApart]
  | cons l ls ih =>
    cases htrivia : l.token.isTrivia with
    | true =>
      rw [itemsFrom_cons_trivia ls htrivia]
      apply ih
      unfold Gap.push
      split <;> rfl
    | false =>
      rw [itemsFrom_cons_item ls htrivia]
      intro item hitem
      cases hitem
      exact hgap

theorem beginsLine_itemsFrom {gap : Gap} (hgap : gap.hasNewline = true) (ls : List Lexeme) :
    BeginsLine (itemsFrom gap ls) := by
  induction ls generalizing gap with
  | nil => simp [BeginsLine]
  | cons l ls ih =>
    cases htrivia : l.token.isTrivia with
    | true =>
      rw [itemsFrom_cons_trivia ls htrivia]
      apply ih
      unfold Gap.push
      split <;> first | rfl | exact hgap
    | false =>
      rw [itemsFrom_cons_item ls htrivia]
      intro item hitem
      cases hitem
      exact hgap

theorem itemsFrom_eq_nil {gap : Gap} {ls : List Lexeme} (h : ∀ l ∈ ls, l.token.isTrivia = true) :
    itemsFrom gap ls = [] := by
  induction ls generalizing gap with
  | nil => rfl
  | cons l ls ih =>
    rw [itemsFrom_cons_trivia ls (h l (.head _))]
    exact ih fun x hx => h x (.tail _ hx)

theorem isOnNewLine_eq_false {gap : Gap} {ls : List Lexeme} (hgap : gap.hasNewline = false)
    (h : ∀ l ∈ ls, l.token ≠ .newline) : ∀ item ∈ itemsFrom gap ls, item.isOnNewLine = false := by
  induction ls generalizing gap with
  | nil => simp
  | cons l ls ih =>
    have htail : ∀ x ∈ ls, x.token ≠ .newline := fun x hx => h x (.tail _ hx)
    cases htrivia : l.token.isTrivia with
    | true =>
      rw [itemsFrom_cons_trivia ls htrivia]
      apply ih _ htail
      unfold Gap.push
      split
      . next hl => exact absurd hl (h l (.head _))
      all_goals exact hgap
    | false =>
      rw [itemsFrom_cons_item ls htrivia]
      intro item hitem
      rcases List.mem_cons.mp hitem with rfl | hitem
      . exact hgap
      . exact ih rfl htail item hitem

/--
Whether `source` goes on with `cs` behind `front`, and `items` are those of `cs` behind the trivia
that `gap` tells of.
-/
structure Yields (source front : List Char) (gap : Gap) (cs : List Char) (items : List Item) :
    Prop where
  source_eq : source = front ++ cs
  exists_lexes : ∃ ls, Lexes (byteLength front) cs ls ∧ itemsFrom gap ls = items

theorem isSpacing_blank : readPiece.isSpacing ' ' = true := by
  decide +kernel

namespace Yields

variable {source front rest : List Char} {gap : Gap} {items : List Item}

theorem nil (source : List Char) (gap : Gap) : Yields source source gap [] [] :=
  ⟨(List.append_nil _).symm, [], .nil, rfl⟩

theorem isApart {cs : List Char} (h : Yields source front gap cs items)
    (hgap : gap.isNarrow = false) : IsApart items := by
  obtain ⟨_, ls, _, rfl⟩ := h
  exact isApart_itemsFrom hgap ls

theorem beginsLine {cs : List Char} (h : Yields source front gap cs items)
    (hgap : gap.hasNewline = true) : BeginsLine items := by
  obtain ⟨_, ls, _, rfl⟩ := h
  exact beginsLine_itemsFrom hgap ls

theorem token {text : List Char} {token : Token} (h : Yields source (front ++ text) .empty rest items)
    (hspells : Spells text token) (hends : token.endsBefore rest = true)
    (htrivia : token.isTrivia = false) :
    Yields source front gap (text ++ rest)
      (ofLexeme gap ⟨byteLength front, token, text⟩ :: items) := by
  obtain ⟨hsource, ls, hls, rfl⟩ := h
  rw [byteLength_append] at hls
  refine ⟨by rw [hsource, List.append_assoc], _, .cons hspells hends hls, ?_⟩
  exact itemsFrom_cons_item _ htrivia

theorem trivia {text : List Char} {token : Token}
    (h : Yields source (front ++ text) (gap.push ⟨byteLength front, token, text⟩) rest items)
    (hspells : Spells text token) (hends : token.endsBefore rest = true)
    (htrivia : token.isTrivia = true) : Yields source front gap (text ++ rest) items := by
  obtain ⟨hsource, ls, hls, rfl⟩ := h
  rw [byteLength_append] at hls
  refine ⟨by rw [hsource, List.append_assoc], _, .cons hspells hends hls, ?_⟩
  exact itemsFrom_cons_trivia _ htrivia

theorem char {c : Char} {token : Token} (h : Yields source (front ++ [c]) .empty rest items)
    (hc : Token.ofChar? c = some token) (hends : token.endsBefore rest = true)
    (htrivia : token.isTrivia = false) :
    Yields source front gap (c :: rest) (ofLexeme gap ⟨byteLength front, token, [c]⟩ :: items) :=
  h.token (.char hc) hends htrivia

theorem name {name : String} (h : Yields source (front ++ name.toList) .empty rest items)
    (hname : IsName name) (hends : EndsName rest) :
    Yields source front gap (name.toList ++ rest)
      (ofLexeme gap ⟨byteLength front, .identifier name, name.toList⟩ :: items) :=
  h.token hname hends rfl

theorem newline
    (h : Yields source (front ++ ['\n']) (gap.push ⟨byteLength front, .newline, ['\n']⟩) rest items) :
    Yields source front gap ('\n' :: rest) items :=
  h.trivia (.char rfl) rfl rfl

theorem blank
    (h : Yields source (front ++ [' ']) (gap.push ⟨byteLength front, .whitespace, [' ']⟩) rest items)
    (hends : Token.whitespace.endsBefore rest = true) :
    Yields source front gap (' ' :: rest) items :=
  h.trivia (.whitespace isSpacing_blank (by simp)) hends rfl

theorem indent
    (h : Yields source (front ++ [' ', ' ']) (gap.push ⟨byteLength front, .whitespace, [' ', ' ']⟩)
      rest items)
    (hends : Token.whitespace.endsBefore rest = true) :
    Yields source front gap (' ' :: ' ' :: rest) items :=
  h.trivia (.whitespace isSpacing_blank (by simp [isSpacing_blank])) hends rfl

theorem text {cs : List Char} {ls : List Lexeme} {c : Char}
    (h : Yields source (front ++ cs) (gap.after (ls.map (Lexeme.shift (byteLength front))))
      (c :: rest) items)
    (hls : Lexes 0 cs ls) (hc : c ∈ ['\n', ')', '}'])
    (hcomment : c = '\n' ∨ ∀ l ∈ ls.getLast?, ∀ content, l.token ≠ .lineComment content) :
    Yields source front gap (cs ++ c :: rest)
      (itemsFrom gap (ls.map (Lexeme.shift (byteLength front))) ++ items) := by
  obtain ⟨hsource, ms, hms, rfl⟩ := h
  rw [byteLength_append] at hms
  refine ⟨by rw [hsource, List.append_assoc], _, ?_, itemsFrom_append ..⟩
  apply (hls.shift _).append_cons hc _ hms
  apply hcomment.imp_right
  intro hall l hl
  rw [List.getLast?_map] at hl
  obtain ⟨l', hl', rfl⟩ := Option.map_eq_some_iff.mp hl
  exact hall l' hl'

end Yields

end Delegation
