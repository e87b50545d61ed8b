import Delegation.Proofs.Splicing
import Delegation.Proofs.Survival

/-!
This module contains that lexemes lose nothing of their text: they cover it from end to end, and
each token can be told from its part of the text.
-/

namespace Delegation

open Lexeme

/--
Whether `text` is how `token` is written.
-/
def Token.IsWrittenAs (text : List Char) : Token → Prop
  | identifier name => text = name.toList
  | number content => text = content.toList
  | string content =>
    ∃ quote, (quote = '\x27' ∨ quote = '\x22') ∧ text = quote :: (content.toList ++ [quote])
  | template content => text = '\x60' :: (content.toList ++ ['\x60'])
  | sign s => text = s.spelling.toList
  | opening d => text = [d.opener]
  | closing d => text = [d.closer]
  | lineComment content => text = '/' :: '/' :: content.toList
  | blockComment content => text = '/' :: '*' :: (content.toList ++ ['*', '/'])
  | newline => text = ['\n']
  | whitespace => text ≠ [] ∧ ∀ c ∈ text, isBlank c = true ∧ c ≠ '\n'

def Frame.closer : Frame → Char
  | string quote _ => quote
  | template _ => '\x60'
  | placeholder .. => '}'

namespace Quoted

theorem exists_closer {read cs text rest : List Char} {frames : List Frame} {c : Char}
    (hlast : frames.getLast?.map Frame.closer = some c)
    (h : scan read frames cs = .closed text rest) :
    ∃ body, text = read.reverse ++ (body ++ [c]) := by
  -- What is read on the way to the last character is a part of the literal.
  have step : ∀ (front : List Char) {read : List Char},
      (∃ body, text = (front.reverse ++ read).reverse ++ (body ++ [c])) →
      ∃ body, text = read.reverse ++ (body ++ [c]) := by
    rintro front read ⟨body, rfl⟩
    exact ⟨front ++ body, by simp⟩
  -- The last frame is closed by the character that ends the literal.
  have pop : ∀ {frame : Frame} {outer : List Frame} {cs read : List Char},
      (frame :: outer).getLast?.map Frame.closer = some c →
      (outer.getLast?.map Frame.closer = some c → scan (frame.closer :: read) outer cs = .closed text rest →
        ∃ body, text = (frame.closer :: read).reverse ++ (body ++ [c])) →
      scan (frame.closer :: read) outer cs = .closed text rest →
      ∃ body, text = read.reverse ++ (body ++ [c]) := by
    intro frame outer cs read hlast ih h
    cases outer with
    | nil =>
      simp only [scan, closed.injEq] at h
      simp only [List.getLast?_singleton, Option.map_some, Option.some.injEq] at hlast
      exact ⟨[], by simp [← h.1, hlast]⟩
    | cons next outer =>
      rw [List.getLast?_cons_cons] at hlast
      exact step [_] (ih hlast h)
  fun_induction scan read frames cs with
  | case1 => cases hlast
  | case2 read quote opened outer c cs ih => exact step ['\\', _] (ih hlast h)
  | case3 read quote opened outer c cs hesc hc ih =>
    rw [beq_iff_eq] at hc
    subst hc
    exact pop hlast ih h
  | case4 => simp [leave] at h
  | case5 read quote opened outer c cs hesc hc hend ih => exact step [_] (ih hlast h)
  | case6 => simp [leave] at h
  | case7 read opened outer c cs ih => exact step ['\\', _] (ih hlast h)
  | case8 read opened outer cs ih =>
    exact step ['$', '{'] (ih (by rwa [List.getLast?_cons_cons]) h)
  | case9 read opened outer c cs hesc hdollar hc ih =>
    rw [beq_iff_eq] at hc
    subst hc
    exact pop hlast ih h
  | case10 => simp [leave] at h
  | case11 read opened outer c cs hesc hdollar hc hend ih => exact step [_] (ih hlast h)
  | case12 => simp [leave] at h
  | case13 read depth front opened outer c cs hc ih =>
    refine step [_] (ih ?_ h)
    cases outer <;> exact hlast
  | case14 read front opened outer c cs hopen hc ih =>
    rw [beq_iff_eq] at hc
    subst hc
    exact pop hlast ih h
  | case15 read front opened outer c cs hopen hc depth ih =>
    refine step [_] (ih ?_ h)
    cases outer <;> exact hlast
  | case16 read depth front opened outer c cs hopen hclose hc ih =>
    exact step [_] (ih (by rwa [List.getLast?_cons_cons]) h)
  | case17 read depth front opened outer c cs hopen hclose hquote hc ih =>
    exact step [_] (ih (by rwa [List.getLast?_cons_cons]) h)
  | case18 read depth front opened outer c cs hopen hclose hquote hc ih =>
    exact step [_] (ih hlast h)
  | case19 => simp [leave] at h

end Quoted

theorem Token.isWrittenAs_ofChar? {c : Char} {token : Token} (h : ofChar? c = some token) :
    token.IsWrittenAs [c] := by
  have hmem := mem_tokenChars h
  simp only [tokenChars, List.mem_cons, List.not_mem_nil, or_false] at hmem
  rcases hmem with rfl | rfl | rfl | rfl | rfl | rfl | rfl | rfl | rfl | rfl | rfl | rfl | rfl | rfl
    | rfl | rfl | rfl | rfl | rfl | rfl | rfl | rfl | rfl
  all_goals
    cases h
    rfl

theorem Spells.isWrittenAs {text : List Char} {token : Token} (h : Spells text token) :
    token.IsWrittenAs text := by
  cases h with
  | blockComment => simp [Token.IsWrittenAs]
  | lineComment => simp [Token.IsWrittenAs]
  | arrow => rfl
  | ellipsis => rfl
  | doubleAt => rfl
  | @string quote _ hquote h =>
    obtain ⟨body, htext⟩ := Quoted.exists_closer rfl h
    cases htext
    exact ⟨quote, hquote, by simp [Frame.closer]⟩
  | template h =>
    obtain ⟨body, htext⟩ := Quoted.exists_closer rfl h
    cases htext
    simp [Token.IsWrittenAs, Frame.closer]
  | number => simp [Token.IsWrittenAs]
  | identifier => simp [Token.IsWrittenAs]
  | char h => exact Token.isWrittenAs_ofChar? h
  | whitespace hc hcs =>
    have hall := Spells.eq_whitespace (.whitespace hc hcs)
    simp only [readPiece.isSpacing, Bool.and_eq_true, bne_iff_ne] at hall
    exact ⟨by simp, hall⟩

theorem Spells.tokenize_eq {text : List Char} {token : Token} (h : Spells text token) :
    tokenize text = .ok [⟨0, token, text⟩] := by
  have hends : token.endsBefore [] = true := by
    cases token with
    | sign s => cases s <;> rfl
    | _ => rfl
  have hlexes : Lexes 0 (text ++ []) [⟨0, token, text⟩] := .cons h hends .nil
  rw [List.append_nil] at hlexes
  exact tokenize_eq_ok.mpr hlexes

namespace Lexeme.AreLaid

variable {start : Nat} {ls : List Lexeme}

theorem isChain (h : AreLaid start ls) : ls.IsChain (fun a b => a.stop = b.start) := by
  induction ls generalizing start with
  | nil => exact .nil
  | cons l ls ih =>
    obtain ⟨_, _, _, htail⟩ := h.cons
    cases ls with
    | nil => exact .singleton _
    | cons next ls => exact .cons_cons htail.cons.1.symm (ih htail)

theorem getLast?_stop (h : AreLaid start ls) :
    ∀ l ∈ ls.getLast?, l.stop = start + byteLength (textOf ls) := by
  intro l hl
  obtain ⟨before, rfl⟩ := List.getLast?_eq_some_iff.mp hl
  have hl := h.split.cons.1
  simp [Lexeme.stop, hl, Nat.add_assoc]

theorem mem_bounds (h : AreLaid start ls) :
    ∀ l ∈ ls, l.start < l.stop ∧ l.stop ≤ start + byteLength (textOf ls) := by
  intro l hl
  have hall : AreLaid start (ls ++ []) := by rwa [List.append_nil]
  exact (hall.bounds l hl).2

theorem endOfText_eq (h : AreLaid 0 ls) : endOfText ls = byteLength (textOf ls) := by
  unfold endOfText
  cases hlast : ls.getLast? with
  | none =>
    rw [List.getLast?_eq_none_iff.mp hlast]
    rfl
  | some l => simpa using h.getLast?_stop l hlast

theorem slice?_span (h : AreLaid 0 ls) : ∀ l ∈ ls, l.span.slice? (textOf ls) = some l.text := by
  intro l hl
  obtain ⟨before, after, rfl⟩ := List.append_of_mem hl
  have hstart : l.start = byteLength (textOf before) := by
    simpa using h.split.cons.1
  rw [textOf_append, textOf_cons, Lexeme.span, Lexeme.stop, hstart]
  exact Span.slice?_append ..

end Lexeme.AreLaid

/--
The lexemes of a text are its parts, from its start to its end and without a gap. Each of them is
read as its token by itself, and the token says which characters it is made of.
-/
theorem tokenize_lossless {source : List Char} {ls : List Lexeme} (h : tokenize source = .ok ls) :
    textOf ls = source
      ∧ (∀ l ∈ ls.head?, l.start = 0)
      ∧ ls.IsChain (fun a b => a.stop = b.start)
      ∧ (∀ l ∈ ls.getLast?, l.stop = byteLength source)
      ∧ ∀ l ∈ ls, l.start < l.stop ∧ l.span.slice? source = some l.text
        ∧ l.token.IsWrittenAs l.text ∧ tokenize l.text = .ok [⟨0, l.token, l.text⟩] := by
  have hlexes := tokenize_eq_ok.mp h
  have hlaid := hlexes.areLaid
  obtain rfl := hlexes.textOf_eq
  refine ⟨rfl, ?_, hlaid.isChain, ?_, ?_⟩
  . intro l hl
    cases ls with
    | nil => cases hl
    | cons head ls =>
      cases hl
      exact hlaid.cons.1
  . simpa using hlaid.getLast?_stop
  . intro l hl
    have hspells : Spells l.text l.token := by
      obtain ⟨before, after, rfl⟩ := List.append_of_mem hl
      exact hlaid.split.cons.2.1
    exact ⟨(hlaid.mem_bounds l hl).1, hlaid.slice?_span l hl, hspells.isWrittenAs, hspells.tokenize_eq⟩

theorem tokenize_lossless_comment :
    let source := "a: \x22b\x22 // ä\n".toList
    let ls : List Lexeme :=
      [⟨0, .identifier "a", ['a']⟩, ⟨1, .sign .colon, [':']⟩, ⟨2, .whitespace, [' ']⟩,
        ⟨3, .string "b", ['\x22', 'b', '\x22']⟩, ⟨6, .whitespace, [' ']⟩,
        ⟨7, .lineComment " ä", ['/', '/', ' ', 'ä']⟩, ⟨12, .newline, ['\n']⟩]
    tokenize source = .ok ls
      ∧ textOf ls = source
      ∧ (∀ l ∈ ls.head?, l.start = 0)
      ∧ ls.IsChain (fun a b => a.stop = b.start)
      ∧ (∀ l ∈ ls.getLast?, l.stop = byteLength source)
      ∧ ∀ l ∈ ls, l.start < l.stop ∧ l.span.slice? source = some l.text
        ∧ l.token.IsWrittenAs l.text ∧ tokenize l.text = .ok [⟨0, l.token, l.text⟩] :=
  ⟨by decide +kernel, tokenize_lossless (by decide +kernel)⟩

end Delegation
