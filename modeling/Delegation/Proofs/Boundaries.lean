import Delegation.Proofs.Composition

/-!
This module contains what the lexer makes of a part of a text. A part that begins and ends where
lexemes do has these lexemes by itself: a token that is over in front of some text is over at the end
of the text as well.
-/

namespace Delegation

open Lexeme

theorem Token.endsBefore_of_append {token : Token} {rest tail : List Char}
    (h : token.endsBefore (rest ++ tail) = true) : token.endsBefore rest = true := by
  cases rest with
  | nil =>
    cases token with
    | sign s => cases s <;> rfl
    | _ => rfl
  | cons c cs =>
    by_cases hdot : c ≠ '.' ∨ cs ≠ []
    . have := token.endsBefore_append hdot [] tail
      rw [List.append_nil] at this
      rw [this]
      exact h
    . -- A dot is one by itself at the end of the text, where it cannot begin an ellipsis.
      rw [not_or, not_not, not_not] at hdot
      obtain ⟨rfl, rfl⟩ := hdot
      cases token with
      | sign s => cases s <;> first | exact h | rfl
      | _ => exact h

namespace Lexeme.AreLaid

variable {start : Nat} {ls ms : List Lexeme}

theorem front (h : AreLaid start (ls ++ ms)) : AreLaid start ls := by
  induction ls generalizing start with
  | nil => exact .nil
  | cons l ls ih =>
    rw [List.cons_append] at h
    obtain ⟨rfl, hspells, hends, htail⟩ := h.cons
    rw [textOf_append] at hends
    exact Lexes.cons hspells (Token.endsBefore_of_append hends) (ih htail)

theorem exists_map_shift (h : AreLaid start ls) :
    ∃ ms, Lexes 0 (textOf ls) ms ∧ ms.map (shift start) = ls := by
  obtain ⟨ms, hms, hall⟩ := h.exists_shift 0
  have hshift : List.Forall₂ (IsShift 0 start) ms ls := hall.flip.imp fun _ _ => IsShift.symm
  exact ⟨ms, hms, (eq_map_shift hshift).symm⟩

theorem bounds_of_getElem (h : AreLaid 0 ls) {i : Nat} (hi : i < ls.length) :
    ls[i].start = byteLength (textOf (ls.take i))
      ∧ ls[i].stop = byteLength (textOf (ls.take (i + 1))) := by
  have hsplit : AreLaid 0 (ls.take i ++ ls[i] :: ls.drop (i + 1)) := by
    rwa [List.getElem_cons_drop hi, List.take_append_drop]
  have hstart := hsplit.split.cons.1
  rw [Nat.zero_add] at hstart
  refine ⟨hstart, ?_⟩
  rw [List.take_succ_eq_append_getElem hi, textOf_append, byteLength_append, ← hstart]
  simp [stop]

end Lexeme.AreLaid

/--
The part of a source from one of its lexemes to another one has all lexemes from the one to the
other, and no others.
-/
theorem tokenize_extract {source : List Char} {ls : List Lexeme} (h : tokenize source = .ok ls)
    {i j : Nat} (hij : i ≤ j) (hj : j < ls.length) :
    ∃ piece ms, Span.slice? ⟨ls[i].start, ls[j].stop⟩ source = some piece
      ∧ tokenize piece = .ok ms ∧ ms.map (Lexeme.shift ls[i].start) = ls.extract i (j + 1) := by
  have hlexes := tokenize_eq_ok.mp h
  obtain ⟨hstart, -⟩ := hlexes.areLaid.bounds_of_getElem (Nat.lt_of_le_of_lt hij hj)
  obtain ⟨-, hstop⟩ := hlexes.areLaid.bounds_of_getElem hj
  have hfront : ls.take (j + 1) = ls.take i ++ ls.extract i (j + 1) := by
    have := (List.take_append_drop i (ls.take (j + 1))).symm
    rwa [List.take_take, Nat.min_eq_left (by omega), ← List.extract_eq_drop_take'] at this
  have hsplit : ls = ls.take i ++ (ls.extract i (j + 1) ++ ls.drop (j + 1)) := by
    rw [← List.append_assoc, ← hfront, List.take_append_drop]
  have hblock : AreLaid ls[i].start (ls.extract i (j + 1)) := by
    have hlaid := hlexes.areLaid
    rw [hsplit] at hlaid
    have := hlaid.split.front
    rwa [Nat.zero_add, ← hstart] at this
  obtain ⟨ms, hms, hshift⟩ := hblock.exists_map_shift
  refine ⟨textOf (ls.extract i (j + 1)), ms, ?_, tokenize_eq_ok.mpr hms, hshift⟩
  rw [hstart, hstop, hfront, textOf_append, byteLength_append]
  have hsource : source = textOf (ls.take i)
      ++ (textOf (ls.extract i (j + 1)) ++ textOf (ls.drop (j + 1))) := by
    rw [← textOf_append, ← textOf_append, ← hsplit, hlexes.textOf_eq]
  rw [hsource]
  exact Span.slice?_append ..

theorem tokenize_extract_ellipsis :
    let source := "a=> ...b // c\n@@d".toList
    ∃ ls, tokenize source = .ok ls ∧ ∃ hj : 6 < ls.length,
      ∃ piece ms, Span.slice? ⟨ls[1].start, ls[6].stop⟩ source = some piece
        ∧ tokenize piece = .ok ms ∧ ms.map (Lexeme.shift ls[1].start) = ls.extract 1 7 := by
  intro source
  have hlength : (tokenize source).toOption.any (6 < ·.length) = true := by decide +kernel
  cases h : tokenize source with
  | error e =>
    rw [h] at hlength
    cases hlength
  | ok ls =>
    rw [h] at hlength
    have hj := of_decide_eq_true hlength
    exact ⟨ls, rfl, hj, tokenize_extract h (by decide) hj⟩

end Delegation
