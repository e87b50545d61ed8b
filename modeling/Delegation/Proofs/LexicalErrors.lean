import Delegation.Proofs.Lexing
import Delegation.Proofs.OpenLiterals

/-!
This module contains how the lexer gets through a text with errors: every step reads something, or
is the last one, and what is reported is in the order of the text.
-/

namespace Delegation

open Quoted

/--
The steps of the lexer in a text that begins at the offset `start`, and what they read. The last
step may leave something unread, any other one goes on where it has read to.
-/
inductive Steps : Nat → List Char → List Piece → Prop where
  | done {start : Nat} : Steps start [] []
  | stop {start : Nat} {c : Char} {cs rest : List Char} {piece : Piece}
    (hread : readPiece start c cs = (piece, rest)) (hfinal : piece.isFinal = true) :
    Steps start (c :: cs) [piece]
  | step {start : Nat} {c : Char} {cs text rest : List Char} {piece : Piece} {ps : List Piece}
    (hread : readPiece start c cs = (piece, rest)) (hfinal : piece.isFinal = false)
    (htext : c :: cs = text ++ rest) (hne : text ≠ [])
    (hstop : piece.stop = start + byteLength text) (htail : Steps piece.stop rest ps) :
    Steps start (c :: cs) (piece :: ps)

theorem Steps.length_le {start : Nat} {cs : List Char} {ps : List Piece} (h : Steps start cs ps) :
    ps.length ≤ cs.length := by
  induction h with
  | done => exact Nat.le_refl _
  | stop => simp
  | @step start c cs text rest piece ps _ _ htext hne _ _ ih =>
    have hlength := congrArg List.length htext
    have hpos := List.length_pos_iff.mpr hne
    rw [List.length_append] at hlength
    rw [List.length_cons]
    omega

inductive FaultKind.IsFoundAt : FaultKind → List Char → List Char → Prop where
  | unterminatedString {quote : Char} {body behind : List Char}
    (h : BeginsOpen .string (quote :: (body ++ behind)) (quote :: body) behind) :
    IsFoundAt .unterminatedString (quote :: body) behind
  | unexpectedCharacter {c : Char} {behind : List Char}
    (h : ∀ text token, text <+: c :: behind → ¬ Spells text token) :
    IsFoundAt (.unexpectedCharacter c) [c] behind
  | unterminatedComment {behind : List Char} (h : ¬ ['*', '/'] <:+: behind) :
    IsFoundAt .unterminatedComment ['/', '*'] behind
  | unterminatedTemplate {body behind rest : List Char}
    (h : BeginsOpen .template ('\x60' :: (body ++ behind)) ('\x60' :: body) rest) :
    IsFoundAt .unterminatedTemplate ('\x60' :: body) behind

theorem not_isInfix_of_blockCommentBody? {cs : List Char} (h : blockCommentBody? cs = none) :
    ¬ ['*', '/'] <:+: cs := by
  fun_induction blockCommentBody? cs with
  | case1 => cases h
  | case2 c cs hend ih =>
    rw [List.infix_cons_iff]
    rintro (⟨behind, hbehind⟩ | hinfix)
    . obtain ⟨rfl, rfl⟩ := List.cons.inj hbehind
      exact hend behind rfl rfl
    . exact ih (Option.map_eq_none_iff.mp h) hinfix
  | case3 => simp

theorem not_spells_of_ofChar?_eq_none {c : Char} {cs text : List Char} {token : Token}
    (hlong : beginsLongToken c cs = false) (hquote : ¬ (c == '\x27' || c == '\x22') = true)
    (htemplate : ¬ (c == '\x60') = true) (hdigit : ¬ c.isDigit = true)
    (hstart : ¬ isIdentifierStart c = true) (htoken : Token.ofChar? c = none)
    (hblank : ¬ isBlank c = true) (htext : text <+: c :: cs) : ¬ Spells text token := by
  obtain ⟨behind, hbehind⟩ := htext
  intro hspells
  cases hspells with
  | blockComment | lineComment | arrow | ellipsis | doubleAt =>
    cases hbehind
    cases hlong
  | string h =>
    cases hbehind
    simp [h] at hquote
  | template =>
    cases hbehind
    cases htemplate rfl
  | number h =>
    cases hbehind
    exact hdigit h
  | identifier h =>
    cases hbehind
    exact hstart h
  | char h =>
    cases hbehind
    rw [htoken] at h
    cases h
  | whitespace h =>
    cases hbehind
    rw [readPiece.isSpacing, Bool.and_eq_true] at h
    exact hblank h.1

theorem isFoundAt_of_readPiece {start : Nat} {c : Char} {cs rest : List Char} {f : Fault}
    (h : readPiece start c cs = (.fault f, rest)) :
    ∃ front behind, c :: cs = front ++ (f.text ++ behind) ∧ f.start = start + byteLength front
      ∧ f.kind.IsFoundAt f.text behind ∧ (f.kind.isFinal = false → behind = rest) := by
  have hunclosed : ∀ {quotation before text rest' tail},
      readPiece.unclosed start quotation before text rest' = (.fault f, rest) →
      c :: cs = before ++ tail → BeginsOpen quotation tail text rest' →
      ∃ front behind, c :: cs = front ++ (f.text ++ behind) ∧ f.start = start + byteLength front
        ∧ f.kind.IsFoundAt f.text behind ∧ (f.kind.isFinal = false → behind = rest) := by
    intro quotation before text rest' tail hfault htail hopen
    cases hfault
    obtain ⟨quote, body, behind, rfl, rfl, hbehind⟩ := hopen.exists_behind
    refine ⟨before, behind, htail, rfl, ?_, ?_⟩
    . cases quotation with
      | string => exact .unterminatedString (hbehind rfl ▸ hopen)
      | template =>
        cases hopen with
        | template hscan => exact .unterminatedTemplate (.template hscan)
    . cases quotation with
      | string => exact fun _ => hbehind rfl
      | template =>
        intro hfinal
        cases hfinal
  cases hlong : beginsLongToken c cs with
  | true =>
    unfold beginsLongToken at hlong
    split at hlong
    . next cs =>
      simp only [readPiece] at h
      split at h
      . cases h
      . next hbody =>
        cases h
        refine ⟨[], _, rfl, rfl, .unterminatedComment (not_isInfix_of_blockCommentBody? hbody), ?_⟩
        intro hfinal
        cases hfinal
    . cases h
    . cases h
    . cases h
    . cases h
    . cases hlong
  | false =>
    rw [readPiece_of_run start hlong] at h
    split at h
    . next hquote =>
      split at h
      . cases h
      . next hscan =>
        obtain ⟨tail, htail, hopen⟩ :=
          exists_beginsOpen_of_quotedString (by simpa using hquote) hscan
        exact hunclosed h htail hopen
    split at h
    . next hquote =>
      rw [beq_iff_eq] at hquote
      subst hquote
      split at h
      . cases h
      . next hscan =>
        obtain ⟨tail, htail, hopen⟩ := exists_beginsOpen_of_quotedTemplate hscan
        exact hunclosed h htail hopen
    split at h
    . cases h
    split at h
    . cases h
    split at h
    . cases h
    . next hquote htemplate hdigit hstart _ htoken =>
      split at h
      . cases h
      . next hblank =>
        cases h
        refine ⟨[], cs, rfl, rfl, .unexpectedCharacter ?_, fun _ => rfl⟩
        intro text token htext
        exact not_spells_of_ofChar?_eq_none hlong hquote htemplate hdigit hstart htoken hblank htext

theorem FaultKind.IsFoundAt.ne_nil {kind : FaultKind} {text behind : List Char}
    (h : kind.IsFoundAt text behind) : text ≠ [] := by
  cases h <;> simp

theorem steps_pieces (source : List Char) : Steps 0 source (pieces source) := by
  suffices h : ∀ n start cs, cs.length = n → Steps start cs (pieces.go [] start cs) from
    h _ _ _ rfl
  intro n
  induction n using Nat.strongRecOn with
  | _ n ih =>
    intro start cs hlength
    cases cs with
    | nil =>
      unfold pieces.go
      exact .done
    | cons c cs =>
      rw [List.length_cons] at hlength
      rw [pieces.go_cons]
      generalize hread : readPiece start c cs = read
      obtain ⟨piece, rest⟩ := read
      have hle := readPiece_rest_length_le start c cs
      rw [hread] at hle
      dsimp only at hle ⊢
      split
      . next hfinal => exact .stop hread hfinal
      . next hfinal =>
        rw [Bool.not_eq_true] at hfinal
        have htail := ih rest.length (by omega) piece.stop rest rfl
        cases piece with
        | lexeme l =>
          obtain ⟨hstart, htext, hspells, _⟩ := spells_of_readPiece hread
          refine .step hread hfinal htext hspells.ne_nil ?_ htail
          rw [Piece.stop, Lexeme.stop, hstart]
        | fault f =>
          obtain ⟨front, behind, htext, hstart, hfound, hbehind⟩ := isFoundAt_of_readPiece hread
          rw [hbehind hfinal, ← List.append_assoc] at htext
          refine .step hread hfinal htext ?_ ?_ htail
          . simp [hfound.ne_nil]
          . rw [Piece.stop, Fault.stop, hstart, byteLength_append, Nat.add_assoc]

/--
Whether the text of a fault stands in `source`, and is at fault there.
-/
def Fault.StandsIn (source : List Char) (f : Fault) : Prop :=
  ∃ front behind, source = front ++ (f.text ++ behind) ∧ f.start = byteLength front
    ∧ f.kind.IsFoundAt f.text behind

/--
What is reported in the steps of the lexer stands in the text, which goes on with `cs` behind
`front`. It is in order, and nothing is reported behind a comment or a template that has no end.
-/
theorem Steps.faults (front : List Char) {cs : List Char} {ps : List Piece}
    (h : Steps (byteLength front) cs ps) :
    (∀ f ∈ ps.filterMap Piece.fault?, byteLength front ≤ f.start ∧ f.StandsIn (front ++ cs))
      ∧ (ps.filterMap Piece.fault?).Pairwise (fun a b => a.stop ≤ b.start)
      ∧ ∀ f ∈ (ps.filterMap Piece.fault?).dropLast, f.kind.isFinal = false := by
  have hhere : ∀ {front c cs f rest}, readPiece (byteLength front) c cs = (.fault f, rest) →
      byteLength front ≤ f.start ∧ f.StandsIn (front ++ c :: cs) := by
    intro front c cs f rest hread
    obtain ⟨before, behind, htext, hstart, hfound, _⟩ := isFoundAt_of_readPiece hread
    refine ⟨by omega, front ++ before, behind, ?_, ?_, hfound⟩
    . rw [htext, List.append_assoc]
    . rw [hstart, byteLength_append]
  generalize hstart : byteLength front = start at h
  induction h generalizing front with
  | done => simp
  | @stop start c cs rest piece hread hfinal =>
    subst hstart
    cases piece with
    | lexeme => cases hfinal
    | fault f => simpa [Piece.fault?] using hhere hread
  | @step start c cs text rest piece ps hread hfinal htext hne hstop htail ih =>
    subst hstart
    have hfront : byteLength (front ++ text) = piece.stop := by rw [hstop, byteLength_append]
    obtain ⟨hall, hpairwise, hlast⟩ := ih (front ++ text) hfront
    have hbehind : ∀ f ∈ ps.filterMap Piece.fault?,
        byteLength front ≤ f.start ∧ f.StandsIn (front ++ c :: cs) := by
      intro f hf
      obtain ⟨hle, hstands⟩ := hall f hf
      rw [List.append_assoc, ← htext] at hstands
      exact ⟨by omega, hstands⟩
    cases piece with
    | lexeme => exact ⟨hbehind, hpairwise, hlast⟩
    | fault f =>
      refine ⟨?_, ?_, ?_⟩
      . exact List.forall_mem_cons.mpr ⟨hhere hread, hbehind⟩
      . exact .cons (fun x hx => (hall x hx).1) hpairwise
      . intro x hx
        have hfaults : (Piece.fault f :: ps).filterMap Piece.fault?
            = f :: ps.filterMap Piece.fault? := rfl
        rw [hfaults] at hx
        cases hmore : ps.filterMap Piece.fault? with
        | nil => simp [hmore] at hx
        | cons next faults =>
          rw [hmore] at hx hlast
          rw [List.dropLast_cons_cons] at hx
          rcases List.mem_cons.mp hx with rfl | hx
          . exact hfinal
          . exact hlast x hx

structure Diagnostic.IsLexicalError (source : List Char) (d : Diagnostic) : Prop where
  severity : d.severity = .error
  code_mem : d.code ∈ [some .unterminatedString, some .unexpectedCharacter,
    some .unterminatedComment, some .unterminatedTemplate]
  exists_label : ∃ label front text behind, d.labels = [label] ∧ label.isPrimary = true
    ∧ source = front ++ (text ++ behind)
    ∧ label.span = ⟨byteLength front, byteLength (front ++ text)⟩
    ∧ ∃ kind : FaultKind, d.code = some kind.code ∧ kind.IsFoundAt text behind

theorem Fault.StandsIn.start_lt_stop {source : List Char} {f : Fault} (h : f.StandsIn source) :
    f.start < f.stop := by
  obtain ⟨_, _, _, _, hfound⟩ := h
  obtain ⟨c, cs, htext⟩ := List.exists_cons_of_ne_nil hfound.ne_nil
  have := c.utf8Size_pos
  rw [Fault.stop, htext, byteLength_cons]
  omega

theorem Fault.StandsIn.isLexicalError {source : List Char} {f : Fault} (h : f.StandsIn source) :
    f.diagnostic.IsLexicalError source := by
  obtain ⟨front, behind, hsource, hstart, hfound⟩ := h
  constructor
  . rfl
  . unfold Fault.diagnostic FaultKind.code
    split <;> simp
  . refine ⟨_, front, f.text, behind, rfl, rfl, hsource, ?_, f.kind, rfl, hfound⟩
    rw [Fault.span, Fault.stop, hstart, byteLength_append]

theorem diagnostics_of_tokenize {source : List Char} {e : ParseError}
    (h : tokenize source = .error e) :
    e.diagnostics = ((pieces source).filterMap Piece.fault?).map Fault.diagnostic
      ∧ e.diagnostics ≠ [] := by
  unfold tokenize at h
  dsimp only at h
  split at h
  . cases h
  . next hne =>
    cases h
    exact ⟨rfl, by simpa using hne⟩

theorem isLexicalError_of_tokenize {source : List Char} {e : ParseError}
    (h : tokenize source = .error e) : ∀ d ∈ e.diagnostics, d.IsLexicalError source := by
  obtain ⟨hall, _⟩ := Steps.faults [] (steps_pieces source)
  rw [(diagnostics_of_tokenize h).1]
  intro d hd
  obtain ⟨f, hf, rfl⟩ := List.mem_map.mp hd
  exact (hall f hf).2.isLexicalError

/--
The lexer gets to an end in every text that it does not accept. What it reports is apart from each
other and in the order of the text. Only the last error may be a comment or template without an end.
-/
theorem tokenize_eq_error {source : List Char} {e : ParseError} (h : tokenize source = .error e) :
    (∃ ps, Steps 0 source ps ∧ ps.length ≤ source.length
        ∧ e.diagnostics = (ps.filterMap Piece.fault?).map Fault.diagnostic)
      ∧ e.diagnostics ≠ []
      ∧ (∀ d ∈ e.diagnostics, d.IsLexicalError source)
      ∧ e.diagnostics.Pairwise (fun a b => ∀ l ∈ a.labels, ∀ r ∈ b.labels,
        l.span.start < r.span.start ∧ l.span.stop ≤ r.span.start)
      ∧ ∀ d ∈ e.diagnostics.dropLast,
        d.code ≠ some .unterminatedComment ∧ d.code ≠ some .unterminatedTemplate := by
  have hsteps := steps_pieces source
  obtain ⟨hall, hpairwise, hlast⟩ := Steps.faults [] hsteps
  obtain ⟨hdiagnostics, hne⟩ := diagnostics_of_tokenize h
  refine ⟨⟨_, hsteps, hsteps.length_le, hdiagnostics⟩, hne, isLexicalError_of_tokenize h, ?_, ?_⟩
  . rw [hdiagnostics, List.pairwise_map]
    apply hpairwise.imp_of_mem
    intro a b ha _ hab l hl r hr
    cases List.mem_singleton.mp hl
    cases List.mem_singleton.mp hr
    exact ⟨Nat.lt_of_lt_of_le (hall a ha).2.start_lt_stop hab, hab⟩
  . intro d hd
    rw [hdiagnostics, ← List.map_dropLast] at hd
    obtain ⟨f, hf, rfl⟩ := List.mem_map.mp hd
    have := hlast f hf
    cases hkind : f.kind <;> simp_all [Fault.diagnostic, FaultKind.code, FaultKind.isFinal]

/--
The string within the placeholder is reported instead of its template. The lexer goes on behind it.
-/
theorem tokenize_eq_error_placeholder :
    let source := "~ \x60$\x7b'a\n\x60 /* b".toList
    ∃ e, tokenize source = .error e
      ∧ e.diagnostics.map (fun d => (d.code, d.labels.map (·.span)))
        = [(some .unexpectedCharacter, [⟨0, 1⟩]), (some .unterminatedString, [⟨5, 7⟩]),
          (some .unterminatedTemplate, [⟨8, 14⟩])]
      ∧ (∃ ps, Steps 0 source ps ∧ ps.length ≤ source.length
        ∧ e.diagnostics = (ps.filterMap Piece.fault?).map Fault.diagnostic)
      ∧ e.diagnostics ≠ []
      ∧ (∀ d ∈ e.diagnostics, d.IsLexicalError source)
      ∧ e.diagnostics.Pairwise (fun a b => ∀ l ∈ a.labels, ∀ r ∈ b.labels,
        l.span.start < r.span.start ∧ l.span.stop ≤ r.span.start)
      ∧ ∀ d ∈ e.diagnostics.dropLast,
        d.code ≠ some .unterminatedComment ∧ d.code ≠ some .unterminatedTemplate := by
  intro source
  have he : (match tokenize source with
      | .ok _ => []
      | .error e => e.diagnostics.map fun d => (d.code, d.labels.map (·.span)))
      = [(some .unexpectedCharacter, [⟨0, 1⟩]), (some .unterminatedString, [⟨5, 7⟩]),
        (some .unterminatedTemplate, [⟨8, 14⟩])] := by decide +kernel
  split at he
  . cases he
  . next e htokenize => exact ⟨e, htokenize, he, tokenize_eq_error htokenize⟩

end Delegation
