import Delegation.Proofs.Settling
import Delegation.Proofs.Survival

/-!
This module contains what a revision does to a declaration file that can be parsed: its edits can
always be made, and they leave all other tokens as they are.
-/

namespace Delegation

open Item Lexeme Stretch

theorem parse_eq_ok {source : List Char} {tree : DeclarationTree}
    (h : DeclarationTree.parse source = .ok tree) :
    ∃ ls, Lexes 0 source ls ∧ StatementsOf (itemsFrom .empty ls) tree.statements := by
  obtain ⟨ls, hls, h⟩ := bind_eq_ok h
  refine ⟨ls, tokenize_eq_ok.mp hls, ?_⟩
  split at h
  . next tree' htree =>
    cases h
    exact (DeclarationTree.ofLexemes_eq_ok htree).1
  . cases h

theorem exists_passages_of_parse (g : DelegateGraph) {source : List Char} {tree : DeclarationTree}
    (h : DeclarationTree.parse source = .ok tree) :
    ∃ ps tail subsumed, Lexes 0 source (Passage.lexemesOf ps ++ tail) ∧ Passage.AllFit 0 ps
      ∧ Passage.editsOf ps = editsFor (tree.findings g)
      ∧ (editsFor (tree.findings g)).Pairwise Edit.Nests
      ∧ (∀ e ∈ editsFor (tree.findings g), e.span.start < e.span.stop)
      ∧ settle (editsFor (tree.findings g)) = .ok ⟨ps.map Passage.edit, subsumed⟩ := by
  obtain ⟨ls, hls, hstatements⟩ := parse_eq_ok h
  have horder := hls.areLaid.inOrder
  obtain ⟨ss, hitems, hedits, hfit⟩ := hstatements.exists_stretches g horder
    fun item hitem name => isName_of_mem_itemsFrom hls.areLaid hitem
  obtain ⟨ps, tail, hlexemes, hps, hkept, hall, _⟩ := @Passage.exists_passages [] ls [] none 0 ss
    hls.areLaid hitems (hfit none) (by simp) (by simp) rfl
  rw [← hitems] at horder
  obtain ⟨subsumed, hsettle⟩ := settle_editsOf (hfit none) horder
  rw [List.nil_append] at hlexemes
  rw [hedits] at hall hsettle
  have hpairwise := pairwise_editsOf (hfit none) horder
  have hbounds := fun e => mem_editsOf_bounds (e := e) (hfit none) horder
  rw [hedits] at hpairwise hbounds
  rw [← hkept] at hsettle
  rw [hlexemes] at hls
  exact ⟨ps, tail, subsumed, hls, hps, hall, hpairwise, fun e he => (hbounds e he).2.1, hsettle⟩

theorem mem_of_mem_kept {g : DelegateGraph} {source : List Char} {tree : DeclarationTree}
    (h : DeclarationTree.parse source = .ok tree) {settled : Settlement}
    (hsettle : settle (editsFor (tree.findings g)) = .ok settled) :
    ∀ e ∈ settled.kept, e ∈ editsFor (tree.findings g) := by
  obtain ⟨ps, _, _, _, _, hall, _, _, hsettle'⟩ := exists_passages_of_parse g h
  obtain rfl := Except.ok.inj (hsettle'.symm.trans hsettle)
  intro e he
  obtain ⟨p, hp, rfl⟩ := List.mem_map.mp he
  rw [← hall]
  exact List.mem_flatMap.mpr ⟨p, hp, .head _⟩

theorem Cursor.isAt_ofText {source : List Char} {ls : List Lexeme} (h : Lexes 0 source ls) :
    (ofText source).IsAt 0 ls false [] [] := by
  constructor
  . exact h.textOf_eq
  . rfl
  . simp
  . exact .inl rfl
  . intro h
    cases h
  . exact fun _ => rfl

theorem exists_splice_of_parse (g : DelegateGraph) {source : List Char} {tree : DeclarationTree}
    (h : DeclarationTree.parse source = .ok tree) :
    ∃ settled s ls out, settle (editsFor (tree.findings g)) = .ok settled
      ∧ spliceFrom (.ofText source) settled.kept = .ok s
      ∧ Lexes 0 source ls ∧ Reads [] s.text out
      ∧ squeeze false out = squeeze false (survivors (editsFor (tree.findings g)) ls) := by
  obtain ⟨ps, tail, subsumed, hls, hps, hall, _, _, hsettle⟩ := exists_passages_of_parse g h
  have hlaid := hls.areLaid
  obtain ⟨s, hs, hresult⟩ := Passage.exists_resultsIn hps hlaid (Cursor.isAt_ofText hls)
  obtain ⟨out, hout, hsqueeze⟩ := hresult.exists_reads
  refine ⟨_, s, _, out, hsettle, hs, hls, hout, ?_⟩
  rw [hsqueeze, ← hall, Passage.survivors_editsOf hps hlaid]

theorem revise_of_parse {m : Model} {source : List Char} {tree : DeclarationTree}
    (h : DeclarationTree.parse source = .ok tree) {settled : Settlement} {s : Splice}
    (hsettle : settle (editsFor (tree.findings (.ofModel m))) = .ok settled)
    (hs : spliceFrom (.ofText source) settled.kept = .ok s) :
    revise m source = .ok ⟨s.text, .ofFindings (tree.findings (.ofModel m))⟩ := by
  have happly : applyEdits source ((tree.findings (.ofModel m)).filterMap Finding.edit?) = .ok s := by
    rw [applyEdits]
    exact (congrArg (· >>= _) hsettle).trans hs
  rw [revise, h]
  show (reviseTree _ source tree).mapError _ = _
  rw [reviseTree]
  simp only [happly]
  rfl

/--
Whether no two of `edits` have the same span, and none overlap unless one contains the other.
-/
def AreLaminar (edits : List Edit) : Prop :=
  edits.Pairwise fun a b => a.span ≠ b.span
    ∧ (a.span.overlaps b.span = true → a.span.contains b.span = true ∨ b.span.contains a.span = true)

theorem areLaminar_of_nests {edits : List Edit} (h : edits.Pairwise Edit.Nests)
    (hspans : ∀ e ∈ edits, e.span.start < e.span.stop) : AreLaminar edits := by
  apply h.imp_of_mem
  intro a b ha _ hab
  obtain ⟨hne, hcontains⟩ := hab.not_overlaps (hspans a ha)
  refine ⟨hne, ?_⟩
  intro hoverlaps
  rcases hcontains with hcontains | hnot
  . exact .inl hcontains
  . rw [hnot] at hoverlaps
    cases hoverlaps

/--
A revision fails only where its file cannot be parsed. Otherwise its edits do not conflict, and the
text is made of slices of the file, at ends of characters and in order, what removals take besides
their spans included.
-/
theorem revise_isOk_iff (m : Model) (source : List Char) :
    ((∃ r, revise m source = .ok r) ↔ ∃ tree, DeclarationTree.parse source = .ok tree)
      ∧ (∀ e, revise m source = .error e →
        ∃ e', e = .parse e' ∧ DeclarationTree.parse source = .error e')
      ∧ ∀ tree, DeclarationTree.parse source = .ok tree →
        let edits := (tree.findings (.ofModel m)).filterMap Finding.edit?
        AreLaminar edits ∧ ∃ settled s, settle edits = .ok settled
          ∧ spliceFrom (.ofText source) settled.kept = .ok s
          ∧ s.IsOf source 0 settled.kept
          ∧ revise m source = .ok ⟨s.text, .ofFindings (tree.findings (.ofModel m))⟩ := by
  have hok : ∀ tree, DeclarationTree.parse source = .ok tree →
      ∃ settled s, settle (editsFor (tree.findings (.ofModel m))) = .ok settled
        ∧ spliceFrom (.ofText source) settled.kept = .ok s
        ∧ revise m source = .ok ⟨s.text, .ofFindings (tree.findings (.ofModel m))⟩ := by
    intro tree htree
    obtain ⟨settled, s, _, _, hsettle, hs, _⟩ := exists_splice_of_parse (.ofModel m) htree
    exact ⟨settled, s, hsettle, hs, revise_of_parse htree hsettle hs⟩
  have herror : ∀ e, DeclarationTree.parse source = .error e → revise m source = .error (.parse e) := by
    intro e he
    rw [revise, he]
    rfl
  refine ⟨⟨?_, ?_⟩, ?_, ?_⟩
  . rintro ⟨r, hr⟩
    cases hparse : DeclarationTree.parse source with
    | ok tree => exact ⟨tree, rfl⟩
    | error e =>
      rw [herror e hparse] at hr
      cases hr
  . rintro ⟨tree, htree⟩
    obtain ⟨_, _, _, _, hrevise⟩ := hok tree htree
    exact ⟨_, hrevise⟩
  . intro e he
    cases hparse : DeclarationTree.parse source with
    | ok tree =>
      obtain ⟨_, _, _, _, hrevise⟩ := hok tree hparse
      rw [hrevise] at he
      cases he
    | error e' =>
      rw [herror e' hparse] at he
      cases he
      exact ⟨e', rfl, rfl⟩
  . intro tree htree
    obtain ⟨_, _, _, _, _, _, hpairwise, hspans, _⟩ := exists_passages_of_parse (.ofModel m) htree
    obtain ⟨settled, s, hsettle, hs, hrevise⟩ := hok tree htree
    refine ⟨areLaminar_of_nests hpairwise hspans, settled, s, hsettle, hs, ?_, hrevise⟩
    exact isOf_of_spliceFrom ⟨[], rfl, rfl⟩ hs

/--
The tokens of a revised file, comments included, are those of the file, without those inside the
spans of removals, and with the tokens of the new payloads in place of those of the old ones.
-/
theorem tokensOf_revise {m : Model} {source : List Char} {r : Revision}
    (h : revise m source = .ok r) :
    ∃ tree ls out, DeclarationTree.parse source = .ok tree ∧ tokenize source = .ok ls
      ∧ tokenize r.text = .ok out
      ∧ let edits := (tree.findings (.ofModel m)).filterMap Finding.edit?
        (∀ e ∈ edits, ∃ ls, tokenize e.text = .ok ls)
        ∧ (tokensOf out).filter (· != .newline) = (survivors edits ls).filter (· != .newline) := by
  have hparse : ∃ tree, DeclarationTree.parse source = .ok tree := by
    cases hparse : DeclarationTree.parse source with
    | ok tree => exact ⟨tree, rfl⟩
    | error e =>
      rw [revise, hparse] at h
      cases h
  obtain ⟨tree, hparse⟩ := hparse
  obtain ⟨settled, s, ls, ts, hsettle, hs, hls, hreads, hsqueeze⟩ :=
    exists_splice_of_parse (.ofModel m) hparse
  rw [revise_of_parse hparse hsettle hs] at h
  cases h
  obtain ⟨out, hout, htokens⟩ := lexes_of_reads hreads 0
  refine ⟨tree, ls, out, hparse, tokenize_eq_ok.mpr hls, tokenize_eq_ok.mpr hout, ?_, ?_⟩
  . obtain ⟨_, _, _, _, hps, hall, _⟩ := exists_passages_of_parse (.ofModel m) hparse
    have htexts := hps.exists_tokenize
    rw [hall] at htexts
    exact htexts
  . rw [htokens, ← filter_squeeze false, hsqueeze, filter_squeeze]
    rfl

theorem tokensOf_revise_interface :
    let source := "interface A \x7b\n  b: C // d\n  // e\n  poly_aux_f: G\n\x7d".toList
    let r : Revision := ⟨"interface A \x7b\n  b: C // d\n\x7d".toList, ⟨0, 0, 1, 0, 0⟩⟩
    revise .empty source = .ok r
      ∧ ∃ tree ls out, DeclarationTree.parse source = .ok tree ∧ tokenize source = .ok ls
        ∧ tokenize r.text = .ok out
        ∧ let edits := (tree.findings (.ofModel .empty)).filterMap Finding.edit?
          (∀ e ∈ edits, ∃ ls, tokenize e.text = .ok ls)
          ∧ (tokensOf out).filter (· != .newline) = (survivors edits ls).filter (· != .newline) :=
  ⟨by decide +kernel, tokensOf_revise (by decide +kernel)⟩

end Delegation
