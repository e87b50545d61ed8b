import Delegation.Proofs.Mirror
import Delegation.Proofs.Resplicing
import Delegation.Proofs.Revision

/-!
This module contains the revision of two files that are joined. If the first one ends with a
semicolon and a line break, each of them is revised as if it stood alone.
-/

namespace Delegation

open Item Lexeme

def EndsLine (cs : List Char) : Prop :=
  cs.getLast? = some '\n'

instance (cs : List Char) : Decidable (EndsLine cs) :=
  inferInstanceAs (Decidable (_ = _))

theorem EndsLine.of_append {cs ds : List Char} (h : EndsLine (cs ++ ds)) (hne : ds ≠ []) :
    EndsLine ds := by
  unfold EndsLine at h ⊢
  rw [List.getLast?_append, List.getLast?_eq_some_getLast hne] at h
  rw [List.getLast?_eq_some_getLast hne]
  exact h

theorem Spells.endsBefore_append {text rest : List Char} {token : Token} (h : Spells text token)
    (hline : EndsLine (text ++ rest)) (tail : List Char) :
    token.endsBefore (rest ++ tail) = token.endsBefore rest := by
  cases rest with
  | nil =>
    rw [List.append_nil] at hline
    rw [h.eq_newline_of_getLast? hline]
    rfl
  | cons c cs =>
    have hc : c ≠ '.' ∨ cs ≠ [] := by
      by_contra hdot
      rw [not_or, not_not, not_not] at hdot
      obtain ⟨rfl, rfl⟩ := hdot
      have := hline.of_append (by simp)
      cases this
    have := token.endsBefore_append hc tail []
    rw [List.append_nil] at this
    exact this

theorem Lexes.append {start : Nat} {cs ds : List Char} {ls ms : List Lexeme} (h : Lexes start cs ls)
    (hline : EndsLine cs ∨ cs = []) (hds : Lexes (start + byteLength cs) ds ms) :
    Lexes start (cs ++ ds) (ls ++ ms) := by
  induction h with
  | nil => exact hds
  | @cons start text rest token ls hspells hends htail ih =>
    have hline : EndsLine (text ++ rest) := by
      rcases hline with hline | hnil
      . exact hline
      . exact absurd (List.append_eq_nil_iff.mp hnil).1 hspells.ne_nil
    have hrest : EndsLine rest ∨ rest = [] := by
      by_cases hnil : rest = []
      . exact .inr hnil
      . exact .inl (hline.of_append hnil)
    rw [List.append_assoc]
    apply Lexes.cons hspells
    . rw [hspells.endsBefore_append hline]
      exact hends
    . apply ih hrest
      rw [byteLength_append, ← Nat.add_assoc] at hds
      exact hds

theorem Lexes.of_append {start : Nat} {cs ds : List Char} {ls ns : List Lexeme}
    (h : Lexes start cs ls) (hline : EndsLine cs ∨ cs = []) (hall : Lexes start (cs ++ ds) ns) :
    ∃ ms, ns = ls ++ ms ∧ Lexes (start + byteLength cs) ds ms := by
  induction h generalizing ns with
  | nil => exact ⟨ns, rfl, hall⟩
  | @cons start text rest token ls hspells hends htail ih =>
    have hline : EndsLine (text ++ rest) := by
      rcases hline with hline | hnil
      . exact hline
      . exact absurd (List.append_eq_nil_iff.mp hnil).1 hspells.ne_nil
    have hrest : EndsLine rest ∨ rest = [] := by
      by_cases hnil : rest = []
      . exact .inr hnil
      . exact .inl (hline.of_append hnil)
    rw [List.append_assoc] at hall
    rw [← hspells.endsBefore_append hline ds] at hends
    obtain ⟨more, rfl, hmore⟩ := Lexes.exists_cons hspells hends hall
    obtain ⟨ms, rfl, hms⟩ := ih hrest hmore
    refine ⟨ms, rfl, ?_⟩
    rw [byteLength_append, ← Nat.add_assoc]
    exact hms

/--
Whether `l` in a text that begins at `start` is `l'` in the same text at `start'`.
-/
structure Lexeme.IsShift (start start' : Nat) (l l' : Lexeme) : Prop where
  token_eq : l'.token = l.token
  text_eq : l'.text = l.text
  start_eq : start + l'.start = start' + l.start

theorem Lexeme.IsShift.symm {start start' : Nat} {l l' : Lexeme} (h : l.IsShift start start' l') :
    l'.IsShift start' start l :=
  ⟨h.token_eq.symm, h.text_eq.symm, h.start_eq.symm⟩

theorem Lexes.exists_shift {start : Nat} {cs : List Char} {ls : List Lexeme} (h : Lexes start cs ls)
    (start' : Nat) :
    ∃ ls', Lexes start' cs ls' ∧ List.Forall₂ (IsShift start start') ls ls' := by
  induction h generalizing start' with
  | nil => exact ⟨[], .nil, .nil⟩
  | @cons start text rest token ls hspells hends htail ih =>
    obtain ⟨ls', hls', hall⟩ := ih (start' + byteLength text)
    refine ⟨⟨start', token, text⟩ :: ls', .cons hspells hends hls', .cons ⟨rfl, rfl, ?_⟩ ?_⟩
    . exact Nat.add_comm ..
    . apply hall.imp
      intro l l' hl
      refine ⟨hl.token_eq, hl.text_eq, ?_⟩
      have := hl.start_eq
      omega

theorem mirrors_of_isShift {offset : Nat} {ls others : List Lexeme}
    (h : List.Forall₂ (IsShift 0 offset) ls others) : Mirrors (offset + ·) ls others := by
  induction h with
  | nil => exact .nil
  | cons hl _ ih =>
    refine .cons hl.token_eq ?_ ih
    have hstart := hl.start_eq
    simp only [Lexeme.span, Lexeme.stop, Span.relocate, Span.mk.injEq, hl.text_eq]
    omega

/-!
The items and the statements of the first file.
-/

def lastToken? (ls : List Lexeme) : Option Token :=
  ((ls.map Lexeme.token).filter (!·.isTrivia)).getLast?

theorem twins_append {items : List Item} (tail : List Item)
    (hlast : (items.map Item.token).getLast? = some (.sign .semicolon)) :
    (Correspondence.moving id tail).Twins items (items ++ tail) := by
  have hself (item : Item) : (Correspondence.moving id tail).IsTwin item item :=
    ⟨⟨.inl rfl, rfl⟩, rfl, rfl⟩
  induction items with
  | nil => cases hlast
  | cons item items ih =>
    cases items with
    | nil =>
      rw [List.map_singleton, List.getLast?_singleton, Option.some.injEq] at hlast
      exact .last (hself item) hlast
    | cons next items => exact .cons (hself item) (ih hlast)

/-!
The edits of both files.
-/

theorem Edit.Nests.relocate {f : Nat → Nat} (hf : ∀ {a b : Nat}, a < b → f a < f b) {a b : Edit}
    (h : a.Nests b) : (a.relocate f).Nests (b.relocate f) := by
  unfold Edit.Nests at h ⊢
  simp only [Edit.span_relocate, Span.relocate, le_iff_of_relocate hf, lt_iff_of_relocate hf]
  exact h

theorem settleAfter_append {last next : Edit} {es more : List Edit} {s s' : Settlement}
    (hspans : ∀ e ∈ last :: (es ++ [next]), e.span.start < e.span.stop)
    (hnext : ∀ e ∈ last :: es, e.span.stop ≤ next.span.start) (hs : settleAfter last es = .ok s)
    (hs' : settleAfter next more = .ok s') :
    settleAfter last (es ++ next :: more)
      = .ok ⟨s.kept ++ s'.kept, s.subsumed ++ s'.subsumed⟩ := by
  induction es generalizing last s with
  | nil =>
    cases hs
    exact settleAfter_next (hnext last (.head _)) (hspans last (.head _)) (hspans next (by simp))
      hs'
  | cons e es ih =>
    have hspans₁ : ∀ x ∈ last :: (es ++ [next]), x.span.start < x.span.stop := by
      intro x hx
      apply hspans
      grind
    have hspans₂ : ∀ x ∈ e :: (es ++ [next]), x.span.start < x.span.stop :=
      fun x hx => hspans x (.tail _ hx)
    have hnext₁ : ∀ x ∈ last :: es, x.span.stop ≤ next.span.start := by
      intro x hx
      apply hnext
      grind
    have hnext₂ : ∀ x ∈ e :: es, x.span.stop ≤ next.span.start := fun x hx => hnext x (.tail _ hx)
    rw [settleAfter] at hs
    rw [List.cons_append, settleAfter]
    split at hs
    . next hspan =>
      rw [if_pos hspan]
      split at hs
      . next heq =>
        rw [if_pos heq]
        exact ih hspans₁ hnext₁ hs
      . cases hs
    . next hspan =>
      rw [if_neg hspan]
      split at hs
      . next hcontains =>
        obtain ⟨s₁, hs₁, hs⟩ := bind_eq_ok hs
        cases hs
        rw [if_pos hcontains, ih hspans₁ hnext₁ hs₁]
        rfl
      . next hcontains =>
        rw [if_neg hcontains]
        split at hs
        . cases hs
        . next hoverlaps =>
          obtain ⟨s₁, hs₁, hs⟩ := bind_eq_ok hs
          cases hs
          rw [if_neg hoverlaps, ih hspans₂ hnext₂ hs₁]
          rfl

theorem settle_append {es more : List Edit} {s s' : Settlement} (hes : es.Pairwise Edit.Nests)
    (hmore : more.Pairwise Edit.Nests) (hspans : ∀ e ∈ es ++ more, e.span.start < e.span.stop)
    (hbehind : ∀ e ∈ es, ∀ e' ∈ more, e.span.stop ≤ e'.span.start) (hs : settle es = .ok s)
    (hs' : settle more = .ok s') :
    settle (es ++ more) = .ok ⟨s.kept ++ s'.kept, s.subsumed ++ s'.subsumed⟩ := by
  have hsorted : ∀ {es : List Edit}, es.Pairwise Edit.Nests →
      (∀ e ∈ es, e.span.start < e.span.stop) → es.Pairwise (Edit.precedes · ·) := by
    intro es hes hspans
    apply hes.imp_of_mem
    intro a b ha _ hab
    exact Edit.precedes_of_nests hab (hspans a ha)
  have hsorted₁ := hsorted hes fun e he => hspans e (List.mem_append_left _ he)
  have hsorted₂ := hsorted hmore fun e he => hspans e (List.mem_append_right _ he)
  have hsorted₃ : (es ++ more).Pairwise (Edit.precedes · ·) := by
    refine hsorted (List.pairwise_append.mpr ⟨hes, hmore, ?_⟩) hspans
    exact fun e he e' he' => .inl (hbehind e he e' he')
  have hnil : settle [] = .ok ⟨[], []⟩ := by
    unfold settle
    rw [List.mergeSort_nil]
  cases es with
  | nil =>
    rw [hnil] at hs
    cases hs
    exact hs'
  | cons last es =>
    rw [Stretch.settle_eq_settleAfter hsorted₁] at hs
    rw [List.cons_append] at hsorted₃ ⊢
    rw [Stretch.settle_eq_settleAfter hsorted₃]
    cases more with
    | nil =>
      rw [hnil] at hs'
      cases hs'
      rw [List.append_nil, List.append_nil, List.append_nil]
      exact hs
    | cons next more =>
      rw [Stretch.settle_eq_settleAfter hsorted₂] at hs'
      apply settleAfter_append _ _ hs hs'
      . intro e he
        apply hspans
        grind
      . exact fun e he => hbehind e he next (.head _)

namespace Passage

theorem getLast?_lexemesOf {start : Nat} {ps : List Passage} (h : AllFit start ps) :
    ∀ l ∈ (lexemesOf ps).getLast?, l.token.isTrivia = false := by
  induction ps generalizing start with
  | nil => simp [lexemesOf]
  | cons p ps ih =>
    intro l hl
    rw [lexemesOf, List.flatMap_cons, List.getLast?_append] at hl
    change l ∈ (lexemesOf ps).getLast?.or _ at hl
    cases hps : (lexemesOf ps).getLast? with
    | some l' =>
      rw [hps] at hl
      cases hl
      exact ih h.2 _ hps
    | none =>
      rw [hps, Option.none_or, lexemes, List.getLast?_append] at hl
      obtain ⟨first, more, hcut, _⟩ := h.1.cut_eq
      apply h.1.getLast?_cut
      rw [hcut] at hl ⊢
      rw [List.getLast?_eq_some_getLast (List.cons_ne_nil _ _)] at hl ⊢
      exact hl

theorem stop_le {start : Nat} {ps : List Passage} (h : AllFit start ps) {e : Edit}
    (he : e ∈ editsOf ps) : e.span.stop ≤ start + byteLength (textOf (lexemesOf ps)) := by
  induction ps generalizing start with
  | nil => cases he
  | cons p ps ih =>
    have htext : byteLength (textOf (lexemesOf (p :: ps)))
        = byteLength (textOf p.lexemes) + byteLength (textOf (lexemesOf ps)) := by
      rw [lexemesOf, List.flatMap_cons, textOf_append, byteLength_append]
      rfl
    have hspan : p.edit.span.stop = start + byteLength (textOf p.lexemes) := by
      rw [h.1.span_eq, lexemes, textOf_append, byteLength_append, Nat.add_assoc]
    rw [htext]
    rw [editsOf, List.flatMap_cons] at he
    rcases List.mem_append.mp he with he | he
    . have : e.span.stop ≤ p.edit.span.stop := by
        rcases List.mem_cons.mp he with rfl | he
        . exact Nat.le_refl _
        . exact (h.1.inner e he).2.2
      omega
    . have := ih h.2 he
      omega

end Passage

theorem stop_lt_of_parse (g : DelegateGraph) {source : List Char} {tree : DeclarationTree}
    (h : DeclarationTree.parse source = .ok tree) (hline : EndsLine source) {e : Edit}
    (he : e ∈ editsFor (tree.findings g)) : e.span.stop < byteLength source := by
  obtain ⟨ps, tail, _, hls, hfit, hall, _⟩ := exists_passages_of_parse g h
  rw [← hall] at he
  have hle := Passage.stop_le hfit he
  rw [Nat.zero_add] at hle
  have htext := hls.textOf_eq
  rw [textOf_append] at htext
  subst htext
  -- The last lexeme of the passages is no trivia, and so it is not the line break at the end.
  have htail : tail ≠ [] := by
    rintro rfl
    rcases List.eq_nil_or_concat (Passage.lexemesOf ps) with hnil | ⟨front, l, hlast⟩
    . rw [hnil] at hline
      cases hline
    . rw [List.concat_eq_append] at hlast
      have hl := Passage.getLast?_lexemesOf hfit l (by simp [hlast])
      rw [List.append_nil, hlast] at hls
      obtain ⟨_, hspells, _⟩ := hls.areLaid.split.cons
      rw [hlast] at hline
      simp only [textOf_append, textOf_cons, textOf_nil, List.append_nil] at hline
      rw [hspells.eq_newline_of_getLast? (hline.of_append hspells.ne_nil)] at hl
      cases hl
  obtain ⟨l, more, rfl⟩ := List.exists_cons_of_ne_nil htail
  obtain ⟨_, hspells, _⟩ := hls.areLaid.split.cons
  have hpos := hspells.byteLength_pos
  rw [byteLength_append, textOf_cons, byteLength_append]
  omega

/--
The tree of a file behind lines that end with a semicolon: the statements of both, those of the file
at the offsets behind the lines.
-/
theorem parse_append {front : List Char} {tree : DeclarationTree} {ls : List Lexeme}
    (htree : DeclarationTree.parse front = .ok tree) (hline : EndsLine front)
    (hls : tokenize front = .ok ls) (hlast : lastToken? ls = some (.sign .semicolon))
    (back : List Char) :
    ((∃ all, DeclarationTree.parse (front ++ back) = .ok all)
        ↔ ∃ tree', DeclarationTree.parse back = .ok tree')
      ∧ ∀ tree', DeclarationTree.parse back = .ok tree' →
        ∃ all, DeclarationTree.parse (front ++ back) = .ok all
          ∧ all.statements = Statement.relocateAll id tree.statements
            ++ Statement.relocateAll (byteLength front + ·) tree'.statements := by
  rw [tokenize_eq_ok] at hls
  have hss := (parse_eq_ok_iff hls).mp ⟨tree, htree, rfl⟩
  rw [lastToken?, ← map_token_itemsFrom .empty] at hlast
  -- What is parsed of both is what is parsed of the second one behind the first one.
  have hall : ∀ ms, ∃ gap, statementsOf? [] (itemsFrom .empty (ls ++ ms))
      = statementsOf? (Statement.relocateAll id tree.statements).reverse (itemsFrom gap ms) := by
    intro ms
    obtain ⟨ss, hss', hothers⟩ :=
      statementsOf?_moving (twins_append (itemsFrom (Gap.empty.after ls) ms) hlast).loosely hss
    rw [List.reverse_nil, List.nil_append] at hss'
    subst hss'
    refine ⟨Gap.empty.after ls, ?_⟩
    rw [itemsFrom_append, hothers, List.append_nil]
  have hback : ∀ tree', DeclarationTree.parse back = .ok tree' →
      ∃ all, DeclarationTree.parse (front ++ back) = .ok all
        ∧ all.statements = Statement.relocateAll id tree.statements
          ++ Statement.relocateAll (byteLength front + ·) tree'.statements := by
    intro tree' htree'
    obtain ⟨ls', hls', _⟩ := parse_eq_ok htree'
    have hss' := (parse_eq_ok_iff hls').mp ⟨tree', htree', rfl⟩
    obtain ⟨ms, hms, hshift⟩ := hls'.exists_shift (byteLength front)
    obtain ⟨gap, hgap⟩ := hall ms
    obtain ⟨ss, hss', hothers⟩ := (mirrors_of_isShift hshift).statementsOf?_eq .empty gap hss'
    rw [List.reverse_nil, List.nil_append] at hss'
    rw [parse_eq_ok_iff (hls.append (.inl hline) (by rwa [Nat.zero_add])), hgap, hothers, hss',
      List.reverse_reverse]
  refine ⟨⟨?_, ?_⟩, hback⟩
  . rintro ⟨all, htree'⟩
    obtain ⟨ns, hns, _⟩ := parse_eq_ok htree'
    have hss' := (parse_eq_ok_iff hns).mp ⟨all, htree', rfl⟩
    obtain ⟨ms, rfl, hms⟩ := hls.of_append (.inl hline) hns
    obtain ⟨gap, hgap⟩ := hall ms
    rw [hgap] at hss'
    rw [Nat.zero_add] at hms
    -- The second file is found by moving its lexemes back to the start of a text.
    obtain ⟨ls', hls', hshift⟩ := hms.exists_shift 0
    have hshift' : List.Forall₂ (IsShift 0 (byteLength front)) ls' ms :=
      hshift.flip.imp fun _ _ => IsShift.symm
    have hinverse : Function.LeftInverse (fun p => p - byteLength front) (byteLength front + ·) :=
      fun p => Nat.add_sub_cancel_left ..
    obtain ⟨ss, _, hothers⟩ :=
      ((mirrors_of_isShift hshift').symm hinverse).statementsOf?_eq gap .empty hss'
    obtain ⟨tree', htree', _⟩ := (parse_eq_ok_iff hls').mpr (hothers [])
    exact ⟨tree', htree'⟩
  . rintro ⟨tree', htree'⟩
    obtain ⟨all, hall, _⟩ := hback tree' htree'
    exact ⟨all, hall⟩

def Summary.add (a b : Summary) : Summary where
  payloads := a.payloads + b.payloads
  inputAliases := a.inputAliases + b.inputAliases
  auxMembers := a.auxMembers + b.auxMembers
  nestedWrites := a.nestedWrites + b.nestedWrites
  creatingMethods := a.creatingMethods + b.creatingMethods

theorem Summary.ofFindings_append (findings more : List Finding) :
    ofFindings (findings ++ more) = (ofFindings findings).add (ofFindings more) := by
  simp only [ofFindings, add, List.countP_append]

theorem Edit.relocate_id (e : Edit) : e.relocate id = e := by
  cases e <;> rfl

section

variable (g : DelegateGraph) {front back : List Char} {tree tree' : DeclarationTree}
variable {settled settled' : Settlement}

theorem exists_settle_append (htree : DeclarationTree.parse front = .ok tree)
    (htree' : DeclarationTree.parse back = .ok tree') (hline : EndsLine front)
    (hsettled : settle (editsFor (tree.findings g)) = .ok settled)
    (hsettled' : settle (editsFor (tree'.findings g)) = .ok settled') :
    ∃ settled'', settle (editsFor (tree.findings g)
          ++ (editsFor (tree'.findings g)).map (Edit.relocate (byteLength front + ·)))
        = .ok settled''
      ∧ settled''.kept
        = settled.kept ++ settled'.kept.map (Edit.relocate (byteLength front + ·)) := by
  have hf : ∀ {a b : Nat}, a < b → byteLength front + a < byteLength front + b :=
    fun h => Nat.add_lt_add_left h _
  obtain ⟨_, _, _, _, _, _, hnests, hspans, _⟩ := exists_passages_of_parse g htree
  obtain ⟨_, _, _, _, _, _, hnests', hspans', _⟩ := exists_passages_of_parse g htree'
  have hbefore : ∀ e ∈ editsFor (tree.findings g),
      ∀ e' ∈ (editsFor (tree'.findings g)).map (Edit.relocate (byteLength front + ·)),
        e.span.stop ≤ e'.span.start := by
    intro e he e' he'
    obtain ⟨e', _, rfl⟩ := List.mem_map.mp he'
    rw [Edit.span_relocate]
    exact Nat.le_trans (Nat.le_of_lt (stop_lt_of_parse g htree hline he)) (Nat.le_add_right _ _)
  have hnonempty : ∀ e ∈ editsFor (tree.findings g)
        ++ (editsFor (tree'.findings g)).map (Edit.relocate (byteLength front + ·)),
      e.span.start < e.span.stop := by
    intro e he
    rcases List.mem_append.mp he with he | he
    . exact hspans e he
    . obtain ⟨e', he', rfl⟩ := List.mem_map.mp he
      rw [Edit.span_relocate]
      exact hf (hspans' e' he')
  exact ⟨_, settle_append hnests (hnests'.map _ fun _ _ h => h.relocate hf) hnonempty hbefore
    hsettled (settle_relocate hf hsettled'), rfl⟩

theorem stop_lt_of_mem_kept (htree : DeclarationTree.parse front = .ok tree)
    (hline : EndsLine front) (hsettled : settle (editsFor (tree.findings g)) = .ok settled) :
    ∀ e ∈ settled.kept, e.span.stop < byteLength front := by
  intro e he
  exact stop_lt_of_parse g htree hline (mem_of_mem_kept htree hsettled e he)

end

theorem Cursor.EndsLine.mirrors_extend {c : Cursor} (hc : c.EndsLine) (back : List Char) :
    (Cursor.ofText back).Mirrors (c.stop + ·) [] c.rest (c.extend back) := by
  refine ⟨?_, ?_, ?_, ?_⟩
  . rw [endLines_nil_left]
    rfl
  . intro passed rest _
    simp only [endLines_nil_left, byteLength_append, Cursor.extend, Cursor.ofText, Cursor.stop]
    omega
  . unfold Cursor.EndsLine at hc
    cases hlast : c.rest.getLast? with
    | none => rfl
    | some d =>
      rw [hlast] at hc
      cases hc
      rfl
  . rw [Cursor.extend, hc]
    rfl

theorem exists_splice_append (g : DelegateGraph) {front back : List Char}
    {tree tree' : DeclarationTree} (htree : DeclarationTree.parse front = .ok tree)
    (htree' : DeclarationTree.parse back = .ok tree') (hline : EndsLine front)
    {settled settled' : Settlement} {s s' : Splice}
    (hsettled : settle (editsFor (tree.findings g)) = .ok settled)
    (hsettled' : settle (editsFor (tree'.findings g)) = .ok settled')
    (hs : spliceFrom (.ofText front) settled.kept = .ok s)
    (hs' : spliceFrom (.ofText back) settled'.kept = .ok s') :
    ∃ settled'' s'', settle (editsFor (tree.findings g)
          ++ (editsFor (tree'.findings g)).map (Edit.relocate (byteLength front + ·)))
        = .ok settled''
      ∧ spliceFrom (.ofText (front ++ back)) settled''.kept = .ok s''
      ∧ s''.text = s.text ++ s'.text := by
  obtain ⟨settled'', hsettled'', hkept⟩ :=
    exists_settle_append g htree htree' hline hsettled hsettled'
  have hstop : (Cursor.ofText front).stop = byteLength front := Nat.zero_add _
  have hline' : (Cursor.ofText front).EndsLine := by
    rw [Cursor.EndsLine, Cursor.ofText, Option.or_none]
    exact hline
  have hwithin := stop_lt_of_mem_kept g htree hline hsettled
  rw [← hstop] at hwithin
  -- Behind the edits of the lines, the splice stands somewhere in them, at the place `c`.
  obtain ⟨kept, taken, c, htext, hc, hoffset, hmore⟩ := spliceFrom_extend hline' hwithin hs back
  obtain ⟨s'', hs'', htext'⟩ := spliceFrom_mirrors (by simp)
    (fun e _ => endLines_nil_left e.text) (hc.mirrors_extend back) hs'
  rw [hoffset, hstop] at hs''
  refine ⟨settled'', Splice.behind kept taken s'', hsettled'', ?_, ?_⟩
  . rw [hkept]
    exact (hmore _).trans (congrArg _ hs'')
  . rw [Splice.behind, htext', endLines_nil_left, htext, List.append_assoc]

/--
A file is revised statement by statement: behind lines that end with a semicolon it is revised as if
it stood alone.
-/
theorem revise_append {m : Model} {front : List Char} {r : Revision} {ls : List Lexeme}
    (hr : revise m front = .ok r) (hline : EndsLine front) (hls : tokenize front = .ok ls)
    (hlast : lastToken? ls = some (.sign .semicolon)) (back : List Char) :
    ((∃ all, revise m (front ++ back) = .ok all) ↔ ∃ r', revise m back = .ok r')
      ∧ ∀ r', revise m back = .ok r' →
        revise m (front ++ back) = .ok ⟨r.text ++ r'.text, r.summary.add r'.summary⟩ := by
  obtain ⟨tree, htree⟩ := (revise_isOk_iff m front).1.mp ⟨r, hr⟩
  obtain ⟨hok, hall⟩ := parse_append htree hline hls hlast back
  refine ⟨?_, ?_⟩
  . rw [(revise_isOk_iff m (front ++ back)).1, (revise_isOk_iff m back).1]
    exact hok
  . intro r' hr'
    obtain ⟨tree', htree'⟩ := (revise_isOk_iff m back).1.mp ⟨r', hr'⟩
    obtain ⟨all, htree'', hstatements⟩ := hall tree' htree'
    obtain ⟨settled, s, _, _, hsettled, hs, _⟩ := exists_splice_of_parse (.ofModel m) htree
    obtain ⟨settled', s', _, _, hsettled', hs', _⟩ := exists_splice_of_parse (.ofModel m) htree'
    rw [revise_of_parse htree hsettled hs] at hr
    rw [revise_of_parse htree' hsettled' hs'] at hr'
    cases hr
    cases hr'
    obtain ⟨settled'', s'', hsettled'', hs'', htext⟩ :=
      exists_splice_append _ htree htree' hline hsettled hsettled' hs hs'
    have hfindings : all.findings (.ofModel m)
        = (tree.findings (.ofModel m)).map (Finding.relocate id)
          ++ (tree'.findings (.ofModel m)).map (Finding.relocate (byteLength front + ·)) := by
      rw [DeclarationTree.findings, hstatements, statementsFindings_append,
        statementsFindings_relocate, statementsFindings_relocate]
      rfl
    have hedits : editsFor (all.findings (.ofModel m)) = editsFor (tree.findings (.ofModel m))
        ++ (editsFor (tree'.findings (.ofModel m))).map (Edit.relocate (byteLength front + ·)) := by
      rw [hfindings, editsFor_append, editsFor_relocate, editsFor_relocate,
        List.map_congr_left fun e _ => Edit.relocate_id e, List.map_id']
    rw [revise_of_parse htree'' (hedits ▸ hsettled'') hs'', htext, hfindings,
      Summary.ofFindings_append, Summary.ofFindings_relocate, Summary.ofFindings_relocate]

theorem revise_append_interface :
    let front := "interface A \x7b\n  poly_aux_b: C\n\x7d;\n".toList
    let back := "  interface D \x7b poly_aux_e: F; g: H \x7d".toList
    let r : Revision := ⟨"interface A \x7b\n\x7d;\n".toList, ⟨0, 0, 1, 0, 0⟩⟩
    let r' : Revision := ⟨"  interface D \x7b g: H \x7d".toList, ⟨0, 0, 1, 0, 0⟩⟩
    revise .empty front = .ok r ∧ revise .empty back = .ok r'
      ∧ revise .empty (front ++ back) = .ok ⟨r.text ++ r'.text, ⟨0, 0, 2, 0, 0⟩⟩ := by
  intro front back r r'
  have hr : revise .empty front = .ok r := by decide +kernel
  have hr' : revise .empty back = .ok r' := by decide +kernel
  have hls : tokenize front = .ok ((tokenize front).toOption.getD []) := by decide +kernel
  exact ⟨hr, hr', (revise_append hr (by decide +kernel) hls (by decide +kernel) back).2 r' hr'⟩

end Delegation
