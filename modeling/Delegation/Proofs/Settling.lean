import Delegation.Proofs.Stretch

/-!
This module contains which edits of a declaration file are settled: those of its stretches, without
the ones that others contain.
-/

namespace Delegation

open Item Stretch

namespace Edit

theorem precedes_of_nests {a b : Edit} (h : a.Nests b) (hstop : a.span.start < a.span.stop) :
    a.precedes b = true := by
  unfold precedes
  have : a.span.start < b.span.start := by
    rcases h with h | h
    . omega
    . exact h.1
  simp [this]

/--
Edits of which each is behind or inside those before it never overlap otherwise, and never have the
same span.
-/
theorem Nests.not_overlaps {a b : Edit} (h : a.Nests b) (hstop : a.span.start < a.span.stop) :
    a.span ≠ b.span ∧ (a.span.contains b.span = true ∨ a.span.overlaps b.span = false) := by
  refine ⟨?_, ?_⟩
  . intro heq
    rcases h with h | h
    . rw [heq] at h hstop
      omega
    . rw [heq] at h
      omega
  . rcases h with h | h
    . refine .inr ?_
      simp only [Span.overlaps, Bool.and_eq_false_iff, decide_eq_false_iff_not]
      omega
    . refine .inl ?_
      simp only [Span.contains, Bool.and_eq_true, decide_eq_true_eq]
      omega

end Edit

theorem settleAfter_inner {last : Edit} {inner es : List Edit}
    (h : ∀ e ∈ inner, last.span.start < e.span.start ∧ e.span.stop ≤ last.span.stop)
    {kept : List Edit} {subsumed : List Span} (hes : settleAfter last es = .ok ⟨kept, subsumed⟩) :
    ∃ more, settleAfter last (inner ++ es) = .ok ⟨kept, more ++ subsumed⟩ := by
  induction inner with
  | nil => exact ⟨[], hes⟩
  | cons e inner ih =>
    obtain ⟨more, hmore⟩ := ih fun x hx => h x (.tail _ hx)
    have he := h e (.head _)
    refine ⟨e.span :: more, ?_⟩
    rw [List.cons_append, settleAfter]
    have hne : last.span ≠ e.span := by
      intro heq
      rw [heq] at he
      omega
    have hcontains : last.span.contains e.span = true := by
      simp only [Span.contains, Bool.and_eq_true, decide_eq_true_eq]
      omega
    rw [if_neg hne, if_pos hcontains, hmore]
    rfl

theorem settleAfter_next {last e : Edit} {es : List Edit} (h : last.span.stop ≤ e.span.start)
    (hlast : last.span.start < last.span.stop) (he : e.span.start < e.span.stop)
    {kept : List Edit} {subsumed : List Span} (hes : settleAfter e es = .ok ⟨kept, subsumed⟩) :
    settleAfter last (e :: es) = .ok ⟨last :: kept, subsumed⟩ := by
  have hne : last.span ≠ e.span := by
    intro heq
    rw [heq] at h hlast
    omega
  have hcontains : ¬ last.span.contains e.span = true := by
    simp only [Span.contains, Bool.and_eq_true, decide_eq_true_eq]
    omega
  have hoverlaps : ¬ last.span.overlaps e.span = true := by
    simp only [Span.overlaps, Bool.and_eq_true, decide_eq_true_eq]
    omega
  rw [settleAfter, if_neg hne, if_neg hcontains, if_neg hoverlaps, hes]
  rfl

namespace Stretch

theorem edit?_bounds {s : Stretch} {last : Option Token} {start : Nat} {e : Edit}
    (hfit : s.Fits last) (horder : InOrder start s.items) (he : s.edit? = some e) :
    start ≤ e.span.start ∧ e.span.start < e.span.stop ∧ e.span.stop = stopAfter start s.items
      ∧ ∀ x ∈ s.inner, e.span.start < x.span.start ∧ x.span.stop ≤ e.span.stop := by
  have hmem : e ∈ s.edits := by
    rw [edits, he]
    exact .head _
  obtain ⟨hstart, hstop, _⟩ := mem_edits_bounds hfit horder hmem
  refine ⟨hstart, hstop, ?_⟩
  cases s with
  | kept item => cases he
  | removed first more =>
    cases he
    exact ⟨rfl, by simp [inner]⟩
  | replaced first more text inner =>
    cases he
    refine ⟨rfl, ?_⟩
    intro x hx
    have := hfit.2.2.2.2.2 x hx
    exact ⟨this.1, this.2.2⟩

theorem inner_eq_nil {s : Stretch} (h : s.edit? = none) : s.inner = [] := by
  cases s with
  | kept item => rfl
  | removed first more => cases h
  | replaced first more text inner => cases h

theorem settleAfter_editsOf {ss : List Stretch} {last : Option Token} {start : Nat} {e : Edit}
    (hfit : AllFit last ss) (horder : InOrder start (itemsOf ss))
    (he : e.span.start < e.span.stop ∧ e.span.stop ≤ start) :
    ∃ subsumed, settleAfter e (editsOf ss) = .ok ⟨e :: ss.filterMap edit?, subsumed⟩ := by
  induction ss generalizing last start e with
  | nil => exact ⟨[], rfl⟩
  | cons s ss ih =>
    rw [itemsOf_cons, inOrder_append] at horder
    have hle := horder.1.le_stopAfter
    rw [editsOf_cons, edits]
    cases hedit : s.edit? with
    | none =>
      rw [List.filterMap_cons_none hedit, inner_eq_nil hedit]
      exact ih hfit.2 horder.2 ⟨he.1, by omega⟩
    | some e' =>
      obtain ⟨hstart, hstop, hend, hinner⟩ := edit?_bounds hfit.1 horder.1 hedit
      obtain ⟨subsumed, hss⟩ := ih hfit.2 horder.2 ⟨hstop, Nat.le_of_eq hend⟩
      obtain ⟨more, hmore⟩ := settleAfter_inner hinner hss
      refine ⟨more ++ subsumed, ?_⟩
      rw [List.filterMap_cons_some hedit]
      exact settleAfter_next (by omega) he.1 hstop hmore

theorem settle_eq_settleAfter {e : Edit} {es : List Edit}
    (h : (e :: es).Pairwise (Edit.precedes · ·)) : settle (e :: es) = settleAfter e es := by
  unfold settle
  rw [List.mergeSort_of_pairwise h]

theorem settle_editsOf {ss : List Stretch} {last : Option Token} {start : Nat}
    (hfit : AllFit last ss) (horder : InOrder start (itemsOf ss)) :
    ∃ subsumed, settle (editsOf ss) = .ok ⟨ss.filterMap edit?, subsumed⟩ := by
  induction ss generalizing last start with
  | nil =>
    refine ⟨[], ?_⟩
    unfold settle
    rw [editsOf_nil, List.mergeSort_nil]
    rfl
  | cons s ss ih =>
    have hsorted : (editsOf (s :: ss)).Pairwise (Edit.precedes · ·) := by
      apply (pairwise_editsOf hfit horder).imp_of_mem
      intro a b ha _ h
      exact Edit.precedes_of_nests h (mem_editsOf_bounds hfit horder ha).2.1
    rw [itemsOf_cons, inOrder_append] at horder
    rw [editsOf_cons, edits] at hsorted ⊢
    cases hedit : s.edit? with
    | none =>
      rw [List.filterMap_cons_none hedit, inner_eq_nil hedit]
      exact ih hfit.2 horder.2
    | some e =>
      obtain ⟨hstart, hstop, hend, hinner⟩ := edit?_bounds hfit.1 horder.1 hedit
      obtain ⟨subsumed, hss⟩ := settleAfter_editsOf hfit.2 horder.2 ⟨hstop, Nat.le_of_eq hend⟩
      obtain ⟨more, hmore⟩ := settleAfter_inner hinner hss
      refine ⟨more ++ subsumed, ?_⟩
      rw [hedit] at hsorted
      rw [List.filterMap_cons_some hedit]
      exact (settle_eq_settleAfter hsorted).trans hmore

end Stretch

end Delegation
