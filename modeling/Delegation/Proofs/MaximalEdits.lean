import Delegation.Edit
import Delegation.Proofs.Nesting
import Mathlib.Data.Finset.Max
import Mathlib.Data.List.Nodup
import Mathlib.Data.List.Pairwise

/-!
This module contains which edits are settled: those that no other edit contains. They are settled
exactly if no two of them are in each other's way, in whatever order the edits are given.
-/

namespace Delegation

namespace Span

theorem contains_iff {a b : Span} :
    a.contains b = true ↔ a.start ≤ b.start ∧ b.stop ≤ a.stop := by
  simp [contains]

theorem overlaps_iff {a b : Span} :
    a.overlaps b = true ↔ a.start < b.stop ∧ b.start < a.stop := by
  simp [overlaps]

theorem overlaps_eq_false_iff {a b : Span} :
    a.overlaps b = false ↔ b.stop ≤ a.start ∨ a.stop ≤ b.start := by
  rw [← Bool.not_eq_true, overlaps_iff]
  omega

theorem contains_trans {a b c : Span} (hab : a.contains b = true) (hbc : b.contains c = true) :
    a.contains c = true := by
  rw [contains_iff] at *
  omega

theorem contains_antisymm {a b : Span} (hab : a.contains b = true) (hba : b.contains a = true) :
    a = b := by
  rw [contains_iff] at *
  cases a
  cases b
  simp only [mk.injEq] at *
  omega

end Span

namespace Edit

theorem precedes_iff {a b : Edit} :
    a.precedes b = true ↔ a.span.start < b.span.start
      ∨ a.span.start = b.span.start ∧ b.span.stop ≤ a.span.stop := by
  simp [precedes]

/--
Whether `e` is one of `edits`, and none of them has a larger span around that of `e`.
-/
def IsMaximalIn (edits : List Edit) (e : Edit) : Prop :=
  e ∈ edits ∧ ∀ x ∈ edits, x.span.contains e.span = true → x.span = e.span

/--
Whether `b` is wholly behind `a`, and not an empty edit at its end.
-/
def IsBehind (a b : Edit) : Prop :=
  a.span.start < b.span.start ∧ a.span.stop ≤ b.span.start ∧ a.span.stop < b.span.stop

theorem IsBehind.not_overlaps {a b : Edit} (h : a.IsBehind b) : a.span.overlaps b.span = false :=
  Span.overlaps_eq_false_iff.mpr (.inr h.2.1)

theorem isBehind_of_precedes {a b : Edit} (ha : a.span.start ≤ a.span.stop)
    (h : a.precedes b = true) (hcontains : ¬ a.span.contains b.span = true)
    (hoverlaps : ¬ a.span.overlaps b.span = true) : a.IsBehind b := by
  rw [precedes_iff] at h
  rw [Span.contains_iff] at hcontains
  rw [Span.overlaps_iff] at hoverlaps
  unfold IsBehind
  omega

theorem IsBehind.trans {a b c : Edit} (hab : a.IsBehind b) (hbc : b.IsBehind c) : a.IsBehind c := by
  unfold IsBehind at *
  omega

theorem isBehind_or_isBehind {es : List Edit} (h : es.Pairwise IsBehind) {a b : Edit} (ha : a ∈ es)
    (hb : b ∈ es) (hne : a ≠ b) : a.IsBehind b ∨ b.IsBehind a := by
  have : Std.Symm fun a b : Edit => a.IsBehind b ∨ b.IsBehind a := ⟨fun _ _ => Or.symm⟩
  have h' : es.Pairwise fun a b => a.IsBehind b ∨ b.IsBehind a := h.imp Or.inl
  exact h'.forall ha hb hne

theorem exists_isMaximalIn {edits : List Edit} (h : ∀ e ∈ edits, e.span.start ≤ e.span.stop)
    {e : Edit} (he : e ∈ edits) :
    ∃ x : Edit, x.IsMaximalIn edits ∧ x.span.contains e.span = true := by
  let around := (edits.filter fun x => x.span.contains e.span).toFinset
  have mem_around : ∀ x, x ∈ around ↔ x ∈ edits ∧ x.span.contains e.span = true := by
    simp [around]
  have hne : around.Nonempty := ⟨e, (mem_around e).mpr ⟨he, by simp [Span.contains]⟩⟩
  obtain ⟨x, hx, hlongest⟩ := around.exists_max_image (fun x => x.span.length) hne
  obtain ⟨hmem, hcontains⟩ := (mem_around x).mp hx
  refine ⟨x, ⟨hmem, ?_⟩, hcontains⟩
  intro y hy hyx
  have hlength := hlongest y ((mem_around y).mpr ⟨hy, Span.contains_trans hyx hcontains⟩)
  have hspan := h x hmem
  apply Span.contains_antisymm hyx
  rw [Span.contains_iff] at hyx ⊢
  unfold Span.length at hlength
  omega

end Edit

/--
Whether the maximal ones of `edits` can all be made: none of them overlap, and there are no two for
one span.
-/
def AreCompatible (edits : List Edit) : Prop :=
  ∀ a b : Edit, a.IsMaximalIn edits → b.IsMaximalIn edits →
    (a.span ≠ b.span → a.span.overlaps b.span = false) ∧ (a.span = b.span → a = b)

/-!
What settling keeps.
-/

/--
Whether `kept` are edits of `edits`, each behind the one before it, with all others inside them.
-/
structure IsSettlementOf (edits kept : List Edit) : Prop where
  subset : ∀ k ∈ kept, k ∈ edits
  pairwise : kept.Pairwise Edit.IsBehind
  exists_contains : ∀ e ∈ edits, ∃ k ∈ kept, k = e ∨ k.span ≠ e.span ∧ k.span.contains e.span = true

theorem isSettlementOf_of_settleAfter {last : Edit} {es : List Edit} {s : Settlement}
    (hsorted : (last :: es).Pairwise (Edit.precedes · ·)) (h : settleAfter last es = .ok s) :
    s.kept.head? = some last ∧ (∀ k ∈ s.kept, k ∈ last :: es)
      ∧ ((∀ k ∈ s.kept, k.span.start ≤ k.span.stop) → IsSettlementOf (last :: es) s.kept) := by
  induction es generalizing last s with
  | nil =>
    cases h
    exact ⟨rfl, fun k hk => hk, fun _ =>
      ⟨fun k hk => hk, List.pairwise_singleton .., fun e he => ⟨e, he, .inl rfl⟩⟩⟩
  | cons e es ih =>
    obtain ⟨hlast, hes⟩ := List.pairwise_cons.mp hsorted
    have hkeep : (last :: es).Pairwise (Edit.precedes · ·) := hsorted.sublist (by simp)
    rw [settleAfter] at h
    -- An edit that is dropped is the last one again, or inside it.
    have hdrop : ∀ s', (last = e ∨ last.span ≠ e.span ∧ last.span.contains e.span = true) →
        settleAfter last es = .ok s' →
        s'.kept.head? = some last ∧ (∀ k ∈ s'.kept, k ∈ last :: e :: es)
          ∧ ((∀ k ∈ s'.kept, k.span.start ≤ k.span.stop) →
            IsSettlementOf (last :: e :: es) s'.kept) := by
      intro s' he hs'
      obtain ⟨hhead, hsubset, hkept⟩ := ih hkeep hs'
      have hsubset : ∀ k ∈ s'.kept, k ∈ last :: e :: es :=
        fun k hk => List.Sublist.mem (hsubset k hk) (by simp)
      refine ⟨hhead, hsubset, fun hspans => ⟨hsubset, (hkept hspans).pairwise, ?_⟩⟩
      intro x hx
      rcases List.mem_cons.mp hx with rfl | hx
      . exact (hkept hspans).exists_contains x (.head _)
      . rcases List.mem_cons.mp hx with rfl | hx
        . exact ⟨last, List.mem_of_mem_head? hhead, he⟩
        . exact (hkept hspans).exists_contains x (.tail _ hx)
    split at h
    . next hspan =>
      split at h
      . next heq => exact hdrop s (.inl heq) h
      . cases h
    . next hspan =>
      split at h
      . next hcontains =>
        obtain ⟨s', hs', h⟩ := bind_eq_ok h
        cases h
        exact hdrop s' (.inr ⟨hspan, hcontains⟩) hs'
      . next hcontains =>
        split at h
        . cases h
        . next hoverlaps =>
          obtain ⟨s', hs', h⟩ := bind_eq_ok h
          cases h
          obtain ⟨hhead, hsubset, hkept⟩ := ih hes hs'
          have hsubset : ∀ k ∈ last :: s'.kept, k ∈ last :: e :: es := by
            intro k hk
            rcases List.mem_cons.mp hk with rfl | hk
            . exact .head _
            . exact .tail _ (hsubset k hk)
          refine ⟨rfl, hsubset, ?_⟩
          intro hspans
          obtain ⟨_, hpairwise, hall⟩ := hkept fun k hk => hspans k (.tail _ hk)
          have hbehind := Edit.isBehind_of_precedes (hspans last (.head _)) (hlast e (.head _))
            hcontains hoverlaps
          refine ⟨hsubset, ?_, ?_⟩
          . -- All that is kept is behind `e` or is `e` itself, and `e` is behind the last one.
            refine List.pairwise_cons.mpr ⟨?_, hpairwise⟩
            obtain ⟨more, hmore⟩ := List.head?_eq_some_iff.mp hhead
            rw [hmore] at hpairwise ⊢
            intro k hk
            rcases List.mem_cons.mp hk with rfl | hk
            . exact hbehind
            . exact hbehind.trans (List.rel_of_pairwise_cons hpairwise hk)
          . intro x hx
            rcases List.mem_cons.mp hx with rfl | hx
            . exact ⟨x, .head _, .inl rfl⟩
            . obtain ⟨k, hk, hkx⟩ := hall x hx
              exact ⟨k, .tail _ hk, hkx⟩

theorem mergeSort_pairwise_precedes (edits : List Edit) :
    (edits.mergeSort Edit.precedes).Pairwise (Edit.precedes · ·) := by
  apply List.pairwise_mergeSort
  . intro a b c hab hbc
    rw [Edit.precedes_iff] at *
    omega
  . intro a b
    rw [Bool.or_eq_true, Edit.precedes_iff, Edit.precedes_iff]
    omega

theorem isSettlementOf_of_kept {edits : List Edit} {s : Settlement} (h : settle edits = .ok s) :
    (∀ k ∈ s.kept, k ∈ edits)
      ∧ ((∀ k ∈ s.kept, k.span.start ≤ k.span.stop) → IsSettlementOf edits s.kept) := by
  have hsorted := mergeSort_pairwise_precedes edits
  have hmem : ∀ e, e ∈ edits.mergeSort Edit.precedes ↔ e ∈ edits := fun _ => List.mem_mergeSort
  unfold settle at h
  generalize edits.mergeSort Edit.precedes = sorted at h hsorted hmem
  cases sorted with
  | nil =>
    cases h
    refine ⟨by simp, fun _ => ⟨by simp, .nil, ?_⟩⟩
    intro e he
    exact absurd ((hmem e).mpr he) (by simp)
  | cons last es =>
    obtain ⟨_, hsubset, hkept⟩ := isSettlementOf_of_settleAfter hsorted h
    have hsubset : ∀ k ∈ s.kept, k ∈ edits := fun k hk => (hmem k).mp (hsubset k hk)
    refine ⟨hsubset, fun hspans => ⟨hsubset, (hkept hspans).pairwise, ?_⟩⟩
    exact fun e he => (hkept hspans).exists_contains e ((hmem e).mpr he)

theorem isSettlementOf_of_settle {edits : List Edit} {s : Settlement}
    (hspans : ∀ e ∈ edits, e.span.start ≤ e.span.stop) (h : settle edits = .ok s) :
    IsSettlementOf edits s.kept :=
  have ⟨hsubset, hkept⟩ := isSettlementOf_of_kept h
  hkept fun k hk => hspans k (hsubset k hk)

namespace IsSettlementOf

variable {edits kept : List Edit}

theorem eq_of_contains (h : IsSettlementOf edits kept)
    {a b : Edit} (ha : a ∈ kept) (hb : b ∈ kept) (hab : a.span.contains b.span = true) : a = b := by
  rw [Span.contains_iff] at hab
  by_contra hne
  rcases Edit.isBehind_or_isBehind h.pairwise ha hb hne with hrel | hrel
  all_goals
    unfold Edit.IsBehind at hrel
    omega

theorem mem_iff (h : IsSettlementOf edits kept) {e : Edit} : e ∈ kept ↔ e.IsMaximalIn edits := by
  constructor
  . intro he
    refine ⟨h.subset e he, ?_⟩
    intro x hx hcontains
    obtain ⟨k, hk, rfl | ⟨_, hkx⟩⟩ := h.exists_contains x hx
    . rw [h.eq_of_contains hk he hcontains]
    . have heq := h.eq_of_contains hk he (Span.contains_trans hkx hcontains)
      rw [heq] at hkx
      exact Span.contains_antisymm hcontains hkx
  . intro he
    obtain ⟨k, hk, rfl | ⟨hne, hcontains⟩⟩ := h.exists_contains e he.1
    . exact hk
    . exact absurd (he.2 k (h.subset k hk) hcontains) hne

theorem areCompatible (h : IsSettlementOf edits kept) : AreCompatible edits := by
  intro a b ha hb
  rw [← h.mem_iff] at ha hb
  refine ⟨?_, ?_⟩
  . intro hspan
    have hne : a ≠ b := fun heq => hspan (congrArg Edit.span heq)
    rcases Edit.isBehind_or_isBehind h.pairwise ha hb hne with hrel | hrel
    . exact hrel.not_overlaps
    . have := hrel.not_overlaps
      rw [Span.overlaps_eq_false_iff] at this ⊢
      exact this.symm
  . intro hspan
    exact h.eq_of_contains ha hb (by simp [hspan, Span.contains])

theorem eq_of_iff {edits' kept' : List Edit} (h : IsSettlementOf edits kept)
    (h' : IsSettlementOf edits' kept') (hmem : ∀ e, e ∈ edits ↔ e ∈ edits') : kept = kept' := by
  have hirrefl : ∀ {es : List Edit}, es.Pairwise Edit.IsBehind → es.Nodup := by
    intro es hes
    apply hes.imp
    rintro a b hab rfl
    exact Nat.lt_irrefl _ hab.1
  have hperm : kept.Perm kept' := by
    rw [List.perm_ext_iff_of_nodup (hirrefl h.pairwise) (hirrefl h'.pairwise)]
    intro e
    simp only [h.mem_iff, h'.mem_iff, Edit.IsMaximalIn, hmem]
  apply hperm.eq_of_pairwise _ h.pairwise h'.pairwise
  intro a b _ _ hab hba
  exact absurd hab.1 (Nat.lt_asymm hba.1)

end IsSettlementOf

/-!
When settling succeeds.
-/

/--
Settling goes on as long as the last edit is maximal and nothing that starts behind it was passed
over, inside it apart.
-/
theorem exists_settleAfter {edits : List Edit} (hspans : ∀ e ∈ edits, e.span.start ≤ e.span.stop)
    (hcompatible : AreCompatible edits) {last : Edit} {es : List Edit}
    (hlast : last.IsMaximalIn edits) (hsubset : ∀ e ∈ es, e ∈ edits)
    (hsorted : (last :: es).Pairwise (Edit.precedes · ·))
    (hseen : ∀ x ∈ edits, x.span.start ≤ last.span.start ∨ last.span.contains x.span = true
      ∨ x ∈ es) :
    ∃ s, settleAfter last es = .ok s := by
  induction es generalizing last with
  | nil => exact ⟨_, rfl⟩
  | cons e es ih =>
    obtain ⟨hall, hes⟩ := List.pairwise_cons.mp hsorted
    have hprecedes := Edit.precedes_iff.mp (hall e (.head _))
    have he := hsubset e (.head _)
    have hspan := hspans e he
    have hlastSpan := hspans last hlast.1
    have hdrop : last.span.contains e.span = true → ∃ s, settleAfter last es = .ok s := by
      intro hcontains
      apply ih hlast (fun x hx => hsubset x (.tail _ hx)) (hsorted.sublist (by simp))
      intro x hx
      rcases hseen x hx with hstart | hinside | hmem
      . exact .inl hstart
      . exact .inr (.inl hinside)
      . rcases List.mem_cons.mp hmem with rfl | hmem
        . exact .inr (.inl hcontains)
        . exact .inr (.inr hmem)
    obtain ⟨x, hx, hxe⟩ := Edit.exists_isMaximalIn hspans he
    rw [settleAfter]
    split
    . next heq =>
      have hmaximal : e.IsMaximalIn edits := by
        refine ⟨he, ?_⟩
        rw [← heq]
        exact hlast.2
      rw [if_pos ((hcompatible last e hlast hmaximal).2 heq)]
      exact hdrop (by simp [heq, Span.contains])
    . next hne =>
      split
      . next hcontains =>
        obtain ⟨s, hs⟩ := hdrop hcontains
        exact ⟨{ s with subsumed := e.span :: s.subsumed }, by rw [hs]; rfl⟩
      . next hcontains =>
        -- The maximal edit around `e` is not the last one, so the two do not overlap.
        have hdifferent : last.span ≠ x.span := by
          intro heq
          rw [heq] at hcontains
          exact hcontains hxe
        have hapart := (hcompatible last x hlast hx).1 hdifferent
        rw [Span.overlaps_eq_false_iff] at hapart
        rw [Span.contains_iff] at hcontains hxe
        have houtside : ¬ last.span.contains x.span = true :=
          fun h => hdifferent (hx.2 last hlast.1 h)
        have hinside : ¬ x.span.contains last.span = true :=
          fun h => hdifferent (hlast.2 x hx.1 h).symm
        rw [Span.contains_iff] at houtside hinside
        have hoverlaps : ¬ last.span.overlaps e.span = true := by
          rw [Span.overlaps_iff]
          omega
        rw [if_neg hoverlaps]
        -- It was not passed over either, so it is `e` or an edit for the same span.
        have heq : x.span = e.span := by
          rcases hseen x hx.1 with hstart | hcontained | hmem
          . omega
          . exact absurd hcontained (by rwa [Span.contains_iff])
          . rcases List.mem_cons.mp hmem with rfl | hmem
            . rfl
            . have := Edit.precedes_iff.mp (List.rel_of_pairwise_cons hes hmem)
              apply Span.contains_antisymm (Span.contains_iff.mpr hxe)
              rw [Span.contains_iff]
              omega
        have hmaximal : e.IsMaximalIn edits := by
          refine ⟨he, ?_⟩
          rw [← heq]
          exact hx.2
        obtain ⟨s, hs⟩ : ∃ s, settleAfter e es = .ok s := by
          apply ih hmaximal (fun y hy => hsubset y (.tail _ hy)) hes
          intro y hy
          rcases hseen y hy with hstart | hcontained | hmem
          . exact .inl (by omega)
          . rw [Span.contains_iff] at hcontained
            rw [Span.overlaps_iff] at hoverlaps
            have := hspans y hy
            exact .inl (by omega)
          . rcases List.mem_cons.mp hmem with rfl | hmem
            . exact .inl (Nat.le_refl _)
            . exact .inr (.inr hmem)
        exact ⟨{ s with kept := last :: s.kept }, by rw [hs]; rfl⟩

theorem exists_settle {edits : List Edit} (hspans : ∀ e ∈ edits, e.span.start ≤ e.span.stop)
    (hcompatible : AreCompatible edits) : ∃ s, settle edits = .ok s := by
  have hsorted := mergeSort_pairwise_precedes edits
  have hmem : ∀ e, e ∈ edits.mergeSort Edit.precedes ↔ e ∈ edits := fun _ => List.mem_mergeSort
  unfold settle
  generalize edits.mergeSort Edit.precedes = sorted at hsorted hmem
  cases sorted with
  | nil => exact ⟨_, rfl⟩
  | cons last es =>
    have hlast := (hmem last).mp (.head _)
    have hfirst : ∀ x ∈ edits, x = last ∨ x ∈ es := by
      intro x hx
      exact List.mem_cons.mp ((hmem x).mpr hx)
    refine exists_settleAfter hspans hcompatible ⟨hlast, ?_⟩ (fun e he => (hmem e).mp (.tail _ he))
      hsorted ?_
    . intro x hx hcontains
      rcases hfirst x hx with rfl | hmore
      . rfl
      . apply Span.contains_antisymm hcontains
        have := Edit.precedes_iff.mp (List.rel_of_pairwise_cons hsorted hmore)
        rw [Span.contains_iff] at hcontains ⊢
        omega
    . intro x hx
      rcases hfirst x hx with rfl | hmore
      . exact .inl (Nat.le_refl _)
      . exact .inr (.inr hmore)

theorem toOption_applyEdits_of_perm {edits edits' : List Edit}
    (hspans : ∀ e ∈ edits, e.span.start ≤ e.span.stop) (h : edits.Perm edits')
    (source : List Char) :
    (applyEdits source edits').toOption = (applyEdits source edits).toOption := by
  have hspans' : ∀ e ∈ edits', e.span.start ≤ e.span.stop := fun e he => hspans e (h.mem_iff.mpr he)
  have hmem : ∀ e, e ∈ edits' ↔ e ∈ edits := fun e => h.mem_iff.symm
  have hcompatible : AreCompatible edits' ↔ AreCompatible edits := by
    simp only [AreCompatible, Edit.IsMaximalIn, hmem]
  unfold applyEdits
  cases hs : settle edits with
  | ok s =>
    have hkept := isSettlementOf_of_settle hspans hs
    obtain ⟨s', hs'⟩ := exists_settle hspans' (hcompatible.mpr hkept.areCompatible)
    have heq := (isSettlementOf_of_settle hspans' hs').eq_of_iff hkept hmem
    rw [hs']
    simp only [bind, Except.bind, heq]
  | error err =>
    cases hs' : settle edits' with
    | ok s' =>
      have hkept := isSettlementOf_of_settle hspans' hs'
      obtain ⟨s, hok⟩ := exists_settle hspans (hcompatible.mp hkept.areCompatible)
      rw [hs] at hok
      cases hok
    | error err' => rfl

/--
Edits are settled exactly if the maximal ones are compatible. These are kept then, one for each
span and in the order of the text, with all others inside them; so the order in which the edits are
given makes no difference.
-/
theorem settle_keeps_maximal {edits : List Edit}
    (hspans : ∀ e ∈ edits, e.span.start ≤ e.span.stop) :
    ((∃ s, settle edits = .ok s) ↔ AreCompatible edits)
      ∧ (∀ s, settle edits = .ok s →
        (∀ e, e ∈ s.kept ↔ e.IsMaximalIn edits)
        ∧ s.kept.Pairwise (fun a b => a.span.start < b.span.start ∧ a.span.overlaps b.span = false)
        ∧ ∀ e ∈ edits, ∃ k ∈ s.kept, k.span.contains e.span = true)
      ∧ ∀ source edits', edits.Perm edits' →
        (applyEdits source edits').toOption = (applyEdits source edits).toOption := by
  refine ⟨⟨?_, exists_settle hspans⟩, ?_, ?_⟩
  . rintro ⟨s, hs⟩
    exact (isSettlementOf_of_settle hspans hs).areCompatible
  . intro s hs
    have hkept := isSettlementOf_of_settle hspans hs
    refine ⟨fun e => hkept.mem_iff, ?_, ?_⟩
    . exact hkept.pairwise.imp fun hab => ⟨hab.1, hab.not_overlaps⟩
    . intro e he
      obtain ⟨k, hk, rfl | ⟨_, hcontains⟩⟩ := hkept.exists_contains e he
      . exact ⟨k, hk, by simp [Span.contains]⟩
      . exact ⟨k, hk, hcontains⟩
  . intro source edits' hperm
    exact toOption_applyEdits_of_perm hspans hperm source

/--
Of two removals, one given twice, and empty replacements at their ends the removals are kept.
-/
theorem settle_keeps_maximal_touching :
    let edits : List Edit := [.replacement ⟨2, 2⟩ ['x'], .removal ⟨2, 5⟩, .removal ⟨0, 2⟩,
      .removal ⟨2, 5⟩, .replacement ⟨5, 5⟩ ['y']]
    (∀ e ∈ edits, e.span.start ≤ e.span.stop)
      ∧ settle edits = .ok ⟨[.removal ⟨0, 2⟩, .removal ⟨2, 5⟩], [⟨2, 2⟩, ⟨5, 5⟩]⟩
      ∧ AreCompatible edits
      ∧ (∀ e : Edit, e ∈ [.removal ⟨0, 2⟩, .removal ⟨2, 5⟩] ↔ e.IsMaximalIn edits)
      ∧ ∀ source, (applyEdits source edits.reverse).toOption
        = (applyEdits source edits).toOption := by
  intro edits
  have hspans : ∀ e ∈ edits, e.span.start ≤ e.span.stop := by decide
  have hsort : edits.mergeSort Edit.precedes = [.removal ⟨0, 2⟩, .removal ⟨2, 5⟩, .removal ⟨2, 5⟩,
      .replacement ⟨2, 2⟩ ['x'], .replacement ⟨5, 5⟩ ['y']] := by
    simp [edits, List.mergeSort, List.MergeSort.Internal.splitInTwo, Edit.precedes, Edit.span]
  have hsettle : settle edits = .ok ⟨[.removal ⟨0, 2⟩, .removal ⟨2, 5⟩], [⟨2, 2⟩, ⟨5, 5⟩]⟩ := by
    rw [settle, hsort]
    rfl
  obtain ⟨hiff, hkept, hperm⟩ := settle_keeps_maximal hspans
  exact ⟨hspans, hsettle, hiff.mp ⟨_, hsettle⟩, (hkept _ hsettle).1,
    fun source => hperm source _ (List.reverse_perm _).symm⟩

end Delegation
