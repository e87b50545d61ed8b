import Delegation.Model.Inheritance
import Mathlib.Data.Finset.Card
import Mathlib.Logic.Relation

/-!
This module contains what the search for a cycle finds: it finds one exactly if some entity extends
itself, directly or through others.
-/

namespace Delegation.InheritanceGraph

open Relation

variable {g : InheritanceGraph} {name superType other : Ident}

def Extends (g : InheritanceGraph) (name superType : Ident) : Prop :=
  (name, superType) ∈ g.edges

def IsClosed (g : InheritanceGraph) : Prop :=
  ∀ ⦃name superType⦄, g.Extends name superType → name ∈ g.names ∧ superType ∈ g.names

theorem mem_neighbors : superType ∈ g.neighbors name ↔ g.Extends name superType := by
  simp [neighbors, Extends]

theorem mem_superTypes : superType ∈ g.superTypes name ↔ g.Extends name superType := by
  rw [superTypes, List.mem_reverse, mem_neighbors]

theorem extends_reverse : g.reverse.Extends name other ↔ g.Extends other name := by
  simp [reverse, Extends]

theorem IsClosed.reverse (h : g.IsClosed) : g.reverse.IsClosed :=
  fun _ _ hextends => (h (extends_reverse.mp hextends)).symm

theorem transGen_reverse :
    TransGen g.reverse.Extends name other ↔ TransGen g.Extends other name := by
  rw [← transGen_swap]
  have : Function.swap g.reverse.Extends = g.Extends := by
    funext a b
    exact propext extends_reverse
  rw [this]

theorem isClosed_ofModel (m : Model) : (ofModel m).IsClosed := by
  intro name superType h
  simp only [Extends, ofModel, List.mem_flatMap, List.mem_map, List.mem_filter,
    List.contains_iff_mem, Prod.mk.injEq] at h
  obtain ⟨e, he, _, ⟨_, hsuper⟩, rfl, rfl⟩ := h
  exact ⟨List.mem_eraseDups.mpr (List.mem_map_of_mem he), hsuper⟩

theorem extends_ofModel {m : Model} :
    (ofModel m).Extends name superType
      ↔ superType ∈ m.entities.map (·.name)
        ∧ ∃ e ∈ m.entities, e.name = name ∧ superType ∈ e.superTypes := by
  simp only [Extends, ofModel, List.mem_flatMap, List.mem_map, List.mem_filter,
    List.contains_iff_mem, List.mem_eraseDups, Prod.mk.injEq]
  constructor
  . rintro ⟨e, he, _, ⟨hsuper, hdeclared⟩, rfl, rfl⟩
    exact ⟨hdeclared, e, he, rfl, hsuper⟩
  . rintro ⟨hdeclared, e, he, rfl, hsuper⟩
    exact ⟨e, he, superType, ⟨hsuper, hdeclared⟩, rfl, rfl⟩

/--
What happens in a search from `roots` that begins at `s` and ends at `s'`.
-/
structure Advances (g : InheritanceGraph) (roots : List Ident) (s s' : Search) : Prop where
  seen_subset : s.seen ⊆ s'.seen
  left_subset : s.left ⊆ s'.left
  roots_subset : roots ⊆ s'.seen
  /--
  What is entered is left, and by then all that it extends was entered.
  -/
  finished : ∀ name ∈ s'.seen, name ∈ s.seen ∨
    name ∈ s'.left ∧ ∀ superType, g.Extends name superType → superType ∈ s'.seen
  reached : ∀ name ∈ s'.seen, name ∈ s.seen ∨ ∃ root ∈ roots, ReflTransGen g.Extends root name

namespace Advances

variable {roots more : List Ident} {s s' s'' : Search}

theorem of_mem (s : Search) (h : roots ⊆ s.seen) : g.Advances roots s s where
  seen_subset := List.Subset.refl _
  left_subset := List.Subset.refl _
  roots_subset := h
  finished := fun _ => .inl
  reached := fun _ => .inl

theorem trans (h : g.Advances roots s s') (h' : g.Advances more s' s'') :
    g.Advances (roots ++ more) s s'' where
  seen_subset := List.Subset.trans h.seen_subset h'.seen_subset
  left_subset := List.Subset.trans h.left_subset h'.left_subset
  roots_subset := List.append_subset.mpr
    ⟨List.Subset.trans h.roots_subset h'.seen_subset, h'.roots_subset⟩
  finished := by
    intro name hname
    rcases h'.finished name hname with hseen | hleft
    . rcases h.finished name hseen with hseen | ⟨hleft, hall⟩
      . exact .inl hseen
      . exact .inr ⟨h'.left_subset hleft, fun _ hextends => h'.seen_subset (hall _ hextends)⟩
    . exact .inr hleft
  reached := by
    intro name hname
    rcases h'.reached name hname with hseen | ⟨root, hroot, hreach⟩
    . rcases h.reached name hseen with hseen | ⟨root, hroot, hreach⟩
      . exact .inl hseen
      . exact .inr ⟨root, List.mem_append_left _ hroot, hreach⟩
    . exact .inr ⟨root, List.mem_append_right _ hroot, hreach⟩

theorem enter (h : g.Advances (g.neighbors name) { s with seen := name :: s.seen } s') :
    g.Advances [name] s { s' with left := name :: s'.left } where
  seen_subset := List.Subset.trans (List.subset_cons_self ..) h.seen_subset
  left_subset := List.Subset.trans h.left_subset (List.subset_cons_self ..)
  roots_subset := by
    apply List.cons_subset.mpr
    exact ⟨h.seen_subset (.head _), List.nil_subset _⟩
  finished := by
    intro other hother
    have hall : ∀ superType, g.Extends name superType → superType ∈ s'.seen := fun _ hextends =>
      h.roots_subset (mem_neighbors.mpr hextends)
    rcases h.finished other hother with hseen | ⟨hleft, hall'⟩
    . rcases List.mem_cons.mp hseen with rfl | hseen
      . exact .inr ⟨.head _, hall⟩
      . exact .inl hseen
    . exact .inr ⟨.tail _ hleft, hall'⟩
  reached := by
    intro other hother
    rcases h.reached other hother with hseen | ⟨root, hroot, hreach⟩
    . rcases List.mem_cons.mp hseen with rfl | hseen
      . exact .inr ⟨other, .head _, .refl⟩
      . exact .inl hseen
    . have hextends := mem_neighbors.mp hroot
      exact .inr ⟨name, .head _, .head hextends hreach⟩

end Advances

def unseen (g : InheritanceGraph) (s : Search) : Nat :=
  (g.names.toFinset \ s.seen.toFinset).card

theorem unseen_le_length (s : Search) : g.unseen s ≤ g.names.length :=
  (Finset.card_le_card Finset.sdiff_subset).trans (List.toFinset_card_le _)

theorem unseen_le {s s' : Search} (h : s.seen ⊆ s'.seen) : g.unseen s' ≤ g.unseen s := by
  apply Finset.card_le_card
  apply Finset.sdiff_subset_sdiff (Finset.Subset.refl _)
  intro name hname
  exact List.mem_toFinset.mpr (h (List.mem_toFinset.mp hname))

theorem unseen_enter_lt {s : Search} (hname : name ∈ g.names) (h : name ∉ s.seen) :
    g.unseen { s with seen := name :: s.seen } < g.unseen s := by
  apply Finset.card_lt_card
  rw [List.toFinset_cons, Finset.sdiff_insert]
  apply Finset.erase_ssubset
  simp [hname, h]

theorem advances_foldl {visit : Search → Ident → Search} {depth : Nat}
    (hvisit : ∀ s name, name ∈ g.names → g.unseen s ≤ depth → g.Advances [name] s (visit s name))
    {roots : List Ident} (hroots : roots ⊆ g.names) {s : Search} (hdepth : g.unseen s ≤ depth) :
    g.Advances roots s (roots.foldl visit s) := by
  induction roots generalizing s with
  | nil => exact .of_mem s (List.nil_subset _)
  | cons root roots ih =>
    obtain ⟨hroot, hroots⟩ := List.cons_subset.mp hroots
    have hfirst := hvisit s root hroot hdepth
    exact hfirst.trans (ih hroots ((unseen_le hfirst.seen_subset).trans hdepth))

/--
One visit of a search. The depth suffices as long as there are no more names to enter.
-/
theorem advances_visit (hg : g.IsClosed) {depth : Nat} (s : Search) (name : Ident)
    (hname : name ∈ g.names) (hdepth : g.unseen s ≤ depth) :
    g.Advances [name] s (g.visit depth s name) := by
  induction depth generalizing s name with
  | zero =>
    -- A name that was not entered would be left to enter.
    by_cases h : name ∈ s.seen
    . exact .of_mem s (by simpa using h)
    . have := unseen_enter_lt hname h
      omega
  | succ depth ih =>
    unfold visit
    split
    . next h => exact .of_mem s (by simpa using h)
    . next h =>
      rw [List.contains_iff_mem] at h
      have := unseen_enter_lt hname h
      apply Advances.enter
      apply advances_foldl ih _ (by omega)
      intro superType hsuper
      exact (hg (mem_neighbors.mp hsuper)).2

theorem advances_search (hg : g.IsClosed) {roots : List Ident} (hroots : roots ⊆ g.names) :
    g.Advances roots ⟨[], []⟩ (g.search roots) :=
  advances_foldl (advances_visit hg) hroots (unseen_le_length _)

theorem mem_left_search (hg : g.IsClosed) (hname : name ∈ g.names) :
    name ∈ (g.search g.names).left := by
  have h := advances_search hg (List.Subset.refl g.names)
  rcases h.finished name (h.roots_subset hname) with hseen | hleft
  . cases hseen
  . exact hleft.1

theorem mem_ancestors (hg : g.IsClosed) :
    other ∈ g.ancestors name ↔ TransGen g.Extends name other := by
  have h : g.Advances (g.neighbors name) ⟨[], []⟩ (g.search (g.neighbors name)) :=
    advances_search hg fun superType hsuper => (hg (mem_neighbors.mp hsuper)).2
  constructor
  . intro hother
    rcases h.reached other hother with hseen | ⟨root, hroot, hreach⟩
    . cases hseen
    . exact .head' (mem_neighbors.mp hroot) hreach
  . intro hother
    induction hother with
    | single hextends => exact h.roots_subset (mem_neighbors.mpr hextends)
    | tail _ hextends ih =>
      rcases h.finished _ ih with hseen | hleft
      . cases hseen
      . exact hleft.2 _ hextends

def Connected (g : InheritanceGraph) (name other : Ident) : Prop :=
  ReflTransGen g.Extends name other ∧ ReflTransGen g.Extends other name

theorem Connected.symm (h : g.Connected name other) : g.Connected other name :=
  ⟨h.2, h.1⟩

theorem Connected.trans {third : Ident} (h : g.Connected name other)
    (h' : g.Connected other third) : g.Connected name third :=
  ⟨h.1.trans h'.1, h'.2.trans h.2⟩

theorem Connected.transGen (h : g.Connected name other) (hne : other ≠ name) :
    TransGen g.Extends name other ∧ TransGen g.Extends other name :=
  ⟨(reflTransGen_iff_eq_or_transGen.mp h.1).resolve_left hne,
    (reflTransGen_iff_eq_or_transGen.mp h.2).resolve_left hne.symm⟩

theorem mem_componentOf (hg : g.IsClosed) :
    other ∈ g.componentOf name ↔ g.Connected name other := by
  simp only [componentOf, List.mem_cons, List.mem_filter, Bool.and_eq_true, bne_iff_ne,
    List.contains_iff_mem, mem_ancestors hg, mem_ancestors hg.reverse, transGen_reverse]
  constructor
  . rintro (rfl | ⟨hforth, _, hback⟩)
    . exact ⟨.refl, .refl⟩
    . exact ⟨hforth.to_reflTransGen, hback.to_reflTransGen⟩
  . intro h
    by_cases hother : other = name
    . exact .inl hother
    . obtain ⟨hforth, hback⟩ := h.transGen hother
      exact .inr ⟨hforth, hother, hback⟩

theorem eq_componentOf {names component : List Ident} (h : component ∈ g.componentsFrom names) :
    ∃ name ∈ names, component = g.componentOf name := by
  induction names with
  | nil => cases h
  | cons name later ih =>
    have hlater (h : component ∈ g.componentsFrom later) :
        ∃ other ∈ name :: later, component = g.componentOf other := by
      obtain ⟨other, hother, heq⟩ := ih h
      exact ⟨other, .tail _ hother, heq⟩
    unfold componentsFrom at h
    dsimp only at h
    split at h
    . exact hlater h
    . rcases List.mem_cons.mp h with rfl | h
      . exact ⟨name, .head _, rfl⟩
      . exact hlater h

/--
Each of the names is in one of the components. One that is passed over is in that of a later name.
-/
theorem exists_componentOf (hg : g.IsClosed) {names : List Ident} (hname : name ∈ names) :
    ∃ other, g.componentOf other ∈ g.componentsFrom names ∧ g.Connected other name := by
  induction names generalizing name with
  | nil => cases hname
  | cons first later ih =>
    unfold componentsFrom
    dsimp only
    split
    . next hlater =>
      rcases List.mem_cons.mp hname with rfl | hname
      . obtain ⟨other, hother, hmem⟩ := List.any_eq_true.mp hlater
        rw [List.contains_iff_mem, mem_componentOf hg] at hmem
        obtain ⟨root, hroot, hconnected⟩ := ih hother
        exact ⟨root, hroot, hconnected.trans hmem.symm⟩
      . exact ih hname
    . rcases List.mem_cons.mp hname with rfl | hname
      . exact ⟨name, .head _, .refl, .refl⟩
      . obtain ⟨root, hroot, hconnected⟩ := ih hname
        exact ⟨root, .tail _ hroot, hconnected⟩

theorem isCycle_componentOf (hg : g.IsClosed) :
    g.isCycle (g.componentOf name) = true ↔ TransGen g.Extends name name := by
  have hedge : (g.componentOf name).head?.any (fun name => g.edges.contains (name, name)) = true
      ↔ g.Extends name name := by
    simp [componentOf, Extends]
  rw [isCycle, Bool.or_eq_true, hedge, decide_eq_true_eq]
  constructor
  . rintro (hlength | hextends)
    . obtain ⟨other, hother⟩ := List.exists_mem_of_length_pos (Nat.lt_of_succ_lt_succ hlength)
      rw [List.mem_filter, Bool.and_eq_true, bne_iff_ne] at hother
      have hmem : other ∈ g.componentOf name :=
        .tail _ (List.mem_filter.mpr ⟨hother.1, by simpa using hother.2⟩)
      obtain ⟨hforth, hback⟩ := ((mem_componentOf hg).mp hmem).transGen hother.2.1
      exact hforth.trans hback
    . exact .single hextends
  . intro h
    obtain ⟨next, hextends, hback⟩ := TransGen.head'_iff.mp h
    by_cases hnext : next = name
    . rw [hnext] at hextends
      exact .inr hextends
    . have hmem : next ∈ g.componentOf name :=
        (mem_componentOf hg).mpr ⟨.single hextends, hback⟩
      rcases List.mem_cons.mp hmem with rfl | hmem
      . exact absurd rfl hnext
      . exact .inl (Nat.succ_lt_succ (List.length_pos_of_mem hmem))

theorem Connected.isCycle (h : g.Connected name other) (hother : TransGen g.Extends other other) :
    TransGen g.Extends name name :=
  (hother.trans_right h.1).trans_left h.2

theorem findCycle?_eq_some (hg : g.IsClosed) {cycle : List Ident}
    (h : g.findCycle? = some cycle) :
    ∃ name, cycle = g.sort (g.componentOf name) ∧ TransGen g.Extends name name := by
  obtain ⟨component, hfind, rfl⟩ := Option.map_eq_some_iff.mp h
  obtain ⟨name, _, rfl⟩ := eq_componentOf (List.mem_of_find?_eq_some hfind)
  exact ⟨name, rfl, (isCycle_componentOf hg).mp (List.find?_some hfind)⟩

theorem findCycle?_eq_none_iff (hg : g.IsClosed) :
    g.findCycle? = none ↔ ∀ name, ¬ TransGen g.Extends name name := by
  rw [findCycle?, Option.map_eq_none_iff, List.find?_eq_none]
  constructor
  . intro h name hname
    obtain ⟨_, _, hextends⟩ := TransGen.tail'_iff.mp hname
    obtain ⟨root, hroot, hconnected⟩ := exists_componentOf hg
      (List.mem_reverse.mpr (mem_left_search hg (hg hextends).2))
    exact h _ hroot ((isCycle_componentOf hg).mpr (hconnected.isCycle hname))
  . intro h component hcomponent hcycle
    obtain ⟨name, _, rfl⟩ := eq_componentOf hcomponent
    exact h name ((isCycle_componentOf hg).mp hcycle)

end Delegation.InheritanceGraph
