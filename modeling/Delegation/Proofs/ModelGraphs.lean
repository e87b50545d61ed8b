import Delegation.Model.Delegates
import Delegation.Proofs.Elaboration
import Delegation.Proofs.Inheritance

/-!
This module contains what the two graphs of a model say of it: a cycle that is found is all of one
group of entities that extend each other, and the delegates have the inheritance the other way
around. No name has to be declared only once for that.
-/

namespace Delegation

open Relation

/--
Whether the members of `names` are in the order in which they first come up in `all`.
-/
def AreInOrderOf (all names : List Ident) : Prop :=
  names.Pairwise fun a b => all.idxOf a < all.idxOf b

theorem AreInOrderOf.nodup {all names : List Ident} (h : AreInOrderOf all names) : names.Nodup :=
  List.Pairwise.imp (by rintro a _ hlt rfl; exact lt_irrefl _ hlt) h

theorem idxOf_lt_of_filter {keep : Ident → Bool} {all : List Ident} {a b : Ident} (ha : keep a)
    (hb : keep b) (h : (all.filter keep).idxOf a < (all.filter keep).idxOf b) :
    all.idxOf a < all.idxOf b := by
  induction all with
  | nil => simp at h
  | cons name all ih =>
    by_cases hname : keep name
    . rw [List.filter_cons_of_pos hname] at h
      simp only [List.idxOf_cons] at h ⊢
      grind
    . rw [List.filter_cons_of_neg hname] at h
      have hane : (name == a) = false := by grind
      have hbne : (name == b) = false := by grind
      simp only [List.idxOf_cons, hane, hbne, cond_false]
      exact Nat.succ_lt_succ (ih h)

theorem areInOrderOf_eraseDups (all : List Ident) : AreInOrderOf all all.eraseDups := by
  match all with
  | [] => exact .nil
  | name :: all =>
    rw [List.eraseDups_cons]
    apply List.pairwise_cons.mpr
    have hne : ∀ other ∈ (all.filter fun a => !a == name).eraseDups, (!other == name) = true :=
      fun other hother => (List.mem_filter.mp (List.mem_eraseDups.mp hother)).2
    constructor
    . intro other hother
      have := hne other hother
      simp only [List.idxOf_cons]
      grind
    . refine (areInOrderOf_eraseDups (all.filter fun a => !a == name)).imp_of_mem ?_
      intro a b ha hb hlt
      have := idxOf_lt_of_filter (hne a ha) (hne b hb) hlt
      have := hne a ha
      have := hne b hb
      simp only [List.idxOf_cons]
      grind
termination_by all.length
decreasing_by exact Nat.lt_succ_of_le (List.length_filter_le _ _)

namespace Model

def Extends (m : Model) (name superType : Ident) : Prop :=
  superType ∈ m.entities.map (·.name) ∧ ∃ e ∈ m.entities, e.name = name ∧ superType ∈ e.superTypes

/--
Whether `cycle` is all of one group of entities that extend each other, directly or through others,
in the order of their first declarations.
-/
structure IsCycle (m : Model) (cycle : List Ident) : Prop where
  ne_nil : cycle ≠ []
  declared : cycle ⊆ m.entities.map (·.name)
  connected : ∀ a ∈ cycle, ∀ b ∈ cycle, TransGen m.Extends a b
  maximal : ∀ a ∈ cycle, ∀ b,
    ReflTransGen m.Extends a b → ReflTransGen m.Extends b a → b ∈ cycle
  nodup : cycle.Nodup
  ordered : AreInOrderOf (m.entities.map (·.name)) cycle

end Model

namespace InheritanceGraph

variable {m : Model}

theorem extends_ofModel_eq (m : Model) : (ofModel m).Extends = m.Extends := by
  funext name superType
  exact propext extends_ofModel

theorem areInOrderOf_sort (m : Model) (component : List Ident) :
    AreInOrderOf (m.entities.map (·.name)) ((ofModel m).sort component) :=
  (areInOrderOf_eraseDups _).sublist List.filter_sublist

theorem mem_sort {component : List Ident} {name : Ident} :
    name ∈ (ofModel m).sort component ↔ name ∈ m.entities.map (·.name) ∧ name ∈ component := by
  simp [InheritanceGraph.sort, ofModel]

theorem isCycle_sort {name : Ident} (h : TransGen m.Extends name name) :
    m.IsCycle ((ofModel m).sort ((ofModel m).componentOf name)) := by
  have hmem (other : Ident) : other ∈ (ofModel m).sort ((ofModel m).componentOf name)
      ↔ TransGen m.Extends name other ∧ TransGen m.Extends other name := by
    rw [mem_sort, mem_componentOf (isClosed_ofModel m), Connected, extends_ofModel_eq]
    constructor
    . rintro ⟨_, hforth, hback⟩
      exact ⟨h.trans_left hforth, h.trans_right hback⟩
    . rintro ⟨hforth, hback⟩
      obtain ⟨_, _, hdeclared, _⟩ := TransGen.tail'_iff.mp hforth
      exact ⟨hdeclared, hforth.to_reflTransGen, hback.to_reflTransGen⟩
  constructor
  . exact List.ne_nil_of_mem ((hmem name).mpr ⟨h, h⟩)
  . intro other hother
    exact (mem_sort.mp hother).1
  . intro a ha b hb
    exact ((hmem a).mp ha).2.trans ((hmem b).mp hb).1
  . intro a ha b hab hba
    obtain ⟨hforth, hback⟩ := (hmem a).mp ha
    exact (hmem b).mpr ⟨hforth.trans_left hab, hback.trans_right hba⟩
  . exact (areInOrderOf_sort m _).nodup
  . exact areInOrderOf_sort m _

theorem isCycle_of_findCycle? {cycle : List Ident} (h : (ofModel m).findCycle? = some cycle) :
    m.IsCycle cycle := by
  obtain ⟨name, rfl, hcycle⟩ := findCycle?_eq_some (isClosed_ofModel m) h
  rw [extends_ofModel_eq] at hcycle
  exact isCycle_sort hcycle

/--
A cycle is found exactly if some entity extends itself, directly or through others, and what is
found is all of one group of entities that extend each other.
-/
theorem findCycle?_ofModel (m : Model) :
    ((ofModel m).findCycle?.isSome ↔ ∃ name, TransGen m.Extends name name)
      ∧ ∀ cycle, (ofModel m).findCycle? = some cycle → m.IsCycle cycle := by
  constructor
  . rw [Option.isSome_iff_ne_none, Ne, findCycle?_eq_none_iff (isClosed_ofModel m),
      extends_ofModel_eq, not_forall_not]
  . exact fun _ => isCycle_of_findCycle?

theorem superTypes_ofModel (m : Model) (name : Ident) :
    (ofModel m).superTypes name = (m.entities.filter (·.name = name)).flatMap fun e =>
      e.superTypes.filter (· ∈ m.entities.map (·.name)) := by
  simp only [superTypes, neighbors, List.reverse_reverse, ofModel]
  generalize m.entities.map (·.name) = declared
  induction m.entities with
  | nil => rfl
  | cons e es ih =>
    rw [List.flatMap_cons, List.filter_append, List.map_append, ih, List.filter_map, List.map_map]
    by_cases h : e.name = name
    . simp [h, Function.comp_def]
    . simp [h, Function.comp_def]

theorem mem_superTypes_ofModel {name superType : Ident} :
    superType ∈ (ofModel m).superTypes name ↔ m.Extends name superType := by
  rw [mem_superTypes, extends_ofModel_eq]

end InheritanceGraph

namespace DelegateGraph

/--
Whether `g` has all delegates of `m`, in the order of their first declarations, each with the
entities that extend it, in the order of the model.
-/
structure IsOf (g : DelegateGraph) (m : Model) : Prop where
  mem_delegates : ∀ name, name ∈ g.relations.map (·.delegate)
    ↔ ∃ e ∈ m.entities, (∃ mark ∈ e.attributes, mark.name = "@@delegate") ∧ e.name = name
  nodup : (g.relations.map (·.delegate)).Nodup
  ordered : AreInOrderOf
    ((m.entities.filter fun e => e.attributes.any (·.name = "@@delegate")).map (·.name))
    (g.relations.map (·.delegate))
  subtypes_eq : ∀ r ∈ g.relations,
    r.subtypes = (m.entities.filter fun e => r.delegate ∈ e.superTypes).map (·.name)
  subtypes?_eq : ∀ r ∈ g.relations, g.subtypes? r.delegate.name = some r.subtypes
  subtypes?_eq_none : ∀ name : Ident, name ∉ g.relations.map (·.delegate) →
    g.subtypes? name.name = none

variable {m : Model}

theorem isDelegate_eq (e : Entity) :
    e.isDelegate = e.attributes.any (·.name = "@@delegate") := by
  rw [Bool.eq_iff_iff, Entity.isDelegate, Entity.delegateMark?, List.find?_isSome, List.any_eq_true]
  simp only [beq_iff_eq, decide_eq_true_iff]

theorem delegates_ofModel (m : Model) :
    (ofModel m).relations.map (·.delegate) = (m.delegates.map (·.name)).eraseDups := by
  simp [ofModel, relationOf, Function.comp_def]

theorem subtypes_of_mem {r : DelegateRelation} (hr : r ∈ (ofModel m).relations) :
    r.subtypes = (m.entities.filter fun e => r.delegate ∈ e.superTypes).map (·.name) := by
  obtain ⟨name, _, rfl⟩ := List.mem_map.mp hr
  simp [relationOf, Entity.extends?, List.contains_eq_mem]

theorem find?_of_mem {g : DelegateGraph} (hnodup : (g.relations.map (·.delegate)).Nodup)
    {r : DelegateRelation} (hr : r ∈ g.relations) :
    g.relations.find? (·.delegate.name == r.delegate.name) = some r := by
  obtain ⟨found, hfound⟩ : ∃ found, g.relations.find? (·.delegate.name == r.delegate.name)
      = some found := by
    apply Option.isSome_iff_exists.mp
    exact List.find?_isSome.mpr ⟨r, hr, beq_self_eq_true _⟩
  have hname := List.find?_some hfound
  rw [beq_iff_eq] at hname
  have hsame : found = r :=
    List.inj_on_of_nodup_map hnodup (List.mem_of_find?_eq_some hfound) hr (Ident.ext_name hname)
  rw [hfound, hsame]

theorem subtypes?_of_mem {g : DelegateGraph} (hnodup : (g.relations.map (·.delegate)).Nodup)
    {r : DelegateRelation} (hr : r ∈ g.relations) :
    g.subtypes? r.delegate.name = some r.subtypes := by
  rw [subtypes?, find?_of_mem hnodup hr, Option.map_some]

theorem subtypes?_eq_none_of_notMem {g : DelegateGraph} {name : Ident}
    (h : name ∉ g.relations.map (·.delegate)) : g.subtypes? name.name = none := by
  rw [subtypes?, Option.map_eq_none_iff, List.find?_eq_none]
  intro r hr heq
  have : r.delegate = name := Ident.ext_name (beq_iff_eq.mp heq)
  exact h (List.mem_map.mpr ⟨r, hr, this⟩)

theorem isOf_ofModel (m : Model) : (ofModel m).IsOf m := by
  have hordered : AreInOrderOf (m.delegates.map (·.name))
      ((ofModel m).relations.map (·.delegate)) := by
    rw [delegates_ofModel]
    exact areInOrderOf_eraseDups _
  constructor
  . intro name
    rw [delegates_ofModel, List.mem_eraseDups]
    simp [Model.delegates, isDelegate_eq, and_assoc]
  . exact hordered.nodup
  . simpa only [Model.delegates, isDelegate_eq] using hordered
  . exact fun _ => subtypes_of_mem
  . exact fun _ => subtypes?_of_mem hordered.nodup
  . exact fun _ => subtypes?_eq_none_of_notMem

/--
The delegates of a model are its inheritance the other way around: what a delegate has as its
subtypes are the entities that have the delegate among their super types.
-/
theorem ofModel_isInverse (m : Model) :
    (ofModel m).IsOf m
      ∧ (∀ name, (InheritanceGraph.ofModel m).superTypes name =
        (m.entities.filter (·.name = name)).flatMap fun e =>
          e.superTypes.filter (· ∈ m.entities.map (·.name)))
      ∧ ∀ r ∈ (ofModel m).relations, ∀ name,
        name ∈ r.subtypes ↔ r.delegate ∈ (InheritanceGraph.ofModel m).superTypes name := by
  refine ⟨isOf_ofModel m, InheritanceGraph.superTypes_ofModel m, ?_⟩
  intro r hr name
  -- A delegate is declared, so that no edge to it is left out.
  have hdeclared : r.delegate ∈ m.entities.map (·.name) := by
    obtain ⟨e, he, _, hname⟩ := ((isOf_ofModel m).mem_delegates _).mp (List.mem_map_of_mem hr)
    exact List.mem_map.mpr ⟨e, he, hname⟩
  rw [InheritanceGraph.mem_superTypes_ofModel, subtypes_of_mem hr, Model.Extends,
    and_iff_right hdeclared]
  simp only [List.mem_map, List.mem_filter, decide_eq_true_iff]
  constructor
  . rintro ⟨e, ⟨he, hextends⟩, hname⟩
    exact ⟨e, he, hname, hextends⟩
  . rintro ⟨e, he, hname, hextends⟩
    exact ⟨e, ⟨he, hextends⟩, hname⟩

end DelegateGraph
end Delegation
