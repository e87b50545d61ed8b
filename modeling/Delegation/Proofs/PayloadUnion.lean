import Delegation.Client.Payload
import Delegation.Proofs.Acceptance
import Delegation.Proofs.Naming

/-!
This module contains what the payloads of delegates refer to. In a schema that is accepted they tell
their subtypes apart, and none of them refers to itself, not even through others.
-/

namespace Delegation

open Relation

namespace TypeNode

mutual

def references : TypeNode → List String
  | reference name args => name :: referencesOfAll args
  | stringLiteral _ => []
  | object properties => referencesOfProperties properties
  | intersection members => referencesOfAll members
  | union members => referencesOfAll members
  | parenthesized inner => references inner

def referencesOfAll : List TypeNode → List String
  | [] => []
  | node :: nodes => references node ++ referencesOfAll nodes

def referencesOfProperties : List (String × TypeNode) → List String
  | [] => []
  | (_, type) :: properties => references type ++ referencesOfProperties properties

end

theorem referencesOfAll_eq (nodes : List TypeNode) :
    referencesOfAll nodes = nodes.flatMap references := by
  induction nodes with
  | nil => rfl
  | cons node nodes ih => rw [referencesOfAll, ih, List.flatMap_cons]

end TypeNode

namespace Client

theorem mem_references_payloadUnion {name : String} {subtypes : List Ident} {params : List String} :
    name ∈ (payloadUnion subtypes params).references
      ↔ ∃ subtype ∈ subtypes, name = payloadAlias subtype.name ∨ name ∈ params := by
  have harm (subtype : Ident) : (payloadArm params subtype).references
      = payloadAlias subtype.name :: params := by
    simp [payloadArm, discriminator, TypeNode.withArgs, TypeNode.references,
      TypeNode.referencesOfAll_eq, TypeNode.referencesOfProperties, List.flatMap_map]
  simp [payloadUnion, TypeNode.references, TypeNode.referencesOfAll_eq, List.flatMap_map, harm]

theorem escape_name (ident : Ident) : TypeNode.escape ident.name.toList = ident.name.toList := by
  obtain ⟨c, cs, hname, _, hall⟩ := ident.exists_chars
  rw [hname, TypeNode.escape]
  apply (List.flatMap_congr fun x hx => ?_).trans (List.flatMap_singleton' _)
  have hquote : x ≠ '\x27' ∧ x ≠ '\\' := by
    constructor
    all_goals
      rintro rfl
      exact absurd (hall _ hx) (by decide)
  simp [hquote]

theorem render_discriminator_inj {a b : Ident}
    (h : (discriminator a).render = (discriminator b).render) : a = b := by
  apply Ident.ext_name
  rw [← String.toList_inj]
  simpa [discriminator, TypeNode.render, TypeNode.renderProperty, TypeNode.renderProperties,
    escape_name] using h

end Client

namespace DelegateGraph

/--
Whether the payload of the delegate `name` refers to that of the delegate `other`, and not to a type
parameter that is called like it.
-/
def Mentions (g : DelegateGraph) (name other : Ident) : Prop :=
  ∃ r ∈ g.relations, r.delegate = name ∧ g.contains other.name
    ∧ ∃ params, Client.payloadAlias other.name ∈ (Client.payloadUnion r.subtypes params).references
      ∧ Client.payloadAlias other.name ∉ params

variable {m : Model}

theorem relation_of_mem {r : DelegateRelation} (h : r ∈ (ofModel m).relations) :
    r.delegate ∈ m.entities.map (·.name) ∧ r.subtypes.Sublist (m.entities.map (·.name))
      ∧ ∀ subtype ∈ r.subtypes, (InheritanceGraph.ofModel m).Extends subtype r.delegate := by
  obtain ⟨name, hname, rfl⟩ := List.mem_map.mp h
  have hdelegate : name ∈ m.entities.map (·.name) := by
    rw [List.mem_eraseDups] at hname
    exact (List.filter_sublist.map _).subset hname
  refine ⟨hdelegate, List.filter_sublist.map _, ?_⟩
  intro subtype hsubtype
  obtain ⟨e, he, rfl⟩ := List.mem_map.mp hsubtype
  rw [List.mem_filter, Entity.extends?, List.contains_iff_mem] at he
  exact InheritanceGraph.extends_ofModel.mpr ⟨hdelegate, e, he.1, rfl, he.2⟩

theorem extends_of_mentions {name other : Ident} (h : (ofModel m).Mentions name other) :
    (InheritanceGraph.ofModel m).Extends other name := by
  obtain ⟨r, hr, rfl, _, params, hmem, hparams⟩ := h
  obtain ⟨subtype, hsubtype, halias | hparam⟩ := Client.mem_references_payloadUnion.mp hmem
  . rw [payloadAlias_inj] at halias
    rw [Ident.ext_name halias]
    exact (relation_of_mem hr).2.2 subtype hsubtype
  . exact absurd hparam hparams

end DelegateGraph

/--
The payload of a delegate in a schema has one arm for each of its subtypes, which are not the
delegate itself. No payload refers to itself, directly or through those of other delegates.
-/
theorem payloadUnion_acyclic {policy : EmptyDelegatePolicy} {source : List Char} {m : Model}
    {ws : List Diagnostic} (h : loadSchema policy source = .ok (m, ws)) :
    (∀ r ∈ (DelegateGraph.ofModel m).relations, r.subtypes.Nodup ∧ r.delegate ∉ r.subtypes
        ∧ (r.subtypes.map fun subtype => (Client.discriminator subtype).render).Nodup)
      ∧ ∀ name, ¬ TransGen (DelegateGraph.ofModel m).Mentions name name := by
  obtain ⟨file, _, hdeclares, hacceptable, _⟩ := exists_file_of_loadSchema h
  have hnames := hacceptable.toHasNames
  have hacyclic := (hdeclares.acyclic_iff hnames).mpr hacceptable.acyclic
  constructor
  . intro r hr
    obtain ⟨_, hsublist, hextends⟩ := DelegateGraph.relation_of_mem hr
    have hnodup := (hdeclares.nodup hnames).sublist hsublist
    refine ⟨hnodup, ?_, hnodup.map fun _ _ => Client.render_discriminator_inj⟩
    exact fun hself => hacyclic r.delegate (.single (hextends r.delegate hself))
  . intro name hcycle
    apply hacyclic name
    rw [← transGen_swap]
    exact TransGen.mono (fun _ _ => DelegateGraph.extends_of_mentions) _ _ hcycle

theorem payloadUnion_acyclic_nested :
    let source := "model A \x7b @@delegate(b) \x7d\n".toList
      ++ "model C extends A, A \x7b @@delegate(d) \x7d model E extends C, A \x7b \x7d\n".toList
    let a : Ident := ⟨"A", by decide⟩
    let c : Ident := ⟨"C", by decide⟩
    let e : Ident := ⟨"E", by decide⟩
    let m : Model := ⟨[⟨a, false, [], [⟨"@@delegate", some "b"⟩], []⟩,
      ⟨c, false, [], [⟨"@@delegate", some "d"⟩], [a, a]⟩, ⟨e, false, [], [], [c, a]⟩]⟩
    let g := DelegateGraph.ofModel m
    loadSchema .reject source = .ok (m, []) ∧ g.relations = [⟨a, [c, e]⟩, ⟨c, [e]⟩]
      ∧ g.Mentions a c ∧ ∀ name, ¬ TransGen g.Mentions name name := by
  intro source a c e m g
  have h : loadSchema .reject source = .ok (m, []) := by decide +kernel
  have hrelations : g.relations = [⟨a, [c, e]⟩, ⟨c, [e]⟩] := by decide +kernel
  refine ⟨h, hrelations, ⟨⟨a, [c, e]⟩, ?_, rfl, by decide +kernel, ["F"], ?_, by decide⟩,
    (payloadUnion_acyclic h).2⟩
  . simp [hrelations]
  . exact Client.mem_references_payloadUnion.mpr ⟨c, .head _, .inl rfl⟩

end Delegation
