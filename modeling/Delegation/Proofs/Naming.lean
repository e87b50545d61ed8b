import Delegation.Client.Payload
import Mathlib.Data.List.Basic

/-!
This module contains what the names of a generated client say about a model: a name is taken apart
exactly if it was put together that way.
-/

namespace Delegation

theorem dropStart?_eq_some {start name rest : String} :
    dropStart? start name = some rest ↔ name = start ++ rest := by
  simp only [dropStart?, Option.map_eq_some_iff, List.isPrefixOf?_eq_some_iff_append_eq]
  constructor
  . rintro ⟨cs, h, rfl⟩
    rw [← String.toList_inj, String.toList_append, String.toList_ofList, h]
  . rintro rfl
    exact ⟨rest.toList, by simp, by simp⟩

theorem dropEnding?_eq_some {ending name rest : String} :
    dropEnding? ending name = some rest ↔ name = rest ++ ending := by
  simp only [dropEnding?, Option.map_eq_some_iff, List.isSuffixOf?_eq_some_iff_append_eq]
  constructor
  . rintro ⟨cs, h, rfl⟩
    rw [← String.toList_inj, String.toList_append, String.toList_ofList, h]
  . rintro rfl
    exact ⟨rest.toList, by simp, by simp⟩

theorem Ident.name_ne_empty (i : Ident) : i.name ≠ "" := by
  intro h
  have := i.isIdent_name
  rw [h] at this
  simp [isIdent] at this

namespace Client

theorem isAuxMember_eq (name : String) :
    isAuxMember name = "poly_aux_".toList.isPrefixOf name.toList := by
  simp [isAuxMember, dropStart?]

theorem entityBefore?_eq_some {ending name entity : String} :
    entityBefore? ending name = some entity ↔ name = entity ++ ending ∧ entity ≠ "" := by
  simp [entityBefore?, Option.filter_eq_some_iff, dropEnding?_eq_some]

theorem payloadEntity?_eq_some {typeName entity : String} :
    payloadEntity? typeName = some entity ↔ typeName = payloadAlias entity ∧ entity ≠ "" := by
  simp only [payloadEntity?, bind, Option.bind_eq_some_iff, dropStart?_eq_some,
    entityBefore?_eq_some, payloadAlias]
  constructor
  . rintro ⟨rest, rfl, rfl, h⟩
    exact ⟨by rw [String.append_assoc], h⟩
  . rintro ⟨rfl, h⟩
    exact ⟨entity ++ "Payload", by rw [String.append_assoc], rfl, h⟩

end Client

namespace DelegateGraph

variable (g : DelegateGraph)

theorem contains_eq (name : String) :
    g.contains name = g.relations.any (·.delegate.name == name) := by
  simp only [contains, subtypes?, Option.isSome_map]
  induction g.relations with
  | nil => rfl
  | cons r rs ih => cases h : r.delegate.name == name <;> simp [h, ih]

theorem any_entityBefore? (ending name : String) :
    (Client.entityBefore? ending name).any g.contains
      = g.relations.any fun r => name == r.delegate.name ++ ending := by
  rw [Bool.eq_iff_iff]
  simp only [Option.any_eq_true, Client.entityBefore?_eq_some, contains_eq, List.any_eq_true,
    beq_iff_eq]
  constructor
  . rintro ⟨entity, ⟨rfl, _⟩, r, hr, rfl⟩
    exact ⟨r, hr, rfl⟩
  . rintro ⟨r, hr, rfl⟩
    exact ⟨r.delegate.name, ⟨rfl, r.delegate.name_ne_empty⟩, r, hr, rfl⟩

theorem payloadAlias_inj {a b : String} : Client.payloadAlias a = Client.payloadAlias b ↔ a = b := by
  simp [Client.payloadAlias, ← String.toList_inj]

theorem find?_payloadAlias {typeName : String} :
    (g.relations.find? fun r => typeName == Client.payloadAlias r.delegate.name)
      = (Client.payloadEntity? typeName).bind fun entity =>
          g.relations.find? (·.delegate.name == entity) := by
  cases h : Client.payloadEntity? typeName with
  | none =>
    apply List.find?_eq_none.mpr
    intro r _ hr
    have := Client.payloadEntity?_eq_some.mpr ⟨beq_iff_eq.mp hr, r.delegate.name_ne_empty⟩
    simp [h] at this
  | some entity =>
    obtain ⟨rfl, _⟩ := Client.payloadEntity?_eq_some.mp h
    simp only [Option.bind_some]
    congr
    funext r
    rw [Bool.eq_iff_iff, beq_iff_eq, beq_iff_eq, payloadAlias_inj]
    exact eq_comm

end DelegateGraph
end Delegation
