import Delegation.Proofs.Progress.LoopedSchemas
import Delegation.Proofs.Grammar.Schema

/-!
This module contains that the parser of schema files gets on, and that it needs no more calls than
there are items.
-/

namespace Delegation
namespace SchemaLoops

open Attempt

/--
What is read of the items wherever a loop goes round once more, and wherever something is parsed
that has to be there. A group is entered behind the delimiter that opens it, an attribute behind its
sigil, and a model behind its keyword. A block is entered behind its first word.
-/
structure GetsOn (loops : SchemaLoops) : Prop where
  skipGroupRound : ∀ opening items, Advances items (loops.skipGroupRound opening items)
  pathRound : ∀ name items, Advances items (pathRound name items)
  fieldAttributesRound : ∀ attributes items,
    Advances items (loops.fieldAttributesRound attributes items)
  superTypesRound : ∀ names items, Advances items (superTypesRound names items)
  bodyRound : ∀ opening decls items, Advances items (loops.bodyRound opening decls items)
  skipBlockRound : ∀ items, Advances items (loops.skipBlockRound items)
  modelsRound : ∀ models items, Advances items (loops.modelsRound models items)
  skipGroup : ∀ opening items, Consumes items (loops.skipGroup opening items)
  attr : ∀ sigil start items, Consumes items (loops.attr sigil start items)
  field : ∀ items, Consumes items (loops.field items)
  model : ∀ start isAbstract items, Consumes items (loops.model start isAbstract items)
  skipBlock : ∀ item rest, Consumes (item :: rest) (loops.skipBlock rest)

theorem consumes_skipGroup (opening : OpenDelimiter) (items : List Item) :
    Consumes items (bounded.skipGroup opening items) :=
  consumes_of fun p h => .of_suffix (rest_suffix_of_skipGroup h) p.rest_lt

theorem advances_skipGroupRound (opening : OpenDelimiter) (items : List Item) :
    Advances items (bounded.skipGroupRound opening items) := by
  cases items with
  | nil => exact .fails _
  | cons item rest =>
    rw [skipGroupRound]
    split
    . next d _ =>
      have hgroup := consumes_skipGroup ⟨d, item.span⟩ rest
      exact (hgroup.cons item).round fun _ _ h => .reads h
    . split
      . exact .leaves
      . exact .fails _
    . exact .reads (.of_suffix_tail (List.suffix_refl _))

theorem consumes_parseName (what : Expectation) (items : List Item) :
    Consumes items (of (parseName what items)) :=
  consumes_of fun p h => .of_suffix (rest_suffix_of_parseName h) p.rest_lt

theorem advances_pathRound (name : Located String) (items : List Item) :
    Advances items (pathRound name items) := by
  cases items with
  | nil => exact .leaves
  | cons dot rest =>
    rw [pathRound]
    split
    . have hname := consumes_parseName .attributeName rest
      exact (hname.cons dot).round fun _ _ h => .reads h
    . exact .leaves

theorem consumes_attr (sigil : String) (start : Nat) (items : List Item) :
    Consumes items (bounded.attr sigil start items) := by
  rw [attr_bounded]
  exact consumes_of fun p h => .of_suffix (parseAttribute_eq_ok h).1 p.rest_lt

theorem advances_fieldAttributesRound (attributes : List AttributeDecl) (items : List Item) :
    Advances items (bounded.fieldAttributesRound attributes items) := by
  cases items with
  | nil => exact .leaves
  | cons item rest =>
    rw [fieldAttributesRound]
    split
    . exact .leaves
    split
    . have hattr := consumes_attr "@" item.span.start rest
      exact (hattr.cons item).round fun _ _ h => .reads h
    . exact .fails _

theorem consumes_field (items : List Item) : Consumes items (bounded.field items) := by
  rw [field_bounded]
  exact consumes_of fun p h => .of_suffix (parseField_eq_ok h).1 p.rest_lt

theorem advances_superTypesRound (names : List (Located String)) (items : List Item) :
    Advances items (superTypesRound names items) := by
  refine (consumes_parseName .superName items).round fun name rest h => ?_
  dsimp only
  split
  . next comma hcomma =>
    obtain ⟨item, read, rfl⟩ := h
    have hrest := (takeToken?_eq_some hcomma).1
    refine .reads (.of_suffix_tail ⟨read ++ [comma.value], ?_⟩)
    rw [List.append_assoc]
    exact congrArg (read ++ ·) hrest.symm
  . exact .leaves

theorem advances_bodyRound (opening : Span) (decls : List FieldDecl × List AttributeDecl)
    (items : List Item) : Advances items (bounded.bodyRound opening decls items) := by
  cases items with
  | nil => exact .fails _
  | cons item rest =>
    rw [bodyRound]
    split
    . exact .leaves
    . have hattr := consumes_attr "@@" item.span.start rest
      exact (hattr.cons item).round fun _ _ h => .reads h
    . exact (consumes_field (item :: rest)).round fun _ _ h => .reads h
    . exact .fails _

theorem consumes_model (start : Nat) (isAbstract : Bool) (items : List Item) :
    Consumes items (bounded.model start isAbstract items) := by
  rw [model_bounded]
  exact consumes_of fun p h => .of_suffix (parseModel_eq_ok h).1 p.rest_lt

theorem advances_skipBlockRound (items : List Item) :
    Advances items (bounded.skipBlockRound items) := by
  cases items with
  | nil => exact .leaves
  | cons item rest =>
    rw [skipBlockRound]
    split
    . exact .leaves
    split
    . next d _ =>
      have hgroup := consumes_skipGroup ⟨d, item.span⟩ rest
      refine (hgroup.cons item).round fun _ _ h => ?_
      dsimp only
      split
      . exact .leaves
      . exact .reads h
    . exact .fails _
    . exact .reads (.of_suffix_tail (List.suffix_refl _))

theorem consumes_skipBlock (item : Item) (rest : List Item) :
    Consumes (item :: rest) (bounded.skipBlock rest) :=
  consumes_of fun _ h => .of_suffix_tail (rest_suffix_of_skipBlock h)

theorem advances_modelsRound (models : List ModelDecl) (items : List Item) :
    Advances items (bounded.modelsRound models items) := by
  cases items with
  | nil => exact .leaves
  | cons item rest =>
    rw [modelsRound]
    split
    . next isAbstract keyword hitem =>
      rw [model_bounded]
      refine (consumes_of fun p h => .of_suffix_tail ?_).round fun _ _ h => .reads h
      exact (parseModel_eq_ok h).1.trans (schemaItem_eq_model hitem)
    . exact .reads (.of_suffix_tail (List.dropWhile_suffix _))
    . exact (consumes_skipBlock item rest).round fun _ _ h => .reads h
    . exact .fails _

theorem getsOn_bounded : GetsOn bounded where
  skipGroupRound := advances_skipGroupRound
  pathRound := advances_pathRound
  fieldAttributesRound := advances_fieldAttributesRound
  superTypesRound := advances_superTypesRound
  bodyRound := advances_bodyRound
  skipBlockRound := advances_skipBlockRound
  modelsRound := advances_modelsRound
  skipGroup := consumes_skipGroup
  attr := consumes_attr
  field := consumes_field
  model := consumes_model
  skipBlock := consumes_skipBlock

structure AgreeBelow (calls : Nat) (loops loops' : SchemaLoops) : Prop where
  skipGroup : ∀ {items}, items.length < calls → ∀ opening,
    loops.skipGroup opening items = loops'.skipGroup opening items
  path : ∀ {items}, items.length < calls → ∀ name, loops.path name items = loops'.path name items
  fieldAttributes : ∀ {items}, items.length < calls → ∀ attributes,
    loops.fieldAttributes attributes items = loops'.fieldAttributes attributes items
  superTypes : ∀ {items}, items.length < calls → ∀ names,
    loops.superTypes names items = loops'.superTypes names items
  body : ∀ {items}, items.length < calls → ∀ opening decls,
    loops.body opening decls items = loops'.body opening decls items
  skipBlock : ∀ {items}, items.length < calls → loops.skipBlock items = loops'.skipBlock items
  models : ∀ {items}, items.length < calls → ∀ models,
    loops.models models items = loops'.models models items

namespace AgreeBelow

variable {calls : Nat} {loops : SchemaLoops} {items rest : List Item}

section

variable (h : AgreeBelow calls loops bounded)

include h

theorem skipGroupRound (hitems : items.length < calls + 1) (opening : OpenDelimiter) :
    loops.skipGroupRound opening items = bounded.skipGroupRound opening items := by
  cases items with
  | nil => rfl
  | cons item rest =>
    have hrest : rest.length < calls := Nat.lt_of_succ_lt_succ hitems
    simp only [SchemaLoops.skipGroupRound, h.skipGroup hrest]

theorem arguments (hitems : items.length < calls) :
    loops.arguments items = bounded.arguments items := by
  cases items with
  | nil => rfl
  | cons item rest =>
    have hrest : rest.length < calls := Nat.lt_of_succ_lt hitems
    simp only [SchemaLoops.arguments, h.skipGroup hrest]

theorem attr (hitems : items.length < calls) (sigil : String) (start : Nat) :
    loops.attr sigil start items = bounded.attr sigil start items := by
  unfold SchemaLoops.attr
  apply of_bind_congr
  intro first rest₁ h₁
  dsimp only
  rw [h.path (by omega), bounded_path]
  apply of_bind_congr
  intro name rest₂ h₂
  have h₂ : rest₂.length < calls := by omega
  simp only [h.arguments h₂]

theorem fieldAttributesRound (hitems : items.length < calls + 1)
    (attributes : List AttributeDecl) :
    loops.fieldAttributesRound attributes items
      = bounded.fieldAttributesRound attributes items := by
  cases items with
  | nil => rfl
  | cons item rest =>
    have hrest : rest.length < calls := Nat.lt_of_succ_lt_succ hitems
    simp only [SchemaLoops.fieldAttributesRound, h.attr hrest]

theorem field (hitems : items.length < calls + 1) : loops.field items = bounded.field items := by
  unfold SchemaLoops.field
  apply of_bind_congr
  intro name rest₁ h₁
  apply of_bind_congr
  intro typeName rest₂ h₂
  dsimp only at h₂ ⊢
  rw [h.arguments (by omega), arguments_bounded]
  apply of_bind_congr
  intro args rest₃ h₃
  apply of_bind_congr
  intro isArray rest₄ h₄
  dsimp only at h₄
  have hoptional := (optionalType rest₄).rest_lt
  have hattributes : (optionalType rest₄).rest.length < calls := by omega
  simp only [h.fieldAttributes hattributes]

theorem inheritance (hitems : items.length < calls) :
    loops.inheritance items = bounded.inheritance items := by
  cases items with
  | nil => rfl
  | cons item rest =>
    have hrest : rest.length < calls := Nat.lt_of_succ_lt hitems
    simp only [SchemaLoops.inheritance, h.superTypes hrest]

theorem bodyRound (hitems : items.length < calls + 1) (opening : Span)
    (decls : List FieldDecl × List AttributeDecl) :
    loops.bodyRound opening decls items = bounded.bodyRound opening decls items := by
  cases items with
  | nil => rfl
  | cons item rest =>
    have hrest : rest.length < calls := Nat.lt_of_succ_lt_succ hitems
    simp only [SchemaLoops.bodyRound, h.attr hrest, h.field hitems]

theorem model (hitems : items.length < calls) (start : Nat) (isAbstract : Bool) :
    loops.model start isAbstract items = bounded.model start isAbstract items := by
  unfold SchemaLoops.model
  apply of_bind_congr
  intro name rest₁ h₁
  dsimp only
  rw [h.inheritance (by omega), inheritance_bounded]
  apply of_bind_congr
  intro superTypes rest₂ h₂
  apply of_bind_congr
  intro opening rest₃ h₃
  dsimp only at h₃
  have h₃ : rest₃.length < calls := by omega
  simp only [h.body h₃]

theorem skipBlockRound (hitems : items.length < calls + 1) :
    loops.skipBlockRound items = bounded.skipBlockRound items := by
  cases items with
  | nil => rfl
  | cons item rest =>
    have hrest : rest.length < calls := Nat.lt_of_succ_lt_succ hitems
    simp only [SchemaLoops.skipBlockRound, h.skipGroup hrest]

theorem modelsRound (hitems : items.length < calls + 1) (models : List ModelDecl) :
    loops.modelsRound models items = bounded.modelsRound models items := by
  cases items with
  | nil => rfl
  | cons item rest =>
    have hrest : rest.length < calls := Nat.lt_of_succ_lt_succ hitems
    rw [SchemaLoops.modelsRound, SchemaLoops.modelsRound]
    split
    . next isAbstract keyword _ =>
      have hkeyword : keyword.rest.length < calls :=
        Nat.lt_of_lt_of_le keyword.rest_lt (Nat.le_of_lt_succ hitems)
      simp only [h.model hkeyword]
    . rfl
    . simp only [h.skipBlock hrest]
    . rfl

theorem next : AgreeBelow (calls + 1) loops.next bounded.next where
  skipGroup hitems opening :=
    loop_congr (h.skipGroupRound hitems _) (advances_skipGroupRound _ _)
      fun _ rest hlt => h.skipGroup (by omega) _
  path hitems name :=
    loop_congr rfl (advances_pathRound _ _) fun name rest hlt => h.path (by omega) _
  fieldAttributes hitems attributes :=
    loop_congr (h.fieldAttributesRound hitems _) (advances_fieldAttributesRound _ _)
      fun attributes rest hlt => h.fieldAttributes (by omega) _
  superTypes hitems names :=
    loop_congr rfl (advances_superTypesRound _ _) fun names rest hlt => h.superTypes (by omega) _
  body hitems opening decls :=
    loop_congr (h.bodyRound hitems ..) (advances_bodyRound _ _ _)
      fun decls rest hlt => h.body (by omega) ..
  skipBlock hitems :=
    loop_congr (h.skipBlockRound hitems) (advances_skipBlockRound _)
      fun _ rest hlt => h.skipBlock (by omega)
  models hitems models :=
    loop_congr (h.modelsRound hitems _) (advances_modelsRound _ _)
      fun models rest hlt => h.models (by omega) _

end

end AgreeBelow

theorem within_agreeBelow (calls : Nat) : AgreeBelow calls (within calls) bounded := by
  induction calls with
  | zero => constructor <;> intro items hitems <;> cases hitems
  | succ calls ih =>
    have hnext := ih.next
    rwa [next_bounded] at hnext

theorem file_within {ls : List Lexeme} {calls : Nat} (h : (Item.ofLexemes ls).length < calls) :
    (within calls).file ls = some (SchemaFile.ofLexemes ls) := by
  rw [← file_bounded, file, file, (within_agreeBelow calls).models h]

end SchemaLoops
end Delegation
