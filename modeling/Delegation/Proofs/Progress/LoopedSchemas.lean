import Delegation.Proofs.Progress.SchemaLoops
import Delegation.Proofs.Grammar.Groups

/-!
This module contains that the parsers of schema files are loops: each of them does what its next
round says, with the bounds in its type left out.
-/

namespace Delegation
namespace SchemaLoops

open Attempt

structure IsParser (loops : SchemaLoops) : Prop where
  next : loops.next = loops
  arguments : ∀ items, loops.arguments items = .of (parseArguments items)
  attr : ∀ sigil start items, loops.attr sigil start items = .of (parseAttribute sigil start items)
  field : ∀ items, loops.field items = .of (parseField items)
  inheritance : ∀ items, loops.inheritance items = .of (parseExtends items)
  model : ∀ start isAbstract items,
    loops.model start isAbstract items = .of (parseModel start isAbstract items)
  file : ∀ ls, loops.file ls = some (SchemaFile.ofLexemes ls)

theorem next_skipGroup (opening : OpenDelimiter) (items : List Item) :
    bounded.next.skipGroup opening items = bounded.skipGroup opening items := by
  dsimp only [next]
  rw [bounded_skipGroup]
  cases items with
  | nil => rfl
  | cons item rest =>
    rw [skipGroupRound]
    split
    . next d hd =>
      -- The library keeps the groups that are open on a stack, the loop enters them.
      have hstack : [(⟨d, item.span⟩ : OpenDelimiter)] = [] ++ [⟨d, item.span⟩] := rfl
      rw [skipGroup_opening hd, hstack, skipGroup_append]
      simp
    . next d hd =>
      by_cases heq : d = opening.delimiter
      . simp [Delegation.skipGroup, hd, heq]
      . simp [Delegation.skipGroup, hd, heq]
    . next hopening hclosing =>
      rw [skipGroup_of_ne hopening hclosing]
      simp

theorem next_path (name : Located String) (items : List Item) :
    bounded.next.path name items = bounded.path name items := by
  dsimp only [next]
  rw [bounded_path]
  cases items with
  | nil =>
    rw [parseAttributePath]
    rfl
  | cons dot rest =>
    rw [parseAttributePath, pathRound]
    split
    . simp
    . rfl

theorem arguments_bounded (items : List Item) :
    bounded.arguments items = of (parseArguments items) := by
  cases items with
  | nil => rfl
  | cons item rest =>
    rw [arguments, parseArguments]
    split
    . simp
    . rfl

theorem attr_bounded (sigil : String) (start : Nat) (items : List Item) :
    bounded.attr sigil start items = of (parseAttribute sigil start items) := by
  simp only [attr, parseAttribute, arguments_bounded, bounded_path, of, lift_bind, lift_andMaybe,
    lift_pure, bind_assoc, pure_bind]
  apply bind_congr
  intro first
  apply bind_congr
  intro name
  apply bind_congr
  rintro ⟨args, rest, h⟩
  cases args with
  | none => rfl
  | some args => rfl

theorem next_fieldAttributes (attributes : List AttributeDecl) (items : List Item) :
    bounded.next.fieldAttributes attributes items = bounded.fieldAttributes attributes items := by
  dsimp only [next]
  rw [bounded_fieldAttributes]
  cases items with
  | nil =>
    rw [parseFieldAttributes]
    simp [fieldAttributesRound]
  | cons item rest =>
    rw [parseFieldAttributes, fieldAttributesRound, attr_bounded]
    split
    . simp
    split
    . simp
    . rfl

theorem field_bounded (items : List Item) : bounded.field items = of (parseField items) := by
  simp [field, parseField, arguments_bounded]

theorem next_superTypes (names : List (Located String)) (items : List Item) :
    bounded.next.superTypes names items = bounded.superTypes names items := by
  dsimp only [next]
  rw [bounded_superTypes, parseSuperTypes, superTypesRound]
  simp only [loop, of, lift_bind, bind_assoc, pure_bind]
  apply bind_congr
  rintro ⟨name, rest, h⟩
  dsimp only
  generalize takeToken? (.sign .comma) rest = taken
  rcases taken with _ | ⟨comma, rest', h'⟩
  . simp
  . simp

theorem inheritance_bounded (items : List Item) :
    bounded.inheritance items = of (parseExtends items) := by
  cases items with
  | nil => rfl
  | cons item rest =>
    rw [inheritance, parseExtends]
    split
    . simp
    . rfl

theorem next_body (opening : Span) (decls : List FieldDecl × List AttributeDecl)
    (items : List Item) :
    bounded.next.body opening decls items = bounded.body opening decls items := by
  dsimp only [next]
  rw [bounded_body]
  cases items with
  | nil =>
    rw [parseModelBody]
    rfl
  | cons item rest =>
    rw [parseModelBody, bodyRound, attr_bounded, field_bounded]
    generalize item.token = token
    split
    . simp
    . simp
    . simp
    . simp

theorem model_bounded (start : Nat) (isAbstract : Bool) (items : List Item) :
    bounded.model start isAbstract items = of (parseModel start isAbstract items) := by
  simp [model, parseModel, inheritance_bounded]

theorem next_skipBlock (items : List Item) :
    bounded.next.skipBlock items = bounded.skipBlock items := by
  dsimp only [next]
  rw [bounded_skipBlock]
  cases items with
  | nil =>
    rw [Delegation.skipBlock]
    rfl
  | cons item rest =>
    rw [Delegation.skipBlock, skipBlockRound]
    split
    . rfl
    . generalize item.token = token
      split
      . next d =>
        by_cases hbrace : d = .brace
        . simp [hbrace]
        . simp [hbrace]
      . simp
      . simp

theorem next_models (models : List ModelDecl) (items : List Item) :
    bounded.next.models models items = bounded.models models items := by
  dsimp only [next]
  rw [bounded_models]
  cases items with
  | nil =>
    rw [parseModels]
    simp [modelsRound]
  | cons item rest =>
    rw [parseModels, modelsRound]
    split
    . next isAbstract keyword hitem => simp [hitem, model_bounded]
    . next hitem => simp [hitem]
    . next hitem => simp [hitem]
    . next hitem => simp [hitem]

theorem next_bounded : bounded.next = bounded :=
  SchemaLoops.ext (by funext opening items; exact next_skipGroup ..)
    (by funext name items; exact next_path ..)
    (by funext attributes items; exact next_fieldAttributes ..)
    (by funext names items; exact next_superTypes ..)
    (by funext opening decls items; exact next_body ..)
    (by funext items; exact next_skipBlock items)
    (by funext models items; exact next_models ..)

theorem file_bounded (ls : List Lexeme) : bounded.file ls = some (SchemaFile.ofLexemes ls) := by
  rw [file, bounded_models, SchemaFile.ofLexemes]
  dsimp only [List.reverse_nil]
  cases parseModels [] (Item.ofLexemes ls) with
  | error failure => rfl
  | ok models => rfl

theorem isParser_bounded : IsParser bounded where
  next := next_bounded
  arguments := arguments_bounded
  attr := attr_bounded
  field := field_bounded
  inheritance := inheritance_bounded
  model := model_bounded
  file := file_bounded

end SchemaLoops
end Delegation
