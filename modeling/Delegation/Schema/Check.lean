import Delegation.Diagnostic
import Delegation.Model.Delegates
import Delegation.Model.Inheritance
import Delegation.Schema.File

/-!
This module contains the checks of a schema: that its names can be used and are defined, and that
its inheritance makes sense.
-/

namespace Delegation

def identifierProblem (what : String) (name : Located String) : List Diagnostic :=
  match Ident.ofName name.value with
  | .ok _ => []
  | .error e =>
    [{ severity := .error
       code := some .invalidIdentifier
       message := "invalid " ++ what ++ " name `" ++ name.value ++ "`"
       labels := [⟨name.span, e.message, true⟩]
       help := some "names may only contain ASCII letters, digits and `_`" }]

namespace ModelDecl

def duplicateProblem (earlier : List ModelDecl) (m : ModelDecl) : List Diagnostic :=
  match earlier.find? (·.name.value == m.name.value) with
  | none => []
  | some first =>
    [{ severity := .error
       code := some .duplicateEntity
       message := "model `" ++ m.name.value ++ "` is defined multiple times"
       labels :=
        [⟨m.name.span, "duplicate definition", true⟩,
         ⟨first.name.span, "first defined here", false⟩]
       help := some "rename or remove one of the models" }]

def nameProblems (earlier : List ModelDecl) (m : ModelDecl) : List Diagnostic :=
  identifierProblem "model" m.name
    ++ m.fields.flatMap (identifierProblem "field" ·.name)
    ++ m.duplicateProblem earlier

def superProblems (declared : List String) (m : ModelDecl) : List Diagnostic :=
  (m.superTypes.filter (!declared.contains ·.value)).map fun superType =>
    { severity := .error
      code := some .undefinedSuper
      message := "model `" ++ m.name.value ++ "` extends undefined model `" ++ superType.value
        ++ "`"
      labels := [⟨superType.span, "not defined", true⟩]
      help := some ("declare `model " ++ superType.value
        ++ "` or remove it from the `extends` list") }

end ModelDecl

namespace SchemaFile

/--
All problems with the names of a schema: first those of its declarations, then those of its
references.
-/
def nameProblems (file : SchemaFile) : List Diagnostic :=
  declarations [] file.models
    ++ file.models.flatMap (·.superProblems (file.models.map (·.name.value)))
where
  declarations (earlier : List ModelDecl) : List ModelDecl → List Diagnostic
    | [] => []
    | m :: ms => m.nameProblems earlier ++ declarations (earlier ++ [m]) ms

def nameSpan? (file : SchemaFile) (name : Ident) : Option Span :=
  (file.models.find? (·.name.value == name.name)).map (·.name.span)

def cycleProblem (file : SchemaFile) (cycle : List Ident) : Diagnostic where
  severity := .error
  code := some .inheritanceCycle
  message := "inheritance cycle between "
    ++ ", ".intercalate (cycle.map fun name => "`" ++ name.name ++ "`")
  labels := match cycle.filterMap file.nameSpan? with
    | [] => []
    | span :: spans =>
      ⟨span, "part of the cycle", true⟩ :: spans.map (⟨·, "also part of the cycle", false⟩)
  help := some "a model cannot extend itself, directly or through other models"

/--
The problem of a delegate that no entity extends. How grave it is depends on the policy.
-/
def degenerateProblem (policy : EmptyDelegatePolicy) (name : Ident) (span : Span) : Diagnostic :=
  let message := "delegate model `" ++ name.name ++ "` is not extended by any model"
  match policy with
  | .reject =>
    { severity := .error
      code := some .missingSubtypes
      message
      labels := [⟨span, "no model extends this delegate", true⟩]
      help := some "add a model that extends it or remove `@@delegate`" }
  | .skip =>
    { severity := .warning
      code := some .missingSubtypes
      message
      labels := [⟨span, "its payload type is left unchanged", true⟩]
      help := none }

def inheritanceProblems (policy : EmptyDelegatePolicy) (file : SchemaFile) (m : Model) :
    List Diagnostic :=
  ((InheritanceGraph.ofModel m).findCycle?.map file.cycleProblem).toList
    ++ (DelegateGraph.ofModel m).degenerate.filterMap fun name =>
      (file.nameSpan? name).map (degenerateProblem policy name)

end SchemaFile
end Delegation
