import Delegation.Schema.Check
import Delegation.Schema.Parser

/-!
This module contains the way from the text of a schema to its model.
-/

namespace Delegation

def Located.ident (name : Located String) : Except Diagnostic Ident :=
  match Ident.ofName name.value with
  | .ok ident => .ok ident
  | .error e =>
    .error
      { severity := .error
        code := some .invalidIdentifier
        message := "invalid identifier `" ++ name.value ++ "`"
        labels := [⟨name.span, e.message, true⟩]
        help := none }

def AttributeDecl.elaborate (source : List Char) (decl : AttributeDecl) : Attribute where
  name := decl.name.value
  args := do return .ofList (← (← decl.args).slice? source)

def FieldDecl.elaborate (source : List Char) (decl : FieldDecl) : Except Diagnostic Field := do
  return {
    name := ← decl.name.ident
    typeName := decl.typeName.value
    isArray := decl.isArray
    isOptional := decl.isOptional
    attributes := decl.attributes.map (·.elaborate source) }

def ModelDecl.elaborate (source : List Char) (decl : ModelDecl) : Except Diagnostic Entity := do
  return {
    name := ← decl.name.ident
    isAbstract := decl.isAbstract
    superTypes := ← decl.superTypes.mapM (·.ident)
    attributes := decl.attributes.map (·.elaborate source)
    fields := ← decl.fields.mapM (·.elaborate source) }

namespace SchemaFile

def elaborate (source : List Char) (file : SchemaFile) : Except Diagnostic Model := do
  return ⟨← file.models.mapM (·.elaborate source)⟩

/--
The model of a schema whose tree is `file`, and the warnings about it. The names are checked before
the inheritance is.
-/
def load (policy : EmptyDelegatePolicy) (source : List Char) (file : SchemaFile) :
    Except ParseError (Model × List Diagnostic) := do
  let _ ← conclude file.nameProblems
  match file.elaborate source with
  | .error d => throw (.ofDiagnostic d)
  | .ok m =>
    let warnings ← conclude (file.inheritanceProblems policy m)
    return (m, warnings)

end SchemaFile

def loadSchema (policy : EmptyDelegatePolicy) (source : List Char) :
    Except ParseError (Model × List Diagnostic) := do
  let file ← SchemaFile.parse source
  file.load policy source

end Delegation
