import Delegation.Span

/-!
This module contains diagnostics: what is reported to the author of a schema or of a declaration
file, and where.
-/

namespace Delegation

inductive Severity where
  | error
  | warning
deriving DecidableEq

namespace Severity

def name : Severity → String
  | error => "error"
  | warning => "warning"

end Severity

inductive Code where
  | unterminatedString
  | unexpectedCharacter
  | unterminatedComment
  | unterminatedTemplate
  | unexpectedToken
  | incompleteInput
  | unbalancedDelimiter
  | undefinedSuper
  | duplicateEntity
  | inheritanceCycle
  | missingSubtypes
  | invalidIdentifier
deriving DecidableEq

namespace Code

def all : List Code :=
  [unterminatedString, unexpectedCharacter, unterminatedComment, unterminatedTemplate,
   unexpectedToken, incompleteInput, unbalancedDelimiter,
   undefinedSuper, duplicateEntity, inheritanceCycle, missingSubtypes, invalidIdentifier]

def tag : Code → String
  | unterminatedString => "E001"
  | unexpectedCharacter => "E002"
  | unterminatedComment => "E003"
  | unterminatedTemplate => "E004"
  | unexpectedToken => "E100"
  | incompleteInput => "E101"
  | unbalancedDelimiter => "E102"
  | undefinedSuper => "E200"
  | duplicateEntity => "E201"
  | inheritanceCycle => "E202"
  | missingSubtypes => "E203"
  | invalidIdentifier => "E204"

def ofTag? (tag : String) : Option Code :=
  all.find? (·.tag == tag)

def description : Code → String
  | unterminatedString => "unterminated string literal"
  | unexpectedCharacter => "unexpected character"
  | unterminatedComment => "unterminated block comment"
  | unterminatedTemplate => "unterminated template literal"
  | unexpectedToken => "unexpected token"
  | incompleteInput => "incomplete input"
  | unbalancedDelimiter => "unbalanced delimiter"
  | undefinedSuper => "undefined super entity"
  | duplicateEntity => "duplicate entity definition"
  | inheritanceCycle => "inheritance cycle"
  | missingSubtypes => "delegate without subtypes"
  | invalidIdentifier => "invalid identifier"

theorem ofTag?_tag (code : Code) : ofTag? code.tag = some code := by
  cases code <;> rfl

end Code

/--
A remark on a part of the source. A primary label says where the problem is, the others say what
it has to do with.
-/
structure Label where
  span : Span
  message : String
  isPrimary : Bool
deriving DecidableEq

structure Diagnostic where
  severity : Severity
  code : Option Code
  message : String
  labels : List Label
  help : Option String
deriving DecidableEq

namespace Diagnostic

def summary (d : Diagnostic) : String :=
  let code := match d.code with
    | some code => "[" ++ code.tag ++ "]"
    | none => ""
  d.severity.name ++ code ++ ": " ++ d.message

end Diagnostic

structure ParseError where
  diagnostics : List Diagnostic
deriving DecidableEq

namespace ParseError

def ofDiagnostic (d : Diagnostic) : ParseError :=
  ⟨[d]⟩

def message (e : ParseError) : String :=
  match e.diagnostics with
  | [] => ""
  | [d] => d.summary
  | d :: ds => d.summary ++ " (+" ++ toString ds.length ++ " more)"

end ParseError

/--
Turn the diagnostics of a phase into its outcome: with an error among them it fails with all of
them, else they are its warnings.
-/
def conclude (ds : List Diagnostic) : Except ParseError (List Diagnostic) :=
  if ds.any (·.severity == .error) then
    .error ⟨ds⟩
  else
    .ok ds

end Delegation
