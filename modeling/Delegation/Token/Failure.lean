import Delegation.Parsed
import Delegation.Token.Item

/-!
This module contains how the parsers fail, and what they return when they do not.
-/

namespace Delegation

inductive Expectation where
  | memberName
  | privateMemberName
  | typeParameter
  | aliasName
  | equals
  | aliasedType
  | declarationName
  | body
  | namespaceName
  | statement
  | closer (d : Delimiter)
  | attributeName
  | fieldName
  | fieldType
  | closingBracket
  | fieldAttribute
  | modelKeyword
  | modelName
  | superName
  | modelItem
  | declaration
deriving DecidableEq

namespace Expectation

def describe : Expectation → String
  | memberName => "member name"
  | privateMemberName => "private member name"
  | typeParameter => "type parameter"
  | aliasName => "type alias name"
  | equals => "`=`"
  | aliasedType => "type"
  | declarationName => "declaration name"
  | body => "`\x7b`"
  | namespaceName => "namespace name"
  | statement => "statement"
  | closer d => "closing `" ++ d.closer.toString ++ "`"
  | attributeName => "attribute name"
  | fieldName => "field name"
  | fieldType => "field type"
  | closingBracket => "`]`"
  | fieldAttribute => "field attribute or end of line"
  | modelKeyword => "`model`"
  | modelName => "model name"
  | superName => "super model name"
  | modelItem => "field or model attribute"
  | declaration => "declaration"

end Expectation

inductive Cause where
  | expected (what : Expectation)
  | unclosed (opening : Span) (d : Delimiter)
  /--
  A delimiter closes what it does not match, or what was never opened.
  -/
  | unbalanced (opening : Option Span) (what : Expectation)
deriving DecidableEq

/--
The failure of a parser, with the items from the offending one on.
-/
structure Failure where
  cause : Cause
  rest : List Item
deriving DecidableEq

namespace Failure

def code (f : Failure) : Code :=
  match f.cause with
  | .expected _ => if f.rest.isEmpty then .incompleteInput else .unexpectedToken
  | .unclosed .. => .incompleteInput
  | .unbalanced .. => .unbalancedDelimiter

def found (endOfText : Nat) (f : Failure) : String × Span :=
  match f.rest with
  | [] => ("end of input", ⟨endOfText, endOfText⟩)
  | item :: _ => (item.token.describe, item.span)

def expectation (f : Failure) : Expectation :=
  match f.cause with
  | .expected what => what
  | .unclosed _ d => .closer d
  | .unbalanced _ what => what

def opening? (f : Failure) : Option Span :=
  match f.cause with
  | .expected _ => none
  | .unclosed opening _ => some opening
  | .unbalanced opening _ => opening

def diagnostic (endOfText : Nat) (f : Failure) : Diagnostic :=
  let (name, span) := f.found endOfText
  let problem := match f.code with
    | .unbalancedDelimiter => "unbalanced delimiter "
    | _ => "unexpected "
  { severity := .error
    code := some f.code
    message := problem ++ name ++ ", expected " ++ f.expectation.describe
    labels := ⟨span, f.code.description, true⟩ ::
      (f.opening?.map (⟨·, "opened here", false⟩)).toList
    help := match f.code with
      | .incompleteInput => some "the input ends before this construct is complete"
      | _ => none }

end Failure

abbrev Parse (α : Type) (bound : Nat) : Type :=
  Except Failure (Parsed Item α bound)

def endOfText (lexemes : List Lexeme) : Nat :=
  (lexemes.getLast?.map Lexeme.stop).getD 0

def parseName (what : Expectation) : (items : List Item) → Parse (Located String) items.length
  | [] => .error ⟨.expected what, []⟩
  | item :: rest =>
    match item.token with
    | .identifier name => .ok (.leaving ⟨name, item.span⟩ rest)
    | _ => .error ⟨.expected what, item :: rest⟩

def takeToken? (token : Token) : (items : List Item) → Option (Parsed Item Item items.length)
  | [] => none
  | item :: rest => if item.token = token then some (.leaving item rest) else none

def parseToken (token : Token) (what : Expectation) (items : List Item) : Parse Item items.length :=
  match takeToken? token items with
  | some item => .ok item
  | none => .error ⟨.expected what, items⟩

def startsWith (p : Token → Bool) : List Item → Bool
  | [] => false
  | item :: _ => p item.token

end Delegation
