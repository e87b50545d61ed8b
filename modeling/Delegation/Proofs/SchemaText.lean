import Delegation.Proofs.Nesting
import Delegation.Proofs.Rendering
import Delegation.Schema.File
import Mathlib.Data.List.Forall2

/-!
This module contains how schemas are written: models with one field or attribute on a line, and
between them comments, imports and blocks of other kinds. What is written is well-formed by its
type.
-/

namespace Delegation

/--
A name that is read as one identifier.
-/
structure Identifier where
  name : String
  isName : IsName name

/--
What is written between the parentheses of an attribute: its delimiters close each other, and it
does not end with a comment that would go on behind it.
-/
structure ArgumentText where
  text : List Char
  lexemes : List Lexeme
  tokenize_text : tokenize text = .ok lexemes
  isBalanced : IsBalanced (Item.ofLexemes lexemes)
  isOver : ∀ l ∈ lexemes.getLast?, ∀ content, l.token ≠ .lineComment content

structure AttributeText where
  name : Identifier
  parts : List Identifier
  args : Option ArgumentText

structure FieldText where
  name : Identifier
  typeName : Identifier
  isArray : Bool
  isOptional : Bool
  attributes : List AttributeText

inductive BodyLine where
  | field (f : FieldText)
  | modelAttribute (a : AttributeText)

structure ModelText where
  isAbstract : Bool
  name : Identifier
  superTypes : List Identifier
  body : List BodyLine

structure CommentText where
  text : List Char
  lexemes : List Lexeme
  tokenize_text : tokenize text = .ok lexemes
  isTrivia : ∀ l ∈ lexemes, l.token.isTrivia = true

structure ImportText where
  text : List Char
  keyword : Lexeme
  more : List Lexeme
  tokenize_text : tokenize text = .ok (keyword :: more)
  isKeyword : keyword.token = .identifier "import"
  isOneLine : ∀ l ∈ more, l.token ≠ .newline

/--
A block that is no model: a word, a header, and a body in braces that begins on the line of both.
-/
structure BlockText where
  text : List Char
  name : String
  word : Lexeme
  header : List Lexeme
  opener : Lexeme
  body : List Lexeme
  closer : Lexeme
  tokenize_text : tokenize text = .ok (word :: (header ++ opener :: (body ++ [closer])))
  isWord : word.token = .identifier name
  isForeign : name ∉ ["model", "abstract", "import"]
  isHeader : ∀ l ∈ header,
    l.token ≠ .newline ∧ (∀ d, l.token ≠ .opening d) ∧ ∀ d, l.token ≠ .closing d
  isOpener : opener.token = .opening .brace
  isBalanced : IsBalanced (Item.ofLexemes body)
  isCloser : closer.token = .closing .brace

inductive SchemaPart where
  | model (m : ModelText)
  | comment (c : CommentText)
  | importLine (i : ImportText)
  | block (b : BlockText)

def renderParts (parts : List Identifier) : List Char :=
  parts.flatMap fun part => '.' :: part.name.toList

def renderArguments : Option ArgumentText → List Char
  | none => []
  | some args => '(' :: args.text ++ [')']

namespace AttributeText

def path (a : AttributeText) : List Char :=
  a.name.name.toList ++ renderParts a.parts

def render (a : AttributeText) : List Char :=
  a.path ++ renderArguments a.args

def renderAll (attributes : List AttributeText) : List Char :=
  attributes.flatMap fun a => ' ' :: '@' :: a.render

structure IsReadAs (source : List Char) (sigil : String) (a : AttributeText)
    (decl : AttributeDecl) : Prop where
  name : decl.name.value.toList = sigil.toList ++ a.path
  args : decl.args.map (Span.slice? · source) = a.args.map fun args => some args.text

end AttributeText

namespace FieldText

def arrayMark (isArray : Bool) : List Char :=
  if isArray then ['[', ']'] else []

def questionMark (isOptional : Bool) : List Char :=
  if isOptional then ['?'] else []

def render (f : FieldText) : List Char :=
  f.name.name.toList ++ ' ' :: (f.typeName.name.toList ++ (arrayMark f.isArray
    ++ (questionMark f.isOptional ++ AttributeText.renderAll f.attributes)))

structure IsReadAs (source : List Char) (f : FieldText) (decl : FieldDecl) : Prop where
  name : decl.name.value = f.name.name
  typeName : decl.typeName.value = f.typeName.name
  isArray : decl.isArray = f.isArray
  isOptional : decl.isOptional = f.isOptional
  attributes : List.Forall₂ (AttributeText.IsReadAs source "@") f.attributes decl.attributes

end FieldText

namespace BodyLine

def render : BodyLine → List Char
  | field f => ' ' :: ' ' :: (f.render ++ ['\n'])
  | modelAttribute a => ' ' :: ' ' :: '@' :: '@' :: (a.render ++ ['\n'])

def field? : BodyLine → Option FieldText
  | field f => some f
  | modelAttribute _ => none

def attribute? : BodyLine → Option AttributeText
  | field _ => none
  | modelAttribute a => some a

end BodyLine

def renderMoreSupers (names : List Identifier) : List Char :=
  names.flatMap fun name => ',' :: ' ' :: name.name.toList

def renderSupers : List Identifier → List Char
  | [] => []
  | name :: names =>
    ' ' :: ("extends".toList ++ ' ' :: (name.name.toList ++ renderMoreSupers names))

namespace ModelText

def renderRest (m : ModelText) : List Char :=
  ' ' :: (m.name.name.toList ++ (renderSupers m.superTypes
    ++ ' ' :: '{' :: '\n' :: (m.body.flatMap BodyLine.render ++ ['}'])))

def render (m : ModelText) : List Char :=
  if m.isAbstract then
    "abstract".toList ++ ' ' :: ("model".toList ++ m.renderRest)
  else
    "model".toList ++ m.renderRest

structure IsReadAs (source : List Char) (m : ModelText) (decl : ModelDecl) : Prop where
  isAbstract : decl.isAbstract = m.isAbstract
  name : decl.name.value = m.name.name
  superTypes : decl.superTypes.map (·.value) = m.superTypes.map (·.name)
  fields : List.Forall₂ (FieldText.IsReadAs source) (m.body.filterMap BodyLine.field?) decl.fields
  attributes : List.Forall₂ (AttributeText.IsReadAs source "@@")
    (m.body.filterMap BodyLine.attribute?) decl.attributes

end ModelText

namespace SchemaPart

def render : SchemaPart → List Char
  | model m => m.render
  | comment c => c.text
  | importLine i => i.text
  | block b => b.text

def model? : SchemaPart → Option ModelText
  | model m => some m
  | comment _ | importLine _ | block _ => none

def renderAll (parts : List SchemaPart) : List Char :=
  parts.flatMap fun part => part.render ++ ['\n']

end SchemaPart

end Delegation
