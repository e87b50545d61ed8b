import Delegation.Proofs.Progress.Rounds
import Delegation.Schema.Parser

/-!
This module contains the parser of schema files as loops around each other, in the same way as that
of declaration files.
-/

namespace Delegation

@[ext]
structure SchemaLoops where
  skipGroup : OpenDelimiter → List Item → Attempt (Item × List Item)
  path : Located String → List Item → Attempt (Located String × List Item)
  fieldAttributes : List AttributeDecl → List Item → Attempt (List AttributeDecl × List Item)
  superTypes : List (Located String) → List Item → Attempt (List (Located String) × List Item)
  body : Span → List FieldDecl × List AttributeDecl → List Item →
    Attempt ((List FieldDecl × List AttributeDecl × Nat) × List Item)
  skipBlock : List Item → Attempt (Unit × List Item)
  models : List ModelDecl → List Item → Attempt (List ModelDecl × List Item)

namespace SchemaLoops

variable (loops : SchemaLoops)

def skipGroupRound (opening : OpenDelimiter) : List Item → Attempt (Round Unit Item × List Item)
  | [] => throw ⟨.unclosed opening.span opening.delimiter, []⟩
  | item :: rest =>
    match item.token with
    | .opening d => do
      let (_, rest) ← loops.skipGroup ⟨d, item.span⟩ rest
      return (.again (), rest)
    | .closing d =>
      if d = opening.delimiter then
        return (.done item, rest)
      else
        throw ⟨.unbalanced (some opening.span) (.closer opening.delimiter), item :: rest⟩
    | _ => return (.again (), rest)

def pathRound (name : Located String) :
    List Item → Attempt (Round (Located String) (Located String) × List Item)
  | [] => return (.done name, [])
  | dot :: rest =>
    if dot.isAttached (.sign .dot) then do
      let (part, rest) ← .of (parseName .attributeName rest)
      return (.again ⟨name.value ++ "." ++ part.value, ⟨name.span.start, part.span.stop⟩⟩, rest)
    else
      return (.done name, dot :: rest)

def arguments : List Item → Attempt (Option (Span × Span) × List Item)
  | [] => return (none, [])
  | item :: rest =>
    if item.isAttached (.opening .paren) then do
      let (close, rest) ← loops.skipGroup ⟨.paren, item.span⟩ rest
      return (some (item.span, close.span), rest)
    else
      return (none, item :: rest)

def attr (sigil : String) (start : Nat) (items : List Item) :
    Attempt (AttributeDecl × List Item) := do
  let (first, items) ← .of (parseName .attributeName items)
  let (name, items) ← loops.path ⟨sigil ++ first.value, ⟨start, first.span.stop⟩⟩ items
  let (args, items) ← loops.arguments items
  match args with
  | none => return (⟨name, none⟩, items)
  | some (opening, close) =>
    return (⟨⟨name.value, ⟨start, close.stop⟩⟩, some ⟨opening.stop, close.start⟩⟩, items)

def fieldAttributesRound (attributes : List AttributeDecl) :
    List Item → Attempt (Round (List AttributeDecl) (List AttributeDecl) × List Item)
  | [] => return (.done attributes, [])
  | item :: rest =>
    if item.isOnNewLine || item.token == .closing .brace then
      return (.done attributes, item :: rest)
    else if item.token == .sign .atSign then do
      let (decl, rest) ← loops.attr "@" item.span.start rest
      return (.again (attributes ++ [decl]), rest)
    else
      throw ⟨.expected .fieldAttribute, item :: rest⟩

def field (items : List Item) : Attempt (FieldDecl × List Item) := do
  let (name, items) ← .of (parseName .fieldName items)
  let (typeName, items) ← .of (parseFieldType items)
  let (_, items) ← loops.arguments items
  let (isArray, items) ← .of (parseArrayMark items)
  let isOptional := optionalType items
  let (attributes, items) ← loops.fieldAttributes [] isOptional.rest
  return (⟨name, typeName, isArray, isOptional.value, attributes⟩, items)

def superTypesRound (names : List (Located String)) (items : List Item) :
    Attempt (Round (List (Located String)) (List (Located String)) × List Item) := do
  let (name, items) ← .of (parseName .superName items)
  match takeToken? (.sign .comma) items with
  | some comma => return (.again (names ++ [name]), comma.rest)
  | none => return (.done (names ++ [name]), items)

def inheritance : List Item → Attempt (List (Located String) × List Item)
  | [] => return ([], [])
  | item :: rest =>
    if item.token.isWord "extends" then
      loops.superTypes [] rest
    else
      return ([], item :: rest)

def bodyRound (opening : Span) (decls : List FieldDecl × List AttributeDecl) :
    List Item → Attempt (Round (List FieldDecl × List AttributeDecl)
      (List FieldDecl × List AttributeDecl × Nat) × List Item)
  | [] => throw ⟨.unclosed opening .brace, []⟩
  | item :: rest =>
    match item.token with
    | .closing .brace => return (.done (decls.1, decls.2, item.span.stop), rest)
    | .sign .doubleAt => do
      let (decl, rest) ← loops.attr "@@" item.span.start rest
      return (.again (decls.1, decls.2 ++ [decl]), rest)
    | .identifier _ => do
      let (field, rest) ← loops.field (item :: rest)
      return (.again (decls.1 ++ [field], decls.2), rest)
    | _ => throw ⟨.expected .modelItem, item :: rest⟩

def model (start : Nat) (isAbstract : Bool) (items : List Item) :
    Attempt (ModelDecl × List Item) := do
  let (name, items) ← .of (parseName .modelName items)
  let (superTypes, items) ← loops.inheritance items
  let (opening, items) ← .of (parseToken (.opening .brace) .body items)
  let ((fields, attributes, stop), items) ← loops.body opening.span ([], []) items
  return (⟨isAbstract, name, superTypes, fields, attributes, ⟨start, stop⟩⟩, items)

def skipBlockRound : List Item → Attempt (Round Unit Unit × List Item)
  | [] => return (.done (), [])
  | item :: rest =>
    if item.isOnNewLine then
      return (.done (), item :: rest)
    else
      match item.token with
      | .opening d => do
        let (_, rest) ← loops.skipGroup ⟨d, item.span⟩ rest
        if d = .brace then
          return (.done (), rest)
        else
          return (.again (), rest)
      | .closing _ => throw ⟨.unbalanced none .declaration, item :: rest⟩
      | _ => return (.again (), rest)

def modelsRound (models : List ModelDecl) :
    List Item → Attempt (Round (List ModelDecl) (List ModelDecl) × List Item)
  | [] => return (.done models, [])
  | item :: rest =>
    match schemaItem item rest with
    | .model isAbstract keyword => do
      let (model, rest) ← loops.model item.span.start isAbstract keyword.rest
      return (.again (models ++ [model]), rest)
    | .importLine => return (.again models, (Parsed.span (!·.isOnNewLine) rest).rest)
    | .block => do
      let (_, rest) ← loops.skipBlock rest
      return (.again models, rest)
    | .unknown => throw ⟨.expected .declaration, item :: rest⟩

def next : SchemaLoops where
  skipGroup opening items :=
    .loop (loops.skipGroupRound opening items) fun _ => loops.skipGroup opening
  path name items := .loop (pathRound name items) loops.path
  fieldAttributes attributes items :=
    .loop (loops.fieldAttributesRound attributes items) loops.fieldAttributes
  superTypes names items := .loop (superTypesRound names items) loops.superTypes
  body opening decls items := .loop (loops.bodyRound opening decls items) (loops.body opening)
  skipBlock items := .loop (loops.skipBlockRound items) fun _ => loops.skipBlock
  models models items := .loop (loops.modelsRound models items) loops.models

def file (ls : List Lexeme) : Option (Except Diagnostic SchemaFile) :=
  (loops.models [] (Item.ofLexemes ls)).run.map fun
    | .ok (models, _) => .ok ⟨models⟩
    | .error failure => .error (failure.diagnostic (endOfText ls))

def within : (calls : Nat) → SchemaLoops
  | 0 =>
    { skipGroup := fun _ _ => .mk none
      path := fun _ _ => .mk none
      fieldAttributes := fun _ _ => .mk none
      superTypes := fun _ _ => .mk none
      body := fun _ _ _ => .mk none
      skipBlock := fun _ => .mk none
      models := fun _ _ => .mk none }
  | calls + 1 => (within calls).next

@[simps]
def bounded : SchemaLoops where
  skipGroup opening items := .of (Delegation.skipGroup opening [] items)
  path name items := .of (parseAttributePath name items)
  fieldAttributes attributes items := do
    let (more, rest) ← .of (parseFieldAttributes items)
    return (attributes ++ more, rest)
  superTypes names items := do
    let (more, rest) ← .of (parseSuperTypes items)
    return (names ++ more, rest)
  body opening decls items := do
    let ((fields, attributes, stop), rest) ← .of (parseModelBody opening items)
    return ((decls.1 ++ fields, decls.2 ++ attributes, stop), rest)
  skipBlock items := .of (Delegation.skipBlock items)
  models models items := do
    let models ← .lift (parseModels models.reverse items)
    return (models, [])

end SchemaLoops
end Delegation
