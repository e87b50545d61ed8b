import Delegation.Schema.File
import Delegation.Token.Group

/-!
This module contains the parser of schema files. Fields end with their line. Blocks other than
models are skipped as balanced groups, and imports are skipped by line.
-/

namespace Delegation

def Item.isAttached (token : Token) (item : Item) : Bool :=
  item.isAdjacent && item.token == token

def parseAttributePath (name : Located String) (items : List Item) :
    Parse (Located String) (items.length + 1) :=
  match items with
  | [] => .ok (.leaving name [])
  | dot :: rest =>
    if dot.isAttached (.sign .dot) then do
      let ⟨part, rest', h⟩ ← parseName .attributeName rest
      let name := ⟨name.value ++ "." ++ part.value, ⟨name.span.start, part.span.stop⟩⟩
      let path ← parseAttributePath name rest'
      return (path.within h).loosen.loosen
    else
      .ok (.leaving name (dot :: rest))
termination_by items.length

def parseArguments (items : List Item) : Parse (Option (Span × Span)) (items.length + 1) :=
  match items with
  | [] => .ok (.leaving none [])
  | item :: rest =>
    if item.isAttached (.opening .paren) then do
      let close ← skipGroup ⟨.paren, item.span⟩ [] rest
      return close.loosen.loosen.map fun close => some (item.span, close.span)
    else
      .ok (.leaving none (item :: rest))

def parseAttribute (sigil : String) (start : Nat) (items : List Item) :
    Parse AttributeDecl items.length := do
  let first ← parseName .attributeName items
  let name ← first.andMaybe
    (parseAttributePath ⟨sigil ++ first.value.value, ⟨start, first.value.span.stop⟩⟩)
  let args ← name.andMaybe parseArguments
  return args.map fun
    | none => ⟨name.value, none⟩
    | some (opening, close) =>
      ⟨⟨name.value.value, ⟨start, close.stop⟩⟩, some ⟨opening.stop, close.start⟩⟩

def parseFieldAttributes (items : List Item) :
    Parse (List AttributeDecl) (items.length + 1) :=
  match items with
  | [] => .ok (.leaving [] [])
  | item :: rest =>
    if item.isOnNewLine || item.token == .closing .brace then
      .ok (.leaving [] (item :: rest))
    else if item.token == .sign .atSign then do
      let ⟨attr, rest', h⟩ ← parseAttribute "@" item.span.start rest
      let attributes ← parseFieldAttributes rest'
      return (attributes.within h).loosen.loosen.map (attr :: ·)
    else
      .error ⟨.expected .fieldAttribute, item :: rest⟩
termination_by items.length

def parseFieldType : (items : List Item) → Parse (Located String) items.length
  | [] => .error ⟨.expected .fieldType, []⟩
  | item :: rest =>
    if item.isOnNewLine then
      .error ⟨.expected .fieldType, item :: rest⟩
    else
      parseName .fieldType (item :: rest)

def parseArrayMark (items : List Item) : Parse Bool (items.length + 1) :=
  match items with
  | [] => .ok (.leaving false [])
  | item :: rest =>
    if item.isAttached (.opening .bracket) then do
      let close ← parseToken (.closing .bracket) .closingBracket rest
      return close.loosen.loosen.map fun _ => true
    else
      .ok (.leaving false (item :: rest))

def optionalType : (items : List Item) → Parsed Item Bool (items.length + 1)
  | [] => .leaving false []
  | item :: rest =>
    if item.isAttached (.sign .question) then
      (Parsed.leaving true rest).loosen
    else
      .leaving false (item :: rest)

def parseField (items : List Item) : Parse FieldDecl items.length := do
  let name ← parseName .fieldName items
  let typeName ← name.andThen parseFieldType
  let args ← typeName.andMaybe parseArguments
  let isArray ← args.andMaybe parseArrayMark
  let isOptional := isArray.onward optionalType
  let attributes ← isOptional.andMaybe parseFieldAttributes
  return attributes.map fun attributes =>
    ⟨name.value, typeName.value, isArray.value, isOptional.value, attributes⟩

def parseSuperTypes (items : List Item) : Parse (List (Located String)) items.length := do
  let ⟨name, rest, h⟩ ← parseName .superName items
  match takeToken? (.sign .comma) rest with
  | some ⟨_, rest', h'⟩ => do
    let names ← parseSuperTypes rest'
    return ((names.loosen.within h').loosen.within h).map (name :: ·)
  | none => return ⟨[name], rest, h⟩
termination_by items.length

def parseExtends (items : List Item) : Parse (List (Located String)) (items.length + 1) :=
  match items with
  | [] => .ok (.leaving [] [])
  | item :: rest =>
    if item.token.isWord "extends" then
      (parseSuperTypes rest).map (·.loosen.loosen)
    else
      .ok (.leaving [] (item :: rest))

def parseModelBody (opening : Span) (items : List Item) :
    Parse (List FieldDecl × List AttributeDecl × Nat) items.length :=
  match items with
  | [] => .error ⟨.unclosed opening .brace, []⟩
  | item :: rest =>
    match item.token with
    | .closing .brace => .ok (.leaving ([], [], item.span.stop) rest)
    | .sign .doubleAt => do
      let ⟨attr, rest', h⟩ ← parseAttribute "@@" item.span.start rest
      let body ← parseModelBody opening rest'
      return (body.loosen.within h).loosen.map fun (fields, attributes, stop) =>
        (fields, attr :: attributes, stop)
    | .identifier _ => do
      let ⟨field, rest', h⟩ ← parseField (item :: rest)
      let body ← parseModelBody opening rest'
      return (body.loosen.within h).map fun (fields, attributes, stop) =>
        (field :: fields, attributes, stop)
    | _ => .error ⟨.expected .modelItem, item :: rest⟩
termination_by items.length
decreasing_by
  all_goals
    simp only [List.length_cons] at *
    omega

def parseModel (start : Nat) (isAbstract : Bool) (items : List Item) :
    Parse ModelDecl items.length := do
  let name ← parseName .modelName items
  let superTypes ← name.andMaybe parseExtends
  let opening ← superTypes.andThen (parseToken (.opening .brace) .body)
  let body ← opening.andThen (parseModelBody opening.value.span)
  return body.map fun (fields, attributes, stop) =>
    ⟨isAbstract, name.value, superTypes.value, fields, attributes, ⟨start, stop⟩⟩

/--
Skip the rest of a block that is no model. It ends with its body, or with its line if it has none.
-/
def skipBlock (items : List Item) : Parse Unit (items.length + 1) :=
  match items with
  | [] => .ok (.leaving () [])
  | item :: rest =>
    if item.isOnNewLine then
      .ok (.leaving () (item :: rest))
    else
      match item.token with
      | .opening d => do
        let ⟨_, rest', h⟩ ← skipGroup ⟨d, item.span⟩ [] rest
        if d = .brace then
          return ((Parsed.leaving () rest').within h).loosen.loosen
        else
          let block ← skipBlock rest'
          return (block.within h).loosen.loosen
      | .closing _ => .error ⟨.unbalanced none .declaration, item :: rest⟩
      | _ => (skipBlock rest).map .loosen
termination_by items.length

inductive SchemaItem (bound : Nat) where
  | model (isAbstract : Bool) (keyword : Parsed Item Item bound)
  | importLine
  | block
  | unknown

def schemaItem (item : Item) (rest : List Item) : SchemaItem (rest.length + 1) :=
  if item.token.isWord "model" then
    .model false (.leaving item rest)
  else if item.token.isWord "abstract" then
    match takeToken? (.identifier "model") rest with
    | some keyword => .model true keyword.loosen
    | none => .block
  else if item.token.isWord "import" then
    .importLine
  else if item.token.isIdentifier then
    .block
  else
    .unknown

/--
The models among `items`. `acc` holds those before them, the last one first. An import goes on to
the end of its line.
-/
def parseModels (acc : List ModelDecl) (items : List Item) : Except Failure (List ModelDecl) :=
  match items with
  | [] => .ok acc.reverse
  | item :: rest =>
    match schemaItem item rest with
    | .model isAbstract ⟨_, rest₁, _⟩ => do
      let ⟨model, rest₂, _⟩ ← parseModel item.span.start isAbstract rest₁
      parseModels (model :: acc) rest₂
    | .importLine =>
      let ⟨_, rest', _⟩ := Parsed.span (!·.isOnNewLine) rest
      parseModels acc rest'
    | .block => do
      let ⟨_, rest', _⟩ ← skipBlock rest
      parseModels acc rest'
    | .unknown => .error ⟨.expected .declaration, item :: rest⟩
termination_by items.length

namespace SchemaFile

def ofLexemes (lexemes : List Lexeme) : Except Diagnostic SchemaFile :=
  match parseModels [] (Item.ofLexemes lexemes) with
  | .ok models => .ok ⟨models⟩
  | .error failure => .error (failure.diagnostic (endOfText lexemes))

def parse (source : List Char) : Except ParseError SchemaFile := do
  let lexemes ← tokenize source
  match ofLexemes lexemes with
  | .ok file => return file
  | .error d => throw (.ofDiagnostic d)

end SchemaFile
end Delegation
