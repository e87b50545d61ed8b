import Delegation.Declaration.Member

/-!
This module contains the parser of declaration files. Declarations are parsed as far as the tree
shows them, all other statements are type expressions to it.
-/

namespace Delegation

def statementModifiers : List String :=
  ["export", "declare", "default", "abstract"]

def paramModifiers : List String :=
  ["const", "in", "out"]

def variableWords : List String :=
  ["const", "let", "var", "function"]

def skipModifiers (modifiers : List String) (item : Item) :
    (rest : List Item) → Parsed Item Item (rest.length + 1)
  | [] => .leaving item []
  | next :: rest =>
    if item.token.isWordOf modifiers && next.token.isIdentifier then
      (skipModifiers modifiers next rest).loosen
    else
      .leaving item (next :: rest)

/--
The constraint and the default of a type parameter: where it ends that without them ends at
`stop`. The comma behind it is read as well.
-/
def parseParamSuffix (opening : Span) (stop : Nat) (items : List Item) :
    Parse Nat (items.length + 1) :=
  match items with
  | [] => .error ⟨.unclosed opening .angle, []⟩
  | item :: rest =>
    match item.token with
    | .sign .comma => .ok (Parsed.leaving stop rest).loosen
    | .closing d =>
      if d = .angle then
        .ok (.leaving stop (item :: rest))
      else
        .error ⟨.unbalanced (some opening) (.closer .angle), item :: rest⟩
    | .opening d => do
      let ⟨close, rest', h⟩ ← skipGroup ⟨d, item.span⟩ [] rest
      let suffix ← parseParamSuffix opening close.span.stop rest'
      return (suffix.within h).loosen.loosen
    | _ => (parseParamSuffix opening item.span.stop rest).map .loosen
termination_by items.length

def parseParams (opening : Span) (items : List Item) : Parse (List TypeParam) (items.length + 1) :=
  match items with
  | [] => .error ⟨.expected .typeParameter, []⟩
  | item :: rest =>
    if item.token == .closing .angle then
      .ok (Parsed.leaving [] rest).loosen
    else
      let ⟨first, rest₁, h₁⟩ := skipModifiers paramModifiers item rest
      match first.token with
      | .identifier name => do
        let ⟨stop, rest₂, h₂⟩ ← parseParamSuffix opening first.span.stop rest₁
        let params ← parseParams opening rest₂
        let param := ⟨⟨name, first.span⟩, ⟨first.span.start, stop⟩⟩
        return ((params.within h₂).within h₁).loosen.map (param :: ·)
      | _ => .error ⟨.expected .typeParameter, first :: rest₁⟩
termination_by items.length

def parseParamList (items : List Item) : Parse (List TypeParam) (items.length + 1) :=
  match items with
  | [] => .ok (.leaving [] [])
  | item :: rest =>
    if item.token == .opening .angle then
      (parseParams item.span rest).map .loosen
    else
      .ok (.leaving [] (item :: rest))

/--
A whole type expression: its object types, where it starts and where it ends. It has at least one
item, on whatever line.
-/
def parseExpression (collect : Bool) (what : Expectation) (items : List Item) :
    Parse TypeExpr items.length :=
  match items with
  | [] => .error ⟨.expected what, []⟩
  | item :: rest =>
    if item.token.isTerminator then
      .error ⟨.expected what, item :: rest⟩
    else do
      let term ← parseTerm collect item rest
      let run ← term.andMaybe
        (parseRun collect .statement (some term.value.last) term.value.stop)
      return run.map fun (objects, stop) =>
        ⟨term.value.objects ++ objects, ⟨item.span.start, stop⟩⟩

def parseAlias (start : Nat) (items : List Item) : Parse TypeAlias items.length := do
  let name ← parseName .aliasName items
  let params ← name.andMaybe parseParamList
  let equals ← params.andThen (parseToken (.sign .equals) .equals)
  let type ← equals.andThen (parseExpression true .aliasedType)
  let stop := type.onward (terminator type.value.span.stop)
  return stop.map fun stop => ⟨name.value, params.value, type.value, ⟨start, stop⟩⟩

def parseHeritage (items : List Item) : Parse Span items.length :=
  match items with
  | [] => .error ⟨.expected .body, []⟩
  | item :: rest =>
    match item.token with
    | .opening d =>
      if d = .brace then
        .ok (.leaving item.span rest)
      else do
        let ⟨_, rest', h⟩ ← skipGroup ⟨d, item.span⟩ [] rest
        let body ← parseHeritage rest'
        return (body.loosen.within h).loosen
    | .sign .semicolon | .closing _ => .error ⟨.expected .body, item :: rest⟩
    | _ => (parseHeritage rest).map .loosen
termination_by items.length

def parseBlock (start : Nat) (items : List Item) : Parse MemberBlock items.length := do
  let name ← parseName .declarationName items
  let params ← name.andMaybe parseParamList
  let opening ← params.andThen parseHeritage
  let members ← opening.andThen (parseMembers opening.value)
  return members.map fun (members, close) =>
    ⟨name.value, params.value, members, ⟨start, close.stop⟩⟩

def parseDottedName (name : Located String) :
    (items : List Item) → Parsed Item (Located String) (items.length + 1)
  | dot :: part :: rest =>
    match dot.token, part.token with
    | .sign .dot, .identifier text =>
      let name := ⟨name.value ++ "." ++ text, ⟨name.span.start, part.span.stop⟩⟩
      (parseDottedName name rest).loosen.loosen
    | _, _ => .leaving name (dot :: part :: rest)
  | [] => .leaving name []
  | [item] => .leaving name [item]

def parseNamespaceName (keyword : Item) (items : List Item) :
    Parse (Located String) (items.length + 1) :=
  if keyword.token.isWord "global" then
    .ok (.leaving ⟨"global", keyword.span⟩ items)
  else
    match items with
    | [] => .error ⟨.expected .namespaceName, []⟩
    | item :: rest =>
      match item.token with
      | .string name => .ok (Parsed.leaving ⟨name, item.span⟩ rest).loosen
      | .identifier name => .ok (parseDottedName ⟨name, item.span⟩ rest).loosen
      | _ => .error ⟨.expected .namespaceName, item :: rest⟩

inductive StatementForm where
  | typeAlias
  | interfaceBlock
  | classBlock
  | namespaceBlock
  | other (collect : Bool)
deriving DecidableEq

def statementForm (keyword : Item) (items : List Item) : StatementForm :=
  let isNext (p : Token → Bool) := startsWith p items
  let isAlias := isNext Token.isIdentifier &&
    startsWith (fun t => t == .opening .angle || t == .sign .equals) (items.drop 1)
  if keyword.token.isWord "type" && isAlias then
    .typeAlias
  else if keyword.token.isWord "interface" && isNext Token.isIdentifier then
    .interfaceBlock
  else if keyword.token.isWord "class" && isNext Token.isIdentifier then
    .classBlock
  else if keyword.token.isWordOf ["namespace", "module"]
      && isNext (fun t => t.isIdentifier || t matches .string _)
      || keyword.token.isWord "global" && isNext (· == .opening .brace) then
    .namespaceBlock
  else
    .other (keyword.token.isWordOf variableWords && !isNext (·.isWord "enum"))

mutual

def parseStatement (item : Item) (rest : List Item) : Parse Statement (rest.length + 1) :=
  let start := item.span.start
  let ⟨keyword, rest₁, h₁⟩ := skipModifiers statementModifiers item rest
  match statementForm keyword rest₁ with
  | .typeAlias => do
    let decl ← parseAlias start rest₁
    return (decl.loosen.within h₁).map .typeAlias
  | .interfaceBlock => do
    let block ← parseBlock start rest₁
    return (block.loosen.within h₁).map .interfaceBlock
  | .classBlock => do
    let block ← parseBlock start rest₁
    return (block.loosen.within h₁).map .classBlock
  | .namespaceBlock => do
    let ⟨name, rest₂, h₂⟩ ← parseNamespaceName keyword rest₁
    match takeToken? (.opening .brace) rest₂ with
    | some ⟨opening, rest₃, h₃⟩ => do
      let body ← parseStatements (some opening.span) [] rest₃
      return (((body.within h₃).loosen.within h₂).within h₁).map fun (body, stop) =>
        .namespaceBlock name body ⟨start, stop⟩
    | none => do
      let run ← parseRun false .statement none name.span.stop rest₂
      let stop := run.onward (terminator run.value.2)
      return ((stop.within h₂).within h₁).map fun stop => .other run.value.1 ⟨start, stop⟩
  | .other collect => do
    let type ← parseExpression collect .statement (keyword :: rest₁)
    let stop := type.onward (terminator type.value.span.stop)
    return (stop.within h₁).map fun stop => .other type.value.objects ⟨start, stop⟩
termination_by 2 * rest.length + 2

/--
The statements up to the brace that closes `opening`, and where that brace ends. Without `opening`
they go on to the end of the items. `acc` holds the statements before them, the last one first.
-/
def parseStatements (opening : Option Span) (acc : List Statement) (items : List Item) :
    Parse (List Statement × Nat) (items.length + 1) :=
  match items with
  | [] =>
    match opening with
    | some opening => .error ⟨.unclosed opening .brace, []⟩
    | none => .ok (.leaving (acc.reverse, 0) [])
  | item :: rest =>
    match item.token with
    | .closing d =>
      if d = .brace && opening.isSome then
        .ok (Parsed.leaving (acc.reverse, item.span.stop) rest).loosen
      else
        .error ⟨.unbalanced opening .statement, item :: rest⟩
    | .sign .semicolon => (parseStatements opening acc rest).map .loosen
    | _ => do
      let ⟨statement, rest', h⟩ ← parseStatement item rest
      let statements ← parseStatements opening (statement :: acc) rest'
      return (statements.within h).loosen
termination_by 2 * items.length + 1

end

namespace DeclarationTree

def ofLexemes (lexemes : List Lexeme) : Except Diagnostic DeclarationTree :=
  let stop := endOfText lexemes
  match parseStatements none [] (Item.ofLexemes lexemes) with
  | .ok ⟨(statements, _), _, _⟩ => .ok ⟨statements, ⟨0, stop⟩⟩
  | .error failure => .error (failure.diagnostic stop)

def parse (source : List Char) : Except ParseError DeclarationTree := do
  let lexemes ← tokenize source
  match ofLexemes lexemes with
  | .ok tree => return tree
  | .error d => throw (.ofDiagnostic d)

end DeclarationTree
end Delegation
