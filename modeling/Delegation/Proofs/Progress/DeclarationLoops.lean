import Delegation.Proofs.Progress.Rounds

/-!
This module contains the parser of declaration files as loops around each other. One round of a
loop is a function of the loops that may be entered from it, so that their calls can be counted.
-/

namespace Delegation

structure Scanned where
  objects : List ObjectType
  reached : Option (Token × Span)

def Scanned.empty : Scanned :=
  ⟨[], none⟩

/--
The loops of the parser of declaration files, each with what it has collected so far. The scan of
an expression is told whether the expression goes on behind tokens that were read before.
-/
@[ext]
structure DeclarationLoops where
  group : (collect : Bool) → OpenDelimiter → List ObjectType → List Item →
    Attempt ((List ObjectType × Span) × List Item)
  scan : (collect : Bool) → Place → (started : Bool) → Scanned → List Item →
    Attempt ((List ObjectType × Option Span) × List Item)
  members : Span → List Member → List Item → Attempt ((List Member × Span) × List Item)
  suffix : Span → Nat → List Item → Attempt (Nat × List Item)
  params : Span → List TypeParam → List Item → Attempt (List TypeParam × List Item)
  heritage : List Item → Attempt (Span × List Item)
  statements : Option Span → List Statement → List Item →
    Attempt ((List Statement × Nat) × List Item)

/--
Whether the scan of an expression ends before `item`. The first item of an expression may stand on
a new line, unless the expression was started before.
-/
def scanEndsBefore (place : Place) (started : Bool) (last : Option Token) (item : Item) : Bool :=
  item.token.isTerminator
    || (item.token == .sign .comma && place == .member)
    || (item.isOnNewLine && (started || last.isSome) && !last.any Token.continuesAfter
      && !item.token.continuesBefore)

def groupRound (term : Item → List Item → Attempt (Term × List Item)) (opening : OpenDelimiter)
    (objects : List ObjectType) :
    List Item → Attempt (Round (List ObjectType) (List ObjectType × Span) × List Item)
  | [] => throw ⟨.unclosed opening.span opening.delimiter, []⟩
  | item :: rest =>
    if item.token == .closing opening.delimiter then
      return (.done (objects, item.span), rest)
    else if item.token.isClosing then
      throw ⟨.unbalanced (some opening.span) (.closer opening.delimiter), item :: rest⟩
    else do
      let (term, rest) ← term item rest
      return (.again (objects ++ term.objects), rest)

def scanRound (term : Item → List Item → Attempt (Term × List Item)) (place : Place)
    (started : Bool) (scanned : Scanned) :
    List Item → Attempt (Round Scanned (List ObjectType × Option Span) × List Item)
  | [] => return (.done (scanned.objects, scanned.reached.map (·.2)), [])
  | item :: rest =>
    if scanEndsBefore place started (scanned.reached.map (·.1)) item then
      return (.done (scanned.objects, scanned.reached.map (·.2)), item :: rest)
    else do
      let (term, rest) ← term item rest
      let start := ((scanned.reached.map (·.2)).getD item.span).start
      return (.again ⟨scanned.objects ++ term.objects, some (term.last, ⟨start, term.stop⟩)⟩, rest)

namespace DeclarationLoops

variable (loops : DeclarationLoops)

def objectType (opening : Span) (items : List Item) : Attempt (ObjectType × List Item) := do
  let ((members, close), rest) ← loops.members opening [] items
  return (⟨members, ⟨opening.start, close.stop⟩⟩, rest)

def term (collect : Bool) (item : Item) (rest : List Item) : Attempt (Term × List Item) :=
  match item.token with
  | .opening d =>
    if collect && d == .brace then do
      let (object, rest) ← loops.objectType item.span rest
      return (⟨[object], .closing .brace, object.span.stop⟩, rest)
    else do
      let ((objects, close), rest) ← loops.group collect ⟨d, item.span⟩ [] rest
      return (⟨objects, .closing d, close.stop⟩, rest)
  | token => return (⟨[], token, item.span.stop⟩, rest)

def scanning (collect : Bool) (place : Place) (started : Bool) (scanned : Scanned)
    (items : List Item) : Attempt ((List ObjectType × Option Span) × List Item) :=
  .loop (scanRound (loops.term collect) place started scanned items)
    (loops.scan collect place started)

def run (collect : Bool) (place : Place) (stop : Nat) (items : List Item) :
    Attempt ((List ObjectType × Nat) × List Item) := do
  let ((objects, span), rest) ← loops.scan collect place true .empty items
  return ((objects, (span.map Span.stop).getD stop), rest)

def head (item : Item) (rest : List Item) : Attempt (MemberHead × List Item) :=
  if item.token == .opening .bracket then do
    let ((_, close), rest) ← loops.group false ⟨.bracket, item.span⟩ [] rest
    let kind := if startsWith Token.opensSignature rest then .method else .index
    return (⟨kind, none, close.stop⟩, rest)
  else
    .of (memberHead item rest)

def member (item : Item) (rest : List Item) : Attempt (Member × List Item) :=
  let first := skipMemberModifiers item rest
  match signatureStart? first.value first.rest with
  | some (kind, start) => do
    let ((objects, span), rest) ←
      loops.scanning true .member false .empty (start.value :: start.rest)
    let stop := terminator ((span.map Span.stop).getD first.value.span.stop) rest
    return (⟨kind, none, false, objects, ⟨item.lead, stop.value⟩⟩, stop.rest)
  | none => do
    let (head, rest) ← loops.head first.value first.rest
    let mark := optionalMark head.stop rest
    let ((objects, stop), rest) ← loops.run true .member mark.value.2 mark.rest
    let stop := terminator stop rest
    return (⟨head.kindBefore mark.rest, head.name, mark.value.1, objects,
      ⟨item.lead, stop.value⟩⟩, stop.rest)

def membersRound (opening : Span) (members : List Member) :
    List Item → Attempt (Round (List Member) (List Member × Span) × List Item)
  | [] => throw ⟨.unclosed opening .brace, []⟩
  | item :: rest =>
    match item.token with
    | .closing d =>
      if d = .brace then
        return (.done (members, item.span), rest)
      else
        throw ⟨.unbalanced (some opening) (.closer .brace), item :: rest⟩
    | .sign .semicolon | .sign .comma => return (.again members, rest)
    | _ => do
      let (m, rest) ← loops.member item rest
      return (.again (members ++ [m]), rest)

def suffixRound (opening : Span) (stop : Nat) :
    List Item → Attempt (Round Nat Nat × List Item)
  | [] => throw ⟨.unclosed opening .angle, []⟩
  | item :: rest =>
    match item.token with
    | .sign .comma => return (.done stop, rest)
    | .closing d =>
      if d = .angle then
        return (.done stop, item :: rest)
      else
        throw ⟨.unbalanced (some opening) (.closer .angle), item :: rest⟩
    | .opening d => do
      let ((_, close), rest) ← loops.group false ⟨d, item.span⟩ [] rest
      return (.again close.stop, rest)
    | _ => return (.again item.span.stop, rest)

def paramsRound (opening : Span) (params : List TypeParam) :
    List Item → Attempt (Round (List TypeParam) (List TypeParam) × List Item)
  | [] => throw ⟨.expected .typeParameter, []⟩
  | item :: rest =>
    if item.token == .closing .angle then
      return (.done params, rest)
    else
      let first := skipModifiers paramModifiers item rest
      match first.value.token with
      | .identifier name => do
        let span := first.value.span
        let (stop, rest) ← loops.suffix opening span.stop first.rest
        return (.again (params ++ [⟨⟨name, span⟩, ⟨span.start, stop⟩⟩]), rest)
      | _ => throw ⟨.expected .typeParameter, first.value :: first.rest⟩

def paramList : List Item → Attempt (List TypeParam × List Item)
  | [] => return ([], [])
  | item :: rest =>
    if item.token == .opening .angle then
      loops.params item.span [] rest
    else
      return ([], item :: rest)

def heritageRound : List Item → Attempt (Round Unit Span × List Item)
  | [] => throw ⟨.expected .body, []⟩
  | item :: rest =>
    match item.token with
    | .opening d =>
      if d = .brace then
        return (.done item.span, rest)
      else do
        let (_, rest) ← loops.group false ⟨d, item.span⟩ [] rest
        return (.again (), rest)
    | .sign .semicolon | .closing _ => throw ⟨.expected .body, item :: rest⟩
    | _ => return (.again (), rest)

def aliasedType (items : List Item) : Attempt (TypeExpr × List Item) := do
  let ((objects, span), items) ← loops.scan true .statement false .empty items
  match span with
  | none => throw ⟨.expected .aliasedType, items⟩
  | some span => return (⟨objects, span⟩, items)

def typeAlias (start : Nat) (items : List Item) : Attempt (TypeAlias × List Item) := do
  let (name, items) ← .of (parseName .aliasName items)
  let (params, items) ← loops.paramList items
  let (_, items) ← .of (parseToken (.sign .equals) .equals items)
  let (type, items) ← loops.aliasedType items
  let stop := terminator type.span.stop items
  return (⟨name, params, type, ⟨start, stop.value⟩⟩, stop.rest)

def block (start : Nat) (items : List Item) : Attempt (MemberBlock × List Item) := do
  let (name, items) ← .of (parseName .declarationName items)
  let (params, items) ← loops.paramList items
  let (opening, items) ← loops.heritage items
  let ((members, close), items) ← loops.members opening [] items
  return (⟨name, params, members, ⟨start, close.stop⟩⟩, items)

def namespaceBlock (start : Nat) (keyword : Item) (items : List Item) :
    Attempt (Statement × List Item) := do
  let (name, items) ← .of (parseNamespaceName keyword items)
  match takeToken? (.opening .brace) items with
  | some opening => do
    let ((body, stop), rest) ← loops.statements (some opening.value.span) [] opening.rest
    return (.namespaceBlock name body ⟨start, stop⟩, rest)
  | none => do
    let ((objects, stop), rest) ← loops.run false .statement name.span.stop items
    let stop := terminator stop rest
    return (.other objects ⟨start, stop.value⟩, stop.rest)

/--
A statement that the tree does not show. It may be empty: where its first item ends every
expression, nothing is read but its separator.
-/
def otherStatement (start : Nat) (collect : Bool) (items : List Item) :
    Attempt (Statement × List Item) := do
  let ((objects, span), rest) ← loops.scanning collect .statement false .empty items
  let stop := terminator ((span.map Span.stop).getD start) rest
  return (.other objects ⟨start, stop.value⟩, stop.rest)

def statement (item : Item) (rest : List Item) : Attempt (Statement × List Item) :=
  let start := item.span.start
  let keyword := skipModifiers statementModifiers item rest
  match statementForm keyword.value keyword.rest with
  | .typeAlias => do
    let (decl, rest) ← loops.typeAlias start keyword.rest
    return (.typeAlias decl, rest)
  | .interfaceBlock => do
    let (block, rest) ← loops.block start keyword.rest
    return (.interfaceBlock block, rest)
  | .classBlock => do
    let (block, rest) ← loops.block start keyword.rest
    return (.classBlock block, rest)
  | .namespaceBlock => loops.namespaceBlock start keyword.value keyword.rest
  | .other collect => loops.otherStatement start collect (keyword.value :: keyword.rest)

def statementsRound (opening : Option Span) (statements : List Statement) :
    List Item → Attempt (Round (List Statement) (List Statement × Nat) × List Item)
  | [] =>
    match opening with
    | some opening => throw ⟨.unclosed opening .brace, []⟩
    | none => return (.done (statements, 0), [])
  | item :: rest =>
    match item.token with
    | .closing d =>
      if d = .brace && opening.isSome then
        return (.done (statements, item.span.stop), rest)
      else
        throw ⟨.unbalanced opening .statement, item :: rest⟩
    | .sign .semicolon => return (.again statements, rest)
    | _ => do
      let (statement, rest) ← loops.statement item rest
      return (.again (statements ++ [statement]), rest)

def next : DeclarationLoops where
  group collect opening objects items :=
    .loop (groupRound (loops.term collect) opening objects items) (loops.group collect opening)
  scan := loops.scanning
  members opening members items :=
    .loop (loops.membersRound opening members items) (loops.members opening)
  suffix opening stop items :=
    .loop (loops.suffixRound opening stop items) (loops.suffix opening)
  params opening params items :=
    .loop (loops.paramsRound opening params items) (loops.params opening)
  heritage items := .loop (loops.heritageRound items) fun _ => loops.heritage
  statements opening statements items :=
    .loop (loops.statementsRound opening statements items) (loops.statements opening)

def tree (ls : List Lexeme) : Option (Except Diagnostic DeclarationTree) :=
  (loops.statements none [] (Item.ofLexemes ls)).run.map fun
    | .ok ((statements, _), _) => .ok ⟨statements, ⟨0, endOfText ls⟩⟩
    | .error failure => .error (failure.diagnostic (endOfText ls))

/--
The loops where less than `calls` of them are entered or gone round one inside the other.
-/
def within : (calls : Nat) → DeclarationLoops
  | 0 =>
    { group := fun _ _ _ _ => .mk none
      scan := fun _ _ _ _ _ => .mk none
      members := fun _ _ _ => .mk none
      suffix := fun _ _ _ => .mk none
      params := fun _ _ _ => .mk none
      heritage := fun _ => .mk none
      statements := fun _ _ _ => .mk none }
  | calls + 1 => (within calls).next

@[simps group members suffix params heritage statements]
def bounded : DeclarationLoops where
  group collect opening objects items := do
    let ((more, close), rest) ← .of (parseGroup collect opening items)
    return ((objects ++ more, close), rest)
  scan collect place started scanned items :=
    let run (objects : List ObjectType) (last : Token) (span : Span) (items : List Item) :
        Attempt ((List ObjectType × Option Span) × List Item) := do
      let ((more, stop), rest) ← .of (parseRun collect place (some last) span.stop items)
      return ((objects ++ more, some ⟨span.start, stop⟩), rest)
    match scanned.reached, items with
    | some (last, span), items => run scanned.objects last span items
    | none, [] => return ((scanned.objects, none), [])
    | none, item :: rest =>
      if scanEndsBefore place started none item then
        return ((scanned.objects, none), item :: rest)
      else do
        let (term, rest) ← .of (parseTerm collect item rest)
        run (scanned.objects ++ term.objects) term.last ⟨item.span.start, term.stop⟩ rest
  members opening members items := do
    let ((more, close), rest) ← .of (parseMembers opening items)
    return ((members ++ more, close), rest)
  suffix opening stop items := .of (parseParamSuffix opening stop items)
  params opening params items := do
    let (more, rest) ← .of (parseParams opening items)
    return (params ++ more, rest)
  heritage items := .of (parseHeritage items)
  statements opening statements items := .of (parseStatements opening statements.reverse items)

end DeclarationLoops
end Delegation
