import Delegation.Declaration.Tree
import Delegation.Token.Group

/-!
This module contains the parser of type expressions and of the members of object types. A type
expression is a run of items and balanced groups. Nothing closes it: it ends before a terminator,
or at a line break that does not continue it.
-/

namespace Delegation

def memberModifiers : List String :=
  ["readonly", "public", "private", "protected", "static", "abstract", "declare", "override",
   "accessor", "async", "get", "set"]

def openWords : List String :=
  ["extends", "keyof", "typeof", "infer", "is", "as", "in", "readonly", "unique", "asserts", "new"]

def linkWords : List String :=
  ["extends", "is", "as", "implements"]

inductive Place where
  | member
  | statement
deriving DecidableEq

namespace Token

def continuesAfter : Token → Bool
  | .sign .pipe | .sign .ampersand | .sign .arrow | .sign .question | .sign .colon | .sign .equals
  | .sign .dot | .sign .comma | .opening .angle => true
  | token => token.isWordOf openWords

def continuesBefore : Token → Bool
  | .sign .pipe | .sign .ampersand | .sign .arrow | .sign .question | .sign .colon
  | .sign .dot => true
  | token => token.isWordOf linkWords

def startsMemberName : Token → Bool
  | .identifier _ | .string _ | .number _ | .opening .bracket | .sign .hash => true
  | _ => false

def isTerminator : Token → Bool
  | .sign .semicolon | .closing _ => true
  | _ => false

def opensSignature : Token → Bool
  | .opening .paren | .opening .angle => true
  | _ => false

end Token

/--
Whether a type expression that has come to `last` ends before `item`. It has no `last` where it
only continues a name.
-/
def endsBefore (place : Place) (last : Option Token) (item : Item) : Bool :=
  item.token.isTerminator
    || (item.token == .sign .comma && place == .member)
    || (item.isOnNewLine && !last.any Token.continuesAfter && !item.token.continuesBefore)

def isMemberModifier (item next : Item) : Bool :=
  match item.token with
  | .sign .plus | .sign .minus => next.token.isWord "readonly"
  | token => token.isWordOf memberModifiers && next.token.startsMemberName

def skipMemberModifiers (item : Item) : (rest : List Item) → Parsed Item Item (rest.length + 1)
  | [] => .leaving item []
  | next :: rest =>
    if isMemberModifier item next then
      (skipMemberModifiers next rest).loosen
    else
      .leaving item (next :: rest)

/--
The mark behind a name: whether it makes the member optional, and where it ends. Without a mark the
name ends at `stop`.
-/
def optionalMark (stop : Nat) : (items : List Item) → Parsed Item (Bool × Nat) (items.length + 1)
  | [] => .leaving (false, stop) []
  | item :: rest =>
    match item.token, rest with
    | .sign .question, rest => (Parsed.leaving (true, item.span.stop) rest).loosen
    | .sign .bang, rest => (Parsed.leaving (false, item.span.stop) rest).loosen
    | .sign .plus, next :: rest =>
      if next.token == .sign .question then
        (Parsed.leaving (true, next.span.stop) rest).loosen.loosen
      else
        .leaving (false, stop) (item :: next :: rest)
    | .sign .minus, next :: rest =>
      if next.token == .sign .question then
        (Parsed.leaving (false, next.span.stop) rest).loosen.loosen
      else
        .leaving (false, stop) (item :: next :: rest)
    | _, rest => .leaving (false, stop) (item :: rest)

/--
Where a member or a statement ends that without its separator ends at `stop`. The separator stands
on the same line.
-/
def terminator (stop : Nat) : (items : List Item) → Parsed Item Nat (items.length + 1)
  | [] => .leaving stop []
  | item :: rest =>
    if (item.token == .sign .semicolon || item.token == .sign .comma) && !item.isOnNewLine then
      (Parsed.leaving item.span.stop rest).loosen
    else
      .leaving stop (item :: rest)

structure MemberHead where
  kind : MemberKind
  name : Option (Located String)
  stop : Nat

def memberHead (item : Item) (rest : List Item) : Parse MemberHead (rest.length + 1) :=
  match item.token with
  | .identifier name | .string name | .number name =>
    .ok (.leaving ⟨.property, some ⟨name, item.span⟩, item.span.stop⟩ rest)
  | .sign .hash => do
    let name ← parseName .privateMemberName rest
    return name.loosen.map fun name =>
      ⟨.property, some ⟨"#" ++ name.value, ⟨item.span.start, name.span.stop⟩⟩, name.span.stop⟩
  | .opening .bracket => do
    let close ← skipGroup ⟨.bracket, item.span⟩ [] rest
    let kind := if startsWith Token.opensSignature close.rest then .method else .index
    return close.loosen.map fun close => ⟨kind, none, close.span.stop⟩
  | _ => .error ⟨.expected .memberName, item :: rest⟩

/--
The kind of a member whose name is followed by `items`. Plain names do not tell properties and
methods apart.
-/
def MemberHead.kindBefore (head : MemberHead) (items : List Item) : MemberKind :=
  if head.kind == .property && startsWith Token.opensSignature items then .method else head.kind

def signatureStart? (item : Item) (rest : List Item) :
    Option (MemberKind × Parsed Item Item (rest.length + 1)) :=
  if item.token.opensSignature then
    some (.callSignature, .leaving item rest)
  else
    match rest with
    | next :: rest' =>
      if item.token.isWord "new" && next.token.opensSignature then
        some (.constructSignature, (Parsed.leaving next rest').loosen)
      else
        none
    | [] => none

structure Term where
  objects : List ObjectType
  last : Token
  stop : Nat

mutual

def parseTerm (collect : Bool) (item : Item) (rest : List Item) : Parse Term (rest.length + 1) :=
  match item.token with
  | .opening d =>
    if collect && d == .brace then do
      let members ← parseMembers item.span rest
      return members.loosen.map fun (members, close) =>
        ⟨[⟨members, ⟨item.span.start, close.stop⟩⟩], .closing .brace, close.stop⟩
    else do
      let group ← parseGroup collect ⟨d, item.span⟩ rest
      return group.loosen.map fun (objects, close) => ⟨objects, .closing d, close.stop⟩
  | token => .ok (.leaving ⟨[], token, item.span.stop⟩ rest)
termination_by 4 * rest.length + 4

def parseGroup (collect : Bool) (opening : OpenDelimiter) (items : List Item) :
    Parse (List ObjectType × Span) items.length :=
  match items with
  | [] => .error ⟨.unclosed opening.span opening.delimiter, []⟩
  | item :: rest =>
    if item.token == .closing opening.delimiter then
      .ok (.leaving ([], item.span) rest)
    else if item.token.isClosing then
      .error ⟨.unbalanced (some opening.span) (.closer opening.delimiter), item :: rest⟩
    else do
      let ⟨term, rest', h⟩ ← parseTerm collect item rest
      let group ← parseGroup collect opening rest'
      return (group.loosen.within h).map fun (objects, close) => (term.objects ++ objects, close)
termination_by 4 * items.length + 1

/--
The rest of a type expression that has come to `last` and to the offset `stop`: its object types,
and where it ends.
-/
def parseRun (collect : Bool) (place : Place) (last : Option Token) (stop : Nat)
    (items : List Item) : Parse (List ObjectType × Nat) (items.length + 1) :=
  match items with
  | [] => .ok (.leaving ([], stop) [])
  | item :: rest =>
    if endsBefore place last item then
      .ok (.leaving ([], stop) (item :: rest))
    else do
      let ⟨term, rest', h⟩ ← parseTerm collect item rest
      let run ← parseRun collect place (some term.last) term.stop rest'
      return (run.within h).loosen.map fun (objects, stop) => (term.objects ++ objects, stop)
termination_by 4 * items.length + 1

def parseMembers (opening : Span) (items : List Item) :
    Parse (List Member × Span) items.length :=
  match items with
  | [] => .error ⟨.unclosed opening .brace, []⟩
  | item :: rest =>
    match item.token with
    | .closing d =>
      if d = .brace then
        .ok (.leaving ([], item.span) rest)
      else
        .error ⟨.unbalanced (some opening) (.closer .brace), item :: rest⟩
    | .sign .semicolon | .sign .comma => (parseMembers opening rest).map .loosen
    | _ => do
      let ⟨m, rest', h⟩ ← parseMember item rest
      let members ← parseMembers opening rest'
      return (members.loosen.within h).map fun (members, close) => (m :: members, close)
termination_by 4 * items.length + 3

def parseMember (item : Item) (rest : List Item) : Parse Member (rest.length + 1) :=
  let ⟨first, rest₁, h₁⟩ := skipMemberModifiers item rest
  match signatureStart? first rest₁ with
  | some (kind, ⟨start, rest₂, h₂⟩) => do
    let ⟨term, rest₃, h₃⟩ ← parseTerm true start rest₂
    let run ← parseRun true .member (some term.last) term.stop rest₃
    let stop := run.onward (terminator run.value.2)
    return (((stop.within h₃).within h₂).within h₁).map fun stop =>
      ⟨kind, none, false, term.objects ++ run.value.1, ⟨item.lead, stop⟩⟩
  | none => do
    let ⟨head, rest₂, h₂⟩ ← memberHead first rest₁
    let ⟨(isOptional, stop), rest₃, h₃⟩ := optionalMark head.stop rest₂
    let run ← parseRun true .member none stop rest₃
    let stop := run.onward (terminator run.value.2)
    return (((stop.within h₃).within h₂).within h₁).map fun stop =>
      ⟨head.kindBefore rest₃, head.name, isOptional, run.value.1, ⟨item.lead, stop⟩⟩
termination_by 4 * rest.length + 6

end

end Delegation
