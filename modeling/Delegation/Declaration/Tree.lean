import Delegation.Span

/-!
This module contains the tree of a declaration file. It is a skeleton: it has the declarations,
their members and the object types inside type expressions, and for all else only the span.
-/

namespace Delegation

inductive MemberKind where
  | property
  | method
  /--
  The form `[key: string]: Type`, and the members of mapped types.
  -/
  | index
  | callSignature
  | constructSignature
deriving DecidableEq

mutual

structure ObjectType where
  members : List Member
  span : Span

structure Member where
  kind : MemberKind
  /--
  The name, without quotes. Signatures and computed members have none.
  -/
  name : Option (Located String)
  isOptional : Bool
  objects : List ObjectType
  /--
  What goes away with the member: the comments above it, the member and the separator behind it.
  -/
  span : Span

end

namespace Member

def isNamedSignature (m : Member) : Bool :=
  m.kind == .property || m.kind == .method

def name? (m : Member) : Option String :=
  m.name.map (·.value)

end Member

structure TypeParam where
  name : Located String
  span : Span

/--
A type expression, of which only the outermost object types are known.
-/
structure TypeExpr where
  objects : List ObjectType
  span : Span

structure TypeAlias where
  name : Located String
  params : List TypeParam
  type : TypeExpr
  span : Span

structure MemberBlock where
  name : Located String
  params : List TypeParam
  members : List Member
  span : Span

inductive Statement where
  | typeAlias (a : TypeAlias)
  | interfaceBlock (b : MemberBlock)
  | classBlock (b : MemberBlock)
  | namespaceBlock (name : Located String) (body : List Statement) (span : Span)
  | other (objects : List ObjectType) (span : Span)

namespace Statement

def span : Statement → Span
  | typeAlias a => a.span
  | interfaceBlock b => b.span
  | classBlock b => b.span
  | namespaceBlock _ _ span => span
  | other _ span => span

def name? : Statement → Option String
  | typeAlias a => some a.name.value
  | interfaceBlock b => some b.name.value
  | classBlock b => some b.name.value
  | namespaceBlock name _ _ => some name.value
  | other _ _ => none

end Statement

structure DeclarationTree where
  statements : List Statement
  span : Span

end Delegation
