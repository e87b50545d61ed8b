import Delegation.Span

/-!
This module contains the tree of a schema file. Only models are in it.
-/

namespace Delegation

structure AttributeDecl where
  /--
  The name with its sigil and its dots. Its span includes the arguments.
  -/
  name : Located String
  args : Option Span

structure FieldDecl where
  name : Located String
  typeName : Located String
  isArray : Bool
  isOptional : Bool
  attributes : List AttributeDecl

structure ModelDecl where
  isAbstract : Bool
  name : Located String
  superTypes : List (Located String)
  fields : List FieldDecl
  attributes : List AttributeDecl
  span : Span

structure SchemaFile where
  models : List ModelDecl

end Delegation
