import Delegation.Ident
import Delegation.Text.Blank

/-!
This module contains models: the entities of a schema, with what they extend. The order of a model
is the order of its schema.
-/

namespace Delegation

structure Attribute where
  name : String
  args : Option String
deriving DecidableEq

structure Field where
  name : Ident
  typeName : String
  isArray : Bool
  isOptional : Bool
  attributes : List Attribute
deriving DecidableEq

structure Entity where
  name : Ident
  isAbstract : Bool
  fields : List Field
  attributes : List Attribute
  superTypes : List Ident
deriving DecidableEq

namespace Entity

/--
The first attribute that marks the entity as a delegate: as one that only exists as one of the
entities that extend it.
-/
def delegateMark? (e : Entity) : Option Attribute :=
  e.attributes.find? (·.name == "@@delegate")

def isDelegate (e : Entity) : Bool :=
  e.delegateMark?.isSome

def discriminator? (e : Entity) : Option String := do
  let mark ← e.delegateMark?
  let args ← mark.args
  match trimBlank args.toList with
  | [] => none
  | name => some (.ofList name)

def extends? (e : Entity) (superType : Ident) : Bool :=
  e.superTypes.contains superType

end Entity

structure Model where
  entities : List Entity
deriving DecidableEq

namespace Model

def empty : Model :=
  ⟨[]⟩

def entity? (m : Model) (name : String) : Option Entity :=
  m.entities.find? (·.name.name == name)

def delegates (m : Model) : List Entity :=
  m.entities.filter (·.isDelegate)

end Model
end Delegation
