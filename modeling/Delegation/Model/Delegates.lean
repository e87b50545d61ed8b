import Delegation.Model

/-!
This module contains the delegates of a model, each with the entities that extend it.
-/

namespace Delegation

inductive EmptyDelegatePolicy where
  | skip
  | reject
deriving DecidableEq

structure DelegateRelation where
  delegate : Ident
  subtypes : List Ident
deriving DecidableEq

namespace DelegateRelation

def isDegenerate (r : DelegateRelation) : Bool :=
  r.subtypes.isEmpty

end DelegateRelation

structure DelegateGraph where
  relations : List DelegateRelation
deriving DecidableEq

namespace DelegateGraph

def relationOf (m : Model) (name : Ident) : DelegateRelation :=
  ⟨name, (m.entities.filter (·.extends? name)).map (·.name)⟩

def ofModel (m : Model) : DelegateGraph :=
  ⟨(m.delegates.map (·.name)).eraseDups.map (relationOf m)⟩

def subtypes? (g : DelegateGraph) (name : String) : Option (List Ident) :=
  (g.relations.find? (·.delegate.name == name)).map (·.subtypes)

def contains (g : DelegateGraph) (name : String) : Bool :=
  (g.subtypes? name).isSome

def degenerate (g : DelegateGraph) : List Ident :=
  (g.relations.filter (·.isDegenerate)).map (·.delegate)

end DelegateGraph
end Delegation
