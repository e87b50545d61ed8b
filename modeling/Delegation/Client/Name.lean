import Delegation.Model.Delegates

/-!
This module contains the names in the declarations of a generated client, and what they say about
the entities of the model.
-/

namespace Delegation

def dropStart? (start name : String) : Option String :=
  (start.toList.isPrefixOf? name.toList).map String.ofList

def dropEnding? (ending name : String) : Option String :=
  (ending.toList.isSuffixOf? name.toList).map String.ofList

namespace Client

def isAuxMember (name : String) : Bool :=
  (dropStart? "poly_aux_" name).isSome

def isNestedWrite (name : String) : Bool :=
  ["create", "update", "updateMany", "upsert", "connectOrCreate"].contains name

def isCreatingMethod (name : String) : Bool :=
  ["create", "upsert"].contains name

def payloadAlias (entity : String) : String :=
  "$" ++ entity ++ "Payload"

def entityBefore? (ending name : String) : Option String :=
  (dropEnding? ending name).filter (· != "")

def payloadEntity? (typeName : String) : Option String := do
  entityBefore? "Payload" (← dropStart? "$" typeName)

def accessorEntity? (interface : String) : Option String :=
  entityBefore? "Delegate" interface

/--
Whether `typeName` is an input type that creates or updates `entity`: the name of the entity,
possibly `Unchecked`, `Create` or `Update`, and anything that ends in `Input`.
-/
def isInputAliasOf (typeName entity : String) : Bool :=
  match dropStart? entity typeName with
  | none => false
  | some rest =>
    let rest := (dropStart? "Unchecked" rest).getD rest
    ["Create", "Update"].any fun operation =>
      (dropStart? operation rest).any fun tail => (dropEnding? "Input" tail).isSome

def inputAliasDelegate? (typeName : String) (g : DelegateGraph) : Option String :=
  (g.relations.map (·.delegate.name)).find? (isInputAliasOf typeName)

end Client
end Delegation
