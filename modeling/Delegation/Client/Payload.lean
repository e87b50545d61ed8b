import Delegation.Client.Name
import Delegation.TypeNode

/-!
This module contains the payload type of a delegate: a union of the payloads of its subtypes, told
apart by the name of the subtype.
-/

namespace Delegation.Client

def discriminator (subtype : Ident) : TypeNode :=
  .object [("scalars", .object [("delegatedType", .stringLiteral subtype.name)])]

def payloadArm (params : List String) (subtype : Ident) : TypeNode :=
  let payload := (TypeNode.reference (payloadAlias subtype.name) []).withArgs
    (params.map (.reference · []))
  .parenthesized (.intersection [payload, discriminator subtype])

/--
The payload of a delegate, one arm for each of the `subtypes`. The type parameters of the alias are
handed on to each of them.
-/
def payloadUnion (subtypes : List Ident) (params : List String) : TypeNode :=
  .union (subtypes.map (payloadArm params))

end Delegation.Client
