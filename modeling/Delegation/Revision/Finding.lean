import Delegation.Client.Payload
import Delegation.Declaration.Visit
import Delegation.Edit

/-!
This module contains what a declaration tree holds that does not fit the delegates of a model.
-/

namespace Delegation

inductive Finding where
  | payload (typeName : String) (span : Span) (subtypes : List Ident) (params : List String)
  | emptyDelegate (delegate : String)
  | inputAlias (typeName delegate : String)
  | accessor (interface : String)
  | auxMember (member : String) (span : Span)
  | creatingMethod (interface method : String) (span : Span)
  | nestedWrite (member : String) (span : Span)

namespace Finding

def edit? : Finding → Option Edit
  | payload _ span subtypes params =>
    some (.replacement span (Client.payloadUnion subtypes params).render)
  | auxMember _ span | creatingMethod _ _ span | nestedWrite _ span => some (.removal span)
  | emptyDelegate _ | inputAlias .. | accessor _ => none

end Finding

variable (g : DelegateGraph)

def MemberBlock.isAccessor (b : MemberBlock) : Bool :=
  (Client.accessorEntity? b.name.value).any g.contains

/--
Why `m`, a member of `owner`, has to go. `isInput` tells whether it is inside an input of a
delegate.
-/
def memberFinding? (isInput : Bool) (owner : Owner) (m : Member) : Option Finding :=
  match m.name? with
  | none => none
  | some name =>
    if owner.isSignatureOwner && m.isNamedSignature && Client.isAuxMember name then
      some (.auxMember name m.span)
    else
      match owner with
      | .interfaceBlock b =>
        if b.isAccessor g && m.kind == .method && Client.isCreatingMethod name then
          some (.creatingMethod b.name.value name m.span)
        else
          none
      | .typeLiteral _ =>
        if isInput && m.kind == .property && Client.isNestedWrite name then
          some (.nestedWrite name m.span)
        else
          none
      | .classBlock _ => none

mutual

/--
The findings in an object type. What is inside a member that has to go is not looked at.
-/
def objectFindings (isInput : Bool) : ObjectType → List Finding
  | ⟨members, span⟩ => membersFindings isInput (.typeLiteral ⟨members, span⟩) members

def objectsFindings (isInput : Bool) : List ObjectType → List Finding
  | [] => []
  | o :: os => objectFindings isInput o ++ objectsFindings isInput os

def memberFindings (isInput : Bool) (owner : Owner) : Member → List Finding
  | ⟨kind, name, isOptional, objects, span⟩ =>
    match memberFinding? g isInput owner ⟨kind, name, isOptional, objects, span⟩ with
    | some finding => [finding]
    | none => objectsFindings isInput objects

def membersFindings (isInput : Bool) (owner : Owner) : List Member → List Finding
  | [] => []
  | m :: ms => memberFindings isInput owner m ++ membersFindings isInput owner ms

end

def payloadFinding? (a : TypeAlias) : Option Finding := do
  let delegate ← Client.payloadEntity? a.name.value
  match ← g.subtypes? delegate with
  | [] => return .emptyDelegate delegate
  | subtypes => return .payload a.name.value a.type.span subtypes (a.params.map (·.name.value))

mutual

def statementFindings : Statement → List Finding
  | .typeAlias a =>
    let delegate? := Client.inputAliasDelegate? a.name.value g
    (payloadFinding? g a).toList
      ++ (delegate?.map (.inputAlias a.name.value)).toList
      ++ objectsFindings g delegate?.isSome a.type.objects
  | .interfaceBlock b =>
    (if b.isAccessor g then [.accessor b.name.value] else [])
      ++ membersFindings g false (.interfaceBlock b) b.members
  | .classBlock b => membersFindings g false (.classBlock b) b.members
  | .namespaceBlock _ body _ => statementsFindings body
  | .other objects _ => objectsFindings g false objects

def statementsFindings : List Statement → List Finding
  | [] => []
  | s :: ss => statementFindings s ++ statementsFindings ss

end

def DeclarationTree.findings (tree : DeclarationTree) : List Finding :=
  statementsFindings g tree.statements

end Delegation
