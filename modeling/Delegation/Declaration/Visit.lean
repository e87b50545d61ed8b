import Delegation.Declaration.Tree

/-!
This module contains the walk over a declaration tree: the nodes in source order, each in front of
what is inside it.
-/

namespace Delegation

inductive Owner where
  | typeLiteral (o : ObjectType)
  | interfaceBlock (b : MemberBlock)
  | classBlock (b : MemberBlock)

namespace Owner

def isSignatureOwner : Owner → Bool
  | typeLiteral _ | interfaceBlock _ => true
  | classBlock _ => false

end Owner

inductive NodeKind where
  | statement
  | typeAlias
  | interfaceBlock
  | classBlock
  | namespaceBlock
  | other
  | object
  | member
deriving DecidableEq

inductive Node where
  | statement (s : Statement)
  | typeAlias (a : TypeAlias)
  | interfaceBlock (b : MemberBlock)
  | classBlock (b : MemberBlock)
  | namespaceBlock (name : Located String) (body : List Statement) (span : Span)
  | other (objects : List ObjectType) (span : Span)
  | object (o : ObjectType)
  | member (owner : Owner) (m : Member)

namespace Node

def span : Node → Span
  | statement s => s.span
  | typeAlias a => a.span
  | interfaceBlock b => b.span
  | classBlock b => b.span
  | namespaceBlock _ _ span => span
  | other _ span => span
  | object o => o.span
  | member _ m => m.span

end Node

variable (stops : NodeKind → Bool)

mutual

def visitObject : ObjectType → List Node
  | ⟨members, span⟩ =>
    let o := ⟨members, span⟩
    .object o :: if stops .object then [] else visitMembers (.typeLiteral o) members

def visitObjects : List ObjectType → List Node
  | [] => []
  | o :: os => visitObject o ++ visitObjects os

def visitMember (owner : Owner) : Member → List Node
  | ⟨kind, name, isOptional, objects, span⟩ =>
    .member owner ⟨kind, name, isOptional, objects, span⟩ ::
      if stops .member then [] else visitObjects objects

def visitMembers (owner : Owner) : List Member → List Node
  | [] => []
  | m :: ms => visitMember owner m ++ visitMembers owner ms

end

mutual

def visitStatement : Statement → List Node
  | .typeAlias a =>
    .statement (.typeAlias a) :: if stops .statement then [] else
      .typeAlias a :: if stops .typeAlias then [] else visitObjects stops a.type.objects
  | .interfaceBlock b =>
    .statement (.interfaceBlock b) :: if stops .statement then [] else
      .interfaceBlock b ::
        if stops .interfaceBlock then [] else visitMembers stops (.interfaceBlock b) b.members
  | .classBlock b =>
    .statement (.classBlock b) :: if stops .statement then [] else
      .classBlock b :: if stops .classBlock then [] else visitMembers stops (.classBlock b) b.members
  | .namespaceBlock name body span =>
    .statement (.namespaceBlock name body span) :: if stops .statement then [] else
      .namespaceBlock name body span ::
        if stops .namespaceBlock then [] else visitStatements body
  | .other objects span =>
    .statement (.other objects span) :: if stops .statement then [] else
      .other objects span :: if stops .other then [] else visitObjects stops objects

def visitStatements : List Statement → List Node
  | [] => []
  | s :: ss => visitStatement s ++ visitStatements ss

end

/--
The nodes of a tree in source order, without the insides of nodes of a kind in `stops`.
-/
def DeclarationTree.visit (tree : DeclarationTree) : List Node :=
  visitStatements stops tree.statements

end Delegation
