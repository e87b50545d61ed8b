import Delegation.Declaration.Parser
import Delegation.Revision.Finding

/-!
This module contains the revision of a declaration file: the text that fits the delegates of a
model, and an account of what was changed.
-/

namespace Delegation

structure Summary where
  payloads : Nat
  inputAliases : Nat
  auxMembers : Nat
  nestedWrites : Nat
  creatingMethods : Nat
deriving DecidableEq

namespace Summary

def ofFindings (findings : List Finding) : Summary where
  payloads := findings.countP (· matches .payload ..)
  inputAliases := findings.countP (· matches .inputAlias ..)
  auxMembers := findings.countP (· matches .auxMember ..)
  nestedWrites := findings.countP (· matches .nestedWrite ..)
  creatingMethods := findings.countP (· matches .creatingMethod ..)

def removals (s : Summary) : Nat :=
  s.auxMembers + s.nestedWrites + s.creatingMethods

def isEmpty (s : Summary) : Bool :=
  s.payloads == 0 && s.removals == 0

def message (s : Summary) : String :=
  toString s.payloads ++ " payload(s) replaced, "
    ++ toString s.auxMembers ++ " auxiliary member(s), "
    ++ toString s.nestedWrites ++ " nested write(s) and "
    ++ toString s.creatingMethods ++ " accessor method(s) removed"

end Summary

structure Revision where
  text : List Char
  summary : Summary
deriving DecidableEq

inductive ReviseError where
  | parse (e : ParseError)
  | edit (e : EditError)
deriving DecidableEq

def reviseTree (g : DelegateGraph) (source : List Char) (tree : DeclarationTree) :
    Except EditError Revision := do
  let findings := tree.findings g
  let splice ← applyEdits source (findings.filterMap Finding.edit?)
  return ⟨splice.text, .ofFindings findings⟩

def revise (m : Model) (source : List Char) : Except ReviseError Revision := do
  let tree ← (DeclarationTree.parse source).mapError .parse
  (reviseTree (.ofModel m) source tree).mapError .edit

end Delegation
