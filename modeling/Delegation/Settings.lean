import Delegation.Text.Bytes
import Delegation.Model.Delegates
import Delegation.Toml.Document

/-!
This module contains the settings, which are read from a TOML document. What is not set keeps its
default.
-/

namespace Delegation

structure Settings where
  policy : EmptyDelegatePolicy
  artifactPath : String
deriving DecidableEq

inductive SettingsFault where
  | text (offset : Nat)
  | longKey
  | value (key : String)
deriving DecidableEq

namespace SettingsFault

def message : SettingsFault → String
  | text offset => "no valid TOML at byte " ++ toString offset
  | longKey => "a key has too many names"
  | value key => "invalid value of `" ++ key ++ "`"

def hasPlace : SettingsFault → Bool
  | text _ | value _ => true
  | longKey => false

end SettingsFault

namespace EmptyDelegatePolicy

def ofName? : String → Option EmptyDelegatePolicy
  | "skip" => some skip
  | "reject" => some reject
  | _ => none

end EmptyDelegatePolicy

namespace Settings

open Toml

def default : Settings :=
  ⟨.skip, ".prisma/index.d.ts"⟩

/--
What a section with a single setting sets: in a table by its key, in a list by its place. A section
that is a date sets nothing. What else is in a table is passed over, but its numbers are read. What
else is in a list is not looked at.
-/
def section? (key : String) : Value → Except SettingsFault (Option Value)
  | .table _ entries =>
    if haveReadable (entries.filter (·.1 != key)) then
      .ok (entries.lookup key)
    else
      .error (.value key)
  | .array items => .ok items.head?
  | .tables previous current => .ok (some (.table .header (previous.headD current)))
  | .datetime _ => .ok none
  | _ => .error (.value key)

/--
A policy is given by its name, alone or as the key of something empty.
-/
def policy? : Value → Option EmptyDelegatePolicy
  | .string name => EmptyDelegatePolicy.ofName? name
  | .table _ [(name, .table _ [])] => EmptyDelegatePolicy.ofName? name
  | .table _ [(name, .array [])] => EmptyDelegatePolicy.ofName? name
  | _ => none

def path? : Value → Option String
  | .string path => some path
  | _ => none

def setting {α : Type} (t : Table) (name key : String) (read? : Value → Option α) (default : α) :
    Except SettingsFault α := do
  match t.lookup name with
  | none => return default
  | some content =>
    match ← section? key content with
    | none => return default
    | some value =>
      match read? value with
      | some setting => return setting
      | none => throw (.value key)

/--
The settings of a document. What else is in it is passed over, but its numbers are read.
-/
def ofTable (t : Table) : Except SettingsFault Settings := do
  for (name, value) in t do
    if name != "rewrite" && name != "artifact" && !value.isReadable then
      throw (.value name)
  return {
    policy := ← setting t "rewrite" "empty_delegate" policy? default.policy
    artifactPath := ← setting t "artifact" "path" path? default.artifactPath }

def parse (source : List Char) : Except SettingsFault Settings :=
  match Toml.parse source with
  | .error (.unexpected ahead) => .error (.text (byteLength source - byteLength ahead))
  | .error .longKey => .error .longKey
  | .ok t => ofTable t

end Settings
end Delegation
