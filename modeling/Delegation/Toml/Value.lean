import Delegation.Toml.Number

/-!
This module contains the values of TOML documents, and how tables are filled. Which tables may still
be filled depends on how they came to be.
-/

namespace Delegation.Toml

inductive TableOrigin where
  | header
  | implied
  | dotted
  /--
  By braces. Nothing is added to such a table.
  -/
  | inline
deriving DecidableEq

inductive Value where
  | string (text : String)
  | number (numeral : Numeral)
  | boolean (isTrue : Bool)
  | datetime (text : String)
  | array (items : List Value)
  | table (origin : TableOrigin) (entries : List (String × Value))
  /--
  The tables of one header in double brackets. Only the last one, `current`, is added to.
  -/
  | tables (previous : List (List (String × Value))) (current : List (String × Value))

mutual

def Value.isReadable : Value → Bool
  | .string _ | .boolean _ | .datetime _ => true
  | .number numeral => numeral != .unreadable
  | .array items => areReadable items
  | .table _ entries => haveReadable entries
  | .tables previous current => allHaveReadable previous && haveReadable current

def areReadable : List Value → Bool
  | [] => true
  | v :: vs => v.isReadable && areReadable vs

def haveReadable : List (String × Value) → Bool
  | [] => true
  | (_, v) :: entries => v.isReadable && haveReadable entries

def allHaveReadable : List (List (String × Value)) → Bool
  | [] => true
  | t :: ts => haveReadable t && allHaveReadable ts

end

abbrev Table : Type :=
  List (String × Value)

namespace Table

def assign (t : Table) (key : String) (value : Value) : Table :=
  t.map fun entry => if entry.1 == key then (key, value) else entry

/--
Change the table at `path` by `f`. The path leads through all tables but those in braces, and
through the last one of several tables. Tables that are missing are implied.
-/
def update? (f : Table → Option Table) : List String → Table → Option Table
  | [], t => f t
  | key :: path, t =>
    match t.lookup key with
    | none => do return t ++ [(key, .table .implied (← update? f path []))]
    | some (.table .inline _) => none
    | some (.table origin inner) => do return t.assign key (.table origin (← update? f path inner))
    | some (.tables previous current) => do
      return t.assign key (.tables previous (← update? f path current))
    | some _ => none

/--
Add `value` under a dotted key. The key leads through tables that have no header of their own, and
through the last one of several tables. The table that it ends in is the work of dotted keys.
-/
def insert? (value : Value) : List String → Table → Option Table
  | [], _ => none
  | key :: path, t =>
    match path, t.lookup key with
    | [], none => some (t ++ [(key, value)])
    | [], some _ => none
    | path, none => do return t ++ [(key, .table .dotted (← insert? value path []))]
    | path, some (.table .dotted inner) => do
      return t.assign key (.table .dotted (← insert? value path inner))
    | [_], some (.table .implied _) => none
    | path, some (.table .implied inner) => do
      return t.assign key (.table .implied (← insert? value path inner))
    | [_], some (.tables ..) => none
    | path, some (.tables previous current) => do
      return t.assign key (.tables previous (← insert? value path current))
    | _, some _ => none

/--
Give the table under `key` a header. It may have none yet.
-/
def define? (key : String) (t : Table) : Option Table :=
  match t.lookup key with
  | none => some (t ++ [(key, .table .header [])])
  | some (.table .implied inner) => some (t.assign key (.table .header inner))
  | some _ => none

def extend? (key : String) (t : Table) : Option Table :=
  match t.lookup key with
  | none => some (t ++ [(key, .tables [] [])])
  | some (.tables previous current) => some (t.assign key (.tables (previous ++ [current]) []))
  | some _ => none

end Table
end Delegation.Toml
