import Delegation.Toml.Statement

/-!
This module contains TOML documents. After all statements of a document are read, each of them adds
to the table of the document.
-/

namespace Delegation.Toml

def maxKeyLength : Nat := 80

def keyNames (key : List Word) : Except Fault (List String) := do
  let names ← key.mapM Word.name
  if names.length ≤ maxKeyLength then
    return names
  else
    throw .longKey

def misplaced (key : List Word) : Fault :=
  .unexpected ((key.head?.map Word.ahead).getD [])

def fitting {α : Type} (key : List Word) (t? : Option α) : Except Fault α :=
  match t? with
  | some t => .ok t
  | none => .error (misplaced key)

mutual

def Node.value : Node → Except Fault Value
  | .word w => w.value
  | .array items => return .array (← nodeValues items)
  | .table entries => return .table .inline (← nodeTable [] entries)

def nodeValues : List Node → Except Fault (List Value)
  | [] => return []
  | node :: nodes => return (← node.value) :: (← nodeValues nodes)

def nodeTable (t : Table) : List (List Word × Node) → Except Fault Table
  | [] => return t
  | (key, node) :: entries => do
    let names ← keyNames key
    let value ← node.value
    nodeTable (← fitting key (t.insert? value names)) entries

end

structure Document where
  table : Table
  path : List String

namespace Document

def empty : Document :=
  ⟨[], []⟩

def add (d : Document) : Statement → Except Fault Document
  | .entry key node => do
    let names ← keyNames key
    let value ← node.value
    return { d with table := ← fitting key (d.table.update? (·.insert? value names) d.path) }
  | .header key => do
    let path ← keyNames key
    let table := d.table.update? (·.define? (path.getLastD "")) path.dropLast
    return ⟨← fitting key table, path⟩
  | .repeatedHeader key => do
    let path ← keyNames key
    let table := d.table.update? (·.extend? (path.getLastD "")) path.dropLast
    return ⟨← fitting key table, path⟩

end Document

def parse (source : List Char) : Except Fault Table := do
  let source := match source with
    | '\ufeff' :: cs => cs
    | cs => cs
  let statements ← readStatements [] source
  return (← statements.foldlM Document.add .empty).table

end Delegation.Toml
