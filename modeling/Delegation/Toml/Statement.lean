import Delegation.Toml.Word

/-!
This module contains the statements of TOML documents and their reader. It only finds out how words
are put together. What they mean, and whether the statements agree, is found out afterwards.
-/

namespace Delegation.Toml

inductive Node where
  | word (w : Word)
  | array (items : List Node)
  | table (entries : List (List Word × Node))

def Node.isMissing : Node → Bool
  | .word (.bare [] _) => true
  | _ => false

inductive Statement where
  | entry (key : List Word) (node : Node)
  | header (path : List Word)
  | repeatedHeader (path : List Word)

def readKey (cs : List Char) : Parsed Char (List Word) (cs.length + 1) :=
  let ⟨name, rest₁, h₁⟩ := readName cs
  match readBlankMark '.' rest₁ with
  | .error _ => ⟨[name], rest₁, h₁⟩
  | .ok ⟨_, rest₂, h₂⟩ =>
    let ⟨_, rest₃, h₃⟩ := skipBlanks rest₂
    let names := readKey rest₃
    (((names.within h₃).within h₂).loosen.within h₁).map (name :: ·)
termination_by cs.length

mutual

def readNode (depth : Nat) (cs : List Char) : Scan Node (cs.length + 1) :=
  match cs, depth with
  | '[' :: rest, depth + 1 => (readItems depth [] rest).map (·.loosen.loosen)
  | '\x7b' :: rest, depth + 1 => (readEntries depth [] rest).map (·.loosen.loosen)
  | '[' :: rest, 0 => .error (.unexpected ('[' :: rest))
  | '\x7b' :: rest, 0 => .error (.unexpected ('\x7b' :: rest))
  | cs, _ => .ok ((readSimple cs).map .word)
termination_by 2 * cs.length

def readItems (depth : Nat) (items : List Node) (cs : List Char) : Scan Node cs.length :=
  match readLineMark ']' cs with
  | .ok close => return close.map fun _ => .array items.reverse
  | .error _ => do
    let ⟨_, rest₁, h₁⟩ := skipLines false cs
    let ⟨item, rest₂, h₂⟩ ← readNode depth rest₁
    if item.isMissing then throw (.unexpected rest₁)
    match readLineMark ',' rest₂ with
    | .ok ⟨_, rest₃, h₃⟩ => do
      let array ← readItems depth (item :: items) rest₃
      return ((array.loosen.within h₃).behind h₂).behind h₁
    | .error _ => do
      let close ← readLineMark ']' rest₂
      return ((close.behind h₂).behind h₁).map fun _ => .array (item :: items).reverse
termination_by 2 * cs.length + 1

/--
The rest of a table in braces, after `entries`, last one first. There may be line breaks between
all of its parts, but not in a key.
-/
def readEntries (depth : Nat) (entries : List (List Word × Node)) (cs : List Char) :
    Scan Node cs.length :=
  match readLineMark '\x7d' cs with
  | .ok close => return close.map fun _ => .table entries.reverse
  | .error _ => do
    let ⟨_, rest₁, h₁⟩ := skipLines false cs
    let ⟨key, rest₂, h₂⟩ := readKey rest₁
    let ⟨_, rest₃, h₃⟩ ← readLineMark '=' rest₂
    let ⟨_, rest₄, h₄⟩ := skipLines false rest₃
    let ⟨node, rest₅, h₅⟩ ← readNode depth rest₄
    if node.isMissing then throw (.unexpected rest₄)
    match readLineMark ',' rest₅ with
    | .ok ⟨_, rest₆, h₆⟩ => do
      let table ← readEntries depth ((key, node) :: entries) rest₆
      let table := ((table.loosen.within h₆).behind h₅).behind h₄
      return ((table.loosen.within h₃).behind h₂).behind h₁
    | .error _ => do
      let close ← readLineMark '\x7d' rest₅
      let close := ((close.behind h₅).behind h₄).loosen.within h₃
      return ((close.behind h₂).behind h₁).map fun _ => .table ((key, node) :: entries).reverse
termination_by 2 * cs.length + 1

end

def maxDepth : Nat := 80

def readStatement (cs : List Char) : Scan Statement cs.length :=
  match cs with
  | '[' :: '[' :: cs => do
    let path := (skipBlanks cs).onward readKey
    let close ← path.andThen (readBlankMark ']')
    let close ← close.andThen (readMark ']')
    return close.loosen.map fun _ => .repeatedHeader path.value
  | '[' :: cs => do
    let path := (skipBlanks cs).onward readKey
    let close ← path.andThen (readBlankMark ']')
    return close.map fun _ => .header path.value
  | cs => do
    let ⟨key, rest, h⟩ := readKey cs
    let mark ← readBlankMark '=' rest
    let node ← (mark.onward skipBlanks).andMaybe (readNode maxDepth)
    return (node.behind h).map (.entry key ·)

def isEndOfLine (cs : List Char) : Bool :=
  match (skipBlanks cs).rest with
  | [] => true
  | c :: cs => c == '#' || (newline? (c :: cs)).isSome

def readStatements (acc : List Statement) (cs : List Char) : Except Fault (List Statement) :=
  match skipLines false cs with
  | ⟨_, [], _⟩ => .ok acc.reverse
  | ⟨_, c :: rest₁, _⟩ => do
    let ⟨statement, rest₂, _⟩ ← readStatement (c :: rest₁)
    if isEndOfLine rest₂ then
      readStatements (statement :: acc) rest₂
    else
      throw (.unexpected rest₂)
termination_by cs.length

end Delegation.Toml
