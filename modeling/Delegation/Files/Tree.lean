import Delegation.Files.Access

/-!
This module contains trees of files. A place in the tree is the list of the names that lead to it
from the root. A path is followed name by name, through directories that are there.
-/

namespace Delegation

inductive FileNode where
  | file (contents : ByteArray)
  | directory

-- Byte arrays can be compared in more than one way, so that the instance is not derived.
instance : DecidableEq FileNode
  | .file a, .file b =>
    have := ByteArray.instDecidableEq a b
    decidable_of_iff (a = b) ⟨congrArg FileNode.file, FileNode.file.inj⟩
  | .file _, .directory | .directory, .file _ => isFalse nofun
  | .directory, .directory => isTrue rfl

def FileNode.isDirectory : FileNode → Bool
  | file _ => false
  | directory => true

structure FileTree where
  nodes : List (List String × FileNode)
  workingDirectory : List String
deriving DecidableEq

/--
The names between the slashes of a path, those without a character included.
-/
def namesOn (path : String) : List String :=
  go [] path.toList
where
  go (name : List Char) : List Char → List String
    | [] => [.ofList name.reverse]
    | c :: cs => if c == '/' then .ofList name.reverse :: go [] cs else go (c :: name) cs

namespace FileTree

def node? (t : FileTree) (place : List String) : Option FileNode :=
  if place.isEmpty then some .directory else t.nodes.lookup place

def putNode (t : FileTree) (place : List String) (node : FileNode) : FileTree :=
  { t with nodes := (place, node) :: t.nodes.filter (·.1 != place) }

def grow (t : FileTree) (place : List String) (node : FileNode) : FileTree :=
  (go t [] place.dropLast).putNode place node
where
  go (t : FileTree) (place : List String) : List String → FileTree
    | [] => t
    | name :: names =>
      let place := place ++ [name]
      let t := if (t.node? place).isSome then t else t.putNode place .directory
      go t place names

def maxNameLength : Nat := 255

def maxPathLength : Nat := 4095

def follow (t : FileTree) (place : List String) : List String → Except FileError (List String)
  | [] => .ok place
  | name :: names =>
    match t.node? place with
    | none => .error .notFound
    | some (.file _) => .error .notDirectory
    | some .directory =>
      if name = "" ∨ name = "." then
        t.follow place names
      else if name = ".." then
        t.follow place.dropLast names
      else if name.utf8ByteSize > maxNameLength then
        .error .nameTooLong
      else if (t.node? (place ++ [name])).isNone then
        .error .notFound
      else
        t.follow (place ++ [name]) names

def locate (t : FileTree) (path : String) : Except FileError (List String) :=
  if path.toList.contains '\x00' then
    .error .nulInPath
  else if path.isEmpty then
    .error .notFound
  else if path.utf8ByteSize > maxPathLength then
    .error .nameTooLong
  else
    t.follow (if path.startsWith "/" then [] else t.workingDirectory) (namesOn path)

def isPresent (t : FileTree) (path : String) : Bool :=
  (t.locate path).isOk

def isDirectory (t : FileTree) (path : String) : Bool :=
  match t.locate path with
  | .ok place => (t.node? place).any FileNode.isDirectory
  | .error _ => false

def read (t : FileTree) (path : String) : Except FileError String := do
  let place ← t.locate path
  match t.node? place with
  | some (.file contents) =>
    match String.fromUTF8? contents with
    | some text => return text
    | none => throw .notText
  | some .directory => throw .isDirectory
  | none => throw .notFound

def replace (t : FileTree) (path text : String) : Except FileError FileTree := do
  let place ← t.locate path
  match t.node? place with
  | some (.file _) => return t.putNode place (.file text.toUTF8)
  | some .directory => throw .isDirectory
  | none => throw .notFound

def nameBefore (a b : String) : Bool :=
  a.toList.lex b.toList fun c d => c.toNat < d.toNat

def files (t : FileTree) : List (List String × ByteArray) :=
  let files := t.nodes.filterMap fun (place, node) =>
    match node with
    | .file contents =>
      if t.workingDirectory.isPrefixOf place then
        some (place.drop t.workingDirectory.length, contents)
      else
        none
    | .directory => none
  files.mergeSort fun a b => !b.1.lex a.1 nameBefore

def access : FileAccess (StateM FileTree) where
  isPresent path := do return (← get).isPresent path
  isDirectory path := do return (← get).isDirectory path
  read path := do return (← get).read path
  replace path text := do
    match (← get).replace path text with
    | .ok t =>
      set t
      return .ok ()
    | .error e => return .error e

end FileTree
end Delegation
