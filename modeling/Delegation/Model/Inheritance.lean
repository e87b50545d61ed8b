import Delegation.Model

/-!
This module contains the inheritance graph of a model and the search for a cycle in it.
-/

namespace Delegation

structure InheritanceGraph where
  names : List Ident
  edges : List (Ident × Ident)

namespace InheritanceGraph

def ofModel (m : Model) : InheritanceGraph :=
  let names := (m.entities.map (·.name)).eraseDups
  { names
    edges := m.entities.flatMap fun e =>
      (e.superTypes.filter names.contains).map fun superType => (e.name, superType) }

/--
The super types of `name`, the one of the last edge first.
-/
def neighbors (g : InheritanceGraph) (name : Ident) : List Ident :=
  ((g.edges.filter (·.1 == name)).map (·.2)).reverse

def superTypes (g : InheritanceGraph) (name : Ident) : List Ident :=
  (g.neighbors name).reverse

structure Search where
  seen : List Ident
  left : List Ident

def visit (g : InheritanceGraph) : (depth : Nat) → Search → (name : Ident) → Search
  | 0, s, _ => s
  | depth + 1, s, name =>
    if s.seen.contains name then
      s
    else
      let s := (g.neighbors name).foldl (g.visit depth) { s with seen := name :: s.seen }
      { s with left := name :: s.left }

/--
Search from all of `names`. No way without repetition is longer than the number of names.
-/
def search (g : InheritanceGraph) (names : List Ident) : Search :=
  names.foldl (g.visit g.names.length) ⟨[], []⟩

def reverse (g : InheritanceGraph) : InheritanceGraph where
  names := g.names
  edges := g.edges.map fun (name, superType) => (superType, name)

def ancestors (g : InheritanceGraph) (name : Ident) : List Ident :=
  (g.search (g.neighbors name)).seen

def componentOf (g : InheritanceGraph) (name : Ident) : List Ident :=
  let ancestors := g.ancestors name
  let descendants := g.reverse.ancestors name
  name :: ancestors.filter fun other => other != name && descendants.contains other

/--
The components of those of `names` that come last in theirs.
-/
def componentsFrom (g : InheritanceGraph) : (names : List Ident) → List (List Ident)
  | [] => []
  | name :: later =>
    let component := g.componentOf name
    if later.any component.contains then
      g.componentsFrom later
    else
      component :: g.componentsFrom later

def components (g : InheritanceGraph) : List (List Ident) :=
  g.componentsFrom (g.search g.names).left.reverse

def isCycle (g : InheritanceGraph) (component : List Ident) : Bool :=
  component.length > 1 || component.head?.any fun name => g.edges.contains (name, name)

def sort (g : InheritanceGraph) (component : List Ident) : List Ident :=
  g.names.filter component.contains

def findCycle? (g : InheritanceGraph) : Option (List Ident) :=
  (g.components.find? g.isCycle).map g.sort

end InheritanceGraph
end Delegation
