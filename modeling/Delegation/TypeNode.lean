/-!
This module contains the types that are written into a declaration file, and how they are written.
-/

namespace Delegation

inductive TypeNode where
  /--
  A named type with its arguments: `Name<A, B>`.
  -/
  | reference (name : String) (args : List TypeNode)
  | stringLiteral (value : String)
  | object (properties : List (String × TypeNode))
  | intersection (members : List TypeNode)
  | union (members : List TypeNode)
  | parenthesized (inner : TypeNode)

namespace TypeNode

def withArgs (node : TypeNode) (more : List TypeNode) : TypeNode :=
  match node with
  | reference name args => reference name (args ++ more)
  | node => node

/--
The inside of a string in single quotes. A quote or a backslash is written with a backslash in
front of it.
-/
def escape (cs : List Char) : List Char :=
  cs.flatMap fun c => if c == '\x27' || c == '\\' then ['\\', c] else [c]

mutual

def render : TypeNode → List Char
  | reference name [] => name.toList
  | reference name (arg :: args) =>
    name.toList ++ '<' :: render arg ++ renderMore ", ".toList args ++ ['>']
  | stringLiteral value => '\x27' :: escape value.toList ++ ['\x27']
  | object [] => ['{', '}']
  | object (property :: properties) =>
    "\x7b ".toList ++ renderProperty property ++ renderProperties properties ++ " \x7d".toList
  | intersection members => renderJoined " & ".toList members
  | union members => renderJoined " | ".toList members
  | parenthesized inner => '(' :: render inner ++ [')']

def renderJoined (separator : List Char) : List TypeNode → List Char
  | [] => []
  | node :: nodes => render node ++ renderMore separator nodes

def renderMore (separator : List Char) : List TypeNode → List Char
  | [] => []
  | node :: nodes => separator ++ render node ++ renderMore separator nodes

def renderProperty : String × TypeNode → List Char
  | (name, type) => name.toList ++ ": ".toList ++ render type

def renderProperties : List (String × TypeNode) → List Char
  | [] => []
  | property :: properties =>
    "; ".toList ++ renderProperty property ++ renderProperties properties

end

end TypeNode
end Delegation
