/-!
This module contains identifiers, the names of entities and fields. They are written into generated
types as they are, so that only ASCII letters, digits and `_` may occur in them.
-/

namespace Delegation

def isIdentChar (c : Char) : Bool :=
  c.isAlphanum || c == '_'

def isIdent : List Char → Bool
  | [] => false
  | c :: cs => !c.isDigit && (c :: cs).all isIdentChar

structure Ident where
  name : String
  isIdent_name : isIdent name.toList = true
deriving DecidableEq

inductive IdentError where
  | empty
  | leadingDigit (name : String)
  | invalidChar (name : String) (c : Char)
deriving DecidableEq

namespace IdentError

def message : IdentError → String
  | empty => "identifier is empty"
  | leadingDigit name => "identifier `" ++ name ++ "` must not start with a digit"
  | invalidChar name c =>
    "identifier `" ++ name ++ "` contains invalid character `" ++ c.toString ++ "`"

end IdentError

namespace Ident

/--
The identifier that is written `name`. A leading digit is reported before all other characters.
-/
def ofName (name : String) : Except IdentError Ident :=
  if h : isIdent name.toList then
    .ok ⟨name, h⟩
  else
    match name.toList with
    | [] => .error .empty
    | c :: cs =>
      if c.isDigit then
        .error (.leadingDigit name)
      else
        .error (.invalidChar name (((c :: cs).find? (!isIdentChar ·)).getD c))

def sort (idents : List Ident) : List Ident :=
  idents.mergeSort fun a b => a.name ≤ b.name

end Ident
end Delegation
