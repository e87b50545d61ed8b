import Delegation.Parsed

/-!
This module contains what all readers of TOML share: how they fail, and what they pass over.
-/

namespace Delegation.Toml

inductive Fault where
  | unexpected (ahead : List Char)
  | longKey
deriving DecidableEq

abbrev Scan (α : Type) (bound : Nat) : Type :=
  Except Fault (Parsed Char α bound)

def isBlank (c : Char) : Bool :=
  c == ' ' || c == '\t'

def isPlain (c : Char) : Bool :=
  c == '\t' || (c >= ' ' && c != '\x7f')

def newline? : (cs : List Char) → Option (Parsed Char Unit cs.length)
  | '\n' :: cs => some (.leaving () cs)
  | '\r' :: '\n' :: cs => some (Parsed.leaving () cs).loosen
  | _ => none

def skipBlanks (cs : List Char) : Parsed Char (List Char) (cs.length + 1) :=
  .span isBlank cs

def skipSpace : (cs : List Char) → Parsed Char Unit (cs.length + 1)
  | '\n' :: cs => (skipSpace cs).loosen
  | '\r' :: '\n' :: cs => (skipSpace cs).loosen.loosen
  | c :: cs => if isBlank c then (skipSpace cs).loosen else .leaving () (c :: cs)
  | [] => .leaving () []

/--
Pass over blanks, line breaks and comments. A comment ends with its line, or at a character that no
comment has.
-/
def skipLines (isComment : Bool) : (cs : List Char) → Parsed Char Unit (cs.length + 1)
  | '\n' :: cs => (skipLines false cs).loosen
  | '\r' :: '\n' :: cs => (skipLines false cs).loosen.loosen
  | c :: cs =>
    if isComment then
      if isPlain c then (skipLines true cs).loosen else .leaving () (c :: cs)
    else if c == '#' then
      (skipLines true cs).loosen
    else if isBlank c then
      (skipLines false cs).loosen
    else
      .leaving () (c :: cs)
  | [] => .leaving () []

def readMark (c : Char) : (cs : List Char) → Scan Unit cs.length
  | [] => .error (.unexpected [])
  | d :: cs => if d == c then .ok (.leaving () cs) else .error (.unexpected (d :: cs))

def readBlankMark (c : Char) (cs : List Char) : Scan Unit cs.length := do
  let ⟨_, rest, h⟩ := skipBlanks cs
  let mark ← readMark c rest
  return mark.behind h

def readLineMark (c : Char) (cs : List Char) : Scan Unit cs.length := do
  let ⟨_, rest, h⟩ := skipLines false cs
  let mark ← readMark c rest
  return mark.behind h

end Delegation.Toml
