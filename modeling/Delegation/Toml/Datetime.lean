/-!
This module contains the dates and times of TOML.
-/

namespace Delegation.Toml

def readField (n low high : Nat) (cs : List Char) : Option (Nat × List Char) :=
  let digits := cs.take n
  let number := digits.foldl (fun n c => 10 * n + (c.toNat - '0'.toNat)) 0
  if digits.length = n ∧ digits.all Char.isDigit ∧ low ≤ number ∧ number ≤ high then
    some (number, cs.drop n)
  else
    none

def behindMark? (c : Char) : List Char → Option (List Char)
  | [] => none
  | d :: cs => if d == c then some cs else none

def isLeapYear (year : Nat) : Bool :=
  year % 4 == 0 && (year % 100 != 0 || year % 400 == 0)

def daysOfMonth (year month : Nat) : Nat :=
  match month with
  | 2 => if isLeapYear year then 29 else 28
  | 4 | 6 | 9 | 11 => 30
  | _ => 31

def readDate (cs : List Char) : Option (List Char) := do
  let (year, cs) ← readField 4 0 9999 cs
  let (month, cs) ← readField 2 1 12 (← behindMark? '-' cs)
  let (_, cs) ← readField 2 1 (daysOfMonth year month) (← behindMark? '-' cs)
  return cs

def readFraction (cs : List Char) : Option (List Char) :=
  match cs with
  | '.' :: cs => do
    let (_, _) ← readField 1 0 9 cs
    return cs.dropWhile Char.isDigit
  | cs => some cs

def readTime (cs : List Char) : Option (List Char) := do
  let (_, cs) ← readField 2 0 23 cs
  let (_, cs) ← readField 2 0 59 (← behindMark? ':' cs)
  match cs with
  | ':' :: cs =>
    let (_, cs) ← readField 2 0 60 cs
    readFraction cs
  | cs => return cs

def readOffset (cs : List Char) : Option (List Char) :=
  match cs with
  | 'Z' :: cs | 'z' :: cs => some cs
  | '+' :: cs | '-' :: cs => do
    let (_, cs) ← readField 2 0 23 cs
    let (_, cs) ← readField 2 0 59 (← behindMark? ':' cs)
    return cs
  | cs => some cs

def isDatetime (cs : List Char) : Bool :=
  match readDate cs with
  | none => readTime cs == some []
  | some [] => true
  | some (mark :: cs) => (mark == 'T' || mark == 't' || mark == ' ')
      && (readTime cs >>= readOffset) == some []

end Delegation.Toml
