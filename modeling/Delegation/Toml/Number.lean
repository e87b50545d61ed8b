import Delegation.Toml.Quoted

/-!
This module contains the numbers of TOML. A word may have the shape of a number and still have no
value, because it is too large or because letters stand among its digits.
-/

namespace Delegation.Toml

inductive Numeral where
  | integer (number : Int)
  | float (text : String)
  | unreadable
deriving DecidableEq

/--
`cs` without its underscores. Each of them comes in front of a digit and, if it `mayFollow` or not
at the start of `cs`, behind a digit.
-/
def withoutUnderscores? (isDigit : Char → Bool) (mayFollow : Bool) :
    List Char → Option (List Char)
  | [] => some []
  | '_' :: cs =>
    if mayFollow && (cs.head?.any isDigit) then
      withoutUnderscores? isDigit false cs
    else
      none
  | c :: cs => (c :: ·) <$> withoutUnderscores? isDigit (isDigit c) cs

def splitSign : List Char → Option Char × List Char
  | '+' :: cs => (some '+', cs)
  | '-' :: cs => (some '-', cs)
  | cs => (none, cs)

def signed (sign : Option Char) (magnitude : Nat) : Int :=
  if sign = some '-' then -magnitude else magnitude

/--
The integer that is written `digits` to the base `base`. There is room for it in 128 bits, with a
sign or without.
-/
def integerOf (base : Nat) (isDigit : Char → Bool) (sign : Option Char) (digits : List Char) :
    Numeral :=
  let number := signed sign (numberOfDigits base digits)
  if digits.isEmpty || !digits.all isDigit then
    .unreadable
  else if -Int.pow 2 127 ≤ number && number < Int.pow 2 128 then
    .integer number
  else
    .unreadable

def basedInteger? (base : Nat) (isDigit : Char → Bool) (cs : List Char) : Option Numeral := do
  let digits ← withoutUnderscores? isDigit false cs
  if digits.all isDigit then
    return integerOf base isDigit none digits
  else
    none

/--
Whether `digits`, times ten to the power of `exponent`, does not round to infinity as a number with
53 binary digits and exponents up to 1023.
-/
def isFinite (digits : List Char) (exponent : Int) : Bool :=
  let digits := digits.dropWhile (· == '0')
  let places := digits.length + exponent
  if digits.isEmpty || places < 309 then
    true
  else if places > 309 then
    false
  else
    numberOfDigits 10 digits * Nat.pow 10 exponent.toNat
      < (Nat.pow 2 1024 - Nat.pow 2 970) * Nat.pow 10 (-exponent).toNat

def splitDigits? (cs : List Char) : Option (List Char × List Char) :=
  match cs.takeWhile Char.isDigit with
  | [] => none
  | digits => some (digits, cs.dropWhile Char.isDigit)

structure FloatParts where
  whole : List Char
  fraction : List Char
  exponent : Int

namespace FloatParts

def ofDigits? (cs : List Char) : Option FloatParts := do
  let (whole, cs) ← splitDigits? cs
  let (fraction, cs) ← match cs with
    | '.' :: cs => splitDigits? cs
    | cs => some ([], cs)
  match cs with
  | [] => return ⟨whole, fraction, 0⟩
  | mark :: cs => do
    let (sign, cs) := splitSign cs
    let (power, cs) ← splitDigits? cs
    if (mark == 'e' || mark == 'E') && cs.isEmpty then
      return ⟨whole, fraction, signed sign (numberOfDigits 10 power)⟩
    else
      none

def isFinite (p : FloatParts) : Bool :=
  Toml.isFinite (p.whole ++ p.fraction) (p.exponent - p.fraction.length)

end FloatParts

/--
The number that is written `cs` behind its sign: a float if there is a point or an exponent, and an
integer otherwise. It has no zeros in front. An underscore may come right behind the sign, and the
digits of integers may be letters as far as underscores can tell.
-/
def decimal? (sign : Option Char) (cs : List Char) : Option Numeral := do
  let rest := cs.dropWhile Char.isDigit
  let startsWithZero := cs.head? == some '0'
  if rest.any fun c => c == '.' || c == 'e' || c == 'E' then
    let digits ← withoutUnderscores? Char.isDigit sign.isSome cs
    let parts ← FloatParts.ofDigits? digits
    if startsWithZero && parts.whole.length > 1 then
      none
    else
      return if parts.isFinite then .float (.ofList (sign.toList ++ digits)) else .unreadable
  else
    let digits ← withoutUnderscores? isHexDigit sign.isSome cs
    if cs.isEmpty || rest.head?.any (· != '_') || (startsWithZero && digits.length > 1) then
      none
    else
      return integerOf 10 Char.isDigit sign digits

def numeral? (cs : List Char) : Option Numeral :=
  match splitSign cs with
  | (_, ['i', 'n', 'f']) | (_, ['n', 'a', 'n']) => some (.float (.ofList cs))
  | (none, '0' :: 'x' :: cs) => basedInteger? 16 isHexDigit cs
  | (none, '0' :: 'o' :: cs) => basedInteger? 8 (fun c => '0' ≤ c && c ≤ '7') cs
  | (none, '0' :: 'b' :: cs) => basedInteger? 2 (fun c => c == '0' || c == '1') cs
  | (sign, cs) => decimal? sign cs

end Delegation.Toml
