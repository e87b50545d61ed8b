import Delegation.Toml.Text

/-!
This module contains the strings of TOML. There are four styles of them: with escapes or without, on
one line or on several.
-/

namespace Delegation.Toml

structure StringStyle where
  quote : Char
  hasEscapes : Bool
  isMultiLine : Bool
deriving DecidableEq

def digitValue (c : Char) : Nat :=
  if c.isDigit then
    c.toNat - '0'.toNat
  else
    c.toLower.toNat - 'a'.toNat + 10

def isHexDigit (c : Char) : Bool :=
  c.isDigit || ('a' ≤ c.toLower && c.toLower ≤ 'f')

def numberOfDigits (base : Nat) (digits : List Char) : Nat :=
  digits.foldl (fun n c => base * n + digitValue c) 0

def readNumbered (n : Nat) (cs : List Char) : Scan Char (cs.length + 1) :=
  let digits := Parsed.splitAt n cs
  let number := numberOfDigits 16 digits.value
  if digits.value.length = n ∧ digits.value.all isHexDigit ∧ number.isValidChar then
    .ok (digits.map fun _ => .ofNat number)
  else
    .error (.unexpected cs)

def readEscape : (cs : List Char) → Scan Char cs.length
  | [] => .error (.unexpected [])
  | c :: cs =>
    match c with
    | 'b' => .ok (.leaving '\x08' cs)
    | 't' => .ok (.leaving '\t' cs)
    | 'n' => .ok (.leaving '\n' cs)
    | 'f' => .ok (.leaving '\x0c' cs)
    | 'r' => .ok (.leaving '\r' cs)
    | 'e' => .ok (.leaving '\x1b' cs)
    | '\x22' => .ok (.leaving '\x22' cs)
    | '\\' => .ok (.leaving '\\' cs)
    | 'x' => readNumbered 2 cs
    | 'u' => readNumbered 4 cs
    | 'U' => readNumbered 8 cs
    | _ => .error (.unexpected (c :: cs))

def escapedNewline? (cs : List Char) : Option (Parsed Char Unit (cs.length + 1)) :=
  let ⟨_, rest, h⟩ := skipBlanks cs
  match newline? rest with
  | none => none
  | some newline => some ((newline.onward skipSpace).loosen.within h)

namespace StringStyle

def admits (style : StringStyle) (c : Char) (cs : List Char) : Bool :=
  isPlain c || (style.isMultiLine && (newline? (c :: cs)).isSome)

/--
The end of a string, behind its first quote: what of the quotes still belongs to the string. Three
quotes end a string on several lines, and up to two more in front of them belong to it.
-/
def closing? (style : StringStyle) (cs : List Char) :
    Option (Parsed Char (List Char) (cs.length + 1)) :=
  let quotes := (cs.takeWhile (· == style.quote)).length
  if !style.isMultiLine then
    some (.leaving [] cs)
  else if quotes < 2 then
    none
  else
    let extra := min (quotes - 2) 2
    some ((Parsed.splitAt (extra + 2) cs).map (·.take extra))

/--
Pass over a string to its end, whatever its characters are. A string on one line that is not closed
ends with the line. A backslash takes the meaning from a quote or a backslash behind it.
-/
def skip (style : StringStyle) (isEscaped : Bool) :
    (cs : List Char) → Parsed Char Unit (cs.length + 1)
  | [] => .leaving () []
  | c :: cs =>
    if isEscaped && (c == style.quote || c == '\\') then
      (style.skip false cs).loosen
    else if c == '\n' && !style.isMultiLine then
      .leaving () (c :: cs)
    else if c == style.quote then
      match style.closing? cs with
      | some quotes => (quotes.map fun _ => ()).loosen
      | none => (style.skip false cs).loosen
    else
      (style.skip (style.hasEscapes && c == '\\') cs).loosen

def readBody (style : StringStyle) (read : List Char) (cs : List Char) : Scan String cs.length :=
  match cs with
  | [] => .error (.unexpected [])
  | c :: cs =>
    if c == style.quote then
      match style.closing? cs with
      | some quotes => .ok (quotes.map fun quotes => .ofList (read.reverse ++ quotes))
      | none => (style.readBody (c :: read) cs).map .loosen
    else if style.hasEscapes && c == '\\' then
      match if style.isMultiLine then escapedNewline? cs else none with
      | some ⟨_, rest, h⟩ => do
        let body ← style.readBody read rest
        return body.loosen.within h
      | none => do
        let ⟨char, rest, h⟩ ← readEscape cs
        let body ← style.readBody (char :: read) rest
        return (body.loosen.within h).loosen
    else if style.admits c cs then
      (style.readBody (c :: read) cs).map .loosen
    else
      .error (.unexpected (c :: cs))
termination_by cs.length

/--
Read a string behind its opening quotes. A line break right behind three quotes does not belong to
the string.
-/
def read (style : StringStyle) (cs : List Char) : Scan String cs.length :=
  match if style.isMultiLine then newline? cs else none with
  | none => style.readBody [] cs
  | some newline => newline.andThen (style.readBody [])

def opening? : (cs : List Char) → Option (Parsed Char StringStyle cs.length)
  | '\x22' :: '\x22' :: '\x22' :: cs =>
    some (Parsed.leaving ⟨'\x22', true, true⟩ cs).loosen.loosen
  | '\x22' :: cs => some (.leaving ⟨'\x22', true, false⟩ cs)
  | '\x27' :: '\x27' :: '\x27' :: cs =>
    some (Parsed.leaving ⟨'\x27', false, true⟩ cs).loosen.loosen
  | '\x27' :: cs => some (.leaving ⟨'\x27', false, false⟩ cs)
  | _ => none

end StringStyle

end Delegation.Toml
