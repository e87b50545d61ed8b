import Delegation.Toml.Datetime
import Delegation.Toml.Value

/-!
This module contains the words of TOML documents: the names in keys, and the values without
brackets. Only for a date with a time behind a blank does it matter to the end of a word what the
word means. All else about its meaning is found out later.
-/

namespace Delegation.Toml

inductive Word where
  /--
  A word without quotes. `ahead` is the document from the word on.
  -/
  | bare (text ahead : List Char)
  | quoted (style : StringStyle) (ahead : List Char)
deriving DecidableEq

def isBreak (c : Char) : Bool :=
  ['\n', '\r', '#', '=', ',', '[', ']', '\x7b', '\x7d'].contains c

def isNamePart (c : Char) : Bool :=
  !isBlank c && !isBreak c && c != '.'

def isValuePart (c : Char) : Bool :=
  !isBlank c && !isBreak c

def isBareKeyChar (c : Char) : Bool :=
  c.isAlphanum || c == '_' || c == '-'

def readQuoted? (cs : List Char) : Option (Parsed Char Word cs.length) :=
  (StringStyle.opening? cs).map fun ⟨style, rest, h⟩ =>
    ((style.skip false rest).within h).map fun _ => .quoted style rest

def readName (cs : List Char) : Parsed Char Word (cs.length + 1) :=
  match readQuoted? cs with
  | some word => word.loosen
  | none => (Parsed.span isNamePart cs).map (.bare · cs)

/--
The value without brackets in front of a text. It is empty if there is none. One blank may come
between a date and a time.
-/
def readSimple (cs : List Char) : Parsed Char Word (cs.length + 1) :=
  match readQuoted? cs with
  | some word => word.loosen
  | none =>
    let date := Parsed.span isValuePart cs
    let blanks := date.onward (Parsed.span (· == ' '))
    let time := blanks.onward (Parsed.span isValuePart)
    let both := date.value ++ ' ' :: time.value
    if blanks.value == [' '] && isDatetime both then
      time.map fun _ => .bare both cs
    else
      date.map (.bare · cs)

namespace Word

def ahead : Word → List Char
  | bare _ ahead | quoted _ ahead => ahead

/--
What a word means as a name: a string on one line, or letters, digits, `_` and `-`.
-/
def name : Word → Except Fault String
  | bare text ahead =>
    if !text.isEmpty && text.all isBareKeyChar then
      .ok (.ofList text)
    else
      .error (.unexpected ahead)
  | quoted style ahead =>
    if style.isMultiLine then
      .error (.unexpected ahead)
    else
      (style.read ahead).map (·.value)

def bareValue? (text : List Char) : Option Value :=
  if text == ['t', 'r', 'u', 'e'] then
    some (.boolean true)
  else if text == ['f', 'a', 'l', 's', 'e'] then
    some (.boolean false)
  else
    match numeral? text with
    | some numeral => some (.number numeral)
    | none => if isDatetime text then some (.datetime (.ofList text)) else none

def value : Word → Except Fault Value
  | bare text ahead =>
    match bareValue? text with
    | some value => .ok value
    | none => .error (.unexpected ahead)
  | quoted style ahead => (style.read ahead).map (.string ·.value)

end Word
end Delegation.Toml
