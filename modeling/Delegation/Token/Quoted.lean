/-!
This module contains the reader of quoted literals: strings, which end on their line, and
templates, whose placeholders hold strings and templates again.
-/

namespace Delegation

/--
What is open while a quoted literal is read. `opened` is what was read before it was opened, last
character first.
-/
inductive Frame where
  | string (quote : Char) (opened : List Char)
  | template (opened : List Char)
  /--
  A placeholder of the template that was opened at `opened`, with `depth` braces open in it.
  `front` is what was read before the placeholder.
  -/
  | placeholder (depth : Nat) (front opened : List Char)
deriving DecidableEq

inductive Quotation where
  | string
  | template
deriving DecidableEq

inductive Quoted where
  | closed (text rest : List Char)
  | unclosed (quotation : Quotation) (before text rest : List Char)
deriving DecidableEq

namespace Quoted

def leave (quotation : Quotation) (opened read rest : List Char) : Quoted :=
  .unclosed quotation opened.reverse (read.reverse.drop opened.length) rest

/--
Read on with `frames` open, the innermost first, after `read`. A string stays open at the end of
its line. A template stays open at the end of the text, or at the innermost placeholder that has no
end.
-/
def scan (read : List Char) : List Frame → List Char → Quoted
  | [], cs => .closed read.reverse cs
  | .string quote opened :: outer, cs =>
    match cs with
    | '\\' :: c :: rest => scan (c :: '\\' :: read) (.string quote opened :: outer) rest
    | c :: rest =>
      if c == quote then
        scan (c :: read) outer rest
      else if c == '\\' || c == '\n' || c == '\r' then
        leave .string opened read (c :: rest)
      else
        scan (c :: read) (.string quote opened :: outer) rest
    | [] => leave .string opened read []
  | .template opened :: outer, cs =>
    match cs with
    | '\\' :: c :: rest => scan (c :: '\\' :: read) (.template opened :: outer) rest
    | '$' :: '{' :: rest =>
      scan ('{' :: '$' :: read) (.placeholder 0 read opened :: .template opened :: outer) rest
    | c :: rest =>
      if c == '\x60' then
        scan (c :: read) outer rest
      else if c == '\\' then
        leave .template opened read (c :: rest)
      else
        scan (c :: read) (.template opened :: outer) rest
    | [] => leave .template opened read []
  | .placeholder depth front opened :: outer, cs =>
    match cs with
    | c :: rest =>
      if c == '{' then
        scan (c :: read) (.placeholder (depth + 1) front opened :: outer) rest
      else if c == '}' then
        match depth with
        | 0 => scan (c :: read) outer rest
        | depth + 1 => scan (c :: read) (.placeholder depth front opened :: outer) rest
      else if c == '\x27' || c == '\x22' then
        scan (c :: read) (.string c read :: .placeholder depth front opened :: outer) rest
      else if c == '\x60' then
        scan (c :: read) (.template read :: .placeholder depth front opened :: outer) rest
      else
        scan (c :: read) (.placeholder depth front opened :: outer) rest
    | [] => leave .template opened front []

end Quoted

def quotedString (quote : Char) (cs : List Char) : Quoted :=
  Quoted.scan [quote] [.string quote []] cs

def quotedTemplate (cs : List Char) : Quoted :=
  Quoted.scan ['\x60'] [.template []] cs

namespace Quoted

def rest : Quoted → List Char
  | .closed _ rest => rest
  | .unclosed _ _ _ rest => rest

theorem scan_rest_length_le (read : List Char) (frames : List Frame) (cs : List Char) :
    (scan read frames cs).rest.length ≤ cs.length := by
  fun_induction scan read frames cs <;> simp only [rest, leave, List.length_cons] at * <;> omega

theorem quotedString_rest_length_le (quote : Char) (cs : List Char) :
    (quotedString quote cs).rest.length ≤ cs.length :=
  scan_rest_length_le ..

theorem quotedTemplate_rest_length_le (cs : List Char) :
    (quotedTemplate cs).rest.length ≤ cs.length :=
  scan_rest_length_le ..

theorem scan_closed {read cs text rest : List Char} {frames : List Frame}
    (h : scan read frames cs = .closed text rest) : text ++ rest = read.reverse ++ cs := by
  fun_induction scan read frames cs <;> simp_all [leave]

end Quoted
end Delegation
