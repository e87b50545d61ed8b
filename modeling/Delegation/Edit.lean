import Delegation.Span

/-!
This module contains edits of a text. Edits are given in any order, as spans of the text before any
of them. A removal that leaves nothing on its lines takes the lines with it.
-/

namespace Delegation

inductive Edit where
  | removal (span : Span)
  | replacement (span : Span) (text : List Char)
deriving DecidableEq

namespace Edit

def span : Edit → Span
  | removal span => span
  | replacement span _ => span

end Edit

inductive EditError where
  | conflict (span : Span)
  | overlap (outer inner : Span)
  /--
  The edit begins inside what the edit before it took away, or one of its ends is no end of a
  character.
  -/
  | misplaced (span : Span)
deriving DecidableEq

namespace EditError

def message : EditError → String
  | conflict span => "conflicting edits at " ++ range span
  | overlap outer inner => "edits at " ++ range outer ++ " and " ++ range inner
      ++ " partially overlap"
  | misplaced span => "misplaced edit at " ++ range span
where
  range (span : Span) : String :=
    toString span.start ++ ".." ++ toString span.stop

end EditError

structure Settlement where
  kept : List Edit
  subsumed : List Span

def Edit.precedes (a b : Edit) : Bool :=
  a.span.start < b.span.start || (a.span.start == b.span.start && b.span.stop ≤ a.span.stop)

/--
Settle `edits`, which are sorted and come after `last`. An edit that is given twice is kept once,
and an edit inside another one is dropped.
-/
def settleAfter (last : Edit) : List Edit → Except EditError Settlement
  | [] => .ok ⟨[last], []⟩
  | e :: es =>
    if last.span = e.span then
      if last = e then
        settleAfter last es
      else
        .error (.conflict e.span)
    else if last.span.contains e.span then do
      let s ← settleAfter last es
      return { s with subsumed := e.span :: s.subsumed }
    else if last.span.overlaps e.span then
      .error (.overlap last.span e.span)
    else do
      let s ← settleAfter e es
      return { s with kept := last :: s.kept }

def settle (edits : List Edit) : Except EditError Settlement :=
  match edits.mergeSort Edit.precedes with
  | [] => .ok ⟨[], []⟩
  | e :: es => settleAfter e es

structure Cursor where
  offset : Nat
  before : Option Char
  rest : List Char

namespace Cursor

def ofText (source : List Char) : Cursor :=
  ⟨0, none, source⟩

def moveTo? (c : Cursor) (offset : Nat) : Option (List Char × Cursor) :=
  if offset < c.offset then
    none
  else do
    let (back, rest) ← passBytes (offset - c.offset) c.rest
    return (back, ⟨offset, back.head?.or c.before, rest⟩)

end Cursor

def isIndent (c : Char) : Bool :=
  c == ' ' || c == '\t'

structure Widening where
  kept : List Char
  span : Span
  cursor : Cursor

/--
Widen the removal of `span` over the indentation in front of it, and over the end of its line if it
then is all that stands on its lines. `gap` are the characters from `start` to the span, the last
one first, and `stop` is the place behind the span.
-/
def widen (start : Cursor) (gap : List Char) (span : Span) (stop : Cursor) : Widening :=
  let kept := gap.dropWhile isIndent
  let first := span.start - byteLength (gap.takeWhile isIndent)
  let isLineStart := (kept.head?.or start.before).all (· == '\n')
  let isTrailing := fun c => isIndent c || c == '\r'
  let trailing := stop.rest.takeWhile isTrailing
  match isLineStart, stop.rest.dropWhile isTrailing with
  | true, [] =>
    let last := stop.offset + byteLength trailing
    ⟨kept, ⟨first, last⟩, ⟨last, trailing.getLast?.or stop.before, []⟩⟩
  | true, '\n' :: rest =>
    let last := stop.offset + byteLength trailing + 1
    ⟨kept, ⟨first, last⟩, ⟨last, some '\n', rest⟩⟩
  | _, _ => ⟨kept, ⟨first, span.stop⟩, stop⟩

/--
A text after edits, and the spans of the text before that were taken away.
-/
structure Splice where
  text : List Char
  taken : List Span

def spliceFrom (start : Cursor) : List Edit → Except EditError Splice
  | [] => .ok ⟨start.rest, []⟩
  | e :: es =>
    match place start e.span with
    | none => .error (.misplaced e.span)
    | some (gap, stop) =>
      match e with
      | .replacement span text => do
        let s ← spliceFrom stop es
        return ⟨gap.reverse ++ text ++ s.text, span :: s.taken⟩
      | .removal span => do
        let w := widen start gap span stop
        let s ← spliceFrom w.cursor es
        return ⟨w.kept.reverse ++ s.text, w.span :: s.taken⟩
where
  place (start : Cursor) (span : Span) : Option (List Char × Cursor) := do
    let (gap, c) ← start.moveTo? span.start
    let (_, stop) ← c.moveTo? span.stop
    return (gap, stop)

def applyEdits (source : List Char) (edits : List Edit) : Except EditError Splice := do
  let s ← settle edits
  spliceFrom (.ofText source) s.kept

end Delegation
