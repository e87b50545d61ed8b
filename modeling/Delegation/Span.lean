import Delegation.Text.Bytes

/-!
This module contains spans of a source text, and values that remember the span they were read
from.
-/

namespace Delegation

/--
The bytes of a source text from offset `start` up to, but not including, offset `stop`.
-/
structure Span where
  start : Nat
  stop : Nat
deriving DecidableEq

namespace Span

def length (span : Span) : Nat :=
  span.stop - span.start

def isEmpty (span : Span) : Bool :=
  span.start == span.stop

def union (a b : Span) : Span :=
  ⟨min a.start b.start, max a.stop b.stop⟩

def contains (outer inner : Span) : Bool :=
  outer.start ≤ inner.start && inner.stop ≤ outer.stop

def overlaps (a b : Span) : Bool :=
  a.start < b.stop && b.start < a.stop

/--
Whether `a` comes before `b`: by its start, and of two spans with one start by its stop.
-/
def before (a b : Span) : Bool :=
  a.start < b.start || (a.start == b.start && a.stop < b.stop)

def shift (offset : Nat) (span : Span) : Span :=
  ⟨offset + span.start, offset + span.stop⟩

/--
The part of `source` at `span`, if both of its ends are ends of characters of `source`.
-/
def slice? (span : Span) (source : List Char) : Option (List Char) := do
  let (_, ahead) ← passBytes span.start source
  let (back, _) ← passBytes (span.stop - span.start) ahead
  return back.reverse

end Span

structure Located (α : Type) where
  value : α
  span : Span

namespace Located

def map {α β : Type} (f : α → β) (x : Located α) : Located β :=
  ⟨f x.value, x.span⟩

instance {α : Type} [BEq α] : BEq (Located α) where
  beq a b := a.value == b.value

end Located
end Delegation
