/-!
This module contains what parsers return: a value, and the items that they did not read. How many
these are is bounded in the type, so that parsers may follow each other and call themselves.
-/

namespace Delegation

/--
A value that was parsed, and the items behind it, which are fewer than `bound`.
-/
structure Parsed (ι α : Type) (bound : Nat) where
  value : α
  rest : List ι
  rest_lt : rest.length < bound

namespace Parsed

variable {ε ι α β : Type} {m n : Nat}

def leaving (value : α) (items : List ι) : Parsed ι α (items.length + 1) :=
  ⟨value, items, Nat.lt_succ_self _⟩

def loosen (p : Parsed ι α n) : Parsed ι α (n + 1) :=
  ⟨p.value, p.rest, Nat.lt_succ_of_lt p.rest_lt⟩

def within (p : Parsed ι α (m + 1)) (h : m < n) : Parsed ι α n :=
  ⟨p.value, p.rest, Nat.lt_of_lt_of_le p.rest_lt h⟩

def behind (p : Parsed ι α m) (h : m < n + 1) : Parsed ι α n :=
  ⟨p.value, p.rest, Nat.lt_of_lt_of_le p.rest_lt (Nat.le_of_lt_succ h)⟩

def map (f : α → β) (p : Parsed ι α n) : Parsed ι β n :=
  ⟨f p.value, p.rest, p.rest_lt⟩

def onward (p : Parsed ι α n) (f : (items : List ι) → Parsed ι β (items.length + 1)) :
    Parsed ι β n :=
  (f p.rest).within p.rest_lt

def andThen (p : Parsed ι α n) (f : (items : List ι) → Except ε (Parsed ι β items.length)) :
    Except ε (Parsed ι β n) := do
  return (← f p.rest).loosen.within p.rest_lt

def andMaybe (p : Parsed ι α n) (f : (items : List ι) → Except ε (Parsed ι β (items.length + 1))) :
    Except ε (Parsed ι β n) := do
  return (← f p.rest).within p.rest_lt

def splitAt (k : Nat) (items : List ι) : Parsed ι (List ι) (items.length + 1) :=
  ⟨items.take k, items.drop k, Nat.lt_succ_of_le (List.length_drop ▸ Nat.sub_le ..)⟩

def span (p : ι → Bool) (items : List ι) : Parsed ι (List ι) (items.length + 1) :=
  ⟨items.takeWhile p, items.dropWhile p,
    Nat.lt_succ_of_le (List.dropWhile_sublist p).length_le⟩

def span? (p : ι → Bool) : (items : List ι) → Option (Parsed ι (List ι) items.length)
  | [] => none
  | item :: items => if p item then some ((span p items).map (item :: ·)) else none

end Parsed
end Delegation
