/-!
This module contains byte offsets into a text that is given by its characters. Offsets count the
bytes of the UTF-8 encoding.
-/

namespace Delegation

def byteLength : List Char → Nat
  | [] => 0
  | c :: cs => c.utf8Size + byteLength cs

@[simp]
theorem byteLength_nil : byteLength [] = 0 := rfl

@[simp]
theorem byteLength_cons (c : Char) (cs : List Char) :
    byteLength (c :: cs) = c.utf8Size + byteLength cs := rfl

@[simp]
theorem byteLength_append (cs ds : List Char) :
    byteLength (cs ++ ds) = byteLength cs + byteLength ds := by
  induction cs with
  | nil => simp
  | cons c cs ih => simp [ih, Nat.add_assoc]

@[simp]
theorem byteLength_reverse (cs : List Char) : byteLength cs.reverse = byteLength cs := by
  induction cs with
  | nil => rfl
  | cons c cs ih => simp [ih, Nat.add_comm]

/--
Move over the first `n` bytes of `cs`: the characters passed, last one first, and those ahead.
There is no answer if `n` is beyond the end of `cs` or inside a character.
-/
def passBytes (n : Nat) (cs : List Char) : Option (List Char × List Char) :=
  go [] n cs
where
  go (passed : List Char) (n : Nat) : List Char → Option (List Char × List Char)
    | [] => if n = 0 then some (passed, []) else none
    | c :: cs =>
      if n = 0 then
        some (passed, c :: cs)
      else if c.utf8Size ≤ n then
        go (c :: passed) (n - c.utf8Size) cs
      else
        none

theorem passBytes.go_eq_some {passed cs back ahead : List Char} {n : Nat}
    (h : go passed n cs = some (back, ahead)) :
    back.reverse ++ ahead = passed.reverse ++ cs
      ∧ byteLength back = byteLength passed + n := by
  induction cs generalizing passed n with
  | nil =>
    simp only [go] at h
    split at h <;> simp_all
  | cons c cs ih =>
    simp only [go] at h
    split at h
    . simp_all
    . split at h
      . have := ih h
        simp only [List.reverse_cons, List.append_assoc, byteLength_cons] at this ⊢
        exact ⟨this.1, by omega⟩
      . simp at h

theorem passBytes_eq_some {n : Nat} {cs back ahead : List Char}
    (h : passBytes n cs = some (back, ahead)) :
    back.reverse ++ ahead = cs ∧ byteLength back = n := by
  simpa using passBytes.go_eq_some h

end Delegation
