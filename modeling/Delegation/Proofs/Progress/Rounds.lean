import Delegation.Proofs.Items

/-!
This module contains loops that are granted only so many rounds. What a parser leaves is a plain
list here: that a loop gets on is not in its type, but has to be shown of each of its rounds.
-/

namespace Delegation

/--
What comes of a parser that is granted only so many calls: nothing where it needs more of them, and
otherwise a failure or a value.
-/
abbrev Attempt : Type → Type :=
  ExceptT Failure Option

inductive Round (σ ρ : Type) where
  | again (state : σ)
  | done (result : ρ)

def ReadsSome (items rest : List Item) : Prop :=
  ∃ item read, items = item :: (read ++ rest)

namespace ReadsSome

variable {item : Item} {items rest : List Item}

theorem of_suffix_tail (h : rest <:+ items) : ReadsSome (item :: items) rest := by
  obtain ⟨read, rfl⟩ := h
  exact ⟨item, read, rfl⟩

theorem of_suffix (h : rest <:+ items) (hlt : rest.length < items.length) :
    ReadsSome items rest := by
  obtain ⟨read, rfl⟩ := h
  cases read with
  | nil => simp at hlt
  | cons item read => exact ⟨item, read, rfl⟩

theorem cons (h : ReadsSome items rest) (item : Item) : ReadsSome (item :: items) rest := by
  obtain ⟨first, read, rfl⟩ := h
  exact ⟨item, first :: read, rfl⟩

theorem length_lt (h : ReadsSome items rest) : rest.length < items.length := by
  obtain ⟨item, read, rfl⟩ := h
  simp only [List.length_cons, List.length_append]
  omega

end ReadsSome

/-!
What a parser leaves is the same, however it is bounded.
-/

namespace Parsed

variable {ι α β : Type} {m n : Nat}

@[simp]
theorem value_leaving (value : α) (items : List ι) : (leaving value items).value = value := rfl

@[simp]
theorem rest_leaving (value : α) (items : List ι) : (leaving value items).rest = items := rfl

@[simp]
theorem value_loosen (p : Parsed ι α n) : p.loosen.value = p.value := rfl

@[simp]
theorem rest_loosen (p : Parsed ι α n) : p.loosen.rest = p.rest := rfl

@[simp]
theorem value_within (p : Parsed ι α (m + 1)) (h : m < n) : (p.within h).value = p.value := rfl

@[simp]
theorem rest_within (p : Parsed ι α (m + 1)) (h : m < n) : (p.within h).rest = p.rest := rfl

@[simp]
theorem value_map (f : α → β) (p : Parsed ι α n) : (p.map f).value = f p.value := rfl

@[simp]
theorem rest_map (f : α → β) (p : Parsed ι α n) : (p.map f).rest = p.rest := rfl

@[simp]
theorem value_onward (p : Parsed ι α n) (f : (items : List ι) → Parsed ι β (items.length + 1)) :
    (p.onward f).value = (f p.rest).value := rfl

@[simp]
theorem rest_onward (p : Parsed ι α n) (f : (items : List ι) → Parsed ι β (items.length + 1)) :
    (p.onward f).rest = (f p.rest).rest := rfl

end Parsed

namespace Attempt

variable {α β σ ρ : Type} {n : Nat}

def lift (x : Except Failure α) : Attempt α :=
  ExceptT.mk (some x)

@[simp]
def of (x : Parse α n) : Attempt (α × List Item) := do
  let p ← lift x
  return (p.value, p.rest)

@[simp]
def loop (round : Attempt (Round σ ρ × List Item))
    (next : σ → List Item → Attempt (ρ × List Item)) : Attempt (ρ × List Item) := do
  let (outcome, items) ← round
  match outcome with
  | .again state => next state items
  | .done result => return (result, items)

/--
Whether a parser comes to an end, with one of `items` read at least if it has a value.
-/
inductive Consumes (items : List Item) : Attempt (α × List Item) → Prop where
  | fails (failure : Failure) : Consumes items (throw failure)
  | reads {value : α} {rest : List Item} (h : ReadsSome items rest) :
    Consumes items (pure (value, rest))

/--
Whether a round comes to an end: it fails, it ends the loop, or it reads one of `items` at least in
front of another round.
-/
inductive Advances (items : List Item) : Attempt (Round σ ρ × List Item) → Prop where
  | fails (failure : Failure) : Advances items (throw failure)
  | leaves {result : ρ} {rest : List Item} : Advances items (pure (.done result, rest))
  | reads {state : σ} {rest : List Item} (h : ReadsSome items rest) :
    Advances items (pure (.again state, rest))

@[simp]
theorem lift_ok (a : α) : lift (.ok a) = pure a := rfl

@[simp]
theorem lift_pure (a : α) : lift (pure a) = pure a := rfl

@[simp]
theorem lift_error (failure : Failure) : lift (.error failure : Except Failure α) = throw failure :=
  rfl

@[simp]
theorem lift_bind (x : Except Failure α) (f : α → Except Failure β) :
    lift (x >>= f) = lift x >>= fun a => lift (f a) := by
  cases x with
  | error failure => rfl
  | ok a => rfl

@[simp]
theorem lift_map (f : α → β) (x : Except Failure α) : lift (f <$> x) = f <$> lift x := by
  cases x with
  | error failure => rfl
  | ok a => rfl

@[simp]
theorem lift_exceptMap (f : α → β) (x : Except Failure α) : lift (x.map f) = f <$> lift x :=
  lift_map f x

@[simp]
theorem lift_andThen {m : Nat} (p : Parsed Item α m)
    (f : (items : List Item) → Parse β items.length) :
    lift (p.andThen f) = do
      let q ← lift (f p.rest)
      return ⟨q.value, q.rest, Nat.lt_trans q.rest_lt p.rest_lt⟩ :=
  lift_bind (f p.rest) _

@[simp]
theorem lift_andMaybe {m : Nat} (p : Parsed Item α m)
    (f : (items : List Item) → Parse β (items.length + 1)) :
    lift (p.andMaybe f) = do
      let q ← lift (f p.rest)
      return ⟨q.value, q.rest, Nat.lt_of_lt_of_le q.rest_lt p.rest_lt⟩ :=
  lift_bind (f p.rest) _

theorem of_bind_congr {x : Parse α n} {f g : α × List Item → Attempt β}
    (h : ∀ value rest, rest.length < n → f (value, rest) = g (value, rest)) :
    of x >>= f = of x >>= g := by
  cases x with
  | error failure => rfl
  | ok p => exact h p.value p.rest p.rest_lt

/--
What a loop comes to depends on what it comes to on fewer items.
-/
theorem loop_congr {items : List Item} {round round' : Attempt (Round σ ρ × List Item)}
    {next next' : σ → List Item → Attempt (ρ × List Item)} (hround : round = round')
    (h : Advances items round')
    (hnext : ∀ state rest, rest.length < items.length → next state rest = next' state rest) :
    loop round next = loop round' next' := by
  subst hround
  cases h with
  | fails => rfl
  | leaves => rfl
  | reads h => exact hnext _ _ h.length_lt

section

variable {items : List Item}

theorem consumes_of {x : Parse α n} (h : ∀ p, x = .ok p → ReadsSome items p.rest) :
    Consumes items (of x) := by
  cases x with
  | error failure => exact .fails failure
  | ok p => exact .reads (h p rfl)

namespace Consumes

variable {x : Attempt (α × List Item)}

theorem cons (h : Consumes items x) (item : Item) : Consumes (item :: items) x := by
  cases h with
  | fails failure => exact .fails failure
  | reads h => exact .reads (h.cons item)

theorem bind {f : α × List Item → Attempt (β × List Item)} (h : Consumes items x)
    (hf : ∀ value rest, ReadsSome items rest → Consumes items (f (value, rest))) :
    Consumes items (x >>= f) := by
  cases h with
  | fails failure => exact .fails failure
  | reads h => exact hf _ _ h

theorem round {f : α × List Item → Attempt (Round σ ρ × List Item)} (h : Consumes items x)
    (hf : ∀ value rest, ReadsSome items rest → Advances items (f (value, rest))) :
    Advances items (x >>= f) := by
  cases h with
  | fails failure => exact .fails failure
  | reads h => exact hf _ _ h

end Consumes

end

end Attempt
end Delegation
