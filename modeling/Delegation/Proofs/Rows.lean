import Delegation.Proofs.Stretch

/-!
This module contains spans in a row. Those of items are in a row, so that those of what is read from
items are in one as well: object types in a type expression, members between braces, statements,
and the name and the type parameters of a declaration.
-/

namespace Delegation

open Item

namespace Span

def AreInRow (start stop : Nat) : List Span → Prop
  | [] => start ≤ stop
  | span :: spans => start ≤ span.start ∧ span.start < span.stop ∧ AreInRow span.stop stop spans

namespace AreInRow

variable {start stop : Nat} {spans more : List Span}

theorem le (h : AreInRow start stop spans) : start ≤ stop := by
  induction spans generalizing start with
  | nil => exact h
  | cons span spans ih =>
    obtain ⟨hstart, hspan, htail⟩ := h
    have := ih htail
    omega

theorem lt (h : AreInRow start stop spans) (hne : spans ≠ []) : start < stop := by
  cases spans with
  | nil => exact absurd rfl hne
  | cons span spans =>
    obtain ⟨hstart, hspan, htail⟩ := h
    have := htail.le
    omega

theorem widen (h : AreInRow start stop spans) {start' stop' : Nat} (hstart : start' ≤ start)
    (hstop : stop ≤ stop') : AreInRow start' stop' spans := by
  induction spans generalizing start start' with
  | nil => exact Nat.le_trans hstart (Nat.le_trans h hstop)
  | cons span spans ih =>
    exact ⟨Nat.le_trans hstart h.1, h.2.1, ih h.2.2 (Nat.le_refl _)⟩

theorem append {stop' : Nat} (h : AreInRow start stop spans) (hmore : AreInRow stop stop' more) :
    AreInRow start stop' (spans ++ more) := by
  induction spans generalizing start with
  | nil => exact hmore.widen h (Nat.le_refl _)
  | cons span spans ih => exact ⟨h.1, h.2.1, ih h.2.2⟩

theorem split (h : AreInRow start stop (spans ++ more)) :
    ∃ between, AreInRow start between spans ∧ AreInRow between stop more := by
  induction spans generalizing start with
  | nil => exact ⟨start, Nat.le_refl _, h⟩
  | cons span spans ih =>
    obtain ⟨between, hspans, hmore⟩ := ih h.2.2
    exact ⟨between, ⟨h.1, h.2.1, hspans⟩, hmore⟩

theorem drop (h : AreInRow start stop (spans ++ more)) : AreInRow start stop more := by
  obtain ⟨between, hspans, hmore⟩ := h.split
  exact hmore.widen hspans.le (Nat.le_refl _)

end AreInRow
end Span

namespace Item

def AreInRow (start stop : Nat) (items : List Item) : Prop :=
  Span.AreInRow start stop (items.map span)

namespace AreInRow

variable {start stop : Nat} {items more : List Item}

theorem split (h : AreInRow start stop (items ++ more)) :
    ∃ between, AreInRow start between items ∧ AreInRow between stop more := by
  rw [AreInRow, List.map_append] at h
  exact Span.AreInRow.split h

theorem drop (items : List Item) (h : AreInRow start stop (items ++ more)) :
    AreInRow start stop more := by
  rw [AreInRow, List.map_append] at h
  exact Span.AreInRow.drop h

theorem cover {first : Item} (h : AreInRow start stop (first :: items ++ more)) :
    start ≤ first.span.start ∧ first.span.start < stopAfter first.span.stop items
      ∧ AreInRow first.span.start (stopAfter first.span.stop items) (first :: items)
      ∧ AreInRow (stopAfter first.span.stop items) stop more := by
  obtain ⟨hstart, hfirst, htail⟩ := h
  have hrow : AreInRow first.span.stop (stopAfter first.span.stop items) items
      ∧ AreInRow (stopAfter first.span.stop items) stop more := by
    generalize first.span.stop = from' at htail
    induction items generalizing from' with
    | nil => exact ⟨Nat.le_refl _, htail⟩
    | cons item items ih =>
      obtain ⟨hitem, hspan, htail⟩ := htail
      obtain ⟨hitems, hmore⟩ := ih _ htail
      exact ⟨⟨hitem, hspan, hitems⟩, hmore⟩
  have hfull : AreInRow first.span.start (stopAfter first.span.stop items) (first :: items) :=
    ⟨Nat.le_refl _, hfirst, hrow.1⟩
  exact ⟨hstart, hfull.lt (by simp), hfull, hrow.2⟩

end AreInRow

theorem exists_stopAfter_eq (first : Item) (more : List Item) :
    ∃ last ∈ first :: more, stopAfter first.span.stop more = last.span.stop := by
  induction more generalizing first with
  | nil => exact ⟨first, .head _, rfl⟩
  | cons item items ih =>
    obtain ⟨last, hlast, hstop⟩ := ih item
    exact ⟨last, .tail _ hlast, hstop⟩

theorem InOrder.areInRow {start : Nat} {items : List Item} (h : InOrder start items) :
    AreInRow start (stopAfter start items) items := by
  induction items generalizing start with
  | nil => exact Nat.le_refl _
  | cons item items ih =>
    obtain ⟨hlead, hstart, hstop, htail⟩ := h
    exact ⟨Nat.le_trans hlead hstart, hstop, ih htail⟩

theorem InOrder.areInRow_cons {start : Nat} {first : Item} {more : List Item}
    (h : InOrder start (first :: more)) :
    AreInRow first.span.start (stopAfter first.span.stop more) (first :: more) :=
  ⟨Nat.le_refl _, h.2.2.1, h.2.2.2.areInRow⟩

end Item

theorem TermsOf.areInRow {collect : Bool} {items : List Item} {os : List ObjectType}
    (h : TermsOf collect items os) {start stop : Nat} (hrow : Item.AreInRow start stop items) :
    Span.AreInRow start stop (os.map (·.span)) := by
  match h with
  | .nil => exact hrow
  | @TermsOf.item _ first _ _ _ _ htail => exact htail.areInRow (hrow.drop [first])
  | @TermsOf.group _ opener closer inner items _ _ _ _ _ _ hinner htail =>
    obtain ⟨between, hfront, hback⟩ := (hrow.drop [opener]).split
    rw [List.map_append]
    exact (hinner.areInRow hfront).append (htail.areInRow (hback.drop [closer]))
  | @TermsOf.object opener closer inner items _ _ _ _ _ htail =>
    have hitems : opener :: (inner ++ closer :: items) = opener :: (inner ++ [closer]) ++ items := by
      simp
    rw [hitems] at hrow
    obtain ⟨hstart, hspan, _, hafter⟩ := hrow.cover
    rw [stopAfter_append] at hspan hafter
    exact ⟨hstart, hspan, htail.areInRow hafter⟩

theorem TermsOf.areInRow_between {collect : Bool} {head body tail : List Item} {os : List ObjectType}
    (h : TermsOf collect body os) {start stop : Nat}
    (hrow : Item.AreInRow start stop (head ++ body ++ tail)) :
    Span.AreInRow start stop (os.map (·.span)) := by
  obtain ⟨between, hfront, htail⟩ := hrow.split
  exact (h.areInRow (hfront.drop head)).widen (Nat.le_refl _) htail.le

theorem StatementOf.span_eq {used : List Item} {s : Statement} (h : StatementOf used s) :
    ∃ first more, used = first :: more
      ∧ s.span = ⟨first.span.start, stopAfter first.span.stop more⟩ := by
  cases h <;> exact ⟨_, _, rfl, rfl⟩

theorem StatementsOf.areInRow {items : List Item} {ss : List Statement} (h : StatementsOf items ss)
    {start stop : Nat} (hrow : Item.AreInRow start stop items) :
    Span.AreInRow start stop (ss.map (·.span)) := by
  match h with
  | .nil => exact hrow
  | @StatementsOf.semicolon item _ _ _ htail => exact htail.areInRow (hrow.drop [item])
  | @StatementsOf.statement _ items s ss hstatement htail =>
    obtain ⟨first, more, rfl, hspan⟩ := hstatement.span_eq
    obtain ⟨hstart, hlt, _, hafter⟩ := hrow.cover
    have htail := htail.areInRow hafter
    rw [List.map_cons, hspan]
    exact ⟨hstart, hlt, htail⟩

theorem MemberOf.span_eq {used next : List Item} {m : Member} (h : MemberOf used next m) :
    ∃ first more, used = first :: more
      ∧ m.span = ⟨first.lead, stopAfter first.span.stop more⟩ := by
  cases h
  exact ⟨_, _, rfl, rfl⟩

theorem MembersOf.areInRow {items : List Item} {ms : List Member} (h : MembersOf items ms)
    {start : Nat} (horder : InOrder start items) :
    Span.AreInRow start (stopAfter start items) (ms.map (·.span)) := by
  match h with
  | .nil => exact Nat.le_refl _
  | @MembersOf.separator item _ _ _ htail =>
    obtain ⟨hlead, hstart, hstop, horder⟩ := horder
    exact (htail.areInRow horder).widen (by omega) (Nat.le_refl _)
  | @MembersOf.member _ items m ms hmember htail =>
    obtain ⟨first, more, rfl, hspan⟩ := hmember.span_eq
    rw [inOrder_append] at horder
    obtain ⟨⟨hlead, hstart, hstop, hmore⟩, horder⟩ := horder
    have := hmore.le_stopAfter
    have htail := htail.areInRow horder
    rw [List.map_cons, hspan, stopAfter_append]
    exact ⟨hlead, by dsimp only; omega, htail⟩

theorem ParamsOf.areInRow {items : List Item} {params : List TypeParam} (h : ParamsOf items params)
    {start stop : Nat} (hrow : Item.AreInRow start stop items) :
    Span.AreInRow start stop (params.map (·.span)) := by
  induction h generalizing start with
  | nil => exact hrow
  | @param item mods suffix separator items _ _ _ _ _ _ _ ih =>
    obtain ⟨hstart, hlt, _, hafter⟩ := (hrow.drop mods).cover
    exact ⟨hstart, hlt, ih (hafter.drop separator)⟩

theorem HeadOf.areInRow {items : List Item} {name : Located String} {params : List TypeParam}
    (h : HeadOf items name params) {start stop : Nat} (hrow : Item.AreInRow start stop items) :
    Span.AreInRow start stop (name.span :: params.map (·.span)) := by
  cases h with
  | @mk item front list heritage _ _ _ _ hlist _ _ =>
    obtain ⟨hstart, hname, hrow⟩ := hrow.drop front
    refine ⟨hstart, hname, ?_⟩
    obtain ⟨between, hfront, hback⟩ := Item.AreInRow.split hrow
    cases hlist with
    | none => exact hrow.le
    | @list opener closer inner _ _ _ hinner =>
      obtain ⟨between', hparams, hcloser⟩ := (hfront.drop [opener]).split
      exact (hinner.areInRow hparams).widen (Nat.le_refl _) (Nat.le_trans hcloser.le hback.le)

end Delegation
