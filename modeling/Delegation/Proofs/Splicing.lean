import Delegation.Edit
import Delegation.Proofs.Nesting
import Mathlib.Data.List.Forall2
import Mathlib.Data.List.TakeWhile

/-!
This module contains how edits are applied: where the pieces of the text come from that stay, and
what a removal takes away besides its span.
-/

namespace Delegation

theorem passBytes.go_append (passed cs rest : List Char) :
    go passed (byteLength cs) (cs ++ rest) = some (cs.reverse ++ passed, rest) := by
  induction cs generalizing passed with
  | nil => cases rest <;> rfl
  | cons c cs ih =>
    have hpos := c.utf8Size_pos
    rw [List.cons_append, byteLength_cons]
    unfold go
    rw [if_neg (by omega), if_pos (by omega)]
    rw [Nat.add_sub_cancel_left, ih]
    simp

theorem passBytes_append (cs rest : List Char) :
    passBytes (byteLength cs) (cs ++ rest) = some (cs.reverse, rest) := by
  rw [passBytes, passBytes.go_append, List.append_nil]

def Cursor.behind (c : Cursor) (cs rest : List Char) : Cursor :=
  ⟨c.offset + byteLength cs, cs.getLast?.or c.before, rest⟩

theorem Cursor.moveTo?_behind (c : Cursor) (cs rest : List Char) (h : c.rest = cs ++ rest) :
    c.moveTo? (c.offset + byteLength cs) = some (cs.reverse, c.behind cs rest) := by
  unfold moveTo?
  rw [if_neg (by omega), Nat.add_sub_cancel_left, h, passBytes_append]
  simp [behind]

theorem spliceFrom.place_eq {c : Cursor} {gap cut rest : List Char} {span : Span}
    (h : c.rest = gap ++ (cut ++ rest)) (hstart : span.start = c.offset + byteLength gap)
    (hstop : span.stop = span.start + byteLength cut) :
    place c span = some (gap.reverse, (c.behind gap (cut ++ rest)).behind cut rest) := by
  have hcut := (c.behind gap (cut ++ rest)).moveTo?_behind cut rest rfl
  unfold place
  rw [hstart, c.moveTo?_behind gap _ h]
  rw [hstop, hstart]
  simp only [Option.bind_eq_bind, Option.bind_some]
  rw [Cursor.behind] at hcut ⊢
  rw [hcut]
  rfl

/--
Whether `w` is what the removal of `span` between `start` and `stop` comes to: of the characters in
front of it `kept` stay and `indent` goes, and of those behind it `eaten` goes, which ends with a
line break only if nothing is left of the line.
-/
structure IsWidening (start : Cursor) (span : Span) (stop : Cursor)
    (kept indent eaten : List Char) (w : Widening) : Prop where
  all_indent : ∀ c ∈ indent, isIndent c = true
  kept_eq : w.kept = kept.reverse
  span_eq : w.span = ⟨span.start - byteLength indent, w.cursor.offset⟩
  rest_eq : stop.rest = eaten ++ w.cursor.rest
  offset_eq : w.cursor.offset = stop.offset + byteLength eaten
  before_eq : w.cursor.before = eaten.getLast?.or stop.before
  eaten_eq : ∃ blank newline, eaten = blank ++ newline
    ∧ (∀ c ∈ blank, isIndent c = true ∨ c = '\r')
    ∧ (newline = [] ∨ newline = ['\n'] ∧ ∀ c, kept.getLast?.or start.before = some c → c = '\n')

theorem isWidening_widen (start : Cursor) (gap : List Char) {span : Span} {stop : Cursor}
    (hstop : span.stop = stop.offset) :
    ∃ kept indent eaten, gap = kept ++ indent
      ∧ IsWidening start span stop kept indent eaten (widen start gap.reverse span stop) := by
  have hgap : gap
      = (gap.reverse.dropWhile isIndent).reverse ++ (gap.reverse.takeWhile isIndent).reverse := by
    rw [← List.reverse_append, List.takeWhile_append_dropWhile, List.reverse_reverse]
  have hindent : ∀ c ∈ (gap.reverse.takeWhile isIndent).reverse, isIndent c = true := by
    intro c hc
    exact List.mem_takeWhile_imp (List.mem_reverse.mp hc)
  have hblank : ∀ c ∈ stop.rest.takeWhile (fun c => isIndent c || c == '\r'),
      isIndent c = true ∨ c = '\r' := by
    intro c hc
    simpa using List.mem_takeWhile_imp hc
  have hrest := List.takeWhile_append_dropWhile (p := fun c => isIndent c || c == '\r')
    (l := stop.rest)
  unfold widen
  dsimp only
  generalize stop.rest.takeWhile (fun c => isIndent c || c == '\r') = trailing at *
  split
  . next hline hnil =>
    refine ⟨_, _, trailing, hgap, hindent, by simp, by simp, ?_, rfl, rfl, ?_⟩
    . rw [← hrest, hnil]
    . exact ⟨trailing, [], by simp, hblank, .inl rfl⟩
  . next rest hline hnewline =>
    refine ⟨_, _, trailing ++ ['\n'], hgap, hindent, by simp, by simp, ?_, ?_, by simp, ?_⟩
    . rw [← hrest, hnewline]
      simp
    . simp only [byteLength_append, byteLength_cons, byteLength_nil]
      have : '\n'.utf8Size = 1 := by decide
      omega
    . refine ⟨trailing, ['\n'], rfl, hblank, .inr ⟨rfl, ?_⟩⟩
      intro c hc
      rw [List.getLast?_reverse] at hc
      rw [hc] at hline
      simpa using hline
  . exact ⟨_, _, [], hgap, hindent, by simp, by simp [hstop], rfl, rfl, rfl, [], [], rfl, by simp,
      .inl rfl⟩

theorem spliceFrom_replacement {c : Cursor} {gap cut rest text : List Char} {span : Span}
    (h : c.rest = gap ++ (cut ++ rest)) (hstart : span.start = c.offset + byteLength gap)
    (hstop : span.stop = span.start + byteLength cut) (es : List Edit) :
    spliceFrom c (.replacement span text :: es)
      = (spliceFrom ((c.behind gap (cut ++ rest)).behind cut rest) es).map
        fun s => ⟨gap ++ text ++ s.text, span :: s.taken⟩ := by
  have hplace := spliceFrom.place_eq h hstart hstop
  rw [spliceFrom]
  simp only [Edit.span, hplace, List.reverse_reverse]
  rfl

theorem spliceFrom_removal {c : Cursor} {gap cut rest : List Char} {span : Span}
    (h : c.rest = gap ++ (cut ++ rest)) (hstart : span.start = c.offset + byteLength gap)
    (hstop : span.stop = span.start + byteLength cut) :
    ∃ kept indent eaten w, gap = kept ++ indent
      ∧ IsWidening c span ((c.behind gap (cut ++ rest)).behind cut rest) kept indent eaten w
      ∧ ∀ es, spliceFrom c (.removal span :: es)
        = (spliceFrom w.cursor es).map fun s => ⟨kept ++ s.text, w.span :: s.taken⟩ := by
  have hplace := spliceFrom.place_eq h hstart hstop
  have hoffset : span.stop = ((c.behind gap (cut ++ rest)).behind cut rest).offset := by
    rw [hstop, hstart]
    rfl
  obtain ⟨kept, indent, eaten, hgap, hwidening⟩ := isWidening_widen c gap hoffset
  refine ⟨kept, indent, eaten, _, hgap, hwidening, ?_⟩
  intro es
  rw [spliceFrom]
  simp only [Edit.span, hplace, hwidening.kept_eq, List.reverse_reverse]
  rfl

/--
Whether `span` is a slice of `source`: its ends are in order, in range, and ends of characters.
-/
def Span.IsSliceOf (span : Span) (source : List Char) : Prop :=
  span.start ≤ span.stop ∧ span.stop ≤ byteLength source ∧ (span.slice? source).isSome = true

instance (span : Span) (source : List Char) : Decidable (span.IsSliceOf source) :=
  inferInstanceAs (Decidable (_ ∧ _ ∧ _))

theorem Span.slice?_append (back cut ahead : List Char) :
    slice? ⟨byteLength back, byteLength back + byteLength cut⟩ (back ++ (cut ++ ahead))
      = some cut := by
  unfold slice?
  rw [passBytes_append]
  simp only [Option.bind_eq_bind, Option.bind_some, Nat.add_sub_cancel_left]
  rw [passBytes_append]
  simp

theorem Span.isSliceOf_append (span : Span) {source back cut ahead : List Char}
    (h : source = back ++ (cut ++ ahead)) (hstart : span.start = byteLength back)
    (hstop : span.stop = byteLength back + byteLength cut) :
    span.IsSliceOf source ∧ span.slice? source = some cut := by
  have hslice : span.slice? source = some cut := by
    have : span = ⟨byteLength back, byteLength back + byteLength cut⟩ := by
      rw [← hstop, ← hstart]
    rw [this, h, slice?_append]
  refine ⟨⟨?_, ?_, ?_⟩, hslice⟩
  . omega
  . rw [h, byteLength_append, byteLength_append]
    omega
  . rw [hslice]
    rfl

def keptSpans (start stop : Nat) : List Span → List Span
  | [] => [⟨start, stop⟩]
  | span :: taken => ⟨start, span.start⟩ :: keptSpans span.stop stop taken

theorem exists_mem_of_forall₂ {α β : Type} {r : α → β → Prop} {as : List α} {bs : List β}
    (h : List.Forall₂ r as bs) {b : β} (hb : b ∈ bs) : ∃ a ∈ as, r a b := by
  induction h with
  | nil => cases hb
  | cons hab _ ih =>
    rcases List.mem_cons.mp hb with rfl | hb
    . exact ⟨_, .head _, hab⟩
    . obtain ⟨a, ha, hab⟩ := ih hb
      exact ⟨a, .tail _ ha, hab⟩

def assemble (source : List Char) (start : Nat) : List (Span × List Char) → Option (List Char)
  | [] => Span.slice? ⟨start, byteLength source⟩ source
  | (span, text) :: taken => do
    let kept ← Span.slice? ⟨start, span.start⟩ source
    let rest ← assemble source span.stop taken
    return kept ++ text ++ rest

def Edit.text : Edit → List Char
  | removal _ => []
  | replacement _ text => text

def Cursor.IsIn (c : Cursor) (source : List Char) : Prop :=
  ∃ back, source = back ++ c.rest ∧ c.offset = byteLength back

theorem Cursor.moveTo?_eq_some {c c' : Cursor} {offset : Nat} {back : List Char}
    (h : c.moveTo? offset = some (back, c')) :
    c.rest = back.reverse ++ c'.rest ∧ offset = c.offset + byteLength back.reverse
      ∧ c'.offset = offset := by
  unfold moveTo? at h
  split at h
  . cases h
  . obtain ⟨⟨back', rest⟩, hpass, h⟩ := Option.bind_eq_some_iff.mp h
    obtain ⟨hrest, hlength⟩ := passBytes_eq_some hpass
    cases h
    rw [byteLength_reverse]
    exact ⟨hrest.symm, by omega, rfl⟩

theorem spliceFrom.place_eq_some {c stop : Cursor} {span : Span} {gap : List Char}
    (h : place c span = some (gap, stop)) :
    ∃ cut, c.rest = gap.reverse ++ (cut ++ stop.rest)
      ∧ span.start = c.offset + byteLength gap.reverse
      ∧ span.stop = span.start + byteLength cut := by
  obtain ⟨⟨gap', c'⟩, hgap, h⟩ := Option.bind_eq_some_iff.mp h
  obtain ⟨⟨cut, stop'⟩, hcut, h⟩ := Option.bind_eq_some_iff.mp h
  cases h
  obtain ⟨hrest, hstart, hoffset⟩ := Cursor.moveTo?_eq_some hgap
  obtain ⟨hrest', hstop, _⟩ := Cursor.moveTo?_eq_some hcut
  refine ⟨cut.reverse, ?_, hstart, ?_⟩
  . rw [hrest, hrest']
  . rw [hstop, hoffset]

/--
Whether `s` is what comes of `source` from the offset `start` on when `edits` are made: slices of it,
and the texts of the edits in place of slices that have all of their spans in them.
-/
structure Splice.IsOf (s : Splice) (source : List Char) (start : Nat) (edits : List Edit) : Prop where
  isSliceOf_kept : ∀ span ∈ keptSpans start (byteLength source) s.taken, span.IsSliceOf source
  isSliceOf_taken : ∀ span ∈ s.taken, span.IsSliceOf source
  contains : List.Forall₂ (fun e span => span.contains e.span = true) edits s.taken
  text_eq : assemble source start (s.taken.zip (edits.map Edit.text)) = some s.text

theorem Splice.IsOf.cons {source back kept cut rest : List Char} {e : Edit} {es : List Edit}
    {span : Span} {s : Splice} (hsource : source = back ++ (kept ++ (cut ++ rest)))
    (hstart : span.start = byteLength back + byteLength kept)
    (hstop : span.stop = span.start + byteLength cut) (he : span.contains e.span = true)
    (h : s.IsOf source span.stop es) :
    IsOf ⟨kept ++ e.text ++ s.text, span :: s.taken⟩ source (byteLength back) (e :: es) := by
  obtain ⟨hkept, hslice⟩ := Span.isSliceOf_append ⟨byteLength back, span.start⟩ hsource rfl
    hstart
  have htaken : span.IsSliceOf source := by
    rw [← List.append_assoc] at hsource
    apply (span.isSliceOf_append hsource _ _).1
    . rw [hstart, byteLength_append]
    . rw [hstop, hstart, byteLength_append]
  refine ⟨?_, ?_, .cons he h.contains, ?_⟩
  . intro x hx
    rcases List.mem_cons.mp hx with rfl | hx
    . exact hkept
    . exact h.isSliceOf_kept x hx
  . intro x hx
    rcases List.mem_cons.mp hx with rfl | hx
    . exact htaken
    . exact h.isSliceOf_taken x hx
  . rw [List.map_cons, List.zip_cons_cons, assemble, hslice, h.text_eq]
    rfl

theorem exists_place_of_spliceFrom {c : Cursor} {e : Edit} {es : List Edit} {s : Splice}
    (h : spliceFrom c (e :: es) = .ok s) :
    ∃ gap cut rest, c.rest = gap ++ (cut ++ rest) ∧ e.span.start = c.offset + byteLength gap
      ∧ e.span.stop = e.span.start + byteLength cut := by
  cases hplace : spliceFrom.place c e.span with
  | none =>
    rw [spliceFrom, hplace] at h
    cases h
  | some place =>
    obtain ⟨cut, hrest, hstart, hstop⟩ := spliceFrom.place_eq_some hplace
    exact ⟨_, cut, _, hrest, hstart, hstop⟩

/--
An edit that can be made at a place takes its span, indentation in front of it and what is eaten
behind it, and leads to the place behind that.
-/
theorem exists_parts_of_spliceFrom {source : List Char} {c : Cursor} {e : Edit} {es : List Edit}
    {s : Splice} (hc : c.IsIn source) (h : spliceFrom c (e :: es) = .ok s) :
    ∃ back kept indent cut eaten c' s',
      source = back ++ (kept ++ (indent ++ (cut ++ (eaten ++ c'.rest))))
        ∧ c.offset = byteLength back
        ∧ e.span.start = byteLength (back ++ (kept ++ indent))
        ∧ e.span.stop = byteLength (back ++ (kept ++ (indent ++ cut)))
        ∧ c'.offset = byteLength (back ++ (kept ++ (indent ++ (cut ++ eaten))))
        ∧ (∀ x ∈ indent, isIndent x = true) ∧ spliceFrom c' es = .ok s'
        ∧ s = ⟨kept ++ e.text ++ s'.text, ⟨byteLength (back ++ kept), c'.offset⟩ :: s'.taken⟩ := by
  obtain ⟨back, hsource, hoffset⟩ := hc
  obtain ⟨gap, cut, rest, hrest, hstart, hstop⟩ := exists_place_of_spliceFrom h
  rw [hrest] at hsource
  cases e with
  | replacement span text =>
    simp only [Edit.span] at hstart hstop
    rw [spliceFrom_replacement hrest hstart hstop] at h
    obtain ⟨s', hs', rfl⟩ := map_eq_ok h
    refine ⟨back, gap, [], cut, [], (c.behind gap (cut ++ rest)).behind cut rest, s',
      hsource, hoffset, ?_, ?_, ?_, by simp, hs', ?_⟩
    . simp [Edit.span, hstart, hoffset]
    . simp [Edit.span, hstop, hstart, hoffset, Nat.add_assoc]
    . simp [Cursor.behind, hoffset, Nat.add_assoc]
    . have hspan : span = ⟨byteLength (back ++ gap),
          ((c.behind gap (cut ++ rest)).behind cut rest).offset⟩ := by
        rw [byteLength_append, ← hoffset, ← hstart]
        simp only [Cursor.behind, ← hstart, ← hstop]
      rw [← hspan]
      rfl
  | removal span =>
    simp only [Edit.span] at hstart hstop
    obtain ⟨kept, indent, eaten, w, rfl, hw, heq⟩ := spliceFrom_removal hrest hstart hstop
    rw [heq] at h
    obtain ⟨s', hs', rfl⟩ := map_eq_ok h
    have hrest' : rest = eaten ++ w.cursor.rest := hw.rest_eq
    have hend := hw.offset_eq
    simp only [Cursor.behind] at hend
    simp only [byteLength_append] at hstart hend
    refine ⟨back, kept, indent, cut, eaten, w.cursor, s', by simp [hsource, hrest'], hoffset, ?_, ?_,
      ?_, hw.all_indent, hs', ?_⟩
    . simp only [Edit.span, byteLength_append]
      omega
    . simp only [Edit.span, byteLength_append]
      omega
    . simp only [byteLength_append]
      omega
    . have hspan : w.span = ⟨byteLength (back ++ kept), w.cursor.offset⟩ := by
        rw [hw.span_eq, byteLength_append, Span.mk.injEq]
        omega
      rw [hspan]
      simp [Edit.text]

theorem isOf_of_spliceFrom {source : List Char} {c : Cursor} {es : List Edit} {s : Splice}
    (hc : c.IsIn source) (h : spliceFrom c es = .ok s) : s.IsOf source c.offset es := by
  induction es generalizing c s with
  | nil =>
    cases h
    obtain ⟨back, hsource, hoffset⟩ := hc
    have hsource' : source = back ++ (c.rest ++ []) := by
      rw [List.append_nil]
      exact hsource
    have hall := Span.isSliceOf_append ⟨c.offset, byteLength source⟩ hsource' hoffset
      (by simp [hsource])
    refine ⟨?_, by simp, .nil, hall.2⟩
    intro x hx
    rcases List.mem_cons.mp hx with rfl | hx
    . exact hall.1
    . cases hx
  | cons e es ih =>
    obtain ⟨back, kept, indent, cut, eaten, c', s', hsource, hoffset, hstart, hstop, hoffset', _, hs',
      rfl⟩ := exists_parts_of_spliceFrom hc h
    have hin : c'.IsIn source :=
      ⟨back ++ (kept ++ (indent ++ (cut ++ eaten))), by simp [hsource], hoffset'⟩
    have hparts : source = back ++ (kept ++ (indent ++ (cut ++ eaten) ++ c'.rest)) := by
      simp [hsource]
    rw [hoffset]
    apply Splice.IsOf.cons hparts
    . exact byteLength_append ..
    . rw [hoffset']
      simp only [byteLength_append]
      omega
    . rw [Span.contains, Bool.and_eq_true, decide_eq_true_eq, decide_eq_true_eq, hstart, hstop,
        hoffset']
      simp only [byteLength_append]
      omega
    . exact ih hin hs'

end Delegation
