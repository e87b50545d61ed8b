import Delegation.Proofs.MaximalEdits
import Delegation.Proofs.Resplicing

/-!
This module contains what edits take away from a text: nothing but their spans, the indentation in
front of removals, and the lines on which removals stand alone.
-/

namespace Delegation

/-!
Two divisions of one text are compared by how many bytes are in front of them.
-/

theorem eq_nil_of_byteLength {cs : List Char} (h : byteLength cs = 0) : cs = [] := by
  cases cs with
  | nil => rfl
  | cons c cs =>
    have := c.utf8Size_pos
    rw [byteLength_cons] at h
    omega

theorem exists_append_of_byteLength_le {front back front' back' : List Char}
    (h : front ++ back = front' ++ back') (hle : byteLength front ≤ byteLength front') :
    ∃ between, front' = front ++ between ∧ back = between ++ back' := by
  rcases List.append_eq_append_iff.mp h with ⟨between, hfront, hback⟩ | ⟨between, hfront, hback⟩
  . exact ⟨between, hfront, hback⟩
  . have hnil : between = [] := by
      apply eq_nil_of_byteLength
      rw [hfront, byteLength_append] at hle
      omega
    refine ⟨[], ?_, ?_⟩
    . rw [hfront, hnil, List.append_nil, List.append_nil]
    . rw [hback, hnil, List.nil_append, List.nil_append]

theorem append_inj_of_byteLength_eq {front back front' back' : List Char}
    (h : front ++ back = front' ++ back') (heq : byteLength front = byteLength front') :
    front = front' ∧ back = back' := by
  obtain ⟨between, hfront, hback⟩ := exists_append_of_byteLength_le h (Nat.le_of_eq heq)
  have hnil : between = [] := by
    apply eq_nil_of_byteLength
    rw [hfront, byteLength_append] at heq
    omega
  rw [hnil] at hfront hback
  exact ⟨by simpa using hfront.symm, hback⟩

theorem Span.slice?_eq_some {span : Span} {source cut : List Char}
    (h : span.slice? source = some cut) :
    ∃ front ahead, source = front ++ (cut ++ ahead) ∧ span.start = byteLength front
      ∧ span.stop - span.start = byteLength cut := by
  obtain ⟨⟨front, ahead⟩, hfront, h⟩ := Option.bind_eq_some_iff.mp h
  obtain ⟨⟨back, ahead'⟩, hback, h⟩ := Option.bind_eq_some_iff.mp h
  obtain ⟨hsource, hstart⟩ := passBytes_eq_some hfront
  obtain ⟨hahead, hlength⟩ := passBytes_eq_some hback
  cases h
  refine ⟨front.reverse, ahead', ?_, ?_, ?_⟩
  . rw [← hsource, ← hahead]
  . rw [byteLength_reverse, hstart]
  . rw [byteLength_reverse, hlength]

def IsLineStart (front : List Char) : Prop :=
  ∀ c ∈ front.getLast?, c = '\n'

def isMargin (c : Char) : Bool :=
  isTrailing c || c == '\n'

namespace Span

/--
Whether there is something of `source` at `span`, without white space at its ends.
-/
def IsSolidIn (span : Span) (source : List Char) : Prop :=
  ∃ cut, span.slice? source = some cut ∧ cut ≠ []
    ∧ (∀ c ∈ cut.head?, isMargin c = false) ∧ ∀ c ∈ cut.getLast?, isMargin c = false

/--
Whether `lines` are whole lines of `source`. The last one may be without a line break at the end of
the text.
-/
def IsLinesOf (lines : Span) (source : List Char) : Prop :=
  ∃ front block back, source = front ++ (block ++ back)
    ∧ lines = ⟨byteLength front, byteLength (front ++ block)⟩
    ∧ IsLineStart front ∧ (back = [] ∨ block.getLast? = some '\n')

/--
Whether nothing but `span` is on the lines `lines` of `source`, characters with `isBlank` in front of
it and white space behind it apart.
-/
def IsAloneOn (isBlank : Char → Bool) (source : List Char) (span lines : Span) : Prop :=
  ∃ front indent cut blank newline back,
    source = front ++ (indent ++ (cut ++ (blank ++ (newline ++ back))))
    ∧ span = ⟨byteLength (front ++ indent), byteLength (front ++ (indent ++ cut))⟩
    ∧ lines = ⟨byteLength front, byteLength (front ++ (indent ++ (cut ++ (blank ++ newline))))⟩
    ∧ IsLineStart front ∧ (∀ c ∈ indent, isBlank c = true) ∧ (∀ c ∈ blank, isTrailing c = true)
    ∧ (newline = [] ∧ back = [] ∨ newline = ['\n'])

/--
Whether `range` of `source` is `span` with indentation in front of it, and behind it white space and
at most one line break.
-/
def IsWidenedTo (source : List Char) (span range : Span) : Prop :=
  range.start ≤ span.start ∧ span.stop ≤ range.stop ∧ ∃ indent blank newline,
    Span.slice? ⟨range.start, span.start⟩ source = some indent
    ∧ Span.slice? ⟨span.stop, range.stop⟩ source = some (blank ++ newline)
    ∧ (∀ c ∈ indent, isIndent c = true) ∧ (∀ c ∈ blank, isTrailing c = true)
    ∧ (newline = [] ∨ newline = ['\n'])

end Span

/--
Whether a removal of `span` may take `range`: more than the span behind it only with whole lines,
and these if it is alone on them.
-/
structure IsRemovalRange (source : List Char) (span range : Span) : Prop where
  isWidenedTo : span.IsWidenedTo source range
  isLinesOf : span.stop < range.stop → range.IsLinesOf source
  eq_lines : ∀ lines, span.IsAloneOn isIndent source lines → range = lines

def Edit.Takes (source : List Char) (e : Edit) (range : Span) : Prop :=
  match e with
  | removal span => IsRemovalRange source span range
  | replacement span _ => range = span

def Cursor.between (back rest : List Char) : Cursor :=
  ⟨byteLength back, back.getLast?, rest⟩

theorem Cursor.behind_between (back passed rest : List Char) :
    (between back (passed ++ rest)).behind passed rest = between (back ++ passed) rest := by
  simp [between, behind]

theorem Span.IsSolidIn.exists_parts {span : Span} {source : List Char} (h : span.IsSolidIn source) :
    ∃ front cut ahead, source = front ++ (cut ++ ahead)
      ∧ span = ⟨byteLength front, byteLength front + byteLength cut⟩ ∧ cut ≠ []
      ∧ (∀ c ∈ cut.head?, isMargin c = false) ∧ ∀ c ∈ cut.getLast?, isMargin c = false := by
  obtain ⟨cut, hslice, hne, hends⟩ := h
  obtain ⟨front, ahead, hsource, hstart, hlength⟩ := slice?_eq_some hslice
  have hpos : byteLength cut ≠ 0 := fun h => hne (eq_nil_of_byteLength h)
  refine ⟨front, cut, ahead, hsource, ?_, hne, hends⟩
  cases span
  simp only [mk.injEq] at *
  omega

theorem Span.isSolidIn_of_check {span : Span} {source cut : List Char}
    (hslice : span.slice? source = some cut)
    (h : (cut.head?.any (!isMargin ·) && cut.getLast?.any (!isMargin ·)) = true) :
    span.IsSolidIn source := by
  rw [Bool.and_eq_true, Option.any_eq_true, Option.any_eq_true] at h
  obtain ⟨⟨first, hfirst, hhead⟩, last, hlast, hend⟩ := h
  refine ⟨cut, hslice, ?_, ?_, ?_⟩
  . rintro rfl
    cases hfirst
  . rw [hfirst]
    rintro _ ⟨⟩
    simpa using hhead
  . rw [hlast]
    rintro _ ⟨⟩
    simpa using hend

theorem Span.IsSolidIn.start_lt_stop {span : Span} {source : List Char} (h : span.IsSolidIn source) :
    span.start < span.stop := by
  obtain ⟨front, cut, _, _, rfl, hne, _⟩ := h.exists_parts
  have : byteLength cut ≠ 0 := fun h => hne (eq_nil_of_byteLength h)
  dsimp only
  omega

theorem Span.IsSolidIn.start_ge {span : Span} {back margin rest : List Char}
    (h : span.IsSolidIn (back ++ (margin ++ rest))) (hmargin : ∀ c ∈ margin, isMargin c = true)
    (hstart : byteLength back ≤ span.start) : byteLength (back ++ margin) ≤ span.start := by
  obtain ⟨front, cut, ahead, hsource, rfl, hne, hhead, _⟩ := h.exists_parts
  obtain ⟨between, rfl, hrest⟩ := exists_append_of_byteLength_le hsource hstart
  rcases List.append_eq_append_iff.mp hrest with ⟨more, rfl, _⟩ | ⟨more, rfl, hcut⟩
  . simp only [byteLength_append]
    omega
  . cases more with
    | nil => simp
    | cons c more =>
      obtain ⟨d, cut, rfl⟩ := List.exists_cons_of_ne_nil hne
      obtain ⟨rfl, _⟩ := List.cons.inj hcut
      have := hmargin d (by simp)
      rw [hhead d rfl] at this
      cases this

/-!
What one removal takes, between the text `back` that is settled already and the text behind it.
-/

section

variable {source back gap cut rest : List Char}

theorem all_getLast?_or (back kept : List Char) :
    (kept.getLast?.or back.getLast?).all (· == '\n') = true ↔ IsLineStart (back ++ kept) := by
  rw [IsLineStart, List.getLast?_append, Option.all_eq_true]
  simp

def removalSpan (back gap cut : List Char) : Span :=
  ⟨byteLength (back ++ gap), byteLength (back ++ (gap ++ cut))⟩

def widenBetween (back gap cut rest : List Char) : Widening :=
  widen (.between back (gap ++ (cut ++ rest))) gap.reverse (removalSpan back gap cut)
    (.between (back ++ (gap ++ cut)) rest)

theorem widenBetween_line {kept indent blank newline : List Char}
    (hkept : kept.getLast?.all (!isIndent ·) = true) (hindent : ∀ c ∈ indent, isIndent c = true)
    (hline : IsLineStart (back ++ kept)) (hblank : ∀ c ∈ blank, isTrailing c = true)
    (hnewline : newline = [] ∧ rest = [] ∨ newline = ['\n']) :
    widenBetween back (kept ++ indent) cut (blank ++ (newline ++ rest))
      = ⟨kept.reverse,
        ⟨byteLength (back ++ kept),
          byteLength (back ++ (kept ++ (indent ++ (cut ++ (blank ++ newline)))))⟩,
        .between (back ++ (kept ++ (indent ++ (cut ++ (blank ++ newline))))) rest⟩ := by
  have hstop : (Cursor.between (back ++ (kept ++ indent ++ cut)) (blank ++ (newline ++ rest))).rest
      = blank ++ (newline ++ rest) := rfl
  have := widen_line (.between back (kept ++ indent ++ (cut ++ (blank ++ (newline ++ rest)))))
    (removalSpan back (kept ++ indent) cut) hkept hindent
    ((all_getLast?_or back kept).mpr hline) hstop hblank hnewline
  rw [widenBetween, this]
  simp only [Cursor.between, removalSpan, byteLength_append, List.getLast?_append, Widening.mk.injEq,
    Span.mk.injEq, Cursor.mk.injEq, Option.or_assoc, true_and, and_true]
  omega

theorem widenBetween_within {kept indent blank : List Char}
    (hkept : kept.getLast?.all (!isIndent ·) = true) (hindent : ∀ c ∈ indent, isIndent c = true)
    (hblank : ∀ c ∈ blank, isTrailing c = true) (hrest : rest.head?.all (!isTrailing ·) = true)
    (hline : ¬ (IsLineStart (back ++ kept) ∧ rest.head?.all (· == '\n') = true)) :
    widenBetween back (kept ++ indent) cut (blank ++ rest)
      = ⟨kept.reverse,
        ⟨byteLength (back ++ kept), byteLength (back ++ (kept ++ (indent ++ cut)))⟩,
        .between (back ++ (kept ++ (indent ++ cut))) (blank ++ rest)⟩ := by
  rw [← all_getLast?_or] at hline
  have hstop : (Cursor.between (back ++ (kept ++ indent ++ cut)) (blank ++ rest)).rest
      = blank ++ rest := rfl
  have := widen_within (.between back (kept ++ indent ++ (cut ++ (blank ++ rest))))
    (removalSpan back (kept ++ indent) cut) hkept hindent hstop hblank hrest hline
  rw [widenBetween, this]
  simp only [Cursor.between, removalSpan, byteLength_append, List.append_assoc, Widening.mk.injEq,
    Span.mk.injEq, true_and, and_true]
  omega

/--
The lines on which a removal is alone are what it takes, unless a part of them is settled already.
-/
theorem widenBetween_of_isAloneOn {lines : Span} (hle : byteLength back ≤ lines.start)
    (h : (removalSpan back gap cut).IsAloneOn isIndent (back ++ (gap ++ (cut ++ rest))) lines) :
    ∃ kept back' more, back ++ (gap ++ (cut ++ rest)) = back' ++ more
      ∧ widenBetween back gap cut rest = ⟨kept, lines, .between back' more⟩
      ∧ lines.stop = byteLength back' ∧ (more = [] ∨ back'.getLast? = some '\n') := by
  obtain ⟨front, indent, cut', blank, newline, ahead, hsource, hspan, rfl, hline, hindent, hblank,
    hnewline⟩ := h
  simp only [removalSpan, Span.mk.injEq] at hspan
  have hstart : back ++ gap = front ++ indent ∧ cut ++ rest = cut' ++ (blank ++ (newline ++ ahead)) :=
    append_inj_of_byteLength_eq (by simpa using hsource) hspan.1
  have hcut : cut = cut' ∧ rest = blank ++ (newline ++ ahead) := by
    apply append_inj_of_byteLength_eq hstart.2
    simp only [byteLength_append] at hspan
    omega
  obtain ⟨rfl, rfl⟩ := hcut
  obtain ⟨kept, rfl, rfl⟩ := exists_append_of_byteLength_le hstart.1 hle
  have hkept : kept.getLast?.all (!isIndent ·) = true := by
    rw [Option.all_eq_true]
    intro c hc
    rw [hline c (by simp [List.getLast?_append, hc])]
    rfl
  refine ⟨kept.reverse, back ++ (kept ++ (indent ++ (cut ++ (blank ++ newline)))), ahead, by simp,
    ?_, by simp, ?_⟩
  . rw [widenBetween_line hkept hindent hline hblank hnewline, ← List.append_assoc back kept]
  . refine hnewline.imp And.right ?_
    rintro rfl
    simp [List.getLast?_append]

theorem span_widenBetween_of_isAloneOn (hback : ∀ c ∈ back.getLast?, isIndent c = false)
    {lines : Span}
    (h : (removalSpan back gap cut).IsAloneOn isIndent (back ++ (gap ++ (cut ++ rest))) lines) :
    (widenBetween back gap cut rest).span = lines := by
  have hle : byteLength back ≤ lines.start := by
    obtain ⟨front, indent, _, _, _, _, hsource, hspan, rfl, _, hindent, _⟩ := h
    simp only [removalSpan, Span.mk.injEq] at hspan
    have hstart : back ++ gap = front ++ indent :=
      (append_inj_of_byteLength_eq (by simpa using hsource) hspan.1).1
    rcases List.append_eq_append_iff.mp hstart with ⟨more, rfl, _⟩ | ⟨more, rfl, hmore⟩
    . simp
    . cases List.eq_nil_or_concat more with
      | inl hnil => simp [hnil]
      | inr hconcat =>
        obtain ⟨more, c, rfl⟩ := hconcat
        have hc := hback c (by simp)
        rw [hindent c (by simp [hmore])] at hc
        cases hc
  obtain ⟨_, _, _, _, hwiden, _⟩ := widenBetween_of_isAloneOn hle h
  rw [hwiden]

theorem exists_newline {ahead : List Char} (h : ahead.head?.all (· == '\n') = true) :
    ∃ newline more, ahead = newline ++ more
      ∧ (newline = [] ∧ more = [] ∨ newline = ['\n']) := by
  cases ahead with
  | nil => exact ⟨[], [], rfl, .inl ⟨rfl, rfl⟩⟩
  | cons c more => exact ⟨['\n'], more, by simpa using h, .inr rfl⟩

theorem isWidenedTo_removalSpan {kept indent blank newline : List Char}
    (hindent : ∀ c ∈ indent, isIndent c = true) (hblank : ∀ c ∈ blank, isTrailing c = true)
    (hnewline : newline = [] ∨ newline = ['\n']) :
    (removalSpan back (kept ++ indent) cut).IsWidenedTo
      (back ++ (kept ++ indent ++ (cut ++ (blank ++ (newline ++ rest)))))
      ⟨byteLength (back ++ kept),
        byteLength (back ++ (kept ++ (indent ++ (cut ++ (blank ++ newline)))))⟩ := by
  refine ⟨?_, ?_, indent, blank, newline, ?_, ?_, hindent, hblank, hnewline⟩
  . simp [removalSpan]
  . simp [removalSpan]
  . have hparts : back ++ (kept ++ indent ++ (cut ++ (blank ++ (newline ++ rest))))
        = (back ++ kept) ++ (indent ++ (cut ++ (blank ++ (newline ++ rest)))) := by
      simp
    apply (Span.isSliceOf_append _ hparts rfl _).2
    simp [removalSpan, Nat.add_assoc]
  . have hparts : back ++ (kept ++ indent ++ (cut ++ (blank ++ (newline ++ rest))))
        = (back ++ (kept ++ indent ++ cut)) ++ ((blank ++ newline) ++ rest) := by
      simp
    apply (Span.isSliceOf_append _ hparts rfl _).2
    simp [Nat.add_assoc]

theorem isRemovalRange_widenBetween (hback : ∀ c ∈ back.getLast?, isIndent c = false) :
    IsRemovalRange (back ++ (gap ++ (cut ++ rest))) (removalSpan back gap cut)
        (widenBetween back gap cut rest).span
      ∧ ∃ kept margin more, rest = margin ++ more
        ∧ widenBetween back gap cut rest
          = ⟨kept, ⟨byteLength (back ++ kept.reverse), byteLength (back ++ (gap ++ (cut ++ margin)))⟩,
            .between (back ++ (gap ++ (cut ++ margin))) more⟩
        ∧ (∀ c ∈ margin, isMargin c = true)
        ∧ (more = [] ∨ ∀ c ∈ margin.getLast?, isIndent c = false) := by
  obtain ⟨kept, indent, rfl, hkept, hindent⟩ := exists_indent gap
  obtain ⟨blank, ahead, rfl, hblank, hahead⟩ := exists_blank rest
  have halone : ∀ lines, (removalSpan back (kept ++ indent) cut).IsAloneOn isIndent
      (back ++ (kept ++ indent ++ (cut ++ (blank ++ ahead)))) lines →
      (widenBetween back (kept ++ indent) cut (blank ++ ahead)).span = lines :=
    fun lines => span_widenBetween_of_isAloneOn hback
  by_cases hwhole : IsLineStart (back ++ kept) ∧ ahead.head?.all (· == '\n') = true
  . obtain ⟨hline, hend⟩ := hwhole
    obtain ⟨newline, more, rfl, hnewline⟩ := exists_newline hend
    rw [widenBetween_line hkept hindent hline hblank hnewline] at halone ⊢
    refine ⟨⟨isWidenedTo_removalSpan hindent hblank (hnewline.imp_left (·.1)), ?_, halone⟩,
      kept.reverse, blank ++ newline, more, by simp, by simp, ?_, ?_⟩
    . intro _
      refine ⟨back ++ kept, indent ++ (cut ++ (blank ++ newline)), more, by simp, by simp, hline, ?_⟩
      rcases hnewline with ⟨_, hmore⟩ | hnewline
      . exact .inl hmore
      . exact .inr (by simp [hnewline, List.getLast?_append])
    . intro c hc
      rcases List.mem_append.mp hc with hc | hc
      . simp [isMargin, hblank c hc]
      . rcases hnewline with ⟨rfl, _⟩ | rfl
        . cases hc
        . rw [List.mem_singleton.mp hc]
          rfl
    . rcases hnewline with ⟨_, hmore⟩ | rfl
      . exact .inl hmore
      . refine .inr ?_
        simp [List.getLast?_append]
        decide
  . rw [widenBetween_within hkept hindent hblank hahead hwhole] at halone ⊢
    refine ⟨⟨?_, ?_, halone⟩, kept.reverse, [], blank ++ ahead, rfl, by simp, by simp, by simp⟩
    . have := @isWidenedTo_removalSpan back cut (blank ++ ahead) kept indent [] [] hindent (by simp)
        (.inl rfl)
      simpa using this
    . intro hlt
      simp [removalSpan] at hlt

end

def IsSettledTo (back rest : List Char) : Prop :=
  rest = [] ∨ ∀ c ∈ back.getLast?, isIndent c = false

theorem exists_spliceFrom_cons {source back rest : List Char} {e : Edit}
    (hsource : source = back ++ rest) (hback : IsSettledTo back rest)
    (hsolid : e.span.IsSolidIn source) (hstart : byteLength back ≤ e.span.start) :
    ∃ back' more text range, source = back' ++ more ∧ IsSettledTo back' more
      ∧ (∀ es, spliceFrom (.between back rest) (e :: es)
        = (spliceFrom (.between back' more) es).map fun s => ⟨text ++ s.text, range :: s.taken⟩)
      ∧ e.Takes source range ∧ byteLength back ≤ range.start ∧ range.start ≤ range.stop
      ∧ range.stop = byteLength back' ∧ ∀ span : Span, span.IsSolidIn source →
        e.span.stop ≤ span.start → byteLength back' ≤ span.start := by
  obtain ⟨front, cut, ahead, hparts, hspan, hne, _, hlast⟩ := hsolid.exists_parts
  rw [hspan] at hstart
  obtain ⟨gap, rfl, rfl⟩ := exists_append_of_byteLength_le (hsource.symm.trans hparts) hstart
  have hcut : ∀ c ∈ cut.getLast?, isIndent c = false := by
    intro c hc
    have := hlast c hc
    simp only [isMargin, isTrailing, Bool.or_eq_false_iff] at this
    exact this.1.1
  have hplace : e.span.start
      = (Cursor.between back (gap ++ (cut ++ ahead))).offset + byteLength gap := by
    simp [hspan, Cursor.between]
  have hlength : e.span.stop = e.span.start + byteLength cut := by
    simp [hspan]
  have hcursor : ((Cursor.between back (gap ++ (cut ++ ahead))).behind gap (cut ++ ahead)).behind
      cut ahead = .between (back ++ (gap ++ cut)) ahead := by
    rw [Cursor.behind_between, Cursor.behind_between, List.append_assoc]
  cases e with
  | replacement span text =>
    simp only [Edit.span] at hspan hplace hlength
    refine ⟨back ++ (gap ++ cut), ahead, gap ++ text, span, by simp [hsource], .inr ?_, ?_, rfl, ?_,
      by omega, ?_, ?_⟩
    . intro c hc
      rw [← List.append_assoc, List.getLast?_append_of_ne_nil _ hne] at hc
      exact hcut c hc
    . intro es
      rw [spliceFrom_replacement rfl hplace hlength, hcursor]
    . simp [hspan]
    . simp [hspan, Nat.add_assoc]
    . intro x _ hx
      simpa [Edit.span, hspan, Nat.add_assoc] using hx
  | removal span =>
    simp only [Edit.span] at hspan hplace hlength
    have hback' : ∀ c ∈ back.getLast?, isIndent c = false := by
      rcases hback with hnil | hback
      . simp [hne] at hnil
      . exact hback
    have hremoval : span = removalSpan back gap cut := by
      rw [hspan]
      simp [removalSpan, Nat.add_assoc]
    obtain ⟨hrange, kept, margin, more, rfl, hwiden, hmargin, hmore⟩ :=
      @isRemovalRange_widenBetween back gap cut ahead hback'
    rw [hwiden] at hrange
    refine ⟨back ++ (gap ++ (cut ++ margin)), more, kept.reverse, _, by simp [hsource], ?_, ?_,
      by rw [hsource, hremoval]; exact hrange, by simp, ?_, rfl, ?_⟩
    . refine hmore.imp_right ?_
      intro hmargin c hc
      cases margin with
      | nil =>
        rw [List.append_nil, ← List.append_assoc, List.getLast?_append_of_ne_nil _ hne] at hc
        exact hcut c hc
      | cons d margin =>
        rw [← List.append_assoc, ← List.append_assoc,
          List.getLast?_append_of_ne_nil _ (List.cons_ne_nil d margin)] at hc
        exact hmargin c hc
    . intro es
      have := spliceFrom_removal_eq rfl hplace hlength es
      rw [hcursor, hremoval] at this
      rw [hremoval, this]
      rw [widenBetween] at hwiden
      rw [hwiden]
    . have := hrange.isWidenedTo
      unfold Span.IsWidenedTo removalSpan at this
      simp only [byteLength_append] at this ⊢
      omega
    . intro x hx hbehind
      have hx' : x.IsSolidIn (back ++ (gap ++ cut) ++ (margin ++ more)) := by
        simpa [hsource] using hx
      have := hx'.start_ge hmargin (by simpa [Edit.span, hspan, Nat.add_assoc] using hbehind)
      simpa using this

theorem exists_spliceFrom_between {source : List Char} {es : List Edit}
    (hsolid : ∀ e ∈ es, e.span.IsSolidIn source)
    (hpairwise : es.Pairwise fun a b => a.span.stop ≤ b.span.start) {back rest : List Char}
    (hsource : source = back ++ rest) (hback : IsSettledTo back rest)
    (hstart : ∀ e ∈ es, byteLength back ≤ e.span.start) :
    ∃ s, spliceFrom (.between back rest) es = .ok s ∧ List.Forall₂ (Edit.Takes source) es s.taken
      ∧ s.taken.Pairwise (fun a b => a.stop ≤ b.start)
      ∧ ∀ range ∈ s.taken, byteLength back ≤ range.start := by
  induction es generalizing back rest with
  | nil => exact ⟨_, rfl, .nil, .nil, by simp⟩
  | cons e es ih =>
    obtain ⟨back', more, text, range, hsource', hback', hstep, htakes, hfrom, hle, hto, hnext⟩ :=
      exists_spliceFrom_cons hsource hback (hsolid e (.head _)) (hstart e (.head _))
    obtain ⟨hbehind, hpairwise'⟩ := List.pairwise_cons.mp hpairwise
    obtain ⟨s, hs, hall, htaken, hfrom'⟩ := ih (fun x hx => hsolid x (.tail _ hx)) hpairwise'
      hsource' hback' (fun x hx => hnext x.span (hsolid x (.tail _ hx)) (hbehind x hx))
    refine ⟨⟨text ++ s.text, range :: s.taken⟩, ?_, .cons htakes hall, ?_, ?_⟩
    . rw [hstep, hs]
      rfl
    . refine List.pairwise_cons.mpr ⟨?_, htaken⟩
      intro x hx
      rw [hto]
      exact hfrom' x hx
    . intro x hx
      rcases List.mem_cons.mp hx with rfl | hx
      . exact hfrom
      . have := hfrom' x hx
        omega

/--
Edits that are settled can be made if there is no white space at the ends of their spans. Each of
them takes a range of its own, in the order of the text: its span, for a removal with indentation
and perhaps the whole lines on which it stands. All else stays.
-/
theorem applyEdits_takes_ranges {source : List Char} {edits : List Edit} {s : Settlement}
    (hsettle : settle edits = .ok s) (hsolid : ∀ e ∈ edits, e.span.IsSolidIn source) :
    ∃ t, applyEdits source edits = .ok t ∧ List.Forall₂ (Edit.Takes source) s.kept t.taken
      ∧ t.taken.Pairwise (fun a b => a.stop ≤ b.start)
      ∧ assemble source 0 (t.taken.zip (s.kept.map Edit.text)) = some t.text := by
  have hkept := isSettlementOf_of_settle (fun e he => Nat.le_of_lt (hsolid e he).start_lt_stop)
    hsettle
  have hpairwise : s.kept.Pairwise fun a b => a.span.stop ≤ b.span.start :=
    hkept.pairwise.imp fun hab => hab.2.1
  obtain ⟨t, ht, hall, htaken, _⟩ := exists_spliceFrom_between
    (fun e he => hsolid e (hkept.subset e he)) hpairwise (List.nil_append source).symm
    (.inr (by simp)) (by simp)
  have hstart : (Cursor.between [] source).IsIn source := ⟨[], rfl, rfl⟩
  have hof := isOf_of_spliceFrom hstart ht
  refine ⟨t, ?_, hall, htaken, hof.text_eq⟩
  unfold applyEdits
  rw [hsettle]
  exact ht

theorem applyEdits_takes_ranges_lines :
    let source := "a \x7b\n\tb: B;\r\n  c: C; d: D\n\x7d".toList
    let edits : List Edit := [.removal ⟨14, 19⟩, .replacement ⟨23, 24⟩ ['E'], .removal ⟨5, 10⟩]
    let kept : List Edit := [.removal ⟨5, 10⟩, .removal ⟨14, 19⟩, .replacement ⟨23, 24⟩ ['E']]
    let taken : List Span := [⟨4, 12⟩, ⟨12, 19⟩, ⟨23, 24⟩]
    settle edits = .ok ⟨kept, []⟩ ∧ (∀ e ∈ edits, e.span.IsSolidIn source)
      ∧ applyEdits source edits = .ok ⟨"a \x7b\n d: E\n\x7d".toList, taken⟩
      ∧ List.Forall₂ (Edit.Takes source) kept taken
      ∧ taken.Pairwise (fun a b => a.stop ≤ b.start)
      ∧ assemble source 0 (taken.zip (kept.map Edit.text)) = some "a \x7b\n d: E\n\x7d".toList := by
  intro source edits kept taken
  have hsort : edits.mergeSort Edit.precedes = kept := by
    simp [edits, kept, List.mergeSort, List.MergeSort.Internal.splitInTwo, Edit.precedes, Edit.span]
  have hsettle : settle edits = .ok ⟨kept, []⟩ := by
    rw [settle, hsort]
    rfl
  have hsolid : ∀ e ∈ edits, e.span.IsSolidIn source := by
    intro e he
    simp only [edits, List.mem_cons, List.not_mem_nil, or_false] at he
    rcases he with rfl | rfl | rfl
    . exact Span.isSolidIn_of_check rfl (by decide +kernel)
    . exact Span.isSolidIn_of_check rfl (by decide +kernel)
    . exact Span.isSolidIn_of_check rfl (by decide +kernel)
  have hrun : applyEdits source edits = .ok ⟨"a \x7b\n d: E\n\x7d".toList, taken⟩ := by
    rw [applyEdits, hsettle]
    rfl
  obtain ⟨t, ht, hall⟩ := applyEdits_takes_ranges hsettle hsolid
  rw [hrun] at ht
  cases ht
  exact ⟨hsettle, hsolid, hrun, hall⟩

/--
A carriage return in front of a removal stays, although nothing else is on its line.
-/
theorem exists_carriageReturn_kept :
    let source := "a\n\rb\n".toList
    let span : Span := ⟨3, 4⟩
    settle [.removal span] = .ok ⟨[.removal span], []⟩ ∧ span.IsSolidIn source
      ∧ span.IsAloneOn isTrailing source ⟨2, 5⟩
      ∧ applyEdits source [.removal span] = .ok ⟨"a\n\r\n".toList, [⟨3, 4⟩]⟩ := by
  intro source span
  have hsettle : settle [.removal span] = .ok ⟨[.removal span], []⟩ := by
    rw [settle, List.mergeSort_singleton]
    rfl
  have hrun : applyEdits source [.removal span] = .ok ⟨"a\n\r\n".toList, [⟨3, 4⟩]⟩ := by
    rw [applyEdits, hsettle]
    rfl
  refine ⟨hsettle, Span.isSolidIn_of_check rfl (by decide +kernel), ?_, hrun⟩
  refine ⟨['a', '\n'], ['\r'], ['b'], [], ['\n'], [], rfl, rfl, rfl, ?_, ?_, by simp, .inr rfl⟩
  . simp [IsLineStart]
  . exact List.forall_mem_singleton.mpr rfl

end Delegation
