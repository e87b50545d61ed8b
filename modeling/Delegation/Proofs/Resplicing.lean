import Delegation.Proofs.Relocation
import Delegation.Proofs.Spelling
import Delegation.Proofs.Splicing

/-!
This module contains edits of texts that are the same but for their line ends, or for what is in
front of or behind them. Nothing of that changes what a removal takes from the lines.
-/

namespace Delegation

def endLines (cr cs : List Char) : List Char :=
  cs.flatMap fun c => if c = '\n' then cr ++ ['\n'] else [c]

section

variable (cr : List Char)

@[simp]
theorem endLines_nil : endLines cr [] = [] := rfl

theorem endLines_cons_newline (cs : List Char) :
    endLines cr ('\n' :: cs) = cr ++ '\n' :: endLines cr cs := by
  simp [endLines]

theorem endLines_cons {c : Char} (h : c ≠ '\n') (cs : List Char) :
    endLines cr (c :: cs) = c :: endLines cr cs := by
  simp [endLines, h]

@[simp]
theorem endLines_append (cs ds : List Char) :
    endLines cr (cs ++ ds) = endLines cr cs ++ endLines cr ds := by
  simp [endLines]

theorem endLines_eq_self {cs : List Char} (h : '\n' ∉ cs) : endLines cr cs = cs := by
  induction cs with
  | nil => rfl
  | cons c cs ih =>
    rw [List.mem_cons, not_or] at h
    rw [endLines_cons cr (Ne.symm h.1), ih h.2]

theorem endLines_nil_left (cs : List Char) : endLines [] cs = cs := by
  induction cs with
  | nil => rfl
  | cons c cs ih =>
    by_cases hc : c = '\n'
    . rw [hc, endLines_cons_newline, ih]
      rfl
    . rw [endLines_cons [] hc, ih]

@[simp]
theorem getLast?_endLines (cs : List Char) : (endLines cr cs).getLast? = cs.getLast? := by
  cases List.eq_nil_or_concat cs with
  | inl h => rw [h]; rfl
  | inr h =>
    obtain ⟨front, c, rfl⟩ := h
    rw [List.concat_eq_append, endLines_append]
    by_cases hc : c = '\n'
    . rw [hc, endLines_cons_newline]
      simp
    . rw [endLines_cons cr hc]
      simp

end

def isTrailing (c : Char) : Bool :=
  isIndent c || c == '\r'

section

variable (start : Cursor) {kept indent blank rest : List Char} (span : Span) {stop : Cursor}

theorem takeWhile_indent (hkept : kept.getLast?.all (!isIndent ·) = true)
    (hindent : ∀ c ∈ indent, isIndent c = true) :
    (kept ++ indent).reverse.takeWhile isIndent = indent.reverse
      ∧ (kept ++ indent).reverse.dropWhile isIndent = kept.reverse := by
  rw [← List.head?_reverse] at hkept
  rw [List.reverse_append]
  apply span_run _ hkept
  intro c hc
  exact hindent c (List.mem_reverse.mp hc)

theorem widen_line {newline : List Char} (hkept : kept.getLast?.all (!isIndent ·) = true)
    (hindent : ∀ c ∈ indent, isIndent c = true)
    (hline : (kept.getLast?.or start.before).all (· == '\n') = true)
    (hstop : stop.rest = blank ++ (newline ++ rest)) (hblank : ∀ c ∈ blank, isTrailing c = true)
    (hnewline : newline = [] ∧ rest = [] ∨ newline = ['\n']) :
    let last := stop.offset + byteLength (blank ++ newline)
    widen start (kept ++ indent).reverse span stop
      = ⟨kept.reverse, ⟨span.start - byteLength indent, last⟩,
        ⟨last, (blank ++ newline).getLast?.or stop.before, rest⟩⟩ := by
  have hrest : (newline ++ rest).head?.all (!isTrailing ·) = true := by
    rcases hnewline with ⟨rfl, rfl⟩ | rfl <;> rfl
  obtain ⟨htake, hdrop⟩ := takeWhile_indent hkept hindent
  obtain ⟨htake', hdrop'⟩ := span_run hblank hrest
  unfold widen
  unfold isTrailing at htake' hdrop'
  dsimp only
  simp only [htake, hdrop, hstop, htake', hdrop', List.head?_reverse, byteLength_reverse, hline]
  rcases hnewline with ⟨rfl, rfl⟩ | rfl
  . simp
  . have : '\n'.utf8Size = 1 := by decide
    simp [this, Nat.add_assoc]

theorem widen_within (hkept : kept.getLast?.all (!isIndent ·) = true)
    (hindent : ∀ c ∈ indent, isIndent c = true) (hstop : stop.rest = blank ++ rest)
    (hblank : ∀ c ∈ blank, isTrailing c = true) (hrest : rest.head?.all (!isTrailing ·) = true)
    (hline : ¬ ((kept.getLast?.or start.before).all (· == '\n') = true
      ∧ rest.head?.all (· == '\n') = true)) :
    widen start (kept ++ indent).reverse span stop
      = ⟨kept.reverse, ⟨span.start - byteLength indent, span.stop⟩, stop⟩ := by
  obtain ⟨htake, hdrop⟩ := takeWhile_indent hkept hindent
  obtain ⟨htake', hdrop'⟩ := span_run hblank hrest
  unfold widen
  unfold isTrailing at htake' hdrop'
  dsimp only
  simp only [htake, hdrop, hstop, htake', hdrop', List.head?_reverse, byteLength_reverse]
  split
  . next hline' => exact absurd ⟨hline', rfl⟩ hline
  . next hline' => exact absurd ⟨hline', rfl⟩ hline
  . rfl

end

theorem exists_indent (gap : List Char) :
    ∃ kept indent, gap = kept ++ indent ∧ kept.getLast?.all (!isIndent ·) = true
      ∧ ∀ c ∈ indent, isIndent c = true := by
  refine ⟨(gap.reverse.dropWhile isIndent).reverse, (gap.reverse.takeWhile isIndent).reverse,
    ?_, ?_, ?_⟩
  . rw [← List.reverse_append, List.takeWhile_append_dropWhile, List.reverse_reverse]
  . rw [List.getLast?_reverse]
    exact head?_dropWhile_all gap.reverse
  . intro c hc
    exact List.mem_takeWhile_imp (List.mem_reverse.mp hc)

theorem exists_blank (cs : List Char) :
    ∃ blank rest, cs = blank ++ rest ∧ (∀ c ∈ blank, isTrailing c = true)
      ∧ rest.head?.all (!isTrailing ·) = true :=
  ⟨_, _, List.takeWhile_append_dropWhile.symm, fun _ hc => List.mem_takeWhile_imp hc,
    head?_dropWhile_all cs⟩

theorem spliceFrom_removal_eq {c : Cursor} {gap cut rest : List Char} {span : Span}
    (h : c.rest = gap ++ (cut ++ rest)) (hstart : span.start = c.offset + byteLength gap)
    (hstop : span.stop = span.start + byteLength cut) (es : List Edit) :
    let w := widen c gap.reverse span ((c.behind gap (cut ++ rest)).behind cut rest)
    spliceFrom c (.removal span :: es)
      = (spliceFrom w.cursor es).map fun s => ⟨w.kept.reverse ++ s.text, w.span :: s.taken⟩ := by
  have hplace := spliceFrom.place_eq h hstart hstop
  rw [spliceFrom]
  simp only [Edit.span, hplace]
  rfl

/--
Whether `c'` is the place `c` at the offset that `f` moves it to, with other line ends behind it and
`front` in front. A line starts at both places or at none.
-/
structure Cursor.Mirrors (f : Nat → Nat) (cr front : List Char) (c c' : Cursor) : Prop where
  rest_eq : c'.rest = front ++ endLines cr c.rest
  offset_eq : ∀ passed rest, c.rest = passed ++ rest →
    f (c.offset + byteLength passed) = c'.offset + byteLength (front ++ endLines cr passed)
  front_eq : front.getLast?.all (!isIndent ·) = true
  isLineStart_eq : (front.getLast?.or c'.before).all (· == '\n') = c.before.all (· == '\n')

section

variable {f : Nat → Nat} {cr front : List Char} {c c' : Cursor}

theorem Cursor.Mirrors.behind (h : c.Mirrors f cr front c') {passed rest : List Char}
    (hc : c.rest = passed ++ rest) :
    (c.behind passed rest).Mirrors f cr []
      (c'.behind (front ++ endLines cr passed) (endLines cr rest)) := by
  refine ⟨rfl, ?_, rfl, ?_⟩
  . rintro more rest' rfl
    rw [← List.append_assoc] at hc
    have := h.offset_eq _ _ hc
    simp only [Cursor.behind, endLines_append, byteLength_append, List.nil_append] at this ⊢
    rw [Nat.add_assoc, this]
    omega
  . simp only [Cursor.behind, List.getLast?_nil, Option.none_or, List.getLast?_append,
      getLast?_endLines]
    cases passed.getLast? with
    | some _ => rfl
    | none =>
      simp only [Option.none_or]
      exact h.isLineStart_eq

theorem not_mem_of_isTrailing {blank : List Char} (h : ∀ c ∈ blank, isTrailing c = true) :
    '\n' ∉ blank := by
  intro hmem
  have := h _ hmem
  cases this

theorem exists_blank_endLines (hcr : ∀ d ∈ cr, d = '\r') (cs : List Char) :
    ∃ blank blank' newline newline' rest, cs = blank ++ (newline ++ rest)
      ∧ endLines cr cs = blank' ++ (newline' ++ endLines cr rest)
      ∧ (∀ c ∈ blank, isTrailing c = true) ∧ (∀ c ∈ blank', isTrailing c = true)
      ∧ (newline ++ rest).head?.all (!isTrailing ·) = true
      ∧ (newline' ++ endLines cr rest).head?.all (!isTrailing ·) = true
      ∧ (newline' ++ endLines cr rest).head?.all (· == '\n')
        = (newline ++ rest).head?.all (· == '\n')
      ∧ ((newline ++ rest).head?.all (· == '\n') = true →
        (newline = [] ∧ rest = [] ∨ newline = ['\n'])
          ∧ (newline' = [] ∧ endLines cr rest = [] ∨ newline' = ['\n'])) := by
  obtain ⟨blank, rest, rfl, hblank, hrest⟩ := exists_blank cs
  have heq := endLines_eq_self cr (not_mem_of_isTrailing hblank)
  cases rest with
  | nil => exact ⟨blank, blank, [], [], [], by simp, by simp [heq], hblank, hblank, by simp⟩
  | cons c rest =>
    by_cases hc : c = '\n'
    . -- The carriage return is white space in front of the line break.
      subst hc
      have hblank' : ∀ c ∈ blank ++ cr, isTrailing c = true := by
        intro c hc
        rcases List.mem_append.mp hc with hc | hc
        . exact hblank c hc
        . rw [hcr c hc]
          rfl
      refine ⟨blank, blank ++ cr, ['\n'], ['\n'], rest, rfl, ?_, hblank, hblank', rfl, rfl, rfl,
        fun _ => ⟨.inr rfl, .inr rfl⟩⟩
      rw [endLines_append, heq, endLines_cons_newline, List.append_assoc]
      rfl
    . refine ⟨blank, blank, [], [], c :: rest, rfl, by simp [heq], hblank, hblank, hrest, ?_⟩
      rw [endLines_cons cr hc]
      exact ⟨hrest, rfl, fun hhead => absurd (by simpa using hhead) hc⟩

theorem Cursor.Mirrors.widen (hcr : ∀ d ∈ cr, d = '\r') (h : c.Mirrors f cr front c')
    (gap : List Char) {stop stop' : Cursor} (hstop : stop.Mirrors f cr [] stop')
    (span span' : Span) :
    let w := Delegation.widen c gap.reverse span stop
    let w' := Delegation.widen c' (front ++ endLines cr gap).reverse span' stop'
    w'.kept.reverse = front ++ endLines cr w.kept.reverse
      ∧ w.cursor.Mirrors f cr [] w'.cursor := by
  obtain ⟨kept, indent, rfl, hkept, hindent⟩ := exists_indent gap
  obtain ⟨blank, blank', newline, newline', rest, hrest, hrest', hblank, hblank', hhead, hhead',
    hnewline, hline⟩ := exists_blank_endLines hcr stop.rest
  have hindent' : endLines cr indent = indent := by
    apply endLines_eq_self
    intro hmem
    have := hindent _ hmem
    cases this
  have hkept' : (front ++ endLines cr kept).getLast?.all (!isIndent ·) = true := by
    rw [List.getLast?_append, getLast?_endLines]
    cases hlast : kept.getLast? with
    | none => exact h.front_eq
    | some d =>
      rw [hlast] at hkept
      exact hkept
  have hstart : ((front ++ endLines cr kept).getLast?.or c'.before).all (· == '\n')
      = (kept.getLast?.or c.before).all (· == '\n') := by
    rw [List.getLast?_append, getLast?_endLines]
    cases kept.getLast? with
    | none => exact h.isLineStart_eq
    | some d => rfl
  have hstop' : stop'.rest = blank' ++ (newline' ++ endLines cr rest) :=
    hstop.rest_eq.trans hrest'
  rw [endLines_append, hindent', ← List.append_assoc]
  by_cases hends : (kept.getLast?.or c.before).all (· == '\n') = true
      ∧ (newline ++ rest).head?.all (· == '\n') = true
  . -- Nothing else is on the line, which goes with its end.
    obtain ⟨hall, hall'⟩ := hline hends.2
    have hpassed : stop.rest = (blank ++ newline) ++ rest := by
      rw [hrest, List.append_assoc]
    have hbehind := hstop.behind hpassed
    have htaken : endLines cr (blank ++ newline) = blank' ++ newline' := by
      apply List.append_cancel_right
      rw [← endLines_append, ← hpassed, hrest', List.append_assoc]
    rw [List.nil_append, htaken] at hbehind
    rw [widen_line c span hkept hindent hends.1 hrest hblank hall,
      widen_line c' span' hkept' hindent (hstart.trans hends.1) hstop' hblank' hall']
    exact ⟨by simp, hbehind⟩
  . have hends' : ¬ (((front ++ endLines cr kept).getLast?.or c'.before).all (· == '\n') = true
        ∧ (newline' ++ endLines cr rest).head?.all (· == '\n') = true) := by
      rw [hstart, hnewline]
      exact hends
    rw [widen_within c span hkept hindent hrest hblank hhead hends,
      widen_within c' span' hkept' hindent hstop' hblank' hhead' hends']
    exact ⟨by simp, hstop⟩

/--
Edits of a text are made alike with other line ends, and with other text in front.
-/
theorem spliceFrom_mirrors (hcr : ∀ d ∈ cr, d = '\r') {es : List Edit}
    (htexts : ∀ e ∈ es, endLines cr e.text = e.text) (h : c.Mirrors f cr front c') {s : Splice}
    (hs : spliceFrom c es = .ok s) :
    ∃ s', spliceFrom c' (es.map (Edit.relocate f)) = .ok s'
      ∧ s'.text = front ++ endLines cr s.text := by
  induction es generalizing c c' front s with
  | nil =>
    cases hs
    exact ⟨_, rfl, h.rest_eq⟩
  | cons e es ih =>
    obtain ⟨gap, cut, rest, hrest, hstart, hstop⟩ := exists_place_of_spliceFrom hs
    have hrest' : c'.rest = front ++ endLines cr gap ++ (endLines cr cut ++ endLines cr rest) := by
      rw [h.rest_eq, hrest, endLines_append, endLines_append, List.append_assoc]
    have hstart' : (e.span.relocate f).start
        = c'.offset + byteLength (front ++ endLines cr gap) := by
      rw [Span.relocate, hstart, h.offset_eq _ _ hrest]
    have hstop' : (e.span.relocate f).stop
        = (e.span.relocate f).start + byteLength (endLines cr cut) := by
      rw [hstart', Span.relocate]
      rw [← List.append_assoc] at hrest
      have := h.offset_eq _ _ hrest
      rw [byteLength_append, ← Nat.add_assoc, ← hstart, ← hstop] at this
      rw [this, endLines_append, ← List.append_assoc, byteLength_append, ← Nat.add_assoc]
    have hbehind := (h.behind hrest).behind rfl
    rw [List.nil_append, endLines_append] at hbehind
    have htexts' := fun x hx => htexts x (.tail _ hx)
    cases e with
    | replacement span text =>
      simp only [Edit.span] at hstart hstop hstart' hstop'
      rw [spliceFrom_replacement hrest hstart hstop] at hs
      obtain ⟨s, htail, rfl⟩ := map_eq_ok hs
      obtain ⟨s', hs', htext⟩ := ih htexts' hbehind htail
      have heq : endLines cr text = text := htexts _ (.head _)
      rw [List.map_cons, Edit.relocate, spliceFrom_replacement hrest' hstart' hstop', hs']
      refine ⟨_, rfl, ?_⟩
      simp only [htext, endLines_append, heq, List.append_assoc, List.nil_append]
    | removal span =>
      simp only [Edit.span] at hstart hstop hstart' hstop'
      rw [spliceFrom_removal_eq hrest hstart hstop] at hs
      obtain ⟨s, htail, rfl⟩ := map_eq_ok hs
      obtain ⟨hkept, hcursor⟩ := h.widen hcr gap hbehind span (span.relocate f)
      obtain ⟨s', hs', htext⟩ := ih htexts' hcursor htail
      rw [List.map_cons, Edit.relocate, spliceFrom_removal_eq hrest' hstart' hstop', hs']
      refine ⟨_, rfl, ?_⟩
      simp only [htext, hkept, endLines_append, List.append_assoc, List.nil_append]

end

def Cursor.extend (c : Cursor) (tail : List Char) : Cursor :=
  ⟨c.offset, c.before, c.rest ++ tail⟩

def Cursor.EndsLine (c : Cursor) : Prop :=
  c.rest.getLast?.or c.before = some '\n'

def Cursor.stop (c : Cursor) : Nat :=
  c.offset + byteLength c.rest

theorem Cursor.EndsLine.getLast? {c : Cursor} (h : c.EndsLine) (hne : c.rest ≠ []) :
    c.rest.getLast? = some '\n' := by
  unfold EndsLine at h
  rw [List.getLast?_eq_some_getLast hne] at h ⊢
  exact h

theorem Cursor.behind_extend (c : Cursor) (passed rest tail : List Char) :
    (c.extend tail).behind passed (rest ++ tail) = (c.behind passed rest).extend tail :=
  rfl

theorem Cursor.stop_behind {c : Cursor} {passed rest : List Char} (h : c.rest = passed ++ rest) :
    (c.behind passed rest).stop = c.stop := by
  simp only [stop, behind, h, byteLength_append, Nat.add_assoc]

theorem Cursor.EndsLine.behind {c : Cursor} (hc : c.EndsLine) {passed rest : List Char}
    (h : c.rest = passed ++ rest) : (c.behind passed rest).EndsLine := by
  unfold EndsLine at hc ⊢
  rw [h, List.getLast?_append] at hc
  simp only [Cursor.behind]
  rw [← Option.or_assoc]
  exact hc

theorem widen_extend (start : Cursor) (gap : List Char) (span : Span) {stop : Cursor}
    (hstop : stop.EndsLine) (hne : stop.rest ≠ []) (tail : List Char) :
    let w := widen start gap.reverse span stop
    widen (start.extend tail) gap.reverse span (stop.extend tail)
        = ⟨w.kept, w.span, w.cursor.extend tail⟩
      ∧ w.cursor.EndsLine ∧ w.cursor.stop = stop.stop := by
  obtain ⟨kept, indent, rfl, hkept, hindent⟩ := exists_indent gap
  obtain ⟨blank, rest, hrest, hblank, hhead⟩ := exists_blank stop.rest
  obtain ⟨d, rest, rfl⟩ : ∃ d more, rest = d :: more := by
    cases rest with
    | cons d rest => exact ⟨d, rest, rfl⟩
    | nil =>
      -- The line break at the end is not taken as white space.
      have hlast := hstop.getLast? hne
      rw [hrest, List.append_nil] at hlast
      exact absurd (List.mem_of_getLast? hlast) (not_mem_of_isTrailing hblank)
  have hextend : (stop.extend tail).rest = blank ++ (d :: (rest ++ tail)) := by
    rw [Cursor.extend, hrest, List.append_assoc]
    rfl
  by_cases hends : (kept.getLast?.or start.before).all (· == '\n') = true ∧ d = '\n'
  . obtain ⟨hline, rfl⟩ := hends
    have hrest' : stop.rest = (blank ++ ['\n']) ++ rest := by
      rw [hrest, List.append_assoc]
      rfl
    have hnewline : ['\n'] = [] ∧ rest = [] ∨ ['\n'] = ['\n'] := .inr rfl
    have hnewline' : ['\n'] = [] ∧ rest ++ tail = [] ∨ ['\n'] = ['\n'] := .inr rfl
    rw [widen_line start span hkept hindent hline hrest hblank hnewline,
      widen_line (start.extend tail) span hkept hindent hline hextend hblank hnewline']
    exact ⟨rfl, hstop.behind hrest', Cursor.stop_behind hrest'⟩
  . have hends' : ¬ ((kept.getLast?.or start.before).all (· == '\n') = true
        ∧ (some d).all (· == '\n') = true) := by
      simpa using hends
    rw [widen_within start span hkept hindent hrest hblank hhead hends',
      widen_within (start.extend tail) span hkept hindent hextend hblank hhead hends']
    exact ⟨rfl, hstop, rfl⟩

def Splice.behind (kept : List Char) (taken : List Span) (s : Splice) : Splice :=
  ⟨kept ++ s.text, taken ++ s.taken⟩

theorem map_behind (kept kept' : List Char) (taken taken' : List Span)
    (x : Except EditError Splice) :
    (x.map (Splice.behind kept' taken')).map (Splice.behind kept taken)
      = x.map (Splice.behind (kept ++ kept') (taken ++ taken')) := by
  cases x with
  | error e => rfl
  | ok s => simp [Except.map, Splice.behind]

/--
Edits in front of the end of a line are made alike in front of more text, and what comes behind
them does not depend on them.
-/
theorem spliceFrom_extend {c : Cursor} {es : List Edit} {s : Splice} (hc : c.EndsLine)
    (hes : ∀ e ∈ es, e.span.stop < c.stop) (hs : spliceFrom c es = .ok s) (tail : List Char) :
    ∃ (kept : List Char) (taken : List Span) (c' : Cursor), s.text = kept ++ c'.rest
      ∧ c'.EndsLine ∧ c'.stop = c.stop ∧ ∀ more, spliceFrom (c.extend tail) (es ++ more)
        = (spliceFrom (c'.extend tail) more).map (Splice.behind kept taken) := by
  induction es generalizing c s with
  | nil =>
    cases hs
    refine ⟨[], [], c, rfl, hc, rfl, fun more => ?_⟩
    rw [List.nil_append]
    cases spliceFrom (c.extend tail) more <;> rfl
  | cons e es ih =>
    obtain ⟨gap, cut, rest, hrest, hstart, hstop⟩ := exists_place_of_spliceFrom hs
    -- At least the last line break is left behind the edit.
    have hne : rest ≠ [] := by
      rintro rfl
      have := hes e (.head _)
      simp only [Cursor.stop, hrest, byteLength_append, byteLength_nil] at this
      omega
    have hextend : (c.extend tail).rest = gap ++ (cut ++ (rest ++ tail)) := by
      rw [Cursor.extend, hrest]
      simp
    have hends := (hc.behind hrest).behind rfl
    have hstop' : ((c.behind gap (cut ++ rest)).behind cut rest).stop = c.stop := by
      rw [Cursor.stop_behind rfl, Cursor.stop_behind hrest]
    have hes' := fun x hx => hes x (.tail _ hx)
    cases e with
    | replacement span text =>
      simp only [Edit.span] at hstart hstop
      rw [spliceFrom_replacement hrest hstart hstop] at hs
      obtain ⟨s, htail, rfl⟩ := map_eq_ok hs
      rw [← hstop'] at hes'
      obtain ⟨kept, taken, c', htext, hc', hoffset, hall⟩ := ih hends hes' htail
      refine ⟨gap ++ text ++ kept, [span] ++ taken, c', by simp [htext], hc', hoffset.trans hstop',
        fun more => ?_⟩
      rw [List.cons_append, spliceFrom_replacement hextend hstart hstop, ← List.append_assoc cut]
      exact (congrArg (Except.map _) (hall more)).trans (map_behind (gap ++ text) _ [span] _ _)
    | removal span =>
      simp only [Edit.span] at hstart hstop
      rw [spliceFrom_removal_eq hrest hstart hstop] at hs
      obtain ⟨s, htail, rfl⟩ := map_eq_ok hs
      obtain ⟨hwiden, hends', hoffset⟩ := widen_extend c gap span hends hne tail
      have hsplice := spliceFrom_removal_eq hextend hstart hstop
      rw [← List.append_assoc cut, Cursor.behind_extend, Cursor.behind_extend, hwiden] at hsplice
      generalize widen c gap.reverse span _ = w at *
      rw [← hstop', ← hoffset] at hes'
      obtain ⟨kept, taken, c', htext, hc', hoffset', hall⟩ := ih hends' hes' htail
      refine ⟨w.kept.reverse ++ kept, [w.span] ++ taken, c', by rw [htext, List.append_assoc],
        hc', hoffset'.trans (hoffset.trans hstop'), fun more => ?_⟩
      rw [List.cons_append, hsplice]
      exact (congrArg (Except.map _) (hall more)).trans (map_behind w.kept.reverse _ [w.span] _ _)

end Delegation
