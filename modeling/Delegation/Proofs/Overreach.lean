import Delegation.Proofs.TakenRanges

/-!
This module contains when edits get in each other's way although they are settled: a removal that
takes whole lines does not look at what begins behind its span. An edit of the white space or of the
line break there is misplaced, and only such an edit is.
-/

namespace Delegation

/--
Whether the edit `e` of `kept` takes the lines `lines`: it is a removal, it is alone on them, and no
edit in front of it ends on them.
-/
structure Edit.TakesLines (source : List Char) (kept : List Edit) (e : Edit) (lines : Span) :
    Prop where
  eq_removal : e = .removal e.span
  isAloneOn : e.span.IsAloneOn isIndent source lines
  stop_le : ∀ x ∈ kept, x.span.start < e.span.start → x.span.stop ≤ lines.start

/--
Whether a text goes on at `stop` behind the edit `e`, if all in front of `floor` is settled.
-/
inductive Edit.EndsAt (source : List Char) (floor : Nat) (e : Edit) : Nat → Prop where
  | lines {lines : Span} (hremoval : e = .removal e.span)
    (halone : e.span.IsAloneOn isIndent source lines) (hfloor : floor ≤ lines.start) :
    EndsAt source floor e lines.stop
  | span (h : ∀ lines, e = .removal e.span → e.span.IsAloneOn isIndent source lines →
    lines.start < floor) : EndsAt source floor e e.span.stop

/--
Whether nothing in front of `rest` is the indentation of a line that an edit of `edits` did not end
on.
-/
def IsSettledBy (edits : List Edit) (back rest : List Char) : Prop :=
  rest = [] ∨ IsLineStart back ∨ ∃ e ∈ edits, byteLength back = e.span.stop

section

variable {source back rest gap cut : List Char}

theorem endsAt_widenBetween (hsource : source = back ++ (gap ++ (cut ++ rest))) :
    ∃ kept span back' more, source = back' ++ more
      ∧ widenBetween back gap cut rest = ⟨kept, span, .between back' more⟩
      ∧ IsSettledBy [.removal (removalSpan back gap cut)] back' more
      ∧ (Edit.removal (removalSpan back gap cut)).EndsAt source (byteLength back)
        (byteLength back') := by
  subst hsource
  by_cases hlines : ∃ lines : Span, byteLength back ≤ lines.start
      ∧ (removalSpan back gap cut).IsAloneOn isIndent (back ++ (gap ++ (cut ++ rest))) lines
  . obtain ⟨lines, hle, halone⟩ := hlines
    obtain ⟨kept, back', more, hsource, hwiden, hstop, hsettled⟩ :=
      widenBetween_of_isAloneOn hle halone
    refine ⟨kept, lines, back', more, hsource, hwiden, hsettled.imp_right fun hlast => .inl ?_, ?_⟩
    . intro c hc
      rw [hlast] at hc
      exact (Option.some.inj hc).symm
    . rw [← hstop]
      exact .lines rfl halone hle
  . obtain ⟨kept, indent, rfl, hkept, hindent⟩ := exists_indent gap
    obtain ⟨blank, ahead, rfl, hblank, hahead⟩ := exists_blank rest
    have hwhole : ¬ (IsLineStart (back ++ kept) ∧ ahead.head?.all (· == '\n') = true) := by
      rintro ⟨hline, hend⟩
      apply hlines
      obtain ⟨newline, more, rfl, hnewline⟩ := exists_newline hend
      refine ⟨⟨byteLength (back ++ kept), _⟩, by simp, back ++ kept, indent, cut, blank, newline,
        more, by simp, ?_, rfl, hline, hindent, hblank, hnewline⟩
      simp [removalSpan]
    have hstop : byteLength (back ++ (kept ++ (indent ++ cut)))
        = (removalSpan back (kept ++ indent) cut).stop := by
      simp [removalSpan]
    refine ⟨_, _, back ++ (kept ++ (indent ++ cut)), blank ++ ahead, by simp,
      widenBetween_within hkept hindent hblank hahead hwhole, .inr (.inr ⟨_, .head _, hstop⟩), ?_⟩
    rw [hstop]
    apply Edit.EndsAt.span
    intro lines _ halone
    by_contra hle
    exact hlines ⟨lines, Nat.le_of_not_lt hle, halone⟩

theorem spliceFrom_of_lt {e : Edit} (h : e.span.start < byteLength back) (es : List Edit) :
    spliceFrom (.between back rest) (e :: es) = .error (.misplaced e.span) := by
  have hplace : spliceFrom.place (.between back rest) e.span = none := by
    have hoffset : e.span.start < (Cursor.between back rest).offset := h
    rw [spliceFrom.place, Cursor.moveTo?, if_pos hoffset]
    rfl
  rw [spliceFrom, hplace]

theorem exists_spliceFrom_of_le {e : Edit} (hsource : source = back ++ rest)
    (he : e.span.IsSliceOf source) (hstart : byteLength back ≤ e.span.start) :
    ∃ back' more, source = back' ++ more ∧ IsSettledBy [e] back' more
      ∧ e.EndsAt source (byteLength back) (byteLength back')
      ∧ ∀ es, (∃ t, spliceFrom (.between back rest) (e :: es) = .ok t)
        ↔ ∃ t, spliceFrom (.between back' more) es = .ok t := by
  obtain ⟨hle, _, hslice⟩ := he
  obtain ⟨cut, hcut⟩ := Option.isSome_iff_exists.mp hslice
  obtain ⟨front, ahead, hparts, hfront, hlength⟩ := Span.slice?_eq_some hcut
  rw [hfront] at hstart
  obtain ⟨gap, rfl, rfl⟩ := exists_append_of_byteLength_le (hsource.symm.trans hparts) hstart
  have hstop : e.span.stop = e.span.start + byteLength cut := by omega
  have hplace : e.span.start
      = (Cursor.between back (gap ++ (cut ++ ahead))).offset + byteLength gap := by
    simp [hfront, Cursor.between]
  have hcursor : ((Cursor.between back (gap ++ (cut ++ ahead))).behind gap (cut ++ ahead)).behind
      cut ahead = .between (back ++ (gap ++ cut)) ahead := by
    rw [Cursor.behind_between, Cursor.behind_between, List.append_assoc]
  have hmap : ∀ (x : Except EditError Splice) (f : Splice → Splice),
      (∃ t, x.map f = .ok t) ↔ ∃ t, x = .ok t := by
    rintro (_ | _) f
    . simp [Except.map]
    . simp [Except.map]
  cases e with
  | replacement span text =>
    simp only [Edit.span] at hplace hstop hfront
    have hend : byteLength (back ++ (gap ++ cut)) = span.stop := by
      rw [hstop, hfront]
      simp [Nat.add_assoc]
    refine ⟨back ++ (gap ++ cut), ahead, by simp [hsource], .inr (.inr ⟨_, .head _, hend⟩), ?_, ?_⟩
    . rw [hend]
      exact .span (by simp [Edit.span])
    . intro es
      rw [spliceFrom_replacement rfl hplace hstop, hcursor, hmap]
  | removal span =>
    simp only [Edit.span] at hplace hstop hfront
    have hremoval : span = removalSpan back gap cut := by
      cases span
      simp only [removalSpan, Span.mk.injEq, byteLength_append] at *
      omega
    obtain ⟨kept, taken, back', more, hsource', hwiden, hsettled, hends⟩ :=
      endsAt_widenBetween hsource
    rw [← hremoval] at hsettled hends
    refine ⟨back', more, hsource', hsettled, hends, ?_⟩
    intro es
    have hsplice := spliceFrom_removal_eq rfl hplace hstop es
    rw [hcursor, hremoval] at hsplice
    rw [widenBetween] at hwiden
    rw [hremoval, hsplice, hmap, hwiden]

end

namespace Span.IsAloneOn

variable {source : List Char} {span lines : Span}

theorem stop_le (h : span.IsAloneOn isIndent source lines) : span.stop ≤ lines.stop := by
  obtain ⟨front, indent, cut, blank, newline, ahead, _, rfl, rfl, _⟩ := h
  simp only [byteLength_append]
  omega

theorem unique {lines' : Span} (h : span.IsAloneOn isIndent source lines)
    (h' : span.IsAloneOn isIndent source lines') : lines = lines' := by
  obtain ⟨front, indent, cut, blank, newline, ahead, hsource, hspan, _⟩ := id h
  have hsource : source = [] ++ ((front ++ indent) ++ (cut ++ (blank ++ (newline ++ ahead)))) := by
    rw [hsource, List.nil_append, List.append_assoc]
  have hspan : span = removalSpan [] (front ++ indent) cut := by
    rw [hspan, removalSpan, List.nil_append, List.nil_append, List.append_assoc]
  rw [hspan, hsource] at h h'
  obtain ⟨_, _, _, _, hwiden, _⟩ := widenBetween_of_isAloneOn (Nat.zero_le _) h
  obtain ⟨_, _, _, _, hwiden', _⟩ := widenBetween_of_isAloneOn (Nat.zero_le _) h'
  exact congrArg Widening.span (hwiden.symm.trans hwiden')

theorem not_isLineStart (h : span.IsAloneOn isIndent source lines) {back rest : List Char}
    (hsource : source = back ++ rest) (hstart : lines.start < byteLength back)
    (hle : byteLength back ≤ span.start) : ¬ IsLineStart back := by
  obtain ⟨front, indent, cut, blank, newline, ahead, hparts, rfl, rfl, _, hindent, _⟩ := h
  rw [hparts] at hsource
  obtain ⟨between, rfl, hbetween⟩ := exists_append_of_byteLength_le hsource (Nat.le_of_lt hstart)
  have hne : between ≠ [] := by
    rintro rfl
    simp at hstart
  have hwithin : indent ++ (cut ++ (blank ++ (newline ++ ahead))) = between ++ rest := hbetween
  obtain ⟨more, rfl, _⟩ := exists_append_of_byteLength_le hwithin.symm (by
    simp only [byteLength_append] at hle ⊢
    omega)
  intro hline
  obtain ⟨between, c, rfl⟩ := List.eq_nil_or_concat between |>.resolve_left hne
  have hc := hline c (by simp [List.getLast?_append])
  have := hindent c (by simp)
  rw [hc] at this
  cases this

end Span.IsAloneOn

namespace Edit.EndsAt

variable {source : List Char} {floor stop : Nat} {e : Edit}

theorem le_stop (h : e.EndsAt source floor stop) : e.span.stop ≤ stop := by
  cases h with
  | lines _ halone => exact halone.stop_le
  | span => exact Nat.le_refl _

end Edit.EndsAt

theorem IsSettledBy.mono {edits edits' : List Edit} {back rest : List Char}
    (h : IsSettledBy edits back rest) (hsubset : ∀ e ∈ edits, e ∈ edits') :
    IsSettledBy edits' back rest :=
  h.imp_right (Or.imp_right fun ⟨e, he, hstop⟩ => ⟨e, hsubset e he, hstop⟩)

section

variable {source : List Char} {kept : List Edit}

theorem Edit.TakesLines.eq_stop {e x : Edit} {lines : Span} {back rest : List Char} {stop : Nat}
    (h : e.TakesLines source kept lines) (hends : e.EndsAt source (byteLength back) stop)
    (hsource : source = back ++ rest) (hle : byteLength back ≤ e.span.start)
    {before : List Edit} (hbefore : ∀ x ∈ before, x ∈ kept ∧ x.span.start < e.span.start)
    (hsettled : IsSettledBy before back rest) (hx : x.span.IsSliceOf source)
    (hstart : e.span.start < x.span.start) : stop = lines.stop := by
  cases hends with
  | lines _ halone => rw [halone.unique h.isAloneOn]
  | span hfloor =>
    exfalso
    have hlt := hfloor lines h.eq_removal h.isAloneOn
    rcases hsettled with rfl | hline | ⟨y, hy, hstop⟩
    . -- Nothing begins behind the end of the text.
      obtain ⟨hxstop, hxend, _⟩ := hx
      rw [hsource, List.append_nil] at hxend
      omega
    . exact h.isAloneOn.not_isLineStart hsource hlt hle hline
    . have := h.stop_le y (hbefore y hy).1 (hbefore y hy).2
      omega

/--
Edits in the order of the text can be made if none of them begins in front of where the text goes
on, or on lines that one in front of it takes.
-/
theorem spliceFrom_isOk_iff (hslice : ∀ e ∈ kept, e.span.IsSliceOf source)
    (hpairwise : kept.Pairwise Edit.IsBehind) {before es : List Edit} (hkept : kept = before ++ es)
    {back rest : List Char} (hsource : source = back ++ rest)
    (hsettled : IsSettledBy before back rest)
    (hbefore : ∀ x ∈ before, x.span.stop ≤ byteLength back) :
    (∃ t, spliceFrom (.between back rest) es = .ok t)
      ↔ (∀ e ∈ es, byteLength back ≤ e.span.start)
        ∧ ∀ a ∈ es, ∀ b ∈ es, ∀ lines, a.TakesLines source kept lines →
          a.span.start < b.span.start → lines.stop ≤ b.span.start := by
  induction es generalizing before back rest with
  | nil => simp [spliceFrom]
  | cons e es ih =>
    have hmem : ∀ x ∈ e :: es, x ∈ kept := fun x hx => hkept ▸ List.mem_append_right before hx
    have hparts := List.pairwise_append.mp (hkept ▸ hpairwise)
    have hbehind : ∀ x ∈ es, e.IsBehind x := (List.pairwise_cons.mp hparts.2.1).1
    have hfront : ∀ x ∈ before, x ∈ kept ∧ x.span.start < e.span.start :=
      fun x hx => ⟨hkept ▸ List.mem_append_left _ hx, (hparts.2.2 x hx e (.head _)).1⟩
    have he := hslice e (hmem e (.head _))
    by_cases hle : byteLength back ≤ e.span.start
    . obtain ⟨back', more, hsource', hsettled', hends, hiff⟩ :=
        exists_spliceFrom_of_le hsource he hle
      have hstop := hends.le_stop
      rw [hiff, @ih (before ++ [e]) (by simp [hkept]) _ _ hsource' (hsettled'.mono (by simp)) _]
      . constructor
        . rintro ⟨hstarts, hlines⟩
          refine ⟨?_, ?_⟩
          . intro x hx
            rcases List.mem_cons.mp hx with rfl | hx
            . exact hle
            . exact Nat.le_of_lt (Nat.lt_of_le_of_lt hle (hbehind x hx).1)
          . intro a ha b hb lines htakes hlt
            rcases List.mem_cons.mp ha with rfl | ha'
            . rcases List.mem_cons.mp hb with rfl | hb'
              . exact absurd hlt (Nat.lt_irrefl _)
              . rw [← htakes.eq_stop hends hsource hle hfront hsettled (hslice b (hmem b hb)) hlt]
                exact hstarts b hb'
            . rcases List.mem_cons.mp hb with rfl | hb'
              . exact absurd hlt (Nat.lt_asymm (hbehind a ha').1)
              . exact hlines a ha' b hb' lines htakes hlt
        . rintro ⟨_, hlines⟩
          refine ⟨?_, fun a ha b hb => hlines a (.tail _ ha) b (.tail _ hb)⟩
          intro x hx
          generalize byteLength back' = stop at hends
          cases hends with
          | lines hremoval halone hfloor =>
            apply hlines e (.head _) x (.tail _ hx) _ _ (hbehind x hx).1
            refine ⟨hremoval, halone, ?_⟩
            intro y hy hlt
            rw [hkept] at hy
            rcases List.mem_append.mp hy with hy | hy
            . exact Nat.le_trans (hbefore y hy) hfloor
            . rcases List.mem_cons.mp hy with rfl | hy
              . exact absurd hlt (Nat.lt_irrefl _)
              . exact absurd hlt (Nat.lt_asymm (hbehind y hy).1)
          | span => exact (hbehind x hx).2.1
      . intro x hx
        rcases List.mem_append.mp hx with hx | hx
        . have := hbefore x hx
          have := he.1
          omega
        . rw [List.mem_singleton.mp hx]
          exact hstop
    . rw [spliceFrom_of_lt (Nat.lt_of_not_le hle)]
      constructor
      . rintro ⟨t, ht⟩
        cases ht
      . rintro ⟨hstarts, _⟩
        exact absurd (hstarts e (.head _)) hle

end

/-!
Settling never finds an edit misplaced, and splicing finds nothing else wrong with edits.
-/

theorem bind_eq_error {ε α β : Type} {x : Except ε α} {f : α → β} {error : ε}
    (h : (do return f (← x)) = Except.error error) : x = .error error := by
  cases x with
  | error e =>
    cases h
    rfl
  | ok a => cases h

theorem settleAfter_ne_misplaced (span : Span) {last : Edit} {es : List Edit} :
    settleAfter last es ≠ .error (.misplaced span) := by
  induction es generalizing last with
  | nil => simp [settleAfter]
  | cons e es ih =>
    rw [settleAfter]
    split
    . split
      . exact ih
      . simp
    . split
      . exact fun h => ih (bind_eq_error h)
      . split
        . simp
        . exact fun h => ih (bind_eq_error h)

theorem settle_ne_misplaced (edits : List Edit) (span : Span) :
    settle edits ≠ .error (.misplaced span) := by
  unfold settle
  split
  . simp
  . exact settleAfter_ne_misplaced span

theorem spliceFrom_eq_error {start : Cursor} {es : List Edit} {error : EditError}
    (h : spliceFrom start es = .error error) : ∃ span, error = .misplaced span := by
  induction es generalizing start with
  | nil => cases h
  | cons e es ih =>
    rw [spliceFrom] at h
    cases hplace : spliceFrom.place start e.span with
    | none =>
      rw [hplace] at h
      cases h
      exact ⟨_, rfl⟩
    | some place =>
      rw [hplace] at h
      cases e with
      | removal span => exact ih (bind_eq_error h)
      | replacement span text => exact ih (bind_eq_error h)

/--
An edit is misplaced if it begins on lines that a removal in front of it takes, and only then. All
other edits of slices of the text are made or refused as conflicting or overlapping.
-/
theorem applyEdits_misplaced_iff {source : List Char} {edits : List Edit}
    (hspans : ∀ e ∈ edits, e.span.IsSliceOf source) :
    (∃ span, applyEdits source edits = .error (.misplaced span))
      ↔ ∃ s, settle edits = .ok s ∧ ∃ a ∈ s.kept, ∃ b ∈ s.kept, ∃ lines,
        a.TakesLines source s.kept lines ∧ a.span.start < b.span.start
          ∧ b.span.start < lines.stop := by
  unfold applyEdits
  cases hsettle : settle edits with
  | error error =>
    constructor
    . rintro ⟨span, h⟩
      refine absurd ?_ (settle_ne_misplaced edits span)
      simpa [hsettle, bind, Except.bind] using h
    . rintro ⟨s, h, _⟩
      cases h
  | ok s =>
    have hkept := isSettlementOf_of_settle (fun e he => (hspans e he).1) hsettle
    have hiff := spliceFrom_isOk_iff (fun e he => hspans e (hkept.subset e he)) hkept.pairwise
      (List.nil_append s.kept).symm (List.nil_append source).symm
      (.inr (.inl (by simp [IsLineStart]))) (by simp)
    have hruns : (∃ span, spliceFrom (.ofText source) s.kept = .error (.misplaced span))
        ↔ ¬ ∃ t, spliceFrom (.between [] source) s.kept = .ok t := by
      have hstart : Cursor.ofText source = .between [] source := rfl
      rw [hstart]
      cases hrun : spliceFrom (.between [] source) s.kept with
      | ok t => simp
      | error error =>
        obtain ⟨span, rfl⟩ := spliceFrom_eq_error hrun
        simp
    have hbind : ((Except.ok s : Except EditError Settlement) >>= fun s =>
        spliceFrom (.ofText source) s.kept) = spliceFrom (.ofText source) s.kept := rfl
    rw [hbind, hruns, hiff]
    simp

/--
The space behind a removal at the end of its line is taken, and the edit of a part of it misplaced.
-/
theorem applyEdits_misplaced_iff_trailing :
    let source := "x\n a \r\nb".toList
    let edits : List Edit := [.replacement ⟨5, 6⟩ ['!'], .removal ⟨3, 4⟩]
    let kept : List Edit := [.removal ⟨3, 4⟩, .replacement ⟨5, 6⟩ ['!']]
    (∀ e ∈ edits, e.span.IsSliceOf source) ∧ settle edits = .ok ⟨kept, []⟩
      ∧ (Edit.removal ⟨3, 4⟩).TakesLines source kept ⟨2, 7⟩
      ∧ ∃ span, applyEdits source edits = .error (.misplaced span) := by
  intro source edits kept
  have hspans : ∀ e ∈ edits, e.span.IsSliceOf source := by decide
  have hsort : edits.mergeSort Edit.precedes = kept := by
    simp [edits, kept, List.mergeSort, List.MergeSort.Internal.splitInTwo, Edit.precedes, Edit.span]
  have hsettle : settle edits = .ok ⟨kept, []⟩ := by
    rw [settle, hsort]
    rfl
  have htakes : (Edit.removal ⟨3, 4⟩).TakesLines source kept ⟨2, 7⟩ := by
    refine ⟨rfl, ?_, by decide⟩
    exact ⟨['x', '\n'], [' '], ['a'], [' ', '\r'], ['\n'], ['b'], rfl, rfl, rfl,
      by simp [IsLineStart], by simp [isIndent], by simp [isTrailing, isIndent], .inr rfl⟩
  refine ⟨hspans, hsettle, htakes, (applyEdits_misplaced_iff hspans).mpr ?_⟩
  exact ⟨_, hsettle, _, .head _, _, .tail _ (.head _), _, htakes, by decide, by decide⟩

/--
A line and the line break behind it cannot be removed by two edits, although these do not overlap.
-/
theorem exists_edit_misplaced :
    let source := "a\nb".toList
    let edits : List Edit := [.removal ⟨0, 1⟩, .removal ⟨1, 2⟩]
    (∀ e ∈ edits, e.span.IsSliceOf source) ∧ settle edits = .ok ⟨edits, []⟩
      ∧ applyEdits source edits = .error (.misplaced ⟨1, 2⟩) := by
  intro source edits
  have hsort : edits.mergeSort Edit.precedes = edits := by
    simp [edits, List.mergeSort, List.MergeSort.Internal.splitInTwo, Edit.precedes, Edit.span]
  have hsettle : settle edits = .ok ⟨edits, []⟩ := by
    rw [settle, hsort]
    rfl
  refine ⟨by decide, hsettle, ?_⟩
  rw [applyEdits, hsettle]
  rfl

end Delegation
