import Delegation.Proofs.Overreach

/-!
This module contains what becomes of a line if all of it but white space is removed. One removal
with nothing but indentation in front of it takes the line. Where there are several removals, each
of them takes its own part, and a blank line is left.
-/

namespace Delegation

def IsCharAt (source : List Char) (offset : Nat) (c : Char) : Prop :=
  ∃ front back, source = front ++ c :: back ∧ byteLength front = offset

theorem IsCharAt.unique {source : List Char} {offset : Nat} {c d : Char}
    (h : IsCharAt source offset c) (h' : IsCharAt source offset d) : c = d := by
  obtain ⟨front, back, hsource, hfront⟩ := h
  obtain ⟨front', back', hsource', hfront'⟩ := h'
  have hback := (append_inj_of_byteLength_eq (hsource.symm.trans hsource')
    (hfront.trans hfront'.symm)).2
  exact (List.cons.inj hback).1

theorem IsCharAt.mem {source cut : List Char} {offset : Nat} {c : Char} {span : Span}
    (h : IsCharAt source offset c) (hslice : span.slice? source = some cut)
    (hstart : span.start ≤ offset) (hstop : offset < span.stop) : c ∈ cut := by
  obtain ⟨front', back, hsource', rfl⟩ := h
  obtain ⟨front, ahead, hsource, hfront, hlength⟩ := Span.slice?_eq_some hslice
  obtain ⟨between, rfl, hbetween⟩ :=
    exists_append_of_byteLength_le (hsource.symm.trans hsource') (hfront ▸ hstart)
  rw [byteLength_append] at hstop
  rcases List.append_eq_append_iff.mp hbetween with ⟨more, rfl, _⟩ | ⟨more, rfl, hmore⟩
  . rw [byteLength_append] at hstop
    omega
  . cases more with
    | nil =>
      rw [List.append_nil] at hlength
      omega
    | cons d more =>
      rw [(List.cons.inj hmore).1]
      simp

theorem Span.IsSolidIn.exists_char {span : Span} {source : List Char} (h : span.IsSolidIn source) :
    ∃ c, IsCharAt source span.start c ∧ isMargin c = false := by
  obtain ⟨front, cut, ahead, hsource, rfl, hne, hhead, _⟩ := h.exists_parts
  obtain ⟨c, cut, rfl⟩ := List.exists_cons_of_ne_nil hne
  exact ⟨c, ⟨front, cut ++ ahead, hsource, rfl⟩, hhead c rfl⟩

theorem IsRemovalRange.isAloneOn {source : List Char} {span range : Span}
    (h : IsRemovalRange source span range) (hspan : span.start ≤ span.stop)
    (hlt : span.stop < range.stop) : span.IsAloneOn isIndent source range := by
  obtain ⟨hle, _, indent, blank, newline, hindent, hblank, hisIndent, hisBlank, hisNewline⟩ :=
    h.isWidenedTo
  obtain ⟨front, block, back, hsource, rfl, hline, hend⟩ := h.isLinesOf hlt
  obtain ⟨front', ahead, hsource', hfront, hlength⟩ := Span.slice?_eq_some hindent
  obtain ⟨back', ahead', hsource'', hback, hlength'⟩ := Span.slice?_eq_some hblank
  dsimp only at hle hlt hfront hlength hback hlength'
  obtain ⟨rfl, hblock⟩ := append_inj_of_byteLength_eq (hsource.symm.trans hsource') hfront
  have hparts : (front ++ indent) ++ ahead = back' ++ (blank ++ newline ++ ahead') := by
    rw [← hsource'', hsource', List.append_assoc]
  obtain ⟨cut, rfl, rfl⟩ := exists_append_of_byteLength_le hparts (by
    rw [byteLength_append]
    omega)
  obtain ⟨rfl, rfl⟩ : block = indent ++ (cut ++ (blank ++ newline)) ∧ back = ahead' := by
    apply append_inj_of_byteLength_eq (by simpa using hblock)
    simp only [byteLength_append] at *
    omega
  refine ⟨front, indent, cut, blank, newline, back, by simpa using hsource', ?_, rfl, hline,
    hisIndent, hisBlank, ?_⟩
  . cases span
    simp only [Span.mk.injEq, byteLength_append] at *
    omega
  . rcases hisNewline with rfl | hnewline
    . refine .inl ⟨rfl, hend.resolve_right ?_⟩
      intro hlast
      have hne : blank ≠ [] := by
        rintro rfl
        simp only [byteLength_append, List.append_nil] at hlt hback
        omega
      rw [List.append_nil,
        List.getLast?_append_of_ne_nil _ (List.append_ne_nil_of_right_ne_nil _ hne),
        List.getLast?_append_of_ne_nil _ hne] at hlast
      exact absurd (hisBlank _ (List.mem_of_getLast? hlast)) (by decide)
    . exact .inr hnewline

structure SourceLine (source : List Char) where
  front : List Char
  text : List Char
  newline : List Char
  back : List Char
  source_eq : source = front ++ (text ++ (newline ++ back))
  isLineStart : IsLineStart front
  newline_notMem : '\n' ∉ text
  newline_eq : newline = [] ∧ back = [] ∨ newline = ['\n']

theorem takeWhile_line {text newline back : List Char} (htext : '\n' ∉ text)
    (hnewline : newline = [] ∧ back = [] ∨ newline = ['\n']) :
    (text ++ (newline ++ back)).takeWhile (· != '\n') = text := by
  have hall : ∀ c ∈ text, (c != '\n') = true := by
    intro c hc
    rw [bne_iff_ne]
    rintro rfl
    exact htext hc
  rw [List.takeWhile_append_of_pos hall]
  rcases hnewline with ⟨rfl, rfl⟩ | rfl
  . simp
  . simp

theorem line_inj {text newline back text' newline' back' : List Char}
    (h : text ++ (newline ++ back) = text' ++ (newline' ++ back')) (htext : '\n' ∉ text)
    (htext' : '\n' ∉ text') (hnewline : newline = [] ∧ back = [] ∨ newline = ['\n'])
    (hnewline' : newline' = [] ∧ back' = [] ∨ newline' = ['\n']) :
    text = text' ∧ newline = newline' := by
  have heq : text = text' := by
    rw [← takeWhile_line htext hnewline, h, takeWhile_line htext' hnewline']
  subst heq
  have hback := List.append_cancel_left h
  refine ⟨rfl, ?_⟩
  rcases hnewline with ⟨rfl, rfl⟩ | rfl
  . exact (List.append_eq_nil_iff.mp hback.symm).1.symm
  . rcases hnewline' with ⟨rfl, rfl⟩ | rfl
    . cases hback
    . rfl

namespace SourceLine

variable {source : List Char} (line : SourceLine source)

def start : Nat :=
  byteLength line.front

def stop : Nat :=
  byteLength (line.front ++ line.text)

def span : Span :=
  ⟨line.start, byteLength (line.front ++ (line.text ++ line.newline))⟩

/--
Whether removals of `edits` cover all of the line but white space, and this by spans on the line.
-/
structure IsClearedBy (edits : List Edit) : Prop where
  exists_char : ∃ offset c, IsCharAt source offset c ∧ isMargin c = false ∧ line.start ≤ offset
    ∧ offset < line.stop
  exists_removal : ∀ offset c, IsCharAt source offset c → isMargin c = false →
    line.start ≤ offset → offset < line.stop →
    ∃ span, Edit.removal span ∈ edits ∧ line.start ≤ span.start ∧ span.stop ≤ line.stop
      ∧ span.start ≤ offset ∧ offset < span.stop

/--
Whether no range of `taken` has the line break of the line in it.
-/
def IsEndedBeside (taken : List Span) : Prop :=
  line.newline = ['\n'] → ∀ range ∈ taken, range.stop ≤ line.stop ∨ line.stop < range.start

variable {line}

theorem isCharAt_stop (h : line.newline = ['\n']) : IsCharAt source line.stop '\n' := by
  refine ⟨line.front ++ line.text, line.back, ?_, rfl⟩
  conv_lhs => rw [line.source_eq, h]
  simp

theorem eq_span {span lines : Span} (h : span.IsAloneOn isIndent source lines)
    (hstart : line.start ≤ span.start) (hlt : span.start < line.stop)
    (hstop : span.stop ≤ line.stop) : lines = line.span := by
  obtain ⟨front, indent, cut, blank, newline, back, hsource, rfl, rfl, hline, hindent, hblank,
    hnewline⟩ := id h
  have hle : line.start ≤ byteLength front := by
    by_contra hlt
    exact h.not_isLineStart line.source_eq (Nat.lt_of_not_le hlt) hstart line.isLineStart
  have hparts := line.source_eq.symm.trans hsource
  obtain ⟨between, rfl, htext⟩ := exists_append_of_byteLength_le hparts hle
  simp only [stop, byteLength_append] at hstop hlt
  have htext : line.text ++ (line.newline ++ line.back)
      = (between ++ (indent ++ cut)) ++ (blank ++ (newline ++ back)) := by
    simp [htext]
  obtain ⟨more, hmore, _⟩ := exists_append_of_byteLength_le htext.symm (by
    simp only [byteLength_append]
    omega)
  have hnil : between = [] := by
    cases List.eq_nil_or_concat between with
    | inl hnil => exact hnil
    | inr hconcat =>
      obtain ⟨between, c, rfl⟩ := hconcat
      have hc := hline c (by simp [List.getLast?_append])
      exact absurd (by simp [hmore, hc]) line.newline_notMem
  subst hnil
  have hbreak : '\n' ∉ indent ++ (cut ++ blank) := by
    intro hmem
    rcases List.mem_append.mp hmem with hmem | hmem
    . exact absurd (hindent _ hmem) (by decide)
    rcases List.mem_append.mp hmem with hmem | hmem
    . exact line.newline_notMem (by simp [hmore, hmem])
    . exact absurd (hblank _ hmem) (by decide)
  obtain ⟨heq, hnewline⟩ := line_inj (by simpa using htext) line.newline_notMem hbreak
    line.newline_eq hnewline
  simp [SourceLine.span, start, heq, hnewline]

end SourceLine

theorem eq_of_mem_span {kept : List Edit}
    (hpairwise : kept.Pairwise fun a b => a.span.stop ≤ b.span.start) {a b : Edit} (ha : a ∈ kept)
    (hb : b ∈ kept) {offset : Nat} (hstart : a.span.start ≤ offset) (hstop : offset < a.span.stop)
    (hstart' : b.span.start ≤ offset) (hstop' : offset < b.span.stop) : a = b := by
  have hall : ∀ a ∈ kept, ∀ b ∈ kept,
      a = b ∨ a.span.stop ≤ b.span.start ∨ b.span.stop ≤ a.span.start := by
    have : Std.Symm fun a b : Edit =>
        a = b ∨ a.span.stop ≤ b.span.start ∨ b.span.stop ≤ a.span.start :=
      ⟨fun _ _ h => h.imp Eq.symm Or.symm⟩
    apply List.Pairwise.forall_of_forall
    . exact fun a _ => .inl rfl
    . exact hpairwise.imp fun h => .inr (.inl h)
  rcases hall a ha b hb with heq | h | h
  . exact heq
  . omega
  . omega

section

variable {source : List Char} {line : SourceLine source} {kept : List Edit} {e : Edit}

theorem SourceLine.IsClearedBy.within (h : line.IsClearedBy kept)
    (hpairwise : kept.Pairwise fun a b => a.span.stop ≤ b.span.start) (he : e ∈ kept)
    {offset : Nat} {c : Char} (hc : IsCharAt source offset c) (hmargin : isMargin c = false)
    (hfrom : line.start ≤ offset) (hto : offset < line.stop) (hstart : e.span.start ≤ offset)
    (hstop : offset < e.span.stop) : line.start ≤ e.span.start ∧ e.span.stop ≤ line.stop := by
  obtain ⟨span, hspan, hstart', hstop', hle, hlt⟩ := h.exists_removal offset c hc hmargin hfrom hto
  rw [eq_of_mem_span hpairwise he hspan hstart hstop hle hlt]
  exact ⟨hstart', hstop'⟩

theorem SourceLine.IsClearedBy.stop_le (h : line.IsClearedBy kept)
    (hpairwise : kept.Pairwise fun a b => a.span.stop ≤ b.span.start)
    (hnewline : line.newline = ['\n']) (he : e ∈ kept) (hsolid : e.span.IsSolidIn source)
    (hstart : e.span.start ≤ line.stop) : e.span.stop ≤ line.stop := by
  by_contra hstop
  obtain ⟨offset, c, hc, hmargin, hfrom, hto, hle⟩ : ∃ offset c, IsCharAt source offset c
      ∧ isMargin c = false ∧ line.start ≤ offset ∧ offset < line.stop ∧ e.span.start ≤ offset := by
    by_cases hfront : e.span.start < line.start
    . obtain ⟨offset, c, hc, hmargin, hfrom, hto⟩ := h.exists_char
      exact ⟨offset, c, hc, hmargin, hfrom, hto, by omega⟩
    . obtain ⟨c, hc, hmargin⟩ := hsolid.exists_char
      refine ⟨_, c, hc, hmargin, Nat.le_of_not_lt hfront, ?_, Nat.le_refl _⟩
      rcases Nat.lt_or_eq_of_le hstart with hlt | heq
      . exact hlt
      . rw [heq] at hc
        rw [hc.unique (SourceLine.isCharAt_stop hnewline)] at hmargin
        cases hmargin
  exact hstop (h.within hpairwise he hc hmargin hfrom hto hle (by omega)).2

theorem SourceLine.IsClearedBy.isAloneOn (h : line.IsClearedBy kept)
    (hpairwise : kept.Pairwise fun a b => a.span.stop ≤ b.span.start)
    (hnewline : line.newline = ['\n']) {span range : Span} (hspan : .removal span ∈ kept)
    (hsolid : span.IsSolidIn source) (hrange : IsRemovalRange source span range)
    (hfrom : range.start ≤ line.stop) (hto : line.stop < range.stop) :
    span.IsAloneOn isIndent source line.span := by
  obtain ⟨hle, hge, indent, blank, newline, hindent, hblank, hisIndent, hisBlank, hisNewline⟩ :=
    hrange.isWidenedTo
  have hbreak := SourceLine.isCharAt_stop hnewline
  have hstart : span.start ≤ line.stop := by
    by_contra hlt
    exact absurd (hisIndent _ (hbreak.mem hindent hfrom (Nat.lt_of_not_le hlt))) (by decide)
  have hstop := h.stop_le hpairwise hnewline hspan hsolid hstart
  have hlt := hsolid.start_lt_stop
  simp only [Edit.span] at hstop
  have hwithin : line.start ≤ span.start := by
    obtain ⟨offset, c, hc, hmargin, hfrom', hto'⟩ := h.exists_char
    by_contra hfront
    by_cases hcovered : offset < span.stop
    . exact hfront (h.within hpairwise hspan hc hmargin hfrom' hto' (by simp [Edit.span]; omega)
        hcovered).1
    . have hbehind := hc.mem hblank (Nat.le_of_not_lt hcovered) (by dsimp only; omega)
      rcases List.mem_append.mp hbehind with hc | hc
      . simp [isMargin, hisBlank c hc] at hmargin
      . rcases hisNewline with rfl | rfl
        . cases hc
        . rw [List.mem_singleton.mp hc] at hmargin
          cases hmargin
  have halone := hrange.isAloneOn (Nat.le_of_lt hlt) (by omega)
  rwa [SourceLine.eq_span halone hwithin (by omega) hstop] at halone

theorem Span.IsAloneOn.overlaps {span lines : Span} (h : span.IsAloneOn isIndent source lines)
    {offset : Nat} {c : Char} (hc : IsCharAt source offset c) (hmargin : isMargin c = false)
    (hfrom : lines.start ≤ offset) (hto : offset < lines.stop) :
    span.start ≤ offset ∧ offset < span.stop := by
  obtain ⟨front, indent, cut, blank, newline, back, hsource, rfl, rfl, _, hindent, hblank,
    hnewline⟩ := h
  constructor
  . by_contra hlt
    have hslice := (Span.isSliceOf_append ⟨byteLength front, byteLength (front ++ indent)⟩ hsource
      rfl (byteLength_append ..)).2
    have := hindent c (hc.mem hslice hfrom (Nat.lt_of_not_le hlt))
    simp [isMargin, isTrailing, this] at hmargin
  . by_contra hlt
    have hslice := (Span.isSliceOf_append ⟨byteLength (front ++ (indent ++ cut)),
      byteLength (front ++ (indent ++ (cut ++ (blank ++ newline))))⟩
      (show source = (front ++ (indent ++ cut)) ++ ((blank ++ newline) ++ back) by simp [hsource])
      rfl (by simp only [byteLength_append]; omega)).2
    rcases List.mem_append.mp (hc.mem hslice (Nat.le_of_not_lt hlt) hto) with hmem | hmem
    . simp [isMargin, hblank c hmem] at hmargin
    . rcases hnewline with ⟨rfl, _⟩ | rfl
      . cases hmem
      . rw [List.mem_singleton.mp hmem] at hmargin
        cases hmargin

end

/--
If removals cover all of a line but white space, nothing but white space is left of it. The line is
taken as a whole if one of the removals is alone on it. Otherwise, and so wherever there are
several of them on the line, its line break stays.
-/
theorem applyEdits_clears_line {source : List Char} (line : SourceLine source) {edits : List Edit}
    {s : Settlement} (hsettle : settle edits = .ok s)
    (hsolid : ∀ e ∈ s.kept, e.span.IsSolidIn source) (hcleared : line.IsClearedBy s.kept) :
    ∃ t, applyEdits source edits = .ok t
      ∧ assemble source 0 (t.taken.zip (s.kept.map Edit.text)) = some t.text
      ∧ (∀ offset c, IsCharAt source offset c → isMargin c = false → line.start ≤ offset →
        offset < line.stop → ∃ range ∈ t.taken, range.start ≤ offset ∧ offset < range.stop)
      ∧ (∀ span, .removal span ∈ s.kept → span.IsAloneOn isIndent source line.span →
        line.span ∈ t.taken)
      ∧ ((∀ span, .removal span ∈ s.kept → ¬ span.IsAloneOn isIndent source line.span) →
        line.IsEndedBeside t.taken)
      ∧ ∀ a b, .removal a ∈ s.kept → .removal b ∈ s.kept → a ≠ b →
        line.span.contains a = true → line.span.contains b = true → line.IsEndedBeside t.taken := by
  have hkept := (isSettlementOf_of_kept hsettle).2
    fun e he => Nat.le_of_lt (hsolid e he).start_lt_stop
  have hpairwise : s.kept.Pairwise fun a b => a.span.stop ≤ b.span.start :=
    hkept.pairwise.imp fun hab => hab.2.1
  obtain ⟨t, ht, hall, _⟩ := exists_spliceFrom_between hsolid hpairwise
    (List.nil_append source).symm (.inr (by simp)) (by simp)
  have hstart : (Cursor.between [] source).IsIn source := ⟨[], rfl, rfl⟩
  have hof := isOf_of_spliceFrom hstart ht
  have hended : (∀ span, .removal span ∈ s.kept → ¬ span.IsAloneOn isIndent source line.span) →
      line.IsEndedBeside t.taken := by
    intro hnone hnewline range hrange
    by_contra hmid
    obtain ⟨e, he, htakes⟩ := exists_mem_of_forall₂ hall hrange
    cases e with
    | removal span =>
      exact hnone span he (hcleared.isAloneOn hpairwise hnewline he (hsolid _ he) htakes (by omega)
        (by omega))
    | replacement span text =>
      have heq : range = span := htakes
      have hstop := hcleared.stop_le hpairwise hnewline he (hsolid _ he)
      rw [heq] at hmid
      simp only [Edit.span] at hstop
      omega
  refine ⟨t, ?_, hof.text_eq, ?_, ?_, hended, ?_⟩
  . unfold applyEdits
    rw [hsettle]
    exact ht
  . intro offset c hc hmargin hfrom hto
    obtain ⟨span, hspan, _, _, hle, hlt⟩ := hcleared.exists_removal offset c hc hmargin hfrom hto
    obtain ⟨range, hrange, htakes⟩ := exists_mem_of_forall₂ hall.flip hspan
    have hwidened := (show IsRemovalRange source span range from htakes).isWidenedTo
    exact ⟨range, hrange, Nat.le_trans hwidened.1 hle, Nat.lt_of_lt_of_le hlt hwidened.2.1⟩
  . intro span hspan halone
    obtain ⟨range, hrange, htakes⟩ := exists_mem_of_forall₂ hall.flip hspan
    have hrange' := (show IsRemovalRange source span range from htakes).eq_lines _ halone
    rwa [hrange'] at hrange
  . intro a b ha hb hne hwithin hwithin'
    refine hended fun span hspan halone => hne ?_
    have heq : ∀ x, .removal x ∈ s.kept → line.span.contains x = true → x = span := by
      intro x hx hcontains
      rw [Span.contains_iff] at hcontains
      obtain ⟨c, hc, hmargin⟩ := (hsolid _ hx).exists_char
      have hlt := (hsolid _ hx).start_lt_stop
      simp only [Edit.span] at hc hlt
      obtain ⟨hle, hlt'⟩ := halone.overlaps hc hmargin hcontains.1 (by omega)
      exact Edit.removal.inj (eq_of_mem_span hpairwise hx hspan (Nat.le_refl _) hlt hle hlt')
    rw [heq a ha hwithin, heq b hb hwithin']

theorem applyEdits_clears_line_single :
    let source := "x\n\ta; \r\ny".toList
    let kept : List Edit := [.removal ⟨3, 5⟩]
    ∃ line : SourceLine source, line.span = ⟨2, 8⟩ ∧ settle kept = .ok ⟨kept, []⟩
      ∧ (∀ e ∈ kept, e.span.IsSolidIn source) ∧ line.IsClearedBy kept
      ∧ Span.IsAloneOn isIndent source ⟨3, 5⟩ line.span
      ∧ ∃ t, applyEdits source kept = .ok t ∧ line.span ∈ t.taken := by
  intro source kept
  let line : SourceLine source := ⟨['x', '\n'], "\ta; \r".toList, ['\n'], ['y'], rfl,
    by simp [IsLineStart], by decide, .inr rfl⟩
  have hsettle : settle kept = .ok ⟨kept, []⟩ := by
    rw [settle, List.mergeSort_singleton]
    rfl
  have hsolid : ∀ e ∈ kept, e.span.IsSolidIn source :=
    List.forall_mem_singleton.mpr (Span.isSolidIn_of_check rfl (by decide +kernel))
  have hcleared : line.IsClearedBy kept := by
    refine ⟨⟨3, 'a', ⟨"x\n\t".toList, "; \r\ny".toList, rfl, by decide⟩, by decide, by decide,
      by decide⟩, ?_⟩
    intro offset c hc hmargin hfrom hto
    have hfrom : 2 ≤ offset := hfrom
    have hto : offset < 7 := hto
    refine ⟨⟨3, 5⟩, .head _, by decide, by decide, ?_, ?_⟩
    . by_contra hlt
      have := hc.mem (show Span.slice? ⟨2, 3⟩ source = some ['\t'] from rfl) hfrom
        (Nat.lt_of_not_le hlt)
      rw [List.mem_singleton.mp this] at hmargin
      cases hmargin
    . by_contra hlt
      have := hc.mem (show Span.slice? ⟨5, 7⟩ source = some [' ', '\r'] from rfl)
        (Nat.le_of_not_lt hlt) hto
      rcases List.mem_pair.mp this with rfl | rfl
      . cases hmargin
      . cases hmargin
  have halone : Span.IsAloneOn isIndent source ⟨3, 5⟩ line.span :=
    ⟨['x', '\n'], ['\t'], ['a', ';'], [' ', '\r'], ['\n'], ['y'], rfl, rfl, rfl,
      by simp [IsLineStart], by simp [isIndent], by simp [isTrailing, isIndent], .inr rfl⟩
  obtain ⟨t, ht, _, _, htaken, _⟩ := applyEdits_clears_line line hsettle hsolid hcleared
  exact ⟨line, rfl, hsettle, hsolid, hcleared, halone, t, ht, htaken _ (.head _) halone⟩

/--
Two removals that cover a line together leave a blank line.
-/
theorem exists_blankLine_left :
    let source := "\x7b\n a; b;\n\x7d".toList
    let kept : List Edit := [.removal ⟨3, 5⟩, .removal ⟨6, 8⟩]
    ∃ line : SourceLine source, line.span = ⟨2, 9⟩ ∧ settle kept = .ok ⟨kept, []⟩
      ∧ (∀ e ∈ kept, e.span.IsSolidIn source) ∧ line.IsClearedBy kept
      ∧ applyEdits source kept = .ok ⟨"\x7b\n\n\x7d".toList, [⟨2, 5⟩, ⟨5, 8⟩]⟩ := by
  intro source kept
  let line : SourceLine source := ⟨['\x7b', '\n'], " a; b;".toList, ['\n'], ['\x7d'], rfl,
    by simp [IsLineStart], by decide, .inr rfl⟩
  have hsort : kept.mergeSort Edit.precedes = kept := by
    simp [kept, List.mergeSort, List.MergeSort.Internal.splitInTwo, Edit.precedes, Edit.span]
  have hsettle : settle kept = .ok ⟨kept, []⟩ := by
    rw [settle, hsort]
    rfl
  have hsolid : ∀ e ∈ kept, e.span.IsSolidIn source := by
    intro e he
    rcases List.mem_pair.mp he with rfl | rfl
    . exact Span.isSolidIn_of_check rfl (by decide +kernel)
    . exact Span.isSolidIn_of_check rfl (by decide +kernel)
  have hcleared : line.IsClearedBy kept := by
    refine ⟨⟨3, 'a', ⟨"\x7b\n ".toList, "; b;\n\x7d".toList, rfl, by decide⟩, by decide, by decide,
      by decide⟩, ?_⟩
    intro offset c hc hmargin hfrom hto
    have hfirst : 3 ≤ offset := by
      by_contra hlt
      have := hc.mem (show Span.slice? ⟨2, 3⟩ source = some [' '] from rfl) hfrom
        (Nat.lt_of_not_le hlt)
      rw [List.mem_singleton.mp this] at hmargin
      cases hmargin
    have hbetween : offset < 5 ∨ 6 ≤ offset := by
      by_contra hmid
      have := hc.mem (show Span.slice? ⟨5, 6⟩ source = some [' '] from rfl)
        (show 5 ≤ offset by omega) (show offset < 6 by omega)
      rw [List.mem_singleton.mp this] at hmargin
      cases hmargin
    rcases hbetween with hlt | hle
    . exact ⟨⟨3, 5⟩, .head _, by decide, by decide, hfirst, hlt⟩
    . exact ⟨⟨6, 8⟩, .tail _ (.head _), by decide, by decide, hle, hto⟩
  refine ⟨line, rfl, hsettle, hsolid, hcleared, ?_⟩
  rw [applyEdits, hsettle]
  rfl

end Delegation
