import Delegation.Proofs.Boundaries
import Delegation.Proofs.ClearedLines
import Delegation.Proofs.Layout
import Delegation.Proofs.Preorder
import Mathlib.Data.List.Induction

/-!
This module contains which comments belong to a member: those below a line break that no blank line
divides from it. The span of the member begins with the first of them. What is in front of it stays
when the member is removed.
-/

namespace Delegation

open Item Lexeme

/--
Whether a comment with `before` in front of it and `after` behind it, both trivia, belongs to what
follows: it is below a line break and not above a blank line.
-/
def IsLeading (before after : List Lexeme) : Prop :=
  .newline ∈ tokensOf before ∧ ¬ [.newline, .newline] <:+: tokensOf after

theorem tokensOf_singleton (l : Lexeme) :
    tokensOf [l] = if l.token = .whitespace then [] else [l.token] := by
  by_cases h : l.token = .whitespace <;> simp [tokensOf, h]

theorem pair_infix_concat_iff {α : Type} {a x : α} {as : List α} :
    [a, a] <:+: as ++ [x] ↔ [a, a] <:+: as ∨ as.getLast? = some a ∧ x = a := by
  rw [List.infix_concat_iff, List.suffix_concat_iff, or_comm]
  apply or_congr_right
  constructor
  . rintro (hnil | ⟨front, hfront, hsuffix⟩)
    . cases hnil
    . obtain ⟨rfl, hx⟩ := List.append_inj' (show [a] ++ [a] = front ++ [x] from hfront) rfl
      obtain ⟨more, rfl⟩ := hsuffix
      exact ⟨by simp, (List.singleton_inj.mp hx).symm⟩
  . rintro ⟨hlast, rfl⟩
    obtain ⟨front, rfl⟩ := List.getLast?_eq_some_iff.mp hlast
    exact .inr ⟨[x], rfl, List.suffix_append front [x]⟩

namespace IsLeading

variable {before after : List Lexeme} {l : Lexeme}

theorem of_append {more : List Lexeme} (h : IsLeading before (after ++ more)) :
    IsLeading before after := by
  refine ⟨h.1, fun hblank => h.2 ?_⟩
  rw [tokensOf_append]
  exact hblank.trans (List.prefix_append ..).isInfix

theorem push (h : IsLeading before after)
    (hlast : l.token = .newline → (tokensOf after).getLast? ≠ some .newline) :
    IsLeading before (after ++ [l]) := by
  refine ⟨h.1, ?_⟩
  rw [tokensOf_append, tokensOf_singleton]
  split
  . rw [List.append_nil]
    exact h.2
  . rw [pair_infix_concat_iff]
    rintro (hblank | ⟨hnewline, hl⟩)
    . exact h.2 hblank
    . exact hlast hl hnewline

end IsLeading

def NoneLeading (trivia behind : List Lexeme) : Prop :=
  ∀ before c after, trivia = before ++ c :: after → c.token.IsComment →
    ¬ IsLeading before (after ++ behind)

namespace NoneLeading

variable {trivia behind : List Lexeme} {l : Lexeme}

theorem append (h : NoneLeading trivia behind) (more : List Lexeme) :
    NoneLeading trivia (behind ++ more) := by
  intro before c after hsplit hc hleading
  rw [← List.append_assoc] at hleading
  exact h before c after hsplit hc hleading.of_append

theorem concat (h : NoneLeading trivia [l])
    (hl : l.token.IsComment → ¬ IsLeading trivia []) : NoneLeading (trivia ++ [l]) [] := by
  intro before c after hsplit hc
  rw [List.append_nil]
  cases List.eq_nil_or_concat after with
  | inl hnil =>
    subst hnil
    obtain ⟨rfl, hlast⟩ := List.append_inj' hsplit rfl
    cases hlast
    exact hl hc
  | inr hconcat =>
    obtain ⟨after, x, rfl⟩ := hconcat
    rw [List.concat_eq_append] at hsplit ⊢
    rw [← List.cons_append, ← List.append_assoc] at hsplit
    obtain ⟨rfl, hlast⟩ := List.append_inj' hsplit rfl
    cases hlast
    exact h before c after rfl hc

end NoneLeading

/--
Whether `start?` is where the first comment in `trivia` begins that belongs to what follows, if
there is any.
-/
def LeadFrom (trivia : List Lexeme) (start? : Option Nat) : Prop :=
  match start? with
  | none => NoneLeading trivia []
  | some start => ∃ before c after, trivia = before ++ c :: after ∧ c.token.IsComment
    ∧ IsLeading before after ∧ c.start = start ∧ NoneLeading before (c :: after)

namespace LeadFrom

variable {trivia : List Lexeme} {start? : Option Nat} {l : Lexeme}

theorem keep (h : LeadFrom trivia start?)
    (hlast : l.token = .newline → (tokensOf trivia).getLast? ≠ some .newline)
    (hl : l.token.IsComment → start? = none → ¬ IsLeading trivia []) :
    LeadFrom (trivia ++ [l]) start? := by
  cases start? with
  | none =>
    exact (NoneLeading.append h [l]).concat fun hc => hl hc rfl
  | some start =>
    obtain ⟨before, c, after, rfl, hc, hleading, hstart, hnone⟩ := h
    refine ⟨before, c, after ++ [l], by simp, hc, hleading.push fun hnewline hafter => ?_, hstart,
      hnone.append [l]⟩
    apply hlast hnewline
    rw [← List.singleton_append, ← List.append_assoc, tokensOf_append, List.getLast?_append, hafter]
    rfl

theorem blank (hl : l.token = .newline) (hlast : (tokensOf trivia).getLast? = some .newline) :
    LeadFrom (trivia ++ [l]) none := by
  apply NoneLeading.concat
  . rintro before c after rfl hc ⟨_, hblank⟩
    apply hblank
    have htoken : tokensOf (c :: after) = c.token :: tokensOf after := by
      rw [← List.singleton_append, tokensOf_append, tokensOf_singleton, if_neg hc.2.2]
      rfl
    rw [tokensOf_append, htoken, List.getLast?_append, List.getLast?_cons] at hlast
    rw [tokensOf_append, tokensOf_singleton, hl, if_neg (by simp), pair_infix_concat_iff]
    refine .inr ⟨?_, rfl⟩
    cases hafter : (tokensOf after).getLast? with
    | none =>
      rw [hafter] at hlast
      exact absurd (Option.some.inj hlast) hc.2.1
    | some t =>
      rw [hafter] at hlast
      exact hlast
  . intro hc
    exact absurd hl hc.2.1

theorem comment (h : NoneLeading trivia []) (hl : l.token.IsComment)
    (hnewline : .newline ∈ tokensOf trivia) : LeadFrom (trivia ++ [l]) (some l.start) :=
  ⟨trivia, l, [], rfl, hl, ⟨hnewline, by simp⟩, rfl, h.append [l]⟩

end LeadFrom

/--
Whether `gap` says of `trivia` whether a line breaks there, whether it ends at the start of a line,
and which comments belong to what follows.
-/
structure Gap.Tells (gap : Gap) (trivia : List Lexeme) : Prop where
  hasNewline_iff : gap.hasNewline = true ↔ .newline ∈ tokensOf trivia
  isLineStart_iff : gap.isLineStart = true ↔ (tokensOf trivia).getLast? = some .newline
  leadFrom : LeadFrom trivia gap.comment

namespace Gap

theorem tells_empty : Gap.empty.Tells [] := by
  refine ⟨by simp [empty], by simp [empty], ?_⟩
  intro before c after h
  simp at h

theorem Tells.push {gap : Gap} {trivia : List Lexeme} {l : Lexeme} (h : gap.Tells trivia)
    (hl : l.token.isTrivia = true) : (gap.push l).Tells (trivia ++ [l]) := by
  obtain ⟨hnewline, hline, hlead⟩ := h
  by_cases hl' : l.token = .newline
  . rw [gap.push_newline hl']
    have htokens : tokensOf (trivia ++ [l]) = tokensOf trivia ++ [.newline] := by
      rw [tokensOf_append, tokensOf_singleton, hl', if_neg (by simp)]
    refine ⟨by simp [htokens], by simp [htokens], ?_⟩
    cases hstart : gap.isLineStart with
    | true => exact .blank hl' (hline.mp hstart)
    | false =>
      rw [hstart] at hline
      refine hlead.keep (fun _ => by simpa using hline) fun hc => ?_
      exact absurd hl' hc.2.1
  by_cases hblank : l.token = .whitespace
  . rw [gap.push_whitespace hblank]
    have htokens : tokensOf (trivia ++ [l]) = tokensOf trivia := by
      rw [tokensOf_append, tokensOf_singleton, if_pos hblank, List.append_nil]
    refine ⟨by rw [htokens]; exact hnewline, by rw [htokens]; exact hline, ?_⟩
    exact hlead.keep (fun h => absurd h hl') fun hc => absurd hblank hc.2.2
  rw [gap.push_comment hl hl' hblank]
  have htokens : tokensOf (trivia ++ [l]) = tokensOf trivia ++ [l.token] := by
    rw [tokensOf_append, tokensOf_singleton, if_neg hblank]
  refine ⟨?_, ?_, ?_⟩
  . rw [htokens]
    simpa [Ne.symm hl'] using hnewline
  . rw [htokens]
    simpa using hl'
  . cases hbreak : gap.hasNewline with
    | false =>
      rw [hbreak] at hnewline
      refine hlead.keep (fun h => absurd h hl') fun _ _ hleading => ?_
      exact absurd (hnewline.mpr hleading.1) (by simp)
    | true =>
      cases hcomment : gap.comment with
      | none =>
        rw [hcomment] at hlead
        exact .comment hlead ⟨hl, hl', hblank⟩ (hnewline.mp hbreak)
      | some start =>
        rw [hcomment] at hlead
        exact hlead.keep (fun h => absurd h hl') fun _ h => by cases h

theorem tells_pushAll (trivia : List Lexeme) (h : ∀ l ∈ trivia, l.token.isTrivia = true) :
    (Gap.empty.pushAll trivia).Tells trivia := by
  induction trivia using List.reverseRecOn with
  | nil => exact tells_empty
  | append_singleton trivia l ih =>
    rw [pushAll_append]
    apply (ih fun x hx => h x (List.mem_append_left _ hx)).push
    exact h l (by simp)

end Gap

/-!
Where the comments of a token begin in the text.
-/

def IsLeadIn (trivia : List Lexeme) (c : Lexeme) : Prop :=
  c.token.IsComment ∧ ∃ before after, trivia = before ++ c :: after ∧ IsLeading before after

/--
Whether `start` is where the first comment in `trivia` begins that belongs to the token `first`
behind it, or the token itself if there is none. The comments from there on are those that belong to
the token.
-/
structure BeginsAt (trivia : List Lexeme) (first : Lexeme) (start : Nat) : Prop where
  of_none : (∀ c, ¬ IsLeadIn trivia c) → start = first.start
  exists_first : (∃ c, IsLeadIn trivia c) → ∃ c, IsLeadIn trivia c ∧ c.start = start
  le_start : ∀ c, IsLeadIn trivia c → start ≤ c.start ∧ c.stop ≤ first.start
  stop_le : ∀ c ∈ trivia, c.token.IsComment → ¬ IsLeadIn trivia c → c.stop ≤ start

theorem Lexeme.AreLaid.stop_le_start {start : Nat} {before between after : List Lexeme}
    {a b : Lexeme} (h : AreLaid start (before ++ a :: (between ++ b :: after))) :
    a.stop ≤ b.start := by
  have hb := h.split.cons.2.2.2.split.cons.1
  omega

theorem IsLeading.isLeadIn_of_mem {before after : List Lexeme} {c x : Lexeme}
    (h : IsLeading before after) (hx : x ∈ after) (hcomment : x.token.IsComment) :
    IsLeadIn (before ++ c :: after) x := by
  obtain ⟨between, more, rfl⟩ := List.append_of_mem hx
  refine ⟨hcomment, before ++ c :: between, more, by simp, ?_, fun hblank => h.2 ?_⟩
  . rw [tokensOf_append]
    exact List.mem_append_left _ h.1
  . rw [List.append_cons, tokensOf_append]
    exact hblank.trans (List.suffix_append ..).isInfix

namespace LeadFrom

variable {trivia rest : List Lexeme} {start? : Option Nat} {first : Lexeme}

theorem exists_between (h : LeadFrom trivia start?) (rest : List Lexeme) {c : Lexeme}
    (hmem : c ∈ trivia) (hc : c.token.IsComment) (hnot : ¬ IsLeadIn trivia c)
    (hfirst : first.token.isTrivia = false) :
    ∃ before between x after, trivia ++ first :: rest = before ++ c :: (between ++ x :: after)
      ∧ x.token ≠ .newline ∧ x.start = start?.getD first.start := by
  cases start? with
  | none =>
    obtain ⟨before, after, rfl⟩ := List.append_of_mem hmem
    refine ⟨before, after, first, rest, by simp, ?_, rfl⟩
    intro hnewline
    rw [hnewline] at hfirst
    cases hfirst
  | some start =>
    obtain ⟨before, x, after, rfl, hx, hleading, hstart, _⟩ := h
    rcases List.mem_append.mp hmem with hbefore | hafter
    . obtain ⟨front, between, rfl⟩ := List.append_of_mem hbefore
      exact ⟨front, between, x, after ++ first :: rest, by simp, hx.2.1, hstart⟩
    . refine absurd ?_ hnot
      rcases List.mem_cons.mp hafter with rfl | hafter
      . exact ⟨hc, before, after, rfl, hleading⟩
      . exact hleading.isLeadIn_of_mem hafter hc

theorem start_le (h : LeadFrom trivia start?) {start : Nat} (hls : AreLaid start trivia)
    {c : Lexeme} (hc : IsLeadIn trivia c) : ∃ first, start? = some first ∧ first ≤ c.start := by
  obtain ⟨hcomment, before, after, rfl, hleading⟩ := hc
  cases start? with
  | none =>
    rw [← List.append_nil after] at hleading
    exact absurd hleading (h before c after rfl hcomment)
  | some first =>
    refine ⟨first, rfl, ?_⟩
    obtain ⟨before', x, after', hsplit, _, _, rfl, hnone⟩ := h
    rcases List.append_eq_append_iff.mp hsplit with ⟨more, rfl, hmore⟩ | ⟨more, rfl, hmore⟩
    . cases more with
      | nil =>
        rw [List.nil_append] at hmore
        rw [(List.cons.inj hmore).1]
      | cons y more =>
        obtain ⟨rfl, rfl⟩ := List.cons.inj hmore
        exact absurd hleading (hnone before c more rfl hcomment)
    . cases more with
      | nil =>
        rw [List.nil_append] at hmore
        rw [(List.cons.inj hmore).1]
      | cons y more =>
        obtain ⟨rfl, rfl⟩ := List.cons.inj hmore
        rw [List.append_assoc] at hls
        exact Nat.le_trans (Nat.le_add_right ..) hls.stop_le_start

theorem beginsAt (h : LeadFrom trivia start?) (hfirst : first.token.isTrivia = false) {start : Nat}
    (hls : AreLaid start (trivia ++ first :: rest)) :
    BeginsAt trivia first (start?.getD first.start) := by
  refine ⟨?_, ?_, ?_, ?_⟩
  . intro hnone
    cases start? with
    | none => rfl
    | some start =>
      obtain ⟨before, c, after, rfl, hc, hleading, _⟩ := h
      exact absurd ⟨hc, before, after, rfl, hleading⟩ (hnone c)
  . rintro ⟨c, hc⟩
    obtain ⟨start, rfl, _⟩ := h.start_le hls.front hc
    obtain ⟨before, x, after, rfl, hx, hleading, hstart, _⟩ := h
    exact ⟨x, ⟨hx, before, after, rfl, hleading⟩, hstart⟩
  . intro c hc
    obtain ⟨start, rfl, hle⟩ := h.start_le hls.front hc
    refine ⟨hle, ?_⟩
    obtain ⟨_, before, after, rfl, _⟩ := hc
    rw [List.append_assoc] at hls
    exact hls.stop_le_start
  . intro c hmem hc hnot
    obtain ⟨before, between, x, after, hsplit, _, hstart⟩ :=
      h.exists_between rest hmem hc hnot hfirst
    rw [hsplit] at hls
    rw [← hstart]
    exact hls.stop_le_start

end LeadFrom

/-!
What a removal takes in front of its span.
-/

def Span.IsIndentedTo (source : List Char) (span range : Span) : Prop :=
  range.start ≤ span.start ∧ ∃ indent, Span.slice? ⟨range.start, span.start⟩ source = some indent
    ∧ ∀ c ∈ indent, isIndent c = true

theorem isIndentedTo_of_spliceFrom {source : List Char} {c : Cursor} {es : List Edit} {s : Splice}
    (hc : c.IsIn source) (h : spliceFrom c es = .ok s) :
    List.Forall₂ (fun e range => e.span.IsIndentedTo source range) es s.taken := by
  induction es generalizing c s with
  | nil =>
    cases h
    exact .nil
  | cons e es ih =>
    obtain ⟨back, kept, indent, cut, eaten, c', s', hsource, _, hstart, _, hoffset, hindent, hs',
      rfl⟩ := exists_parts_of_spliceFrom hc h
    have hparts : source = (back ++ kept) ++ (indent ++ (cut ++ (eaten ++ c'.rest))) := by
      simp [hsource]
    have hc' : c'.IsIn source :=
      ⟨back ++ (kept ++ (indent ++ (cut ++ eaten))), by simp [hsource], hoffset⟩
    rw [← List.append_assoc, byteLength_append] at hstart
    refine .cons ⟨?_, indent, ?_, hindent⟩ (ih hc' hs')
    . dsimp only
      omega
    . exact (Span.isSliceOf_append ⟨_, e.span.start⟩ hparts rfl hstart).2

theorem isIndentedTo_of_applyEdits {source : List Char} {edits : List Edit} {s : Settlement}
    {t : Splice} (hsettle : settle edits = .ok s) (h : applyEdits source edits = .ok t) {e : Edit}
    {range : Span} (hmem : (e, range) ∈ s.kept.zip t.taken) :
    e.span.IsIndentedTo source range := by
  rw [applyEdits, hsettle] at h
  have hstart : (Cursor.ofText source).IsIn source := ⟨[], rfl, rfl⟩
  exact List.forall₂_zip (isIndentedTo_of_spliceFrom hstart h) hmem

/--
Whether edits never take `l` when they remove `span`, whatever else they do.
-/
def StaysBefore (source : List Char) (span : Span) (l : Lexeme) : Prop :=
  ∀ edits s t range, settle edits = .ok s → applyEdits source edits = .ok t →
    (.removal span, range) ∈ s.kept.zip t.taken → l.stop ≤ range.start

theorem Token.IsComment.cases {token : Token} (h : token.IsComment) :
    (∃ content, token = .lineComment content) ∨ ∃ content, token = .blockComment content := by
  obtain ⟨htrivia, hnewline, hblank⟩ := h
  cases token with
  | lineComment content => exact .inl ⟨content, rfl⟩
  | blockComment content => exact .inr ⟨content, rfl⟩
  | newline => exact absurd rfl hnewline
  | whitespace => exact absurd rfl hblank
  | _ => cases htrivia

theorem Lexeme.AreLaid.eq_newline_of_lineComment {start : Nat} {c x : Lexeme} {ls : List Lexeme}
    (h : AreLaid start (c :: x :: ls)) {content : String} (hc : c.token = .lineComment content) :
    x.text = ['\n'] ∧ x.token = .newline := by
  obtain ⟨_, _, hends, hbehind⟩ := h.cons
  obtain ⟨_, hspells, _⟩ := hbehind.cons
  obtain ⟨d, ds, htext⟩ := List.exists_cons_of_ne_nil hspells.ne_nil
  rw [hc, textOf_cons, htext] at hends
  have hd : d = '\n' := by simpa [Token.endsBefore] using hends
  rw [htext, hd] at hspells
  obtain ⟨hds, htoken⟩ := hspells.eq_newline
  exact ⟨by rw [htext, hd, hds], htoken⟩

theorem Lexeme.AreLaid.exists_char_of_isComment {before between after : List Lexeme} {c x : Lexeme}
    (h : AreLaid 0 (before ++ c :: (between ++ x :: after))) (hc : c.token.IsComment)
    (hx : x.token ≠ .newline) :
    ∃ offset d, IsCharAt (textOf (before ++ c :: (between ++ x :: after))) offset d
      ∧ isIndent d = false ∧ c.stop ≤ offset + 1 ∧ offset < x.start := by
  have hbehind := h.split
  rw [Nat.zero_add] at hbehind
  obtain ⟨hstart, hspells, _, hbetween⟩ := hbehind.cons
  have hstop : c.stop = byteLength (textOf before ++ c.text) := by
    rw [Lexeme.stop, hstart, byteLength_append]
  have hxstart := hbetween.split.cons.1
  rcases hc.cases with ⟨content, htoken⟩ | ⟨content, htoken⟩
  . cases between with
    | nil => exact absurd (hbehind.eq_newline_of_lineComment htoken).2 hx
    | cons y between =>
      have htext := (hbehind.eq_newline_of_lineComment htoken).1
      refine ⟨c.stop, '\n', ⟨textOf before ++ c.text, textOf (between ++ x :: after), ?_,
        hstop.symm⟩, by decide, Nat.le_succ _, ?_⟩
      . simp [htext]
      . have hpos : '\n'.utf8Size = 1 := by decide
        rw [hxstart, textOf_cons, htext, byteLength_append, byteLength_cons, byteLength_nil]
        omega
  . have htext : c.text = '/' :: '*' :: (content.toList ++ ['*', '/']) := by
      have := hspells.isWrittenAs
      rwa [htoken] at this
    obtain ⟨front, hfront⟩ : ∃ front, textOf before ++ c.text = front ++ ['/'] :=
      ⟨textOf before ++ '/' :: '*' :: (content.toList ++ ['*']), by simp [htext]⟩
    have hpos : '/'.utf8Size = 1 := by decide
    rw [hfront, byteLength_append, byteLength_cons, byteLength_nil] at hstop
    refine ⟨byteLength front, '/', ⟨front, textOf (between ++ x :: after), ?_, rfl⟩, by decide, ?_,
      ?_⟩
    . rw [textOf_append, textOf_cons, ← List.append_assoc, hfront]
      simp
    . omega
    . omega

theorem stop_le_of_isIndentedTo {before between after : List Lexeme} {c x : Lexeme}
    (h : AreLaid 0 (before ++ c :: (between ++ x :: after))) (hc : c.token.IsComment)
    (hx : x.token ≠ .newline) {span range : Span} (hspan : span.start = x.start)
    (hrange : span.IsIndentedTo (textOf (before ++ c :: (between ++ x :: after))) range) :
    c.stop ≤ range.start := by
  obtain ⟨offset, d, hd, hisIndent, hstop, hlt⟩ := h.exists_char_of_isComment hc hx
  obtain ⟨_, indent, hindent, hall⟩ := hrange
  by_contra hle
  have hmem := hd.mem hindent (by dsimp only; omega) (by dsimp only; omega)
  rw [hall d hmem] at hisIndent
  cases hisIndent

/-!
The members between two braces.
-/

/--
Whether the comments that belong to `m`, which has `first` as its first token behind `trivia`, are
those it begins with, and a removal of `m` leaves the others.
-/
structure Member.OwnsComments (source : List Char) (trivia : List Lexeme) (first : Lexeme)
    (m : Member) : Prop where
  beginsAt : BeginsAt trivia first m.span.start
  staysBefore : ∀ c ∈ trivia, c.token.IsComment → ¬ IsLeadIn trivia c →
    StaysBefore source m.span c

/--
Whether lexemes of `source` hold `members` between braces: separators, and for each member its
tokens with its comments in front of them.
-/
inductive HoldMembers (source : List Char) : List Lexeme → (members : List Member) → Prop where
  | nil {trivia : List Lexeme} (htrivia : ∀ l ∈ trivia, l.token.isTrivia = true) :
    HoldMembers source trivia []
  | separator {trivia ls : List Lexeme} {l : Lexeme} {ms : List Member}
    (htrivia : ∀ l ∈ trivia, l.token.isTrivia = true)
    (hl : l.token = .sign .semicolon ∨ l.token = .sign .comma) (htail : HoldMembers source ls ms) :
    HoldMembers source (trivia ++ l :: ls) ms
  | member {trivia words ls : List Lexeme} {first last : Lexeme} {m : Member} {ms : List Member}
    (htrivia : ∀ l ∈ trivia, l.token.isTrivia = true) (hfirst : first.token.isTrivia = false)
    (hseparator : ¬ (first.token = .sign .semicolon ∨ first.token = .sign .comma))
    (hlast : (first :: words).getLast? = some last) (hend : last.token.isTrivia = false)
    (hstop : last.stop = m.span.stop) (hcomments : m.OwnsComments source trivia first)
    (htail : HoldMembers source ls ms) :
    HoldMembers source (trivia ++ first :: (words ++ ls)) (m :: ms)

theorem isTrivia_of_itemsFrom_eq_nil {gap : Gap} {ls : List Lexeme} (h : itemsFrom gap ls = []) :
    ∀ l ∈ ls, l.token.isTrivia = true := by
  have htokens := map_token_itemsFrom gap ls
  rw [h, List.map_nil] at htokens
  intro l hl
  have := List.filter_eq_nil_iff.mp htokens.symm _ (List.mem_map_of_mem hl)
  simpa using this

theorem ownsComments_of_lead {pre trivia rest : List Lexeme} {first : Lexeme} {m : Member}
    (hls : AreLaid 0 (pre ++ (trivia ++ first :: rest)))
    (htrivia : ∀ l ∈ trivia, l.token.isTrivia = true) (hfirst : first.token.isTrivia = false)
    (hstart : m.span.start = (ofLexeme (Gap.empty.pushAll trivia) first).lead) :
    m.OwnsComments (textOf (pre ++ (trivia ++ first :: rest))) trivia first := by
  have hlead := (Gap.tells_pushAll trivia htrivia).leadFrom
  constructor
  . rw [hstart]
    exact hlead.beginsAt hfirst hls.split
  . intro c hmem hc hnot edits s t range hsettle ht htaken
    obtain ⟨before, between, x, after, hsplit, hx, hxstart⟩ :=
      hlead.exists_between rest hmem hc hnot hfirst
    have hrange := isIndentedTo_of_applyEdits hsettle ht htaken
    rw [hsplit, ← List.append_assoc] at hls hrange
    exact stop_le_of_isIndentedTo hls hc hx (hstart.trans hxstart.symm) hrange

theorem exists_words {ls : List Lexeme} {l : Lexeme} {more items : List Item}
    (hls : AreLaid l.start (l :: ls)) (hl : l.token.isTrivia = false)
    (h : more ++ items = itemsFrom .empty ls) :
    ∃ words rest last, ls = words ++ rest ∧ (l :: words).getLast? = some last
      ∧ last.token.isTrivia = false ∧ last.stop = stopAfter l.stop more
      ∧ items = itemsFrom .empty rest := by
  obtain ⟨words, rest, rfl, hlast, hstop, hitems⟩ := itemsFrom_eq_append hls.cons.2.2.2 h.symm
  refine ⟨words, rest, (l :: words).getLast (by simp), rfl,
    List.getLast?_eq_some_getLast _, ?_, ?_, hitems⟩
  . cases words with
    | nil => exact hl
    | cons x words => exact hlast _ (List.getLast?_eq_some_getLast _)
  . rw [← List.cons_append] at hls
    rw [hls.front.getLast?_stop _ (List.getLast?_eq_some_getLast _), hstop, textOf_cons,
      byteLength_append, ← Nat.add_assoc]
    rfl

theorem MembersOf.holdMembers {items : List Item} {ms : List Member} (h : MembersOf items ms)
    {pre inside post : List Lexeme} (hls : AreLaid 0 (pre ++ (inside ++ post)))
    (hitems : items = itemsFrom .empty inside) :
    HoldMembers (textOf (pre ++ (inside ++ post))) inside ms := by
  match h with
  | .nil => exact .nil (isTrivia_of_itemsFrom_eq_nil hitems.symm)
  | @MembersOf.separator item items ms hitem htail =>
    obtain ⟨trivia, l, rest, rfl, htrivia, _, rfl, hrest⟩ := itemsFrom_eq_cons hitems.symm
    have hsplit : pre ++ (trivia ++ l :: rest ++ post)
        = (pre ++ (trivia ++ [l])) ++ (rest ++ post) := by
      simp
    rw [hsplit] at hls ⊢
    exact .separator htrivia hitem (htail.holdMembers hls hrest)
  | @MembersOf.member used items m ms hmember htail =>
    match hmember with
    | @MemberOf.mk first more _ _ _ _ _ _ _ _ _ hfirst _ _ _ _ _ =>
      obtain ⟨trivia, l, rest, rfl, htrivia, hl, rfl, hrest⟩ := itemsFrom_eq_cons hitems.symm
      have hlaid : AreLaid 0 (pre ++ (trivia ++ l :: (rest ++ post))) := by
        rwa [List.append_assoc trivia, List.cons_append] at hls
      have hbehind : AreLaid l.start (l :: rest) := by
        have := hlaid.split.split
        rw [← this.cons.1, ← List.cons_append] at this
        exact this.front
      obtain ⟨words, rest, last, rfl, hlast, hend, hstop, hitems'⟩ := exists_words hbehind hl hrest
      have hsplit : pre ++ (trivia ++ l :: (words ++ rest) ++ post)
          = (pre ++ (trivia ++ l :: words)) ++ (rest ++ post) := by
        simp
      refine .member htrivia hl hfirst hlast hend hstop ?_ ?_
      . rw [List.append_assoc trivia, List.cons_append]
        exact ownsComments_of_lead hlaid htrivia hl rfl
      . rw [hsplit] at hls ⊢
        exact htail.holdMembers hls hitems'

def HoldInBraces (source : List Char) (ls : List Lexeme) (stop : Nat) (members : List Member) :
    Prop :=
  ∃ (front inside behind : List Lexeme) (opener closer : Lexeme),
    ls = front ++ opener :: (inside ++ closer :: behind)
    ∧ opener.token = .opening .brace ∧ closer.token = .closing .brace ∧ closer.stop = stop
    ∧ IsWellNested (Lexeme.delimitersOf inside) ∧ HoldMembers source inside members

theorem holdInBraces_of_items {ls : List Lexeme} (hls : AreLaid 0 ls) {head inner : List Item}
    {opener closer : Item} {ms : List Member}
    (hused : head ++ opener :: (inner ++ [closer]) <:+: itemsFrom .empty ls)
    (hopener : opener.token = .opening .brace) (hcloser : closer.token = .closing .brace)
    (hinner : MembersOf inner ms) : HoldInBraces (textOf ls) ls closer.span.stop ms := by
  obtain ⟨before, after, hitems⟩ := hused
  have hopening : itemsFrom .empty ls
      = (before ++ head) ++ opener :: (inner ++ closer :: after) := by
    rw [← hitems]
    simp
  obtain ⟨front, l, rest, rfl, _, hl, _, hrest⟩ := itemsFrom_eq_append_cons hopening
  obtain ⟨inside, r, behind, rfl, hinside, hr, hspan, _⟩ := itemsFrom_eq_append_cons hrest.symm
  refine ⟨front, inside, behind, l, r, rfl, hl.trans hopener, hr.trans hcloser,
    congrArg Span.stop hspan, ?_, ?_⟩
  . rw [← delimitersOf_itemsFrom .empty, hinside]
    exact hinner.isBalanced.isWellNested
  . rw [List.append_cons] at hls ⊢
    exact hinner.holdMembers hls hinside.symm

theorem Node.IsReadFrom.holdInBraces {ls : List Lexeme} {used : List Item} {node : Node}
    {owner : Owner} (h : node.IsReadFrom used) (hls : AreLaid 0 ls)
    (hused : used <:+: itemsFrom .empty ls) (howner : node.owner? = some owner) :
    HoldInBraces (textOf ls) ls node.span.stop node.members := by
  cases node with
  | object o =>
    obtain ⟨opener, inner, closer, rfl, hopener, hcloser, hinner, hspan⟩ := h
    rw [← List.nil_append (opener :: _)] at hused
    have := holdInBraces_of_items hls hused hopener hcloser hinner
    rwa [Node.span, hspan]
  | interfaceBlock b =>
    cases h with
    | interfaceBlock hitems _ hopener hcloser hinner =>
      rw [hitems] at hused
      rw [Node.span, stopAfter_of_braces hitems]
      exact holdInBraces_of_items hls hused hopener hcloser hinner
  | classBlock b =>
    cases h with
    | classBlock hitems _ hopener hcloser hinner =>
      rw [hitems] at hused
      rw [Node.span, stopAfter_of_braces hitems]
      exact holdInBraces_of_items hls hused hopener hcloser hinner
  | _ => cases howner

/--
A member of an object type, an interface or a class begins with the first comment in front of it
that is below a line break and not above a blank line, and with its first token if there is none.
Other comments in front of it are not a part of it, and no removal of it takes them.
-/
theorem DeclarationTree.parse_holdMembers {source : List Char} {tree : DeclarationTree}
    (h : parse source = .ok tree) :
    ∃ ls, tokenize source = .ok ls ∧ ∀ node ∈ tree.visit fun _ => false,
      ∀ owner, node.owner? = some owner → HoldInBraces source ls node.span.stop node.members := by
  obtain ⟨ls, hls, hstatements⟩ := parse_eq_ok h
  refine ⟨ls, tokenize_eq_ok.mpr hls, ?_⟩
  intro node hnode owner howner
  obtain ⟨used, hused, hread⟩ := hstatements.isReadIn node hnode
  have := hread.holdInBraces hls.areLaid hused howner
  rwa [hls.textOf_eq] at this

theorem DeclarationTree.parse_holdMembers_blankLine :
    let source :=
      "class A \x7b // b\n/* c */\n\n// d\ne: \x7b f: G, // h\ni: J \x7d; // k\nl()\n\x7d".toList
    ∃ tree, parse source = .ok tree ∧ ∃ ls, tokenize source = .ok ls
      ∧ ∀ node ∈ tree.visit fun _ => false, ∀ owner, node.owner? = some owner →
        HoldInBraces source ls node.span.stop node.members := by
  intro source
  have hok : (parse source).isOk = true := by decide +kernel
  obtain ⟨tree, h⟩ := exists_of_isOk hok
  exact ⟨tree, h, parse_holdMembers h⟩

end Delegation
