import Delegation.Proofs.Passage
import Delegation.Proofs.Splicing

/-!
This module contains the tokens of a declaration file that survive its edits. They are the tokens of
the text after these edits, up to line breaks that follow other ones.
-/

namespace Delegation

open Lexeme Passage

def lineAfter (isLine : Bool) (ts : List Token) : Bool :=
  ts.foldl (fun _ t => t == .newline) isLine

/--
The tokens `ts` without line breaks where a line begins.
-/
def squeeze (isLine : Bool) : List Token → List Token
  | [] => []
  | t :: ts =>
    if t = .newline ∧ isLine = true then
      squeeze true ts
    else
      t :: squeeze (t == .newline) ts

theorem lineAfter_append (isLine : Bool) (ts us : List Token) :
    lineAfter isLine (ts ++ us) = lineAfter (lineAfter isLine ts) us := by
  rw [lineAfter, List.foldl_append]
  rfl

theorem lineAfter_of_getLast? (isLine : Bool) {ts : List Token} {t : Token}
    (h : ts.getLast? = some t) : lineAfter isLine ts = (t == .newline) := by
  obtain ⟨front, rfl⟩ := List.getLast?_eq_some_iff.mp h
  rw [lineAfter_append]
  rfl

theorem squeeze_append (isLine : Bool) (ts us : List Token) :
    squeeze isLine (ts ++ us) = squeeze isLine ts ++ squeeze (lineAfter isLine ts) us := by
  induction ts generalizing isLine with
  | nil => rfl
  | cons t ts ih =>
    rw [List.cons_append, squeeze, squeeze, ih, ih]
    have hafter : lineAfter isLine (t :: ts) = lineAfter (t == .newline) ts := rfl
    rw [hafter]
    split
    . next h =>
      rw [h.1]
      rfl
    . rfl

theorem squeeze_newline (ts : List Token) : squeeze true (.newline :: ts) = squeeze true ts := by
  rw [squeeze, if_pos ⟨rfl, rfl⟩]

theorem filter_squeeze (isLine : Bool) (ts : List Token) :
    (squeeze isLine ts).filter (· != .newline) = ts.filter (· != .newline) := by
  induction ts generalizing isLine with
  | nil => rfl
  | cons t ts ih =>
    rw [squeeze]
    split
    . next h =>
      rw [ih, h.1]
      rfl
    . rw [List.filter_cons, List.filter_cons, ih]

theorem isSpacing_of_isIndent {c : Char} (h : isIndent c = true ∨ c = '\r') :
    readPiece.isSpacing c = true := by
  unfold isIndent at h
  simp only [Bool.or_eq_true, beq_iff_eq] at h
  rcases h with (rfl | rfl) | rfl
  . decide
  . decide
  . decide

/--
Whether `c` is a place in the text of `ls`, which begins at the offset `start`. A removal in front
of this text has taken `blank` and `newline` from it. `isLine` tells whether a line begins there.
-/
structure Cursor.IsAt (c : Cursor) (start : Nat) (ls : List Lexeme) (isLine : Bool)
    (blank newline : List Char) : Prop where
  text_eq : textOf ls = blank ++ newline ++ c.rest
  offset_eq : c.offset = start + byteLength (blank ++ newline)
  isSpacing_blank : ∀ x ∈ blank, readPiece.isSpacing x = true
  newline_eq : newline = [] ∨ newline = ['\n'] ∧ isLine = true
  isLine_of_before : c.before = some '\n' → isLine = true
  start_of_before : c.before = none → start = 0

theorem Cursor.IsAt.exists_gap {c : Cursor} {start : Nat} {gap more : List Lexeme} {isLine : Bool}
    {blank newline : List Char} (h : c.IsAt start (gap ++ more) isLine blank newline)
    (hlaid : AreLaid start (gap ++ more))
    (hmore : ∀ x ∈ (textOf more).head?, readPiece.isSpacing x = false ∧ x ≠ '\n') :
    ∃ text ts, c.rest = text ++ textOf more
      ∧ c.offset + byteLength text = start + byteLength (textOf gap)
      ∧ Reads (textOf more) text ts
      ∧ (ts = tokensOf gap ∨ isLine = true ∧ tokensOf gap = .newline :: ts) := by
  have heaten : ∀ x ∈ blank ++ newline, readPiece.isSpacing x = true ∨ x = '\n' := by
    intro x hx
    rcases List.mem_append.mp hx with hx | hx
    . exact .inl (h.isSpacing_blank x hx)
    . rcases h.newline_eq with rfl | ⟨rfl, _⟩
      . cases hx
      . exact .inr (List.mem_singleton.mp hx)
  have hrest : ∃ text, textOf gap = blank ++ newline ++ text ∧ c.rest = text ++ textOf more := by
    have htext := h.text_eq
    rw [textOf_append] at htext
    rcases List.append_eq_append_iff.mp htext with ⟨eaten, hblank, hmore'⟩ | ⟨text, hgap, hrest⟩
    . cases eaten with
      | nil => exact ⟨[], by simpa using hblank.symm, by simpa using hmore'.symm⟩
      | cons x eaten =>
        -- A removal takes nothing from what is no white space.
        rw [hmore'] at hmore
        obtain ⟨hspacing, hnewline⟩ := hmore x rfl
        rcases heaten x (by simp [hblank]) with hx | hx
        . rw [hspacing] at hx
          cases hx
        . exact absurd hx hnewline
    . exact ⟨text, hgap, hrest⟩
  obtain ⟨text, hgap, hrest⟩ := hrest
  have hoffset := h.offset_eq
  have hreads := reads_of_areLaid hlaid
  rw [hgap, List.append_assoc] at hreads
  have hreads := hreads.of_spaces h.isSpacing_blank
  have hlength : c.offset + byteLength text = start + byteLength (textOf gap) := by
    rw [hgap, byteLength_append]
    omega
  rcases h.newline_eq with rfl | ⟨rfl, hline⟩
  . exact ⟨text, _, hrest, hlength, hreads, .inl rfl⟩
  . obtain ⟨ts, htokens, hreads⟩ := Reads.of_newline hreads
    exact ⟨text, ts, hrest, hlength, hreads, .inr ⟨hline, htokens⟩⟩

theorem squeeze_gap {isLine : Bool} {gap : List Lexeme} {ts : List Token}
    (h : ts = tokensOf gap ∨ isLine = true ∧ tokensOf gap = .newline :: ts) (us : List Token) :
    squeeze isLine (tokensOf gap ++ us) = squeeze isLine ts ++ squeeze (lineAfter isLine ts) us := by
  rw [← squeeze_append]
  rcases h with rfl | ⟨rfl, htokens⟩
  . rfl
  . rw [htokens, List.cons_append, squeeze_newline]

theorem getLast?_gap {isLine : Bool} {gap : List Lexeme} {ts : List Token}
    (h : ts = tokensOf gap ∨ isLine = true ∧ tokensOf gap = .newline :: ts) :
    ∀ t ∈ ts.getLast?, t ∈ (tokensOf gap).getLast? := by
  rcases h with rfl | ⟨_, htokens⟩
  . intro t ht
    exact ht
  . intro t ht
    rw [htokens, List.getLast?_cons, ht]
    rfl

namespace Passage

theorem Fits.head?_cut {start : Nat} {p : Passage} {rest : List Lexeme} (h : p.Fits start)
    (hlaid : AreLaid start (p.gap ++ (p.cut ++ rest))) :
    ∀ x ∈ (textOf (p.cut ++ rest)).head?, readPiece.isSpacing x = false ∧ x ≠ '\n' := by
  obtain ⟨l, more, hcut, hnewline, hblank⟩ := h.cut_eq
  have hlaid := hlaid.split
  rw [hcut] at hlaid
  obtain ⟨_, hspells, _, _⟩ := hlaid.cons
  obtain ⟨c, cs, htext⟩ := List.exists_cons_of_ne_nil hspells.ne_nil
  rw [htext] at hspells
  intro x hx
  rw [hcut, List.cons_append, textOf_cons, htext] at hx
  cases hx
  refine ⟨hspells.isSpacing_eq_false hblank, ?_⟩
  rintro rfl
  exact hnewline hspells.eq_newline.2

theorem Fits.getLast?_textOf_cut {start : Nat} {p : Passage} {rest : List Lexeme} (h : p.Fits start)
    (hlaid : AreLaid start (p.gap ++ (p.cut ++ rest))) :
    ∃ x, (textOf p.cut).getLast? = some x ∧ x ≠ '\n' := by
  obtain ⟨l, more, hcut, _⟩ := h.cut_eq
  have hlast := h.getLast?_cut
  have hlaid := hlaid.split
  rcases List.eq_nil_or_concat p.cut with hnil | ⟨front, l, hcut⟩
  . rw [hnil] at hcut
    cases hcut
  . rw [List.concat_eq_append] at hcut
    rw [hcut, List.append_assoc] at hlaid
    obtain ⟨_, hspells, _, _⟩ := hlaid.split.cons
    have hl := hlast l (by simp [hcut])
    cases hx : l.text.getLast? with
    | none => exact absurd (List.getLast?_eq_none_iff.mp hx) hspells.ne_nil
    | some x =>
      refine ⟨x, ?_, ?_⟩
      . simp [hcut, hx]
      . rintro rfl
        rw [hspells.eq_newline_of_getLast? hx] at hl
        cases hl

end Passage

def Edit.tokens : Edit → List Token
  | removal _ => []
  | replacement _ text =>
    match tokenize text with
    | .ok ls => tokensOf ls
    | .error _ => []

theorem Edit.tokens_payloadUnion (span : Span) {subtypes : List Ident} {params : List String}
    (hne : subtypes ≠ []) (hparams : ∀ p ∈ params, IsName p) :
    tokens (.replacement span (Client.payloadUnion subtypes params).render)
      = (Client.payloadUnion subtypes params).tokens := by
  obtain ⟨ls, hls, htokens⟩ := lexes_of_reads (Client.reads_payloadUnion hne hparams []) 0
  rw [tokens, tokenize_eq_ok.mpr hls]
  exact htokens

theorem Edit.reads_tokens {start : Nat} {gap : List Lexeme} {span : Span} {text : List Char}
    (h : Follows start gap (.replacement span text)) (rest : List Char) :
    Reads rest text (tokens (.replacement span text)) ∧ text.head? = some '(' := by
  obtain ⟨⟨subtypes, params, hne, hparams, rfl⟩, _⟩ := h
  obtain ⟨cs, hcs⟩ := Client.render_payloadUnion_eq_cons hne params
  refine ⟨?_, by rw [hcs]; rfl⟩
  rw [tokens_payloadUnion span hne hparams]
  exact Client.reads_payloadUnion hne hparams rest

theorem Passage.AllFit.exists_tokenize {start : Nat} {ps : List Passage} (h : AllFit start ps) :
    ∀ e ∈ editsOf ps, ∃ ls, tokenize e.text = .ok ls := by
  have hremoval : ∀ span, ∃ ls, tokenize (Edit.removal span).text = .ok ls :=
    fun _ => ⟨[], tokenize_eq_ok.mpr .nil⟩
  induction ps generalizing start with
  | nil =>
    intro e he
    cases he
  | cons p ps ih =>
    obtain ⟨hp, hps⟩ := h
    intro e he
    rcases List.mem_append.mp he with he | he
    . rcases List.mem_cons.mp he with rfl | he
      . have hfollows := hp.follows
        cases hedit : p.edit with
        | removal span => exact hremoval span
        | replacement span text =>
          rw [hedit] at hfollows
          obtain ⟨ls, hls, _⟩ := lexes_of_reads (Edit.reads_tokens hfollows []).1 0
          exact ⟨ls, tokenize_eq_ok.mpr hls⟩
      . obtain ⟨⟨span, rfl⟩, _⟩ := hp.inner e he
        exact hremoval span
    . exact ih hps e he

def Passage.outcome (ps : List Passage) (tail : List Lexeme) : List Token :=
  ps.flatMap (fun p => tokensOf p.gap ++ p.edit.tokens) ++ tokensOf tail

theorem Passage.outcome_cons (p : Passage) (ps : List Passage) (tail : List Lexeme) :
    outcome (p :: ps) tail = tokensOf p.gap ++ (p.edit.tokens ++ outcome ps tail) := by
  simp [outcome]

theorem Cursor.isAt_behind {c : Cursor} {start : Nat} {p : Passage} {text : List Char}
    {rest : List Lexeme} (hfit : p.Fits start) (hlaid : AreLaid start (p.gap ++ (p.cut ++ rest)))
    (hlength : c.offset + byteLength text = start + byteLength (textOf p.gap)) (isLine : Bool) :
    ((c.behind text (textOf p.cut ++ textOf rest)).behind (textOf p.cut) (textOf rest)).IsAt
      (start + byteLength (textOf p.lexemes)) rest isLine [] [] := by
  obtain ⟨x, hlast, hx⟩ := hfit.getLast?_textOf_cut hlaid
  constructor
  . rfl
  . simp only [behind, lexemes, textOf_append, byteLength_append, List.append_nil, byteLength_nil]
    omega
  . simp
  . exact .inl rfl
  . intro hbefore
    simp only [behind, hlast, Option.some_or, Option.some.injEq] at hbefore
    exact absurd hbefore hx
  . intro hbefore
    simp only [behind, hlast, Option.some_or] at hbefore
    cases hbefore

theorem Cursor.isAt_of_isWidening {c stop : Cursor} {start : Nat} {rest : List Lexeme} {span : Span}
    {kept indent eaten : List Char} {w : Widening} {isLine : Bool}
    (hstop : stop.IsAt start rest false [] [])
    (hw : IsWidening c span stop kept indent eaten w)
    (hline : (∀ x, kept.getLast?.or c.before = some x → x = '\n') → isLine = true) :
    ∃ blank newline, w.cursor.IsAt start rest isLine blank newline := by
  obtain ⟨blank, newline, rfl, hblank, hnewline⟩ := hw.eaten_eq
  have hnewline : newline = [] ∨ newline = ['\n'] ∧ isLine = true := by
    rcases hnewline with hnil | ⟨hnewline, hbefore⟩
    . exact .inl hnil
    . exact .inr ⟨hnewline, hline hbefore⟩
  refine ⟨blank, newline, ?_, ?_, fun x hx => isSpacing_of_isIndent (hblank x hx), hnewline, ?_, ?_⟩
  . rw [← hw.rest_eq]
    exact hstop.text_eq
  . rw [hw.offset_eq, hstop.offset_eq]
    rfl
  . intro hbefore
    rcases hnewline with rfl | ⟨_, hline⟩
    . rw [hw.before_eq, List.append_nil] at hbefore
      cases hx : blank.getLast? with
      | none =>
        rw [hx, Option.none_or] at hbefore
        cases hstop.isLine_of_before hbefore
      | some x =>
        rw [hx] at hbefore
        cases hbefore
        have := isSpacing_of_isIndent (hblank _ (List.mem_of_getLast? hx))
        exact absurd this (by decide)
    . exact hline
  . intro hbefore
    rw [hw.before_eq, Option.or_eq_none_iff] at hbefore
    exact hstop.start_of_before hbefore.2

theorem Cursor.IsAt.lineAfter_of_stays {c : Cursor} {start : Nat} {gap ls : List Lexeme}
    {isLine : Bool} {blank newline kept rest : List Char} {ts : List Token}
    (hc : c.IsAt start ls isLine blank newline) (hkept : Reads rest kept ts)
    (hts : ts = tokensOf gap ∨ isLine = true ∧ tokensOf gap = .newline :: ts)
    (hgap : start = 0 → tokensOf gap ≠ [])
    (hall : ∀ x, kept.getLast?.or c.before = some x → x = '\n') : lineAfter isLine ts = true := by
  cases hx : kept.getLast? with
  | some x =>
    -- The text that stays ends with a line break.
    have hx' : x = '\n' := hall x (by rw [hx]; rfl)
    rw [hx'] at hx
    exact lineAfter_of_getLast? isLine (hkept.getLast?_eq_newline hx)
  | none =>
    -- Nothing stays, so that the line begins where it did in front of the passage.
    rw [List.getLast?_eq_none_iff.mp hx] at hkept
    have hnil := hkept.eq_nil
    subst hnil
    rcases hts with hgap' | ⟨hline, _⟩
    . cases hbefore : c.before with
      | none => exact absurd hgap'.symm (hgap (hc.start_of_before hbefore))
      | some x =>
        apply hc.isLine_of_before
        rw [hbefore, hall x (by rw [hx, hbefore]; rfl)]
    . exact hline

/--
Whether `text` is what the edits of the passages `ps` leave of their lexemes and of `tail` behind
them. It has the tokens of each gap, but a line break at the start of a gap may be missing where a
line begins already. `isLine` tells whether one begins in front of all of them.
-/
inductive Passage.ResultsIn : (isLine : Bool) → List Passage → List Lexeme → List Char → Prop where
  | nil {isLine : Bool} {tail : List Lexeme} {text : List Char} {ts : List Token}
    (hreads : Reads [] text ts)
    (hts : ts = tokensOf tail ∨ isLine = true ∧ tokensOf tail = .newline :: ts) :
    ResultsIn isLine [] tail text
  | cons {isLine : Bool} {p : Passage} {ps : List Passage} {tail : List Lexeme}
    {text rest : List Char} {ts : List Token} (hreads : Reads (p.edit.text ++ rest) text ts)
    (hts : ts = tokensOf p.gap ∨ isLine = true ∧ tokensOf p.gap = .newline :: ts)
    (hnew : Reads rest p.edit.text p.edit.tokens)
    (htail : ResultsIn (lineAfter (lineAfter isLine ts) p.edit.tokens) ps tail rest) :
    ResultsIn isLine (p :: ps) tail (text ++ (p.edit.text ++ rest))

theorem Passage.exists_resultsIn {ps : List Passage} {tail : List Lexeme} {start : Nat} {c : Cursor}
    {isLine : Bool} {blank newline : List Char} (hfit : AllFit start ps)
    (hlaid : AreLaid start (lexemesOf ps ++ tail))
    (hc : c.IsAt start (lexemesOf ps ++ tail) isLine blank newline) :
    ∃ s, spliceFrom c (ps.map edit) = .ok s ∧ ResultsIn isLine ps tail s.text := by
  induction ps generalizing start c isLine blank newline with
  | nil =>
    have htail : AreLaid start (tail ++ []) := by
      simpa [lexemesOf] using hlaid
    have hc : c.IsAt start (tail ++ []) isLine blank newline := by
      simpa [lexemesOf] using hc
    obtain ⟨text, ts, hrest, _, hreads, hts⟩ := hc.exists_gap htail (by simp)
    rw [textOf_nil, List.append_nil] at hrest
    subst hrest
    exact ⟨⟨c.rest, []⟩, rfl, .nil hreads hts⟩
  | cons p ps ih =>
    obtain ⟨hp, hps⟩ := hfit
    have hlexemes : lexemesOf (p :: ps) ++ tail = p.gap ++ (p.cut ++ (lexemesOf ps ++ tail)) := by
      simp [lexemesOf, lexemes]
    rw [hlexemes] at hlaid hc
    generalize hrest' : lexemesOf ps ++ tail = rest at *
    have hlaid' : AreLaid (start + byteLength (textOf p.lexemes)) rest := by
      apply AreLaid.split
      rw [lexemes, List.append_assoc]
      exact hlaid
    obtain ⟨text, ts, hrest, hlength, hreads, hts⟩ := hc.exists_gap hlaid (hp.head?_cut hlaid)
    rw [textOf_append] at hrest hreads
    have hlast := getLast?_gap hts
    have hspan := hp.span_eq
    have hstart : p.edit.span.start = c.offset + byteLength text := by
      rw [hspan, hlength]
    have hstop : p.edit.span.stop = p.edit.span.start + byteLength (textOf p.cut) := by
      rw [hspan]
    have hfollows := hp.follows
    rw [List.map_cons]
    cases hedit : p.edit with
    | replacement span union =>
      rw [hedit] at hstart hstop hfollows
      simp only [Edit.span] at hstart hstop
      have hat := Cursor.isAt_behind (c := c) hp hlaid hlength
        (lineAfter (lineAfter isLine ts) p.edit.tokens)
      subst hrest'
      obtain ⟨s, hs, hresult⟩ := ih hps hlaid' hat
      obtain ⟨hunion, hparen⟩ := Edit.reads_tokens hfollows s.text
      have hreads : Reads (p.edit.text ++ s.text) text ts := by
        apply hreads.before
        intro t ht
        rcases hfollows.2 t (hlast t ht) with hsecure | rfl
        . exact Token.endsBefore_of_isSecure hsecure _
        . refine ⟨by simp, ?_⟩
          rw [hedit, Edit.text]
          cases union with
          | nil => cases hparen
          | cons x union =>
            cases hparen
            rfl
      refine ⟨⟨text ++ union ++ s.text, span :: s.taken⟩, ?_, ?_⟩
      . rw [spliceFrom_replacement hrest hstart hstop, hs]
        rfl
      . have htext : text ++ union ++ s.text = text ++ (p.edit.text ++ s.text) := by
          rw [hedit, Edit.text, List.append_assoc]
        rw [htext]
        apply ResultsIn.cons hreads hts _ hresult
        rw [hedit]
        exact hunion
    | removal span =>
      rw [hedit] at hstart hstop hfollows
      simp only [Edit.span] at hstart hstop
      obtain ⟨kept, indent, eaten, w, rfl, hw, hsplice⟩ := spliceFrom_removal hrest hstart hstop
      have hindent : ∀ x ∈ indent, readPiece.isSpacing x = true :=
        fun x hx => isSpacing_of_isIndent (.inl (hw.all_indent x hx))
      have hkept := hreads.strip hindent fun t ht => hfollows.1 t (hlast t ht)
      have hat := Cursor.isAt_behind (c := c) hp hlaid hlength false
      obtain ⟨blank', newline', hat'⟩ := Cursor.isAt_of_isWidening hat hw
        (hc.lineAfter_of_stays hkept hts hfollows.2)
      subst hrest'
      obtain ⟨s, hs, hresult⟩ := ih hps hlaid' hat'
      have hkept : Reads (p.edit.text ++ s.text) kept ts := by
        apply hkept.before
        intro t ht
        exact Token.endsBefore_of_isSecure (hfollows.1 t (hlast t ht)) _
      refine ⟨⟨kept ++ s.text, w.span :: s.taken⟩, ?_, ?_⟩
      . rw [hsplice, hs]
        rfl
      . have htext : kept ++ s.text = kept ++ (p.edit.text ++ s.text) := by
          rw [hedit]
          rfl
        rw [htext]
        apply ResultsIn.cons hkept hts
        . rw [hedit]
          exact .nil
        . rw [hedit]
          exact hresult

theorem Passage.ResultsIn.exists_reads {isLine : Bool} {ps : List Passage} {tail : List Lexeme}
    {text : List Char} (h : ResultsIn isLine ps tail text) :
    ∃ out, Reads [] text out ∧ squeeze isLine out = squeeze isLine (outcome ps tail) := by
  induction h with
  | nil hreads hts =>
    have hsqueeze := squeeze_gap hts []
    rw [List.append_nil] at hsqueeze
    exact ⟨_, hreads, by simpa [outcome, squeeze] using hsqueeze.symm⟩
  | @cons isLine p ps tail text rest ts hreads hts hnew _ ih =>
    obtain ⟨out, hout, hsqueeze⟩ := ih
    refine ⟨ts ++ (p.edit.tokens ++ out), ?_, ?_⟩
    . apply Reads.append
      . rwa [List.append_nil]
      . apply Reads.append _ hout
        rwa [List.append_nil]
    . rw [outcome_cons, squeeze_gap hts, squeeze_append, squeeze_append, hsqueeze, squeeze_append]

/--
What `edits`, the outer ones first, leave of a lexeme. An edit puts its tokens in place of the first
of those it takes.
-/
def survivorsAt (edits : List Edit) (l : Lexeme) : List Token :=
  match edits.find? (·.span.contains l.span) with
  | some e => if l.start = e.span.start then e.tokens else []
  | none => tokensOf [l]

def survivors (edits : List Edit) (ls : List Lexeme) : List Token :=
  ls.flatMap (survivorsAt edits)

theorem survivors_append (edits : List Edit) (ls ms : List Lexeme) :
    survivors edits (ls ++ ms) = survivors edits ls ++ survivors edits ms := by
  simp [survivors]

theorem Lexeme.AreLaid.bounds {start : Nat} {ls more : List Lexeme} (h : AreLaid start (ls ++ more)) :
    ∀ l ∈ ls, start ≤ l.start ∧ l.start < l.stop ∧ l.stop ≤ start + byteLength (textOf ls) := by
  induction ls generalizing start with
  | nil => simp
  | cons l ls ih =>
    rw [List.cons_append] at h
    obtain ⟨hstart, hspells, _, htail⟩ := h.cons
    have hpos := hspells.byteLength_pos
    have hstop : l.stop = start + byteLength l.text := by
      rw [Lexeme.stop, hstart]
    rw [textOf_cons, byteLength_append]
    intro x hx
    rcases List.mem_cons.mp hx with rfl | hx
    . omega
    . have := ih htail x hx
      omega

theorem survivors_of_not_contains {edits more : List Edit} {ls : List Lexeme}
    (h : ∀ e ∈ edits, ∀ l ∈ ls, e.span.contains l.span = false) :
    survivors (edits ++ more) ls = survivors more ls := by
  unfold survivors
  apply List.flatMap_congr
  intro l hl
  have hnone : edits.find? (·.span.contains l.span) = none := by
    rw [List.find?_eq_none]
    intro e he
    rw [h e he l hl]
    simp
  unfold survivorsAt
  rw [List.find?_append, hnone, Option.none_or]

theorem survivors_nil (ls : List Lexeme) : survivors [] ls = tokensOf ls := by
  induction ls with
  | nil => rfl
  | cons l ls ih =>
    have : survivors [] (l :: ls) = tokensOf [l] ++ survivors [] ls := rfl
    rw [this, ih, ← tokensOf_append]
    rfl

theorem survivorsAt_of_contains {e : Edit} {more : List Edit} {l : Lexeme}
    (h : e.span.contains l.span = true) :
    survivorsAt (e :: more) l = if l.start = e.span.start then e.tokens else [] := by
  have hfind : (e :: more).find? (·.span.contains l.span) = some e := by
    rw [List.find?_cons, h]
  rw [survivorsAt, hfind]

theorem survivors_of_contains {e : Edit} {more : List Edit} {l : Lexeme} {ls : List Lexeme}
    (hfirst : l.start = e.span.start) (hcontains : ∀ x ∈ l :: ls, e.span.contains x.span = true)
    (hstart : ∀ x ∈ ls, x.start ≠ e.span.start) :
    survivors (e :: more) (l :: ls) = e.tokens := by
  have hls : survivors (e :: more) ls = [] := by
    unfold survivors
    rw [List.flatMap_eq_nil_iff]
    intro x hx
    rw [survivorsAt_of_contains (hcontains x (.tail _ hx)), if_neg (hstart x hx)]
  show survivorsAt (e :: more) l ++ survivors (e :: more) ls = _
  rw [survivorsAt_of_contains (hcontains l (.head _)), if_pos hfirst, hls, List.append_nil]

theorem Span.contains_eq_false {a b : Span} (h : b.start < a.start ∨ a.stop < b.stop) :
    a.contains b = false := by
  simp only [contains, Bool.and_eq_false_iff, decide_eq_false_iff_not]
  omega

namespace Passage

theorem Fits.edits_bounds {start : Nat} {p : Passage} (h : p.Fits start) :
    ∀ e ∈ p.edits, start + byteLength (textOf p.gap) ≤ e.span.start
      ∧ e.span.stop ≤ start + byteLength (textOf p.lexemes) := by
  have hspan := h.span_eq
  intro e he
  rw [lexemes, textOf_append, byteLength_append]
  rcases List.mem_cons.mp he with rfl | he
  . rw [hspan]
    dsimp only
    omega
  . have := (h.inner e he).2
    rw [hspan] at this
    dsimp only at this
    omega

theorem AllFit.edits_bounds {start : Nat} {ps : List Passage} (h : AllFit start ps) :
    ∀ e ∈ editsOf ps, start ≤ e.span.start := by
  induction ps generalizing start with
  | nil =>
    intro e he
    cases he
  | cons p ps ih =>
    intro e he
    rcases List.mem_append.mp he with he | he
    . have := h.1.edits_bounds e he
      omega
    . have := ih h.2 e he
      omega

theorem survivors_editsOf {start : Nat} {ps : List Passage} {tail : List Lexeme}
    (hfit : AllFit start ps) (hlaid : AreLaid start (lexemesOf ps ++ tail)) :
    survivors (editsOf ps) (lexemesOf ps ++ tail) = outcome ps tail := by
  induction ps generalizing start with
  | nil =>
    show survivors [] tail = _
    rw [survivors_nil]
    rfl
  | cons p ps ih =>
    obtain ⟨hp, hps⟩ := hfit
    have hlexemes : lexemesOf (p :: ps) ++ tail = p.gap ++ (p.cut ++ (lexemesOf ps ++ tail)) := by
      simp [lexemesOf, lexemes]
    have hedits : editsOf (p :: ps) = p.edits ++ editsOf ps := rfl
    rw [hlexemes] at hlaid ⊢
    have hlaid' : AreLaid (start + byteLength (textOf p.lexemes)) (lexemesOf ps ++ tail) := by
      apply AreLaid.split
      rw [lexemes, List.append_assoc]
      exact hlaid
    have hgap := hlaid.bounds
    have hcut := hlaid.split.bounds
    have hspan := hp.span_eq
    have hbounds := hp.edits_bounds
    rw [lexemes, textOf_append, byteLength_append] at hbounds
    have hgap' : survivors (p.edits ++ editsOf ps) p.gap = tokensOf p.gap := by
      rw [← survivors_nil, ← List.append_nil (p.edits ++ editsOf ps)]
      apply survivors_of_not_contains
      intro e he l hl
      apply Span.contains_eq_false
      have hl := hgap l hl
      have he : start + byteLength (textOf p.gap) ≤ e.span.start := by
        rcases List.mem_append.mp he with he | he
        . exact (hbounds e he).1
        . have := hps.edits_bounds e he
          rw [lexemes, textOf_append, byteLength_append] at this
          omega
      simp only [Lexeme.span]
      omega
    have hcut' : survivors (p.edits ++ editsOf ps) p.cut = p.edit.tokens := by
      obtain ⟨l, more, hmore, _⟩ := hp.cut_eq
      rw [hmore] at hlaid hcut hspan ⊢
      obtain ⟨hstart, hspells, _, htail⟩ := hlaid.split.cons
      apply survivors_of_contains
      . rw [hstart, hspan]
      . intro x hx
        have := hcut x hx
        rw [Span.contains, Bool.and_eq_true, decide_eq_true_eq, decide_eq_true_eq, hspan]
        exact ⟨this.1, this.2.2⟩
      . intro x hx
        have := htail.bounds x hx
        have hpos := hspells.byteLength_pos
        rw [Lexeme.stop, hstart] at this
        rw [hspan]
        dsimp only
        omega
    have hrest : survivors (p.edits ++ editsOf ps) (lexemesOf ps ++ tail) = outcome ps tail := by
      rw [← ih hps hlaid']
      apply survivors_of_not_contains
      intro e he l hl
      apply Span.contains_eq_false
      have he := hbounds e he
      rw [← List.append_nil (lexemesOf ps ++ tail)] at hlaid'
      have hl := hlaid'.bounds l hl
      rw [lexemes, textOf_append, byteLength_append] at hl
      simp only [Lexeme.span]
      omega
    rw [hedits, survivors_append, survivors_append, hgap', hcut', hrest, outcome_cons]

end Passage

end Delegation
