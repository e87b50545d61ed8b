import Delegation.Proofs.LineMarks

/-!
This module contains how the edits of a declaration file divide its lexemes. Each edit begins and
ends where lexemes do, and what stays in front of it ends with a token that does not go on.
-/

namespace Delegation

open Item Lexeme

/--
The lexemes behind an edit up to the end of the next one: those that stay, and those that this edit
takes. The edits inside it change nothing.
-/
structure Passage where
  gap : List Lexeme
  cut : List Lexeme
  edit : Edit
  inner : List Edit

namespace Passage

def lexemes (p : Passage) : List Lexeme :=
  p.gap ++ p.cut

def edits (p : Passage) : List Edit :=
  p.edit :: p.inner

def lexemesOf (ps : List Passage) : List Lexeme :=
  ps.flatMap lexemes

def editsOf (ps : List Passage) : List Edit :=
  ps.flatMap edits

def Follows (start : Nat) (gap : List Lexeme) : Edit → Prop
  | .removal _ => (∀ t ∈ (tokensOf gap).getLast?, t.isSecure = true)
    ∧ (start = 0 → tokensOf gap ≠ [])
  | .replacement _ text => (∃ subtypes params, subtypes ≠ [] ∧ (∀ p ∈ params, IsName p)
      ∧ text = (Client.payloadUnion subtypes params).render)
    ∧ ∀ t ∈ (tokensOf gap).getLast?, t.isSecure = true ∨ t = .sign .equals

structure Fits (start : Nat) (p : Passage) : Prop where
  span_eq : p.edit.span = ⟨start + byteLength (textOf p.gap),
    start + byteLength (textOf p.gap) + byteLength (textOf p.cut)⟩
  cut_eq : ∃ l more, p.cut = l :: more ∧ l.token ≠ .newline ∧ l.token ≠ .whitespace
  getLast?_cut : ∀ l ∈ p.cut.getLast?, l.token.isTrivia = false
  follows : Follows start p.gap p.edit
  inner : ∀ e ∈ p.inner, (∃ span, e = .removal span)
    ∧ p.edit.span.start < e.span.start ∧ e.span.stop ≤ p.edit.span.stop

def AllFit (start : Nat) : List Passage → Prop
  | [] => True
  | p :: ps => p.Fits start ∧ AllFit (start + byteLength (textOf p.lexemes)) ps

/--
Whether the lexemes of the passages `ps`, and `tail` behind them, are those of the stretches `ss`.
Each passage has the items that stay in front of its edit.
-/
inductive AreThoseOf : List Stretch → List Passage → List Lexeme → Prop where
  | nil {items : List Item} {tail : List Lexeme}
    (htail : lineMarks false (tokensOf tail) = items.map lineMark) :
    AreThoseOf (items.map .kept) [] tail
  | removed {items more : List Item} {first : Item} {ss : List Stretch} {p : Passage}
    {ps : List Passage} {tail : List Lexeme} {span : Span}
    (hgap : lineMarks false (tokensOf p.gap) = items.map lineMark)
    (hline : first.isOnNewLine = isBrokenBehind false (tokensOf p.gap))
    (hedit : p.edit = .removal span) (htail : AreThoseOf ss ps tail) :
    AreThoseOf (items.map .kept ++ .removed first more :: ss) (p :: ps) tail
  | replaced {items more : List Item} {first : Item} {ss : List Stretch} {p : Passage}
    {ps : List Passage} {tail : List Lexeme} {span : Span} {text : List Char} {inner : List Edit}
    (hgap : lineMarks false (tokensOf p.gap) = items.map lineMark)
    (hedit : p.edit = .replacement span text)
    (htext : ∃ subtypes params, subtypes ≠ [] ∧ (∀ p ∈ params, IsName p)
      ∧ text = (Client.payloadUnion subtypes params).render) (htail : AreThoseOf ss ps tail) :
    AreThoseOf (items.map .kept ++ .replaced first more text inner :: ss) (p :: ps) tail

end Passage

theorem Token.cases_of_isTrivia {token : Token} (h : token.isTrivia = true) :
    token = .newline ∨ token = .whitespace ∨ (∃ comment, token = .blockComment comment)
      ∨ ∃ comment, token = .lineComment comment := by
  unfold isTrivia at h
  split at h
  . exact .inr (.inr (.inr ⟨_, rfl⟩))
  . exact .inr (.inr (.inl ⟨_, rfl⟩))
  . exact .inr (.inl rfl)
  . exact .inl rfl
  . cases h

theorem Lexeme.AreLaid.isSecure_of_isTrivia {start : Nat} {trivia rest : List Lexeme} {l : Lexeme}
    (h : AreLaid start (trivia ++ l :: rest)) (htrivia : ∀ x ∈ trivia, x.token.isTrivia = true)
    (hl : l.token ≠ .newline) : ∀ t ∈ (tokensOf trivia).getLast?, t.isSecure = true := by
  induction trivia using List.reverseRecOn generalizing l rest with
  | nil => simp
  | append_singleton trivia x ih =>
    rw [List.append_assoc, List.singleton_append] at h
    obtain ⟨_, _, hends, hlaid⟩ := h.split.cons
    intro t ht
    rcases Token.cases_of_isTrivia (htrivia x (by simp)) with hx | hx | ⟨comment, hx⟩ | ⟨comment, hx⟩
    . rw [tokensOf_concat _ (by simp [hx]), List.getLast?_concat, hx] at ht
      cases ht
      rfl
    . have htokens : tokensOf (trivia ++ [x]) = tokensOf trivia := by
        simp [tokensOf, hx]
      rw [htokens] at ht
      exact ih h (fun y hy => htrivia y (List.mem_append_left _ hy)) (by simp [hx]) t ht
    . rw [tokensOf_concat _ (by simp [hx]), List.getLast?_concat, hx] at ht
      cases ht
      rfl
    . -- The line of a line comment goes on to the line break.
      obtain ⟨_, hspells, _, _⟩ := hlaid.cons
      obtain ⟨c, cs, htext⟩ := List.exists_cons_of_ne_nil hspells.ne_nil
      rw [textOf_cons, htext, hx] at hends
      have hc : c = '\n' := by
        simpa [Token.endsBefore] using hends
      rw [htext, hc] at hspells
      exact absurd hspells.eq_newline.2 hl

theorem Gap.exists_lead {start : Nat} {trivia rest : List Lexeme} {l : Lexeme}
    (h : AreLaid start (trivia ++ l :: rest)) (htrivia : ∀ x ∈ trivia, x.token.isTrivia = true)
    (hl : l.token.isTrivia = false) :
    ∃ front back, trivia = front ++ back
      ∧ (ofLexeme (Gap.empty.pushAll trivia) l).lead = start + byteLength (textOf front)
      ∧ (∃ x more, back ++ [l] = x :: more ∧ x.token ≠ .newline ∧ x.token ≠ .whitespace)
      ∧ ((ofLexeme (Gap.empty.pushAll trivia) l).isOnNewLine = true →
        (tokensOf front).getLast? = some .newline)
      ∧ (ofLexeme (Gap.empty.pushAll trivia) l).isOnNewLine
        = isBrokenBehind false (tokensOf front) := by
  obtain ⟨hnewline, hnone, hlast, hcomment⟩ := Gap.pushAll_empty trivia htrivia
  unfold ofLexeme
  dsimp only
  cases hgap : (Gap.empty.pushAll trivia).comment with
  | none =>
    refine ⟨trivia, [], by simp, h.split.cons.1, ⟨l, [], rfl, Token.ne_of_isTrivia hl⟩,
      fun hline => hlast hline hgap, ?_⟩
    rw [Bool.eq_iff_iff, hnewline, isBrokenBehind_trivia false (isTrivia_of_mem_tokensOf htrivia)]
    simp
  | some comment =>
    obtain ⟨before, x, after, heq, hstart, hbreak, hx⟩ := hcomment comment hgap
    refine ⟨before, x :: after, heq, ?_, ⟨x, after ++ [l], rfl, hx⟩, fun _ => hbreak, ?_⟩
    . rw [heq, List.append_assoc] at h
      rw [Option.getD_some, ← hstart]
      exact h.split.cons.1
    . have hbefore : ∀ y ∈ before, y.token.isTrivia = true := by
        intro y hy
        apply htrivia
        rw [heq]
        exact List.mem_append_left _ hy
      have hmem := List.mem_of_getLast? hbreak
      rw [Bool.eq_iff_iff, hnewline, isBrokenBehind_trivia false (isTrivia_of_mem_tokensOf hbefore),
        heq, tokensOf_append]
      simp [hmem]

theorem Lexeme.AreLaid.exists_cut {start : Nat} {kept ls : List Lexeme} {first : Item}
    {more items : List Item} (hls : AreLaid start (kept ++ ls))
    (h : itemsFrom .empty ls = first :: (more ++ items)) :
    ∃ trivia l used rest, ls = trivia ++ l :: (used ++ rest)
      ∧ (∀ x ∈ trivia, x.token.isTrivia = true) ∧ l.token.isTrivia = false
      ∧ first = ofLexeme (Gap.empty.pushAll trivia) l
      ∧ first.span.start = start + byteLength (textOf (kept ++ trivia))
      ∧ stopAfter first.span.stop more
        = start + byteLength (textOf (kept ++ trivia)) + byteLength (textOf (l :: used))
      ∧ (∀ x ∈ (l :: used).getLast?, x.token.isTrivia = false) ∧ 0 < byteLength (textOf (l :: used))
      ∧ items = itemsFrom .empty rest := by
  obtain ⟨trivia, l, rest, rfl, htrivia, hl, rfl, htail⟩ := itemsFrom_eq_cons h
  obtain ⟨hstart, hspells, _, hrest⟩ := hls.split.split.cons
  obtain ⟨used, rest, rfl, hused, hstop, hitems⟩ := itemsFrom_eq_append hrest htail.symm
  have hpos := hspells.byteLength_pos
  refine ⟨trivia, l, used, rest, rfl, htrivia, hl, rfl, ?_, ?_, ?_, ?_, hitems⟩
  . simp only [textOf_append, byteLength_append, ofLexeme, Lexeme.span]
    omega
  . refine hstop.trans ?_
    simp only [textOf_append, textOf_cons, byteLength_append, Lexeme.stop]
    omega
  . intro x hx
    rw [List.getLast?_cons] at hx
    cases hnil : used.getLast? with
    | none =>
      rw [hnil] at hx
      cases hx
      exact hl
    | some y =>
      rw [hnil] at hx
      cases hx
      exact hused y hnil
  . rw [textOf_cons, byteLength_append]
    omega

theorem getLast?_tokensOf_append {kept trivia : List Lexeme} {last : Option Token}
    (hkept : ∀ l ∈ kept.getLast?, l.token.isTrivia = false ∧ last = some l.token)
    (htrivia : ∀ t ∈ (tokensOf trivia).getLast?, t.isSecure = true) :
    ∀ t ∈ (tokensOf (kept ++ trivia)).getLast?, t.isSecure = true
      ∨ tokensOf trivia = [] ∧ last = some t := by
  intro t ht
  rw [tokensOf_append, List.getLast?_append] at ht
  cases hnil : (tokensOf trivia).getLast? with
  | some t' =>
    rw [hnil] at ht
    cases ht
    exact .inl (htrivia t hnil)
  | none =>
    rw [hnil, Option.none_or] at ht
    refine .inr ⟨List.getLast?_eq_none_iff.mp hnil, ?_⟩
    rcases List.eq_nil_or_concat kept with rfl | ⟨front, l, rfl⟩
    . cases ht
    . rw [List.concat_eq_append] at hkept ht
      obtain ⟨hl, hlast⟩ := hkept l (by simp)
      rw [tokensOf_concat _ (Token.ne_of_isTrivia hl).2, List.getLast?_concat] at ht
      cases ht
      exact hlast

theorem eq_nil_of_tokensOf {kept : List Lexeme}
    (hkept : ∀ l ∈ kept.getLast?, l.token.isTrivia = false) (h : tokensOf kept = []) : kept = [] := by
  rcases List.eq_nil_or_concat kept with rfl | ⟨front, l, rfl⟩
  . rfl
  . rw [List.concat_eq_append] at hkept h
    have hl := hkept l (by simp)
    rw [tokensOf_concat _ (Token.ne_of_isTrivia hl).2] at h
    simp at h

namespace Passage

section

variable {kept ls : List Lexeme} {items behind more : List Item} {first : Item}
  {last : Option Token} {start : Nat}

theorem exists_removed (hls : AreLaid start (kept ++ ls))
    (hitems : itemsFrom .empty ls = first :: (more ++ behind))
    (hfit : (Stretch.removed first more).Fits last)
    (hkept : ∀ l ∈ kept.getLast?, l.token.isTrivia = false ∧ last = some l.token)
    (hlast : start = 0 → kept = [] → last = none)
    (hmarks : lineMarks false (tokensOf kept) = items.map lineMark) :
    ∃ p rest, kept ++ ls = p.lexemes ++ rest ∧ p.Fits start ∧ 0 < byteLength (textOf p.lexemes)
      ∧ behind = itemsFrom .empty rest
      ∧ p.edits = [.removal ⟨first.lead, stopAfter first.span.stop more⟩]
      ∧ ∀ {ss ps tail}, AreThoseOf ss ps tail →
        AreThoseOf (items.map .kept ++ .removed first more :: ss) (p :: ps) tail := by
  obtain ⟨trivia, l, used, rest, rfl, htrivia, hl, rfl, _, hstop, hused, hpos, htail⟩ :=
    hls.exists_cut hitems
  obtain ⟨front, back, rfl, hlead, ⟨x, others, hcut, hx⟩, hline, hbreak⟩ :=
    Gap.exists_lead hls.split htrivia hl
  have hback (more : List Lexeme) : back ++ l :: more = x :: (others ++ more) := by
    rw [← List.singleton_append, ← List.append_assoc, hcut]
    rfl
  have hsecure : ∀ t ∈ (tokensOf front).getLast?, t.isSecure = true := by
    have hlaid := hls.split
    rw [List.append_assoc, hback] at hlaid
    exact hlaid.isSecure_of_isTrivia (fun y hy => htrivia y (List.mem_append_left _ hy)) hx.1
  have hgap := getLast?_tokensOf_append hkept hsecure
  generalize ofLexeme (Gap.empty.pushAll (front ++ back)) l = first at *
  refine ⟨⟨kept ++ front, back ++ l :: used, .removal ⟨first.lead, _⟩, []⟩, rest, ?_,
    ⟨?_, ⟨x, others ++ used, hback used, hx⟩, ?_, ⟨?_, ?_⟩, by simp⟩, ?_, htail, rfl, ?_⟩
  . simp [lexemes]
  . simp only [Edit.span, Span.mk.injEq]
    simp only [textOf_append, byteLength_append] at hlead hstop ⊢
    omega
  . intro y hy
    apply hused y
    simpa [List.getLast?_append, List.getLast?_cons] using hy
  . intro t ht
    rcases hgap t ht with hsecure | ⟨hnil, hlast⟩
    . exact hsecure
    . rcases hfit.1 with hline' | hlast' | hlast' | hlast'
      . rw [hnil] at hline
        cases hline hline'
      all_goals
        rw [hlast, Option.some.injEq] at hlast'
        rw [hlast']
        rfl
  . intro hzero hnil
    rw [tokensOf_append, List.append_eq_nil_iff] at hnil
    have hlast := hlast hzero (eq_nil_of_tokensOf (fun y hy => (hkept y hy).1) hnil.1)
    rcases hfit.1 with hline' | hlast' | hlast' | hlast'
    . rw [hnil.2] at hline
      cases hline hline'
    all_goals
      rw [hlast] at hlast'
      cases hlast'
  . simp only [lexemes, textOf_append, byteLength_append]
    omega
  . intro ss ps tail hthose
    refine .removed (lineMarks_append_trivia hmarks fun y hy => ?_) ?_ rfl hthose
    . exact htrivia y (List.mem_append_left _ hy)
    . rw [hbreak, tokensOf_append, isBrokenBehind_append,
        isBrokenBehind_eq_false fun l hl => (hkept l hl).1]

theorem exists_replaced {text : List Char} {inner : List Edit} (hls : AreLaid start (kept ++ ls))
    (hitems : itemsFrom .empty ls = first :: (more ++ behind))
    (hfit : (Stretch.replaced first more text inner).Fits last)
    (hkept : ∀ l ∈ kept.getLast?, l.token.isTrivia = false ∧ last = some l.token)
    (hmarks : lineMarks false (tokensOf kept) = items.map lineMark) :
    ∃ p rest, kept ++ ls = p.lexemes ++ rest ∧ p.Fits start ∧ 0 < byteLength (textOf p.lexemes)
      ∧ behind = itemsFrom .empty rest
      ∧ p.edits
        = .replacement ⟨first.span.start, stopAfter first.span.stop more⟩ text :: inner
      ∧ ∀ {ss ps tail}, AreThoseOf ss ps tail →
        AreThoseOf (items.map .kept ++ .replaced first more text inner :: ss) (p :: ps) tail := by
  obtain ⟨trivia, l, used, rest, rfl, htrivia, hl, rfl, hstart, hstop, hused, hpos, htail⟩ :=
    hls.exists_cut hitems
  have hgap := getLast?_tokensOf_append hkept
    (hls.split.isSecure_of_isTrivia htrivia (Token.ne_of_isTrivia hl).1)
  generalize ofLexeme (Gap.empty.pushAll trivia) l = first at *
  obtain ⟨hlast, _, htext, hremoval, _, hinner⟩ := hfit
  refine ⟨⟨kept ++ trivia, l :: used, .replacement ⟨first.span.start, _⟩ text, inner⟩, rest, ?_,
    ⟨?_, ⟨l, used, rfl, Token.ne_of_isTrivia hl⟩, hused, ⟨htext, ?_⟩, ?_⟩, ?_, htail, rfl, ?_⟩
  . simp [lexemes]
  . simp only [Edit.span, Span.mk.injEq]
    exact ⟨hstart, hstop⟩
  . intro t ht
    rcases hgap t ht with hsecure | ⟨_, hlast'⟩
    . exact .inl hsecure
    . rw [hlast', Option.some.injEq] at hlast
      exact .inr hlast
  . intro e he
    have := hinner e he
    exact ⟨hremoval e he, this.1, this.2.2⟩
  . simp only [lexemes, textOf_append, byteLength_append]
    omega
  . intro ss ps tail hthose
    exact .replaced (lineMarks_append_trivia hmarks htrivia) rfl htext hthose

end

theorem exists_passages {kept ls : List Lexeme} {items : List Item} {last : Option Token}
    {start : Nat} {ss : List Stretch} (hls : AreLaid start (kept ++ ls))
    (hitems : Stretch.itemsOf ss = itemsFrom .empty ls) (hfit : Stretch.AllFit last ss)
    (hkept : ∀ l ∈ kept.getLast?, l.token.isTrivia = false ∧ last = some l.token)
    (hlast : start = 0 → kept = [] → last = none)
    (hmarks : lineMarks false (tokensOf kept) = items.map lineMark) :
    ∃ ps tail, kept ++ ls = lexemesOf ps ++ tail ∧ AllFit start ps
      ∧ ps.map edit = ss.filterMap Stretch.edit? ∧ editsOf ps = Stretch.editsOf ss
      ∧ AreThoseOf (items.map .kept ++ ss) ps tail := by
  induction ss generalizing kept ls items last start with
  | nil =>
    refine ⟨[], kept ++ ls, rfl, trivial, rfl, rfl, ?_⟩
    rw [List.append_nil]
    apply AreThoseOf.nil
    rw [lineMarks_append_items (fun l hl => (hkept l hl).1) hmarks, ← hitems]
    exact congrArg _ (List.append_nil _)
  | cons s ss ih =>
    rw [Stretch.itemsOf_cons] at hitems
    -- Behind a passage nothing is kept, and the text goes on with what is behind it.
    have onward {p : Passage} {rest : List Lexeme} (hsplit : kept ++ ls = p.lexemes ++ rest)
        (hp : p.Fits start) (hpos : 0 < byteLength (textOf p.lexemes))
        (hrest : Stretch.itemsOf ss = itemsFrom .empty rest) (hedit : s.edit? = some p.edit)
        (hedits : p.edits = s.edits) (hthose : ∀ {ps tail}, AreThoseOf ss ps tail →
          AreThoseOf (items.map .kept ++ s :: ss) (p :: ps) tail) :
        ∃ ps tail, kept ++ ls = lexemesOf ps ++ tail ∧ AllFit start ps
          ∧ ps.map edit = (s :: ss).filterMap Stretch.edit?
          ∧ editsOf ps = Stretch.editsOf (s :: ss)
          ∧ AreThoseOf (items.map .kept ++ s :: ss) ps tail := by
      rw [hsplit] at hls
      obtain ⟨ps, tail, rfl, hps, hmap, hall, hthose'⟩ := @ih [] rest [] _
        (start + byteLength (textOf p.lexemes)) hls.split hrest hfit.2 (by simp) (by omega) rfl
      refine ⟨p :: ps, tail, ?_, ⟨hp, hps⟩, ?_, ?_, hthose hthose'⟩
      . rw [hsplit]
        simp [lexemesOf]
      . rw [List.map_cons, hmap, List.filterMap_cons_some hedit]
      . show p.edits ++ editsOf ps = _
        rw [hall, hedits]
        rfl
    cases s with
    | kept item =>
      obtain ⟨trivia, l, rest, rfl, htrivia, hl, rfl, htail⟩ := itemsFrom_eq_cons hitems.symm
      have hitem := lineMarks_append_items (fun l hl => (hkept l hl).1) hmarks (trivia ++ [l])
      rw [itemsFrom_append_cons [] htrivia hl] at hitem
      obtain ⟨ps, tail, hlexemes, hps, hedits, hall, hthose⟩ :=
        @ih (kept ++ (trivia ++ [l])) rest _ _ start
        (by simpa using hls) htail hfit.2 (by simpa using ⟨hl, rfl⟩) (by simp) hitem
      refine ⟨ps, tail, ?_, hps, hedits, hall, ?_⟩
      . rw [← hlexemes]
        simp
      . simpa using hthose
    | removed first more =>
      obtain ⟨p, rest, hsplit, hp, hpos, hrest, hedits, hthose⟩ :=
        exists_removed hls hitems.symm hfit.1 hkept hlast hmarks
      exact onward hsplit hp hpos hrest (congrArg List.head? hedits).symm hedits hthose
    | replaced first more text inner =>
      obtain ⟨p, rest, hsplit, hp, hpos, hrest, hedits, hthose⟩ :=
        exists_replaced hls hitems.symm hfit.1 hkept hmarks
      exact onward hsplit hp hpos hrest (congrArg List.head? hedits).symm hedits hthose

end Passage

end Delegation
