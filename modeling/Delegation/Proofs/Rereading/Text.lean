import Delegation.Proofs.Rereading.Remains
import Delegation.Proofs.WrittenType

/-!
This module contains the items of a declaration file after its edits: they are what is left of its
stretches. White space that a removal leaves on both of its sides becomes one lexeme, so that the
items are told by the tokens of the text and not by its lexemes.
-/

namespace Delegation

open Item Lexeme

theorem Lexes.eq_nil {start : Nat} {ls : List Lexeme} (h : Lexes start [] ls) : ls = [] := by
  generalize hcs : [] = cs at h
  cases h with
  | nil => rfl
  | cons hspells => exact absurd (List.append_eq_nil_iff.mp hcs.symm).1 hspells.ne_nil

theorem Lexes.append_of_endsBefore {start : Nat} {cs rest : List Char} {ls ms : List Lexeme}
    (h : Lexes start cs ls)
    (hlast : ∀ l ∈ ls.getLast?, l.token ≠ .sign .dot ∧ l.token.endsBefore rest = true)
    (hrest : Lexes (start + byteLength cs) rest ms) : Lexes start (cs ++ rest) (ls ++ ms) := by
  induction h with
  | nil => exact hrest
  | @cons start text cs token ls hspells hends htail ih =>
    rw [byteLength_append, ← Nat.add_assoc] at hrest
    rw [List.append_assoc]
    cases htail with
    | nil => exact .cons hspells (hlast _ rfl).2 hrest
    | @cons _ text' cs' token' ls' hspells' hends' htail' =>
      rw [List.getLast?_cons_cons] at hlast
      apply Lexes.cons hspells _ (ih hlast hrest)
      obtain ⟨d, ds, rfl⟩ := List.exists_cons_of_ne_nil hspells'.ne_nil
      by_cases hdot : d ≠ '.' ∨ ds ++ cs' ≠ []
      . simp only [List.cons_append] at hends ⊢
        rw [token.endsBefore_append hdot rest [], List.append_nil]
        exact hends
      . rw [not_or, not_not, not_not, List.append_eq_nil_iff] at hdot
        obtain ⟨rfl, rfl, rfl⟩ := hdot
        rw [htail'.eq_nil] at hlast
        exact absurd hspells'.eq_dot (hlast _ rfl).1

theorem Gap.after_eq_empty (gap : Gap) {ls : List Lexeme} (hne : ls ≠ [])
    (h : ∀ l ∈ ls.getLast?, l.token.isTrivia = false) : gap.after ls = .empty := by
  obtain ⟨front, l, rfl⟩ := (List.eq_nil_or_concat' ls).resolve_left hne
  have hl := h l (by simp)
  simp [Gap.after, hl]

/--
Whether `source` goes on with `cs` behind `front`, and `p` holds of the items of `cs`, whatever
trivia are in front of them. `isBroken` tells whether a line ends there.
-/
def YieldsSome (source front : List Char) (isBroken : Bool) (cs : List Char)
    (p : List Item → Prop) : Prop :=
  ∀ gap : Gap, gap.hasNewline = isBroken → ∃ items, Yields source front gap cs items ∧ p items

namespace YieldsSome

variable {source front rest : List Char} {isBroken : Bool} {p q : List Item → Prop}

theorem mono (h : YieldsSome source front isBroken rest p) (hpq : ∀ items, p items → q items) :
    YieldsSome source front isBroken rest q := by
  intro gap hgap
  obtain ⟨items, hyields, hp⟩ := h gap hgap
  exact ⟨items, hyields, hpq items hp⟩

theorem token {text : List Char} {token : Token}
    (h : YieldsSome source (front ++ text) false rest p) (hspells : Spells text token)
    (hends : token.endsBefore rest = true) (htrivia : token.isTrivia = false) :
    YieldsSome source front isBroken (text ++ rest) fun items =>
      ∃ item more, items = item :: more ∧ item.lineMark = (token, isBroken) ∧ p more := by
  intro gap hgap
  obtain ⟨items, hyields, hp⟩ := h .empty rfl
  exact ⟨_, hyields.token hspells hends htrivia, _, items, rfl, by rw [← hgap]; rfl, hp⟩

theorem trivia {text : List Char} {token : Token}
    (h : YieldsSome source (front ++ text) (isBroken || token == .newline) rest p)
    (hspells : Spells text token) (hends : token.endsBefore rest = true)
    (htrivia : token.isTrivia = true) : YieldsSome source front isBroken (text ++ rest) p := by
  intro gap hgap
  obtain ⟨items, hyields, hp⟩ := h (gap.push ⟨byteLength front, token, text⟩)
    (by rw [gap.hasNewline_push _ htrivia, hgap])
  exact ⟨items, hyields.trivia hspells hends htrivia, hp⟩

theorem space {c : Char} (h : YieldsSome source (front ++ [c]) isBroken rest p)
    (hc : readPiece.isSpacing c = true) : YieldsSome source front isBroken (c :: rest) p := by
  by_cases hrest : ∃ x ∈ rest.head?, readPiece.isSpacing x = true
  . obtain ⟨x, hx, hspacing⟩ := hrest
    intro gap hgap
    obtain ⟨items, ⟨hsource, ls, hls, rfl⟩, hp⟩ := h gap hgap
    cases hls with
    | nil => cases hx
    | @cons _ text cs token ls hspells hends htail =>
      obtain ⟨y, ys, rfl⟩ := List.exists_cons_of_ne_nil hspells.ne_nil
      cases hx
      have hblank : token = .whitespace := by
        by_contra hblank
        rw [hspells.isSpacing_eq_false hblank] at hspacing
        cases hspacing
      subst hblank
      have hspells' : Spells (c :: x :: ys) .whitespace := .whitespace hc hspells.eq_whitespace
      refine ⟨_, ⟨by simp [hsource], ⟨byteLength front, .whitespace, c :: x :: ys⟩ :: ls, ?_, ?_⟩,
        hp⟩
      . have hlength : byteLength (front ++ [c]) + byteLength (x :: ys)
            = byteLength front + byteLength (c :: x :: ys) := by
          simp only [byteLength_append, byteLength_cons, byteLength_nil]
          omega
        rw [hlength] at htail
        exact .cons hspells' hends htail
      . rw [itemsFrom_cons_trivia _ rfl, itemsFrom_cons_trivia _ rfl, gap.push_whitespace rfl,
          gap.push_whitespace rfl]
  . have hends : Token.whitespace.endsBefore rest = true := by
      cases rest with
      | nil => rfl
      | cons x rest => simpa [Token.endsBefore] using hrest
    have h : YieldsSome source (front ++ [c]) (isBroken || Token.whitespace == .newline) rest
        p := by
      rwa [show (Token.whitespace == Token.newline) = false from rfl, Bool.or_false]
    exact h.trivia (.whitespace hc (by simp)) hends rfl

theorem reads {cs : List Char} {ts : List Token} (hreads : Reads rest cs ts)
    (h : YieldsSome source (front ++ cs) (isBrokenBehind isBroken ts) rest p) :
    YieldsSome source front isBroken (cs ++ rest) fun items => ∃ others more,
      items = others ++ more ∧ others.map lineMark = lineMarks isBroken ts ∧ p more := by
  induction hreads generalizing front isBroken with
  | nil =>
    rw [List.append_nil] at h
    exact h.mono fun items hp => ⟨[], items, rfl, rfl, hp⟩
  | @space c cs ts hc _ ih =>
    apply space _ hc
    apply ih
    rwa [List.append_assoc]
  | @token text cs t ts hspells hblank hends _ ih =>
    rw [List.append_assoc]
    rw [← List.append_assoc] at h
    rw [lineMarks]
    rw [isBrokenBehind] at h
    cases htrivia : t.isTrivia with
    | true =>
      rw [htrivia, if_pos rfl] at h
      rw [if_pos rfl]
      exact (ih h).trivia hspells hends htrivia
    | false =>
      rw [htrivia, if_neg (by simp)] at h
      rw [if_neg (by simp)]
      apply ((ih h).token hspells hends htrivia).mono
      rintro _ ⟨item, _, rfl, hmark, others, more, rfl, hothers, hp⟩
      exact ⟨item :: others, more, rfl, by simp [hmark, hothers], hp⟩

theorem written {subtypes : List Ident} {params : List String} (hne : subtypes ≠ [])
    (hparams : ∀ q ∈ params, IsName q)
    (h : YieldsSome source (front ++ (Client.payloadUnion subtypes params).render) false rest p) :
    YieldsSome source front isBroken ((Client.payloadUnion subtypes params).render ++ rest)
      fun items => ∃ first more others, items = first :: more ++ others
        ∧ Stretch.IsWritten source (Client.payloadUnion subtypes params).render first more
        ∧ p others := by
  intro gap hgap
  have hwritable := Client.isWritable_payloadUnion hparams subtypes
  have hinhabited := Client.isInhabited_payloadUnion hne params
  obtain ⟨ls, first, more, hls, htokens, hitems, hstart, hstop⟩ :=
    TypeNode.exists_items hwritable hinhabited (byteLength front) gap
  have htrivia : ∀ t ∈ tokensOf ls, t.isTrivia = false := by
    rw [htokens]
    exact isTrivia_tokens _
  obtain ⟨hmap, _, hline⟩ := line_of_itemsFrom_eq_cons htrivia hitems
  have hlast := ((isTight_render _ hwritable hinhabited).isTrivia_eq_false hls htrivia).2
  have hnil : ls ≠ [] := by
    rintro rfl
    cases hitems
  have hclosing : ∀ l ∈ ls.getLast?, l.token = .closing .paren := by
    obtain ⟨front', l, rfl⟩ := (List.eq_nil_or_concat' ls).resolve_left hnil
    intro l' hl'
    obtain rfl : l = l' := by simpa using hl'
    obtain ⟨subtype, subtypes, rfl⟩ := List.exists_cons_of_ne_nil hne
    have := Client.getLast?_tokens_payloadUnion subtype subtypes params
    rw [← htokens, tokensOf_concat _ (Token.ne_of_isTrivia (hlast l hl')).2,
      List.getLast?_concat] at this
    exact Option.some.inj this
  obtain ⟨_, ⟨hsource, ms, hms, rfl⟩, hp⟩ := h .empty rfl
  rw [byteLength_append] at hms
  refine ⟨_, ⟨by rw [hsource, List.append_assoc], ls ++ ms, ?_, itemsFrom_append ..⟩,
    first, more, _, ?_, ⟨?_, hline, ?_⟩, hp⟩
  . apply hls.append_of_endsBefore _ hms
    intro l hl
    rw [hclosing l hl]
    exact ⟨by simp, rfl⟩
  . rw [hitems, gap.after_eq_empty hnil hlast]
  . rw [hmap, htokens]
    exact Client.reads_payloadUnion hne hparams []
  . rw [hstart, hstop, hsource, List.append_assoc]
    exact Span.slice?_append ..

end YieldsSome

/-!
Items that stay are on the lines that they were on, but for the first one.
-/

theorem lineMarks_gap {isLine isBroken : Bool} {gap : List Lexeme} {ts : List Token}
    (hts : ts = tokensOf gap ∨ isLine = true ∧ tokensOf gap = .newline :: ts)
    (hline : isLine = true → isBroken = true) :
    lineMarks isBroken ts = lineMarks isBroken (tokensOf gap)
      ∧ isBrokenBehind isBroken ts = isBrokenBehind isBroken (tokensOf gap) := by
  rcases hts with rfl | ⟨hisLine, htokens⟩
  . exact ⟨rfl, rfl⟩
  . rw [htokens, hline hisLine]
    exact ⟨rfl, rfl⟩

theorem isBrokenBehind_of_lineAfter {isLine isBroken : Bool} {ts : List Token}
    (h : lineAfter isLine ts = true) (hline : isLine = true → isBroken = true) :
    isBrokenBehind isBroken ts = true := by
  induction ts generalizing isLine isBroken with
  | nil => exact hline h
  | cons t ts ih =>
    have h : lineAfter (t == .newline) ts = true := h
    rw [isBrokenBehind]
    split
    . exact ih h fun ht => by simp [ht]
    . next htrivia =>
      refine ih h fun ht => ?_
      rw [beq_iff_eq.mp ht] at htrivia
      exact absurd rfl htrivia

namespace Stretch

variable {text : List Char} {isBroken isBroken' : Bool} {items others more : List Item}
  {ss : List Stretch} {ts : List Token}

theorem remains_map_kept (hitems : lineMarks isBroken' ts = items.map lineMark)
    (hothers : others.map lineMark = lineMarks (isBroken || isBroken') ts)
    (htail : Remains text (isBrokenAfter isBroken (items.map kept)) ss more) :
    Remains text isBroken (items.map kept ++ ss) (others ++ more) := by
  induction ts generalizing isBroken isBroken' items others with
  | nil =>
    obtain rfl := List.map_eq_nil_iff.mp hitems.symm
    obtain rfl := List.map_eq_nil_iff.mp hothers
    exact htail
  | cons t ts ih =>
    rw [lineMarks] at hitems hothers
    split at hitems
    . next htrivia =>
      rw [if_pos htrivia, Bool.or_assoc] at hothers
      exact ih hitems hothers htail
    . next htrivia =>
      rw [if_neg htrivia] at hothers
      obtain ⟨item, items, rfl, hitem, hitems⟩ := List.map_eq_cons_iff.mp hitems.symm
      obtain ⟨other, others, rfl, hother, hothers⟩ := List.map_eq_cons_iff.mp hothers
      rw [lineMark, Prod.mk.injEq] at hitem hother
      refine .kept (hother.1.trans hitem.1.symm) ?_ (ih hitems.symm hothers htail)
      rw [hother.2, hitem.2]

theorem isBrokenBehind_eq (hitems : lineMarks isBroken' ts = items.map lineMark) :
    isBrokenBehind (isBroken || isBroken') ts
      = (isBrokenAfter isBroken (items.map kept) || isBrokenBehind isBroken' ts) := by
  induction ts generalizing isBroken isBroken' items with
  | nil =>
    obtain rfl := List.map_eq_nil_iff.mp hitems.symm
    rfl
  | cons t ts ih =>
    rw [lineMarks] at hitems
    rw [isBrokenBehind, isBrokenBehind]
    split at hitems
    . next htrivia =>
      rw [if_pos htrivia, if_pos htrivia, Bool.or_assoc]
      exact ih hitems
    . next htrivia =>
      rw [if_neg htrivia, if_neg htrivia]
      obtain ⟨item, items, rfl, _, hitems⟩ := List.map_eq_cons_iff.mp hitems.symm
      exact @ih false false items hitems.symm

end Stretch

/--
The items of the text that edits leave are what is left of the stretches.
-/
theorem Passage.ResultsIn.yieldsSome {isLine : Bool} {ps : List Passage} {tail : List Lexeme}
    {text : List Char} (h : ResultsIn isLine ps tail text) {ss : List Stretch}
    (hss : AreThoseOf ss ps tail) {source front : List Char} (hsource : source = front ++ text)
    {isBroken : Bool} (hline : isLine = true → isBroken = true) :
    YieldsSome source front isBroken text (Stretch.Remains source isBroken ss) := by
  induction h generalizing ss front isBroken with
  | @nil isLine tail text ts hreads hts =>
    cases hss with
    | @nil items _ htail =>
      obtain ⟨hmarks, _⟩ := lineMarks_gap hts hline
      have hnone : YieldsSome source (front ++ text) (isBrokenBehind isBroken ts) [] (· = []) := by
        intro gap _
        rw [← hsource]
        exact ⟨[], .nil source gap, rfl⟩
      have := hnone.reads hreads
      rw [List.append_nil] at this
      apply this.mono
      rintro _ ⟨others, _, rfl, hothers, rfl⟩
      have hothers : others.map lineMark = lineMarks (isBroken || false) (tokensOf tail) := by
        rw [hothers, hmarks, Bool.or_false]
      simpa using Stretch.remains_map_kept htail hothers .nil
  | @cons isLine p ps tail text rest ts hreads hts hnew hrest ih =>
    obtain ⟨hmarks, hbroken⟩ := lineMarks_gap hts hline
    cases hss with
    | @removed items more first ss _ _ _ span hgap hfirst hedit htail =>
      rw [hedit] at hreads hrest ih hsource ⊢
      have hrest : YieldsSome source (front ++ text) (isBrokenBehind isBroken ts) rest
          (Stretch.Remains source (isBrokenBehind isBroken ts) ss) :=
        ih htail (by simpa [Edit.text] using hsource) fun h => isBrokenBehind_of_lineAfter h hline
      apply (YieldsSome.reads hreads hrest).mono
      rintro _ ⟨others, items', rfl, hothers, hremains⟩
      have hothers : others.map lineMark = lineMarks (isBroken || false) (tokensOf p.gap) := by
        rw [hothers, hmarks, Bool.or_false]
      apply Stretch.remains_map_kept hgap hothers
      apply Stretch.Remains.removed
      rwa [hfirst, ← Stretch.isBrokenBehind_eq hgap, Bool.or_false, ← hbroken]
    | @replaced items more first ss _ _ _ span new inner hgap hedit hnew' htail =>
      obtain ⟨subtypes, params, hne, hparams, rfl⟩ := hnew'
      rw [hedit] at hreads hrest ih hsource ⊢
      rw [Edit.tokens_payloadUnion span hne hparams] at ih
      have hrest : YieldsSome source (front ++ text ++ (Client.payloadUnion subtypes params).render)
          false rest (Stretch.Remains source false ss) := by
        apply ih htail (by simpa [Edit.text] using hsource)
        -- The union ends with a parenthesis, so that no line begins behind it.
        obtain ⟨subtype, subtypes, rfl⟩ := List.exists_cons_of_ne_nil hne
        rw [lineAfter_of_getLast? _ (Client.getLast?_tokens_payloadUnion subtype subtypes params)]
        simp
      apply (YieldsSome.reads hreads (YieldsSome.written hne hparams hrest)).mono
      rintro _ ⟨others, _, rfl, hothers, first', more', items', rfl, hwritten, hremains⟩
      have hothers : others.map lineMark = lineMarks (isBroken || false) (tokensOf p.gap) := by
        rw [hothers, hmarks, Bool.or_false]
      exact Stretch.remains_map_kept hgap hothers (.replaced hwritten hremains)

end Delegation
