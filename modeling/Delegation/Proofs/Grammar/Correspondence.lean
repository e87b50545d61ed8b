import Delegation.Proofs.Grammar.Head
import Delegation.Proofs.Relocation
import Mathlib.Data.List.Forall2

/-!
This module contains what the parsers make of two texts whose items correspond to each other: the
same at corresponding offsets, or the same failure at corresponding items. They do not compare
offsets, they look at trivia only for line breaks, and they do not tell templates apart. More items
may follow in the second text behind a semicolon, since nothing but a list of statements goes on
behind one. They may turn a failure into a success.
-/

namespace Delegation

open Item

/--
Whether parsers cannot tell the tokens `a` and `b` apart.
-/
def Token.Resembles (a b : Token) : Prop :=
  b = a ∨ ∃ x y, a = .template x ∧ b = .template y

namespace Token.Resembles

variable {a b t : Token}

theorem symm (h : a.Resembles b) : b.Resembles a := by
  rcases h with rfl | ⟨x, y, rfl, rfl⟩
  . exact .inl rfl
  . exact .inr ⟨y, x, rfl, rfl⟩

theorem eq_iff (h : a.Resembles b) (ht : ∀ x, t ≠ .template x) : b = t ↔ a = t := by
  rcases h with rfl | ⟨x, y, rfl, rfl⟩
  . rfl
  . constructor
    all_goals
      intro heq
      exact absurd heq.symm (ht _)

theorem congr {α : Sort _} (h : a.Resembles b) (p : Token → α)
    (hp : ∀ x y, p (.template x) = p (.template y)) : p b = p a := by
  rcases h with rfl | ⟨x, y, rfl, rfl⟩
  . rfl
  . exact hp y x

end Token.Resembles

/--
Which items of two texts are the same token in corresponding places. Offsets correspond to each
other that `here` and `there` take to the same number.
-/
structure Correspondence where
  here : Nat → Nat
  there : Nat → Nat
  Relates : Item → Item → Prop
  /--
  What follows in the second text behind all that has a counterpart.
  -/
  tail : List Item
  resembles {a b : Item} : Relates a b → a.token.Resembles b.token
  span_eq {a b : Item} : Relates a b → b.span.relocate there = a.span.relocate here

namespace Correspondence

variable (c : Correspondence)

def Alike {α : Type} (relocate : (Nat → Nat) → α → α) (a b : α) : Prop :=
  relocate c.there b = relocate c.here a

structure IsTwin (a b : Item) : Prop where
  relates : c.Relates a b
  lead_eq : c.there b.lead = c.here a.lead
  isOnNewLine_eq : b.isOnNewLine = a.isOnNewLine

/--
Whether the items of two texts correspond to each other up to the end of the first one. The second
one also ends there unless the last item is a semicolon.
-/
inductive Twins : List Item → List Item → Prop where
  | nil (h : c.tail = []) : Twins [] []
  | last {a b : Item} (h : c.IsTwin a b) (ha : a.token = .sign .semicolon) : Twins [a] (b :: c.tail)
  | cons {a b : Item} {items others : List Item} (h : c.IsTwin a b) (htail : Twins items others) :
    Twins (a :: items) (b :: others)

def TwinsBehind (items others : List Item) : Prop :=
  c.Twins items others ∨ items = [] ∧ others = c.tail

def TwinsLoosely : List Item → List Item → Prop
  | [], others => others = c.tail
  | a :: items, others => ∃ b more, others = b :: more ∧ c.Relates a b
    ∧ c.TwinsBehind items more ∧ (a.token ≠ .sign .semicolon → c.Twins items more)

def SameItem (s s' : Span) : Prop :=
  ∃ a b, c.Relates a b ∧ a.span = s ∧ b.span = s'

inductive SameCause : Cause → Cause → Prop where
  | expected (what : Expectation) : SameCause (.expected what) (.expected what)
  | unclosed {s s' : Span} (h : c.SameItem s s') (d : Delimiter) :
    SameCause (.unclosed s d) (.unclosed s' d)
  | unbalanced {s s' : Option Span} (h : Option.Rel c.SameItem s s') (what : Expectation) :
    SameCause (.unbalanced s what) (.unbalanced s' what)

structure FailsAlike (x y : Failure) : Prop where
  cause : c.SameCause x.cause y.cause
  head : Option.Rel c.Relates x.rest.head? y.rest.head?

/--
Whether two parsers agree: both return a value, or they fail alike. Nothing is said of the second
one if the first one fails and the second text goes on.
-/
inductive Agrees {α : Type} (Value : α → α → Prop) (Rest : List Item → List Item → Prop)
    {m n : Nat} : Parse α m → Parse α n → Prop where
  | ok {p : Parsed Item α m} {q : Parsed Item α n} (hvalue : Value p.value q.value)
    (hrest : Rest p.rest q.rest) : Agrees Value Rest (.ok p) (.ok q)
  | error {x y : Failure} (h : c.FailsAlike x y) : Agrees Value Rest (.error x) (.error y)
  | cut {x : Failure} {y : Parse α n} (h : c.tail ≠ []) : Agrees Value Rest (.error x) y

variable {c} {items others : List Item} {a b : Item}

theorem Alike.eq {α : Type} {relocate : (Nat → Nat) → α → α} {x y : α} (h : c.Alike relocate x y) :
    relocate c.there y = relocate c.here x :=
  h

section

variable (h : c.Relates a b)
include h

theorem token_eq {t : Token} (ha : a.token = t) (ht : ∀ x, t ≠ .template x) : b.token = t :=
  ((c.resembles h).eq_iff ht).mpr ha

theorem token_ne {t : Token} (ha : a.token ≠ t) (ht : ∀ x, t ≠ .template x) : b.token ≠ t :=
  fun hb => ha (((c.resembles h).eq_iff ht).mp hb)

theorem beq_eq (t : Token) (ht : ∀ x, t ≠ .template x) : (b.token == t) = (a.token == t) := by
  rw [Bool.eq_iff_iff, beq_iff_eq, beq_iff_eq]
  exact (c.resembles h).eq_iff ht

theorem isWordOf_eq (words : List String) : b.token.isWordOf words = a.token.isWordOf words :=
  (c.resembles h).congr (Token.isWordOf words) fun _ _ => rfl

theorem isWord_eq (word : String) : b.token.isWord word = a.token.isWord word :=
  (c.resembles h).congr (Token.isWord word) fun _ _ => rfl

theorem isIdentifier_eq : b.token.isIdentifier = a.token.isIdentifier :=
  (c.resembles h).congr Token.isIdentifier fun _ _ => rfl

theorem start_eq : c.there b.span.start = c.here a.span.start :=
  congrArg Span.start (c.span_eq h)

theorem stop_eq : c.there b.span.stop = c.here a.span.stop :=
  congrArg Span.stop (c.span_eq h)

theorem sameItem : c.SameItem a.span b.span :=
  ⟨a, b, h, rfl, rfl⟩

end

namespace TwinsBehind

theorem exists_cons (h : c.TwinsBehind (a :: items) others) :
    ∃ b more, others = b :: more ∧ c.IsTwin a b ∧ c.TwinsBehind items more
      ∧ (a.token ≠ .sign .semicolon → c.Twins items more) := by
  rcases h with (_ | ⟨h, ha⟩ | ⟨h, htail⟩) | ⟨hnil, _⟩
  . exact ⟨_, _, rfl, h, .inr ⟨rfl, rfl⟩, fun hne => absurd ha hne⟩
  . exact ⟨_, _, rfl, h, .inl htail, fun _ => htail⟩
  . cases hnil

theorem eq_nil (h : c.TwinsBehind [] others) (htail : c.tail = []) : others = [] := by
  rcases h with h | ⟨_, rfl⟩
  . cases h
    rfl
  . exact htail

end TwinsBehind

namespace Twins

theorem behind (h : c.Twins items others) : c.TwinsBehind items others :=
  .inl h

theorem exists_cons (h : c.Twins (a :: items) others) :
    ∃ b more, others = b :: more ∧ c.IsTwin a b ∧ c.TwinsBehind items more
      ∧ (a.token ≠ .sign .semicolon → c.Twins items more) :=
  h.behind.exists_cons

theorem exists_cons_cons (h : c.Twins (a :: b :: items) others) :
    ∃ a' b' more, others = a' :: b' :: more ∧ c.IsTwin a a' ∧ c.IsTwin b b'
      ∧ (b.token ≠ .sign .semicolon → c.Twins items more) := by
  cases h with
  | cons ha htail =>
    obtain ⟨b', more, rfl, hb, _, hmore⟩ := htail.exists_cons
    exact ⟨_, b', more, rfl, ha, hb, hmore⟩

theorem eq_nil (h : c.Twins [] others) : others = [] := by
  cases h
  rfl

theorem startsWith_eq (h : c.Twins items others) (p : Token → Bool)
    (hp : ∀ x y, p (.template x) = p (.template y)) : startsWith p others = startsWith p items := by
  cases items with
  | nil => rw [h.eq_nil]
  | cons a items =>
    obtain ⟨b, more, rfl, hitem, _⟩ := h.exists_cons
    exact (c.resembles hitem.relates).congr p hp

theorem loosely (h : c.Twins items others) : c.TwinsLoosely items others := by
  cases h with
  | nil h => exact h.symm
  | last h ha => exact ⟨_, _, rfl, h.relates, .inr ⟨rfl, rfl⟩, fun hne => absurd ha hne⟩
  | cons h htail => exact ⟨_, _, rfl, h.relates, .inl htail, fun _ => htail⟩

end Twins

theorem TwinsBehind.loosely (h : c.TwinsBehind items others) : c.TwinsLoosely items others := by
  rcases h with h | ⟨rfl, rfl⟩
  . exact h.loosely
  . rfl

namespace Agrees

variable {α β : Type} {Value : α → α → Prop} {Rest : List Item → List Item → Prop} {m n m' n' : Nat}

theorem bind {x : Parse α m} {y : Parse α n} {k : Parsed Item α m → Parse β m'}
    {k' : Parsed Item α n → Parse β n'} {Value' : β → β → Prop}
    {Rest' : List Item → List Item → Prop} (h : c.Agrees Value Rest x y)
    (hk : ∀ p q, Value p.value q.value → Rest p.rest q.rest →
      c.Agrees Value' Rest' (k p) (k' q)) : c.Agrees Value' Rest' (x >>= k) (y >>= k') := by
  cases h with
  | ok hvalue hrest => exact hk _ _ hvalue hrest
  | error h => exact .error h
  | cut h => exact .cut h

theorem loosen {x : Parse α m} {y : Parse α n} (h : c.Agrees Value Rest x y) :
    c.Agrees Value Rest (x.map Parsed.loosen) (y.map Parsed.loosen) := by
  cases h with
  | ok hvalue hrest => exact .ok hvalue hrest
  | error h => exact .error h
  | cut h => exact .cut h

theorem andMaybe {p : Parsed Item α m} {q : Parsed Item α n} {Value' : β → β → Prop}
    {k k' : (items : List Item) → Parse β (items.length + 1)}
    (h : c.Agrees Value' Rest (k p.rest) (k' q.rest)) :
    c.Agrees Value' Rest (p.andMaybe k) (q.andMaybe k') :=
  h.bind fun _ _ hvalue hrest => .ok hvalue hrest

theorem andThen {p : Parsed Item α m} {q : Parsed Item α n} {Value' : β → β → Prop}
    {k k' : (items : List Item) → Parse β items.length}
    (h : c.Agrees Value' Rest (k p.rest) (k' q.rest)) :
    c.Agrees Value' Rest (p.andThen k) (q.andThen k') :=
  h.bind fun _ _ hvalue hrest => .ok hvalue hrest

theorem failure {x y : Cause} (hcause : c.SameCause x y) (h : c.Relates a b) {items others : List Item} :
    c.Agrees Value Rest (.error ⟨x, a :: items⟩ : Parse α m)
      (.error ⟨y, b :: others⟩ : Parse α n) :=
  .error ⟨hcause, .some h⟩

theorem of_nil {x y : Cause} {z : Parse α n} (h : c.TwinsBehind [] others)
    (hcause : c.SameCause x y) (hz : others = [] → z = .error ⟨y, []⟩) :
    c.Agrees Value Rest (.error ⟨x, []⟩ : Parse α m) z := by
  by_cases htail : c.tail = []
  . rw [hz (h.eq_nil htail)]
    exact .error ⟨hcause, .none⟩
  . exact .cut htail

end Agrees

/-!
Single items, names and modifiers.
-/

theorem parseName_agrees (what : Expectation) (h : c.TwinsBehind items others) :
    c.Agrees (c.Alike fun f => Located.relocate f) c.Twins (parseName what items) (parseName what others) := by
  cases items with
  | nil => exact .of_nil h (.expected what) (by rintro rfl; rfl)
  | cons item rest =>
    obtain ⟨item', rest', rfl, hitem, _, htail⟩ := h.exists_cons
    unfold parseName
    dsimp only
    split
    . next name hname =>
      simp only [token_eq hitem.relates hname (by simp)]
      refine .ok ?_ (htail (by simp [hname]))
      simp only [Alike, Parsed.leaving, Located.relocate, c.span_eq hitem.relates]
    . next hne =>
      split
      . next name hname => exact absurd hname (token_ne hitem.relates (hne name) (by simp))
      . exact .failure (.expected what) hitem.relates

theorem parseToken_agrees {token : Token} (what : Expectation) (h : c.TwinsBehind items others)
    (ht : ∀ x, token ≠ .template x) (hsemicolon : token ≠ .sign .semicolon) :
    c.Agrees c.Relates c.Twins (parseToken token what items) (parseToken token what others) := by
  cases items with
  | nil => exact .of_nil h (.expected what) (by rintro rfl; rfl)
  | cons item rest =>
    obtain ⟨item', rest', rfl, hitem, _, htail⟩ := h.exists_cons
    simp only [parseToken, takeToken?, (c.resembles hitem.relates).eq_iff ht]
    by_cases htoken : item.token = token
    . simp only [htoken, if_true]
      exact .ok hitem.relates (htail (by rw [htoken]; exact hsemicolon))
    . simp only [htoken, if_false]
      exact .failure (.expected what) hitem.relates

theorem skipModifiers_twins (modifiers : List String) {item item' : Item} {rest rest' : List Item}
    (hitem : c.Relates item item') (h : c.Twins rest rest') :
    let p := skipModifiers modifiers item rest
    let q := skipModifiers modifiers item' rest'
    c.Relates p.value q.value ∧ c.Twins p.rest q.rest := by
  induction rest generalizing item item' rest' with
  | nil =>
    have hnil := h.eq_nil
    subst hnil
    exact ⟨hitem, h⟩
  | cons next rest ih =>
    obtain ⟨next', rest', rfl, hnext, _, htail⟩ := h.exists_cons
    rw [skipModifiers, skipModifiers, isWordOf_eq hitem, isIdentifier_eq hnext.relates]
    split
    . next hskip =>
      rw [Bool.and_eq_true] at hskip
      refine ih hnext.relates (htail ?_)
      intro heq
      rw [heq] at hskip
      cases hskip.2
    . exact ⟨hitem, h⟩

theorem terminator_twins {stop stop' : Nat} (hstop : c.there stop' = c.here stop)
    (h : c.Twins items others) :
    c.there (terminator stop' others).value = c.here (terminator stop items).value
      ∧ c.TwinsBehind (terminator stop items).rest (terminator stop' others).rest := by
  cases items with
  | nil =>
    have hnil := h.eq_nil
    subst hnil
    exact ⟨hstop, .inl h⟩
  | cons item rest =>
    obtain ⟨item', rest', rfl, hitem, hbehind, _⟩ := h.exists_cons
    rw [terminator, terminator, beq_eq hitem.relates _ (by simp), beq_eq hitem.relates _ (by simp),
      hitem.isOnNewLine_eq]
    split
    . exact ⟨stop_eq hitem.relates, hbehind⟩
    . exact ⟨hstop, .inl h⟩

/-!
Groups that are skipped, and what stands in front of the body of a declaration.
-/

structure SameOpening (c : Correspondence) (o o' : OpenDelimiter) : Prop where
  delimiter_eq : o'.delimiter = o.delimiter
  sameItem : c.SameItem o.span o'.span

theorem sameOpening (h : c.Relates a b) (d : Delimiter) :
    c.SameOpening ⟨d, a.span⟩ ⟨d, b.span⟩ :=
  ⟨rfl, sameItem h⟩

namespace SameOpening

variable {o o' : OpenDelimiter}

theorem unclosed (h : c.SameOpening o o') :
    c.SameCause (.unclosed o.span o.delimiter) (.unclosed o'.span o'.delimiter) := by
  rw [h.delimiter_eq]
  exact .unclosed h.sameItem _

theorem unbalanced (h : c.SameOpening o o') :
    c.SameCause (.unbalanced (some o.span) (.closer o.delimiter))
      (.unbalanced (some o'.span) (.closer o'.delimiter)) := by
  rw [h.delimiter_eq]
  exact .unbalanced (.some h.sameItem) _

end SameOpening

theorem skipGroup_agrees {opening opening' : OpenDelimiter} {inner inner' : List OpenDelimiter}
    (h : c.TwinsBehind items others) (hopening : c.SameOpening opening opening')
    (hinner : List.Forall₂ c.SameOpening inner inner') :
    c.Agrees c.Relates c.Twins (skipGroup opening inner items)
      (skipGroup opening' inner' others) := by
  induction items generalizing inner inner' others with
  | nil =>
    have hinnermost : c.SameOpening (inner.headD opening) (inner'.headD opening') := by
      cases hinner with
      | nil => exact hopening
      | cons hinnermost _ => exact hinnermost
    exact .of_nil h hinnermost.unclosed (by rintro rfl; rfl)
  | cons item items ih =>
    obtain ⟨item', others, rfl, hitem, hbehind, htail⟩ := h.exists_cons
    unfold skipGroup
    split
    . next d hd =>
      simp only [token_eq hitem.relates hd (by simp)]
      exact (ih hbehind (.cons (sameOpening hitem.relates d) hinner)).loosen
    . next d hd =>
      simp only [token_eq hitem.relates hd (by simp)]
      cases hinner with
      | nil =>
        dsimp only
        rw [hopening.delimiter_eq]
        split
        . exact .ok hitem.relates (htail (by simp [hd]))
        . have := hopening.unbalanced
          rw [hopening.delimiter_eq] at this
          exact .failure this hitem.relates
      | cons hinnermost hinner =>
        dsimp only
        rw [hinnermost.delimiter_eq]
        split
        . exact (ih hbehind hinner).loosen
        . have := hinnermost.unbalanced
          rw [hinnermost.delimiter_eq] at this
          exact .failure this hitem.relates
    . next hopening' hclosing =>
      split
      . next d hd => exact absurd hd (token_ne hitem.relates (hopening' d) (by simp))
      . next d hd => exact absurd hd (token_ne hitem.relates (hclosing d) (by simp))
      . exact (ih hbehind hinner).loosen

theorem parseParamSuffix_agrees {items others : List Item} {opening opening' : Span}
    {stop stop' : Nat} (h : c.TwinsBehind items others) (hopening : c.SameItem opening opening')
    (hstop : c.there stop' = c.here stop) :
    c.Agrees (fun n n' => c.there n' = c.here n) c.Twins (parseParamSuffix opening stop items)
      (parseParamSuffix opening' stop' others) := by
  cases items with
  | nil =>
    rw [parseParamSuffix]
    exact .of_nil h (.unclosed hopening _) (by rintro rfl; rw [parseParamSuffix])
  | cons item rest =>
    obtain ⟨item', others, rfl, hitem, hbehind, htail⟩ := h.exists_cons
    unfold parseParamSuffix
    dsimp only
    split
    . next hcomma =>
      simp only [token_eq hitem.relates hcomma (by simp)]
      exact .ok hstop (htail (by simp [hcomma]))
    . next d hd =>
      simp only [token_eq hitem.relates hd (by simp)]
      split
      . exact .ok hstop (.cons hitem (htail (by simp [hd])))
      . exact .failure (.unbalanced (.some hopening) _) hitem.relates
    . next d hd =>
      simp only [token_eq hitem.relates hd (by simp)]
      have hskip := skipGroup_agrees hbehind (sameOpening hitem.relates d) .nil
      refine hskip.bind ?_
      rintro ⟨close, rest₁, h₁⟩ ⟨close', rest₁', h₁'⟩ hclose hrest₁
      have hsuffix := parseParamSuffix_agrees hrest₁.behind hopening (stop_eq hclose)
      exact hsuffix.bind fun _ _ hvalue hrest => .ok hvalue hrest
    . next hcomma hclosing hopening' =>
      split
      . next hd => exact absurd hd (token_ne hitem.relates hcomma (by simp))
      . next d hd => exact absurd hd (token_ne hitem.relates (hclosing d) (by simp))
      . next d hd => exact absurd hd (token_ne hitem.relates (hopening' d) (by simp))
      . exact (parseParamSuffix_agrees hbehind hopening (stop_eq hitem.relates)).loosen
termination_by items.length
decreasing_by
  all_goals
    subst_vars
    simp only [List.length_cons]
    omega

theorem skipModifiers_eq_leaving {modifiers : List String} {item : Item} {rest : List Item}
    (h : item.token.isWordOf modifiers = false) :
    skipModifiers modifiers item rest = .leaving item rest := by
  cases rest with
  | nil => rfl
  | cons next rest =>
    rw [skipModifiers, if_neg]
    simp [h]

theorem parseParams_agrees {items others : List Item} {opening opening' : Span}
    (h : c.TwinsBehind items others) (hopening : c.SameItem opening opening') :
    c.Agrees (c.Alike fun f => List.map (TypeParam.relocate f)) c.Twins (parseParams opening items)
      (parseParams opening' others) := by
  cases items with
  | nil =>
    rw [parseParams]
    exact .of_nil h (.expected _) (by rintro rfl; rw [parseParams])
  | cons item rest =>
    obtain ⟨item', others, rfl, hitem, _, htail⟩ := h.exists_cons
    unfold parseParams
    rw [beq_eq hitem.relates _ (by simp)]
    split
    . next hcloser =>
      rw [beq_iff_eq] at hcloser
      exact .ok rfl (htail (by simp [hcloser]))
    . by_cases hsemicolon : item.token = .sign .semicolon
      . have hsemicolon' := token_eq hitem.relates hsemicolon (by simp)
        rw [skipModifiers_eq_leaving (by rw [hsemicolon]; rfl),
          skipModifiers_eq_leaving (by rw [hsemicolon']; rfl)]
        simp only [Parsed.leaving, hsemicolon, hsemicolon']
        exact .failure (.expected _) hitem.relates
      . obtain ⟨hfirst, hrest⟩ := skipModifiers_twins paramModifiers hitem.relates (htail hsemicolon)
        have hlt := (skipModifiers paramModifiers item rest).rest_lt
        generalize skipModifiers paramModifiers item rest = skipped at hfirst hrest hlt ⊢
        generalize skipModifiers paramModifiers item' others = skipped' at hfirst hrest ⊢
        obtain ⟨first, rest₁, h₁⟩ := skipped
        obtain ⟨first', rest₁', h₁'⟩ := skipped'
        dsimp only at hfirst hrest hlt ⊢
        split
        . next name hname =>
          simp only [token_eq hfirst hname (by simp)]
          have hsuffix := parseParamSuffix_agrees hrest.behind hopening (stop_eq hfirst)
          refine hsuffix.bind ?_
          rintro ⟨stop, rest₂, h₂⟩ ⟨stop', rest₂', h₂'⟩ hstop hrest₂
          refine (parseParams_agrees hrest₂.behind hopening).bind fun _ _ hparams hrest₃ => ?_
          refine .ok ?_ hrest₃
          simp only [Alike] at hstop hparams ⊢
          simp only [Parsed.map, Parsed.loosen, Parsed.within, List.map_cons, TypeParam.relocate,
            Located.relocate, Span.relocate, start_eq hfirst, stop_eq hfirst, hstop, hparams]
        . next hne =>
          split
          . next name hname => exact absurd hname (token_ne hfirst (hne name) (by simp))
          . exact .failure (.expected _) hfirst
termination_by items.length
decreasing_by
  all_goals
    subst_vars
    simp only [List.length_cons]
    omega

theorem parseParamList_agrees (h : c.Twins items others) :
    c.Agrees (c.Alike fun f => List.map (TypeParam.relocate f)) c.Twins (parseParamList items)
      (parseParamList others) := by
  cases items with
  | nil =>
    have hnil := h.eq_nil
    subst hnil
    exact .ok rfl h
  | cons item rest =>
    obtain ⟨item', others, rfl, hitem, hbehind, _⟩ := h.exists_cons
    unfold parseParamList
    dsimp only
    rw [beq_eq hitem.relates _ (by simp)]
    split
    . exact (parseParams_agrees hbehind (sameItem hitem.relates)).loosen
    . exact .ok rfl h

theorem parseHeritage_agrees {items others : List Item} (h : c.TwinsBehind items others) :
    c.Agrees c.SameItem c.Twins (parseHeritage items) (parseHeritage others) := by
  cases items with
  | nil =>
    rw [parseHeritage]
    exact .of_nil h (.expected _) (by rintro rfl; rw [parseHeritage])
  | cons item rest =>
    obtain ⟨item', others, rfl, hitem, hbehind, htail⟩ := h.exists_cons
    unfold parseHeritage
    dsimp only
    split
    . next d hd =>
      simp only [token_eq hitem.relates hd (by simp)]
      split
      . exact .ok (sameItem hitem.relates) (htail (by simp [hd]))
      . have hskip := skipGroup_agrees hbehind (sameOpening hitem.relates d) .nil
        refine hskip.bind ?_
        rintro ⟨_, rest₁, h₁⟩ ⟨_, rest₁', h₁'⟩ _ hrest₁
        exact (parseHeritage_agrees hrest₁.behind).bind fun _ _ hvalue hrest => .ok hvalue hrest
    . next hd =>
      simp only [token_eq hitem.relates hd (by simp)]
      exact .failure (.expected _) hitem.relates
    . next d hd =>
      simp only [token_eq hitem.relates hd (by simp)]
      exact .failure (.expected _) hitem.relates
    . next hopening hsemicolon hclosing =>
      split
      . next d hd => exact absurd hd (token_ne hitem.relates (hopening d) (by simp))
      . next hd => exact absurd hd (token_ne hitem.relates hsemicolon (by simp))
      . next d hd => exact absurd hd (token_ne hitem.relates (hclosing d) (by simp))
      . exact (parseHeritage_agrees hbehind).loosen
termination_by items.length
decreasing_by
  all_goals
    subst_vars
    simp only [List.length_cons]
    omega

theorem parseDottedName_twins {name name' : Located String}
    (hname : c.Alike (fun f => Located.relocate f) name name') (h : c.Twins items others) :
    c.Alike (fun f => Located.relocate f) (parseDottedName name items).value
        (parseDottedName name' others).value
      ∧ c.Twins (parseDottedName name items).rest (parseDottedName name' others).rest := by
  fun_induction parseDottedName name items generalizing name' others with
  | case1 name dot part rest text hpart hdot more =>
    rename_i ih
    obtain ⟨dot', others, rfl, hdot', _, htail⟩ := h.exists_cons
    obtain ⟨part', others, rfl, hpart', _, htail'⟩ := (htail (by simp [hdot])).exists_cons
    rw [parseDottedName]
    simp only [token_eq hdot'.relates hdot (by simp), token_eq hpart'.relates hpart (by simp)]
    refine ih ?_ (htail' (by simp [hpart]))
    simp only [Alike, Located.relocate, Located.mk.injEq, Span.relocate, Span.mk.injEq] at hname ⊢
    exact ⟨by rw [hname.1], hname.2.1, stop_eq hpart'.relates⟩
  | case2 name dot part rest hnone =>
    obtain ⟨dot', others, rfl, hdot', hbehind, htail⟩ := h.exists_cons
    obtain ⟨part', others, rfl, hpart', _⟩ := hbehind.exists_cons
    rw [parseDottedName]
    split
    . next text hdot hpart =>
      have hdot := ((c.resembles hdot'.relates).eq_iff (by simp)).mp hdot
      have hpart := ((c.resembles hpart'.relates).eq_iff (by simp)).mp hpart
      exact absurd hpart (hnone text hdot)
    . exact ⟨hname, h⟩
  | case3 name =>
    have hnil := h.eq_nil
    subst hnil
    exact ⟨hname, h⟩
  | case4 name item =>
    obtain ⟨item', others, rfl, hitem, _, htail⟩ := h.exists_cons
    cases others with
    | nil => exact ⟨hname, h⟩
    | cons next others =>
      have hdot : item.token ≠ .sign .dot := by
        intro heq
        have := (htail (by simp [heq])).eq_nil
        cases this
      rw [parseDottedName]
      split
      . next text hd _ => exact absurd hd (token_ne hitem.relates hdot (by simp))
      . exact ⟨hname, h⟩

theorem parseNamespaceName_agrees {keyword keyword' : Item} (hkeyword : c.Relates keyword keyword')
    (h : c.Twins items others) :
    c.Agrees (c.Alike fun f => Located.relocate f) c.Twins (parseNamespaceName keyword items)
      (parseNamespaceName keyword' others) := by
  have hvalue {item item' : Item} (hitem : c.Relates item item') (name : String) :
      c.Alike (fun f => Located.relocate f) ⟨name, item.span⟩ ⟨name, item'.span⟩ := by
    simp only [Alike, Located.relocate, c.span_eq hitem]
  unfold parseNamespaceName
  rw [isWord_eq hkeyword]
  split
  . exact .ok (hvalue hkeyword _) h
  . cases items with
    | nil =>
      have hnil := h.eq_nil
      subst hnil
      exact .of_nil h.behind (.expected _) fun _ => rfl
    | cons item rest =>
      obtain ⟨item', others, rfl, hitem, _, htail⟩ := h.exists_cons
      dsimp only
      split
      . next name hname =>
        simp only [token_eq hitem.relates hname (by simp)]
        exact .ok (hvalue hitem.relates name) (htail (by simp [hname]))
      . next name hname =>
        simp only [token_eq hitem.relates hname (by simp)]
        obtain ⟨hname', hrest⟩ :=
          parseDottedName_twins (hvalue hitem.relates name) (htail (by simp [hname]))
        exact .ok hname' hrest
      . next hstring hidentifier =>
        split
        . next name hd => exact absurd hd (token_ne hitem.relates (hstring name) (by simp))
        . next name hd => exact absurd hd (token_ne hitem.relates (hidentifier name) (by simp))
        . exact .failure (.expected _) hitem.relates

theorem takeToken?_brace_twins (h : c.Twins items others) :
    match takeToken? (.opening .brace) items with
    | some p => ∃ q, takeToken? (.opening .brace) others = some q ∧ c.Relates p.value q.value
      ∧ c.Twins p.rest q.rest
    | none => takeToken? (.opening .brace) others = none := by
  split
  . next p hp =>
    obtain ⟨hitems, htoken⟩ := takeToken?_eq_some hp
    rw [hitems] at h
    obtain ⟨item', others, rfl, hitem, _, htail⟩ := h.exists_cons
    rw [takeToken?, if_pos (token_eq hitem.relates htoken (by simp))]
    exact ⟨_, rfl, hitem.relates, htail (by simp [htoken])⟩
  . next hp =>
    rw [takeToken?_eq_none] at hp ⊢
    rw [h.startsWith_eq _ fun _ _ => rfl]
    exact hp

theorem statementForm_eq {keyword keyword' : Item} {rest rest' : List Item}
    (hkeyword : c.Relates keyword keyword') (h : c.Twins rest rest') :
    statementForm keyword' rest' = statementForm keyword rest := by
  have hidentifier := h.startsWith_eq Token.isIdentifier fun _ _ => rfl
  -- The second item is looked at only behind a name.
  have hsecond (p : Token → Bool) (hp : ∀ x y, p (.template x) = p (.template y)) :
      (startsWith Token.isIdentifier rest && startsWith p (rest'.drop 1))
        = (startsWith Token.isIdentifier rest && startsWith p (rest.drop 1)) := by
    cases hname : startsWith Token.isIdentifier rest with
    | false => rw [Bool.false_and, Bool.false_and]
    | true =>
      cases rest with
      | nil => cases hname
      | cons next rest =>
        obtain ⟨next', rest', rfl, _, _, htail⟩ := h.exists_cons
        have hne : next.token ≠ .sign .semicolon := by
          intro heq
          rw [startsWith, heq] at hname
          cases hname
        rw [List.drop_one, List.drop_one, List.tail_cons, List.tail_cons,
          (htail hne).startsWith_eq p hp]
  have hfirst (p : Token → Bool) (hp : ∀ x y, p (.template x) = p (.template y)) :
      startsWith p rest' = startsWith p rest := h.startsWith_eq p hp
  unfold statementForm
  simp only [isWord_eq hkeyword, isWordOf_eq hkeyword, hidentifier,
    hsecond (fun t => t == .opening .angle || t == .sign .equals) fun _ _ => rfl,
    hfirst (· == .opening .brace) fun _ _ => rfl, hfirst (·.isWord "enum") fun _ _ => rfl]
  rw [hfirst _ fun _ _ => rfl]

end Correspondence
end Delegation
