import Delegation.Proofs.Grammar.Groups
import Delegation.Proofs.Grammar.SchemaFailing
import Delegation.Proofs.Lossless
import Delegation.Proofs.Partners

/-!
This module contains what the errors of the two parsers say: which kind of error it is, at which
token it was found, and which delimiter was still open there.
-/

namespace Delegation

open Item Lexeme

namespace Lexeme

def AreInOrder (ls : List Lexeme) : Prop :=
  ls.Pairwise fun l r => l.stop ≤ r.start

/--
Where an error is found in front of `rest`, which a text ends with that ends at `endOfText`: at the
first token that is no trivia.
-/
def placeIn (endOfText : Nat) (rest : List Lexeme) : Span :=
  match rest.find? (!·.token.isTrivia) with
  | some l => l.span
  | none => ⟨endOfText, endOfText⟩

/--
Whether `opener` opens a delimiter in `read` that is not closed there. All brackets behind it have
their partners among each other.
-/
structure IsLeftOpen (read : List Lexeme) (opener : Lexeme) : Prop where
  exists_delimiter : ∃ d, opener.token = .opening d
  exists_inner : ∃ before inner, read = before ++ opener :: inner
    ∧ IsWellNested (Lexeme.delimitersOf inner)
    ∧ ∀ between closer after, inner = between ++ closer :: after →
      IsWellNested (Lexeme.delimitersOf between) → closer.token.isClosing = false

end Lexeme

/--
Whether `d` is the error of a parser that has read `read` and fails in front of `rest`.
-/
structure Diagnostic.IsSyntaxErrorAt (read rest : List Lexeme) (d : Diagnostic) : Prop where
  severity : d.severity = .error
  code : d.code = some .unexpectedToken ∨ d.code = some .incompleteInput
    ∨ d.code = some .unbalancedDelimiter
  incompleteInput_iff : d.code = some .incompleteInput ↔ ∀ l ∈ rest, l.token.isTrivia = true
  help_iff : d.help.isSome = true ↔ d.code = some .incompleteInput
  unbalancedDelimiter : d.code = some .unbalancedDelimiter →
    ∃ l, rest.find? (!·.token.isTrivia) = some l ∧ l.token.isClosing = true
  labels : ∃ primary others, d.labels = primary :: others ∧ primary.isPrimary = true
    ∧ primary.span = placeIn (endOfText (read ++ rest)) rest ∧ others.length ≤ 1
    ∧ ∀ label ∈ others, label.isPrimary = false
      ∧ (∃ opener, IsLeftOpen read opener ∧ label.span = opener.span)
      ∧ (AreInOrder (read ++ rest) → label.span.stop ≤ primary.span.start)

theorem isTrivia_of_mem_itemsFrom {gap : Gap} {ls : List Lexeme} {item : Item}
    (h : item ∈ itemsFrom gap ls) : item.token.isTrivia = false := by
  obtain ⟨l, _, htoken, _, hl⟩ := exists_lexeme_of_mem_itemsFrom h
  rw [← htoken]
  exact hl

theorem IsWellNested.isClosing_eq_false {between after : List Lexeme} {l : Lexeme}
    (h : IsWellNested (Lexeme.delimitersOf (between ++ l :: after)))
    (hbetween : IsWellNested (Lexeme.delimitersOf between)) : l.token.isClosing = false := by
  cases hl : l.token with
  | closing d =>
    have htrivia : l.token.isTrivia = false := by simp [hl, Token.isTrivia]
    rw [← delimitersOf_itemsFrom .empty] at h hbetween
    have hall := h.isBalanced rfl
    rw [itemsFrom_append, itemsFrom_cons_item _ htrivia, IsBalanced, nest?_append,
      (hbetween.isBalanced rfl).nest?_eq, Option.bind_some, nest?_cons] at hall
    simp [Item.nest?, ofLexeme, hl] at hall
  | _ => rfl

theorem AreOpen.exists_isLeftOpen {read : List Lexeme} {gap : Gap} {opening : OpenDelimiter}
    (h : AreOpen [opening] (itemsFrom gap read)) :
    ∃ opener, IsLeftOpen read opener ∧ opening.span = opener.span := by
  obtain ⟨before, opener, inner, hread, hopener, hspan, hinner, _⟩ := h
  obtain ⟨front, l, rest, rfl, _, htoken, hl, rfl⟩ := itemsFrom_eq_append_cons hread
  have hnested := hinner.isWellNested
  rw [delimitersOf_itemsFrom] at hnested
  refine ⟨l, ⟨⟨_, htoken.trans hopener⟩, front, rest, rfl, hnested, ?_⟩, ?_⟩
  . rintro between closer after rfl hbetween
    exact hnested.isClosing_eq_false hbetween
  . rw [hl, hspan]

inductive BeginsAlike (rest : List Lexeme) : List Item → Prop where
  | none (hfind : rest.find? (!·.token.isTrivia) = none) : BeginsAlike rest []
  | token {l : Lexeme} {item : Item} {left : List Item}
    (hfind : rest.find? (!·.token.isTrivia) = some l) (htoken : l.token = item.token)
    (hspan : l.span = item.span) : BeginsAlike rest (item :: left)

theorem exists_beginsAlike {ls : List Lexeme} {items left : List Item}
    (h : itemsFrom .empty ls = items ++ left) :
    ∃ read rest, ls = read ++ rest ∧ itemsFrom .empty read = items ∧ BeginsAlike rest left := by
  cases left with
  | nil =>
    rw [List.append_nil] at h
    exact ⟨ls, [], by simp, h, .none rfl⟩
  | cons item left =>
    have hitem : item.token.isTrivia = false := by
      have hmem : item ∈ itemsFrom .empty ls := by simp [h]
      exact isTrivia_of_mem_itemsFrom hmem
    obtain ⟨front, l, rest, rfl, hfront, htoken, hspan, _⟩ := itemsFrom_eq_append_cons h
    have hfind : (l :: rest).find? (!·.token.isTrivia) = some l :=
      List.find?_cons_of_pos (by simp [htoken, hitem])
    exact ⟨front, l :: rest, rfl, hfront, .token hfind htoken hspan⟩

theorem Lexeme.IsLeftOpen.stop_le {read rest : List Lexeme} {opener : Lexeme}
    (h : IsLeftOpen read opener) (hls : AreInOrder (read ++ rest)) :
    opener.stop ≤ (placeIn (endOfText (read ++ rest)) rest).start := by
  obtain ⟨before, inner, rfl, _⟩ := h.exists_inner
  unfold placeIn
  split
  . next l hfind =>
    have hl := List.mem_of_find?_eq_some hfind
    exact (List.pairwise_append.mp hls).2.2 opener (by simp) l hl
  . rw [List.append_assoc, List.cons_append] at hls ⊢
    have hbehind := (List.pairwise_cons.mp (List.pairwise_append.mp hls).2.1).1
    have hlast : (before ++ opener :: (inner ++ rest)).getLast?
        = some ((opener :: (inner ++ rest)).getLast (by simp)) := by
      rw [List.getLast?_append, List.getLast?_eq_some_getLast (by simp), Option.some_or]
    rw [endOfText, hlast, Option.map_some, Option.getD_some]
    rcases List.mem_cons.mp (List.getLast_mem (l := opener :: (inner ++ rest)) (by simp))
      with heq | hmem
    . rw [heq]
    . exact Nat.le_trans (hbehind _ hmem) (Nat.le_add_right ..)

namespace Failure

variable {f : Failure} {used : List Item}

theorem FitsBehind.code_eq_incompleteInput (h : f.FitsBehind used) :
    f.code = .incompleteInput ↔ f.rest = [] := by
  obtain ⟨cause, rest⟩ := f
  cases cause with
  | expected what => cases rest <;> simp [code]
  | unclosed opening d => simpa [code] using h.1
  | unbalanced opening what =>
    have : rest ≠ [] := by
      rintro rfl
      cases h.1
    simp [code, this]

theorem FitsBehind.startsWith_isClosing (h : f.FitsBehind used)
    (hcode : f.code = .unbalancedDelimiter) : startsWith Token.isClosing f.rest = true := by
  obtain ⟨cause, rest⟩ := f
  cases cause with
  | expected what => cases rest <;> simp [code] at hcode
  | unclosed opening d => cases hcode
  | unbalanced opening what => exact h.1

theorem FitsBehind.areOpen (h : f.FitsBehind used) {span : Span} (hspan : f.opening? = some span) :
    ∃ d, AreOpen [⟨d, span⟩] used := by
  obtain ⟨cause, rest⟩ := f
  cases cause with
  | expected what => cases hspan
  | unclosed opening d =>
    cases hspan
    exact ⟨d, h.2⟩
  | unbalanced opening what => exact h.2 span hspan

theorem FitsBehind.isSyntaxErrorAt {read rest : List Lexeme}
    (h : f.FitsBehind (itemsFrom .empty read)) (hrest : BeginsAlike rest f.rest) :
    (f.diagnostic (endOfText (read ++ rest))).IsSyntaxErrorAt read rest where
  severity := rfl
  code := by
    have : f.code = .unexpectedToken ∨ f.code = .incompleteInput
        ∨ f.code = .unbalancedDelimiter := by
      unfold Failure.code
      split
      . split <;> simp
      . simp
      . simp
    simpa [diagnostic] using this
  incompleteInput_iff := by
    have hcode : (f.diagnostic (endOfText (read ++ rest))).code = some .incompleteInput
        ↔ f.rest = [] := by simpa [diagnostic] using h.code_eq_incompleteInput
    rw [hcode]
    generalize f.rest = left at hrest
    cases hrest with
    | none hfind => simpa using hfind
    | @token l _ _ hfind =>
      have hl : l.token.isTrivia = false := by simpa using List.find?_some hfind
      simpa using ⟨l, List.mem_of_find?_eq_some hfind, hl⟩
  help_iff := by
    unfold diagnostic
    dsimp only
    split
    . next hcode => simp [hcode]
    . next hcode => simpa using hcode
  unbalancedDelimiter := by
    intro hcode
    have hclosing := h.startsWith_isClosing (Option.some.inj hcode)
    generalize f.rest = left at hrest hclosing
    cases hrest with
    | none => cases hclosing
    | @token l _ _ hfind htoken => exact ⟨l, hfind, htoken ▸ hclosing⟩
  labels := by
    have hplace : (f.found (endOfText (read ++ rest))).2
        = placeIn (endOfText (read ++ rest)) rest := by
      unfold found placeIn
      generalize f.rest = left at hrest
      cases hrest with
      | none hfind => rw [hfind]
      | token hfind _ hspan =>
        rw [hfind]
        exact hspan.symm
    refine ⟨_, _, rfl, rfl, hplace, ?_, ?_⟩
    . cases f.opening? <;> simp
    . intro label hlabel
      obtain ⟨span, hspan, rfl⟩ := by simpa using hlabel
      obtain ⟨d, hopen⟩ := h.areOpen hspan
      obtain ⟨opener, hopener, rfl⟩ := hopen.exists_isLeftOpen
      refine ⟨rfl, ⟨opener, hopener, rfl⟩, fun hls => ?_⟩
      exact hplace ▸ hopener.stop_le hls

end Failure

theorem exists_isSyntaxErrorAt {ls : List Lexeme} {d : Diagnostic}
    (h : DeclarationTree.ofLexemes ls = .error d ∨ SchemaFile.ofLexemes ls = .error d) :
    ∃ read rest, ls = read ++ rest ∧ d.IsSyntaxErrorAt read rest := by
  have hfailure : ∃ f : Failure, d = f.diagnostic (endOfText ls)
      ∧ ∃ items, itemsFrom .empty ls = items ++ f.rest ∧ f.FitsBehind items := by
    rcases h with h | h
    . unfold DeclarationTree.ofLexemes at h
      dsimp only at h
      split at h
      . cases h
      . next f hparse =>
        cases h
        have := @failsAmong_parseStatements [] none (by simp) [] (Item.ofLexemes ls)
        rw [hparse] at this
        exact ⟨f, rfl, this.exists_read⟩
    . unfold SchemaFile.ofLexemes at h
      split at h
      . cases h
      . next f hparse =>
        cases h
        exact ⟨f, rfl, exists_read_of_parseModels [] hparse⟩
  obtain ⟨f, rfl, items, hitems, hfits⟩ := hfailure
  obtain ⟨read, rest, rfl, rfl, hbegins⟩ := exists_beginsAlike hitems
  exact ⟨read, rest, rfl, hfits.isSyntaxErrorAt hbegins⟩

end Delegation
