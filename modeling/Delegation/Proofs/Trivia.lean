import Delegation.Proofs.Grammar.CorrespondingStatement
import Delegation.Proofs.Items

/-!
This module contains what trivia mean to the parser of declarations: nothing but whether there is a
line break between two tokens. White space, comments and the number of line breaks do not change
what is parsed, nor how parsing fails.
-/

namespace Delegation

open Item Lexeme

def significant (ls : List Lexeme) : List Lexeme :=
  ls.filter (!·.token.isTrivia)

/--
Whether there is a line break in front of each of the lexemes that are no trivia, up to the one
before it. `isBroken` tells whether there is one in front of all of `ls`.
-/
def breaksFrom (isBroken : Bool) : List Lexeme → List Bool
  | [] => []
  | l :: ls =>
    if l.token.isTrivia then
      breaksFrom (isBroken || l.token == .newline) ls
    else
      isBroken :: breaksFrom false ls

/--
Whether two files differ in their trivia only, and have line breaks between the same tokens.
-/
structure DifferInTrivia (ls others : List Lexeme) : Prop where
  tokens_eq : (significant ls).map Lexeme.token = (significant others).map Lexeme.token
  breaks_eq : (breaksFrom false ls).tail = (breaksFrom false others).tail

instance (ls others : List Lexeme) : Decidable (DifferInTrivia ls others) :=
  decidable_of_iff (_ ∧ _) ⟨fun h => ⟨h.1, h.2⟩, fun h => ⟨h.tokens_eq, h.breaks_eq⟩⟩

theorem map_span_itemsFrom (gap : Gap) (ls : List Lexeme) :
    (itemsFrom gap ls).map Item.span = (significant ls).map Lexeme.span := by
  induction ls generalizing gap with
  | nil => rfl
  | cons l ls ih =>
    cases htrivia : l.token.isTrivia with
    | true => simpa [itemsFrom_cons_trivia ls htrivia, significant, htrivia] using ih (gap.push l)
    | false =>
      simp only [itemsFrom_cons_item ls htrivia, significant, List.map_cons, ih, htrivia,
        Bool.not_false, List.filter_cons_of_pos]
      rfl

theorem map_isOnNewLine_itemsFrom (gap : Gap) (ls : List Lexeme) :
    (itemsFrom gap ls).map Item.isOnNewLine = breaksFrom gap.hasNewline ls := by
  induction ls generalizing gap with
  | nil => rfl
  | cons l ls ih =>
    rw [breaksFrom]
    split
    . next htrivia => rw [itemsFrom_cons_trivia ls htrivia, ih, gap.hasNewline_push l htrivia]
    . next htrivia =>
      rw [itemsFrom_cons_item ls (by simpa using htrivia), List.map_cons, ih]
      rfl

namespace Correspondence

/--
The correspondence between items with equal tokens whose spans are among the pairs of `spans`.
Nothing is said of their offsets.
-/
def alongside (spans : List (Span × Span)) : Correspondence where
  here _ := 0
  there _ := 0
  Relates a b := b.token = a.token ∧ (a.span, b.span) ∈ spans
  tail := []
  resembles h := .inl h.1
  span_eq _ := rfl

theorem twins_alongside {spans : List (Span × Span)} {items others : List Item}
    (htokens : items.map Item.token = others.map Item.token)
    (hbreaks : items.map Item.isOnNewLine = others.map Item.isOnNewLine)
    (hspans : (items.map Item.span).zip (others.map Item.span) ⊆ spans) :
    (alongside spans).Twins items others := by
  induction items generalizing others with
  | nil =>
    cases others with
    | nil => exact .nil rfl
    | cons => cases htokens
  | cons a items ih =>
    cases others with
    | nil => cases htokens
    | cons b others =>
      simp only [List.map_cons, List.cons.injEq, List.zip_cons_cons, List.cons_subset]
        at htokens hbreaks hspans
      exact .cons ⟨⟨htokens.1.symm, hspans.1⟩, rfl, hbreaks.1.symm⟩
        (ih htokens.2 hbreaks.2 hspans.2)

theorem twinsLoosely_alongside {spans : List (Span × Span)} {items others : List Item}
    (htokens : items.map Item.token = others.map Item.token)
    (hbreaks : (items.map Item.isOnNewLine).tail = (others.map Item.isOnNewLine).tail)
    (hspans : (items.map Item.span).zip (others.map Item.span) ⊆ spans) :
    (alongside spans).TwinsLoosely items others := by
  cases items with
  | nil =>
    cases others with
    | nil => rfl
    | cons => cases htokens
  | cons a items =>
    cases others with
    | nil => cases htokens
    | cons b others =>
      simp only [List.map_cons, List.cons.injEq, List.tail_cons, List.zip_cons_cons,
        List.cons_subset] at htokens hbreaks hspans
      have htwins := twins_alongside htokens.2 hbreaks hspans.2
      exact ⟨b, others, rfl, ⟨htokens.1.symm, hspans.1⟩, htwins.behind, fun _ => htwins⟩

end Correspondence

def DeclarationTree.shape (tree : DeclarationTree) : List Statement :=
  Statement.relocateAll (fun _ => 0) tree.statements

/--
Whether two spans are those of tokens that correspond to each other, or the ends of both files.
-/
def PointsAlike (ls others : List Lexeme) (s s' : Span) : Prop :=
  (∃ (k : Nat) (l l' : Lexeme), (significant ls)[k]? = some l ∧ (significant others)[k]? = some l'
      ∧ s = l.span ∧ s' = l'.span)
    ∨ s = ⟨endOfText ls, endOfText ls⟩ ∧ s' = ⟨endOfText others, endOfText others⟩

structure Label.IsLike (ls others : List Lexeme) (label label' : Label) : Prop where
  message_eq : label'.message = label.message
  isPrimary_eq : label'.isPrimary = label.isPrimary
  pointsAlike : PointsAlike ls others label.span label'.span

structure Diagnostic.IsLike (ls others : List Lexeme) (d d' : Diagnostic) : Prop where
  severity_eq : d'.severity = d.severity
  code_eq : d'.code = d.code
  message_eq : d'.message = d.message
  help_eq : d'.help = d.help
  labels : List.Forall₂ (Label.IsLike ls others) d.labels d'.labels

theorem pointsAlike_of_mem_zip {ls others : List Lexeme} {s s' : Span}
    (h : (s, s') ∈ ((significant ls).map Lexeme.span).zip ((significant others).map Lexeme.span)) :
    PointsAlike ls others s s' := by
  obtain ⟨k, hk⟩ := List.mem_iff_getElem?.mp h
  rw [List.getElem?_zip_eq_some, List.getElem?_map, List.getElem?_map] at hk
  obtain ⟨⟨l, hl, rfl⟩, l', hl', rfl⟩ := hk.imp Option.map_eq_some_iff.mp Option.map_eq_some_iff.mp
  exact .inl ⟨k, l, l', hl, hl', rfl, rfl⟩

namespace Correspondence

variable {ls others : List Lexeme} {spans : List (Span × Span)} {x y : Failure}

theorem FailsAlike.found (h : (alongside spans).FailsAlike x y)
    (hspans : ∀ p ∈ spans, PointsAlike ls others p.1 p.2) :
    y.rest.isEmpty = x.rest.isEmpty
      ∧ (y.found (endOfText others)).1 = (x.found (endOfText ls)).1
      ∧ PointsAlike ls others (x.found (endOfText ls)).2 (y.found (endOfText others)).2 := by
  obtain ⟨cause, rest⟩ := x
  obtain ⟨cause', rest'⟩ := y
  have hhead := h.head
  cases rest with
  | nil =>
    cases rest' with
    | nil => exact ⟨rfl, rfl, .inr ⟨rfl, rfl⟩⟩
    | cons => cases hhead
  | cons a rest =>
    cases rest' with
    | nil => cases hhead
    | cons b rest' =>
      obtain ⟨htoken, hmem⟩ : (alongside spans).Relates a b := by
        cases hhead with
        | some hab => exact hab
      exact ⟨rfl, congrArg Token.describe htoken, hspans _ hmem⟩

theorem SameItem.pointsAlike {s s' : Span} (h : (alongside spans).SameItem s s')
    (hspans : ∀ p ∈ spans, PointsAlike ls others p.1 p.2) : PointsAlike ls others s s' := by
  obtain ⟨a, b, ⟨_, hmem⟩, rfl, rfl⟩ := h
  exact hspans _ hmem

theorem FailsAlike.code_eq (h : (alongside spans).FailsAlike x y)
    (hempty : y.rest.isEmpty = x.rest.isEmpty) :
    y.code = x.code ∧ y.expectation = x.expectation := by
  obtain ⟨cause, rest⟩ := x
  obtain ⟨cause', rest'⟩ := y
  have hcause := h.cause
  dsimp only at hcause hempty
  cases hcause <;> simp [Failure.code, Failure.expectation, hempty]

theorem FailsAlike.opening? (h : (alongside spans).FailsAlike x y)
    (hspans : ∀ p ∈ spans, PointsAlike ls others p.1 p.2) :
    Option.Rel (PointsAlike ls others) x.opening? y.opening? := by
  obtain ⟨cause, rest⟩ := x
  obtain ⟨cause', rest'⟩ := y
  cases h.cause with
  | expected what => exact .none
  | unclosed hitem d => exact .some (hitem.pointsAlike hspans)
  | unbalanced hopening what =>
    cases hopening with
    | none => exact .none
    | some hitem => exact .some (hitem.pointsAlike hspans)

theorem FailsAlike.diagnostic (h : (alongside spans).FailsAlike x y)
    (hspans : ∀ p ∈ spans, PointsAlike ls others p.1 p.2) :
    (x.diagnostic (endOfText ls)).IsLike ls others (y.diagnostic (endOfText others)) := by
  obtain ⟨hempty, hname, hspan⟩ := h.found hspans
  obtain ⟨hcode, hexpectation⟩ := h.code_eq hempty
  have hlabels : List.Forall₂ (Label.IsLike ls others)
      (x.opening?.map (⟨·, "opened here", false⟩)).toList
      (y.opening?.map (⟨·, "opened here", false⟩)).toList := by
    have hopening := h.opening? hspans
    generalize x.opening? = o at hopening ⊢
    generalize y.opening? = o' at hopening ⊢
    cases hopening with
    | none => exact .nil
    | some hopening => exact .cons ⟨rfl, rfl, hopening⟩ .nil
  simp only [Failure.diagnostic, hcode, hexpectation, hname]
  exact ⟨rfl, rfl, rfl, rfl, .cons ⟨rfl, rfl, hspan⟩ hlabels⟩

end Correspondence

/--
Files that differ in their trivia only are parsed alike, if they have line breaks between the same
tokens: both have trees of the same shape, in which the same is found, or parsing them fails with
the same message about the same tokens.
-/
theorem ofLexemes_of_differInTrivia {ls others : List Lexeme} (h : DifferInTrivia ls others) :
    (∃ tree tree', DeclarationTree.ofLexemes ls = .ok tree
        ∧ DeclarationTree.ofLexemes others = .ok tree' ∧ tree'.shape = tree.shape
        ∧ ∀ g, (tree'.findings g).map (Finding.relocate fun _ => 0)
          = (tree.findings g).map (Finding.relocate fun _ => 0))
      ∨ ∃ d d', DeclarationTree.ofLexemes ls = .error d
        ∧ DeclarationTree.ofLexemes others = .error d' ∧ d.IsLike ls others d' := by
  let spans := ((significant ls).map Lexeme.span).zip ((significant others).map Lexeme.span)
  have htwins : (Correspondence.alongside spans).TwinsLoosely (Item.ofLexemes ls)
      (Item.ofLexemes others) := by
    show (Correspondence.alongside spans).TwinsLoosely (itemsFrom .empty ls)
      (itemsFrom .empty others)
    apply Correspondence.twinsLoosely_alongside
    . rw [map_token_itemsFrom, map_token_itemsFrom, List.filter_map, List.filter_map]
      exact h.tokens_eq
    . rw [map_isOnNewLine_itemsFrom, map_isOnNewLine_itemsFrom]
      exact h.breaks_eq
    . rw [map_span_itemsFrom, map_span_itemsFrom]
      exact List.Subset.refl _
  have hread := Correspondence.readStatements_readsLike [] htwins
  rw [DeclarationTree.ofLexemes_eq, DeclarationTree.ofLexemes_eq]
  cases hleft : readStatements [] (Item.ofLexemes ls) with
  | ok ss =>
    rw [hleft] at hread
    obtain ⟨ss, ss', rfl, hshape, hothers⟩ := hread
    have hright : readStatements [] (Item.ofLexemes others) = .ok ss' := by
      rw [hothers, List.append_nil]
      exact (readStatements_nil _).trans (by rw [List.reverse_reverse])
    rw [hright]
    refine .inl ⟨_, _, rfl, rfl, hshape, fun g => ?_⟩
    rw [DeclarationTree.findings, DeclarationTree.findings, ← statementsFindings_relocate,
      ← statementsFindings_relocate]
    exact congrArg (statementsFindings g) hshape
  | error x =>
    rw [hleft] at hread
    obtain ⟨y, hright, hxy⟩ := hread rfl []
    rw [hright]
    exact .inr ⟨_, _, rfl, rfl, hxy.diagnostic fun p hp => pointsAlike_of_mem_zip hp⟩

theorem ofLexemes_of_differInTrivia_comment :
    let lexemes (text : String) := (tokenize text.toList).toOption.getD []
    let ls := lexemes "type A = \x7b\n  b?: C[]; d(): \x7b e: F \x7d\n\x7d"
    let others := lexemes "// g\ntype A=/*\n*/\x7b //\n\n b ? :C [ ];d ( ):\x7be:F\x7d\r\n\n\x7d"
    let cut := lexemes "interface A \x7b b: (C"
    let others' := lexemes "\n\ninterface/**/A\x7bb :(\tC // d"
    (∃ tree tree', DeclarationTree.ofLexemes ls = .ok tree
        ∧ DeclarationTree.ofLexemes others = .ok tree' ∧ tree'.shape = tree.shape)
      ∧ ∃ d d', DeclarationTree.ofLexemes cut = .error d
        ∧ DeclarationTree.ofLexemes others' = .error d' ∧ d.IsLike cut others' d' := by
  intro lexemes ls others cut others'
  constructor
  . have h : DifferInTrivia ls others := by decide +kernel
    have hok : (DeclarationTree.ofLexemes ls).isOk = true := by decide +kernel
    rcases ofLexemes_of_differInTrivia h with ⟨tree, tree', htree, htree', hshape, _⟩ | ⟨d, d', hd, _⟩
    . exact ⟨tree, tree', htree, htree', hshape⟩
    . rw [hd] at hok
      cases hok
  . have h : DifferInTrivia cut others' := by decide +kernel
    have hnot : (DeclarationTree.ofLexemes cut).isOk = false := by decide +kernel
    rcases ofLexemes_of_differInTrivia h with ⟨tree, tree', htree, _⟩ | hfail
    . rw [htree] at hnot
      cases hnot
    . exact hfail

end Delegation
