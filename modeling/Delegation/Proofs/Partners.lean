import Delegation.Proofs.Grammar.Node
import Delegation.Proofs.Items

/-!
This module contains that only files are parsed in which every bracket has its partner, and that the
nodes with braces end with the partner of the brace that they begin their members or statements with.
-/

namespace Delegation

open Item

namespace Lexeme

def delimitersOf (ls : List Lexeme) : List Token :=
  (ls.map token).filter Token.isDelimiter

theorem delimitersOf_cons (l : Lexeme) (ls : List Lexeme) :
    delimitersOf (l :: ls) = (if l.token.isDelimiter then [l.token] else []) ++ delimitersOf ls :=
  filter_isDelimiter_cons ..

end Lexeme

/--
Whether `span` is that of lexemes of `ls` that end with the braces `opener` and `closer`, where
`head` comes in front of the braces. The two are partners: so are all brackets between them.
-/
structure EndsWithBraces (ls : List Lexeme) (span : Span) (head : List Lexeme)
    (opener closer : Lexeme) : Prop where
  exists_inner : ∃ inner, head ++ opener :: (inner ++ [closer]) <:+: ls
    ∧ IsWellNested (Lexeme.delimitersOf inner)
  opener_token : opener.token = .opening .brace
  closer_token : closer.token = .closing .brace
  start : ∀ l ∈ (head ++ [opener]).head?, l.start = span.start
  stop : closer.stop = span.stop

/--
Whether a declaration with a body has `span`: it ends with the partner of its first brace that does
not stand between other brackets.
-/
def EndsWithBody (ls : List Lexeme) (span : Span) : Prop :=
  ∃ head opener closer, EndsWithBraces ls span head opener closer
    ∧ IsBraceless (Lexeme.delimitersOf head)

def Node.EndsWithPartner (ls : List Lexeme) : Node → Prop
  | object o => ∃ opener closer, EndsWithBraces ls o.span [] opener closer
  | interfaceBlock b | classBlock b => EndsWithBody ls b.span
  | namespaceBlock _ _ span => EndsWithBody ls span
  | statement _ | typeAlias _ | other .. | member .. => True

theorem delimitersOf_itemsFrom (gap : Gap) (ls : List Lexeme) :
    Item.delimitersOf (itemsFrom gap ls) = Lexeme.delimitersOf ls := by
  induction ls generalizing gap with
  | nil => rfl
  | cons l ls ih =>
    rw [Lexeme.delimitersOf_cons]
    cases htrivia : l.token.isTrivia with
    | true =>
      have : l.token.isDelimiter = false := by
        cases htoken : l.token with
        | opening => simp [htoken, Token.isTrivia] at htrivia
        | closing => simp [htoken, Token.isTrivia] at htrivia
        | _ => rfl
      rw [itemsFrom_cons_trivia ls htrivia, ih, this]
      rfl
    | false =>
      rw [itemsFrom_cons_item ls htrivia, delimitersOf_cons, ih]
      rfl

theorem stopAfter_of_braces {first opener closer : Item} {more head inner : List Item}
    (hused : first :: more = head ++ opener :: (inner ++ [closer])) :
    stopAfter first.span.stop more = closer.span.stop := by
  have := congrArg (stopAfter 0) hused
  simpa only [stopAfter_append, stopAfter] using this

theorem exists_endsWithBraces {ls : List Lexeme} {first opener closer : Item}
    {more head inner : List Item} (hls : first :: more <:+: itemsFrom .empty ls)
    (hused : first :: more = head ++ opener :: (inner ++ [closer]))
    (hopener : opener.token = .opening .brace) (hcloser : closer.token = .closing .brace)
    (hinner : IsBalanced inner) :
    ∃ head' opener' closer',
      EndsWithBraces ls ⟨first.span.start, stopAfter first.span.stop more⟩ head' opener' closer'
        ∧ (head = [] → head' = []) ∧ Lexeme.delimitersOf head' = Item.delimitersOf head
        ∧ opener'.span = opener.span ∧ closer'.span = closer.span := by
  have hstop := stopAfter_of_braces hused
  obtain ⟨before, after, hitems⟩ := hls
  rw [hused] at hitems
  have hopening : itemsFrom .empty ls = (before ++ head) ++ opener :: (inner ++ closer :: after) := by
    rw [← hitems]
    simp
  obtain ⟨front, l, rest, rfl, hfront, hl, hlspan, hrest⟩ := itemsFrom_eq_append_cons hopening
  obtain ⟨between, r, tail, rfl, hbetween, hr, hrspan, _⟩ := itemsFrom_eq_append_cons hrest.symm
  have hnested : IsWellNested (Lexeme.delimitersOf between) := by
    rw [← delimitersOf_itemsFrom .empty, hbetween]
    exact hinner.isWellNested
  have hlstart : l.start = opener.span.start := congrArg Span.start hlspan
  have hrstop : r.stop = stopAfter first.span.stop more := (congrArg Span.stop hrspan).trans hstop.symm
  cases head with
  | nil =>
    cases hused
    refine ⟨[], l, r, ⟨⟨between, ⟨front, tail, by simp⟩, hnested⟩, hl.trans hopener, hr.trans hcloser,
      ?_, hrstop⟩, fun _ => rfl, rfl, hlspan, hrspan⟩
    rintro _ ⟨⟩
    exact hlstart
  | cons x head =>
    cases hused
    obtain ⟨front, f, words, rfl, _, hf, hfspan, hwords⟩ := itemsFrom_eq_append_cons hfront
    refine ⟨f :: words, l, r, ⟨⟨between, ⟨front, tail, by simp⟩, hnested⟩, hl.trans hopener,
      hr.trans hcloser, ?_, hrstop⟩, by simp, ?_, hlspan, hrspan⟩
    . rintro _ ⟨⟩
      exact congrArg Span.start hfspan
    . rw [Lexeme.delimitersOf_cons, delimitersOf_cons, hf, hwords, delimitersOf_itemsFrom]

theorem endsWithBody_of_items {ls : List Lexeme} {first opener closer : Item}
    {more head inner : List Item} (hls : first :: more <:+: itemsFrom .empty ls)
    (hused : first :: more = head ++ opener :: (inner ++ [closer]))
    (hhead : IsBraceless (Item.delimitersOf head)) (hopener : opener.token = .opening .brace)
    (hcloser : closer.token = .closing .brace) (hinner : IsBalanced inner) :
    EndsWithBody ls ⟨first.span.start, stopAfter first.span.stop more⟩ := by
  obtain ⟨head', opener', closer', hends, _, hdelimiters, _⟩ :=
    exists_endsWithBraces hls hused hopener hcloser hinner
  exact ⟨head', opener', closer', hends, hdelimiters ▸ hhead⟩

theorem Node.IsReadFrom.endsWithPartner {ls : List Lexeme} {used : List Item} {node : Node}
    (h : node.IsReadFrom used) (hls : used <:+: itemsFrom .empty ls) : node.EndsWithPartner ls := by
  cases node with
  | object o =>
    obtain ⟨opener, inner, closer, rfl, hopener, hcloser, hinner, hspan⟩ := h
    have hused : opener :: (inner ++ [closer]) = [] ++ opener :: (inner ++ [closer]) := rfl
    obtain ⟨head, opener', closer', hends, hhead, _⟩ :=
      exists_endsWithBraces hls hused hopener hcloser hinner.isBalanced
    obtain rfl := hhead rfl
    rw [stopAfter_append] at hends
    exact ⟨opener', closer', hspan ▸ hends⟩
  | interfaceBlock b =>
    cases h with
    | interfaceBlock hused hhead hopener hcloser hinner =>
      exact endsWithBody_of_items hls hused hhead.isBraceless hopener hcloser hinner.isBalanced
  | classBlock b =>
    cases h with
    | classBlock hused hhead hopener hcloser hinner =>
      exact endsWithBody_of_items hls hused hhead.isBraceless hopener hcloser hinner.isBalanced
  | namespaceBlock name body span =>
    cases h with
    | namespaceBlock hused hhead hopener hcloser hinner =>
      exact endsWithBody_of_items hls hused (isBraceless_of_delimitersOf hhead) hopener hcloser
        hinner.isBalanced
  | statement | typeAlias | other | member => trivial

/--
Only files are parsed in which all brackets have their partners. Every node that has braces ends
with the partner of the one that opens it.
-/
theorem DeclarationTree.ofLexemes_isWellNested {ls : List Lexeme} {tree : DeclarationTree}
    (h : ofLexemes ls = .ok tree) :
    IsWellNested (Lexeme.delimitersOf ls)
      ∧ ∀ node ∈ tree.visit fun _ => false, node.EndsWithPartner ls := by
  obtain ⟨hstatements, _⟩ := ofLexemes_eq_ok h
  constructor
  . rw [← delimitersOf_itemsFrom .empty]
    exact hstatements.isBalanced.isWellNested
  . intro node hnode
    obtain ⟨used, hused, hread⟩ := hstatements.isReadIn node hnode
    exact hread.endsWithPartner hused

theorem DeclarationTree.ofLexemes_isWellNested_class :
    let source := "class A<B extends \x7b c: D \x7d> \x7b e: [\x7b f: G \x7d] \x7d".toList
    let ls := (pieces source).filterMap Piece.lexeme?
    ∃ tree, ofLexemes ls = .ok tree ∧ IsWellNested (Lexeme.delimitersOf ls)
      ∧ ∀ node ∈ tree.visit fun _ => false, node.EndsWithPartner ls := by
  intro source ls
  have hok : (ofLexemes ls).isOk = true := by decide +kernel
  obtain ⟨tree, h⟩ := exists_of_isOk hok
  exact ⟨tree, h, ofLexemes_isWellNested h⟩

end Delegation
