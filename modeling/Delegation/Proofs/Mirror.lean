import Delegation.Proofs.Grammar.CorrespondingStatement
import Delegation.Proofs.Items

/-!
This module contains files that have the same tokens at different offsets. White space between them
may differ: what is parsed is the same but for the offsets.
-/

namespace Delegation

open Item Lexeme

def Correspondence.moving (f : Nat → Nat) (tail : List Item) : Correspondence where
  here := f
  there := id
  Relates a b := a.token.Resembles b.token ∧ b.span = a.span.relocate f
  tail := tail
  resembles h := h.1
  span_eq h := h.2

/--
Whether `others` are the lexemes `ls` at the offsets that `f` moves them to, white space apart.
-/
inductive Mirrors (f : Nat → Nat) : List Lexeme → List Lexeme → Prop where
  | nil : Mirrors f [] []
  | blank {l : Lexeme} {ls others : List Lexeme} (hl : l.token = .whitespace)
    (htail : Mirrors f ls others) : Mirrors f (l :: ls) others
  | otherBlank {l : Lexeme} {ls others : List Lexeme} (hl : l.token = .whitespace)
    (htail : Mirrors f ls others) : Mirrors f ls (l :: others)
  | newline {l l' : Lexeme} {ls others : List Lexeme} (hl : l.token = .newline)
    (hl' : l'.token = .newline) (htail : Mirrors f ls others) :
    Mirrors f (l :: ls) (l' :: others)
  | comment {l l' : Lexeme} {ls others : List Lexeme} (hl : l.token.IsComment)
    (hl' : l'.token.IsComment) (hstart : l'.start = f l.start) (htail : Mirrors f ls others) :
    Mirrors f (l :: ls) (l' :: others)
  | item {l l' : Lexeme} {ls others : List Lexeme} (hl : l.token.isTrivia = false)
    (htoken : l.token.Resembles l'.token) (hspan : l'.span = l.span.relocate f)
    (htail : Mirrors f ls others) : Mirrors f (l :: ls) (l' :: others)

structure Gap.Mirrors (f : Nat → Nat) (gap other : Gap) : Prop where
  hasNewline_eq : other.hasNewline = gap.hasNewline
  isLineStart_eq : other.isLineStart = gap.isLineStart
  comment_eq : other.comment = gap.comment.map f

theorem Gap.Mirrors.empty (f : Nat → Nat) : Gap.empty.Mirrors f .empty :=
  ⟨rfl, rfl, rfl⟩

namespace Mirrors

variable {f : Nat → Nat} {ls others : List Lexeme}

theorem twins (h : Mirrors f ls others) {gap other : Gap} (hgap : gap.Mirrors f other) :
    (Correspondence.moving f []).Twins (itemsFrom gap ls) (itemsFrom other others) := by
  induction h generalizing gap other with
  | nil => exact .nil rfl
  | @blank l ls others hl _ ih =>
    rw [itemsFrom_cons_trivia ls (by rw [hl]; rfl), gap.push_whitespace hl]
    exact ih ⟨hgap.hasNewline_eq, hgap.isLineStart_eq, hgap.comment_eq⟩
  | @otherBlank l ls others hl _ ih =>
    rw [itemsFrom_cons_trivia others (by rw [hl]; rfl), other.push_whitespace hl]
    exact ih ⟨hgap.hasNewline_eq, hgap.isLineStart_eq, hgap.comment_eq⟩
  | @newline l l' ls others hl hl' _ ih =>
    rw [itemsFrom_cons_trivia ls (by rw [hl]; rfl), itemsFrom_cons_trivia others (by rw [hl']; rfl),
      gap.push_newline hl, other.push_newline hl']
    refine ih ⟨rfl, rfl, ?_⟩
    rw [hgap.isLineStart_eq, hgap.comment_eq]
    split <;> rfl
  | @comment l l' ls others hl hl' hstart _ ih =>
    rw [itemsFrom_cons_trivia ls hl.1, itemsFrom_cons_trivia others hl'.1,
      gap.push_comment hl.1 hl.2.1 hl.2.2, other.push_comment hl'.1 hl'.2.1 hl'.2.2]
    refine ih ⟨hgap.hasNewline_eq, rfl, ?_⟩
    rw [hgap.hasNewline_eq, hgap.comment_eq, hstart]
    cases gap.comment <;> split <;> rfl
  | @item l l' ls others hl htoken hspan _ ih =>
    have hl' : l'.token.isTrivia = false := by
      rw [htoken.congr Token.isTrivia fun _ _ => rfl, hl]
    rw [itemsFrom_cons_item ls hl, itemsFrom_cons_item others hl']
    refine .cons ⟨⟨htoken, hspan⟩, ?_, hgap.hasNewline_eq⟩ (ih (.empty f))
    -- The comment of an item moves with the item that it belongs to.
    show other.comment.getD l'.start = f (gap.comment.getD l.start)
    have hstart : l'.start = f l.start := congrArg Span.start hspan
    rw [hgap.comment_eq, hstart]
    cases gap.comment <;> rfl

theorem twinsLoosely (h : Mirrors f ls others) (gap other : Gap) :
    (Correspondence.moving f []).TwinsLoosely (itemsFrom gap ls) (itemsFrom other others) := by
  induction h generalizing gap other with
  | nil => rfl
  | @blank l ls others hl _ ih =>
    rw [itemsFrom_cons_trivia ls (by rw [hl]; rfl)]
    exact ih ..
  | @otherBlank l ls others hl _ ih =>
    rw [itemsFrom_cons_trivia others (by rw [hl]; rfl)]
    exact ih ..
  | @newline l l' ls others hl hl' _ ih =>
    rw [itemsFrom_cons_trivia ls (by rw [hl]; rfl), itemsFrom_cons_trivia others (by rw [hl']; rfl)]
    exact ih ..
  | @comment l l' ls others hl hl' _ _ ih =>
    rw [itemsFrom_cons_trivia ls hl.1, itemsFrom_cons_trivia others hl'.1]
    exact ih ..
  | @item l l' ls others hl htoken hspan htail =>
    have hl' : l'.token.isTrivia = false := by
      rw [htoken.congr Token.isTrivia fun _ _ => rfl, hl]
    rw [itemsFrom_cons_item ls hl, itemsFrom_cons_item others hl']
    have htwins := htail.twins (.empty f)
    exact ⟨_, _, rfl, ⟨htoken, hspan⟩, htwins.behind, fun _ => htwins⟩

theorem cons {l l' : Lexeme} (htoken : l'.token = l.token) (hspan : l'.span = l.span.relocate f)
    (htail : Mirrors f ls others) : Mirrors f (l :: ls) (l' :: others) := by
  cases htrivia : l.token.isTrivia with
  | false => exact .item htrivia (.inl htoken) hspan htail
  | true =>
    by_cases hnewline : l.token = .newline
    . exact .newline hnewline (htoken.trans hnewline) htail
    by_cases hblank : l.token = .whitespace
    . exact .blank hblank (.otherBlank (htoken.trans hblank) htail)
    . have hcomment : l.token.IsComment := ⟨htrivia, hnewline, hblank⟩
      exact .comment hcomment (htoken ▸ hcomment) (congrArg Span.start hspan) htail

theorem symm {g : Nat → Nat} (hg : Function.LeftInverse g f) (h : Mirrors f ls others) :
    Mirrors g others ls := by
  induction h with
  | nil => exact .nil
  | blank hl _ ih => exact .otherBlank hl ih
  | otherBlank hl _ ih => exact .blank hl ih
  | newline hl hl' _ ih => exact .newline hl' hl ih
  | comment hl hl' hstart _ ih => exact .comment hl' hl (by rw [hstart, hg]) ih
  | item hl htoken hspan _ ih =>
    refine .item ?_ htoken.symm ?_ ih
    . rw [htoken.congr Token.isTrivia fun _ _ => rfl, hl]
    . rw [hspan]
      simp only [Span.relocate, hg _]

end Mirrors

def statementsOf? (acc : List Statement) (items : List Item) : Option (List Statement) :=
  ((parseStatements none acc items).map (·.value.1)).toOption

theorem parse_eq_ok_iff {source : List Char} {ls : List Lexeme} (hls : Lexes 0 source ls)
    {ss : List Statement} :
    (∃ tree, DeclarationTree.parse source = .ok tree ∧ tree.statements = ss)
      ↔ statementsOf? [] (itemsFrom .empty ls) = some ss := by
  change _ ↔ (readStatements [] (Item.ofLexemes ls)).toOption = some ss
  rw [DeclarationTree.parse, tokenize_eq_ok.mpr hls]
  dsimp only [bind, Except.bind]
  rw [DeclarationTree.ofLexemes_eq]
  cases readStatements [] (Item.ofLexemes ls) with
  | ok all =>
    rw [Except.toOption, Option.some.injEq]
    constructor
    . rintro ⟨tree, htree, rfl⟩
      cases htree
      rfl
    . rintro rfl
      exact ⟨_, rfl, rfl⟩
  | error x =>
    constructor
    . rintro ⟨tree, htree, _⟩
      cases htree
    . intro h
      cases h

/--
What is parsed of items that are moved is the same at their offsets, in front of what is parsed
behind them.
-/
theorem statementsOf?_moving {f : Nat → Nat} {tail items others : List Item}
    (h : (Correspondence.moving f tail).TwinsLoosely items others) {acc all : List Statement}
    (hall : statementsOf? acc items = some all) :
    ∃ ss, all = acc.reverse ++ ss ∧ ∀ acc', statementsOf? acc' others
      = statementsOf? ((Statement.relocateAll f ss).reverse ++ acc') tail := by
  have hread := Correspondence.readStatements_readsLike acc h
  change (readStatements acc items).toOption = some all at hall
  cases hp : readStatements acc items with
  | error x =>
    rw [hp] at hall
    cases hall
  | ok all' =>
    rw [hp] at hall hread
    cases hall
    obtain ⟨ss, ss', hss, hss', hothers⟩ := hread
    have hmoved : ss' = Statement.relocateAll f ss := (Statement.relocateAll_id ss').symm.trans hss'
    subst hmoved
    exact ⟨ss, hss, fun acc' => congrArg Except.toOption (hothers acc')⟩

theorem statementsOf?_nil (acc : List Statement) : statementsOf? acc [] = some acc.reverse :=
  congrArg Except.toOption (readStatements_nil acc)

theorem Mirrors.statementsOf?_eq {f : Nat → Nat} {ls others : List Lexeme}
    (h : Mirrors f ls others) (gap other : Gap) {acc all : List Statement}
    (hall : statementsOf? acc (itemsFrom gap ls) = some all) :
    ∃ ss, all = acc.reverse ++ ss ∧ ∀ acc', statementsOf? acc' (itemsFrom other others)
      = some (acc'.reverse ++ Statement.relocateAll f ss) := by
  obtain ⟨ss, hss, hothers⟩ := statementsOf?_moving (h.twinsLoosely gap other) hall
  refine ⟨ss, hss, fun acc' => ?_⟩
  rw [hothers, statementsOf?_nil, List.reverse_append, List.reverse_reverse]

end Delegation
