import Delegation.Proofs.Progress.Declarations
import Delegation.Proofs.Progress.Schemas

/-!
This module contains that both parsers come to an end on every text that is divided into tokens,
after no more calls inside each other than there are items.
-/

namespace Delegation

theorem Item.length_ofLexemes (ls : List Lexeme) :
    (ofLexemes ls).length = (ls.filter (!·.token.isTrivia)).length := by
  have htokens := congrArg List.length (map_token_itemsFrom .empty ls)
  rw [List.length_map, List.filter_map, List.length_map] at htokens
  exact htokens

/--
The parsers of the library are loops that get on: a round that another one follows reads an item,
and so does each parser that is entered where something has to be. So no loop goes round or enters
another one more often than it has items left, and what there is of a text is always parsed or
turned down.
-/
theorem parsers_getOn :
    (DeclarationLoops.IsParser .bounded ∧ DeclarationLoops.GetsOn .bounded
      ∧ ∀ calls, DeclarationLoops.AgreeBelow calls (.within calls) .bounded)
    ∧ (SchemaLoops.IsParser .bounded ∧ SchemaLoops.GetsOn .bounded
      ∧ ∀ calls, SchemaLoops.AgreeBelow calls (.within calls) .bounded)
    ∧ ∀ (ls : List Lexeme) (calls : Nat), (ls.filter (!·.token.isTrivia)).length < calls →
      (DeclarationLoops.within calls).tree ls = some (DeclarationTree.ofLexemes ls)
        ∧ (SchemaLoops.within calls).file ls = some (SchemaFile.ofLexemes ls) := by
  refine ⟨⟨DeclarationLoops.isParser_bounded, DeclarationLoops.getsOn_bounded,
    DeclarationLoops.within_agreeBelow⟩, ⟨SchemaLoops.isParser_bounded, SchemaLoops.getsOn_bounded,
    SchemaLoops.within_agreeBelow⟩, ?_⟩
  intro ls calls h
  rw [← Item.length_ofLexemes] at h
  exact ⟨DeclarationLoops.tree_within h, SchemaLoops.file_within h⟩

def openBrackets : List Lexeme :=
  [⟨0, .identifier "model", "model".toList⟩, ⟨5, .whitespace, [' ']⟩,
   ⟨6, .identifier "A", ['A']⟩, ⟨7, .opening .angle, ['<']⟩, ⟨8, .opening .paren, ['(']⟩,
   ⟨9, .closing .bracket, [']']⟩]

theorem parsers_getOn_openBrackets :
    (openBrackets.filter (!·.token.isTrivia)).length < 6
      ∧ (DeclarationLoops.within 6).tree openBrackets
        = some (DeclarationTree.ofLexemes openBrackets)
      ∧ (SchemaLoops.within 6).file openBrackets = some (SchemaFile.ofLexemes openBrackets) :=
  ⟨by decide, parsers_getOn.2.2 openBrackets 6 (by decide)⟩

/-
A file of two separators is parsed with three calls, but not with two.
-/
example :
    let separators : List Lexeme := [⟨0, .sign .semicolon, [';']⟩, ⟨1, .sign .semicolon, [';']⟩]
    (DeclarationLoops.within 2).tree separators = none
      ∧ (DeclarationLoops.within 3).tree separators = some (.ok ⟨[], ⟨0, 2⟩⟩) :=
  ⟨rfl, rfl⟩

end Delegation
