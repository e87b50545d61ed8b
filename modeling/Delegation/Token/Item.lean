import Delegation.Token.Lexeme

/-!
This module contains items: the tokens that carry meaning, with what a parser needs to know about
the trivia in front of them.
-/

namespace Delegation

structure Gap where
  isNarrow : Bool
  hasNewline : Bool
  isLineStart : Bool
  /--
  Where the first comment begins that stands below a line break and not above a blank line.
  -/
  comment : Option Nat
deriving DecidableEq

namespace Gap

def empty : Gap :=
  ⟨true, false, false, none⟩

/--
The gap that `gap` becomes when it is followed by the trivia `l`. A line break at the start of a
line ends a blank line, which cuts off the comments above it.
-/
def push (gap : Gap) (l : Lexeme) : Gap :=
  match l.token with
  | .newline =>
    { isNarrow := false
      hasNewline := true
      isLineStart := true
      comment := if gap.isLineStart then none else gap.comment }
  | .lineComment _ | .blockComment _ =>
    { isNarrow := false
      hasNewline := gap.hasNewline
      isLineStart := false
      comment := if gap.hasNewline then some (gap.comment.getD l.start) else gap.comment }
  | _ => { gap with isNarrow := false }

end Gap

structure Item where
  token : Token
  span : Span
  /--
  Where the comments begin that belong to the item, or the item itself if there are none.
  -/
  lead : Nat
  isOnNewLine : Bool
  isAdjacent : Bool
deriving DecidableEq

namespace Item

def ofLexeme (gap : Gap) (l : Lexeme) : Item where
  token := l.token
  span := l.span
  lead := gap.comment.getD l.start
  isOnNewLine := gap.hasNewline
  isAdjacent := gap.isNarrow

def ofLexemes (lexemes : List Lexeme) : List Item :=
  go [] .empty lexemes
where
  go (acc : List Item) (gap : Gap) : List Lexeme → List Item
    | [] => acc.reverse
    | l :: ls =>
      if l.token.isTrivia then
        go acc (gap.push l) ls
      else
        go (ofLexeme gap l :: acc) .empty ls

end Item
end Delegation
