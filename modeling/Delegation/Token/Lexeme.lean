import Delegation.Diagnostic
import Delegation.Text.Alphabetic
import Delegation.Text.Blank
import Delegation.Text.Numeric
import Delegation.Token
import Delegation.Token.Quoted

/-!
This module contains the lexer. It divides a source text into lexemes without a gap: white space,
line breaks and comments are lexemes as well. After an error it goes on, so that all errors of a
text are found at once.
-/

namespace Delegation

structure Lexeme where
  start : Nat
  token : Token
  text : List Char
deriving DecidableEq

namespace Lexeme

def stop (l : Lexeme) : Nat :=
  l.start + byteLength l.text

def span (l : Lexeme) : Span :=
  ⟨l.start, l.stop⟩

end Lexeme

inductive FaultKind where
  | unterminatedString
  | unexpectedCharacter (c : Char)
  | unterminatedComment
  | unterminatedTemplate
deriving DecidableEq

namespace FaultKind

def code : FaultKind → Code
  | unterminatedString => .unterminatedString
  | unexpectedCharacter _ => .unexpectedCharacter
  | unterminatedComment => .unterminatedComment
  | unterminatedTemplate => .unterminatedTemplate

def message : FaultKind → String
  | unterminatedString => "unterminated string literal"
  | unexpectedCharacter c => "unexpected character `" ++ c.toString ++ "`"
  | unterminatedComment => "unterminated block comment"
  | unterminatedTemplate => "unterminated template literal"

def help : FaultKind → Option String
  | unterminatedString => some "add the closing quote before the end of the line"
  | unexpectedCharacter _ => none
  | unterminatedComment => some "add closing `*/`"
  | unterminatedTemplate => some "add closing '`'"

/--
Whether a fault of this kind reaches to the end of the source, so that what follows it would only
be reported for its sake.
-/
def isFinal : FaultKind → Bool
  | unterminatedComment | unterminatedTemplate => true
  | unterminatedString | unexpectedCharacter _ => false

end FaultKind

structure Fault where
  start : Nat
  kind : FaultKind
  text : List Char
deriving DecidableEq

namespace Fault

def stop (f : Fault) : Nat :=
  f.start + byteLength f.text

def span (f : Fault) : Span :=
  ⟨f.start, f.stop⟩

def diagnostic (f : Fault) : Diagnostic where
  severity := .error
  code := some f.kind.code
  message := f.kind.message
  labels := [⟨f.span, f.kind.code.description, true⟩]
  help := f.kind.help

end Fault

inductive Piece where
  | lexeme (l : Lexeme)
  | fault (f : Fault)
deriving DecidableEq

namespace Piece

def stop : Piece → Nat
  | lexeme l => l.stop
  | fault f => f.stop

def isFinal : Piece → Bool
  | lexeme _ => false
  | fault f => f.kind.isFinal

def lexeme? : Piece → Option Lexeme
  | lexeme l => some l
  | fault _ => none

def fault? : Piece → Option Fault
  | lexeme _ => none
  | fault f => some f

end Piece

def isIdentifierStart (c : Char) : Bool :=
  isAlphabetic c || c == '_' || c == '$'

def isIdentifierPart (c : Char) : Bool :=
  isAlphabetic c || isNumeric c || c == '_' || c == '$'

/--
Numbers are not told apart: exponents, other bases and suffixes are all part of the run.
-/
def isNumberPart (c : Char) : Bool :=
  c.isAlphanum || c == '_' || c == '.'

def Sign.ofChar? : Char → Option Sign
  | '@' => some .atSign
  | '=' => some .equals
  | ':' => some .colon
  | '?' => some .question
  | '!' => some .bang
  | '|' => some .pipe
  | '&' => some .ampersand
  | '.' => some .dot
  | '-' => some .minus
  | '+' => some .plus
  | '*' => some .star
  | '#' => some .hash
  | ';' => some .semicolon
  | ',' => some .comma
  | _ => none

def Token.ofChar? : Char → Option Token
  | '{' => some (.opening .brace)
  | '}' => some (.closing .brace)
  | '(' => some (.opening .paren)
  | ')' => some (.closing .paren)
  | '[' => some (.opening .bracket)
  | ']' => some (.closing .bracket)
  | '<' => some (.opening .angle)
  | '>' => some (.closing .angle)
  | '\n' => some .newline
  | c => (Sign.ofChar? c).map .sign

def blockCommentBody? : List Char → Option (List Char × List Char)
  | '*' :: '/' :: cs => some ([], cs)
  | c :: cs => (blockCommentBody? cs).map fun (body, rest) => (c :: body, rest)
  | [] => none

theorem blockCommentBody?_eq_some {cs body rest : List Char}
    (h : blockCommentBody? cs = some (body, rest)) : body ++ '*' :: '/' :: rest = cs := by
  fun_induction blockCommentBody? cs generalizing body <;> simp_all
  grind

theorem length_lt_of_blockCommentBody? {cs body rest : List Char}
    (h : blockCommentBody? cs = some (body, rest)) : rest.length < cs.length := by
  have := congrArg List.length (blockCommentBody?_eq_some h)
  simp only [List.length_append, List.length_cons] at this
  omega

def readPiece (start : Nat) (c : Char) (cs : List Char) : Piece × List Char :=
  match c, cs with
  | '/', '*' :: cs =>
    match blockCommentBody? cs with
    | some (body, rest) =>
      found (.blockComment (.ofList body)) ('/' :: '*' :: (body ++ ['*', '/'])) rest
    | none => fault start .unterminatedComment ['/', '*'] cs
  | '/', '/' :: cs =>
    let body := cs.takeWhile (· != '\n')
    found (.lineComment (.ofList body)) ('/' :: '/' :: body) (cs.dropWhile (· != '\n'))
  | '=', '>' :: cs => found (.sign .arrow) ['=', '>'] cs
  | '.', '.' :: '.' :: cs => found (.sign .ellipsis) ['.', '.', '.'] cs
  | '@', '@' :: cs => found (.sign .doubleAt) ['@', '@'] cs
  | c, cs =>
    if c == '\x27' || c == '\x22' then
      match quotedString c cs with
      | .closed text rest => found (.string (content text)) text rest
      | .unclosed quotation before text rest => unclosed quotation before text rest
    else if c == '\x60' then
      match quotedTemplate cs with
      | .closed text rest => found (.template (content text)) text rest
      | .unclosed quotation before text rest => unclosed quotation before text rest
    else if c.isDigit then
      let text := c :: cs.takeWhile isNumberPart
      found (.number (.ofList text)) text (cs.dropWhile isNumberPart)
    else if isIdentifierStart c then
      let text := c :: cs.takeWhile isIdentifierPart
      found (.identifier (.ofList text)) text (cs.dropWhile isIdentifierPart)
    else
      match Token.ofChar? c with
      | some token => found token [c] cs
      | none =>
        if isBlank c then
          found .whitespace (c :: cs.takeWhile isSpacing) (cs.dropWhile isSpacing)
        else
          fault start (.unexpectedCharacter c) [c] cs
where
  found (token : Token) (text rest : List Char) : Piece × List Char :=
    (.lexeme ⟨start, token, text⟩, rest)
  fault (start : Nat) (kind : FaultKind) (text rest : List Char) : Piece × List Char :=
    (.fault ⟨start, kind, text⟩, rest)
  content (text : List Char) : String :=
    .ofList (text.drop 1).dropLast
  unclosed (quotation : Quotation) (before text rest : List Char) : Piece × List Char :=
    let kind := match quotation with
      | .string => .unterminatedString
      | .template => .unterminatedTemplate
    fault (start + byteLength before) kind text rest
  isSpacing (c : Char) : Bool :=
    isBlank c && c != '\n'

theorem readPiece_rest_length_le (start : Nat) (c : Char) (cs : List Char) :
    (readPiece start c cs).2.length ≤ cs.length := by
  have dropWhile_le (p : Char → Bool) (cs : List Char) : (cs.dropWhile p).length ≤ cs.length :=
    (List.dropWhile_suffix p).length_le
  have string_le := Quoted.quotedString_rest_length_le c cs
  have template_le := Quoted.quotedTemplate_rest_length_le cs
  fun_cases readPiece start c cs
  all_goals
    simp only [readPiece.found, readPiece.fault, readPiece.unclosed, List.length_cons]
  all_goals
    grind [→ length_lt_of_blockCommentBody?, Quoted.rest]

/--
The pieces of a source text, in order. None follows a final one.
-/
def pieces (source : List Char) : List Piece :=
  go [] 0 source
where
  go (acc : List Piece) (start : Nat) : List Char → List Piece
    | [] => acc.reverse
    | c :: cs =>
      let read := readPiece start c cs
      if read.1.isFinal then
        (read.1 :: acc).reverse
      else
        go (read.1 :: acc) read.1.stop read.2
  termination_by cs => cs.length
  decreasing_by
    have := readPiece_rest_length_le start c cs
    simp only [List.length_cons]
    omega

def tokenize (source : List Char) : Except ParseError (List Lexeme) :=
  let pieces := pieces source
  match pieces.filterMap Piece.fault? with
  | [] => .ok (pieces.filterMap Piece.lexeme?)
  | faults => .error ⟨faults.map Fault.diagnostic⟩

end Delegation
