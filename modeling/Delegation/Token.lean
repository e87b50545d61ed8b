import Delegation.Span

/-!
This module contains the tokens that schemas and declaration files are made of.
-/

namespace Delegation

inductive Delimiter where
  | brace
  | paren
  | bracket
  | angle
deriving DecidableEq

namespace Delimiter

def opener : Delimiter → Char
  | brace => '{'
  | paren => '('
  | bracket => '['
  | angle => '<'

def closer : Delimiter → Char
  | brace => '}'
  | paren => ')'
  | bracket => ']'
  | angle => '>'

end Delimiter

inductive Sign where
  | arrow
  | ellipsis
  | doubleAt
  | atSign
  | equals
  | colon
  | question
  | bang
  | pipe
  | ampersand
  | dot
  | minus
  | plus
  | star
  | hash
  | semicolon
  | comma
deriving DecidableEq

namespace Sign

def spelling : Sign → String
  | arrow => "=>"
  | ellipsis => "..."
  | doubleAt => "@@"
  | atSign => "@"
  | equals => "="
  | colon => ":"
  | question => "?"
  | bang => "!"
  | pipe => "|"
  | ampersand => "&"
  | dot => "."
  | minus => "-"
  | plus => "+"
  | star => "*"
  | hash => "#"
  | semicolon => ";"
  | comma => ","

end Sign

/--
A token. Keywords are identifiers: nearly all of them may also name a member.
-/
inductive Token where
  | identifier (name : String)
  /--
  A string in quotes, without the quotes and with its escapes as they were written.
  -/
  | string (content : String)
  | template (content : String)
  | number (content : String)
  | sign (s : Sign)
  | opening (d : Delimiter)
  | closing (d : Delimiter)
  | lineComment (content : String)
  | blockComment (content : String)
  | whitespace
  | newline
deriving DecidableEq

namespace Token

def isTrivia : Token → Bool
  | lineComment _ | blockComment _ | whitespace | newline => true
  | _ => false

def isIdentifier : Token → Bool
  | identifier _ => true
  | _ => false

def isClosing : Token → Bool
  | closing _ => true
  | _ => false

def isWordOf (words : List String) : Token → Bool
  | identifier name => words.contains name
  | _ => false

def isWord (word : String) : Token → Bool
  | identifier name => name == word
  | _ => false

def closing? : Token → Option Token
  | opening d => some (closing d)
  | _ => none

def describe : Token → String
  | identifier name => "`" ++ name ++ "`"
  | string content => "string \"" ++ content ++ "\""
  | template _ => "template literal"
  | number content => "number `" ++ content ++ "`"
  | sign s => "`" ++ s.spelling ++ "`"
  | opening d => "`" ++ d.opener.toString ++ "`"
  | closing d => "`" ++ d.closer.toString ++ "`"
  | lineComment _ | blockComment _ => "comment"
  | whitespace => "whitespace"
  | newline => "newline"

end Token
end Delegation
