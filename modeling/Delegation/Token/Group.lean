import Delegation.Token.Failure

/-!
This module contains balanced groups of items: a delimiter, what it encloses, and the delimiter
that closes it.
-/

namespace Delegation

structure OpenDelimiter where
  delimiter : Delimiter
  span : Span
deriving DecidableEq

/--
Skip the rest of a group: up to the delimiter that closes `opening`, where `inner` are the groups
inside it that are open as well, the innermost first. The value is the closing item.
-/
def skipGroup (opening : OpenDelimiter) (inner : List OpenDelimiter) :
    (items : List Item) → Parse Item items.length
  | [] =>
    let innermost := inner.headD opening
    .error ⟨.unclosed innermost.span innermost.delimiter, []⟩
  | item :: rest =>
    match item.token with
    | .opening d => (skipGroup opening (⟨d, item.span⟩ :: inner) rest).map .loosen
    | .closing d =>
      match inner with
      | [] =>
        if d = opening.delimiter then
          .ok (.leaving item rest)
        else
          .error ⟨.unbalanced (some opening.span) (.closer opening.delimiter), item :: rest⟩
      | innermost :: inner =>
        if d = innermost.delimiter then
          (skipGroup opening inner rest).map .loosen
        else
          .error ⟨.unbalanced (some innermost.span) (.closer innermost.delimiter), item :: rest⟩
    | _ => (skipGroup opening inner rest).map .loosen

end Delegation
