import Delegation.Proofs.Progress.DeclarationLoops
import Delegation.Proofs.Grammar.Groups
import Delegation.Proofs.Grammar.Schema

/-!
This module contains that the parsers of declaration files are loops: each of them does what its
next round says, with the bounds in its type left out.
-/

namespace Delegation
namespace DeclarationLoops

open Attempt

/--
Whether the loops do what their rounds say, and come to the library's parsers with all that is
parsed between them. A statement that begins with a terminator is no statement in the library, and
is read nowhere.
-/
structure IsParser (loops : DeclarationLoops) : Prop where
  next : loops.next = loops
  term : ∀ collect item rest, loops.term collect item rest = .of (parseTerm collect item rest)
  run : ∀ collect place stop items,
    loops.run collect place stop items = .of (parseRun collect place none stop items)
  head : ∀ item rest, loops.head item rest = .of (memberHead item rest)
  member : ∀ item rest, loops.member item rest = .of (parseMember item rest)
  paramList : ∀ items, loops.paramList items = .of (parseParamList items)
  aliasedType : ∀ items, loops.aliasedType items = .of (parseExpression true .aliasedType items)
  typeAlias : ∀ start items, loops.typeAlias start items = .of (parseAlias start items)
  block : ∀ start items, loops.block start items = .of (parseBlock start items)
  statement : ∀ item rest, item.token.isTerminator = false →
    loops.statement item rest = .of (parseStatement item rest)
  tree : ∀ ls, loops.tree ls = some (DeclarationTree.ofLexemes ls)

theorem scanEndsBefore_some (place : Place) (started : Bool) (last : Token) (item : Item) :
    scanEndsBefore place started (some last) item = endsBefore place (some last) item := by
  simp [scanEndsBefore, endsBefore]

theorem scanEndsBefore_true (place : Place) (last : Option Token) (item : Item) :
    scanEndsBefore place true last item = endsBefore place last item := by
  simp [scanEndsBefore, endsBefore]

theorem scanEndsBefore_first (place : Place) (item : Item) :
    scanEndsBefore place false none item
      = (item.token.isTerminator || (item.token == .sign .comma && place == .member)) := by
  simp [scanEndsBefore]

theorem term_bounded (collect : Bool) (item : Item) (rest : List Item) :
    bounded.term collect item rest = .of (parseTerm collect item rest) := by
  unfold term
  split
  . next d hd =>
    split
    . next hbrace =>
      rw [parseTerm]
      simp [hd, hbrace, objectType]
    . next hbrace =>
      rw [parseTerm_group hd (by simpa using hbrace)]
      simp
  . next hopening =>
    rw [parseTerm_of_ne hopening]
    rfl

theorem next_group (collect : Bool) (opening : OpenDelimiter) (objects : List ObjectType)
    (items : List Item) :
    bounded.next.group collect opening objects items
      = bounded.group collect opening objects items := by
  dsimp only [next]
  rw [bounded_group]
  cases items with
  | nil =>
    rw [parseGroup]
    rfl
  | cons item rest =>
    rw [parseGroup, groupRound, term_bounded]
    split
    . simp
    split
    . rfl
    . simp

theorem next_scan (collect : Bool) (place : Place) (started : Bool) (scanned : Scanned)
    (items : List Item) :
    bounded.next.scan collect place started scanned items
      = bounded.scan collect place started scanned items := by
  dsimp only [next, scanning]
  obtain ⟨objects, reached⟩ := scanned
  cases items with
  | nil =>
    cases reached with
    | none => rfl
    | some reached =>
      dsimp only [bounded]
      rw [parseRun]
      simp [scanRound]
  | cons item rest =>
    rw [scanRound, term_bounded]
    cases reached with
    | none =>
      -- Behind its first term the scan is a run of the library.
      dsimp only [bounded, Option.map_none]
      split
      . rfl
      . simp
    | some reached =>
      obtain ⟨last, span⟩ := reached
      dsimp only [bounded, Option.map_some]
      rw [parseRun]
      simp only [scanEndsBefore_some]
      split
      . simp
      . simp

theorem scanning_first {collect : Bool} {place : Place} {item : Item} (rest : List Item)
    (hterminator : item.token.isTerminator = false)
    (hcomma : place = .member → item.token ≠ .sign .comma) :
    bounded.scanning collect place false .empty (item :: rest) = (do
      let (term, rest) ← .of (parseTerm collect item rest)
      let ((objects, stop), rest) ← .of (parseRun collect place (some term.last) term.stop rest)
      return ((term.objects ++ objects, some ⟨item.span.start, stop⟩), rest)) := by
  have hends : scanEndsBefore place false none item = false := by
    rw [scanEndsBefore_first, hterminator]
    cases place with
    | member => simpa using hcomma rfl
    | statement => simp
  have hscan := next_scan collect place false .empty (item :: rest)
  dsimp only [next] at hscan
  rw [hscan]
  simp [bounded, Scanned.empty, hends]

theorem run_bounded (collect : Bool) (place : Place) (stop : Nat) (items : List Item) :
    bounded.run collect place stop items = of (parseRun collect place none stop items) := by
  dsimp only [run, bounded, Scanned.empty]
  cases items with
  | nil =>
    rw [parseRun]
    rfl
  | cons item rest =>
    rw [parseRun]
    simp only [scanEndsBefore_true]
    split
    . rfl
    . simp

theorem head_bounded (item : Item) (rest : List Item) :
    bounded.head item rest = .of (memberHead item rest) := by
  unfold head
  split
  . next hbracket =>
    rw [beq_iff_eq] at hbracket
    simp [memberHead, hbracket, parseGroup_false]
  . rfl

theorem isTerminator_of_opensSignature {token : Token} (h : token.opensSignature = true) :
    token.isTerminator = false ∧ token ≠ .sign .comma := by
  unfold Token.opensSignature at h
  split at h
  . exact ⟨rfl, by simp⟩
  . exact ⟨rfl, by simp⟩
  . cases h

theorem member_bounded (item : Item) (rest : List Item) :
    bounded.member item rest = .of (parseMember item rest) := by
  unfold member parseMember
  generalize skipMemberModifiers item rest = skipped
  obtain ⟨first, rest₁, h₁⟩ := skipped
  dsimp only
  generalize hsignature : signatureStart? first rest₁ = signature
  rcases signature with _ | ⟨kind, start, rest₂, h₂⟩
  . simp [head_bounded, run_bounded]
  . obtain ⟨_, _, _, hopens, _⟩ := signatureStart?_eq_some hsignature
    obtain ⟨hterminator, hcomma⟩ := isTerminator_of_opensSignature hopens
    simp [scanning_first rest₂ hterminator fun _ => hcomma]

theorem next_members (opening : Span) (members : List Member) (items : List Item) :
    bounded.next.members opening members items = bounded.members opening members items := by
  dsimp only [next]
  rw [bounded_members]
  cases items with
  | nil =>
    rw [parseMembers]
    rfl
  | cons item rest =>
    rw [parseMembers, membersRound, member_bounded]
    generalize item.token = token
    split
    . next d =>
      by_cases hbrace : d = .brace
      . simp [hbrace]
      . simp [hbrace]
    . simp
    . simp
    . simp

theorem next_suffix (opening : Span) (stop : Nat) (items : List Item) :
    bounded.next.suffix opening stop items = bounded.suffix opening stop items := by
  dsimp only [next]
  rw [bounded_suffix]
  cases items with
  | nil =>
    rw [parseParamSuffix]
    rfl
  | cons item rest =>
    rw [parseParamSuffix, suffixRound]
    generalize item.token = token
    split
    . simp
    . next d =>
      by_cases hangle : d = .angle
      . simp [hangle]
      . simp [hangle]
    . simp [parseGroup_false]
    . simp

theorem next_params (opening : Span) (params : List TypeParam) (items : List Item) :
    bounded.next.params opening params items = bounded.params opening params items := by
  dsimp only [next]
  rw [bounded_params]
  cases items with
  | nil =>
    rw [parseParams]
    rfl
  | cons item rest =>
    rw [parseParams, paramsRound]
    split
    . simp
    . generalize skipModifiers paramModifiers item rest = skipped
      obtain ⟨first, rest₁, h₁⟩ := skipped
      dsimp only
      generalize first.token = token
      split
      . simp
      . simp

theorem next_heritage (items : List Item) :
    bounded.next.heritage items = bounded.heritage items := by
  dsimp only [next]
  rw [bounded_heritage]
  cases items with
  | nil =>
    rw [parseHeritage]
    rfl
  | cons item rest =>
    rw [parseHeritage, heritageRound]
    generalize item.token = token
    split
    . next d =>
      by_cases hbrace : d = .brace
      . simp [hbrace]
      . simp [hbrace, parseGroup_false]
    . simp
    . simp
    . simp

theorem paramList_bounded (items : List Item) :
    bounded.paramList items = of (parseParamList items) := by
  cases items with
  | nil => rfl
  | cons item rest =>
    rw [paramList, parseParamList]
    split
    . simp
    . rfl

theorem aliasedType_bounded (items : List Item) :
    bounded.aliasedType items = of (parseExpression true .aliasedType items) := by
  cases items with
  | nil => rfl
  | cons item rest =>
    dsimp only [aliasedType, bounded, Scanned.empty]
    rw [parseExpression]
    by_cases hends : item.token.isTerminator = true
    . simp [scanEndsBefore_first, hends]
    . simp [scanEndsBefore_first, hends]

theorem typeAlias_bounded (start : Nat) (items : List Item) :
    bounded.typeAlias start items = of (parseAlias start items) := by
  simp [typeAlias, parseAlias, paramList_bounded, aliasedType_bounded]

theorem block_bounded (start : Nat) (items : List Item) :
    bounded.block start items = of (parseBlock start items) := by
  simp [block, parseBlock, paramList_bounded]

theorem isTerminator_skipModifiers {item : Item} (h : item.token.isTerminator = false)
    (modifiers : List String) (rest : List Item) :
    (skipModifiers modifiers item rest).value.token.isTerminator = false := by
  induction rest generalizing item with
  | nil => exact h
  | cons next rest ih =>
    unfold skipModifiers
    split
    . next hmodifier =>
      rw [Bool.and_eq_true] at hmodifier
      apply ih
      cases hnext : next.token with
      | identifier => rfl
      | _ => simp [hnext, Token.isIdentifier] at hmodifier
    . exact h

theorem statement_bounded {item : Item} (rest : List Item) (h : item.token.isTerminator = false) :
    bounded.statement item rest = of (parseStatement item rest) := by
  unfold statement
  rw [parseStatement]
  have hkeyword := isTerminator_skipModifiers h statementModifiers rest
  generalize skipModifiers statementModifiers item rest = skipped at hkeyword
  obtain ⟨keyword, rest₁, h₁⟩ := skipped
  dsimp only at hkeyword ⊢
  generalize statementForm keyword rest₁ = form
  split
  . simp [typeAlias_bounded]
  . simp [block_bounded]
  . simp [block_bounded]
  . simp only [namespaceBlock, of, lift_bind, bind_assoc, pure_bind]
    apply bind_congr
    rintro ⟨name, rest₂, h₂⟩
    dsimp only
    generalize takeToken? (.opening .brace) rest₂ = taken
    rcases taken with _ | ⟨opening, rest₃, h₃⟩
    . simp [run_bounded]
    . simp
  . -- The word is read at least, so that the library's expression is not missing.
    simp [otherStatement, scanning_first rest₁ hkeyword, parseExpression, hkeyword]

theorem isTerminator_of_ne {token : Token} (hclosing : ∀ d, token ≠ .closing d)
    (hsemicolon : token ≠ .sign .semicolon) : token.isTerminator = false := by
  unfold Token.isTerminator
  split
  . exact absurd rfl hsemicolon
  . next d => exact absurd rfl (hclosing d)
  . rfl

theorem next_statements (opening : Option Span) (statements : List Statement)
    (items : List Item) :
    bounded.next.statements opening statements items
      = bounded.statements opening statements items := by
  dsimp only [next]
  rw [bounded_statements]
  cases items with
  | nil =>
    cases opening with
    | none => simp [parseStatements, statementsRound]
    | some opening =>
      rw [parseStatements]
      rfl
  | cons item rest =>
    rw [parseStatements, statementsRound]
    generalize htoken : item.token = token
    split
    . next d =>
      by_cases hend : (d = .brace && opening.isSome) = true
      . simp [hend]
      . simp [hend]
    . simp
    . next hclosing hsemicolon =>
      subst htoken
      rw [statement_bounded rest (isTerminator_of_ne hclosing hsemicolon)]
      simp

theorem next_bounded : bounded.next = bounded :=
  DeclarationLoops.ext (by funext collect opening objects items; exact next_group ..)
    (by funext collect place started scanned items; exact next_scan ..)
    (by funext opening members items; exact next_members ..)
    (by funext opening stop items; exact next_suffix ..)
    (by funext opening params items; exact next_params ..)
    (by funext items; exact next_heritage items)
    (by funext opening statements items; exact next_statements ..)

theorem tree_bounded (ls : List Lexeme) :
    bounded.tree ls = some (DeclarationTree.ofLexemes ls) := by
  rw [tree, bounded_statements, DeclarationTree.ofLexemes]
  dsimp only [List.reverse_nil]
  cases parseStatements none [] (Item.ofLexemes ls) with
  | error failure => rfl
  | ok p => rfl

theorem isParser_bounded : IsParser bounded where
  next := next_bounded
  term := term_bounded
  run := run_bounded
  head := head_bounded
  member := member_bounded
  paramList := paramList_bounded
  aliasedType := aliasedType_bounded
  typeAlias := typeAlias_bounded
  block := block_bounded
  statement _ rest := statement_bounded rest
  tree := tree_bounded

end DeclarationLoops
end Delegation
