import Delegation.Declaration.Parser
import Delegation.Proofs.Composition
import Delegation.Proofs.Grammar.Groups
import Delegation.Proofs.Grammar.Head
import Delegation.Proofs.Lossless
import Delegation.Proofs.SchemaText

/-!
This module contains how type expressions are read whose items are known: term by term, with the
groups and the object types in them, and the type alias around an expression.
-/

namespace Delegation

open Item

/-!
Runs and groups are read term by term.
-/

theorem Leaves.parseRun_cons {collect : Bool} {place : Place} {last : Option Token} {stop : Nat}
    {item : Item} {items rest : List Item} {P : List ObjectType × Nat → Prop}
    (hitem : ∀ d, item.token ≠ .opening d) (hends : endsBefore place last item = false)
    (h : Leaves rest P (parseRun collect place (some item.token) item.span.stop items)) :
    Leaves rest P (parseRun collect place last stop (item :: items)) := by
  unfold parseRun
  rw [if_neg (by simp [hends]), parseTerm_of_ne hitem]
  apply h.bind
  intro value hlt' hvalue
  exact ⟨_, _, rfl, hvalue⟩

theorem Leaves.parseRun_nil {collect : Bool} {place : Place} {last : Option Token} {stop : Nat}
    {item : Item} {items : List Item} (hends : endsBefore place last item = true) :
    Leaves (item :: items) (fun run => run = ([], stop))
      (parseRun collect place last stop (item :: items)) := by
  unfold parseRun
  rw [if_pos hends]
  exact .leaving rfl

theorem Leaves.parseTerm_object {opener : Item} {inner rest : List Item} {ms : List Member}
    {close : Span} (hopener : opener.token = .opening .brace)
    (h : Leaves rest (fun members => members = (ms, close)) (parseMembers opener.span inner)) :
    Leaves rest (fun term => term = ⟨[⟨ms, ⟨opener.span.start, close.stop⟩⟩], .closing .brace,
      close.stop⟩) (parseTerm true opener inner) := by
  unfold parseTerm
  simp only [hopener]
  apply h.bind
  rintro _ hlt rfl
  exact ⟨_, _, rfl, rfl⟩

/--
Whether `items` go on with `rest` behind terms that are read one after the other, with the object
types `os`. The first item of each term has the property `p`.
-/
inductive ReadsTerms (p : Item → Prop) (rest : List Item) : List Item → List ObjectType → Prop where
  | nil : ReadsTerms p rest rest []
  | cons {item : Item} {items next : List Item} {os os' : List ObjectType} (hitem : p item)
    (hterm : Leaves next (fun term => term.objects = os) (parseTerm true item items))
    (htail : ReadsTerms p rest next os') : ReadsTerms p rest (item :: items) (os ++ os')

namespace ReadsTerms

variable {p : Item → Prop} {items next rest : List Item} {os os' : List ObjectType}

theorem trans (h : ReadsTerms p next items os) (hnext : ReadsTerms p rest next os') :
    ReadsTerms p rest items (os ++ os') := by
  induction h with
  | nil => exact hnext
  | cons hitem hterm _ ih =>
    rw [List.append_assoc]
    exact .cons hitem hterm ih

theorem mono {q : Item → Prop} (h : ReadsTerms p rest items os) (hpq : ∀ item, p item → q item) :
    ReadsTerms q rest items os := by
  induction h with
  | nil => exact .nil
  | cons hitem hterm _ ih => exact .cons (hpq _ hitem) hterm ih

theorem item {item : Item} (hitem : p item) (hopening : ∀ d, item.token ≠ .opening d) :
    ReadsTerms p rest (item :: rest) [] := by
  have hterm : Leaves rest (fun term => term.objects = []) (parseTerm true item rest) := by
    rw [parseTerm_of_ne hopening]
    exact .leaving rfl
  exact .cons hitem hterm .nil

theorem leaves_parseGroup {opening : OpenDelimiter} {closer : Item}
    (h : ReadsTerms p (closer :: rest) items os)
    (hp : ∀ item, p item → ∀ d, item.token ≠ .closing d)
    (hcloser : closer.token = .closing opening.delimiter) :
    Leaves rest (fun group => group = (os, closer.span)) (parseGroup true opening items) := by
  induction h with
  | nil =>
    rw [parseGroup, if_pos (by simp [hcloser])]
    exact .leaving rfl
  | cons hitem hterm _ ih =>
    rw [parseGroup_cons (hp _ hitem)]
    apply hterm.bind
    rintro term hlt rfl
    apply ih.bind
    rintro _ hlt' rfl
    exact ⟨_, _, rfl, rfl⟩

theorem group {opener closer : Item} {d : Delimiter} {inner : List Item} {q : Item → Prop}
    (hopener : opener.token = .opening d) (hcloser : closer.token = .closing d) (hd : d ≠ .brace)
    (hitem : p opener) (h : ReadsTerms q (closer :: rest) inner os)
    (hq : ∀ item, q item → ∀ d, item.token ≠ .closing d) :
    ReadsTerms p rest (opener :: inner) os := by
  have hterm : Leaves rest (fun term => term.objects = os) (parseTerm true opener inner) := by
    rw [parseTerm_group hopener (by simpa using hd)]
    apply (h.leaves_parseGroup hq hcloser).bind
    rintro _ hlt rfl
    exact ⟨_, _, rfl, rfl⟩
  have := ReadsTerms.cons hitem hterm .nil
  rwa [List.append_nil] at this

theorem object {opener : Item} {inner : List Item} {ms : List Member} {close : Span}
    (hopener : opener.token = .opening .brace) (hitem : p opener)
    (h : Leaves rest (fun members => members = (ms, close)) (parseMembers opener.span inner)) :
    ReadsTerms p rest (opener :: inner) [⟨ms, ⟨opener.span.start, close.stop⟩⟩] := by
  have hterm : Leaves rest
      (fun term => term.objects = [⟨ms, ⟨opener.span.start, close.stop⟩⟩])
      (parseTerm true opener inner) := by
    apply (Leaves.parseTerm_object hopener h).mono
    rintro _ rfl
    rfl
  exact .cons hitem hterm .nil

theorem leaves_parseRun {place : Place} (h : ReadsTerms p rest items os)
    (hp : ∀ item, p item → ∀ last, endsBefore place last item = false)
    (hrest : ∀ item ∈ rest.head?, ∀ last, endsBefore place last item = true) (last : Option Token)
    (stop : Nat) :
    Leaves rest (fun run => run.1 = os) (parseRun true place last stop items) := by
  induction h generalizing last stop with
  | nil =>
    cases rest with
    | nil =>
      unfold parseRun
      exact .leaving rfl
    | cons item rest =>
      apply (Leaves.parseRun_nil (hrest item rfl last)).mono
      rintro _ rfl
      rfl
  | cons hitem hterm _ ih =>
    unfold parseRun
    rw [if_neg (by simp [hp _ hitem])]
    apply hterm.bind
    rintro term hlt rfl
    apply (ih (some term.last) term.stop).bind
    rintro run hlt' rfl
    exact ⟨_, _, rfl, rfl⟩

end ReadsTerms

def Item.Continues (item : Item) : Prop :=
  item.isOnNewLine = false ∧ item.token.isTerminator = false ∧ item.token ≠ .sign .comma

theorem Item.Continues.endsBefore_eq {item : Item} (h : item.Continues) (place : Place)
    (last : Option Token) : endsBefore place last item = false := by
  obtain ⟨hline, hterminator, hcomma⟩ := h
  simp [endsBefore, hline, hterminator, hcomma]

theorem Item.Continues.ne_closing {item : Item} (h : item.Continues) (d : Delimiter) :
    item.token ≠ .closing d := by
  intro hd
  simp [Continues, hd, Token.isTerminator] at h

theorem ReadsTerms.leaves_parseExpression {first : Item} {more : List Item} {os : List ObjectType}
    (h : ReadsTerms Item.Continues [] (first :: more) os) (what : Expectation) :
    Leaves [] (fun type => type = ⟨os, ⟨first.span.start, stopAfter first.span.stop more⟩⟩)
      (parseExpression true what (first :: more)) := by
  have hobjects : Leaves [] (fun type => type.objects = os)
      (parseExpression true what (first :: more)) := by
    cases h with
    | cons hitem hterm htail =>
      unfold parseExpression
      dsimp only
      rw [if_neg (by simp [hitem.2.1])]
      apply hterm.bind
      rintro term hlt rfl
      have hrun := htail.leaves_parseRun (fun _ hitem => hitem.endsBefore_eq .statement) (by simp)
        (some term.last) term.stop
      apply (Leaves.andMaybe hrun).bind
      rintro run hlt rfl
      exact ⟨_, _, rfl, rfl⟩
  obtain ⟨type, hlt, hparse, rfl⟩ := hobjects
  obtain ⟨start, used, hitems, _, hspan⟩ := parseExpression_eq_ok hparse
  rw [List.append_nil] at hitems
  cases hitems
  exact ⟨type, hlt, hparse, by rw [← hspan]⟩

/-!
Properties.
-/

theorem terminator_of_head {stop : Nat} {items : List Item}
    (h : ∀ item ∈ items.head?, ¬ item.isSeparator) :
    terminator stop items = .leaving stop items := by
  cases items with
  | nil => rfl
  | cons item items =>
    have hitem := h item rfl
    rw [Item.isSeparator, not_or] at hitem
    simp [terminator, hitem]

theorem Leaves.parseMember_property {name colon : Item} {text : String} {os : List ObjectType}
    {stop : Nat} {items rest : List Item} (hname : name.token = .identifier text)
    (hcolon : colon.token = .sign .colon)
    (hrun : Leaves rest (fun run => run = (os, stop))
      (parseRun true .member none name.span.stop (colon :: items))) :
    Leaves (terminator stop rest).rest
      (fun m => m = ⟨.property, some ⟨text, name.span⟩, false, os,
        ⟨name.lead, (terminator stop rest).value⟩⟩)
      (parseMember name (colon :: items)) := by
  have hmodifiers : skipMemberModifiers name (colon :: items) = .leaving name (colon :: items) := by
    simp [skipMemberModifiers, isMemberModifier, hname, hcolon, Token.startsMemberName]
  have hsignature : signatureStart? name (colon :: items) = none := by
    simp [signatureStart?, hname, hcolon, Token.opensSignature]
  have hhead : Leaves (colon :: items)
      (fun head => head = ⟨.property, some ⟨text, name.span⟩, name.span.stop⟩)
      (memberHead name (colon :: items)) := by
    simp only [memberHead, hname]
    exact .leaving rfl
  have hmark : optionalMark name.span.stop (colon :: items)
      = .leaving (false, name.span.stop) (colon :: items) := by
    simp [optionalMark, hcolon]
  unfold parseMember
  rw [hmodifiers]
  dsimp only [Parsed.leaving]
  rw [hsignature]
  apply hhead.bind
  rintro _ hlt rfl
  dsimp only
  rw [hmark]
  apply hrun.bind
  rintro _ hlt' rfl
  dsimp only [Parsed.onward, Parsed.leaving]
  have hkind : MemberHead.kindBefore ⟨.property, some ⟨text, name.span⟩, name.span.stop⟩
      (colon :: items) = .property := by
    simp [MemberHead.kindBefore, startsWith, hcolon, Token.opensSignature]
  rw [hkind]
  exact ⟨_, _, rfl, rfl⟩

theorem Leaves.parseMember_unseparated {name colon : Item} {text : String} {os : List ObjectType}
    {stop : Nat} {items rest : List Item} (hname : name.token = .identifier text)
    (hcolon : colon.token = .sign .colon)
    (hrun : Leaves rest (fun run => run = (os, stop))
      (parseRun true .member none name.span.stop (colon :: items)))
    (hrest : ∀ item ∈ rest.head?, ¬ item.isSeparator) :
    Leaves rest (fun m => m = ⟨.property, some ⟨text, name.span⟩, false, os, ⟨name.lead, stop⟩⟩)
      (parseMember name (colon :: items)) := by
  have hmember := Leaves.parseMember_property hname hcolon hrun
  rwa [terminator_of_head hrest] at hmember

theorem Leaves.parseMembers_nil {opening : Span} {closer : Item} {rest : List Item}
    (hcloser : closer.token = .closing .brace) :
    Leaves rest (fun members => members = ([], closer.span))
      (parseMembers opening (closer :: rest)) := by
  unfold parseMembers
  simp only [hcloser, if_true]
  exact .leaving rfl

theorem Leaves.parseMembers_property {opening close : Span} {name colon : Item} {text : String}
    {os : List ObjectType} {ms : List Member} {items next rest : List Item}
    (hname : name.token = .identifier text) (hcolon : colon.token = .sign .colon)
    (hline : colon.isOnNewLine = false) (hitems : ReadsTerms Item.Continues next items os)
    (hnext : ∀ item ∈ next.head?, item.token.isTerminator = true)
    (hms : ∀ stop, Leaves rest (fun members => members = (ms, close))
      (parseMembers opening (terminator stop next).rest)) :
    ∃ span, Leaves rest
      (fun members => members = (⟨.property, some ⟨text, name.span⟩, false, os, span⟩ :: ms, close))
      (parseMembers opening (name :: colon :: items)) := by
  have hcontinues : colon.Continues := by simp [Item.Continues, hline, hcolon, Token.isTerminator]
  have hends : ∀ item ∈ next.head?, ∀ last, endsBefore .member last item = true := by
    intro item hitem last
    simp [endsBefore, hnext item hitem]
  have hall : ReadsTerms Item.Continues next (colon :: items) ([] ++ os) :=
    .trans (.item hcontinues (by simp [hcolon])) hitems
  obtain ⟨⟨os', stop⟩, hlt, hrun, hos⟩ := hall.leaves_parseRun
    (fun _ hitem => hitem.endsBefore_eq .member) hends none name.span.stop
  obtain rfl : os' = os := hos
  have hmember := Leaves.parseMember_property hname hcolon ⟨_, hlt, hrun, rfl⟩
  refine ⟨⟨name.lead, (terminator stop next).value⟩, ?_⟩
  unfold parseMembers
  simp only [hname]
  apply hmember.bind
  rintro _ hlt' rfl
  apply (hms stop).bind
  rintro _ hlt'' rfl
  exact ⟨_, _, rfl, rfl⟩

/-!
A type alias that is all of a text.
-/

section

variable {keyword name equals : Item} {text : String} {items : List Item} {type : TypeExpr}

theorem leaves_parseAlias {start : Nat} (hname : name.token = .identifier text)
    (hequals : equals.token = .sign .equals)
    (h : Leaves [] (fun expression => expression = type)
      (parseExpression true .aliasedType items)) :
    Leaves [] (fun a => a = ⟨⟨text, name.span⟩, [], type, ⟨start, type.span.stop⟩⟩)
      (parseAlias start (name :: equals :: items)) := by
  have hfound : Leaves (equals :: items) (fun located => located = ⟨text, name.span⟩)
      (parseName .aliasName (name :: equals :: items)) := by
    simp only [parseName, hname]
    exact .leaving rfl
  have hparams : Leaves (equals :: items) (fun params => params = [])
      (parseParamList (equals :: items)) := by
    rw [parseParamList, if_neg (by simp [hequals])]
    exact .leaving rfl
  unfold parseAlias
  apply hfound.bind
  rintro _ hlt rfl
  apply (Leaves.andMaybe hparams).bind
  rintro _ hlt rfl
  apply (Leaves.andThen (leaves_parseToken hequals)).bind
  rintro _ hlt rfl
  apply (Leaves.andThen h).bind
  rintro _ hlt rfl
  exact ⟨_, _, rfl, rfl⟩

theorem leaves_parseStatements (hkeyword : keyword.token = .identifier "type")
    (hname : name.token = .identifier text) (hequals : equals.token = .sign .equals)
    (h : Leaves [] (fun expression => expression = type)
      (parseExpression true .aliasedType items)) :
    Leaves [] (fun statements => statements = ([.typeAlias ⟨⟨text, name.span⟩, [], type,
        ⟨keyword.span.start, type.span.stop⟩⟩], 0))
      (parseStatements none [] (keyword :: name :: equals :: items)) := by
  have hmodifiers : skipModifiers statementModifiers keyword (name :: equals :: items)
      = .leaving keyword (name :: equals :: items) := by
    simp [skipModifiers, hkeyword, Token.isWordOf, statementModifiers]
  have hform : statementForm keyword (name :: equals :: items) = .typeAlias := by
    simp [statementForm, startsWith, hkeyword, hname, hequals, Token.isWord, Token.isIdentifier]
  have hstatement : Leaves [] (fun s => s = .typeAlias ⟨⟨text, name.span⟩, [], type,
      ⟨keyword.span.start, type.span.stop⟩⟩)
      (parseStatement keyword (name :: equals :: items)) := by
    unfold parseStatement
    rw [hmodifiers]
    dsimp only [Parsed.leaving]
    rw [hform]
    apply (leaves_parseAlias hname hequals h).bind
    rintro _ hlt rfl
    exact ⟨_, _, rfl, rfl⟩
  unfold parseStatements
  simp only [hkeyword]
  apply hstatement.bind
  rintro _ hlt rfl
  unfold parseStatements
  exact ⟨_, _, rfl, rfl⟩

end

def aliasHead (x : Identifier) : List Char :=
  "type".toList ++ ' ' :: (x.name.toList ++ [' ', '=', ' '])

theorem isName_type : IsName "type" :=
  isName_of_check (by decide +kernel)

theorem Yields.aliasHead (x : Identifier) {source front rest : List Char} {items : List Item}
    (h : Yields source (front ++ aliasHead x) ⟨false, false, false, none⟩ rest items)
    (hends : Token.whitespace.endsBefore rest = true) :
    ∃ keyword name equals, Yields source front .empty (Delegation.aliasHead x ++ rest)
        (keyword :: name :: equals :: items)
      ∧ keyword.token = .identifier "type" ∧ name.token = .identifier x.name
      ∧ equals.token = .sign .equals := by
  have hfront : front ++ Delegation.aliasHead x = front ++ "type".toList ++ [' '] ++ x.name.toList
      ++ [' '] ++ ['='] ++ [' '] := by
    simp [Delegation.aliasHead]
  have htext : Delegation.aliasHead x ++ rest = "type".toList ++ ' ' :: (x.name.toList
      ++ ' ' :: '=' :: ' ' :: rest) := by
    simp [Delegation.aliasHead]
  rw [hfront] at h
  rw [htext]
  have htype : Yields source _ .empty (' ' :: rest) _ := h.blank hends
  have hequals : Yields source _ .empty (' ' :: '=' :: ' ' :: rest) _ :=
    (htype.char rfl rfl rfl).blank rfl
  have hname : Yields source _ .empty (' ' :: (x.name.toList ++ ' ' :: '=' :: ' ' :: rest)) _ :=
    (hequals.name x.isName (endsName_cons _ (by decide))).blank (x.isName.endsBefore _ (by simp))
  exact ⟨_, _, _, hname.name isName_type (endsName_cons _ (by decide)), rfl, rfl, rfl⟩

theorem DeclarationTree.parse_of_leaves {source : List Char} {ls : List Lexeme}
    {ss : List Statement} {stop : Nat} (hls : Lexes 0 source ls)
    (h : Leaves [] (fun statements => statements = (ss, stop))
      (parseStatements none [] (itemsFrom .empty ls))) :
    parse source = .ok ⟨ss, ⟨0, byteLength source⟩⟩ := by
  obtain ⟨_, hlt, h, rfl⟩ := h
  have htree : ofLexemes ls = .ok ⟨ss, ⟨0, byteLength source⟩⟩ := by
    have h : parseStatements none [] (Item.ofLexemes ls) = _ := h
    rw [ofLexemes, h, hls.areLaid.endOfText_eq, hls.textOf_eq]
  rw [parse, tokenize_eq_ok.mpr hls]
  simp only [bind, Except.bind, htree]
  rfl

end Delegation
