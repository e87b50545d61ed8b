import Delegation.Proofs.Grammar.CorrespondingStatement
import Delegation.Proofs.Grammar.Groups

/-!
This module contains how type parameters are read whose items are known: they are split at the
commas that stand in no brackets. An alias is read in the same way with them and without them.
-/

namespace Delegation

open Item

section

variable {opening : Span} {items tail next rest : List Item} {params : List TypeParam}

structure HasNoSeparator (items : List Item) : Prop where
  balanced : IsBalanced items
  enclosed : ∀ before comma after, items = before ++ comma :: after →
    comma.token = .sign .comma → ¬ IsBalanced before

theorem HasNoSeparator.of_append {used : List Item} (h : HasNoSeparator (used ++ items))
    (hused : IsBalanced used) (hitems : IsBalanced items) : HasNoSeparator items where
  balanced := hitems
  enclosed := by
    rintro before comma after rfl hcomma hbefore
    exact h.enclosed (used ++ before) comma after (by simp) hcomma (hused.append hbefore)

theorem leaves_parseParamSuffix {items : List Item} (h : HasNoSeparator items)
    (htail : ∀ stop, Leaves next (· = stop) (parseParamSuffix opening stop tail)) (stop : Nat) :
    Leaves next (· = stopAfter stop items) (parseParamSuffix opening stop (items ++ tail)) := by
  match items with
  | [] => exact htail stop
  | item :: items =>
    rw [List.cons_append]
    rcases item.token.delimiter_cases with ⟨d, hd⟩ | ⟨d, hd⟩ | ⟨hopening, hclosing⟩
    . obtain ⟨inner, closer, more, rfl, hcloser, hinner, hmore⟩ := h.balanced.exists_group hd
      have hgroup : IsBalanced (item :: (inner ++ [closer])) := .group hd hcloser hinner
      have hagain : HasNoSeparator more :=
        @HasNoSeparator.of_append more (item :: (inner ++ [closer])) (by simpa using h) hgroup hmore
      have hrest := leaves_parseParamSuffix hagain htail closer.span.stop
      have hskip : Leaves (more ++ tail) (· = closer)
          (skipGroup ⟨d, item.span⟩ [] (inner ++ closer :: (more ++ tail))) :=
        hinner.leaves_skipGroup hcloser
      rw [List.append_assoc, List.cons_append]
      unfold parseParamSuffix
      simp only [hd]
      apply hskip.bind
      rintro _ hlt rfl
      apply hrest.bind
      rintro _ hlt' rfl
      refine ⟨_, _, rfl, ?_⟩
      simp [stopAfter, stopAfter_append, Parsed.within, Parsed.loosen]
    . have hnone : item.nest? [] = none := by
        simp [Item.nest?, hd]
      have := h.balanced
      rw [IsBalanced, nest?_cons, hnone] at this
      cases this
    . have hcomma : item.token ≠ .sign .comma :=
        fun hcomma => h.enclosed [] item items rfl hcomma .nil
      have hplain : IsBalanced [item] := IsBalanced.nil.cons hopening hclosing
      have hitems : IsBalanced items := by
        have := h.balanced
        rwa [IsBalanced, nest?_cons, Item.nest?_of_ne hopening hclosing] at this
      have hagain : HasNoSeparator items := HasNoSeparator.of_append h hplain hitems
      have hrest := leaves_parseParamSuffix hagain htail item.span.stop
      unfold parseParamSuffix
      dsimp only
      split
      . next h => exact absurd h hcomma
      . next h => exact absurd h (hclosing _)
      . next h => exact absurd h (hopening _)
      . exact hrest.loosen
termination_by items.length

theorem leaves_parseParamSuffix_comma {comma : Item} (hcomma : comma.token = .sign .comma)
    (stop : Nat) : Leaves rest (· = stop) (parseParamSuffix opening stop (comma :: rest)) := by
  unfold parseParamSuffix
  simp only [hcomma]
  exact ⟨_, _, rfl, rfl⟩

theorem leaves_parseParamSuffix_closer {closer : Item} (hcloser : closer.token = .closing .angle)
    (stop : Nat) :
    Leaves (closer :: rest) (· = stop) (parseParamSuffix opening stop (closer :: rest)) := by
  unfold parseParamSuffix
  simp only [hcloser, if_true]
  exact .leaving rfl

theorem isIdentifier_of_isWordOf {words : List String} {token : Token}
    (h : token.isWordOf words = true) : token.isIdentifier = true := by
  unfold Token.isWordOf at h
  split at h
  . rfl
  . cases h

theorem isIdentifier_of_append {modifiers : List String} {mods : List Item} {word : Item}
    (hmods : ∀ mod ∈ mods, mod.token.isWordOf modifiers = true)
    (hword : word.token.isIdentifier = true) {item : Item} {more : List Item}
    (h : mods ++ word :: rest = item :: more) : item.token.isIdentifier = true := by
  cases mods with
  | nil =>
    cases h
    exact hword
  | cons =>
    cases h
    exact isIdentifier_of_isWordOf (hmods item (.head _))

theorem skipModifiers_append {modifiers : List String} {mods : List Item} {word : Item}
    (hmods : ∀ mod ∈ mods, mod.token.isWordOf modifiers = true)
    (hidentifier : word.token.isIdentifier = true)
    (hword : word.token.isWordOf modifiers = false) {item : Item} {more : List Item}
    (h : mods ++ word :: rest = item :: more) :
    (skipModifiers modifiers item more).value = word
      ∧ (skipModifiers modifiers item more).rest = rest := by
  induction mods generalizing item more with
  | nil =>
    cases h
    cases rest with
    | nil => exact ⟨rfl, rfl⟩
    | cons => simp [skipModifiers, hword, Parsed.leaving]
  | cons mod mods ih =>
    cases h
    have hmod := hmods mod (.head _)
    have hmods := fun mod hmod => hmods mod (.tail _ hmod)
    obtain ⟨first, others, hfirst⟩ :=
      List.exists_cons_of_ne_nil (by simp : mods ++ word :: rest ≠ [])
    have hnext := isIdentifier_of_append hmods hidentifier hfirst
    rw [List.append_eq, hfirst, skipModifiers, if_pos (by simp [hmod, hnext])]
    exact ih hmods hfirst

theorem Leaves.parseParams_param {mods : List Item} {name : Item} {text : String} {stop : Nat}
    (hmods : ∀ mod ∈ mods, mod.token.isWordOf paramModifiers = true)
    (hname : name.token = .identifier text) (htext : text ∉ paramModifiers)
    (hsuffix : Leaves next (· = stop) (parseParamSuffix opening name.span.stop tail))
    (hnext : Leaves rest (· = params) (parseParams opening next)) :
    Leaves rest (· = ⟨⟨text, name.span⟩, ⟨name.span.start, stop⟩⟩ :: params)
      (parseParams opening (mods ++ name :: tail)) := by
  obtain ⟨first, more, hfirst⟩ :=
    List.exists_cons_of_ne_nil (by simp : mods ++ name :: tail ≠ [])
  have hidentifier : name.token.isIdentifier = true := by
    rw [hname]
    rfl
  have hword : name.token.isWordOf paramModifiers = false := by
    simpa [hname, Token.isWordOf] using htext
  have hcloser : first.token ≠ .closing .angle := by
    intro hd
    have := isIdentifier_of_append hmods hidentifier hfirst
    simp [hd, Token.isIdentifier] at this
  obtain ⟨hvalue, hrest⟩ := skipModifiers_append hmods hidentifier hword hfirst
  rw [hfirst]
  unfold parseParams
  rw [if_neg (by simpa using hcloser)]
  dsimp only
  generalize skipModifiers paramModifiers first more = skipped at hvalue hrest
  obtain ⟨value, others, hlt⟩ := skipped
  dsimp only at hvalue hrest
  subst hvalue hrest
  simp only [hname]
  apply hsuffix.bind
  rintro _ hlt' rfl
  apply hnext.bind
  rintro _ hlt'' rfl
  exact ⟨_, _, rfl, rfl⟩

/--
Whether `items` are type parameters: each has its modifiers and its name, and behind the name no
comma that stands in no brackets. There is such a comma between two parameters, and there may be one
behind the last.
-/
inductive SplitsInto : List Item → List TypeParam → Prop where
  | nil : SplitsInto [] []
  | last {mods suffix : List Item} {name : Item} {text : String}
    (hmods : ∀ mod ∈ mods, mod.token.isWordOf paramModifiers = true)
    (hname : name.token = .identifier text) (htext : text ∉ paramModifiers)
    (hsuffix : HasNoSeparator suffix) : SplitsInto (mods ++ name :: suffix)
      [⟨⟨text, name.span⟩, ⟨name.span.start, stopAfter name.span.stop suffix⟩⟩]
  | cons {mods suffix items : List Item} {name comma : Item} {text : String}
    {params : List TypeParam} (hmods : ∀ mod ∈ mods, mod.token.isWordOf paramModifiers = true)
    (hname : name.token = .identifier text) (htext : text ∉ paramModifiers)
    (hsuffix : HasNoSeparator suffix) (hcomma : comma.token = .sign .comma)
    (htail : SplitsInto items params) : SplitsInto (mods ++ name :: (suffix ++ comma :: items))
      (⟨⟨text, name.span⟩, ⟨name.span.start, stopAfter name.span.stop suffix⟩⟩ :: params)

theorem leaves_parseParams_closer {closer : Item} (hcloser : closer.token = .closing .angle) :
    Leaves rest (· = []) (parseParams opening (closer :: rest)) := by
  unfold parseParams
  rw [if_pos (by simp [hcloser])]
  exact ⟨_, _, rfl, rfl⟩

theorem SplitsInto.leaves_parseParams (h : SplitsInto items params) {closer : Item}
    (hcloser : closer.token = .closing .angle) :
    Leaves rest (· = params) (parseParams opening (items ++ closer :: rest)) := by
  induction h with
  | nil => exact leaves_parseParams_closer hcloser
  | last hmods hname htext hsuffix =>
    rw [List.append_assoc, List.cons_append]
    exact .parseParams_param hmods hname htext
      (leaves_parseParamSuffix hsuffix (leaves_parseParamSuffix_closer hcloser) _)
      (leaves_parseParams_closer hcloser)
  | cons hmods hname htext hsuffix hcomma _ ih =>
    rw [List.append_assoc, List.cons_append, List.append_assoc, List.cons_append]
    exact .parseParams_param hmods hname htext
      (leaves_parseParamSuffix hsuffix (leaves_parseParamSuffix_comma hcomma) _) ih

theorem SplitsInto.leaves_parseParamList (h : SplitsInto items params) {opener closer : Item}
    (hopener : opener.token = .opening .angle) (hcloser : closer.token = .closing .angle) :
    Leaves rest (· = params) (parseParamList (opener :: (items ++ closer :: rest))) := by
  rw [parseParamList, if_pos (by simp [hopener])]
  exact (h.leaves_parseParams hcloser).loosen

end

/-!
What comes behind the head of an alias is read in the same way whatever type parameters are in it.
-/

def Parse.outcome {α : Type} {n : Nat} (x : Parse α n) : Except Failure (α × List Item) :=
  x.map fun p => (p.value, p.rest)

def readAliased (items : List Item) : Except Failure (TypeExpr × Nat × List Statement) := do
  let type ← parseExpression true .aliasedType items
  let stop := type.onward (terminator type.value.span.stop)
  let statements ← readStatements [] stop.rest
  return (type.value, stop.value, statements)

theorem readStatements_eq_map (acc : List Statement) (items : List Item) :
    readStatements acc items = (readStatements [] items).map (acc.reverse ++ ·) := by
  match items with
  | [] => simp [Except.map]
  | item :: rest =>
    by_cases hclosing : ∃ d, item.token = .closing d
    . obtain ⟨d, hd⟩ := hclosing
      rw [readStatements_closing _ _ hd, readStatements_closing _ _ hd]
      rfl
    by_cases hsemicolon : item.token = .sign .semicolon
    . rw [readStatements_semicolon _ _ hsemicolon, readStatements_semicolon _ _ hsemicolon]
      exact readStatements_eq_map acc rest
    . have hclosing (d : Delimiter) : item.token ≠ .closing d := fun hd => hclosing ⟨d, hd⟩
      rw [readStatements_statement _ _ hclosing hsemicolon,
        readStatements_statement _ _ hclosing hsemicolon]
      cases parseStatement item rest with
      | error x => rfl
      | ok p =>
        have := p.rest_lt
        dsimp only [bind, Except.bind]
        rw [readStatements_eq_map (p.value :: acc), readStatements_eq_map [p.value]]
        cases readStatements [] p.rest with
        | error x => rfl
        | ok ss => simp [Except.map]
termination_by items.length

section

variable {keyword name equals : Item} {text : String} {mods list items tail : List Item}
  {params : List TypeParam}

theorem outcome_parseAlias {start : Nat} (hname : name.token = .identifier text)
    (hequals : equals.token = .sign .equals)
    (hlist : Leaves (equals :: items) (· = params) (parseParamList (list ++ equals :: items))) :
    (parseAlias start (name :: (list ++ equals :: items))).outcome
      = (parseExpression true .aliasedType items).map fun type =>
        let stop := type.onward (terminator type.value.span.stop)
        (⟨⟨text, name.span⟩, params, type.value, ⟨start, stop.value⟩⟩, stop.rest) := by
  obtain ⟨_, hlt, hlist, rfl⟩ := hlist
  have hfound : parseName .aliasName (name :: (list ++ equals :: items))
      = .ok (.leaving ⟨text, name.span⟩ (list ++ equals :: items)) := by
    simp only [parseName, hname]
  have hsign : parseToken (.sign .equals) .equals (equals :: items)
      = .ok (.leaving equals items) := by
    simp only [parseToken, takeToken?, hequals, if_true]
  unfold parseAlias
  rw [hfound]
  simp only [bind, Except.bind, Parsed.andMaybe, Parsed.andThen, Parsed.leaving, hlist, pure,
    Except.pure, Parsed.within, hsign, Parsed.loosen]
  cases parseExpression true .aliasedType items with
  | error x => rfl
  | ok type => rfl

theorem readStatements_alias {first : Item} {more : List Item}
    (hmods : ∀ mod ∈ mods, mod.token.isWordOf statementModifiers = true)
    (hkeyword : keyword.token = .identifier "type") (hname : name.token = .identifier text)
    (htail : startsWith (fun t => t == .opening .angle || t == .sign .equals) tail = true)
    (hfirst : mods ++ keyword :: name :: tail = first :: more) :
    readStatements [] (first :: more)
      = (parseAlias first.span.start (name :: tail)).outcome >>= fun (a, rest) =>
        readStatements [.typeAlias a] rest := by
  have hword : keyword.token.isIdentifier = true := by
    rw [hkeyword]
    rfl
  have hidentifier := isIdentifier_of_append hmods hword hfirst
  obtain ⟨hvalue, hrest⟩ := skipModifiers_append hmods hword (by rw [hkeyword]; decide) hfirst
  have hnext : startsWith Token.isIdentifier (name :: tail) = true := by
    rw [startsWith, hname]
    rfl
  have hform : statementForm keyword (name :: tail) = .typeAlias := by
    unfold statementForm
    dsimp only
    rw [if_pos]
    rw [hnext, List.drop_succ_cons, List.drop_zero, htail, hkeyword]
    rfl
  rw [readStatements_statement]
  . unfold parseStatement
    dsimp only
    generalize skipModifiers statementModifiers first more = skipped at hvalue hrest
    obtain ⟨value, others, hlt⟩ := skipped
    dsimp only at hvalue hrest
    subst hvalue hrest
    dsimp only
    rw [hform]
    dsimp only
    cases parseAlias first.span.start (name :: tail) with
    | error x => rfl
    | ok p => rfl
  . intro d hd
    simp [hd, Token.isIdentifier] at hidentifier
  . intro hd
    simp [hd, Token.isIdentifier] at hidentifier

/--
What is read of a file that begins with an alias: the type parameters are what they are read as by
themselves, and all else does not depend on them.
-/
theorem readStatements_alias_eq {first : Item} {more : List Item}
    (hmods : ∀ mod ∈ mods, mod.token.isWordOf statementModifiers = true)
    (hkeyword : keyword.token = .identifier "type") (hname : name.token = .identifier text)
    (hequals : equals.token = .sign .equals)
    (hlist : Leaves (equals :: items) (· = params) (parseParamList (list ++ equals :: items)))
    (hnext : startsWith (fun t => t == .opening .angle || t == .sign .equals)
      (list ++ equals :: items) = true)
    (hfirst : mods ++ keyword :: name :: (list ++ equals :: items) = first :: more) :
    readStatements [] (first :: more)
      = (readAliased items).map fun (type, stop, ss) =>
        .typeAlias ⟨⟨text, name.span⟩, params, type, ⟨first.span.start, stop⟩⟩ :: ss := by
  rw [readStatements_alias hmods hkeyword hname hnext hfirst,
    outcome_parseAlias hname hequals hlist, readAliased]
  cases parseExpression true .aliasedType items with
  | error x => rfl
  | ok type =>
    dsimp only [Except.map, bind, Except.bind]
    rw [readStatements_eq_map]
    cases readStatements [] (type.onward (terminator type.value.span.stop)).rest with
    | error x => rfl
    | ok ss => rfl

end

end Delegation
