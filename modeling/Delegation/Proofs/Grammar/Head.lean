import Delegation.Declaration.Parser
import Delegation.Proofs.Brackets
import Delegation.Proofs.Grammar.Member

/-!
This module contains which items the parts of a declaration in front of its body are read from.
-/

namespace Delegation

open Item

inductive ParamsOf : List Item → List TypeParam → Prop where
  | nil : ParamsOf [] []
  | param {item : Item} {mods suffix separator items : List Item} {name : String}
    {params : List TypeParam} (hmods : delimitersOf mods = [])
    (hname : item.token = .identifier name) (hsuffix : IsBalanced suffix)
    (hseparator : ∀ item ∈ separator, item.isSeparator) (htail : ParamsOf items params) :
    ParamsOf (mods ++ item :: (suffix ++ (separator ++ items)))
      (⟨⟨name, item.span⟩, ⟨item.span.start, stopAfter item.span.stop suffix⟩⟩ :: params)

inductive ParamListOf : List Item → List TypeParam → Prop where
  | none : ParamListOf [] []
  | list {opener closer : Item} {inner : List Item} {params : List TypeParam}
    (hopener : opener.token = .opening .angle) (hcloser : closer.token = .closing .angle)
    (hinner : ParamsOf inner params) : ParamListOf (opener :: (inner ++ [closer])) params

/--
What stands in front of the body or the type of a declaration: the words that it begins with, its
name, its type parameters and what it extends.
-/
inductive HeadOf : List Item → Located String → List TypeParam → Prop where
  | mk {item : Item} {front list heritage : List Item} {name : String} {params : List TypeParam}
    (hfront : delimitersOf front = []) (hname : item.token = .identifier name)
    (hlist : ParamListOf list params) (hheritage : IsBalanced heritage)
    (hbraces : IsBraceless (delimitersOf heritage)) :
    HeadOf (front ++ item :: (list ++ heritage)) ⟨name, item.span⟩ params

theorem ParamsOf.isBalanced {items : List Item} {params : List TypeParam}
    (h : ParamsOf items params) : IsBalanced items := by
  induction h with
  | nil => exact .nil
  | param hmods hname hsuffix hseparator _ ih =>
    have hrest := hsuffix.append ((isSeparator.isBalanced hseparator).append ih)
    exact (isBalanced_of_delimitersOf hmods).append (hrest.cons (by simp [hname]) (by simp [hname]))

theorem ParamsOf.exists_items {items : List Item} {params : List TypeParam}
    (h : ParamsOf items params) :
    ∀ param ∈ params, ∃ item suffix, item :: suffix <:+: items
      ∧ item.token = .identifier param.name.value ∧ param.name.span = item.span
      ∧ param.span = ⟨item.span.start, stopAfter item.span.stop suffix⟩ := by
  induction h with
  | nil => simp
  | @param item mods suffix separator items _ _ _ hname _ _ _ ih =>
    intro param hparam
    rcases List.mem_cons.mp hparam with rfl | hparam
    . exact ⟨item, suffix, ⟨mods, separator ++ items, by simp⟩, hname, rfl, rfl⟩
    . obtain ⟨first, more, hwithin, hall⟩ := ih param hparam
      exact ⟨first, more, hwithin.trans ⟨mods ++ item :: (suffix ++ separator), [], by simp⟩, hall⟩

theorem ParamListOf.exists_items {items : List Item} {params : List TypeParam}
    (h : ParamListOf items params) :
    ∀ param ∈ params, ∃ item suffix, item :: suffix <:+: items
      ∧ item.token = .identifier param.name.value ∧ param.name.span = item.span
      ∧ param.span = ⟨item.span.start, stopAfter item.span.stop suffix⟩ := by
  cases h with
  | none => simp
  | @list opener closer inner _ _ _ hinner =>
    intro param hparam
    obtain ⟨item, suffix, hwithin, hall⟩ := hinner.exists_items param hparam
    exact ⟨item, suffix, hwithin.trans ⟨[opener], [closer], by simp⟩, hall⟩

theorem ParamListOf.isBalanced {items : List Item} {params : List TypeParam}
    (h : ParamListOf items params) : IsBalanced items := by
  cases h with
  | none => exact .nil
  | list hopener hcloser hinner => exact .group hopener hcloser hinner.isBalanced

theorem ParamListOf.isBraceless {items : List Item} {params : List TypeParam}
    (h : ParamListOf items params) : IsBraceless (delimitersOf items) := by
  cases h with
  | none => exact .nil
  | list hopener hcloser hinner =>
    rw [delimitersOf_group _ hopener hcloser]
    exact .group (by decide) hinner.isBalanced.isWellNested .nil

theorem HeadOf.isBalanced {items : List Item} {name : Located String} {params : List TypeParam}
    (h : HeadOf items name params) : IsBalanced items := by
  cases h with
  | mk hfront hname hlist hheritage =>
    apply (isBalanced_of_delimitersOf hfront).append
    exact (hlist.isBalanced.append hheritage).cons (by simp [hname]) (by simp [hname])

theorem HeadOf.isBraceless {items : List Item} {name : Located String} {params : List TypeParam}
    (h : HeadOf items name params) : IsBraceless (delimitersOf items) := by
  cases h with
  | mk hfront hname hlist _ hbraces =>
    have := hlist.isBraceless.append hbraces
    simpa [delimitersOf_cons, hfront, hname, Token.isDelimiter] using this

theorem HeadOf.exists_items {items : List Item} {name : Located String} {params : List TypeParam}
    (h : HeadOf items name params) :
    ∀ param ∈ params, ∃ item suffix, item :: suffix <:+: items
      ∧ item.token = .identifier param.name.value ∧ param.name.span = item.span
      ∧ param.span = ⟨item.span.start, stopAfter item.span.stop suffix⟩ := by
  cases h with
  | @mk word front list heritage _ _ _ _ hlist =>
    intro param hparam
    obtain ⟨item, suffix, hwithin, hall⟩ := hlist.exists_items param hparam
    exact ⟨item, suffix, hwithin.trans ⟨front ++ [word], heritage, by simp⟩, hall⟩

theorem HeadOf.exists_name {items : List Item} {name : Located String} {params : List TypeParam}
    (h : HeadOf items name params) :
    ∃ item ∈ items, item.token = .identifier name.value ∧ name.span = item.span := by
  cases h with
  | @mk item _ _ _ _ _ _ hname => exact ⟨item, by simp, hname, rfl⟩

theorem isDelimiter_of_isWordOf {words : List String} {token : Token}
    (h : token.isWordOf words = true) : token.isDelimiter = false := by
  cases token with
  | opening => cases h
  | closing => cases h
  | _ => rfl

theorem isDelimiter_of_isWord {word : String} {token : Token} (h : token.isWord word = true) :
    token.isDelimiter = false := by
  cases token with
  | opening => cases h
  | closing => cases h
  | _ => rfl

theorem skipModifiers_eq (modifiers : List String) (item : Item) (rest : List Item) :
    ∃ used, item :: rest = used ++ (skipModifiers modifiers item rest).value
        :: (skipModifiers modifiers item rest).rest ∧ delimitersOf used = [] := by
  induction rest generalizing item with
  | nil => exact ⟨[], rfl, rfl⟩
  | cons next rest ih =>
    unfold skipModifiers
    split
    . next hmodifier =>
      obtain ⟨used, hused, hplain⟩ := ih next
      refine ⟨item :: used, congrArg (item :: ·) hused, ?_⟩
      rw [Bool.and_eq_true] at hmodifier
      rw [delimitersOf_cons, hplain, isDelimiter_of_isWordOf hmodifier.1]
      rfl
    . exact ⟨[], rfl, rfl⟩

theorem parseParamSuffix_eq_ok {opening : Span} {stop : Nat} {items : List Item}
    {p : Parsed Item Nat (items.length + 1)} (h : parseParamSuffix opening stop items = .ok p) :
    ∃ used separator, items = used ++ (separator ++ p.rest) ∧ IsBalanced used
      ∧ (∀ item ∈ separator, item.isSeparator) ∧ p.value = stopAfter stop used := by
  cases items with
  | nil =>
    unfold parseParamSuffix at h
    cases h
  | cons item rest =>
    unfold parseParamSuffix at h
    dsimp only at h
    split at h
    . next hcomma =>
      cases h
      refine ⟨[], [item], rfl, .nil, ?_, rfl⟩
      intro x hx
      cases List.mem_singleton.mp hx
      exact .inr hcomma
    . split at h
      . cases h
        exact ⟨[], [], rfl, .nil, by simp, rfl⟩
      . cases h
    . next d hd =>
      obtain ⟨⟨close, rest', hlt⟩, hskip, h⟩ := bind_eq_ok h
      obtain ⟨⟨stop', rest'', hlt'⟩, hsuffix, h⟩ := bind_eq_ok h
      obtain ⟨inner, hrest, hcloser, hinner⟩ := skipGroup_eq_ok hskip
      obtain ⟨used, separator, hrest', hused, hall, hstop⟩ := parseParamSuffix_eq_ok hsuffix
      cases h
      dsimp only at hrest hrest' hstop
      subst hrest' hrest
      refine ⟨item :: (inner ++ [close]) ++ used, separator, ?_,
        (IsBalanced.group hd hcloser hinner).append hused, hall, ?_⟩
      . simp [Parsed.within, Parsed.loosen]
      . simp [Parsed.within, Parsed.loosen, stopAfter, stopAfter_append, hstop]
    . next hcomma hclosing hopening =>
      obtain ⟨⟨stop', rest', hlt⟩, hsuffix, h⟩ := map_eq_ok h
      obtain ⟨used, separator, hrest, hused, hall, hstop⟩ := parseParamSuffix_eq_ok hsuffix
      subst h
      exact ⟨item :: used, separator, congrArg (item :: ·) hrest, hused.cons hopening hclosing, hall,
        hstop⟩
termination_by items.length
decreasing_by
  all_goals
    subst_vars
    simp only [List.length_cons]
    omega

theorem parseParams_eq_ok {opening : Span} {items : List Item}
    {p : Parsed Item (List TypeParam) (items.length + 1)} (h : parseParams opening items = .ok p) :
    ∃ inner closer, items = inner ++ closer :: p.rest ∧ closer.token = .closing .angle
      ∧ ParamsOf inner p.value := by
  cases items with
  | nil =>
    unfold parseParams at h
    cases h
  | cons item rest =>
    unfold parseParams at h
    split at h
    . next hcloser =>
      cases h
      exact ⟨[], item, rfl, beq_iff_eq.mp hcloser, .nil⟩
    . obtain ⟨mods, hmods, hplain⟩ := skipModifiers_eq paramModifiers item rest
      dsimp only at h
      generalize skipModifiers paramModifiers item rest = skipped at h hmods
      obtain ⟨first, rest₁, h₁⟩ := skipped
      dsimp only at h hmods
      split at h
      . next name hname =>
        obtain ⟨⟨stop, rest₂, h₂⟩, hsuffix, h⟩ := bind_eq_ok h
        obtain ⟨⟨params, rest₃, h₃⟩, hparams, h⟩ := bind_eq_ok h
        obtain ⟨used, separator, hrest₁, hused, hall, hstop⟩ := parseParamSuffix_eq_ok hsuffix
        obtain ⟨inner, closer, hrest₂, hcloser, hinner⟩ := parseParams_eq_ok hparams
        cases h
        dsimp only at hrest₁ hrest₂ hstop hinner
        subst hrest₂ hrest₁ hstop
        refine ⟨mods ++ first :: (used ++ (separator ++ inner)), closer, ?_, hcloser,
          .param hplain hname hused hall hinner⟩
        apply hmods.trans
        simp [Parsed.map, Parsed.within, Parsed.loosen]
      . cases h
termination_by items.length
decreasing_by
  all_goals
    subst_vars
    simp only [List.length_cons]
    omega

theorem parseParamList_eq_ok {items : List Item}
    {p : Parsed Item (List TypeParam) (items.length + 1)} (h : parseParamList items = .ok p) :
    ∃ used, items = used ++ p.rest ∧ ParamListOf used p.value := by
  unfold parseParamList at h
  split at h
  . cases h
    exact ⟨[], rfl, .none⟩
  . next item rest =>
    split at h
    . next hopener =>
      obtain ⟨q, hparams, h⟩ := map_eq_ok h
      obtain ⟨inner, closer, hrest, hcloser, hinner⟩ := parseParams_eq_ok hparams
      subst h
      refine ⟨item :: (inner ++ [closer]), ?_, .list (beq_iff_eq.mp hopener) hcloser hinner⟩
      rw [List.cons_append, List.append_assoc]
      exact congrArg (item :: ·) hrest
    . cases h
      exact ⟨[], rfl, .none⟩

theorem parseExpression_eq_ok {collect : Bool} {what : Expectation} {items : List Item}
    {p : Parsed Item TypeExpr items.length} (h : parseExpression collect what items = .ok p) :
    ∃ start more, items = start :: more ++ p.rest ∧ TermsOf collect (start :: more) p.value.objects
      ∧ p.value.span = ⟨start.span.start, stopAfter start.span.stop more⟩ := by
  unfold parseExpression at h
  split at h
  . cases h
  . next item rest =>
    split at h
    . cases h
    . next hterminator =>
      have hitem : ∀ d, item.token ≠ .closing d := by
        intro d hd
        simp [hd, Token.isTerminator] at hterminator
      obtain ⟨⟨term, rest', hlt⟩, hterm, h⟩ := bind_eq_ok h
      obtain ⟨run, hrun, h⟩ := bind_eq_ok h
      obtain ⟨⟨⟨os, stop⟩, rest'', hlt'⟩, hrun, hmap⟩ := bind_eq_ok hrun
      obtain ⟨more, hrest, hmore, hstop, _⟩ := parseTerm_eq_ok hterm hitem
      obtain ⟨used, hrest', hused, hstop', _⟩ := parseRun_eq_ok hrun
      cases hmap
      cases h
      dsimp only at hrest hrest' hstop hstop'
      refine ⟨item, more ++ used, ?_, hmore.append hused, ?_⟩
      . subst hrest' hrest
        simp [Parsed.map, Parsed.within]
      . rw [stopAfter_append, ← hstop, ← hstop']
        rfl

theorem parseHeritage_eq_ok {items : List Item} {p : Parsed Item Span items.length}
    (h : parseHeritage items = .ok p) :
    ∃ inner opener, items = inner ++ opener :: p.rest ∧ IsBalanced inner
      ∧ IsBraceless (delimitersOf inner) ∧ opener.token = .opening .brace
      ∧ p.value = opener.span := by
  cases items with
  | nil =>
    unfold parseHeritage at h
    cases h
  | cons item rest =>
    unfold parseHeritage at h
    dsimp only at h
    split at h
    . next d hd =>
      split at h
      . next heq =>
        cases h
        subst heq
        exact ⟨[], item, rfl, .nil, .nil, hd, rfl⟩
      . next hne =>
        obtain ⟨⟨close, rest', hlt⟩, hskip, h⟩ := bind_eq_ok h
        obtain ⟨⟨body, rest'', hlt'⟩, hbody, h⟩ := bind_eq_ok h
        obtain ⟨group, hrest, hcloser, hgroup⟩ := skipGroup_eq_ok hskip
        obtain ⟨inner, opener, hrest', hinner, hbraces, hopener, hspan⟩ := parseHeritage_eq_ok hbody
        cases h
        dsimp only at hrest hrest'
        subst hrest' hrest
        refine ⟨item :: (group ++ [close]) ++ inner, opener, ?_, ?_, ?_, hopener, hspan⟩
        . simp [Parsed.within, Parsed.loosen]
        . exact (IsBalanced.group hd hcloser hgroup).append hinner
        . rw [delimitersOf_append, delimitersOf_group _ hd hcloser]
          exact (IsBraceless.group hne (IsBalanced.isWellNested hgroup) .nil).append hbraces
    . cases h
    . cases h
    . next hopening hsemicolon hclosing =>
      obtain ⟨q, hq, h⟩ := map_eq_ok h
      obtain ⟨inner, opener, hrest, hinner, hbraces, hopener, hspan⟩ := parseHeritage_eq_ok hq
      subst h
      refine ⟨item :: inner, opener, congrArg (item :: ·) hrest, hinner.cons hopening hclosing, ?_,
        hopener, hspan⟩
      rw [delimitersOf_cons, isDelimiter_eq_false hopening hclosing]
      exact hbraces
termination_by items.length
decreasing_by
  all_goals
    subst_vars
    simp only [List.length_cons]
    omega

theorem parseDottedName_eq (name : Located String) (items : List Item) :
    ∃ used, items = used ++ (parseDottedName name items).rest ∧ delimitersOf used = []
      ∧ (parseDottedName name items).value.span.stop = stopAfter name.span.stop used := by
  fun_induction parseDottedName name items with
  | case1 name dot part rest text hpart hdot name' ih =>
    obtain ⟨used, hused, hplain, hstop⟩ := ih
    refine ⟨dot :: part :: used, congrArg (dot :: part :: ·) hused, ?_, hstop⟩
    simp [delimitersOf_cons, hpart, hdot, hplain, Token.isDelimiter]
  | case2 => exact ⟨[], rfl, rfl, rfl⟩
  | case3 => exact ⟨[], rfl, rfl, rfl⟩
  | case4 => exact ⟨[], rfl, rfl, rfl⟩

theorem parseNamespaceName_eq_ok {keyword : Item} {items : List Item}
    {p : Parsed Item (Located String) (items.length + 1)}
    (h : parseNamespaceName keyword items = .ok p) :
    ∃ used, items = used ++ p.rest ∧ delimitersOf used = []
      ∧ p.value.span.stop = stopAfter keyword.span.stop used := by
  unfold parseNamespaceName at h
  split at h
  . cases h
    exact ⟨[], rfl, rfl, rfl⟩
  . split at h
    . cases h
    . next item rest =>
      split at h
      . next hname =>
        cases h
        exact ⟨[item], rfl, by simp [delimitersOf_cons, hname, Token.isDelimiter], rfl⟩
      . next name hname =>
        cases h
        obtain ⟨used, hused, hplain, hstop⟩ := parseDottedName_eq ⟨name, item.span⟩ rest
        refine ⟨item :: used, congrArg (item :: ·) hused, ?_, hstop⟩
        simp [delimitersOf_cons, hname, hplain, Token.isDelimiter]
      . cases h

theorem takeToken?_eq_some {token : Token} {items : List Item} {p : Parsed Item Item items.length}
    (h : takeToken? token items = some p) :
    items = p.value :: p.rest ∧ p.value.token = token := by
  unfold takeToken? at h
  split at h
  . cases h
  . split at h
    . next htoken =>
      cases h
      exact ⟨rfl, htoken⟩
    . cases h

theorem takeToken?_eq_none {token : Token} {items : List Item} :
    takeToken? token items = none ↔ startsWith (· == token) items = false := by
  cases items with
  | nil => simp [takeToken?, startsWith]
  | cons item rest => simp [takeToken?, startsWith]

theorem parseToken_eq_ok {token : Token} {what : Expectation} {items : List Item}
    {p : Parsed Item Item items.length} (h : parseToken token what items = .ok p) :
    items = p.value :: p.rest ∧ p.value.token = token := by
  unfold parseToken at h
  split at h
  . next htake =>
    cases h
    exact takeToken?_eq_some htake
  . cases h

theorem andMaybe_eq_ok {α β : Type} {n : Nat} {p : Parsed Item α n} {q : Parsed Item β n}
    {f : (items : List Item) → Parse β (items.length + 1)} (h : p.andMaybe f = .ok q) :
    ∃ value rest h₁ h₂, f p.rest = .ok ⟨value, rest, h₁⟩ ∧ q = ⟨value, rest, h₂⟩ := by
  obtain ⟨⟨value, rest, h₁⟩, hf, hq⟩ := bind_eq_ok h
  cases hq
  exact ⟨value, rest, h₁, _, hf, rfl⟩

theorem andThen_eq_ok {α β : Type} {n : Nat} {p : Parsed Item α n} {q : Parsed Item β n}
    {f : (items : List Item) → Parse β items.length} (h : p.andThen f = .ok q) :
    ∃ value rest h₁ h₂, f p.rest = .ok ⟨value, rest, h₁⟩ ∧ q = ⟨value, rest, h₂⟩ := by
  obtain ⟨⟨value, rest, h₁⟩, hf, hq⟩ := bind_eq_ok h
  cases hq
  exact ⟨value, rest, h₁, _, hf, rfl⟩

theorem isDelimiter_of_statementForm {keyword : Item} {items : List Item}
    (h : ∀ collect, statementForm keyword items ≠ .other collect) :
    keyword.token.isDelimiter = false := by
  unfold statementForm at h
  dsimp only at h
  split at h
  . next hword =>
    rw [Bool.and_eq_true] at hword
    exact isDelimiter_of_isWord hword.1
  . split at h
    . next hword =>
      rw [Bool.and_eq_true] at hword
      exact isDelimiter_of_isWord hword.1
    . split at h
      . next hword =>
        rw [Bool.and_eq_true] at hword
        exact isDelimiter_of_isWord hword.1
      . split at h
        . next hword =>
          rw [Bool.or_eq_true, Bool.and_eq_true, Bool.and_eq_true] at hword
          rcases hword with hword | hword
          . exact isDelimiter_of_isWordOf hword.1
          . exact isDelimiter_of_isWord hword.1
        . exact absurd rfl (h _)

end Delegation
