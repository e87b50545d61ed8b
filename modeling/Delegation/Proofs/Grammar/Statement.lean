import Delegation.Proofs.Grammar.Head

/-!
This module contains which items the statements of a declaration file are read from.
-/

namespace Delegation

open Item

mutual

/--
A statement: what tells its kind and its name, and the items that its object types, members or
statements are read from.
-/
inductive StatementOf : List Item → Statement → Prop where
  | typeAlias {first equals start : Item} {more head rest separator : List Item}
    {name : Located String} {params : List TypeParam} {os : List ObjectType}
    (hused : first :: more = head ++ equals :: (start :: rest ++ separator))
    (hhead : HeadOf head name params)
    (hequals : equals.token = .sign .equals)
    (htype : TermsOf true (start :: rest) os)
    (hseparator : ∀ item ∈ separator, item.isSeparator) :
    StatementOf (first :: more)
      (.typeAlias ⟨name, params, ⟨os, ⟨start.span.start, stopAfter start.span.stop rest⟩⟩,
        ⟨first.span.start, stopAfter first.span.stop more⟩⟩)
  | interfaceBlock {first opener closer : Item} {more head inner : List Item}
    {name : Located String} {params : List TypeParam} {ms : List Member}
    (hused : first :: more = head ++ opener :: (inner ++ [closer]))
    (hhead : HeadOf head name params)
    (hopener : opener.token = .opening .brace) (hcloser : closer.token = .closing .brace)
    (hinner : MembersOf inner ms) :
    StatementOf (first :: more)
      (.interfaceBlock ⟨name, params, ms, ⟨first.span.start, stopAfter first.span.stop more⟩⟩)
  | classBlock {first opener closer : Item} {more head inner : List Item}
    {name : Located String} {params : List TypeParam} {ms : List Member}
    (hused : first :: more = head ++ opener :: (inner ++ [closer]))
    (hhead : HeadOf head name params)
    (hopener : opener.token = .opening .brace) (hcloser : closer.token = .closing .brace)
    (hinner : MembersOf inner ms) :
    StatementOf (first :: more)
      (.classBlock ⟨name, params, ms, ⟨first.span.start, stopAfter first.span.stop more⟩⟩)
  | namespaceBlock {first opener closer : Item} {more head inner : List Item}
    {name : Located String} {body : List Statement}
    (hused : first :: more = head ++ opener :: (inner ++ [closer]))
    (hhead : delimitersOf head = [])
    (hopener : opener.token = .opening .brace) (hcloser : closer.token = .closing .brace)
    (hinner : StatementsOf inner body) :
    StatementOf (first :: more)
      (.namespaceBlock name body ⟨first.span.start, stopAfter first.span.stop more⟩)
  | other {collect : Bool} {first : Item} {more head body separator : List Item}
    {os : List ObjectType} (hused : first :: more = head ++ body ++ separator)
    (hhead : IsBalanced head) (hbody : TermsOf collect body os)
    (hseparator : ∀ item ∈ separator, item.isSeparator) :
    StatementOf (first :: more) (.other os ⟨first.span.start, stopAfter first.span.stop more⟩)

inductive StatementsOf : List Item → List Statement → Prop where
  | nil : StatementsOf [] []
  | semicolon {item : Item} {items : List Item} {ss : List Statement}
    (hitem : item.token = .sign .semicolon) (htail : StatementsOf items ss) :
    StatementsOf (item :: items) ss
  | statement {used items : List Item} {s : Statement} {ss : List Statement}
    (hstatement : StatementOf used s) (htail : StatementsOf items ss) :
    StatementsOf (used ++ items) (s :: ss)

end

mutual

theorem StatementOf.isBalanced {used : List Item} {s : Statement} (h : StatementOf used s) :
    IsBalanced used := by
  match h with
  | .typeAlias hused hhead hequals htype hseparator =>
    rw [hused]
    have htail := htype.isBalanced.append (isSeparator.isBalanced hseparator)
    exact hhead.isBalanced.append (htail.cons (by simp [hequals]) (by simp [hequals]))
  | .interfaceBlock hused hhead hopener hcloser hinner =>
    rw [hused]
    exact hhead.isBalanced.append (.group hopener hcloser hinner.isBalanced)
  | .classBlock hused hhead hopener hcloser hinner =>
    rw [hused]
    exact hhead.isBalanced.append (.group hopener hcloser hinner.isBalanced)
  | .namespaceBlock hused hhead hopener hcloser hinner =>
    rw [hused]
    exact (isBalanced_of_delimitersOf hhead).append (.group hopener hcloser hinner.isBalanced)
  | .other hused hhead hbody hseparator =>
    rw [hused]
    exact (hhead.append hbody.isBalanced).append (isSeparator.isBalanced hseparator)

theorem StatementsOf.isBalanced {items : List Item} {ss : List Statement}
    (h : StatementsOf items ss) : IsBalanced items := by
  match h with
  | .nil => exact .nil
  | .semicolon hitem htail => exact htail.isBalanced.cons (by simp [hitem]) (by simp [hitem])
  | .statement hstatement htail => exact hstatement.isBalanced.append htail.isBalanced

end

theorem parseAlias_eq_ok {start : Nat} {items : List Item} {p : Parsed Item TypeAlias items.length}
    (h : parseAlias start items = .ok p) :
    ∃ used, items = used ++ p.rest ∧ ∀ front first more, delimitersOf front = [] →
      front ++ used = first :: more → first.span.start = start →
      StatementOf (first :: more) (.typeAlias p.value) := by
  unfold parseAlias at h
  obtain ⟨⟨name, rest₁, h₁⟩, hname, h⟩ := bind_eq_ok h
  obtain ⟨_, hand, h⟩ := bind_eq_ok h
  obtain ⟨params, rest₂, h₂, _, hparams, rfl⟩ := andMaybe_eq_ok hand
  obtain ⟨_, hand, h⟩ := bind_eq_ok h
  obtain ⟨equals, rest₃, h₃, _, hequals, rfl⟩ := andThen_eq_ok hand
  obtain ⟨_, hand, h⟩ := bind_eq_ok h
  obtain ⟨⟨os, span⟩, rest₄, h₄, _, htype, rfl⟩ := andThen_eq_ok hand
  obtain ⟨item, text, hitems, hitem, hlocated⟩ := parseName_eq_ok hname
  obtain ⟨list, hrest₁, hlist⟩ := parseParamList_eq_ok hparams
  obtain ⟨hrest₂, htoken⟩ := parseToken_eq_ok hequals
  obtain ⟨opening, more, hrest₃, hmore, hspan⟩ := parseExpression_eq_ok htype
  obtain ⟨separator, hrest₄, hall, hvalue⟩ := terminator_eq span.stop rest₄
  dsimp only [Parsed.onward, Parsed.within, Parsed.loosen] at *
  generalize terminator span.stop rest₄ = last at h hrest₄ hvalue
  obtain ⟨stop, rest₅, h₅⟩ := last
  dsimp only at h hrest₄ hvalue
  cases h
  refine ⟨item :: list ++ equals :: (opening :: more ++ separator), ?_, ?_⟩
  . subst hrest₄ hrest₃ hrest₂ hrest₁ hitems
    simp [Parsed.map]
  . intro front first more' hfront hused hstart
    subst hstart hspan hlocated
    have hhead := HeadOf.mk hfront hitem hlist .nil .nil
    have hstop : stop = stopAfter first.span.stop more' := by
      have := congrArg (stopAfter 0) hused
      simp only [stopAfter_append, stopAfter, List.cons_append] at this
      rw [← this, hvalue]
    dsimp only [Parsed.map] at *
    rw [hstop]
    exact .typeAlias (by rw [← hused]; simp) hhead htoken hmore hall

theorem parseBlock_eq_ok {start : Nat} {items : List Item}
    {p : Parsed Item MemberBlock items.length} (h : parseBlock start items = .ok p) :
    ∃ used, items = used ++ p.rest ∧ ∀ front first more, delimitersOf front = [] →
      front ++ used = first :: more → first.span.start = start →
      StatementOf (first :: more) (.interfaceBlock p.value)
        ∧ StatementOf (first :: more) (.classBlock p.value) := by
  unfold parseBlock at h
  obtain ⟨⟨name, rest₁, h₁⟩, hname, h⟩ := bind_eq_ok h
  obtain ⟨_, hand, h⟩ := bind_eq_ok h
  obtain ⟨params, rest₂, h₂, _, hparams, rfl⟩ := andMaybe_eq_ok hand
  obtain ⟨_, hand, h⟩ := bind_eq_ok h
  obtain ⟨opening, rest₃, h₃, _, hopening, rfl⟩ := andThen_eq_ok hand
  obtain ⟨_, hand, h⟩ := bind_eq_ok h
  obtain ⟨⟨ms, close⟩, rest₄, h₄, _, hmembers, rfl⟩ := andThen_eq_ok hand
  cases h
  obtain ⟨item, text, hitems, hitem, hlocated⟩ := parseName_eq_ok hname
  obtain ⟨list, hrest₁, hlist⟩ := parseParamList_eq_ok hparams
  obtain ⟨heritage, opener, hrest₂, hheritage, hbraces, hopener, _⟩ := parseHeritage_eq_ok hopening
  obtain ⟨inner, closer, hrest₃, hinner, hcloser, hclose⟩ := parseMembers_eq_ok hmembers
  dsimp only [Parsed.within, Parsed.loosen, Parsed.map] at *
  refine ⟨item :: list ++ heritage ++ opener :: (inner ++ [closer]), ?_, ?_⟩
  . subst hrest₃ hrest₂ hrest₁ hitems
    simp
  . intro front first more' hfront hused hstart
    subst hstart hlocated
    have hhead := HeadOf.mk hfront hitem hlist hheritage hbraces
    have hstop : close.stop = stopAfter first.span.stop more' := by
      have := congrArg (stopAfter 0) hused
      simp only [stopAfter_append, stopAfter, List.cons_append] at this
      rw [← this, hclose]
    rw [hstop]
    exact ⟨.interfaceBlock (by rw [← hused]; simp) hhead hopener hcloser hinner,
      .classBlock (by rw [← hused]; simp) hhead hopener hcloser hinner⟩

theorem StatementOf.ofUsed {item keyword : Item} {rest rest' mods next : List Item}
    {s : Statement} (used : List Item) (hrest : item :: rest = mods ++ keyword :: rest')
    (hmods : delimitersOf mods = []) (hkeyword : keyword.token.isDelimiter = false)
    (hused : rest' = used ++ next)
    (h : ∀ front first more, delimitersOf front = [] → front ++ used = first :: more →
      first.span.start = item.span.start → StatementOf (first :: more) s) :
    ∃ more, rest = more ++ next ∧ StatementOf (item :: more) s := by
  have hfront : delimitersOf (mods ++ [keyword]) = [] := by
    simp [delimitersOf_cons, hmods, hkeyword]
  obtain ⟨first, more, hfirst⟩ := List.exists_cons_of_ne_nil (l := mods ++ [keyword]) (by simp)
  have hitems : item :: rest = mods ++ [keyword] ++ used ++ next := by
    rw [hrest, hused]
    simp
  rw [hfirst] at hitems
  cases hitems
  exact ⟨more ++ used, rfl, h _ _ _ hfront (by rw [hfirst]; rfl) rfl⟩

theorem StatementOf.ofParts {collect : Bool} {item : Item} {rest body used next : List Item}
    {os : List ObjectType} {stop : Nat} (front : List Item)
    (hrest : item :: rest = front ++ body ++ used ++ next) (hne : front ++ body ≠ [])
    (hfront : IsBalanced front) (hbody : TermsOf collect body os)
    (hused : ∀ item ∈ used, item.isSeparator)
    (hstop : stop = stopAfter 0 (front ++ body ++ used)) :
    ∃ more, rest = more ++ next
      ∧ StatementOf (item :: more) (.other os ⟨item.span.start, stop⟩) := by
  obtain ⟨first, more, hfirst⟩ := List.exists_cons_of_ne_nil hne
  rw [hfirst] at hrest hstop
  cases hrest
  refine ⟨more ++ used, rfl, ?_⟩
  rw [hstop]
  exact .other (by rw [hfirst]; rfl) hfront hbody hused

mutual

theorem parseStatement_eq_ok {item : Item} {rest : List Item}
    {p : Parsed Item Statement (rest.length + 1)} (h : parseStatement item rest = .ok p) :
    ∃ more, rest = more ++ p.rest ∧ StatementOf (item :: more) p.value := by
  obtain ⟨mods, hmods, hplain⟩ := skipModifiers_eq statementModifiers item rest
  unfold parseStatement at h
  dsimp only at h
  generalize skipModifiers statementModifiers item rest = skipped at h hmods
  obtain ⟨keyword, rest₁, h₁⟩ := skipped
  dsimp only at h hmods
  have hkeyword := @isDelimiter_of_statementForm keyword rest₁
  split at h
  . next hform =>
    obtain ⟨⟨decl, rest₂, h₂⟩, hdecl, h⟩ := bind_eq_ok h
    obtain ⟨used, hused, hall⟩ := parseAlias_eq_ok hdecl
    cases h
    exact StatementOf.ofUsed used hmods hplain (hkeyword (by simp [hform])) hused hall
  . next hform =>
    obtain ⟨⟨decl, rest₂, h₂⟩, hdecl, h⟩ := bind_eq_ok h
    obtain ⟨used, hused, hall⟩ := parseBlock_eq_ok hdecl
    cases h
    apply StatementOf.ofUsed used hmods hplain (hkeyword (by simp [hform])) hused
    intro front first more hfront heq hstart
    exact (hall front first more hfront heq hstart).1
  . next hform =>
    obtain ⟨⟨decl, rest₂, h₂⟩, hdecl, h⟩ := bind_eq_ok h
    obtain ⟨used, hused, hall⟩ := parseBlock_eq_ok hdecl
    cases h
    apply StatementOf.ofUsed used hmods hplain (hkeyword (by simp [hform])) hused
    intro front first more hfront heq hstart
    exact (hall front first more hfront heq hstart).2
  . next hform =>
    replace hkeyword := hkeyword (by simp [hform])
    obtain ⟨⟨name, rest₂, h₂⟩, hname, h⟩ := bind_eq_ok h
    obtain ⟨dotted, hrest₁, hdotted, hstop⟩ := parseNamespaceName_eq_ok hname
    dsimp only at h hrest₁ hstop
    split at h
    . next opening rest₃ h₃ htake =>
      obtain ⟨⟨⟨body, stop⟩, rest₄, h₄⟩, hbody, h⟩ := bind_eq_ok h
      obtain ⟨hrest₂, hopening⟩ := takeToken?_eq_some htake
      obtain ⟨inner, closers, ss, hrest₃, hinner, hss, _, hend⟩ := parseStatements_eq_ok hbody
      obtain ⟨closer, hclosers, hcloser, hclose⟩ := hend _ rfl
      cases h
      dsimp only at hrest₂ hopening hrest₃ hss hclose
      subst hclosers hss hclose
      apply StatementOf.ofUsed (dotted ++ opening :: (inner ++ [closer])) hmods hplain
        hkeyword
      . dsimp only [Parsed.map, Parsed.within, Parsed.loosen]
        subst hrest₃ hrest₂ hrest₁
        simp
      . intro front first more hfront heq hstart
        rw [← List.append_assoc] at heq
        have hclose := congrArg (stopAfter 0) heq
        simp only [stopAfter_append, stopAfter] at hclose
        dsimp only [Parsed.map, Parsed.within, Parsed.loosen]
        rw [hclose, ← hstart]
        refine .namespaceBlock heq.symm ?_ hopening hcloser hinner
        rw [delimitersOf_append, hfront, hdotted]
        rfl
    . obtain ⟨⟨⟨os, stop⟩, rest₃, h₃⟩, hrun, h⟩ := bind_eq_ok h
      obtain ⟨body, hrest₂, hbody, hstop', _⟩ := parseRun_eq_ok hrun
      obtain ⟨separator, hrest₃, hall, hvalue⟩ := terminator_eq stop rest₃
      dsimp only [Parsed.onward] at h hrest₂ hstop' hbody
      generalize terminator stop rest₃ = last at h hrest₃ hvalue
      obtain ⟨stop', rest₄, h₄⟩ := last
      dsimp only at hrest₃ hvalue
      cases h
      have hfront : delimitersOf (mods ++ [keyword] ++ dotted) = [] := by
        simp [delimitersOf_cons, hplain, hkeyword, hdotted]
      apply StatementOf.ofParts (mods ++ [keyword] ++ dotted) _ (by simp)
        (isBalanced_of_delimitersOf hfront) hbody hall
      . simp only [Parsed.within, stopAfter_append, stopAfter, hvalue, hstop', hstop]
      . subst hrest₃ hrest₂ hrest₁
        rw [hmods]
        simp [Parsed.map, Parsed.within]
  . next collect hform =>
    obtain ⟨⟨⟨os, span⟩, rest₂, h₂⟩, hexpr, h⟩ := bind_eq_ok h
    obtain ⟨start, body, hrest₁, hbody, hspan⟩ := parseExpression_eq_ok hexpr
    obtain ⟨separator, hrest₂, hall, hvalue⟩ := terminator_eq span.stop rest₂
    dsimp only [Parsed.onward] at h hrest₁ hspan hbody
    generalize terminator span.stop rest₂ = last at h hrest₂ hvalue
    obtain ⟨stop, rest₃, h₃⟩ := last
    dsimp only at hrest₂ hvalue
    cases h
    apply StatementOf.ofParts mods _ (by simp) (isBalanced_of_delimitersOf hplain) hbody hall
    . simp only [Parsed.within, stopAfter_append, stopAfter, hvalue, hspan]
    . cases hrest₁
      subst hrest₂
      rw [hmods]
      simp [Parsed.map, Parsed.within]
termination_by 2 * rest.length + 2

theorem parseStatements_eq_ok {opening : Option Span} {acc : List Statement} {items : List Item}
    {p : Parsed Item (List Statement × Nat) (items.length + 1)}
    (h : parseStatements opening acc items = .ok p) :
    ∃ inner closers ss, items = inner ++ closers ++ p.rest ∧ StatementsOf inner ss
      ∧ p.value.1 = acc.reverse ++ ss
      ∧ (opening = none → closers = [] ∧ p.rest = [])
      ∧ ∀ span, opening = some span → ∃ closer, closers = [closer]
        ∧ closer.token = .closing .brace ∧ p.value.2 = closer.span.stop := by
  cases items with
  | nil =>
    unfold parseStatements at h
    split at h
    . cases h
    . cases h
      exact ⟨[], [], [], rfl, .nil, by simp [Parsed.leaving], fun _ => ⟨rfl, rfl⟩, by simp⟩
  | cons item rest =>
    unfold parseStatements at h
    dsimp only at h
    split at h
    . next d hd =>
      split at h
      . next heq =>
        rw [Bool.and_eq_true, decide_eq_true_eq] at heq
        obtain ⟨rfl, hsome⟩ := heq
        cases h
        refine ⟨[], [item], [], rfl, .nil, by simp [Parsed.leaving, Parsed.loosen], ?_, ?_⟩
        . rintro rfl
          cases hsome
        . intro span hspan
          exact ⟨item, rfl, hd, rfl⟩
      . cases h
    . next hitem =>
      obtain ⟨q, hq, h⟩ := map_eq_ok h
      obtain ⟨inner, closers, ss, hrest, hinner, hss, hend⟩ := parseStatements_eq_ok hq
      subst h
      exact ⟨item :: inner, closers, ss, congrArg (item :: ·) hrest, .semicolon hitem hinner, hss,
        hend⟩
    . next hclosing hsemicolon =>
      obtain ⟨⟨s, rest', hlt⟩, hstatement, h⟩ := bind_eq_ok h
      obtain ⟨⟨statements, rest'', hlt'⟩, hstatements, h⟩ := bind_eq_ok h
      obtain ⟨more, hrest, hs⟩ := parseStatement_eq_ok hstatement
      obtain ⟨inner, closers, ss, hrest', hinner, hss, hend⟩ := parseStatements_eq_ok hstatements
      cases h
      dsimp only at hrest hs hrest' hss
      refine ⟨item :: more ++ inner, closers, s :: ss, ?_, .statement hs hinner, ?_, hend⟩
      . subst hrest' hrest
        simp [Parsed.within, Parsed.loosen]
      . simp [Parsed.within, Parsed.loosen, hss]
termination_by 2 * items.length + 1

end

theorem DeclarationTree.ofLexemes_eq_ok {ls : List Lexeme} {tree : DeclarationTree}
    (h : ofLexemes ls = .ok tree) :
    StatementsOf (Item.ofLexemes ls) tree.statements ∧ tree.span = ⟨0, endOfText ls⟩ := by
  unfold ofLexemes at h
  dsimp only at h
  split at h
  . next statements stop rest hlt hparse =>
    cases h
    obtain ⟨inner, closers, ss, hitems, hinner, hss, hend, _⟩ := parseStatements_eq_ok hparse
    obtain ⟨hclosers, hrest⟩ := hend rfl
    dsimp only at hss hrest hitems
    rw [hclosers, hrest, List.append_nil, List.append_nil] at hitems
    rw [List.reverse_nil, List.nil_append] at hss
    rw [hitems, hss]
    exact ⟨hinner, rfl⟩
  . cases h

end Delegation
