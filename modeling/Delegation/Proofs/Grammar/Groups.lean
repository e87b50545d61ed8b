import Delegation.Proofs.Brackets
import Delegation.Proofs.Grammar.Member

/-!
This module contains that all parsers of groups agree where a group ends: the one that skips it, the
one that looks for the object types in it, and the one that reads the members of an object type.
-/

namespace Delegation

open Item

/-!
Words of brackets are divided as the items are from which they are taken.
-/

theorem delimitersOf_eq_append {items : List Item} {ts us : List Token}
    (h : delimitersOf items = ts ++ us) :
    ∃ front back, items = front ++ back ∧ delimitersOf front = ts ∧ delimitersOf back = us := by
  obtain ⟨ts', us', htokens, rfl, rfl⟩ := List.filter_eq_append_iff.mp h
  obtain ⟨front, back, hitems, rfl, rfl⟩ := List.map_eq_append_iff.mp htokens
  exact ⟨front, back, hitems, rfl, rfl⟩

theorem delimitersOf_eq_cons {items : List Item} {token : Token} {ts : List Token}
    (h : delimitersOf items = token :: ts) :
    ∃ front item back, items = front ++ item :: back ∧ item.token = token
      ∧ delimitersOf front = [] ∧ delimitersOf back = ts := by
  obtain ⟨front', back', htokens, hfront, _, rfl⟩ := List.filter_eq_cons_iff.mp h
  obtain ⟨front, more, rfl, rfl, hmore⟩ := List.map_eq_append_iff.mp htokens
  obtain ⟨item, back, rfl, rfl, rfl⟩ := List.map_eq_cons_iff.mp hmore
  refine ⟨front, item, back, rfl, rfl, ?_, rfl⟩
  exact List.filter_eq_nil_iff.mpr hfront

theorem IsWellNested.isBalanced {ts : List Token} (h : IsWellNested ts) {items : List Item}
    (hitems : delimitersOf items = ts) : IsBalanced items := by
  induction h generalizing items with
  | nil => exact isBalanced_of_delimitersOf hitems
  | @group d inner after _ _ ihinner ihafter =>
    obtain ⟨front, opener, more, rfl, hopener, hfront, hmore⟩ := delimitersOf_eq_cons hitems
    obtain ⟨inside, more, rfl, hinside, hmore⟩ := delimitersOf_eq_append hmore
    obtain ⟨gap, closer, back, rfl, hcloser, hgap, hback⟩ := delimitersOf_eq_cons hmore
    have hinner : IsBalanced (inside ++ gap) :=
      (ihinner hinside).append (isBalanced_of_delimitersOf hgap)
    have := ((isBalanced_of_delimitersOf hfront).append
      (.group hopener hcloser hinner)).append (ihafter hback)
    simpa using this

theorem isBalanced_iff_isWellNested {items : List Item} :
    IsBalanced items ↔ IsWellNested (delimitersOf items) :=
  ⟨IsBalanced.isWellNested, fun h => h.isBalanced rfl⟩

theorem IsBalanced.exists_group {opener : Item} {items : List Item} {d : Delimiter}
    (h : IsBalanced (opener :: items)) (hopener : opener.token = .opening d) :
    ∃ inner closer more, items = inner ++ closer :: more ∧ closer.token = .closing d
      ∧ IsBalanced inner ∧ IsBalanced more := by
  have hnested := h.isWellNested
  rw [delimitersOf_cons, hopener] at hnested
  generalize hword : (if (Token.opening d).isDelimiter then [Token.opening d] else [])
    ++ delimitersOf items = word at hnested
  cases hnested with
  | nil => simp [Token.isDelimiter] at hword
  | @group d' inner after hinner hafter =>
    obtain ⟨hd, hitems⟩ := List.cons.inj hword
    cases hd
    obtain ⟨inside, more, rfl, hinside, hmore⟩ := delimitersOf_eq_append hitems
    obtain ⟨gap, closer, back, rfl, hcloser, hgap, hback⟩ := delimitersOf_eq_cons hmore
    have hgroup := (hinner.isBalanced hinside).append (isBalanced_of_delimitersOf hgap)
    exact ⟨inside ++ gap, closer, back, by simp, hcloser, hgroup, hafter.isBalanced hback⟩

/--
A group is skipped exactly if it is closed behind items whose brackets have their partners.
-/
theorem skipGroup_eq_ok_iff {opening : OpenDelimiter} {items : List Item}
    {p : Parsed Item Item items.length} :
    skipGroup opening [] items = .ok p ↔ ∃ inner, items = inner ++ p.value :: p.rest
      ∧ IsWellNested (delimitersOf inner) ∧ p.value.token = .closing opening.delimiter := by
  constructor
  . intro h
    obtain ⟨inner, hitems, hcloser, hinner⟩ := skipGroup_eq_ok h
    exact ⟨inner, hitems, IsBalanced.isWellNested hinner, hcloser⟩
  . rintro ⟨inner, hitems, hinner, hcloser⟩
    obtain ⟨closer, rest, hlt⟩ := p
    dsimp only at hitems hcloser
    subst hitems
    obtain ⟨found, _, hskip, rfl⟩ :=
      (isBalanced_iff_isWellNested.mpr hinner).leaves_skipGroup hcloser
    exact hskip

theorem Parsed.leaving_andThen {ε ι α β : Type} (value : α) (items : List ι)
    (f : (items : List ι) → Except ε (Parsed ι β items.length)) :
    (leaving value items).andThen f = (f items).map loosen := by
  dsimp only [andThen, leaving]
  cases f items with
  | error e => rfl
  | ok p => rfl

/--
A group that was opened behind `stack` is skipped first, and then what is open around it.
-/
theorem skipGroup_append (opening innermost : OpenDelimiter) (stack outer : List OpenDelimiter)
    (items : List Item) :
    skipGroup opening (stack ++ innermost :: outer) items
      = skipGroup innermost stack items >>= fun p => p.andThen (skipGroup opening outer) := by
  induction items generalizing stack with
  | nil =>
    cases stack with
    | nil => rfl
    | cons => rfl
  | cons item items ih =>
    have step : ∀ stack',
        ((skipGroup opening (stack' ++ innermost :: outer) items).map Parsed.loosen
          : Parse Item (items.length + 1))
        = ((skipGroup innermost stack' items).map Parsed.loosen
          : Parse Item (items.length + 1)) >>= fun p => p.andThen (skipGroup opening outer) := by
      intro stack'
      rw [ih]
      cases skipGroup innermost stack' items with
      | error e => rfl
      | ok p =>
        simp only [Except.map, bind, Except.bind, Parsed.andThen, Parsed.loosen]
        cases skipGroup opening outer p.rest with
        | error e => rfl
        | ok q => rfl
    unfold skipGroup
    split
    . next d hd => exact step (⟨d, item.span⟩ :: stack)
    . next d hd =>
      cases stack with
      | nil =>
        by_cases heq : d = innermost.delimiter
        . simp only [List.nil_append, heq, if_true]
          exact (Parsed.leaving_andThen item items _).symm
        . simp only [List.nil_append, heq, if_false]
          rfl
      | cons inner stack =>
        by_cases heq : d = inner.delimiter
        . simp only [List.cons_append, heq, if_true]
          exact step stack
        . simp only [List.cons_append, heq, if_false]
          rfl
    . exact step stack

section

variable {collect : Bool} {opening : OpenDelimiter} {inner : List OpenDelimiter} {item : Item}
  {rest : List Item}

theorem skipGroup_opening {d : Delimiter} (h : item.token = .opening d) :
    skipGroup opening inner (item :: rest)
      = (skipGroup opening (⟨d, item.span⟩ :: inner) rest).map .loosen := by
  simp only [skipGroup, h]

theorem skipGroup_of_ne (hopening : ∀ d, item.token ≠ .opening d)
    (hclosing : ∀ d, item.token ≠ .closing d) :
    skipGroup opening inner (item :: rest) = (skipGroup opening inner rest).map .loosen := by
  rw [skipGroup]
  split
  . next d hd => exact absurd hd (hopening d)
  . next d hd => exact absurd hd (hclosing d)
  . rfl

theorem parseTerm_group {d : Delimiter} (h : item.token = .opening d)
    (hcollect : (collect && d == .brace) = false) :
    parseTerm collect item rest = do
      let group ← parseGroup collect ⟨d, item.span⟩ rest
      return group.loosen.map fun (objects, close) => ⟨objects, .closing d, close.stop⟩ := by
  rw [parseTerm]
  simp only [h, hcollect]
  rfl

theorem parseTerm_of_ne (h : ∀ d, item.token ≠ .opening d) :
    parseTerm collect item rest = .ok (.leaving ⟨[], item.token, item.span.stop⟩ rest) := by
  rw [parseTerm]
  split
  . next d hd => exact absurd hd (h d)
  . rfl

theorem parseGroup_cons (h : ∀ d, item.token ≠ .closing d) :
    parseGroup collect opening (item :: rest) = do
      let ⟨term, rest', hlt⟩ ← parseTerm collect item rest
      let group ← parseGroup collect opening rest'
      return (group.loosen.within hlt).map
        fun (objects, close) => (term.objects ++ objects, close) := by
  have hclosing : item.token.isClosing = false := by
    unfold Token.isClosing
    split
    . next d hd => exact absurd hd (h d)
    . rfl
  rw [parseGroup, if_neg (by simp [h]), hclosing]
  rfl

end

theorem parseGroup_false (opening : OpenDelimiter) (items : List Item) :
    parseGroup false opening items
      = (skipGroup opening [] items).map (Parsed.map fun closer => ([], closer.span)) := by
  match items with
  | [] =>
    rw [parseGroup]
    rfl
  | item :: rest =>
    rcases item.token.delimiter_cases with ⟨d, hd⟩ | ⟨d, hd⟩ | ⟨hopening, hclosing⟩
    . have hstack : [(⟨d, item.span⟩ : OpenDelimiter)] = [] ++ [⟨d, item.span⟩] := rfl
      rw [parseGroup_cons (by simp [hd]), parseTerm_group hd rfl, skipGroup_opening hd, hstack,
        skipGroup_append, parseGroup_false]
      cases skipGroup ⟨d, item.span⟩ [] rest with
      | error e => rfl
      | ok p =>
        have hlt := p.rest_lt
        simp only [Except.map, bind, Except.bind, Parsed.andThen, Parsed.map, Parsed.loosen, pure,
          Except.pure]
        rw [parseGroup_false]
        cases skipGroup opening [] p.rest with
        | error e => rfl
        | ok q => rfl
    . rw [parseGroup, skipGroup]
      by_cases heq : d = opening.delimiter
      . simp only [hd, heq, beq_self_eq_true, if_true]
        rfl
      . have hne : (Token.closing d == .closing opening.delimiter) = false := by simp [heq]
        simp only [hd, heq, hne, Token.isClosing, if_false, if_true]
        rfl
    . rw [parseGroup_cons hclosing, parseTerm_of_ne hopening, skipGroup_of_ne hopening hclosing]
      simp only [bind, Except.bind, Parsed.leaving]
      rw [parseGroup_false]
      cases skipGroup opening [] rest with
      | error e => rfl
      | ok q => rfl
termination_by items.length

/--
The groups in braces among `items` that are in no other braces, where those that start at `starts`
are open, the innermost first.
-/
def bracesFrom : (starts : List Nat) → List Item → List Span
  | _, [] => []
  | starts, item :: items =>
    match item.token, starts with
    | .opening .brace, starts => bracesFrom (item.span.start :: starts) items
    | .closing .brace, [start] => ⟨start, item.span.stop⟩ :: bracesFrom [] items
    | .closing .brace, starts => bracesFrom starts.tail items
    | _, starts => bracesFrom starts items

theorem bracesFrom_cons {item : Item} (hopening : item.token ≠ .opening .brace)
    (hclosing : item.token ≠ .closing .brace) (starts : List Nat) (items : List Item) :
    bracesFrom starts (item :: items) = bracesFrom starts items := by
  conv =>
    lhs
    unfold bracesFrom
  split
  . next h => exact absurd h hopening
  . next h => exact absurd h hclosing
  . next h _ => exact absurd h hclosing
  . rfl

theorem bracesFrom_nested {stack after : List Delimiter} {items : List Item}
    (h : nest? stack items = some after) (start : Nat) (more : List Item) {starts : List Nat}
    (hstarts : starts.length = stack.count .brace) :
    ∃ starts', starts'.length = after.count .brace
      ∧ bracesFrom (starts ++ [start]) (items ++ more) = bracesFrom (starts' ++ [start]) more := by
  induction items generalizing stack starts with
  | nil =>
    cases h
    exact ⟨starts, hstarts, rfl⟩
  | cons item items ih =>
    rw [nest?_cons] at h
    obtain ⟨stack', hitem, htail⟩ := Option.bind_eq_some_iff.mp h
    rw [List.cons_append]
    rcases item.token.delimiter_cases with ⟨d, hd⟩ | ⟨d, hd⟩ | ⟨hopening, hclosing⟩
    . simp only [Item.nest?, hd, Option.some.injEq] at hitem
      subst hitem
      by_cases hbrace : d = .brace
      . subst hbrace
        simp only [bracesFrom, hd]
        exact @ih _ htail (item.span.start :: starts) (by simp [hstarts])
      . rw [bracesFrom_cons (by simp [hd, hbrace]) (by simp [hd])]
        exact ih htail (by simpa [List.count_cons, hbrace] using hstarts)
    . cases stack with
      | nil => simp [Item.nest?, hd] at hitem
      | cons innermost outer =>
        by_cases heq : d = innermost
        . subst heq
          simp only [Item.nest?, hd, if_true, Option.some.injEq] at hitem
          subst hitem
          by_cases hbrace : d = .brace
          . subst hbrace
            obtain ⟨first, starts, rfl⟩ : ∃ first starts', starts = first :: starts' := by
              apply List.exists_cons_of_length_pos
              rw [hstarts]
              simp
            have hpop : bracesFrom (first :: starts ++ [start]) (item :: (items ++ more))
                = bracesFrom (starts ++ [start]) (items ++ more) := by
              cases starts with
              | nil => simp [bracesFrom, hd]
              | cons => simp [bracesFrom, hd]
            rw [hpop]
            exact ih htail (by simpa using hstarts)
          . rw [bracesFrom_cons (by simp [hd]) (by simp [hd, hbrace])]
            exact ih htail (by simpa [List.count_cons, hbrace] using hstarts)
        . simp [Item.nest?, hd, heq] at hitem
    . rw [Item.nest?_of_ne hopening hclosing, Option.some.injEq] at hitem
      subst hitem
      rw [bracesFrom_cons (hopening _) (hclosing _)]
      exact ih htail hstarts

theorem bracesFrom_braces {opener closer : Item} {inner : List Item}
    (hopener : opener.token = .opening .brace) (hcloser : closer.token = .closing .brace)
    (hinner : IsBalanced inner) (more : List Item) :
    bracesFrom [] (opener :: (inner ++ closer :: more))
      = ⟨opener.span.start, closer.span.stop⟩ :: bracesFrom [] more := by
  obtain ⟨starts, hstarts, hnested⟩ := @bracesFrom_nested [] [] inner hinner opener.span.start
    (closer :: more) [] rfl
  obtain rfl : starts = [] := List.length_eq_zero_iff.mp hstarts
  simp only [List.nil_append] at hnested
  simp [bracesFrom, hopener, hnested, hcloser]

theorem TermsOf.map_span {collect : Bool} {items : List Item} {os : List ObjectType}
    (h : TermsOf collect items os) (hcollect : collect = true) (more : List Item) :
    bracesFrom [] (items ++ more) = os.map ObjectType.span ++ bracesFrom [] more := by
  match h with
  | .nil => rfl
  | .item hopening hclosing htail =>
    rw [List.cons_append, bracesFrom_cons (hopening _) (hclosing _)]
    exact htail.map_span hcollect more
  | .group (d := d) hopener hcloser hd hinner htail =>
    have hd : d ≠ .brace := by simpa [hcollect] using hd
    rw [List.cons_append, bracesFrom_cons (by simp [hopener, hd]) (by simp [hopener]),
      List.append_assoc, hinner.map_span hcollect, List.cons_append,
      bracesFrom_cons (by simp [hcloser]) (by simp [hcloser, hd]), htail.map_span hcollect,
      List.map_append, List.append_assoc]
  | .object hopener hcloser hinner htail =>
    rw [List.cons_append, List.append_assoc, List.cons_append,
      bracesFrom_braces hopener hcloser hinner.isBalanced, htail.map_span hcollect]
    rfl

/--
All parsers of groups agree. Those that look for nothing inside are the same, with their errors, and
succeed if brackets have their partners up to the one that closes the group. The others end there
as well where they succeed, and find the outermost groups in braces.
-/
theorem groups_agree (opening : OpenDelimiter) (items : List Item) :
    parseGroup false opening items
        = (skipGroup opening [] items).map (Parsed.map fun closer => ([], closer.span))
      ∧ ((∃ p, skipGroup opening [] items = .ok p) ↔ ∃ used rest, items = used ++ rest
        ∧ IsWellNested (.opening opening.delimiter :: delimitersOf used))
      ∧ (∀ p, skipGroup opening [] items = .ok p ↔ ∃ inner, items = inner ++ p.value :: p.rest
        ∧ IsWellNested (delimitersOf inner) ∧ p.value.token = .closing opening.delimiter)
      ∧ (∀ p, parseGroup true opening items = .ok p → ∃ inner closer,
        items = inner ++ closer :: p.rest ∧ p.value.2 = closer.span
          ∧ p.value.1.map ObjectType.span = bracesFrom [] inner
          ∧ Leaves p.rest (· = closer) (skipGroup opening [] items))
      ∧ (opening.delimiter = .brace → ∀ p, parseMembers opening.span items = .ok p →
        Leaves p.rest (fun closer => p.value.2 = closer.span) (skipGroup opening [] items)) := by
  refine ⟨parseGroup_false opening items, ⟨?_, ?_⟩, fun p => skipGroup_eq_ok_iff, ?_, ?_⟩
  . rintro ⟨p, hp⟩
    obtain ⟨inner, hitems, hinner, hcloser⟩ := skipGroup_eq_ok_iff.mp hp
    refine ⟨inner ++ [p.value], p.rest, by simpa using hitems, ?_⟩
    have hdelimiters : delimitersOf [p.value] = [.closing opening.delimiter] := by
      simp [delimitersOf_cons, hcloser, Token.isDelimiter]
    rw [delimitersOf_append, hdelimiters]
    exact .group hinner .nil
  . rintro ⟨used, rest, rfl, hnested⟩
    generalize hword : Token.opening opening.delimiter :: delimitersOf used = word at hnested
    cases hnested with
    | nil => cases hword
    | @group d inner after hinner _ =>
      obtain ⟨hd, hused⟩ := List.cons.inj hword
      obtain ⟨front, more, rfl, rfl, hmore⟩ := delimitersOf_eq_append hused
      obtain ⟨gap, closer, back, rfl, hcloser, hgap, _⟩ := delimitersOf_eq_cons hmore
      have hbalanced := (hinner.isBalanced rfl).append (isBalanced_of_delimitersOf hgap)
      rw [← Token.opening.inj hd] at hcloser
      have hskip : Leaves (back ++ rest) (· = closer)
          (skipGroup opening [] (front ++ gap ++ closer :: (back ++ rest))) :=
        hbalanced.leaves_skipGroup hcloser
      have hitems : front ++ (gap ++ closer :: back) ++ rest
          = front ++ gap ++ closer :: (back ++ rest) := by
        simp
      rw [hitems]
      obtain ⟨found, hlt, hskip, _⟩ := hskip
      exact ⟨_, hskip⟩
  . intro p hp
    obtain ⟨inner, closer, hitems, hinner, hcloser, hspan⟩ := parseGroup_eq_ok hp
    refine ⟨inner, closer, hitems, hspan, ?_, ?_⟩
    . have := hinner.map_span rfl []
      simpa [bracesFrom] using this.symm
    . have hskip : Leaves p.rest (· = closer) (skipGroup opening [] (inner ++ closer :: p.rest)) :=
        hinner.isBalanced.leaves_skipGroup hcloser
      rwa [← hitems] at hskip
  . intro hbrace p hp
    obtain ⟨inner, closer, hitems, hinner, hcloser, hspan⟩ := parseMembers_eq_ok hp
    rw [← hbrace] at hcloser
    have hskip : Leaves p.rest (· = closer) (skipGroup opening [] (inner ++ closer :: p.rest)) :=
      hinner.isBalanced.leaves_skipGroup hcloser
    rw [← hitems] at hskip
    apply hskip.mono
    intro found hfound
    rw [hspan, hfound]

end Delegation
