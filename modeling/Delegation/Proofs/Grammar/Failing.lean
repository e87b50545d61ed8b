import Delegation.Proofs.Grammar.Statement

/-!
This module contains where the parsers of declaration files fail: at one of their items or at the
end of them. A delimiter that they say is open was opened in front of that place, and all that was
opened behind it was closed.
-/

namespace Delegation

open Item

theorem bind_eq_error_cases {ε α β : Type} {x : Except ε α} {f : α → Except ε β} {error : ε}
    (h : (x >>= f) = .error error) : x = .error error ∨ ∃ a, x = .ok a ∧ f a = .error error := by
  cases x with
  | error e =>
    cases h
    exact .inl rfl
  | ok a => exact .inr ⟨a, rfl, h⟩

/--
Whether the delimiters of `stack` are open behind `used`, the innermost first. All others that were
opened in `used` were closed.
-/
def AreOpen : (stack : List OpenDelimiter) → (used : List Item) → Prop
  | [], _ => True
  | opening :: outer, used =>
    ∃ before opener inner, used = before ++ opener :: inner
      ∧ opener.token = .opening opening.delimiter ∧ opener.span = opening.span
      ∧ IsBalanced inner ∧ AreOpen outer before

namespace AreOpen

variable {opening : OpenDelimiter} {outer stack : List OpenDelimiter} {used more : List Item}

theorem append (h : AreOpen stack used) (hmore : IsBalanced more) :
    AreOpen stack (used ++ more) := by
  cases stack with
  | nil => trivial
  | cons opening outer =>
    obtain ⟨before, opener, inner, rfl, hopener, hspan, hinner, houter⟩ := h
    exact ⟨before, opener, inner ++ more, by simp, hopener, hspan, hinner.append hmore, houter⟩

theorem push (h : AreOpen stack used) {opener : Item} {d : Delimiter}
    (hopener : opener.token = .opening d) :
    AreOpen (⟨d, opener.span⟩ :: stack) (used ++ [opener]) :=
  ⟨used, opener, [], rfl, hopener, rfl, .nil, h⟩

theorem pop (h : AreOpen (opening :: outer) used) {closer : Item}
    (hcloser : closer.token = .closing opening.delimiter) : AreOpen outer (used ++ [closer]) := by
  obtain ⟨before, opener, inner, rfl, hopener, _, hinner, houter⟩ := h
  rw [List.append_assoc, List.cons_append]
  exact houter.append (.group hopener hcloser hinner)

theorem head (h : AreOpen (opening :: outer) used) : AreOpen [opening] used := by
  obtain ⟨before, opener, inner, hused, hopener, hspan, hinner, _⟩ := h
  exact ⟨before, opener, inner, hused, hopener, hspan, hinner, trivial⟩

theorem singleton (used : List Item) {opener : Item} {d : Delimiter}
    (hopener : opener.token = .opening d) : AreOpen [⟨d, opener.span⟩] (used ++ [opener]) :=
  push (show AreOpen [] used from trivial) hopener

end AreOpen

/--
Whether the cause of a failure fits the items in front of it, which are `used`: what is not closed
is open behind them, and what does not match is a closing delimiter.
-/
def Failure.FitsBehind (used : List Item) (f : Failure) : Prop :=
  match f.cause with
  | .expected _ => True
  | .unclosed opening d => f.rest = [] ∧ AreOpen [⟨d, opening⟩] used
  | .unbalanced opening _ =>
    startsWith Token.isClosing f.rest = true ∧ ∀ span ∈ opening, ∃ d, AreOpen [⟨d, span⟩] used

/--
Whether a parser of `items`, which stand behind `used`, returns a value, or fails at one of them or
at their end for a cause that fits what is in front of that place.
-/
inductive FailsAmong {α : Type} {n : Nat} (used items : List Item) : Parse α n → Prop where
  | ok (p : Parsed Item α n) : FailsAmong used items (.ok p)
  | error {f : Failure} {read : List Item} (hitems : items = read ++ f.rest)
    (hfits : f.FitsBehind (used ++ read)) : FailsAmong used items (.error f)

namespace FailsAmong

variable {α β : Type} {m n : Nat} {used read rest items : List Item}

theorem expected (used items : List Item) (what : Expectation) :
    FailsAmong used items (.error ⟨.expected what, items⟩ : Parse α n) :=
  .error (List.nil_append items).symm trivial

theorem unclosed {opening : Span} {d : Delimiter} (h : AreOpen [⟨d, opening⟩] used) :
    FailsAmong used [] (.error ⟨.unclosed opening d, []⟩ : Parse α n) := by
  rw [← List.append_nil used] at h
  exact .error (List.nil_append []).symm ⟨rfl, h⟩

theorem unbalanced {opening : Option Span} {what : Expectation} {item : Item}
    (hitem : item.token.isClosing = true) (h : ∀ span ∈ opening, ∃ d, AreOpen [⟨d, span⟩] used) :
    FailsAmong used (item :: rest) (.error ⟨.unbalanced opening what, item :: rest⟩ : Parse α n) := by
  rw [← List.append_nil used] at h
  exact .error (List.nil_append _).symm ⟨hitem, h⟩

theorem mismatched {opening : Span} {d : Delimiter} {what : Expectation} {item : Item}
    (hitem : item.token.isClosing = true) (h : AreOpen [⟨d, opening⟩] used) :
    FailsAmong used (item :: rest)
      (.error ⟨.unbalanced (some opening) what, item :: rest⟩ : Parse α n) := by
  apply unbalanced hitem
  rintro _ ⟨⟩
  exact ⟨d, h⟩

theorem of_append {x : Parse α n} (hitems : items = read ++ rest)
    (h : FailsAmong (used ++ read) rest x) : FailsAmong used items x := by
  cases h with
  | ok p => exact .ok p
  | @error f read' hrest hfits =>
    rw [List.append_assoc] at hfits
    exact .error (by rw [hitems, hrest, List.append_assoc]) hfits

theorem of_cons {x : Parse α n} {item : Item} (h : FailsAmong (used ++ [item]) rest x) :
    FailsAmong used (item :: rest) x :=
  h.of_append rfl

theorem of_cons_append {x : Parse α n} {item : Item} (hitems : items = read ++ rest)
    (h : FailsAmong (used ++ item :: read) rest x) : FailsAmong used (item :: items) x :=
  h.of_append (congrArg _ hitems)

theorem bind {x : Parse α m} {f : Parsed Item α m → Parse β n} (hx : FailsAmong used items x)
    (hf : ∀ p, x = .ok p → FailsAmong used items (f p)) : FailsAmong used items (x >>= f) := by
  cases hx with
  | ok p => exact hf p rfl
  | error hitems hfits => exact .error hitems hfits

theorem map {x : Parse α m} {f : Parsed Item α m → Parsed Item β n}
    (hx : FailsAmong used items x) : FailsAmong used items (x.map f) := by
  cases hx with
  | ok p => exact .ok _
  | error hitems hfits => exact .error hitems hfits

theorem bind_ok {x : Parse α m} {f : Parsed Item α m → Parsed Item β n}
    (hx : FailsAmong used items x) : FailsAmong used items (x >>= fun p => .ok (f p)) :=
  hx.bind fun _ _ => .ok _

theorem andThen {p : Parsed Item α n} {f : (items : List Item) → Parse β items.length}
    (h : FailsAmong used items (f p.rest)) : FailsAmong used items (p.andThen f) :=
  h.bind_ok

theorem andMaybe {p : Parsed Item α n} {f : (items : List Item) → Parse β (items.length + 1)}
    (h : FailsAmong used items (f p.rest)) : FailsAmong used items (p.andMaybe f) :=
  h.bind_ok

end FailsAmong

section

variable (used : List Item)

theorem failsAmong_parseName (what : Expectation) (items : List Item) :
    FailsAmong used items (parseName what items) := by
  unfold parseName
  split
  . exact .expected ..
  . split
    . exact .ok _
    . exact .expected ..

theorem failsAmong_parseToken (token : Token) (what : Expectation) (items : List Item) :
    FailsAmong used items (parseToken token what items) := by
  unfold parseToken
  split
  . exact .ok _
  . exact .expected ..

end

theorem failsAmong_skipGroup {used : List Item} {opening : OpenDelimiter}
    {inner : List OpenDelimiter} (h : AreOpen (inner ++ [opening]) used) (items : List Item) :
    FailsAmong used items (skipGroup opening inner items) := by
  induction items generalizing inner used with
  | nil =>
    apply FailsAmong.unclosed
    cases inner with
    | nil => exact h
    | cons innermost inner => exact h.head
  | cons item rest ih =>
    unfold skipGroup
    split
    . next d hd => exact (ih (h.push hd)).of_cons.map
    . next d hd =>
      have hclosing : item.token.isClosing = true := by rw [hd, Token.isClosing]
      split
      . split
        . exact .ok _
        . exact .mismatched hclosing h
      . split
        . next innermost inner heq =>
          rw [heq] at hd
          exact (ih (h.pop hd)).of_cons.map
        . exact .mismatched hclosing h.head
    . next hopening hclosing =>
      exact (ih (h.append (isBalanced_singleton hopening hclosing))).of_cons.map

theorem failsAmong_group (used : List Item) {opener : Item} {d : Delimiter}
    (hopener : opener.token = .opening d) (rest : List Item) :
    FailsAmong used (opener :: rest) (skipGroup ⟨d, opener.span⟩ [] rest) :=
  (failsAmong_skipGroup (.singleton used hopener) rest).of_cons

theorem failsAmong_memberHead (used : List Item) (item : Item) (rest : List Item) :
    FailsAmong used (item :: rest) (memberHead item rest) := by
  unfold memberHead
  split
  . exact .ok _
  . exact .ok _
  . exact .ok _
  . exact (failsAmong_parseName _ _ rest).of_cons.bind_ok
  . next hd => exact (failsAmong_group used hd rest).bind_ok
  . exact .expected ..

theorem FailsAmong.term {α : Type} {n : Nat} {used rest : List Item} {collect : Bool} {item : Item}
    {f : Parsed Item Term (rest.length + 1) → Parse α n}
    (h : FailsAmong used (item :: rest) (parseTerm collect item rest))
    (hitem : ∀ d, item.token ≠ .closing d)
    (hf : ∀ term rest' hlt read, IsBalanced read →
      FailsAmong (used ++ read) rest' (f ⟨term, rest', hlt⟩)) :
    FailsAmong used (item :: rest) (parseTerm collect item rest >>= f) := by
  apply h.bind
  rintro ⟨term, rest', hlt⟩ hterm
  obtain ⟨more, hrest, hmore, _⟩ := parseTerm_eq_ok hterm hitem
  exact (hf term rest' hlt (item :: more) hmore.isBalanced).of_cons_append hrest

mutual

theorem failsAmong_parseTerm (used : List Item) (collect : Bool) (item : Item)
    (rest : List Item) : FailsAmong used (item :: rest) (parseTerm collect item rest) := by
  unfold parseTerm
  split
  . next d hd =>
    split
    . next hcollect =>
      rw [Bool.and_eq_true, beq_iff_eq] at hcollect
      obtain ⟨_, rfl⟩ := hcollect
      have := failsAmong_parseMembers (.singleton used hd) rest
      exact this.of_cons.bind_ok
    . have := failsAmong_parseGroup (.singleton used hd) collect rest
      exact this.of_cons.bind_ok
  . exact .ok _
termination_by 4 * rest.length + 4

theorem failsAmong_parseGroup {used : List Item} {opening : OpenDelimiter}
    (h : AreOpen [opening] used) (collect : Bool) (items : List Item) :
    FailsAmong used items (parseGroup collect opening items) := by
  unfold parseGroup
  split
  . exact .unclosed h
  . next item rest =>
    split
    . exact .ok _
    . split
      . next hclosing => exact .mismatched hclosing h
      . next hclosing =>
        have hitem : ∀ d, item.token ≠ .closing d := by
          intro d hd
          simp [hd, Token.isClosing] at hclosing
        apply (failsAmong_parseTerm used collect item rest).term hitem
        intro term rest' hlt read hread
        exact (failsAmong_parseGroup (h.append hread) collect rest').bind_ok
termination_by 4 * items.length + 1

theorem failsAmong_parseRun (used : List Item) (collect : Bool) (place : Place)
    (last : Option Token) (stop : Nat) (items : List Item) :
    FailsAmong used items (parseRun collect place last stop items) := by
  unfold parseRun
  split
  . exact .ok _
  . next item rest =>
    split
    . exact .ok _
    . next hends =>
      have hitem : ∀ d, item.token ≠ .closing d := by
        intro d hd
        simp [endsBefore, hd, Token.isTerminator] at hends
      apply (failsAmong_parseTerm used collect item rest).term hitem
      intro term rest' hlt read _
      exact (failsAmong_parseRun (used ++ read) collect place (some term.last) term.stop
        rest').bind_ok
termination_by 4 * items.length + 1

theorem failsAmong_parseMembers {used : List Item} {opening : Span}
    (h : AreOpen [⟨.brace, opening⟩] used) (items : List Item) :
    FailsAmong used items (parseMembers opening items) := by
  unfold parseMembers
  split
  . exact .unclosed h
  . next item rest =>
    have step : item.isSeparator → FailsAmong used (item :: rest)
        ((parseMembers opening rest).map .loosen : Parse _ (rest.length + 1)) := by
      intro hitem
      have hbalanced := isBalanced_singleton hitem.ne_opening hitem.ne_closing
      exact (failsAmong_parseMembers (h.append hbalanced) rest).of_cons.map
    split
    . next d hd =>
      split
      . exact .ok _
      . exact .mismatched (by rw [hd, Token.isClosing]) h
    . next hitem => exact step (.inl hitem)
    . next hitem => exact step (.inr hitem)
    . next hclosing hsemicolon hcomma =>
      apply (failsAmong_parseMember used item rest).bind
      rintro ⟨m, rest', hlt⟩ hmember
      have hitem : ¬ item.isSeparator := by
        rintro (hitem | hitem)
        . exact hsemicolon hitem
        . exact hcomma hitem
      obtain ⟨more, hrest, hm⟩ := parseMember_eq_ok hmember hitem hclosing
      have := failsAmong_parseMembers (h.append hm.isBalanced) rest'
      exact (this.of_cons_append hrest).bind_ok
termination_by 4 * items.length + 3

theorem failsAmong_parseMember (used : List Item) (item : Item) (rest : List Item) :
    FailsAmong used (item :: rest) (parseMember item rest) := by
  obtain ⟨mods, hmods, _⟩ := skipMemberModifiers_eq item rest
  unfold parseMember
  generalize skipMemberModifiers item rest = skipped at hmods
  obtain ⟨first, rest₁, h₁⟩ := skipped
  dsimp only at hmods ⊢
  apply FailsAmong.of_append hmods
  split
  . next kind start rest₂ h₂ hsignature =>
    obtain ⟨word, hword, _, hopens, _⟩ := signatureStart?_eq_some hsignature
    apply FailsAmong.of_append hword
    have hstart : ∀ d, start.token ≠ .closing d := by
      intro d hd
      simp [hd, Token.opensSignature] at hopens
    apply (failsAmong_parseTerm _ true start rest₂).term hstart
    intro term rest₃ h₃ read _
    exact (failsAmong_parseRun ((used ++ mods ++ word) ++ read) true .member (some term.last)
      term.stop rest₃).bind_ok
  . apply (failsAmong_memberHead _ first rest₁).bind
    rintro ⟨head, rest₂, h₂⟩ hhead
    obtain ⟨more, hrest, _⟩ := memberHead_eq_ok hhead
    obtain ⟨mark, hmark, _⟩ := optionalMark_eq head.stop rest₂
    dsimp only at hrest hmark ⊢
    generalize optionalMark head.stop rest₂ = marked at hmark
    obtain ⟨⟨isOptional, stop⟩, rest₃, h₃⟩ := marked
    dsimp only at hmark ⊢
    apply FailsAmong.of_cons_append hrest
    apply FailsAmong.of_append hmark
    exact (failsAmong_parseRun ..).bind_ok
termination_by 4 * rest.length + 6

end

theorem failsAmong_parseParamSuffix {used : List Item} {opening : Span}
    (h : AreOpen [⟨.angle, opening⟩] used) (stop : Nat) (items : List Item) :
    FailsAmong used items (parseParamSuffix opening stop items) := by
  cases items with
  | nil =>
    unfold parseParamSuffix
    exact .unclosed h
  | cons item rest =>
    unfold parseParamSuffix
    dsimp only
    split
    . exact .ok _
    . next d hd =>
      split
      . exact .ok _
      . exact .mismatched (by rw [hd, Token.isClosing]) h
    . next d hd =>
      apply (failsAmong_group used hd rest).bind
      rintro ⟨close, rest', hlt⟩ hskip
      obtain ⟨inner, hrest, hcloser, hinner⟩ := skipGroup_eq_ok hskip
      have := failsAmong_parseParamSuffix (h.append (.group hd hcloser hinner)) close.span.stop
        rest'
      have hrest' : rest = inner ++ [close] ++ rest' := by simpa using hrest
      exact this.bind_ok.of_cons_append hrest'
    . next hcomma hclosing hopening =>
      have hbalanced := isBalanced_singleton hopening hclosing
      exact (failsAmong_parseParamSuffix (h.append hbalanced) _ rest).of_cons.map
termination_by items.length
decreasing_by
  all_goals
    subst_vars
    simp only [List.length_cons]
    omega

theorem failsAmong_parseParams {used : List Item} {opening : Span}
    (h : AreOpen [⟨.angle, opening⟩] used) (items : List Item) :
    FailsAmong used items (parseParams opening items) := by
  cases items with
  | nil =>
    unfold parseParams
    exact .expected ..
  | cons item rest =>
    unfold parseParams
    split
    . exact .ok _
    . obtain ⟨mods, hmods, hplain⟩ := skipModifiers_eq paramModifiers item rest
      dsimp only
      generalize skipModifiers paramModifiers item rest = skipped at hmods
      obtain ⟨first, rest₁, h₁⟩ := skipped
      dsimp only at hmods ⊢
      apply FailsAmong.of_append hmods
      split
      . next name hname =>
        have hmodifiers := isBalanced_of_delimitersOf hplain
        have hfirst : IsBalanced [first] :=
          isBalanced_singleton (by simp [hname]) (by simp [hname])
        have hopen := (h.append hmodifiers).append hfirst
        apply (failsAmong_parseParamSuffix hopen _ rest₁).of_cons.bind
        rintro ⟨stop, rest₂, h₂⟩ hsuffix
        obtain ⟨suffix, separator, hrest₁, hbalanced, hall, _⟩ := parseParamSuffix_eq_ok hsuffix
        have hopen' := hopen.append (hbalanced.append (Item.isSeparator.isBalanced hall))
        rw [List.append_assoc _ [first]] at hopen'
        have hrest₁' : rest₁ = suffix ++ separator ++ rest₂ := by simpa using hrest₁
        exact (failsAmong_parseParams hopen' rest₂).bind_ok.of_cons_append hrest₁'
      . exact .expected ..
termination_by items.length
decreasing_by
  all_goals
    subst_vars
    simp only [List.length_cons]
    omega

theorem failsAmong_parseParamList (used items : List Item) :
    FailsAmong used items (parseParamList items) := by
  unfold parseParamList
  split
  . exact .ok _
  . next item rest =>
    split
    . next hopener =>
      exact (failsAmong_parseParams (.singleton used (beq_iff_eq.mp hopener)) rest).of_cons.map
    . exact .ok _

theorem failsAmong_parseExpression (used : List Item) (collect : Bool) (what : Expectation)
    (items : List Item) : FailsAmong used items (parseExpression collect what items) := by
  unfold parseExpression
  split
  . exact .expected ..
  . next item rest =>
    split
    . exact .expected ..
    . next hterminator =>
      have hitem : ∀ d, item.token ≠ .closing d := by
        intro d hd
        simp [hd, Token.isTerminator] at hterminator
      apply (failsAmong_parseTerm used collect item rest).term hitem
      intro term rest' hlt read _
      exact (failsAmong_parseRun (used ++ read) collect .statement (some term.last) term.stop
        rest').andMaybe.bind_ok

theorem failsAmong_parseHeritage (used items : List Item) :
    FailsAmong used items (parseHeritage items) := by
  cases items with
  | nil =>
    unfold parseHeritage
    exact .expected ..
  | cons item rest =>
    unfold parseHeritage
    dsimp only
    split
    . next d hd =>
      split
      . exact .ok _
      . apply (failsAmong_group used hd rest).bind
        rintro ⟨close, rest', hlt⟩ hskip
        obtain ⟨inner, hrest, _⟩ := skipGroup_eq_ok hskip
        have hrest' : rest = inner ++ [close] ++ rest' := by simpa using hrest
        exact (failsAmong_parseHeritage _ rest').bind_ok.of_cons_append hrest'
    . exact .expected ..
    . exact .expected ..
    . exact (failsAmong_parseHeritage _ rest).of_cons.map
termination_by items.length
decreasing_by
  all_goals
    subst_vars
    simp only [List.length_cons]
    omega

section

variable (used : List Item)

theorem failsAmong_head {α : Type} {n : Nat} (what : Expectation) (items : List Item)
    {f : Parsed Item (Located String) items.length → Parsed Item (List TypeParam) items.length →
      Parse α n}
    (h : ∀ name params read, items = read ++ params.rest →
      FailsAmong (used ++ read) params.rest (f name params)) :
    FailsAmong used items (do
      let name ← parseName what items
      let params ← name.andMaybe parseParamList
      f name params) := by
  apply (failsAmong_parseName used what items).bind
  intro name hname
  obtain ⟨item, text, hitems, _⟩ := parseName_eq_ok hname
  apply FailsAmong.bind
  . apply FailsAmong.of_append (show items = [item] ++ name.rest from hitems)
    exact (failsAmong_parseParamList _ name.rest).andMaybe
  . intro params hand
    obtain ⟨value, rest, h₁, h₂, hparams, rfl⟩ := andMaybe_eq_ok hand
    obtain ⟨list, hrest, _⟩ := parseParamList_eq_ok hparams
    have hitems' : items = [item] ++ list ++ rest := by simp [hitems, hrest]
    exact (h name ⟨value, rest, h₂⟩ _ hitems').of_append hitems'

theorem failsAmong_parseAlias (start : Nat) (items : List Item) :
    FailsAmong used items (parseAlias start items) := by
  apply failsAmong_head
  intro name params read hitems
  apply (failsAmong_parseToken _ _ _ params.rest).andThen.bind
  intro equals hand
  obtain ⟨equals, rest, h₁, _, hequals, rfl⟩ := andThen_eq_ok hand
  obtain ⟨hrest, _⟩ := parseToken_eq_ok hequals
  apply FailsAmong.of_append (show params.rest = [equals] ++ rest from hrest)
  exact (failsAmong_parseExpression _ _ _ rest).andThen.bind_ok

theorem failsAmong_parseBlock (start : Nat) (items : List Item) :
    FailsAmong used items (parseBlock start items) := by
  apply failsAmong_head
  intro name params read hitems
  apply (failsAmong_parseHeritage _ params.rest).andThen.bind
  intro opening hand
  obtain ⟨opening, rest, h₁, _, hopening, rfl⟩ := andThen_eq_ok hand
  obtain ⟨heritage, opener, hrest, _, _, hopener, rfl⟩ := parseHeritage_eq_ok hopening
  have hrest' : params.rest = heritage ++ [opener] ++ rest := by simpa using hrest
  apply FailsAmong.of_append hrest'
  rw [← List.append_assoc]
  exact (failsAmong_parseMembers (.singleton _ hopener) rest).andThen.bind_ok

theorem failsAmong_parseNamespaceName (keyword : Item) (items : List Item) :
    FailsAmong used items (parseNamespaceName keyword items) := by
  unfold parseNamespaceName
  split
  . exact .ok _
  . split
    . exact .expected ..
    . split
      . exact .ok _
      . exact .ok _
      . exact .expected ..

end

mutual

theorem failsAmong_parseStatement (used : List Item) (item : Item) (rest : List Item) :
    FailsAmong used (item :: rest) (parseStatement item rest) := by
  obtain ⟨mods, hmods, _⟩ := skipModifiers_eq statementModifiers item rest
  unfold parseStatement
  dsimp only
  generalize skipModifiers statementModifiers item rest = skipped at hmods
  obtain ⟨keyword, rest₁, h₁⟩ := skipped
  dsimp only at hmods ⊢
  apply FailsAmong.of_append hmods
  split
  . exact (failsAmong_parseAlias _ _ rest₁).of_cons.bind_ok
  . exact (failsAmong_parseBlock _ _ rest₁).of_cons.bind_ok
  . exact (failsAmong_parseBlock _ _ rest₁).of_cons.bind_ok
  . apply (failsAmong_parseNamespaceName _ keyword rest₁).of_cons.bind
    rintro ⟨name, rest₂, h₂⟩ hname
    obtain ⟨dotted, hrest₁, _⟩ := parseNamespaceName_eq_ok hname
    apply FailsAmong.of_cons_append hrest₁
    dsimp only at hrest₁ ⊢
    split
    . next opening rest₃ h₃ htake =>
      obtain ⟨hrest₂, hopening⟩ := takeToken?_eq_some htake
      apply FailsAmong.of_append (show rest₂ = [opening] ++ rest₃ from hrest₂)
      refine (failsAmong_parseStatements ?_ [] rest₃).bind_ok
      rintro _ ⟨⟩
      exact .singleton _ hopening
    . exact (failsAmong_parseRun ..).bind_ok
  . exact (failsAmong_parseExpression _ _ _ _).bind_ok
termination_by 2 * rest.length + 2

theorem failsAmong_parseStatements {used : List Item} {opening : Option Span}
    (h : ∀ span ∈ opening, AreOpen [⟨.brace, span⟩] used) (acc : List Statement)
    (items : List Item) : FailsAmong used items (parseStatements opening acc items) := by
  have happend : ∀ {more}, IsBalanced more →
      ∀ span ∈ opening, AreOpen [⟨.brace, span⟩] (used ++ more) :=
    fun hmore span hspan => (h span hspan).append hmore
  cases items with
  | nil =>
    unfold parseStatements
    split
    . exact .unclosed (h _ rfl)
    . exact .ok _
  | cons item rest =>
    unfold parseStatements
    dsimp only
    split
    . next d hd =>
      split
      . exact .ok _
      . apply FailsAmong.unbalanced (by rw [hd, Token.isClosing])
        exact fun span hspan => ⟨_, h span hspan⟩
    . next hitem =>
      have hbalanced : IsBalanced [item] :=
        isBalanced_singleton (by simp [hitem]) (by simp [hitem])
      exact (failsAmong_parseStatements (happend hbalanced) acc rest).of_cons.map
    . apply (failsAmong_parseStatement used item rest).bind
      rintro ⟨s, rest', hlt⟩ hstatement
      obtain ⟨more, hrest, hs⟩ := parseStatement_eq_ok hstatement
      have := failsAmong_parseStatements (happend hs.isBalanced) (s :: acc) rest'
      exact (this.of_cons_append hrest).bind_ok
termination_by 2 * items.length + 1

end

end Delegation
