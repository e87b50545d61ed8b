import Delegation.Proofs.Elaboration
import Delegation.Proofs.Grammar.Groups
import Delegation.Proofs.Grammar.SchemaField

/-!
This module contains what becomes of comparisons in the arguments of attributes. The parser of
schemas takes `<` and `>` for brackets, so it refuses arguments in which they do not nest as well.
-/

namespace Delegation

open Item

def Token.isAngle : Token → Bool
  | opening .angle | closing .angle => true
  | _ => false

/--
Whether every bracket among `items` has its partner if `<` and `>` are no brackets.
-/
def NestsWithoutAngles (items : List Item) : Prop :=
  IsWellNested ((delimitersOf items).filter (!·.isAngle))

theorem delimitersOf_filter (items : List Item) (p : Token → Bool) :
    delimitersOf (items.filter fun item => p item.token) = (delimitersOf items).filter p := by
  unfold delimitersOf
  rw [List.filter_comm]
  exact congrArg _ List.filter_map.symm

theorem nestsWithoutAngles_iff {items : List Item} :
    NestsWithoutAngles items ↔ IsBalanced (items.filter (!·.token.isAngle)) := by
  rw [isBalanced_iff_isWellNested, delimitersOf_filter items (!·.isAngle), NestsWithoutAngles]

instance (items : List Item) : Decidable (NestsWithoutAngles items) :=
  decidable_of_iff _ nestsWithoutAngles_iff.symm

/--
Whether a parser fails at one of `items`, in front of `rest`, since it does not match what is open
there.
-/
def IsUnbalancedAmong {α : Type} {n : Nat} (items rest : List Item) (x : Parse α n) : Prop :=
  ∃ f read item more, x = .error f ∧ f.code = .unbalancedDelimiter
    ∧ items = read ++ item :: more ∧ f.rest = item :: (more ++ rest)

namespace IsUnbalancedAmong

variable {α β : Type} {m n : Nat} {items rest : List Item}

theorem here (opening : Option Span) (what : Expectation) (item : Item) (more rest : List Item) :
    IsUnbalancedAmong (item :: more) rest
      (.error ⟨.unbalanced opening what, item :: (more ++ rest)⟩ : Parse α n) :=
  ⟨_, [], item, more, rfl, rfl, rfl, rfl⟩

theorem cons {x : Parse α n} (h : IsUnbalancedAmong items rest x) (item : Item) :
    IsUnbalancedAmong (item :: items) rest (x.map .loosen) := by
  obtain ⟨f, read, found, more, rfl, hcode, rfl, hrest⟩ := h
  exact ⟨f, item :: read, found, more, rfl, hcode, rfl, hrest⟩

theorem bind {x : Parse α m} (h : IsUnbalancedAmong items rest x)
    (f : Parsed Item α m → Parse β n) : IsUnbalancedAmong items rest (x >>= f) := by
  obtain ⟨failure, read, item, more, rfl, hfailure⟩ := h
  exact ⟨failure, read, item, more, rfl, hfailure⟩

theorem andMaybe {p : Parsed Item α m} {f : (items : List Item) → Parse β (items.length + 1)}
    (h : IsUnbalancedAmong items rest (f p.rest)) : IsUnbalancedAmong items rest (p.andMaybe f) :=
  h.bind _

theorem of_leaves {P : α → Prop} {left : List Item} {x : Parse α m}
    {f : Parsed Item α m → Parse β n} (hx : Leaves left P x)
    (hf : ∀ value hlt, IsUnbalancedAmong items rest (f ⟨value, left, hlt⟩)) :
    IsUnbalancedAmong items rest (x >>= f) := by
  obtain ⟨value, hlt, rfl, _⟩ := hx
  exact hf value hlt

end IsUnbalancedAmong

/--
Whether a parser of a group returns `closer`, which stands behind `items`, or fails among them.
-/
def ClosesOrFails {n : Nat} (closer : Item) (items rest : List Item) (x : Parse Item n) : Prop :=
  Leaves rest (· = closer) x ∨ IsUnbalancedAmong (items ++ [closer]) rest x

section

variable {opening : OpenDelimiter} {stack : List OpenDelimiter} {items : List Item}
  {item closer : Item}

theorem ClosesOrFails.cons {n : Nat} {rest : List Item} {x : Parse Item n}
    (h : ClosesOrFails closer items rest x) (item : Item) :
    ClosesOrFails closer (item :: items) rest (x.map .loosen) :=
  Or.imp .loosen (·.cons item) h

theorem skipGroup_closing_ne {d : Delimiter} {rest : List Item} (hitem : item.token = .closing d)
    (hd : d ≠ (stack.headD opening).delimiter) :
    skipGroup opening stack (item :: rest) = .error ⟨.unbalanced (some (stack.headD opening).span)
      (.closer (stack.headD opening).delimiter), item :: rest⟩ := by
  cases stack with
  | nil =>
    rw [List.headD_nil] at hd
    simp only [skipGroup, hitem, hd, if_false]
    rfl
  | cons innermost stack =>
    rw [List.headD_cons] at hd
    simp only [skipGroup, hitem, hd, if_false]
    rfl

theorem skipGroup_closing {innermost : OpenDelimiter} {rest : List Item}
    (hitem : item.token = .closing innermost.delimiter) :
    skipGroup opening (innermost :: stack) (item :: rest)
      = (skipGroup opening stack rest).map .loosen := by
  simp only [skipGroup, hitem, if_true]

theorem Token.isAngle_eq_false {token : Token} (hopening : ∀ d, token ≠ .opening d)
    (hclosing : ∀ d, token ≠ .closing d) : token.isAngle = false := by
  unfold isAngle
  split
  . exact absurd rfl (hopening _)
  . exact absurd rfl (hclosing _)
  . rfl

/--
A group ends where it ends without angle brackets, or these are in the way. `stack` may hold some
that are no brackets there.
-/
theorem closesOrFails_skipGroup (rest : List Item)
    (h : nest? ((stack.map (·.delimiter)).filter (· ≠ .angle)) (items.filter (!·.token.isAngle))
      = some [])
    (hcloser : closer.token = .closing opening.delimiter) (hopening : opening.delimiter ≠ .angle) :
    ClosesOrFails closer items rest (skipGroup opening stack (items ++ closer :: rest)) := by
  induction items generalizing stack with
  | nil =>
    rw [List.nil_append]
    cases stack with
    | nil =>
      simp only [skipGroup, hcloser, if_true]
      exact .inl (.leaving rfl)
    | cons innermost stack =>
      -- Only angle brackets are left on the stack.
      have hangle : innermost.delimiter = .angle := by
        by_contra hne
        simp [hne, nest?] at h
      rw [skipGroup_closing_ne hcloser (by simpa [hangle] using hopening)]
      exact .inr (.here _ _ closer [] rest)
  | cons item items ih =>
    rw [List.cons_append]
    rcases item.token.delimiter_cases with ⟨d, hd⟩ | ⟨d, hd⟩ | ⟨hopens, hcloses⟩
    . rw [skipGroup_opening hd]
      apply ClosesOrFails.cons _ item
      apply ih
      by_cases hangle : d = .angle
      . simpa [hd, hangle, Token.isAngle] using h
      . simpa [hd, hangle, Token.isAngle, nest?_cons, Item.nest?] using h
    . by_cases heq : d = (stack.headD opening).delimiter
      . cases stack with
        | nil =>
          have hangle : d ≠ .angle := heq ▸ hopening
          simp [hd, hangle, Token.isAngle, nest?_cons, Item.nest?] at h
        | cons innermost stack =>
          rw [List.headD_cons] at heq
          rw [skipGroup_closing (hd.trans (congrArg _ heq))]
          apply ClosesOrFails.cons _ item
          apply ih
          by_cases hangle : d = .angle
          . simpa [hd, ← heq, hangle, Token.isAngle] using h
          . simpa [hd, ← heq, hangle, Token.isAngle, nest?_cons, Item.nest?] using h
      . rw [skipGroup_closing_ne hd heq, List.append_cons]
        exact .inr (.here _ _ item (items ++ [closer]) rest)
    . rw [skipGroup_of_ne hopens hcloses]
      apply ClosesOrFails.cons _ item
      apply ih
      simpa [Token.isAngle_eq_false hopens hcloses, nest?_cons, Item.nest?_of_ne hopens hcloses]
        using h

theorem skipGroup_of_nestsWithoutAngles (rest : List Item) (h : NestsWithoutAngles items)
    (hcloser : closer.token = .closing opening.delimiter) (hopening : opening.delimiter ≠ .angle) :
    (IsBalanced items → Leaves rest (· = closer) (skipGroup opening [] (items ++ closer :: rest)))
      ∧ (¬ IsBalanced items → IsUnbalancedAmong (items ++ [closer]) rest
        (skipGroup opening [] (items ++ closer :: rest))) := by
  refine ⟨fun hbalanced => hbalanced.leaves_skipGroup hcloser, ?_⟩
  intro hbalanced
  have hends : ClosesOrFails closer items rest (skipGroup opening [] (items ++ closer :: rest)) :=
    closesOrFails_skipGroup rest (nestsWithoutAngles_iff.mp h) hcloser hopening
  rcases hends with ⟨found, hlt, hskip, rfl⟩ | hfails
  . obtain ⟨inner, hitems, hinner, _⟩ := skipGroup_eq_ok_iff.mp hskip
    rw [← List.append_cancel_right hitems] at hinner
    exact absurd (isBalanced_iff_isWellNested.mpr hinner) hbalanced
  . exact hfails

end

inductive ArePathParts : List Item → Prop where
  | nil : ArePathParts []
  | cons {dot part : Item} {text : String} {items : List Item}
    (hdot : dot.isAttached (.sign .dot) = true) (hpart : part.token = .identifier text)
    (htail : ArePathParts items) : ArePathParts (dot :: part :: items)

inductive AreAttributeName : List Item → Prop where
  | path {first : Item} {text : String} {parts : List Item} (hfirst : first.token = .identifier text)
    (hparts : ArePathParts parts) : AreAttributeName (first :: parts)

theorem ArePathParts.leaves_parseAttributePath {parts rest : List Item} (h : ArePathParts parts)
    (hrest : IsFree (.sign .dot) rest) (name : Located String) :
    Leaves rest (fun _ => True) (parseAttributePath name (parts ++ rest)) := by
  induction h generalizing name with
  | nil =>
    cases rest with
    | nil =>
      rw [List.nil_append, parseAttributePath]
      exact .leaving trivial
    | cons item rest =>
      rw [List.nil_append, parseAttributePath, if_neg (by simp [hrest item rfl])]
      exact .leaving trivial
  | cons hdot hpart _ ih =>
    rw [List.cons_append, parseAttributePath, if_pos hdot]
    apply (leaves_parseName hpart).bind
    intro located hlt _
    apply (ih _).bind
    intro path hlt' _
    exact ⟨_, _, rfl, trivial⟩

section

variable {name rest back : List Item} {opening : Item}

theorem isFree_of_isAttached (rest : List Item)
    (hopening : opening.isAttached (.opening .paren) = true) :
    IsFree (.sign .dot) (opening :: rest) := by
  rintro item ⟨⟩
  rw [isAttached, Bool.and_eq_true, beq_iff_eq] at hopening
  simp [isAttached, hopening.2]

theorem AreAttributeName.leaves_parseAttribute (h : AreAttributeName name) (sigil : String)
    (start : Nat) (hopening : opening.isAttached (.opening .paren) = true) {left right : Span}
    (hargs : Leaves back (· = some (left, right)) (parseArguments (opening :: rest))) :
    Leaves back (·.args = some ⟨left.stop, right.start⟩)
      (parseAttribute sigil start (name ++ opening :: rest)) := by
  cases h with
  | path hfirst hparts =>
    apply (leaves_parseName hfirst).bind
    intro first hlt _
    have hpath := hparts.leaves_parseAttributePath (isFree_of_isAttached rest hopening)
    apply (hpath ⟨sigil ++ first.value, ⟨start, first.span.stop⟩⟩).andMaybe.bind
    intro path hlt' _
    apply hargs.andMaybe.bind
    rintro args hlt'' rfl
    exact ⟨_, _, rfl, rfl⟩

theorem AreAttributeName.isUnbalancedAmong (h : AreAttributeName name) (sigil : String)
    (start : Nat) (hopening : opening.isAttached (.opening .paren) = true) {items : List Item}
    (hargs : IsUnbalancedAmong items back (parseArguments (opening :: rest))) :
    IsUnbalancedAmong items back (parseAttribute sigil start (name ++ opening :: rest)) := by
  cases h with
  | path hfirst hparts =>
    apply IsUnbalancedAmong.of_leaves (leaves_parseName hfirst)
    intro first hlt
    have hpath := hparts.leaves_parseAttributePath (isFree_of_isAttached rest hopening)
    apply IsUnbalancedAmong.of_leaves
      (hpath ⟨sigil ++ first.value, ⟨start, first.span.stop⟩⟩).andMaybe
    exact fun path hlt' => hargs.andMaybe.bind _

end

/--
The arguments of an attribute of `source` are the text between its parentheses if angle brackets
nest in them as all others do. The attribute is refused otherwise, so that `<` and `>` cannot
compare numbers in them.
-/
theorem parseAttribute_of_nestsWithoutAngles {source : List Char} {ls : List Lexeme}
    {used name inner back : List Item} {opening closing : Item} (hls : tokenize source = .ok ls)
    (hitems : ofLexemes ls = used ++ (name ++ opening :: (inner ++ closing :: back)))
    (hname : AreAttributeName name) (hopening : opening.isAttached (.opening .paren) = true)
    (hclosing : closing.token = .closing .paren) (hinner : NestsWithoutAngles inner)
    (sigil : String) (start : Nat) :
    let x := parseAttribute sigil start (name ++ opening :: (inner ++ closing :: back))
    (IsWellNested (delimitersOf inner) → Leaves back (fun decl =>
        ∃ span ∈ decl.args, span = ⟨opening.span.stop, closing.span.start⟩
          ∧ ∃ text, (decl.elaborate source).args = some text ∧ IsArguments source span text) x)
      ∧ (¬ IsWellNested (delimitersOf inner) → IsUnbalancedAmong (inner ++ [closing]) back x) := by
  dsimp only
  obtain ⟨hskips, hfails⟩ :=
    @skipGroup_of_nestsWithoutAngles ⟨.paren, opening.span⟩ _ _ back hinner hclosing (by simp)
  have harguments : parseArguments (opening :: (inner ++ closing :: back)) = do
      let close ← skipGroup ⟨.paren, opening.span⟩ [] (inner ++ closing :: back)
      return close.loosen.loosen.map fun close => some (opening.span, close.span) := by
    rw [parseArguments, if_pos hopening]
  refine ⟨?_, ?_⟩
  . intro hnested
    have hbalanced := isBalanced_iff_isWellNested.mpr hnested
    have hargs : Leaves back (· = some (opening.span, closing.span))
        (parseArguments (opening :: (inner ++ closing :: back))) := by
      rw [harguments]
      apply (hskips hbalanced).bind
      rintro found hlt rfl
      exact ⟨_, _, rfl, rfl⟩
    apply (hname.leaves_parseAttribute sigil start hopening hargs).mono
    intro decl hdecl
    refine ⟨_, hdecl, rfl, ?_⟩
    rw [isAttached, Bool.and_eq_true, beq_iff_eq] at hopening
    have henclosed : IsEnclosed (ofLexemes ls) ⟨opening.span.stop, closing.span.start⟩ :=
      ⟨used ++ name, opening, inner, closing, back, by simp [hitems], hopening.2, hbalanced,
        hclosing, rfl⟩
    obtain ⟨text, hslice, htext⟩ := henclosed.exists_text (tokenize_eq_ok.mp hls)
    exact ⟨_, by simp [AttributeDecl.elaborate, hdecl, hslice], htext⟩
  . intro hnested
    apply hname.isUnbalancedAmong sigil start hopening
    rw [harguments]
    exact (hfails fun hbalanced => hnested hbalanced.isWellNested).bind _

theorem parseAttribute_of_nestsWithoutAngles_lessThan :
    let ls : List Lexeme := [⟨0, .sign .atSign, ['@']⟩, ⟨1, .identifier "a", ['a']⟩,
      ⟨2, .opening .paren, ['(']⟩, ⟨3, .identifier "b", ['b']⟩, ⟨4, .opening .angle, ['<']⟩,
      ⟨5, .identifier "c", ['c']⟩, ⟨6, .closing .paren, [')']⟩]
    let items := ofLexemes ls
    let inner := (items.drop 3).take 3
    tokenize "@a(b<c)".toList = .ok ls ∧ NestsWithoutAngles inner
      ∧ IsUnbalancedAmong (inner ++ items.drop 6) [] (parseAttribute "@" 0 (items.drop 1)) := by
  intro ls items inner
  have htokens : tokenize "@a(b<c)".toList = .ok ls := by decide +kernel
  have hitems : ofLexemes ls = items.take 1 ++ ([items[1]] ++ items[2] :: (inner ++ [items[6]])) :=
    rfl
  have hname : AreAttributeName [items[1]] := .path rfl .nil
  have hinner : NestsWithoutAngles inner := by decide +kernel
  have hangles : ¬ IsWellNested (delimitersOf inner) := by
    rw [← isBalanced_iff_isWellNested]
    decide +kernel
  exact ⟨htokens, hinner,
    (parseAttribute_of_nestsWithoutAngles htokens hitems hname rfl rfl hinner "@" 0).2 hangles⟩

/--
A schema with a comparison in the arguments of an attribute is refused, although its other brackets
nest. It is accepted with another sign in the same place.
-/
theorem parse_refuses_comparison :
    let source (sign : Char) := "model A \x7b\n  age Int\n  @@allow('read', age ".toList
      ++ sign :: " 18)\n\x7d\n".toList
    (∃ ls, tokenize "'read', age > 18".toList = .ok ls ∧ NestsWithoutAngles (ofLexemes ls)
        ∧ ∀ l ∈ ls, ∀ content, l.token ≠ .lineComment content ∧ l.token ≠ .blockComment content)
      ∧ (∃ m, loadSchema .skip (source '+') = .ok (m, [])
        ∧ m.entities.flatMap (·.attributes) = [⟨"@@allow", some "'read', age + 18"⟩])
      ∧ ∃ e, SchemaFile.parse (source '>') = .error e
        ∧ e.diagnostics.map (·.code) = [some .unbalancedDelimiter] := by
  intro source
  let ls : List Lexeme := [⟨0, .string "read", "'read'".toList⟩, ⟨6, .sign .comma, [',']⟩,
    ⟨7, .whitespace, [' ']⟩, ⟨8, .identifier "age", "age".toList⟩, ⟨11, .whitespace, [' ']⟩,
    ⟨12, .closing .angle, ['>']⟩, ⟨13, .whitespace, [' ']⟩, ⟨14, .number "18", "18".toList⟩]
  let m : Model := ⟨[⟨⟨"A", by decide⟩, false, [⟨⟨"age", by decide⟩, "Int", false, false, []⟩],
    [⟨"@@allow", some "'read', age + 18"⟩], []⟩]⟩
  refine ⟨⟨ls, by decide +kernel, by decide +kernel, ?_⟩, ⟨m, by decide +kernel, rfl⟩, ?_⟩
  . simp [ls]
  . have hcodes : (match SchemaFile.parse (source '>') with
        | .ok _ => []
        | .error e => e.diagnostics.map (·.code)) = [some .unbalancedDelimiter] := by
      decide +kernel
    cases hparse : SchemaFile.parse (source '>') with
    | ok file =>
      rw [hparse] at hcodes
      cases hcodes
    | error e =>
      rw [hparse] at hcodes
      exact ⟨e, rfl, hcodes⟩

end Delegation
