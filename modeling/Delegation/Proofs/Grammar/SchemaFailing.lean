import Delegation.Proofs.Grammar.Failing
import Delegation.Proofs.Grammar.Schema

/-!
This module contains where the parsers of schema files fail, as Proofs/Grammar/Failing contains it
for declaration files. The parts of a model are balanced, so its brace stays open behind them.
-/

namespace Delegation

open Item

/--
Whether a parser of `items`, which stand behind `used`, reads balanced items for the value that it
returns, or fails among them.
-/
structure ReadsBalanced {α : Type} {n : Nat} (used items : List Item) (x : Parse α n) : Prop where
  fails : FailsAmong used items x
  reads : ∀ p, x = .ok p → ∃ read, items = read ++ p.rest ∧ IsBalanced read

namespace ReadsBalanced

variable {α β : Type} {m n : Nat} {used read rest items : List Item}

theorem leaving (value : α) :
    ReadsBalanced used items (.ok (.leaving value items) : Parse α (items.length + 1)) where
  fails := .ok _
  reads := by
    rintro _ ⟨⟩
    exact ⟨[], rfl, .nil⟩

theorem expected (what : Expectation) :
    ReadsBalanced used items (.error ⟨.expected what, items⟩ : Parse α n) where
  fails := .expected ..
  reads := by simp

theorem of_append {x : Parse α n} (hitems : items = read ++ rest) (hread : IsBalanced read)
    (h : ReadsBalanced (used ++ read) rest x) : ReadsBalanced used items x where
  fails := h.fails.of_append hitems
  reads p hp := by
    obtain ⟨more, hrest, hmore⟩ := h.reads p hp
    exact ⟨read ++ more, by rw [hitems, hrest, List.append_assoc], hread.append hmore⟩

theorem bind {x : Parse α m} {f : Parsed Item α m → Parse β n} (hx : ReadsBalanced used items x)
    (hf : ∀ p read, items = read ++ p.rest → IsBalanced read → ReadsBalanced used items (f p)) :
    ReadsBalanced used items (x >>= f) where
  fails := by
    apply hx.fails.bind
    intro p hp
    obtain ⟨read, hitems, hread⟩ := hx.reads p hp
    exact (hf p read hitems hread).fails
  reads q hq := by
    obtain ⟨p, hp, hq⟩ := bind_eq_ok hq
    obtain ⟨read, hitems, hread⟩ := hx.reads p hp
    exact (hf p read hitems hread).reads q hq

theorem bind_ok {x : Parse α m} {f : Parsed Item α m → Parsed Item β n}
    (hx : ReadsBalanced used items x) (hf : ∀ p, (f p).rest = p.rest) :
    ReadsBalanced used items (x >>= fun p => .ok (f p)) where
  fails := hx.fails.bind_ok
  reads q hq := by
    obtain ⟨p, hp, hq⟩ := bind_eq_ok hq
    cases hq
    rw [hf]
    exact hx.reads p hp

theorem andThen {p : Parsed Item α n} {f : (items : List Item) → Parse β items.length}
    (h : ReadsBalanced used items (f p.rest)) : ReadsBalanced used items (p.andThen f) :=
  h.bind_ok fun _ => rfl

theorem andMaybe {p : Parsed Item α n} {f : (items : List Item) → Parse β (items.length + 1)}
    (h : ReadsBalanced used items (f p.rest)) : ReadsBalanced used items (p.andMaybe f) :=
  h.bind_ok fun _ => rfl

end ReadsBalanced

theorem readsBalanced_parseName (used : List Item) (what : Expectation) (items : List Item) :
    ReadsBalanced used items (parseName what items) where
  fails := failsAmong_parseName ..
  reads p hp := by
    obtain ⟨item, text, hitems, hitem, _⟩ := parseName_eq_ok hp
    exact ⟨[item], hitems, isBalanced_singleton (by simp [hitem]) (by simp [hitem])⟩

theorem readsBalanced_parseAttributePath (used : List Item) (name : Located String)
    (items : List Item) : ReadsBalanced used items (parseAttributePath name items) := by
  cases items with
  | nil =>
    unfold parseAttributePath
    exact .leaving _
  | cons dot rest =>
    unfold parseAttributePath
    dsimp only
    split
    . next hdot =>
      rw [isAttached, Bool.and_eq_true, beq_iff_eq] at hdot
      have hbalanced : IsBalanced [dot] :=
        isBalanced_singleton (by simp [hdot.2]) (by simp [hdot.2])
      apply ((readsBalanced_parseName _ _ rest).of_append rfl hbalanced).bind
      rintro ⟨part, rest', hlt⟩ read hitems hread
      have := readsBalanced_parseAttributePath (used ++ read)
        ⟨name.value ++ "." ++ part.value, ⟨name.span.start, part.span.stop⟩⟩ rest'
      exact (this.of_append hitems hread).bind_ok fun _ => rfl
    . exact .leaving _
termination_by items.length
decreasing_by
  all_goals
    subst_vars
    simp only [List.length_cons] at *
    omega

theorem readsBalanced_parseArguments (used items : List Item) :
    ReadsBalanced used items (parseArguments items) := by
  unfold parseArguments
  split
  . exact .leaving _
  . next item rest =>
    split
    . next hopening =>
      rw [isAttached, Bool.and_eq_true, beq_iff_eq] at hopening
      constructor
      . exact (failsAmong_group used hopening.2 rest).bind_ok
      . intro p hp
        obtain ⟨close, hskip, hp⟩ := bind_eq_ok hp
        obtain ⟨inner, hrest, hcloser, hinner⟩ := skipGroup_eq_ok hskip
        cases hp
        refine ⟨item :: (inner ++ [close.value]), ?_, .group hopening.2 hcloser hinner⟩
        rw [List.cons_append, List.append_assoc]
        exact congrArg _ hrest
    . exact .leaving _

theorem readsBalanced_parseAttribute (used : List Item) (sigil : String) (start : Nat)
    (items : List Item) : ReadsBalanced used items (parseAttribute sigil start items) := by
  unfold parseAttribute
  apply (readsBalanced_parseName used _ items).bind
  intro first _ hitems hread
  apply ((readsBalanced_parseAttributePath _ _ _).of_append hitems hread).andMaybe.bind
  intro name _ hitems hread
  apply ((readsBalanced_parseArguments _ _).of_append hitems hread).andMaybe.bind_ok
  exact fun _ => rfl

theorem readsBalanced_sigil (used : List Item) (sigil : String) (start : Nat) {item : Item}
    {s : Sign} (hitem : item.token = .sign s) (rest : List Item) :
    ReadsBalanced used (item :: rest) (parseAttribute sigil start rest) := by
  have hbalanced : IsBalanced [item] :=
    isBalanced_singleton (by simp [hitem]) (by simp [hitem])
  exact (readsBalanced_parseAttribute _ sigil start rest).of_append rfl hbalanced

theorem readsBalanced_parseFieldAttributes (used items : List Item) :
    ReadsBalanced used items (parseFieldAttributes items) := by
  cases items with
  | nil =>
    unfold parseFieldAttributes
    exact .leaving _
  | cons item rest =>
    unfold parseFieldAttributes
    dsimp only
    split
    . exact .leaving _
    . split
      . next hitem =>
        apply (readsBalanced_sigil used _ _ (beq_iff_eq.mp hitem) rest).bind
        rintro ⟨attr, rest', hlt⟩ read hitems hread
        have := readsBalanced_parseFieldAttributes (used ++ read) rest'
        exact (this.of_append hitems hread).bind_ok fun _ => rfl
      . exact .expected _
termination_by items.length
decreasing_by
  all_goals
    subst_vars
    simp only [List.length_cons] at *
    omega

theorem readsBalanced_parseFieldType (used items : List Item) :
    ReadsBalanced used items (parseFieldType items) := by
  unfold parseFieldType
  split
  . exact .expected _
  . split
    . exact .expected _
    . exact readsBalanced_parseName ..

theorem readsBalanced_parseArrayMark (used items : List Item) :
    ReadsBalanced used items (parseArrayMark items) := by
  unfold parseArrayMark
  split
  . exact .leaving _
  . next item rest =>
    split
    . next hopening =>
      rw [isAttached, Bool.and_eq_true, beq_iff_eq] at hopening
      constructor
      . exact (failsAmong_parseToken _ _ _ rest).of_cons.bind_ok
      . intro p hp
        obtain ⟨close, hclose, hp⟩ := bind_eq_ok hp
        obtain ⟨hrest, hcloser⟩ := parseToken_eq_ok hclose
        cases hp
        exact ⟨[item, close.value], congrArg (item :: ·) hrest, .group hopening.2 hcloser .nil⟩
    . exact .leaving _

theorem exists_optionalType (items : List Item) :
    ∃ read, items = read ++ (optionalType items).rest ∧ IsBalanced read := by
  unfold optionalType
  split
  . exact ⟨[], rfl, .nil⟩
  . next item rest =>
    split
    . next hitem =>
      rw [isAttached, Bool.and_eq_true, beq_iff_eq] at hitem
      exact ⟨[item], rfl, isBalanced_singleton (by simp [hitem.2]) (by simp [hitem.2])⟩
    . exact ⟨[], rfl, .nil⟩

theorem readsBalanced_parseField (used items : List Item) :
    ReadsBalanced used items (parseField items) := by
  unfold parseField
  apply (readsBalanced_parseName used _ items).bind
  intro name _ hitems hread
  apply ((readsBalanced_parseFieldType _ _).of_append hitems hread).andThen.bind
  intro typeName _ hitems hread
  apply ((readsBalanced_parseArguments _ _).of_append hitems hread).andMaybe.bind
  intro args _ hitems hread
  apply ((readsBalanced_parseArrayMark _ _).of_append hitems hread).andMaybe.bind
  intro isArray read hitems hread
  obtain ⟨mark, hrest, hmark⟩ := exists_optionalType isArray.rest
  have hitems' : items = read ++ mark ++ (optionalType isArray.rest).rest := by
    rw [List.append_assoc, ← hrest]
    exact hitems
  have hattributes : ReadsBalanced used items (parseFieldAttributes (optionalType isArray.rest).rest) :=
    (readsBalanced_parseFieldAttributes _ _).of_append hitems' (hread.append hmark)
  exact (ReadsBalanced.andMaybe (p := isArray.onward optionalType) hattributes).bind_ok fun _ => rfl

theorem readsBalanced_parseSuperTypes (used items : List Item) :
    ReadsBalanced used items (parseSuperTypes items) := by
  unfold parseSuperTypes
  apply (readsBalanced_parseName used _ items).bind
  rintro ⟨name, rest, hlt⟩ read hitems hread
  dsimp only
  split
  . next comma rest' hlt' htake =>
    obtain ⟨hrest, hcomma⟩ := takeToken?_eq_some htake
    dsimp only at hitems hrest hcomma
    have hbalanced : IsBalanced [comma] :=
      isBalanced_singleton (by simp [hcomma]) (by simp [hcomma])
    have hitems' : items = read ++ [comma] ++ rest' := by simpa [hrest] using hitems
    have := readsBalanced_parseSuperTypes (used ++ (read ++ [comma])) rest'
    exact (this.of_append hitems' (hread.append hbalanced)).bind_ok fun _ => rfl
  . constructor
    . exact .ok _
    . rintro _ ⟨⟩
      exact ⟨read, hitems, hread⟩
termination_by items.length
decreasing_by omega

theorem failsAmong_parseExtends (used items : List Item) :
    FailsAmong used items (parseExtends items) := by
  unfold parseExtends
  split
  . exact .ok _
  . split
    . exact (readsBalanced_parseSuperTypes _ _).fails.of_cons.map
    . exact .ok _

theorem failsAmong_parseModelBody {used : List Item} {opening : Span}
    (h : AreOpen [⟨.brace, opening⟩] used) (items : List Item) :
    FailsAmong used items (parseModelBody opening items) := by
  cases items with
  | nil =>
    unfold parseModelBody
    exact .unclosed h
  | cons item rest =>
    unfold parseModelBody
    dsimp only
    split
    . exact .ok _
    . next hitem =>
      have hreads := readsBalanced_sigil used "@@" item.span.start hitem rest
      apply hreads.fails.bind
      rintro ⟨attr, rest', hlt⟩ hattr
      obtain ⟨read, hitems, hread⟩ := hreads.reads _ hattr
      exact ((failsAmong_parseModelBody (h.append hread) rest').of_append hitems).bind_ok
    . have hreads := readsBalanced_parseField used (item :: rest)
      apply hreads.fails.bind
      rintro ⟨field, rest', hlt⟩ hfield
      obtain ⟨read, hitems, hread⟩ := hreads.reads _ hfield
      exact ((failsAmong_parseModelBody (h.append hread) rest').of_append hitems).bind_ok
    . exact .expected ..
termination_by items.length
decreasing_by
  all_goals
    subst_vars
    simp only [List.length_cons] at *
    omega

theorem failsAmong_parseModel (used : List Item) (start : Nat) (isAbstract : Bool)
    (items : List Item) : FailsAmong used items (parseModel start isAbstract items) := by
  unfold parseModel
  apply (failsAmong_parseName used _ items).bind
  intro name hname
  obtain ⟨read, hitems⟩ := rest_suffix_of_parseName hname
  apply FailsAmong.of_append hitems.symm
  apply (failsAmong_parseExtends _ _).andMaybe.bind
  intro superTypes hand
  obtain ⟨names, rest, hlt, _, hsupers, rfl⟩ := andMaybe_eq_ok hand
  obtain ⟨read', hrest⟩ := rest_suffix_of_parseExtends hsupers
  apply FailsAmong.of_append hrest.symm
  apply (failsAmong_parseToken _ _ _ rest).andThen.bind
  intro opening hand
  obtain ⟨brace, rest', hlt', _, hbrace, rfl⟩ := andThen_eq_ok hand
  obtain ⟨hrest', htoken⟩ := parseToken_eq_ok hbrace
  apply FailsAmong.of_append (show rest = [brace] ++ rest' from hrest')
  exact (failsAmong_parseModelBody (.singleton _ htoken) rest').andThen.bind_ok

theorem failsAmong_skipBlock (used items : List Item) :
    FailsAmong used items (skipBlock items) := by
  cases items with
  | nil =>
    unfold skipBlock
    exact .ok _
  | cons item rest =>
    unfold skipBlock
    dsimp only
    split
    . exact .ok _
    . split
      . next d hd =>
        apply (failsAmong_group used hd rest).bind
        rintro ⟨close, rest', hlt⟩ hskip
        obtain ⟨read, hitems⟩ := (rest_suffix_of_skipGroup hskip).trans (List.suffix_cons item rest)
        dsimp only
        split
        . exact .ok _
        . exact ((failsAmong_skipBlock _ rest').of_append hitems.symm).bind_ok
      . next d hd => exact .unbalanced (by rw [hd, Token.isClosing]) (by simp)
      . exact (failsAmong_skipBlock _ rest).of_cons.map
termination_by items.length
decreasing_by
  all_goals
    subst_vars
    simp only [List.length_cons] at *
    omega

theorem FailsAmong.exists_read {α : Type} {n : Nat} {used items : List Item} {f : Failure}
    (h : FailsAmong used items (.error f : Parse α n)) :
    ∃ read, items = read ++ f.rest ∧ f.FitsBehind (used ++ read) := by
  cases h with
  | error hitems hfits => exact ⟨_, hitems, hfits⟩

theorem exists_read_of_parseModels (used : List Item) {acc : List ModelDecl} {items : List Item}
    {f : Failure} (h : parseModels acc items = .error f) :
    ∃ read, items = read ++ f.rest ∧ f.FitsBehind (used ++ read) := by
  cases items with
  | nil =>
    unfold parseModels at h
    cases h
  | cons item rest =>
    have hrest {rest' : List Item} (hsuffix : rest' <:+ rest) {acc' : List ModelDecl}
        (hmodels : parseModels acc' rest' = .error f) :
        ∃ read, item :: rest = read ++ f.rest ∧ f.FitsBehind (used ++ read) := by
      obtain ⟨front, hfront⟩ := hsuffix
      obtain ⟨read, hread, hfits⟩ :=
        exists_read_of_parseModels (used ++ item :: front) hmodels
      exact ⟨item :: front ++ read, by simp [← hfront, hread], by simpa using hfits⟩
    have hhere {α : Type} {n : Nat} (front : List Item) {rest' : List Item} {x : Parse α n}
        (hfront : item :: rest = front ++ rest') (hfails : FailsAmong (used ++ front) rest' x)
        (hx : x = .error f) :
        ∃ read, item :: rest = read ++ f.rest ∧ f.FitsBehind (used ++ read) := by
      subst hx
      exact (hfails.of_append hfront).exists_read
    unfold parseModels at h
    dsimp only at h
    split at h
    . next isAbstract keyword rest₁ hlt hitem =>
      obtain ⟨front, hfront⟩ := schemaItem_eq_model hitem
      dsimp only at hfront
      rcases bind_eq_error_cases h with h | ⟨p, hmodel, h⟩
      . exact hhere (item :: front) (congrArg _ hfront.symm)
          (failsAmong_parseModel _ _ _ _) h
      . exact hrest ((parseModel_eq_ok hmodel).1.trans ⟨front, hfront⟩) h
    . exact hrest (List.dropWhile_suffix _) h
    . rcases bind_eq_error_cases h with h | ⟨p, hblock, h⟩
      . exact hhere [item] rfl (failsAmong_skipBlock _ _) h
      . exact hrest (rest_suffix_of_skipBlock hblock) h
    . cases h
      exact ⟨[], rfl, trivial⟩
termination_by items.length
decreasing_by
  subst_vars
  simp only [List.length_cons, List.length_append]
  omega

end Delegation
