import Delegation.Proofs.Grammar.Head
import Delegation.Schema.Parser

/-!
This module contains where the arguments of the attributes stand in a schema that are read from its
items: between two parentheses that close each other.
-/

namespace Delegation

open Item

/--
Whether `span` is between two of `items` that are parentheses and close each other.
-/
def IsEnclosed (items : List Item) (span : Span) : Prop :=
  ∃ front opening inner closing back, items = front ++ opening :: (inner ++ closing :: back)
    ∧ opening.token = .opening .paren ∧ IsBalanced inner ∧ closing.token = .closing .paren
    ∧ span = ⟨opening.span.stop, closing.span.start⟩

def AttributeDecl.IsEnclosed (items : List Item) (decl : AttributeDecl) : Prop :=
  ∀ span ∈ decl.args, Delegation.IsEnclosed items span

def FieldDecl.IsEnclosed (items : List Item) (decl : FieldDecl) : Prop :=
  ∀ attr ∈ decl.attributes, attr.IsEnclosed items

structure ModelDecl.IsEnclosed (items : List Item) (decl : ModelDecl) : Prop where
  fields : ∀ field ∈ decl.fields, field.IsEnclosed items
  attributes : ∀ attr ∈ decl.attributes, attr.IsEnclosed items

section Suffix

variable {rest items : List Item}

theorem IsEnclosed.of_suffix {span : Span} (h : IsEnclosed rest span) (hrest : rest <:+ items) :
    IsEnclosed items span := by
  obtain ⟨used, rfl⟩ := hrest
  obtain ⟨front, opening, inner, closing, back, rfl, h⟩ := h
  exact ⟨used ++ front, opening, inner, closing, back, (List.append_assoc ..).symm, h⟩

theorem AttributeDecl.IsEnclosed.of_suffix {decl : AttributeDecl} (h : decl.IsEnclosed rest)
    (hrest : rest <:+ items) : decl.IsEnclosed items :=
  fun span hspan => (h span hspan).of_suffix hrest

theorem FieldDecl.IsEnclosed.of_suffix {decl : FieldDecl} (h : decl.IsEnclosed rest)
    (hrest : rest <:+ items) : decl.IsEnclosed items :=
  fun attr hattr => (h attr hattr).of_suffix hrest

theorem ModelDecl.IsEnclosed.of_suffix {decl : ModelDecl} (h : decl.IsEnclosed rest)
    (hrest : rest <:+ items) : decl.IsEnclosed items where
  fields field hfield := (h.fields field hfield).of_suffix hrest
  attributes attr hattr := (h.attributes attr hattr).of_suffix hrest

end Suffix

theorem rest_suffix_of_parseName {what : Expectation} {items : List Item}
    {p : Parsed Item (Located String) items.length} (h : parseName what items = .ok p) :
    p.rest <:+ items := by
  obtain ⟨item, _, hitems, _⟩ := parseName_eq_ok h
  exact ⟨[item], hitems.symm⟩

theorem rest_suffix_of_skipGroup {opening : OpenDelimiter} {inner : List OpenDelimiter}
    {items : List Item} {p : Parsed Item Item items.length}
    (h : skipGroup opening inner items = .ok p) : p.rest <:+ items := by
  obtain ⟨used, hitems, _⟩ := skipGroup_eq_ok h
  exact ⟨used ++ [p.value], by rw [List.append_assoc]; exact hitems.symm⟩

theorem rest_suffix_of_parseAttributePath {name : Located String} {items : List Item}
    {p : Parsed Item (Located String) (items.length + 1)}
    (h : parseAttributePath name items = .ok p) : p.rest <:+ items := by
  cases items with
  | nil =>
    unfold parseAttributePath at h
    cases h
    exact List.suffix_refl _
  | cons dot rest =>
    unfold parseAttributePath at h
    dsimp only at h
    split at h
    . obtain ⟨⟨part, rest', hlt⟩, hname, h⟩ := bind_eq_ok h
      obtain ⟨path, hpath, h⟩ := bind_eq_ok h
      cases h
      exact (rest_suffix_of_parseAttributePath hpath).trans
        ((rest_suffix_of_parseName hname).trans (List.suffix_cons ..))
    . cases h
      exact List.suffix_refl _
termination_by items.length
decreasing_by
  all_goals
    subst_vars
    simp only [List.length_cons] at *
    omega

theorem parseArguments_eq_ok {items : List Item}
    {p : Parsed Item (Option (Span × Span)) (items.length + 1)} (h : parseArguments items = .ok p) :
    p.rest <:+ items
      ∧ ∀ spans ∈ p.value, IsEnclosed items ⟨spans.1.stop, spans.2.start⟩ := by
  unfold parseArguments at h
  split at h
  . cases h
    exact ⟨List.suffix_refl _, by simp [Parsed.leaving]⟩
  . next item rest =>
    split at h
    . next hopening =>
      obtain ⟨p', hskip, h⟩ := bind_eq_ok h
      cases h
      rw [isAttached, Bool.and_eq_true, beq_iff_eq] at hopening
      obtain ⟨inner, hrest, hclosing, hinner⟩ := skipGroup_eq_ok hskip
      refine ⟨(rest_suffix_of_skipGroup hskip).trans (List.suffix_cons ..), ?_⟩
      intro spans hspans
      cases hspans
      exact ⟨[], item, inner, p'.value, p'.rest, congrArg _ hrest, hopening.2, hinner, hclosing,
        rfl⟩
    . cases h
      exact ⟨List.suffix_refl _, by simp [Parsed.leaving]⟩

theorem parseAttribute_eq_ok {sigil : String} {start : Nat} {items : List Item}
    {p : Parsed Item AttributeDecl items.length} (h : parseAttribute sigil start items = .ok p) :
    p.rest <:+ items ∧ p.value.IsEnclosed items := by
  obtain ⟨first, hfirst, h⟩ := bind_eq_ok h
  obtain ⟨name, hname, h⟩ := bind_eq_ok h
  obtain ⟨args, hargs, h⟩ := bind_eq_ok h
  obtain ⟨_, _, _, _, hpath, rfl⟩ := andMaybe_eq_ok hname
  obtain ⟨spans, _, _, _, hspans, rfl⟩ := andMaybe_eq_ok hargs
  cases h
  obtain ⟨hrest, hall⟩ := parseArguments_eq_ok hspans
  have hsuffix := (rest_suffix_of_parseAttributePath hpath).trans (rest_suffix_of_parseName hfirst)
  refine ⟨hrest.trans hsuffix, ?_⟩
  intro span hspan
  cases spans with
  | none => cases hspan
  | some spans =>
    cases hspan
    exact (hall spans rfl).of_suffix hsuffix

theorem parseFieldAttributes_eq_ok {items : List Item}
    {p : Parsed Item (List AttributeDecl) (items.length + 1)}
    (h : parseFieldAttributes items = .ok p) :
    p.rest <:+ items ∧ ∀ attr ∈ p.value, attr.IsEnclosed items := by
  cases items with
  | nil =>
    unfold parseFieldAttributes at h
    cases h
    exact ⟨List.suffix_refl _, by simp [Parsed.leaving]⟩
  | cons item rest =>
    unfold parseFieldAttributes at h
    dsimp only at h
    split at h
    . cases h
      exact ⟨List.suffix_refl _, by simp [Parsed.leaving]⟩
    . split at h
      . obtain ⟨⟨attr, rest', hlt⟩, hattr, h⟩ := bind_eq_ok h
        obtain ⟨more, hmore, h⟩ := bind_eq_ok h
        cases h
        obtain ⟨hrest, henclosed⟩ := parseAttribute_eq_ok hattr
        obtain ⟨hrest', hall⟩ := parseFieldAttributes_eq_ok hmore
        have hsuffix := hrest.trans (List.suffix_cons item rest)
        refine ⟨hrest'.trans hsuffix, ?_⟩
        intro other hother
        rcases List.mem_cons.mp hother with rfl | hother
        . exact henclosed.of_suffix (List.suffix_cons ..)
        . exact (hall other hother).of_suffix hsuffix
      . cases h
termination_by items.length
decreasing_by
  all_goals
    subst_vars
    simp only [List.length_cons] at *
    omega

theorem rest_suffix_of_parseFieldType {items : List Item}
    {p : Parsed Item (Located String) items.length} (h : parseFieldType items = .ok p) :
    p.rest <:+ items := by
  unfold parseFieldType at h
  split at h
  . cases h
  . split at h
    . cases h
    . exact rest_suffix_of_parseName h

theorem rest_suffix_of_parseArrayMark {items : List Item} {p : Parsed Item Bool (items.length + 1)}
    (h : parseArrayMark items = .ok p) : p.rest <:+ items := by
  unfold parseArrayMark at h
  split at h
  . cases h
    exact List.suffix_refl _
  . next item rest =>
    split at h
    . obtain ⟨close, hclose, h⟩ := bind_eq_ok h
      cases h
      exact ⟨[item, close.value], congrArg _ (parseToken_eq_ok hclose).1.symm⟩
    . cases h
      exact List.suffix_refl _

theorem rest_suffix_optionalType (items : List Item) : (optionalType items).rest <:+ items := by
  unfold optionalType
  split
  . exact List.suffix_refl _
  . split
    . exact List.suffix_cons ..
    . exact List.suffix_refl _

theorem parseField_eq_ok {items : List Item} {p : Parsed Item FieldDecl items.length}
    (h : parseField items = .ok p) : p.rest <:+ items ∧ p.value.IsEnclosed items := by
  obtain ⟨name, hname, h⟩ := bind_eq_ok h
  obtain ⟨typeName, htype, h⟩ := bind_eq_ok h
  obtain ⟨args, hargs, h⟩ := bind_eq_ok h
  obtain ⟨isArray, harray, h⟩ := bind_eq_ok h
  obtain ⟨attributes, hattributes, h⟩ := bind_eq_ok h
  obtain ⟨_, _, _, _, htype', rfl⟩ := andThen_eq_ok htype
  obtain ⟨_, _, _, _, hargs', rfl⟩ := andMaybe_eq_ok hargs
  obtain ⟨_, _, _, _, harray', rfl⟩ := andMaybe_eq_ok harray
  obtain ⟨_, _, _, _, hattributes', rfl⟩ := andMaybe_eq_ok hattributes
  cases h
  have hsuffix := (rest_suffix_optionalType _).trans
    <| (rest_suffix_of_parseArrayMark harray').trans <| (parseArguments_eq_ok hargs').1.trans
    <| (rest_suffix_of_parseFieldType htype').trans <| rest_suffix_of_parseName hname
  obtain ⟨hrest, hall⟩ := parseFieldAttributes_eq_ok hattributes'
  exact ⟨hrest.trans hsuffix, fun attr hattr => (hall attr hattr).of_suffix hsuffix⟩

theorem rest_suffix_of_parseSuperTypes {items : List Item}
    {p : Parsed Item (List (Located String)) items.length} (h : parseSuperTypes items = .ok p) :
    p.rest <:+ items := by
  unfold parseSuperTypes at h
  obtain ⟨⟨name, rest, hlt⟩, hname, h⟩ := bind_eq_ok h
  have hrest := rest_suffix_of_parseName hname
  dsimp only at h
  split at h
  . next comma rest' hlt' htake =>
    obtain ⟨names, hnames, h⟩ := bind_eq_ok h
    cases h
    exact (rest_suffix_of_parseSuperTypes hnames).trans <|
      List.IsSuffix.trans ⟨[comma], (takeToken?_eq_some htake).1.symm⟩ hrest
  . cases h
    exact hrest
termination_by items.length
decreasing_by omega

theorem rest_suffix_of_parseExtends {items : List Item}
    {p : Parsed Item (List (Located String)) (items.length + 1)} (h : parseExtends items = .ok p) :
    p.rest <:+ items := by
  unfold parseExtends at h
  split at h
  . cases h
    exact List.suffix_refl _
  . split at h
    . obtain ⟨names, hnames, rfl⟩ := map_eq_ok h
      exact (rest_suffix_of_parseSuperTypes hnames).trans (List.suffix_cons ..)
    . cases h
      exact List.suffix_refl _

theorem parseModelBody_eq_ok {opening : Span} {items : List Item}
    {p : Parsed Item (List FieldDecl × List AttributeDecl × Nat) items.length}
    (h : parseModelBody opening items = .ok p) :
    p.rest <:+ items ∧ (∀ field ∈ p.value.1, field.IsEnclosed items)
      ∧ ∀ attr ∈ p.value.2.1, attr.IsEnclosed items := by
  cases items with
  | nil =>
    unfold parseModelBody at h
    cases h
  | cons item rest =>
    unfold parseModelBody at h
    dsimp only at h
    split at h
    . cases h
      exact ⟨List.suffix_cons .., by simp [Parsed.leaving], by simp [Parsed.leaving]⟩
    . obtain ⟨⟨attr, rest', hlt⟩, hattr, h⟩ := bind_eq_ok h
      obtain ⟨body, hbody, h⟩ := bind_eq_ok h
      cases h
      obtain ⟨hrest, henclosed⟩ := parseAttribute_eq_ok hattr
      obtain ⟨hrest', hfields, hattrs⟩ := parseModelBody_eq_ok hbody
      have hsuffix := hrest.trans (List.suffix_cons item rest)
      refine ⟨hrest'.trans hsuffix,
        fun field hfield => (hfields field hfield).of_suffix hsuffix, ?_⟩
      intro other hother
      rcases List.mem_cons.mp hother with rfl | hother
      . exact henclosed.of_suffix (List.suffix_cons ..)
      . exact (hattrs other hother).of_suffix hsuffix
    . obtain ⟨⟨field, rest', hlt⟩, hfield, h⟩ := bind_eq_ok h
      obtain ⟨body, hbody, h⟩ := bind_eq_ok h
      cases h
      obtain ⟨hsuffix, henclosed⟩ := parseField_eq_ok hfield
      obtain ⟨hrest', hfields, hattrs⟩ := parseModelBody_eq_ok hbody
      refine ⟨hrest'.trans hsuffix, ?_, fun attr hattr => (hattrs attr hattr).of_suffix hsuffix⟩
      intro other hother
      rcases List.mem_cons.mp hother with rfl | hother
      . exact henclosed
      . exact (hfields other hother).of_suffix hsuffix
    . cases h
termination_by items.length
decreasing_by
  all_goals
    subst_vars
    simp only [List.length_cons] at *
    omega

theorem parseModel_eq_ok {start : Nat} {isAbstract : Bool} {items : List Item}
    {p : Parsed Item ModelDecl items.length} (h : parseModel start isAbstract items = .ok p) :
    p.rest <:+ items ∧ p.value.IsEnclosed items := by
  obtain ⟨name, hname, h⟩ := bind_eq_ok h
  obtain ⟨superTypes, hsupers, h⟩ := bind_eq_ok h
  obtain ⟨opening, hopening, h⟩ := bind_eq_ok h
  obtain ⟨body, hbody, h⟩ := bind_eq_ok h
  obtain ⟨_, _, _, _, hsupers', rfl⟩ := andMaybe_eq_ok hsupers
  obtain ⟨brace, _, _, _, hopening', rfl⟩ := andThen_eq_ok hopening
  obtain ⟨_, _, _, _, hbody', rfl⟩ := andThen_eq_ok hbody
  cases h
  have hbrace : _ <:+ _ := ⟨[brace], (parseToken_eq_ok hopening').1.symm⟩
  have hsuffix := hbrace.trans <| (rest_suffix_of_parseExtends hsupers').trans
    <| rest_suffix_of_parseName hname
  obtain ⟨hrest, hfields, hattrs⟩ := parseModelBody_eq_ok hbody'
  exact ⟨hrest.trans hsuffix, fun field hfield => (hfields field hfield).of_suffix hsuffix,
    fun attr hattr => (hattrs attr hattr).of_suffix hsuffix⟩

theorem rest_suffix_of_skipBlock {items : List Item} {p : Parsed Item Unit (items.length + 1)}
    (h : skipBlock items = .ok p) : p.rest <:+ items := by
  cases items with
  | nil =>
    unfold skipBlock at h
    cases h
    exact List.suffix_refl _
  | cons item rest =>
    unfold skipBlock at h
    dsimp only at h
    split at h
    . cases h
      exact List.suffix_refl _
    . split at h
      . obtain ⟨⟨close, rest', hlt⟩, hskip, h⟩ := bind_eq_ok h
        have hsuffix := (rest_suffix_of_skipGroup hskip).trans (List.suffix_cons item rest)
        dsimp only at h
        split at h
        . cases h
          exact hsuffix
        . obtain ⟨block, hblock, h⟩ := bind_eq_ok h
          cases h
          exact (rest_suffix_of_skipBlock hblock).trans hsuffix
      . cases h
      . obtain ⟨block, hblock, rfl⟩ := map_eq_ok h
        exact (rest_suffix_of_skipBlock hblock).trans (List.suffix_cons ..)
termination_by items.length
decreasing_by
  all_goals
    subst_vars
    simp only [List.length_cons] at *
    omega

theorem schemaItem_eq_model {item : Item} {rest : List Item} {isAbstract : Bool}
    {keyword : Parsed Item Item (rest.length + 1)}
    (h : schemaItem item rest = .model isAbstract keyword) : keyword.rest <:+ rest := by
  unfold schemaItem at h
  split at h
  . cases h
    exact List.suffix_refl _
  . split at h
    . split at h
      . next keyword htake =>
        cases h
        exact ⟨[keyword.value], (takeToken?_eq_some htake).1.symm⟩
      . cases h
    . split at h
      . cases h
      . split at h <;> cases h

theorem exists_parseModel_of_parseModels {acc models : List ModelDecl} {items : List Item}
    (h : parseModels acc items = .ok models) :
    ∀ m ∈ models, m ∈ acc ∨ ∃ start isAbstract rest p, rest <:+ items
      ∧ parseModel start isAbstract rest = .ok p ∧ p.value = m := by
  cases items with
  | nil =>
    unfold parseModels at h
    cases h
    exact fun m hm => .inl (List.mem_reverse.mp hm)
  | cons item rest =>
    have hskip {rest' : List Item} (hrest : rest' <:+ rest) {acc' : List ModelDecl}
        (h : parseModels acc' rest' = .ok models) {m : ModelDecl} (hm : m ∈ models) :
        m ∈ acc' ∨ ∃ start isAbstract left p, left <:+ item :: rest
          ∧ parseModel start isAbstract left = .ok p ∧ p.value = m := by
      rcases exists_parseModel_of_parseModels h m hm with hm | ⟨start, isAbstract, left, p, hleft, hp⟩
      . exact .inl hm
      . exact .inr ⟨start, isAbstract, left, p,
          (hleft.trans hrest).trans (List.suffix_cons ..), hp⟩
    unfold parseModels at h
    dsimp only at h
    intro m hm
    split at h
    . next isAbstract keyword rest₁ hlt hitem =>
      obtain ⟨⟨model, rest₂, hlt'⟩, hmodel, h⟩ := bind_eq_ok h
      have hsuffix := schemaItem_eq_model hitem
      rcases hskip ((parseModel_eq_ok hmodel).1.trans hsuffix) h hm with hm | hm
      . rcases List.mem_cons.mp hm with rfl | hm
        . exact .inr ⟨_, _, rest₁, _, hsuffix.trans (List.suffix_cons ..), hmodel, rfl⟩
        . exact .inl hm
      . exact .inr hm
    . exact hskip (List.dropWhile_suffix _) h hm
    . obtain ⟨⟨_, rest', hlt⟩, hblock, h⟩ := bind_eq_ok h
      exact hskip (rest_suffix_of_skipBlock hblock) h hm
    . cases h
termination_by items.length
decreasing_by
  have := hrest.length_le
  subst_vars
  simp only [List.length_cons]
  omega

theorem isEnclosed_of_parseModels {acc models : List ModelDecl} {items : List Item}
    (h : parseModels acc items = .ok models) :
    ∀ m ∈ models, m ∈ acc ∨ m.IsEnclosed items := by
  intro m hm
  rcases exists_parseModel_of_parseModels h m hm with hm | ⟨_, _, rest, p, hrest, hp, rfl⟩
  . exact .inl hm
  . exact .inr ((parseModel_eq_ok hp).2.of_suffix hrest)

end Delegation
