import Delegation.Proofs.Grammar.Schema

/-!
This module contains where the names in a schema stand: each of them has the span of one of the
items that it was parsed from.
-/

namespace Delegation

open Item

structure ModelDecl.IsNamedIn (items : List Item) (decl : ModelDecl) : Prop where
  name : decl.name.span ∈ items.map Item.span
  superTypes : ∀ superType ∈ decl.superTypes, superType.span ∈ items.map Item.span
  fields : ∀ field ∈ decl.fields, field.name.span ∈ items.map Item.span

section Suffix

variable {rest items : List Item}

theorem mem_map_span_of_suffix {span : Span} (h : span ∈ rest.map Item.span)
    (hrest : rest <:+ items) : span ∈ items.map Item.span :=
  (hrest.map _).subset h

theorem ModelDecl.IsNamedIn.of_suffix {decl : ModelDecl} (h : decl.IsNamedIn rest)
    (hrest : rest <:+ items) : decl.IsNamedIn items where
  name := mem_map_span_of_suffix h.name hrest
  superTypes superType hsuper := mem_map_span_of_suffix (h.superTypes superType hsuper) hrest
  fields field hfield := mem_map_span_of_suffix (h.fields field hfield) hrest

end Suffix

theorem span_of_parseName {what : Expectation} {items : List Item}
    {p : Parsed Item (Located String) items.length} (h : parseName what items = .ok p) :
    p.value.span ∈ items.map Item.span := by
  obtain ⟨item, name, hitems, _, hvalue⟩ := parseName_eq_ok h
  have hitem : item ∈ items := by
    rw [hitems]
    exact .head _
  rw [hvalue]
  exact List.mem_map_of_mem hitem

theorem span_of_parseField {items : List Item} {p : Parsed Item FieldDecl items.length}
    (h : parseField items = .ok p) : p.value.name.span ∈ items.map Item.span := by
  obtain ⟨name, hname, h⟩ := bind_eq_ok h
  obtain ⟨typeName, _, h⟩ := bind_eq_ok h
  obtain ⟨args, _, h⟩ := bind_eq_ok h
  obtain ⟨isArray, _, h⟩ := bind_eq_ok h
  obtain ⟨attributes, _, h⟩ := bind_eq_ok h
  cases h
  exact span_of_parseName hname

theorem span_of_parseSuperTypes {items : List Item}
    {p : Parsed Item (List (Located String)) items.length} (h : parseSuperTypes items = .ok p) :
    ∀ superType ∈ p.value, superType.span ∈ items.map Item.span := by
  unfold parseSuperTypes at h
  obtain ⟨⟨name, rest, hlt⟩, hname, h⟩ := bind_eq_ok h
  have hspan := span_of_parseName hname
  have hrest := rest_suffix_of_parseName hname
  dsimp only at h hspan hrest
  split at h
  . next comma rest' hlt' htake =>
    obtain ⟨names, hnames, h⟩ := bind_eq_ok h
    cases h
    have hsuffix : rest' <:+ items :=
      List.IsSuffix.trans ⟨[comma], (takeToken?_eq_some htake).1.symm⟩ hrest
    intro superType hsuper
    rcases List.mem_cons.mp hsuper with rfl | hsuper
    . exact hspan
    . exact mem_map_span_of_suffix (span_of_parseSuperTypes hnames superType hsuper) hsuffix
  . cases h
    intro superType hsuper
    cases List.mem_singleton.mp hsuper
    exact hspan
termination_by items.length
decreasing_by omega

theorem span_of_parseExtends {items : List Item}
    {p : Parsed Item (List (Located String)) (items.length + 1)} (h : parseExtends items = .ok p) :
    ∀ superType ∈ p.value, superType.span ∈ items.map Item.span := by
  unfold parseExtends at h
  split at h
  . cases h
    simp [Parsed.leaving]
  . split at h
    . obtain ⟨names, hnames, rfl⟩ := map_eq_ok h
      intro superType hsuper
      exact mem_map_span_of_suffix (span_of_parseSuperTypes hnames superType hsuper)
        (List.suffix_cons ..)
    . cases h
      simp [Parsed.leaving]

theorem span_of_parseModelBody {opening : Span} {items : List Item}
    {p : Parsed Item (List FieldDecl × List AttributeDecl × Nat) items.length}
    (h : parseModelBody opening items = .ok p) :
    ∀ field ∈ p.value.1, field.name.span ∈ items.map Item.span := by
  cases items with
  | nil =>
    unfold parseModelBody at h
    cases h
  | cons item rest =>
    unfold parseModelBody at h
    dsimp only at h
    split at h
    . cases h
      simp [Parsed.leaving]
    . obtain ⟨⟨attr, rest', hlt⟩, hattr, h⟩ := bind_eq_ok h
      obtain ⟨body, hbody, h⟩ := bind_eq_ok h
      cases h
      have hsuffix := (parseAttribute_eq_ok hattr).1.trans (List.suffix_cons item rest)
      intro field hfield
      exact mem_map_span_of_suffix (span_of_parseModelBody hbody field hfield) hsuffix
    . obtain ⟨⟨field, rest', hlt⟩, hfield, h⟩ := bind_eq_ok h
      obtain ⟨body, hbody, h⟩ := bind_eq_ok h
      cases h
      have hsuffix := (parseField_eq_ok hfield).1
      intro other hother
      rcases List.mem_cons.mp hother with rfl | hother
      . exact span_of_parseField hfield
      . exact mem_map_span_of_suffix (span_of_parseModelBody hbody other hother) hsuffix
    . cases h
termination_by items.length
decreasing_by
  all_goals
    subst_vars
    simp only [List.length_cons] at *
    omega

theorem ModelDecl.isNamedIn_of_parseModel {start : Nat} {isAbstract : Bool} {items : List Item}
    {p : Parsed Item ModelDecl items.length} (h : parseModel start isAbstract items = .ok p) :
    p.value.IsNamedIn items := by
  obtain ⟨name, hname, h⟩ := bind_eq_ok h
  obtain ⟨superTypes, hsupers, h⟩ := bind_eq_ok h
  obtain ⟨opening, hopening, h⟩ := bind_eq_ok h
  obtain ⟨body, hbody, h⟩ := bind_eq_ok h
  obtain ⟨_, _, _, _, hsupers', rfl⟩ := andMaybe_eq_ok hsupers
  obtain ⟨brace, _, _, _, hopening', rfl⟩ := andThen_eq_ok hopening
  obtain ⟨_, _, _, _, hbody', rfl⟩ := andThen_eq_ok hbody
  cases h
  have hrest := rest_suffix_of_parseName hname
  have hbrace : _ <:+ _ := ⟨[brace], (parseToken_eq_ok hopening').1.symm⟩
  have hsuffix := hbrace.trans ((rest_suffix_of_parseExtends hsupers').trans hrest)
  constructor
  . exact span_of_parseName hname
  . intro superType hsuper
    exact mem_map_span_of_suffix (span_of_parseExtends hsupers' superType hsuper) hrest
  . intro field hfield
    exact mem_map_span_of_suffix (span_of_parseModelBody hbody' field hfield) hsuffix

theorem SchemaFile.isNamedIn_of_ofLexemes {ls : List Lexeme} {file : SchemaFile}
    (h : SchemaFile.ofLexemes ls = .ok file) :
    ∀ m ∈ file.models, m.IsNamedIn (Item.ofLexemes ls) := by
  unfold SchemaFile.ofLexemes at h
  split at h
  . next hmodels =>
    cases h
    intro m hm
    rcases exists_parseModel_of_parseModels hmodels m hm with hm | ⟨_, _, rest, p, hrest, hp, rfl⟩
    . cases hm
    . exact (ModelDecl.isNamedIn_of_parseModel hp).of_suffix hrest
  . cases h

end Delegation
