import Delegation.Proofs.Grammar.Schema
import Delegation.Proofs.Items
import Delegation.Proofs.Splicing
import Delegation.Schema.Load
import Mathlib.Data.List.Forall2

/-!
This module contains how the declarations of a schema become a model: with the names, the types and
the attributes that they are written with. Only a name that is no identifier stands in the way.
-/

namespace Delegation

open Item Lexeme

def IsIdentifier (name : String) : Prop :=
  ∃ c cs, name.toList = c :: cs ∧ (c.isAlpha ∨ c = '_') ∧ ∀ d ∈ cs, d.isAlphanum ∨ d = '_'

theorem isDigit_eq_false_of_isAlpha {c : Char} (h : c.isAlpha = true) : c.isDigit = false := by
  have hall : ∀ n ∈ List.range' 48 10, (Char.ofNat n).isAlpha = false := by decide
  rw [Bool.eq_false_iff]
  intro hdigit
  have := hall _ (toNat_mem_of_isDigit hdigit)
  rw [Char.ofNat_toNat, h] at this
  cases this

theorem isIdent_iff {name : String} : isIdent name.toList = true ↔ IsIdentifier name := by
  unfold IsIdentifier
  cases name.toList with
  | nil => simp [isIdent]
  | cons c cs =>
    have hfirst : c.isDigit = false ∧ isIdentChar c = true ↔ c.isAlpha = true ∨ c = '_' := by
      constructor
      . rintro ⟨hdigit, hchar⟩
        simpa [isIdentChar, Char.isAlphanum, hdigit] using hchar
      . rintro (halpha | rfl)
        . simp [isIdentChar, Char.isAlphanum, halpha, isDigit_eq_false_of_isAlpha halpha]
        . decide
    simp [isIdent, isIdentChar, ← hfirst, and_assoc]

namespace Ident

theorem ofName_eq_ok {name : String} {ident : Ident} :
    ofName name = .ok ident ↔ ident.name = name := by
  unfold ofName
  split
  . constructor
    . rintro h
      cases h
      rfl
    . rintro rfl
      rfl
  . next h =>
    constructor
    . intro hident
      split at hident
      . cases hident
      . split at hident <;> cases hident
    . rintro rfl
      exact absurd ident.isIdent_name h

theorem ext_name {a b : Ident} (h : a.name = b.name) : a = b := by
  cases a
  cases b
  cases h
  rfl

end Ident

theorem Located.ident_eq_ok {name : Located String} {ident : Ident} :
    name.ident = .ok ident ↔ ident.name = name.value := by
  unfold Located.ident
  cases h : Ident.ofName name.value with
  | ok other =>
    have := Ident.ofName_eq_ok.mp h
    simp only [Except.ok.injEq]
    constructor
    . rintro rfl
      exact this
    . intro hident
      exact Ident.ext_name (this.trans hident.symm)
  | error e =>
    simp only [reduceCtorEq, false_iff]
    intro hident
    rw [Ident.ofName_eq_ok.mpr hident] at h
    cases h

theorem mapM_eq_ok {ε α β : Type} {f : α → Except ε β} {as : List α} {bs : List β} :
    as.mapM f = .ok bs ↔ List.Forall₂ (fun a b => f a = .ok b) as bs := by
  induction as generalizing bs with
  | nil =>
    rw [List.mapM_nil, List.forall₂_nil_left_iff]
    exact ⟨fun h => (Except.ok.inj h).symm, fun h => h ▸ rfl⟩
  | cons a as ih =>
    rw [List.mapM_cons, List.forall₂_cons_left_iff]
    constructor
    . intro h
      obtain ⟨b, hb, h⟩ := bind_eq_ok h
      obtain ⟨more, hmore, h⟩ := bind_eq_ok h
      cases h
      exact ⟨b, more, hb, ih.mp hmore, rfl⟩
    . rintro ⟨b, more, hb, hmore, rfl⟩
      rw [hb, ih.mpr hmore]
      rfl

theorem exists_mapM {ε α β : Type} {f : α → Except ε β} {as : List α}
    (h : ∀ a ∈ as, ∃ b, f a = .ok b) : ∃ bs, as.mapM f = .ok bs := by
  induction as with
  | nil => exact ⟨[], rfl⟩
  | cons a as ih =>
    obtain ⟨b, hb⟩ := h a (.head _)
    obtain ⟨bs, hbs⟩ := ih fun x hx => h x (.tail _ hx)
    exact ⟨b :: bs, mapM_eq_ok.mpr (.cons hb (mapM_eq_ok.mp hbs))⟩

/--
Whether `text` is what stands at `span` between two parentheses of `source` that close each other.
-/
def IsArguments (source : List Char) (span : Span) (text : String) : Prop :=
  ∃ before after, source = before ++ '(' :: (text.toList ++ ')' :: after)
    ∧ span = ⟨byteLength before + 1, byteLength before + 1 + byteLength text.toList⟩
    ∧ ∃ front inner back, tokenize source = .ok (front ++ inner ++ back)
      ∧ textOf front = before ++ ['('] ∧ textOf inner = text.toList
      ∧ IsBalanced (ofLexemes inner)

theorem Spells.eq_opener {text : List Char} {d : Delimiter} (h : Spells text (.opening d)) :
    text = [d.opener] := by
  cases h with
  | char h =>
    unfold Token.ofChar? at h
    split at h
    case h_10 => simp at h
    all_goals
      cases h
      try rfl

theorem Spells.eq_closer {text : List Char} {d : Delimiter} (h : Spells text (.closing d)) :
    text = [d.closer] := by
  cases h with
  | char h =>
    unfold Token.ofChar? at h
    split at h
    case h_10 => simp at h
    all_goals
      cases h
      try rfl

theorem IsEnclosed.exists_text {source : List Char} {ls : List Lexeme} {span : Span}
    (hls : Lexes 0 source ls) (h : IsEnclosed (ofLexemes ls) span) :
    ∃ text, span.slice? source = some text ∧ IsArguments source span (.ofList text) := by
  obtain ⟨_, opening, _, closing, _, hitems, hopening, hbalanced, hclosing, rfl⟩ := h
  -- The lexemes of the two parentheses divide the text.
  obtain ⟨front, l, rest, rfl, _, hl, hspan, hrest⟩ := itemsFrom_eq_append_cons hitems
  obtain ⟨inner, l', back, rfl, rfl, hl', hspan', _⟩ := itemsFrom_eq_append_cons hrest.symm
  obtain ⟨hstart, hspells, _, hinner⟩ := hls.areLaid.split.cons
  obtain ⟨hstart', hspells', _, _⟩ := hinner.split.cons
  rw [hl, hopening] at hspells
  rw [hl', hclosing] at hspells'
  have htext : l.text = ['('] := hspells.eq_opener
  have htext' : l'.text = [')'] := hspells'.eq_closer
  have hsize : '('.utf8Size = 1 := rfl
  have hsource : source = textOf front ++ '(' :: (textOf inner ++ ')' :: textOf back) := by
    rw [← hls.textOf_eq]
    simp [htext, htext']
  have hplace : (⟨opening.span.stop, closing.span.start⟩ : Span)
      = ⟨byteLength (textOf front) + 1,
          byteLength (textOf front) + 1 + byteLength (textOf inner)⟩ := by
    rw [← hspan, ← hspan', Lexeme.span, Lexeme.span, hstart', Lexeme.stop, hstart, htext]
    simp [hsize]
  refine ⟨textOf inner, ?_, textOf front, textOf back, ?_, ?_, front ++ [l], inner, l' :: back,
    ?_, ?_, ?_, hbalanced⟩
  . have := Span.slice?_append (textOf front ++ ['(']) (textOf inner) (')' :: textOf back)
    rw [hplace, hsource]
    simpa [hsize] using this
  . simpa using hsource
  . simpa using hplace
  . rw [tokenize_eq_ok]
    simpa using hls
  . simp [htext]
  . simp

structure AttributeDecl.Declares (source : List Char) (decl : AttributeDecl) (attr : Attribute) :
    Prop where
  name : attr.name = decl.name.value
  args : Option.Rel (IsArguments source) decl.args attr.args

structure FieldDecl.Declares (source : List Char) (decl : FieldDecl) (field : Field) : Prop where
  name : field.name.name = decl.name.value
  typeName : field.typeName = decl.typeName.value
  isArray : field.isArray = decl.isArray
  isOptional : field.isOptional = decl.isOptional
  attributes : List.Forall₂ (AttributeDecl.Declares source) decl.attributes field.attributes

structure ModelDecl.Declares (source : List Char) (decl : ModelDecl) (e : Entity) : Prop where
  name : e.name.name = decl.name.value
  isAbstract : e.isAbstract = decl.isAbstract
  superTypes : e.superTypes.map (·.name) = decl.superTypes.map (·.value)
  fields : List.Forall₂ (FieldDecl.Declares source) decl.fields e.fields
  attributes : List.Forall₂ (AttributeDecl.Declares source) decl.attributes e.attributes

section Declares

variable {source : List Char} {ls : List Lexeme}

theorem AttributeDecl.declares_elaborate {decl : AttributeDecl} (hls : Lexes 0 source ls)
    (h : decl.IsEnclosed (ofLexemes ls)) : decl.Declares source (decl.elaborate source) where
  name := rfl
  args := by
    obtain ⟨name, args⟩ := decl
    cases args with
    | none => exact .none
    | some span =>
      obtain ⟨text, hslice, htext⟩ := (h span rfl).exists_text hls
      have hargs : (elaborate source ⟨name, some span⟩).args = some (.ofList text) := by
        simp [elaborate, hslice]
      rw [hargs]
      exact .some htext

theorem AttributeDecl.declares_map_elaborate {decls : List AttributeDecl} (hls : Lexes 0 source ls)
    (h : ∀ decl ∈ decls, decl.IsEnclosed (ofLexemes ls)) :
    List.Forall₂ (AttributeDecl.Declares source) decls (decls.map (·.elaborate source)) := by
  rw [List.forall₂_map_right_iff, List.forall₂_same]
  exact fun decl hdecl => declares_elaborate hls (h decl hdecl)

theorem FieldDecl.declares_of_elaborate {decl : FieldDecl} {field : Field} (hls : Lexes 0 source ls)
    (h : decl.IsEnclosed (ofLexemes ls)) (hfield : decl.elaborate source = .ok field) :
    decl.Declares source field := by
  obtain ⟨name, hname, hfield⟩ := bind_eq_ok hfield
  cases hfield
  exact ⟨Located.ident_eq_ok.mp hname, rfl, rfl, rfl, AttributeDecl.declares_map_elaborate hls h⟩

theorem ModelDecl.declares_of_elaborate {decl : ModelDecl} {e : Entity} (hls : Lexes 0 source ls)
    (h : decl.IsEnclosed (ofLexemes ls)) (he : decl.elaborate source = .ok e) :
    decl.Declares source e := by
  obtain ⟨name, hname, he⟩ := bind_eq_ok he
  obtain ⟨superTypes, hsupers, he⟩ := bind_eq_ok he
  obtain ⟨fields, hfields, he⟩ := bind_eq_ok he
  cases he
  refine ⟨Located.ident_eq_ok.mp hname, rfl, ?_, ?_, ?_⟩
  . symm
    rw [← List.forall₂_eq_eq_eq, List.forall₂_map_left_iff, List.forall₂_map_right_iff]
    exact (mapM_eq_ok.mp hsupers).imp fun _ _ hsuper => (Located.ident_eq_ok.mp hsuper).symm
  . have := (List.forall₂_and_left _ _).mpr ⟨h.fields, mapM_eq_ok.mp hfields⟩
    exact this.imp fun _ _ hfield => FieldDecl.declares_of_elaborate hls hfield.1 hfield.2
  . exact AttributeDecl.declares_map_elaborate hls h.attributes

end Declares

structure ModelDecl.HasIdentifiers (decl : ModelDecl) : Prop where
  name : IsIdentifier decl.name.value
  fields : ∀ field ∈ decl.fields, IsIdentifier field.name.value

theorem Located.exists_ident {name : Located String} (h : IsIdentifier name.value) :
    ∃ ident, name.ident = .ok ident :=
  ⟨⟨name.value, isIdent_iff.mpr h⟩, ident_eq_ok.mpr rfl⟩

theorem ModelDecl.exists_elaborate (source : List Char) {decl : ModelDecl} (h : decl.HasIdentifiers)
    (hsupers : ∀ superType ∈ decl.superTypes, IsIdentifier superType.value) :
    ∃ e, decl.elaborate source = .ok e := by
  obtain ⟨name, hname⟩ := Located.exists_ident h.name
  obtain ⟨superTypes, hsupers⟩ := exists_mapM fun superType hsuper =>
    Located.exists_ident (hsupers superType hsuper)
  have hfield : ∀ field ∈ decl.fields, ∃ f, field.elaborate source = .ok f := by
    intro field hfield
    obtain ⟨name, hname⟩ := Located.exists_ident (h.fields field hfield)
    unfold FieldDecl.elaborate
    rw [hname]
    exact ⟨_, rfl⟩
  obtain ⟨fields, hfields⟩ := exists_mapM hfield
  unfold elaborate
  rw [hname, hsupers, hfields]
  exact ⟨_, rfl⟩

end Delegation
