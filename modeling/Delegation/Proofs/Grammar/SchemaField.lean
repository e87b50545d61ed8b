import Delegation.Proofs.Composition
import Delegation.Proofs.SchemaText
import Delegation.Schema.Parser

/-!
This module contains that fields and attributes are read as they are written.
-/

namespace Delegation

open Item Lexeme

theorem isBalanced_shift {ls : List Lexeme} (h : IsBalanced (Item.ofLexemes ls)) (gap : Gap)
    (offset : Nat) : IsBalanced (itemsFrom gap (ls.map (Lexeme.shift offset))) := by
  have htokens : (itemsFrom gap (ls.map (Lexeme.shift offset))).map Item.token
      = (itemsFrom .empty ls).map Item.token := by
    rw [map_token_itemsFrom, map_token_itemsFrom, List.map_map]
    rfl
  exact (nest?_congr htokens []).trans h

theorem isAttached_ofLexeme (start : Nat) (token : Token) (text : List Char) :
    (ofLexeme .empty ⟨start, token, text⟩).isAttached token = true := by
  simp [isAttached, ofLexeme, Gap.empty]

def IsFree (token : Token) (items : List Item) : Prop :=
  ∀ item ∈ items.head?, item.isAttached token = false

theorem IsApart.isFree {items : List Item} (h : IsApart items) (token : Token) :
    IsFree token items := by
  intro item hitem
  rw [isAttached, h item hitem, Bool.false_and]

section

variable {source front rest : List Char} {items : List Item}

theorem exists_path (parts : List Identifier)
    (h : Yields source (front ++ renderParts parts) .empty rest items) (hends : EndsName rest)
    (hfree : IsFree (.sign .dot) items) :
    ∃ more, Yields source front .empty (renderParts parts ++ rest) more
      ∧ EndsName (renderParts parts ++ rest)
      ∧ ∀ name, Leaves items
          (fun path => path.value.toList = name.value.toList ++ renderParts parts)
          (parseAttributePath name more) := by
  induction parts generalizing front with
  | nil =>
    rw [renderParts, List.flatMap_nil, List.append_nil] at h
    refine ⟨items, h, hends, ?_⟩
    intro name
    cases items with
    | nil =>
      rw [parseAttributePath]
      exact .leaving (by simp [renderParts])
    | cons item items =>
      rw [parseAttributePath, if_neg (by simp [hfree item rfl])]
      exact .leaving (by simp [renderParts])
  | cons part parts ih =>
    have htext : renderParts (part :: parts) = '.' :: (part.name.toList ++ renderParts parts) := rfl
    rw [htext] at h ⊢
    obtain ⟨more, hmore, hends', hpath⟩ :=
      @ih (front ++ ['.'] ++ part.name.toList) (by simpa using h)
    rw [List.cons_append, List.append_assoc]
    refine ⟨_, (hmore.name part.isName hends').char rfl (part.isName.endsBefore _ (by simp)) rfl,
      endsName_cons _ (by decide), ?_⟩
    intro name
    rw [parseAttributePath, if_pos (isAttached_ofLexeme ..)]
    apply (leaves_parseName rfl).bind
    intro located hlt hlocated
    apply (hpath _).bind
    intro path hlt' hvalue
    refine ⟨path, _, rfl, ?_⟩
    simp only [hvalue, hlocated, String.toList_append]
    simp

theorem leaves_parseArguments_none (hfree : IsFree (.opening .paren) items) :
    Leaves items (fun spans => spans = none) (parseArguments items) := by
  cases items with
  | nil =>
    rw [parseArguments]
    exact .leaving rfl
  | cons item items =>
    rw [parseArguments, if_neg (by simp [hfree item rfl])]
    exact .leaving rfl

theorem exists_arguments (args : Option ArgumentText)
    (h : Yields source (front ++ renderArguments args) .empty rest items) (hends : EndsName rest)
    (hapart : IsApart items) :
    ∃ more, Yields source front .empty (renderArguments args ++ rest) more
      ∧ EndsName (renderArguments args ++ rest) ∧ IsFree (.sign .dot) more
      ∧ Leaves items
          (fun spans => (spans.map fun (opening, closing) =>
              Span.slice? ⟨opening.stop, closing.start⟩ source)
            = args.map fun args => some args.text)
          (parseArguments more) := by
  cases args with
  | none =>
    rw [renderArguments, List.append_nil] at h
    refine ⟨items, h, hends, hapart.isFree _, ?_⟩
    apply (leaves_parseArguments_none (hapart.isFree _)).mono
    rintro spans rfl
    rfl
  | some args =>
    have h : Yields source (front ++ ['('] ++ args.text ++ [')']) .empty rest items := by
      simpa [renderArguments] using h
    have hinner : Yields source (front ++ ['(']) .empty (args.text ++ ')' :: rest) _ :=
      (h.char rfl rfl rfl).text (tokenize_eq_ok.mp args.tokenize_text) (by decide)
        (.inr args.isOver)
    have htext : renderArguments (some args) ++ rest = '(' :: (args.text ++ ')' :: rest) := by
      simp [renderArguments]
    rw [htext]
    refine ⟨_, hinner.char rfl rfl rfl, endsName_cons _ (by decide), ?_, ?_⟩
    . intro item hitem
      cases hitem
      rfl
    . rw [parseArguments, if_pos (isAttached_ofLexeme ..)]
      apply ((isBalanced_shift args.isBalanced _ _).leaves_skipGroup rfl).bind
      rintro closer hlt rfl
      refine ⟨_, _, rfl, ?_⟩
      have hslice := Span.slice?_append (front ++ ['(']) args.text (')' :: rest)
      rw [← hinner.source_eq] at hslice
      simp only [Option.map_some, Option.some.injEq]
      rw [← hslice]
      simp [ofLexeme, Lexeme.span, Lexeme.stop, Parsed.loosen, Nat.add_assoc]

theorem exists_attribute (a : AttributeText)
    (h : Yields source (front ++ a.render) .empty rest items) (hends : EndsName rest)
    (hapart : IsApart items) :
    ∃ more, Yields source front .empty (a.render ++ rest) more
      ∧ ∀ sigil start, Leaves items (a.IsReadAs source sigil) (parseAttribute sigil start more) := by
  have h : Yields source (front ++ a.name.name.toList ++ renderParts a.parts
      ++ renderArguments a.args) .empty rest items := by
    simpa [AttributeText.render, AttributeText.path] using h
  obtain ⟨more, hmore, hends, hfree, hargs⟩ := exists_arguments a.args h hends hapart
  obtain ⟨more', hmore', hends, hpath⟩ := exists_path a.parts hmore hends hfree
  rw [AttributeText.render, AttributeText.path, List.append_assoc, List.append_assoc]
  refine ⟨_, hmore'.name a.name.isName hends, ?_⟩
  intro sigil start
  apply (leaves_parseName rfl).bind
  intro first hlt hfirst
  apply (hpath ⟨sigil ++ first.value, ⟨start, first.span.stop⟩⟩).andMaybe.bind
  intro name hlt' hname
  apply hargs.andMaybe.bind
  intro args hlt'' hargs
  refine ⟨_, _, rfl, ?_⟩
  rw [hfirst, String.toList_append, List.append_assoc] at hname
  cases args with
  | none => exact ⟨hname, hargs⟩
  | some spans => exact ⟨hname, hargs⟩

theorem exists_attributes (attributes : List AttributeText)
    (h : Yields source (front ++ AttributeText.renderAll attributes) .empty rest items)
    (hends : EndsName rest) (hapart : IsApart items) (hline : BeginsLine items) :
    ∃ more, Yields source front .empty (AttributeText.renderAll attributes ++ rest) more
      ∧ EndsName (AttributeText.renderAll attributes ++ rest) ∧ IsApart more
      ∧ Leaves items (List.Forall₂ (AttributeText.IsReadAs source "@") attributes)
          (parseFieldAttributes more) := by
  induction attributes generalizing front with
  | nil =>
    rw [AttributeText.renderAll, List.flatMap_nil, List.append_nil] at h
    refine ⟨items, h, hends, hapart, ?_⟩
    cases items with
    | nil =>
      rw [parseFieldAttributes]
      exact .leaving .nil
    | cons item items =>
      rw [parseFieldAttributes, if_pos (by simp [hline item rfl])]
      exact .leaving .nil
  | cons a attributes ih =>
    have htext : AttributeText.renderAll (a :: attributes)
        = ' ' :: '@' :: (a.render ++ AttributeText.renderAll attributes) := rfl
    rw [htext] at h ⊢
    obtain ⟨more, hmore, hends', hapart', hattributes⟩ :=
      @ih (front ++ [' '] ++ ['@'] ++ a.render) (by simpa using h)
    obtain ⟨more', hmore', hattribute⟩ := exists_attribute a hmore hends' hapart'
    have hat : Token.endsBefore (a.render ++ (AttributeText.renderAll attributes ++ rest))
        (.sign .atSign) = true := by
      rw [AttributeText.render, AttributeText.path, List.append_assoc, List.append_assoc]
      exact a.name.isName.endsBefore _ (by simp)
    have hblank : Yields source front .empty _ _ := (hmore'.char rfl hat rfl).blank rfl
    simp only [List.cons_append, List.append_assoc] at hblank ⊢
    refine ⟨_, hblank, endsName_cons _ (by decide), ?_, ?_⟩
    . intro item hitem
      cases hitem
      rfl
    rw [parseFieldAttributes, if_neg (by simp [ofLexeme, Gap.push, Gap.empty]),
      if_pos (by simp [ofLexeme])]
    apply (hattribute _ _).bind
    intro decl hlt hdecl
    apply hattributes.bind
    intro decls hlt' hdecls
    exact ⟨_, _, rfl, .cons hdecl hdecls⟩

theorem exists_questionMark (isOptional : Bool)
    (h : Yields source (front ++ FieldText.questionMark isOptional) .empty rest items)
    (hends : EndsName rest) (hapart : IsApart items) :
    ∃ more, Yields source front .empty (FieldText.questionMark isOptional ++ rest) more
      ∧ EndsName (FieldText.questionMark isOptional ++ rest)
      ∧ (∀ d, IsFree (.opening d) more)
      ∧ (optionalType more).value = isOptional ∧ (optionalType more).rest = items := by
  cases isOptional with
  | false =>
    have h : Yields source front .empty rest items := by
      simpa [FieldText.questionMark] using h
    refine ⟨items, h, hends, fun d => hapart.isFree _, ?_⟩
    cases items with
    | nil => exact ⟨rfl, rfl⟩
    | cons item items =>
      simp only [optionalType, hapart.isFree _ item rfl]
      exact ⟨rfl, rfl⟩
  | true =>
    have h : Yields source (front ++ ['?']) .empty rest items := by
      simpa [FieldText.questionMark] using h
    refine ⟨_, h.char rfl rfl rfl, endsName_cons _ (by decide), ?_, ?_⟩
    . intro d item hitem
      cases hitem
      simp [isAttached, ofLexeme]
    . simp only [optionalType, isAttached_ofLexeme, if_true]
      exact ⟨rfl, rfl⟩

theorem exists_arrayMark (isArray : Bool)
    (h : Yields source (front ++ FieldText.arrayMark isArray) .empty rest items)
    (hends : EndsName rest) (hfree : ∀ d, IsFree (.opening d) items) :
    ∃ more, Yields source front .empty (FieldText.arrayMark isArray ++ rest) more
      ∧ EndsName (FieldText.arrayMark isArray ++ rest) ∧ IsFree (.opening .paren) more
      ∧ Leaves items (fun found => found = isArray) (parseArrayMark more) := by
  cases isArray with
  | false =>
    have h : Yields source front .empty rest items := by
      simpa [FieldText.arrayMark] using h
    refine ⟨items, h, hends, hfree _, ?_⟩
    cases items with
    | nil => exact .leaving rfl
    | cons item items =>
      simp only [parseArrayMark, hfree _ item rfl]
      exact .leaving rfl
  | true =>
    have h : Yields source (front ++ ['['] ++ [']']) .empty rest items := by
      simpa [FieldText.arrayMark] using h
    have hclose : Yields source (front ++ ['[']) .empty (']' :: rest) _ := h.char rfl rfl rfl
    refine ⟨_, hclose.char rfl rfl rfl, endsName_cons _ (by decide), ?_, ?_⟩
    . intro item hitem
      cases hitem
      simp [isAttached, ofLexeme]
    . simp only [parseArrayMark, isAttached_ofLexeme, if_true]
      refine (leaves_parseToken ?_).bind ?_
      . rfl
      . intro close hlt _
        exact ⟨_, _, rfl, rfl⟩

theorem exists_field (f : FieldText) (h : Yields source (front ++ f.render) .empty rest items)
    (hends : EndsName rest) (hapart : IsApart items) (hline : BeginsLine items) (gap : Gap) :
    ∃ item more, Yields source front gap (f.render ++ rest) (item :: more)
      ∧ item.token = .identifier f.name.name
      ∧ Leaves items (f.IsReadAs source) (parseField (item :: more)) := by
  have h : Yields source (front ++ f.name.name.toList ++ [' '] ++ f.typeName.name.toList
      ++ FieldText.arrayMark f.isArray ++ FieldText.questionMark f.isOptional
      ++ AttributeText.renderAll f.attributes) .empty rest items := by
    simpa [FieldText.render] using h
  obtain ⟨more₁, h₁, hends, hapart, hattributes⟩ :=
    exists_attributes f.attributes h hends hapart hline
  obtain ⟨more₂, h₂, hends, hfree, hoptional⟩ := exists_questionMark f.isOptional h₁ hends hapart
  obtain ⟨more₃, h₃, hends, hfree, harray⟩ := exists_arrayMark f.isArray h₂ hends hfree
  have hblank : Yields source (front ++ f.name.name.toList) .empty _ _ :=
    (h₃.name f.typeName.isName hends).blank (f.typeName.isName.endsBefore _ (by simp))
  have hname : Yields source front gap _ _ := hblank.name f.name.isName (endsName_cons _ (by decide))
  have htext : f.render ++ rest = f.name.name.toList ++ ' ' :: (f.typeName.name.toList
      ++ (FieldText.arrayMark f.isArray ++ (FieldText.questionMark f.isOptional
        ++ (AttributeText.renderAll f.attributes ++ rest)))) := by
    simp [FieldText.render]
  rw [htext]
  refine ⟨_, _, hname, rfl, ?_⟩
  apply (leaves_parseName rfl).bind
  intro name hlt₁ hname
  have htype : ∀ {item : Item}, item.token = .identifier f.typeName.name →
      item.isOnNewLine = false → Leaves more₃ (fun located => located.value = f.typeName.name)
        (parseFieldType (item :: more₃)) := by
    intro item hitem hline
    rw [parseFieldType, if_neg (by simp [hline])]
    exact leaves_parseName hitem
  apply (htype rfl rfl).andThen.bind
  intro typeName hlt₂ htypeName
  apply (leaves_parseArguments_none hfree).andMaybe.bind
  intro args hlt₃ _
  apply harray.andMaybe.bind
  intro isArray hlt₄ hisArray
  rw [← hoptional.2] at hattributes
  have hattributes : Leaves items _
      (parseFieldAttributes (Parsed.onward ⟨isArray, more₂, hlt₄⟩ optionalType).rest) :=
    hattributes
  apply hattributes.andMaybe.bind
  intro attributes hlt₅ hattributes
  exact ⟨_, _, rfl, hname, htypeName, hisArray, hoptional.1, hattributes⟩

end

end Delegation
