import Delegation.Proofs.Grammar.SchemaField

/-!
This module contains that models are read as they are written: the lines between their braces, what
they extend and their name.
-/

namespace Delegation

open Item Lexeme

theorem isName_extends : IsName "extends" :=
  isName_of_check (by decide +kernel)

theorem isName_model : IsName "model" :=
  isName_of_check (by decide +kernel)

theorem isName_abstract : IsName "abstract" :=
  isName_of_check (by decide +kernel)

section

variable {source front rest : List Char} {items : List Item}

theorem exists_body (body : List BodyLine)
    (h : Yields source (front ++ body.flatMap BodyLine.render ++ ['}']) .empty rest items)
    (gap : Gap) :
    ∃ more, Yields source front gap (body.flatMap BodyLine.render ++ '}' :: rest) more
      ∧ ∀ opening, Leaves items
          (fun decls => List.Forall₂ (FieldText.IsReadAs source) (body.filterMap BodyLine.field?) decls.1
            ∧ List.Forall₂ (AttributeText.IsReadAs source "@@")
              (body.filterMap BodyLine.attribute?) decls.2.1)
          (parseModelBody opening more) := by
  induction body generalizing front gap with
  | nil =>
    rw [List.flatMap_nil, List.append_nil] at h
    refine ⟨_, h.char rfl rfl rfl, ?_⟩
    intro opening
    rw [parseModelBody]
    exact .leaving ⟨.nil, .nil⟩
  | cons line body ih =>
    cases line with
    | field f =>
      have htext : (BodyLine.field f :: body).flatMap BodyLine.render
          = [' ', ' '] ++ (f.render ++ '\n' :: body.flatMap BodyLine.render) := by
        simp [BodyLine.render]
      rw [htext] at h ⊢
      obtain ⟨more, hmore, hbody⟩ :=
        @ih (front ++ [' ', ' '] ++ f.render ++ ['\n']) (by simpa using h)
          (Gap.empty.push ⟨_, .newline, ['\n']⟩)
      obtain ⟨item, more', hmore', hitem, hfield⟩ :=
        exists_field f hmore.newline (endsName_cons _ (by decide)) (hmore.isApart rfl)
          (hmore.beginsLine rfl) (gap.push ⟨byteLength front, .whitespace, [' ', ' ']⟩)
      have hends : Token.whitespace.endsBefore
          (f.render ++ '\n' :: (body.flatMap BodyLine.render ++ '}' :: rest)) = true := by
        rw [FieldText.render, List.append_assoc]
        exact f.name.isName.endsBefore _ (by simp)
      refine ⟨item :: more', by simpa using hmore'.indent hends, ?_⟩
      intro opening
      rw [parseModelBody]
      simp only [hitem]
      apply hfield.bind
      intro decl hlt hdecl
      apply (hbody opening).bind
      intro decls hlt' hdecls
      exact ⟨_, _, rfl, .cons hdecl hdecls.1, hdecls.2⟩
    | modelAttribute a =>
      have htext : (BodyLine.modelAttribute a :: body).flatMap BodyLine.render
          = [' ', ' '] ++ (['@', '@'] ++ (a.render ++ '\n' :: body.flatMap BodyLine.render)) := by
        simp [BodyLine.render]
      rw [htext] at h ⊢
      obtain ⟨more, hmore, hbody⟩ :=
        @ih (front ++ [' ', ' '] ++ ['@', '@'] ++ a.render ++ ['\n']) (by simpa using h)
          (Gap.empty.push ⟨_, .newline, ['\n']⟩)
      obtain ⟨more', hmore', hattribute⟩ :=
        exists_attribute a hmore.newline (endsName_cons _ (by decide)) (hmore.isApart rfl)
      have hline : Yields source front gap _ _ := (hmore'.token .doubleAt rfl rfl).indent rfl
      refine ⟨_, by simpa using hline, ?_⟩
      intro opening
      rw [parseModelBody]
      apply (hattribute _ _).bind
      intro decl hlt hdecl
      apply (hbody opening).bind
      intro decls hlt' hdecls
      exact ⟨_, _, rfl, hdecls.1, .cons hdecl hdecls.2⟩

theorem exists_superTypes (name : Identifier) (names : List Identifier)
    (h : Yields source (front ++ name.name.toList ++ renderMoreSupers names) .empty rest items)
    (hends : EndsName rest) (hcomma : takeToken? (.sign .comma) items = none) (gap : Gap) :
    ∃ more, Yields source front gap (name.name.toList ++ (renderMoreSupers names ++ rest)) more
      ∧ Leaves items (fun found => found.map (·.value) = name.name :: names.map (·.name))
          (parseSuperTypes more) := by
  induction names generalizing front name gap with
  | nil =>
    rw [renderMoreSupers, List.flatMap_nil, List.append_nil] at h
    refine ⟨_, h.name name.isName hends, ?_⟩
    rw [parseSuperTypes]
    apply (leaves_parseName rfl).bind
    intro located hlt hlocated
    simp only [hcomma]
    exact ⟨_, _, rfl, by simp [hlocated]⟩
  | cons next names ih =>
    have htext : renderMoreSupers (next :: names)
        = ',' :: ' ' :: (next.name.toList ++ renderMoreSupers names) := rfl
    rw [htext] at h ⊢
    obtain ⟨more, hmore, hnames⟩ := @ih (front ++ name.name.toList ++ [','] ++ [' ']) next
      (by simpa using h)
      (Gap.empty.push ⟨_, .whitespace, [' ']⟩)
    have hblank := hmore.blank (next.isName.endsBefore _ (by simp))
    have hname : Yields source front gap _ _ :=
      (hblank.char rfl rfl rfl).name name.isName (endsName_cons _ (by decide))
    rw [List.cons_append, List.cons_append, List.append_assoc]
    refine ⟨_, hname, ?_⟩
    rw [parseSuperTypes]
    apply (leaves_parseName rfl).bind
    intro located hlt hlocated
    simp only [takeToken?, ofLexeme, if_true]
    apply hnames.bind
    intro found hlt' hfound
    refine ⟨_, _, rfl, ?_⟩
    show located.value :: found.map (·.value) = _
    rw [hlocated, hfound]
    rfl

theorem exists_extends (names : List Identifier) {brace : Item}
    (h : Yields source (front ++ renderSupers names) .empty rest (brace :: items))
    (hends : EndsName rest) (hbrace : brace.token = .opening .brace) :
    ∃ more, Yields source front .empty (renderSupers names ++ rest) more
      ∧ EndsName (renderSupers names ++ rest)
      ∧ Leaves (brace :: items) (fun found => found.map (·.value) = names.map (·.name))
          (parseExtends more) := by
  cases names with
  | nil =>
    rw [renderSupers, List.append_nil] at h
    refine ⟨_, h, hends, ?_⟩
    rw [parseExtends, if_neg (by simp [hbrace, Token.isWord])]
    exact .leaving rfl
  | cons name names =>
    have h : Yields source (front ++ [' '] ++ "extends".toList ++ [' '] ++ name.name.toList
        ++ renderMoreSupers names) .empty rest (brace :: items) := by
      simpa [renderSupers] using h
    obtain ⟨more, hmore, hnames⟩ := exists_superTypes name names h hends
      (by simp [takeToken?, hbrace])
      (Gap.empty.push ⟨_, .whitespace, [' ']⟩)
    have hblank := hmore.blank (name.isName.endsBefore _ (by simp))
    have hword : Yields source front .empty _ _ :=
      (hblank.name isName_extends (endsName_cons _ (by decide))).blank
        (isName_extends.endsBefore _ (by simp))
    refine ⟨_, by simpa [renderSupers] using hword, endsName_cons _ (by decide), ?_⟩
    rw [parseExtends, if_pos (by simp [ofLexeme, Token.isWord])]
    obtain ⟨found, hlt, hfound, hvalue⟩ := hnames
    rw [hfound]
    exact ⟨found, _, rfl, hvalue⟩

theorem exists_modelRest (m : ModelText)
    (h : Yields source (front ++ m.renderRest) .empty rest items) :
    ∃ more, Yields source front .empty (m.renderRest ++ rest) more
      ∧ ∀ start, Leaves items (m.IsReadAs source) (parseModel start m.isAbstract more) := by
  have h : Yields source (front ++ [' '] ++ m.name.name.toList ++ renderSupers m.superTypes
      ++ [' '] ++ ['{'] ++ ['\n'] ++ m.body.flatMap BodyLine.render ++ ['}']) .empty rest items := by
    simpa [ModelText.renderRest] using h
  obtain ⟨more₁, h₁, hbody⟩ := exists_body m.body h (Gap.empty.push ⟨_, .newline, ['\n']⟩)
  have hopen : Yields source _ .empty _ _ := (h₁.newline.char rfl rfl rfl).blank rfl
  obtain ⟨more₂, h₂, hends, hextends⟩ :=
    exists_extends m.superTypes hopen (endsName_cons _ (by decide)) rfl
  have hname : Yields source front .empty _ _ :=
    (h₂.name m.name.isName hends).blank (m.name.isName.endsBefore _ (by simp))
  refine ⟨_, by simpa [ModelText.renderRest] using hname, ?_⟩
  intro start
  apply (leaves_parseName rfl).bind
  intro name hlt₁ hname
  apply hextends.andMaybe.bind
  intro supers hlt₂ hsupers
  apply (leaves_parseToken rfl).andThen.bind
  intro opening hlt₃ _
  apply (hbody _).andThen.bind
  intro decls hlt₄ hdecls
  exact ⟨_, _, rfl, rfl, hname, hsupers, hdecls.1, hdecls.2⟩

end

end Delegation
