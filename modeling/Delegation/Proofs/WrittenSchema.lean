import Delegation.Proofs.Grammar.SchemaModel

/-!
This module contains that a schema is read as it is written: its models in their order, and nothing
of what stands between them.
-/

namespace Delegation

open Item Lexeme

theorem leaves_skipBlock {header inner rest : List Item} {opener closer : Item}
    (hheader : ∀ item ∈ header, item.isOnNewLine = false ∧ (∀ d, item.token ≠ .opening d)
      ∧ ∀ d, item.token ≠ .closing d)
    (hopener : opener.token = .opening .brace) (hline : opener.isOnNewLine = false)
    (hinner : IsBalanced inner) (hcloser : closer.token = .closing .brace) :
    Leaves rest (fun _ => True) (skipBlock (header ++ opener :: (inner ++ closer :: rest))) := by
  induction header with
  | nil =>
    rw [List.nil_append, skipBlock, if_neg (by simp [hline])]
    simp only [hopener]
    apply (hinner.leaves_skipGroup hcloser).bind
    intro found hlt _
    exact ⟨_, _, rfl, trivial⟩
  | cons item header ih =>
    obtain ⟨hitem, hopening, hclosing⟩ := hheader item (.head _)
    rw [List.cons_append, skipBlock, if_neg (by simp [hitem])]
    split
    . next d hd => exact absurd hd (hopening d)
    . next d hd => exact absurd hd (hclosing d)
    . exact (ih fun x hx => hheader x (.tail _ hx)).loosen

theorem schemaItem_model {item : Item} (more : List Item) (h : item.token = .identifier "model") :
    schemaItem item more = .model false (.leaving item more) := by
  simp [schemaItem, h, Token.isWord]

theorem schemaItem_abstract {item keyword : Item} (more : List Item)
    (h : item.token = .identifier "abstract") (hkeyword : keyword.token = .identifier "model") :
    schemaItem item (keyword :: more) = .model true (Parsed.leaving keyword more).loosen := by
  simp [schemaItem, h, hkeyword, Token.isWord, takeToken?]

/-!
What one part of a schema does to the models that were read before it.
-/

theorem parseModels_model {acc : List ModelDecl} {item : Item} {more rest : List Item}
    {isAbstract : Bool} {keyword : Parsed Item Item (more.length + 1)} {P : ModelDecl → Prop}
    (hitem : schemaItem item more = .model isAbstract keyword)
    (h : Leaves rest P (parseModel item.span.start isAbstract keyword.rest)) :
    ∃ decl, P decl ∧ parseModels acc (item :: more) = parseModels (decl :: acc) rest := by
  obtain ⟨decl, hlt, hdecl, hP⟩ := h
  refine ⟨decl, hP, ?_⟩
  rw [parseModels]
  simp only [hitem, hdecl]
  rfl

theorem parseModels_importLine {acc : List ModelDecl} {item : Item} {more rest : List Item}
    (hitem : item.token = .identifier "import") (hmore : ∀ x ∈ more, x.isOnNewLine = false)
    (hrest : BeginsLine rest) :
    parseModels acc (item :: (more ++ rest)) = parseModels acc rest := by
  have hform : schemaItem item (more ++ rest) = .importLine := by
    simp [schemaItem, hitem, Token.isWord]
  have hdrop : (more ++ rest).dropWhile (!·.isOnNewLine) = rest := by
    rw [List.dropWhile_append_of_pos (by simpa using hmore)]
    cases rest with
    | nil => rfl
    | cons x rest => simp [hrest x rfl]
  rw [parseModels]
  simp only [hform, Parsed.span, hdrop]

theorem parseModels_block {acc : List ModelDecl} {item : Item} {more rest : List Item}
    {name : String} (hitem : item.token = .identifier name)
    (hname : name ∉ ["model", "abstract", "import"])
    (h : Leaves rest (fun _ => True) (skipBlock more)) :
    parseModels acc (item :: more) = parseModels acc rest := by
  have hform : schemaItem item more = .block := by
    simp only [List.mem_cons, List.not_mem_nil, or_false, not_or] at hname
    simp [schemaItem, hitem, Token.isWord, Token.isIdentifier, hname]
  obtain ⟨_, hlt, hskip, _⟩ := h
  rw [parseModels]
  simp only [hform, hskip]
  rfl

section

variable {source front rest : List Char} {items : List Item}

theorem exists_model (m : ModelText) (h : Yields source (front ++ m.render) .empty rest items)
    (gap : Gap) :
    ∃ more, Yields source front gap (m.render ++ rest) more
      ∧ ∀ acc, ∃ decl, m.IsReadAs source decl
        ∧ parseModels acc more = parseModels (decl :: acc) items := by
  cases hisAbstract : m.isAbstract with
  | false =>
    have htext : m.render = "model".toList ++ m.renderRest := by
      simp [ModelText.render, hisAbstract]
    rw [htext] at h ⊢
    obtain ⟨more, hmore, hmodel⟩ := @exists_modelRest source (front ++ "model".toList) _ _ m
      (by simpa using h)
    rw [hisAbstract] at hmodel
    have hword : Yields source front gap _ _ :=
      hmore.name isName_model (endsName_cons _ (by decide))
    refine ⟨_, by simpa using hword, ?_⟩
    intro acc
    exact parseModels_model (schemaItem_model _ rfl) (hmodel _)
  | true =>
    have htext : m.render = "abstract".toList ++ ' ' :: ("model".toList ++ m.renderRest) := by
      simp [ModelText.render, hisAbstract]
    rw [htext] at h ⊢
    obtain ⟨more, hmore, hmodel⟩ := @exists_modelRest source
      (front ++ "abstract".toList ++ [' '] ++ "model".toList) _ _ m (by simpa using h)
    rw [hisAbstract] at hmodel
    have hkeyword : Yields source (front ++ "abstract".toList) .empty _ _ :=
      (hmore.name isName_model (endsName_cons _ (by decide))).blank
        (isName_model.endsBefore _ (by simp))
    have hword : Yields source front gap _ _ :=
      hkeyword.name isName_abstract (endsName_cons _ (by decide))
    refine ⟨_, by simpa using hword, ?_⟩
    intro acc
    exact parseModels_model (schemaItem_abstract _ rfl rfl) (hmodel _)

theorem yields_comment (c : CommentText) {gap : Gap}
    (h : Yields source (front ++ c.text)
      (gap.after (c.lexemes.map (Lexeme.shift (byteLength front)))) ('\n' :: rest) items) :
    Yields source front gap (c.text ++ '\n' :: rest) items := by
  have htext := h.text (tokenize_eq_ok.mp c.tokenize_text) (by decide) (.inl rfl)
  rw [itemsFrom_eq_nil (by simpa using c.isTrivia), List.nil_append] at htext
  exact htext

theorem exists_importLine (i : ImportText) {gap : Gap}
    (h : Yields source (front ++ i.text)
      (gap.after ((i.keyword :: i.more).map (Lexeme.shift (byteLength front))))
      ('\n' :: rest) items)
    (hline : BeginsLine items) :
    ∃ more, Yields source front gap (i.text ++ '\n' :: rest) more
      ∧ ∀ acc, parseModels acc more = parseModels acc items := by
  have htext := h.text (tokenize_eq_ok.mp i.tokenize_text) (by decide) (.inl rfl)
  have hkeyword : (i.keyword.shift (byteLength front)).token.isTrivia = false := by
    simp [i.isKeyword, Token.isTrivia]
  rw [List.map_cons, itemsFrom_cons_item _ hkeyword, List.cons_append] at htext
  refine ⟨_, htext, ?_⟩
  intro acc
  exact parseModels_importLine i.isKeyword
    (isOnNewLine_eq_false rfl (by simpa using i.isOneLine)) hline

theorem exists_block (b : BlockText) {gap : Gap}
    (h : Yields source (front ++ b.text)
      (gap.after ((b.word :: (b.header ++ b.opener :: (b.body ++ [b.closer]))).map
        (Lexeme.shift (byteLength front)))) ('\n' :: rest) items) :
    ∃ more, Yields source front gap (b.text ++ '\n' :: rest) more
      ∧ ∀ acc, parseModels acc more = parseModels acc items := by
  have htext := h.text (tokenize_eq_ok.mp b.tokenize_text) (by decide) (.inl rfl)
  generalize byteLength front = offset at htext
  have hword : (b.word.shift offset).token.isTrivia = false := by
    simp [b.isWord, Token.isTrivia]
  have hopener : (b.opener.shift offset).token.isTrivia = false := by
    simp [b.isOpener, Token.isTrivia]
  have hcloser : (b.closer.shift offset).token.isTrivia = false := by
    simp [b.isCloser, Token.isTrivia]
  simp only [List.map_cons, List.map_append, List.map_nil, itemsFrom_append,
    itemsFrom_cons_item _ hword, itemsFrom_cons_item _ hopener, itemsFrom_cons_item _ hcloser,
    itemsFrom_nil, List.cons_append, List.append_assoc, List.nil_append] at htext
  have hheader : ∀ l ∈ b.header.map (Lexeme.shift offset), l.token ≠ .newline
      ∧ (∀ d, l.token ≠ .opening d) ∧ ∀ d, l.token ≠ .closing d := by
    simpa using b.isHeader
  have hline : ∀ item ∈ itemsFrom .empty (b.header.map (Lexeme.shift offset)
      ++ [b.opener.shift offset]), item.isOnNewLine = false := by
    apply isOnNewLine_eq_false rfl
    intro l hl
    rcases List.mem_append.mp hl with hl | hl
    . exact (hheader l hl).1
    . rw [List.mem_singleton.mp hl, Lexeme.token_shift, b.isOpener]
      simp
  rw [itemsFrom_append, itemsFrom_cons_item _ hopener] at hline
  refine ⟨_, htext, ?_⟩
  intro acc
  apply parseModels_block b.isWord b.isForeign
  apply leaves_skipBlock _ b.isOpener _ (isBalanced_shift b.isBalanced _ _) b.isCloser
  . intro item hitem
    obtain ⟨l, hl, htoken, _⟩ := exists_lexeme_of_mem_itemsFrom hitem
    rw [← htoken]
    exact ⟨hline item (List.mem_append_left _ hitem), (hheader l hl).2⟩
  . exact hline _ (by simp)

theorem exists_parts (parts : List SchemaPart)
    (hsource : source = front ++ SchemaPart.renderAll parts) (gap : Gap) :
    ∃ items, Yields source front gap (SchemaPart.renderAll parts) items
      ∧ ∀ acc, ∃ models, parseModels acc items = .ok (acc.reverse ++ models)
        ∧ List.Forall₂ (ModelText.IsReadAs source) (parts.filterMap SchemaPart.model?) models := by
  induction parts generalizing front gap with
  | nil =>
    rw [SchemaPart.renderAll, List.flatMap_nil, List.append_nil] at hsource
    subst hsource
    refine ⟨[], .nil _ _, ?_⟩
    intro acc
    refine ⟨[], ?_, .nil⟩
    rw [parseModels, List.append_nil]
  | cons part parts ih =>
    have htext : SchemaPart.renderAll (part :: parts)
        = part.render ++ '\n' :: SchemaPart.renderAll parts := by
      simp [SchemaPart.renderAll]
    rw [htext] at hsource ⊢
    have ih := @ih (front ++ part.render ++ ['\n']) (by simp [hsource])
    -- A part that is no model leaves the models before it as they are.
    have skip : part.model? = none → ∀ {items : List Item},
        (∀ acc, ∃ models, parseModels acc items = .ok (acc.reverse ++ models)
          ∧ List.Forall₂ (ModelText.IsReadAs source) (parts.filterMap SchemaPart.model?) models) →
        ∀ {more : List Item}, (∀ acc, parseModels acc more = parseModels acc items) →
        ∀ acc, ∃ models, parseModels acc more = .ok (acc.reverse ++ models)
          ∧ List.Forall₂ (ModelText.IsReadAs source) ((part :: parts).filterMap SchemaPart.model?)
            models := by
      intro hpart items hitems more hmore acc
      rw [hmore, List.filterMap_cons_none hpart]
      exact hitems acc
    cases part with
    | model m =>
      obtain ⟨items, hitems, hmodels⟩ := ih (Gap.empty.push ⟨_, .newline, ['\n']⟩)
      obtain ⟨more, hmore, hmodel⟩ := exists_model m hitems.newline gap
      refine ⟨more, hmore, ?_⟩
      intro acc
      obtain ⟨decl, hdecl, hacc⟩ := hmodel acc
      obtain ⟨models, hmodels, hall⟩ := hmodels (decl :: acc)
      refine ⟨decl :: models, ?_, .cons hdecl hall⟩
      rw [hacc, hmodels, List.reverse_cons, List.append_assoc]
      rfl
    | comment c =>
      obtain ⟨items, hitems, hmodels⟩ := ih ((gap.after _).push ⟨_, .newline, ['\n']⟩)
      exact ⟨items, yields_comment c hitems.newline, skip rfl hmodels fun _ => rfl⟩
    | importLine i =>
      obtain ⟨items, hitems, hmodels⟩ := ih ((gap.after _).push ⟨_, .newline, ['\n']⟩)
      obtain ⟨more, hmore, hskip⟩ := exists_importLine i hitems.newline (hitems.beginsLine rfl)
      exact ⟨more, hmore, skip rfl hmodels hskip⟩
    | block b =>
      obtain ⟨items, hitems, hmodels⟩ := ih ((gap.after _).push ⟨_, .newline, ['\n']⟩)
      obtain ⟨more, hmore, hskip⟩ := exists_block b hitems.newline
      exact ⟨more, hmore, skip rfl hmodels hskip⟩

end

theorem exists_eq_singleton {α β : Type} {R : α → β → Prop} {a : α} {bs : List β}
    (h : List.Forall₂ R [a] bs) : ∃ b, bs = [b] ∧ R a b := by
  cases h with
  | cons h hnil =>
    cases hnil
    exact ⟨_, rfl, h⟩

/--
A schema that is written part by part is accepted, and its tree has the models that were written, in
their order and nothing else.
-/
theorem SchemaFile.parse_renderAll (parts : List SchemaPart) :
    ∃ file, SchemaFile.parse (SchemaPart.renderAll parts) = .ok file
      ∧ List.Forall₂ (ModelText.IsReadAs (SchemaPart.renderAll parts))
        (parts.filterMap SchemaPart.model?) file.models := by
  obtain ⟨items, ⟨_, ls, hls, hitems⟩, hmodels⟩ :=
    @exists_parts (SchemaPart.renderAll parts) [] parts rfl .empty
  obtain ⟨models, hmodels, hall⟩ := hmodels []
  refine ⟨⟨models⟩, ?_, hall⟩
  have hfile : SchemaFile.ofLexemes ls = .ok ⟨models⟩ := by
    have hmodels : parseModels [] (Item.ofLexemes ls) = .ok models :=
      (congrArg (parseModels []) hitems).trans hmodels
    rw [SchemaFile.ofLexemes, hmodels]
  rw [SchemaFile.parse, tokenize_eq_ok.mpr hls]
  simp only [bind, Except.bind, hfile]
  rfl

/--
A model is found among an import, a block with a comment in its body, and comments.
-/
theorem SchemaFile.parse_renderAll_among :
    let source := ("import \"base\"\nenum Kind \x7b // all\n  A\n\x7d\n// the asset\n".toList
      ++ "model Asset extends Base \x7b\n  tags String[]? @db.list(a[0])\n  @@map\n\x7d\n".toList)
    ∃ file decl field mapped listed, SchemaFile.parse source = .ok file ∧ file.models = [decl]
      ∧ decl.name.value = "Asset" ∧ decl.superTypes.map (·.value) = ["Base"]
      ∧ decl.fields = [field] ∧ decl.attributes = [mapped] ∧ field.attributes = [listed]
      ∧ field.name.value = "tags" ∧ field.isArray = true ∧ mapped.name.value.toList = "@@map".toList
      ∧ listed.name.value.toList = "@db.list".toList
      ∧ listed.args.map (Span.slice? · source) = some (some "a[0]".toList) := by
  intro source
  let imported : ImportText :=
    ⟨"import \"base\"".toList, ⟨0, .identifier "import", "import".toList⟩,
      [⟨6, .whitespace, [' ']⟩, ⟨7, .string "base", "\"base\"".toList⟩],
      by decide +kernel, rfl, by simp⟩
  let kind : BlockText :=
    ⟨"enum Kind \x7b // all\n  A\n\x7d".toList, "enum", ⟨0, .identifier "enum", "enum".toList⟩,
      [⟨4, .whitespace, [' ']⟩, ⟨5, .identifier "Kind", "Kind".toList⟩, ⟨9, .whitespace, [' ']⟩],
      ⟨10, .opening .brace, ['{']⟩,
      [⟨11, .whitespace, [' ']⟩, ⟨12, .lineComment " all", "// all".toList⟩, ⟨18, .newline, ['\n']⟩,
        ⟨19, .whitespace, [' ', ' ']⟩, ⟨21, .identifier "A", ['A']⟩, ⟨22, .newline, ['\n']⟩],
      ⟨23, .closing .brace, ['}']⟩, by decide +kernel, rfl, by decide, by simp, rfl,
      by decide +kernel, rfl⟩
  let comment : CommentText :=
    ⟨"// the asset".toList, [⟨0, .lineComment " the asset", "// the asset".toList⟩],
      by decide +kernel, by simp [Token.isTrivia]⟩
  let args : ArgumentText :=
    ⟨"a[0]".toList, [⟨0, .identifier "a", ['a']⟩, ⟨1, .opening .bracket, ['[']⟩,
      ⟨2, .number "0", ['0']⟩, ⟨3, .closing .bracket, [']']⟩], by decide +kernel, by decide +kernel,
      by simp⟩
  let tags : FieldText :=
    ⟨⟨"tags", isName_of_check (by decide +kernel)⟩, ⟨"String", isName_of_check (by decide +kernel)⟩,
      true, true, [⟨⟨"db", isName_of_check (by decide +kernel)⟩,
        [⟨"list", isName_of_check (by decide +kernel)⟩], some args⟩]⟩
  let asset : ModelText :=
    ⟨false, ⟨"Asset", isName_of_check (by decide +kernel)⟩,
      [⟨"Base", isName_of_check (by decide +kernel)⟩],
      [.field tags, .modelAttribute ⟨⟨"map", isName_of_check (by decide +kernel)⟩, [], none⟩]⟩
  let parts : List SchemaPart := [.importLine imported, .block kind, .comment comment, .model asset]
  have hsource : SchemaPart.renderAll parts = source := by
    decide +kernel
  obtain ⟨file, hfile, hmodels⟩ := SchemaFile.parse_renderAll parts
  rw [hsource] at hfile hmodels
  obtain ⟨decl, hfile', hdecl⟩ := exists_eq_singleton hmodels
  obtain ⟨field, hfields, hfield⟩ := exists_eq_singleton hdecl.fields
  obtain ⟨mapped, hattributes, hmapped⟩ := exists_eq_singleton hdecl.attributes
  obtain ⟨listed, hlist, hlisted⟩ := exists_eq_singleton hfield.attributes
  exact ⟨file, decl, field, mapped, listed, hfile, hfile', hdecl.name, hdecl.superTypes, hfields,
    hattributes, hlist, hfield.name, hfield.isArray, hmapped.name.trans (by decide +kernel),
    hlisted.name.trans (by decide +kernel), hlisted.args⟩

end Delegation
