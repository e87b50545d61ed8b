import Delegation.Proofs.Grammar.SchemaNames
import Delegation.Proofs.LexicalErrors
import Delegation.Proofs.ModelGraphs
import Delegation.Proofs.NameProblems
import Delegation.Proofs.SyntaxErrors

/-!
This module contains that all that is reported about a source is shown at a part of it: between two
characters, and not beyond its end.
-/

namespace Delegation

open Lexeme

structure Diagnostic.IsLocatedIn (source : List Char) (d : Diagnostic) : Prop where
  exists_primary : ∃ label ∈ d.labels.head?, label.isPrimary = true
  isSliceOf : ∀ label ∈ d.labels, label.span.IsSliceOf source

/--
Whether `e` holds an error, and all of it is shown in `source`.
-/
structure ParseError.IsLocatedIn (source : List Char) (e : ParseError) : Prop where
  exists_error : ∃ d ∈ e.diagnostics, d.severity = .error
  isLocatedIn : ∀ d ∈ e.diagnostics, d.IsLocatedIn source

theorem ParseError.isLocatedIn_ofDiagnostic {source : List Char} {d : Diagnostic}
    (hseverity : d.severity = .error) (h : d.IsLocatedIn source) :
    (ofDiagnostic d).IsLocatedIn source := by
  constructor
  . exact ⟨d, .head _, hseverity⟩
  . intro x hx
    cases List.mem_singleton.mp hx
    exact h

theorem isLocatedIn_of_conclude {source : List Char} {ds : List Diagnostic} {e : ParseError}
    (h : conclude ds = .error e) (hds : ∀ d ∈ ds, d.IsLocatedIn source) :
    e.IsLocatedIn source := by
  unfold conclude at h
  split at h
  . next hany =>
    cases h
    obtain ⟨d, hd, hseverity⟩ := List.any_eq_true.mp hany
    exact ⟨⟨d, hd, beq_iff_eq.mp hseverity⟩, hds⟩
  . cases h

/-!
Errors of the lexer and of the parsers.
-/

theorem Diagnostic.IsLexicalError.isLocatedIn {source : List Char} {d : Diagnostic}
    (h : d.IsLexicalError source) : d.IsLocatedIn source := by
  obtain ⟨label, front, text, behind, hlabels, hprimary, hsource, hspan, _⟩ := h.exists_label
  constructor
  . exact ⟨label, by simp [hlabels], hprimary⟩
  . intro x hx
    rw [hlabels] at hx
    cases List.mem_singleton.mp hx
    exact (label.span.isSliceOf_append hsource (by rw [hspan]) (by rw [hspan, byteLength_append])).1

theorem isLocatedIn_of_tokenize {source : List Char} {e : ParseError}
    (h : tokenize source = .error e) : e.IsLocatedIn source := by
  have hall := isLexicalError_of_tokenize h
  constructor
  . obtain ⟨d, hd⟩ := List.exists_mem_of_ne_nil _ (diagnostics_of_tokenize h).2
    exact ⟨d, hd, (hall d hd).severity⟩
  . exact fun d hd => (hall d hd).isLocatedIn

theorem Lexes.isSliceOf_span {source : List Char} {ls : List Lexeme} (h : Lexes 0 source ls)
    {l : Lexeme} (hl : l ∈ ls) : l.span.IsSliceOf source := by
  have hslice := h.areLaid.slice?_span l hl
  obtain ⟨hstart, hstop⟩ := h.areLaid.mem_bounds l hl
  rw [h.textOf_eq] at hslice hstop
  rw [Nat.zero_add] at hstop
  exact ⟨Nat.le_of_lt hstart, hstop, by rw [hslice]; rfl⟩

theorem isSliceOf_end (source : List Char) :
    (⟨byteLength source, byteLength source⟩ : Span).IsSliceOf source := by
  have hsource : source = source ++ ([] ++ []) := by simp
  exact (Span.isSliceOf_append _ hsource rfl rfl).1

theorem Diagnostic.IsSyntaxErrorAt.isLocatedIn {source : List Char} {read rest : List Lexeme}
    {d : Diagnostic} (h : d.IsSyntaxErrorAt read rest) (hls : Lexes 0 source (read ++ rest)) :
    d.IsLocatedIn source := by
  obtain ⟨primary, others, hlabels, hprimary, hplace, _, hothers⟩ := h.labels
  have hspan : (placeIn (endOfText (read ++ rest)) rest).IsSliceOf source := by
    unfold placeIn
    split
    . next l hfind =>
      exact hls.isSliceOf_span (List.mem_append_right _ (List.mem_of_find?_eq_some hfind))
    . rw [hls.areLaid.endOfText_eq, hls.textOf_eq]
      exact isSliceOf_end source
  constructor
  . exact ⟨primary, by simp [hlabels], hprimary⟩
  . intro label hlabel
    rw [hlabels] at hlabel
    rcases List.mem_cons.mp hlabel with rfl | hlabel
    . rw [hplace]
      exact hspan
    . obtain ⟨_, ⟨opener, hopener, heq⟩, _⟩ := hothers label hlabel
      obtain ⟨before, inner, rfl, _⟩ := hopener.exists_inner
      rw [heq]
      exact hls.isSliceOf_span (by simp)

theorem isLocatedIn_of_ofLexemes {source : List Char} {ls : List Lexeme} {d : Diagnostic}
    (hls : tokenize source = .ok ls)
    (h : DeclarationTree.ofLexemes ls = .error d ∨ SchemaFile.ofLexemes ls = .error d) :
    (ParseError.ofDiagnostic d).IsLocatedIn source := by
  obtain ⟨read, rest, rfl, hd⟩ := exists_isSyntaxErrorAt h
  exact ParseError.isLocatedIn_ofDiagnostic hd.severity (hd.isLocatedIn (tokenize_eq_ok.mp hls))

/-!
What is reported about the names and the inheritance of a schema.
-/

structure ModelDecl.IsNamedWithin (source : List Char) (m : ModelDecl) : Prop where
  name : m.name.span.IsSliceOf source
  superTypes : ∀ superType ∈ m.superTypes, superType.span.IsSliceOf source
  fields : ∀ field ∈ m.fields, field.name.span.IsSliceOf source

theorem Diagnostic.IsErrorOn.isLocatedIn {source : List Char} {d : Diagnostic} {code : Code}
    {primary : Span} {others : List Span} (h : d.IsErrorOn code primary others)
    (hprimary : primary.IsSliceOf source) (hothers : ∀ span ∈ others, span.IsSliceOf source) :
    d.IsLocatedIn source := by
  obtain ⟨_, _, hlabels⟩ := h
  constructor
  . cases hd : d.labels with
    | nil => simp [hd] at hlabels
    | cons label labels =>
      rw [hd, List.map_cons, List.cons.injEq, Prod.mk.injEq] at hlabels
      exact ⟨label, rfl, hlabels.1.2⟩
  . intro label hlabel
    have hmem := List.mem_map_of_mem (f := fun label : Label => (label.span, label.isPrimary)) hlabel
    rw [hlabels, List.mem_cons] at hmem
    rcases hmem with heq | hmem
    . rw [(Prod.mk.inj heq).1]
      exact hprimary
    . obtain ⟨span, hspan, heq⟩ := List.mem_map.mp hmem
      rw [← (Prod.mk.inj heq).1]
      exact hothers span hspan

namespace SchemaFile

variable {source : List Char} {file : SchemaFile}

theorem isNamedWithin_of_parse (h : SchemaFile.parse source = .ok file) :
    ∀ m ∈ file.models, m.IsNamedWithin source := by
  obtain ⟨ls, hls, h⟩ := bind_eq_ok h
  have hslice {span : Span} (hspan : span ∈ (Item.ofLexemes ls).map Item.span) :
      span.IsSliceOf source := by
    obtain ⟨item, hitem, rfl⟩ := List.mem_map.mp hspan
    obtain ⟨l, hl, _, heq, _⟩ := @exists_lexeme_of_mem_itemsFrom .empty _ _ hitem
    rw [← heq]
    exact (tokenize_eq_ok.mp hls).isSliceOf_span hl
  split at h
  . next hfile =>
    cases h
    intro m hm
    have hnamed := isNamedIn_of_ofLexemes hfile m hm
    exact ⟨hslice hnamed.name, fun superType hsuper => hslice (hnamed.superTypes superType hsuper),
      fun field hfield => hslice (hnamed.fields field hfield)⟩
  . cases h

theorem isLocatedIn_of_mem_nameProblems (hfile : ∀ m ∈ file.models, m.IsNamedWithin source)
    {d : Diagnostic} (hd : d ∈ file.nameProblems) : d.IsLocatedIn source := by
  obtain ⟨sites, _, _, hreports⟩ := reportsIn_nameProblems file
  obtain ⟨site, _, hreport⟩ := exists_mem_of_forall₂ hreports hd
  cases hreport with
  | model hm hd => exact hd.isLocatedIn (hfile _ (List.mem_of_getElem? hm)).name (by simp)
  | field hm hfield hd =>
    have := (hfile _ (List.mem_of_getElem? hm)).fields _ (List.mem_of_getElem? hfield)
    exact hd.isLocatedIn this (by simp)
  | duplicate hm hfirst _ hd =>
    have := (hfile _ (List.mem_of_getElem? hfirst.1)).name
    exact hd.isLocatedIn (hfile _ (List.mem_of_getElem? hm)).name (by simpa using this)
  | superType hm hsuper hd =>
    have := (hfile _ (List.mem_of_getElem? hm)).superTypes _ (List.mem_of_getElem? hsuper)
    exact hd.isLocatedIn this (by simp)

theorem isLocatedIn_cycleProblem (hfile : ∀ m ∈ file.models, m.IsNamedWithin source)
    {cycle : List Ident} (hne : cycle ≠ [])
    (hcycle : ∀ name ∈ cycle, name.name ∈ file.models.map (·.name.value)) :
    (file.cycleProblem cycle).IsLocatedIn source := by
  have hslice : ∀ span ∈ cycle.filterMap file.nameSpan?, span.IsSliceOf source := by
    intro span hspan
    obtain ⟨name, _, hname⟩ := List.mem_filterMap.mp hspan
    obtain ⟨m, hm, rfl⟩ := Option.map_eq_some_iff.mp hname
    exact (hfile m (List.mem_of_find?_eq_some hm)).name
  have hspans : cycle.filterMap file.nameSpan? ≠ [] := by
    obtain ⟨name, hname⟩ := List.exists_mem_of_ne_nil _ hne
    obtain ⟨m, hm, heq⟩ := List.mem_map.mp (hcycle name hname)
    have hfind : (file.models.find? (·.name.value == name.name)).isSome = true :=
      List.find?_isSome.mpr ⟨m, hm, beq_iff_eq.mpr heq⟩
    obtain ⟨first, hfirst⟩ := Option.isSome_iff_exists.mp hfind
    apply List.ne_nil_of_mem (a := first.name.span)
    exact List.mem_filterMap.mpr ⟨name, hname, by rw [nameSpan?, hfirst]; rfl⟩
  unfold cycleProblem
  generalize cycle.filterMap file.nameSpan? = spans at hslice hspans
  cases spans with
  | nil => exact absurd rfl hspans
  | cons span spans =>
    refine ⟨⟨_, rfl, rfl⟩, ?_⟩
    intro label hlabel
    rcases List.mem_cons.mp hlabel with rfl | hlabel
    . exact hslice span (.head _)
    . obtain ⟨other, hother, rfl⟩ := List.mem_map.mp hlabel
      exact hslice other (.tail _ hother)

theorem isLocatedIn_degenerateProblem (policy : EmptyDelegatePolicy) (name : Ident) {span : Span}
    (hspan : span.IsSliceOf source) : (degenerateProblem policy name span).IsLocatedIn source := by
  cases policy with
  | skip =>
    refine ⟨⟨_, rfl, rfl⟩, ?_⟩
    simpa [degenerateProblem] using hspan
  | reject =>
    refine ⟨⟨_, rfl, rfl⟩, ?_⟩
    simpa [degenerateProblem] using hspan

theorem isLocatedIn_of_mem_inheritanceProblems {policy : EmptyDelegatePolicy} {m : Model}
    (hfile : ∀ m ∈ file.models, m.IsNamedWithin source) (hdeclares : file.Declares source m)
    {d : Diagnostic} (hd : d ∈ file.inheritanceProblems policy m) : d.IsLocatedIn source := by
  rcases List.mem_append.mp hd with hd | hd
  . obtain ⟨cycle, hcycle, rfl⟩ := Option.map_eq_some_iff.mp (Option.mem_toList.mp hd)
    have hcycle := InheritanceGraph.isCycle_of_findCycle? hcycle
    apply isLocatedIn_cycleProblem hfile hcycle.ne_nil
    intro other hother
    obtain ⟨entity, hentity, rfl⟩ := List.mem_map.mp (hcycle.declared hother)
    rw [hdeclares.map_name]
    exact List.mem_map_of_mem hentity
  . obtain ⟨name, _, hname⟩ := List.mem_filterMap.mp hd
    obtain ⟨span, hspan, rfl⟩ := Option.map_eq_some_iff.mp hname
    obtain ⟨decl, hdecl, rfl⟩ := Option.map_eq_some_iff.mp hspan
    exact isLocatedIn_degenerateProblem policy name
      (hfile decl (List.mem_of_find?_eq_some hdecl)).name

end SchemaFile

theorem isLocatedIn_of_parse {source : List Char} {e : ParseError}
    (h : DeclarationTree.parse source = .error e ∨ SchemaFile.parse source = .error e) :
    e.IsLocatedIn source := by
  rcases h with h | h
  all_goals
    rcases bind_eq_error_cases h with h | ⟨ls, hls, h⟩
    . exact isLocatedIn_of_tokenize h
    . split at h
      . cases h
      . next d hd =>
        cases h
        exact isLocatedIn_of_ofLexemes hls (by simp [hd])

theorem isLocatedIn_of_loadSchema {policy : EmptyDelegatePolicy} {source : List Char}
    {e : ParseError} (h : loadSchema policy source = .error e) : e.IsLocatedIn source := by
  rcases bind_eq_error_cases h with h | ⟨file, hparse, h⟩
  . exact isLocatedIn_of_parse (.inr h)
  . have hfile := SchemaFile.isNamedWithin_of_parse hparse
    rcases bind_eq_error_cases h with h | ⟨_, hconclude, h⟩
    . exact isLocatedIn_of_conclude h fun d => SchemaFile.isLocatedIn_of_mem_nameProblems hfile
    . -- No name is wrong here, so that the model is always found.
      obtain ⟨m, helaborate⟩ :=
        SchemaFile.exists_elaborate (SchemaFile.hasNames_of_conclude hconclude) source
      rw [helaborate] at h
      rcases bind_eq_error_cases h with h | ⟨_, _, h⟩
      . exact isLocatedIn_of_conclude h fun d =>
          SchemaFile.isLocatedIn_of_mem_inheritanceProblems hfile
            (SchemaFile.declares_of_elaborate hparse helaborate)
      . cases h

/--
Whatever is reported about a source is shown at parts of it, and a source is only turned down with an
error.
-/
theorem isLocatedIn_report (policy : EmptyDelegatePolicy) (source : List Char) :
    (∀ e, tokenize source = .error e → e.IsLocatedIn source)
      ∧ (∀ e, DeclarationTree.parse source = .error e → e.IsLocatedIn source)
      ∧ (∀ e, loadSchema policy source = .error e → e.IsLocatedIn source)
      ∧ ∀ m warnings, loadSchema policy source = .ok (m, warnings) →
        ∀ d ∈ warnings, d.IsLocatedIn source := by
  refine ⟨fun e => isLocatedIn_of_tokenize, fun e h => isLocatedIn_of_parse (.inl h),
    fun e => isLocatedIn_of_loadSchema, ?_⟩
  intro m warnings h
  obtain ⟨file, hparse, h⟩ := bind_eq_ok h
  obtain ⟨_, helaborate, hws⟩ := SchemaFile.load_eq_ok_iff.mp h
  rw [(conclude_eq_ok.mp hws).1]
  exact fun d => SchemaFile.isLocatedIn_of_mem_inheritanceProblems
    (SchemaFile.isNamedWithin_of_parse hparse)
    (SchemaFile.declares_of_elaborate hparse helaborate)

end Delegation
