import Delegation.Proofs.Elaboration
import Delegation.Proofs.Inheritance

/-!
This module contains which schemas are accepted, and with which warnings.
-/

namespace Delegation

open Relation

theorem conclude_eq_ok {ds ws : List Diagnostic} :
    conclude ds = .ok ws ↔ ws = ds ∧ ∀ d ∈ ds, d.severity ≠ .error := by
  unfold conclude
  split
  . next h => simpa using fun _ => h
  . next h =>
    simp only [List.any_eq_true, beq_iff_eq, not_exists, not_and] at h
    simp only [Except.ok.injEq]
    exact ⟨fun heq => ⟨heq.symm, h⟩, fun heq => heq.1.symm⟩

namespace ModelDecl

def isDelegate (m : ModelDecl) : Bool :=
  m.attributes.any (·.name.value == "@@delegate")

def extends? (m : ModelDecl) (superType : String) : Bool :=
  m.superTypes.any (·.value == superType)

def emptyWarning (m : ModelDecl) : Diagnostic where
  severity := .warning
  code := some .missingSubtypes
  message := "delegate model `" ++ m.name.value ++ "` is not extended by any model"
  labels := [⟨m.name.span, "its payload type is left unchanged", true⟩]
  help := none

end ModelDecl

namespace SchemaFile

def Extends (file : SchemaFile) (name superType : String) : Prop :=
  ∃ m ∈ file.models, m.name.value = name ∧ m.extends? superType

def isExtended (file : SchemaFile) (name : String) : Bool :=
  file.models.any (·.extends? name)

def emptyDelegates (file : SchemaFile) : List ModelDecl :=
  file.models.filter fun m => m.isDelegate && !file.isExtended m.name.value

def warnings (file : SchemaFile) : EmptyDelegatePolicy → List Diagnostic
  | .skip => file.emptyDelegates.map (·.emptyWarning)
  | .reject => []

structure HasNames (file : SchemaFile) : Prop where
  identifiers : ∀ m ∈ file.models, m.HasIdentifiers
  distinct : (file.models.map (·.name.value)).Nodup
  declared : ∀ m ∈ file.models, ∀ superType ∈ m.superTypes,
    superType.value ∈ file.models.map (·.name.value)

/--
Whether a file is a schema: whether its names are in order, no model extends itself, not even
through others, and no delegate is left empty where the policy asks for that.
-/
structure IsAcceptable (policy : EmptyDelegatePolicy) (file : SchemaFile) : Prop extends
    HasNames file where
  acyclic : ∀ name, ¬ TransGen file.Extends name name
  extended : policy = .skip ∨ ∀ m ∈ file.models, m.isDelegate → file.isExtended m.name.value

end SchemaFile

/-!
The check of the names.
-/

theorem identifierProblem_eq_nil {what : String} {name : Located String} :
    identifierProblem what name = [] ↔ IsIdentifier name.value := by
  unfold identifierProblem
  rw [← isIdent_iff]
  split
  . next ident h =>
    have := Ident.ofName_eq_ok.mp h
    simp [← this, ident.isIdent_name]
  . next e h =>
    simp only [reduceCtorEq, false_iff]
    intro hident
    rw [(@Ident.ofName_eq_ok name.value ⟨_, hident⟩).mpr rfl] at h
    cases h

theorem severity_of_mem_identifierProblem {what : String} {name : Located String} {d : Diagnostic}
    (h : d ∈ identifierProblem what name) : d.severity = .error := by
  unfold identifierProblem at h
  split at h
  . cases h
  . rw [List.mem_singleton.mp h]

namespace ModelDecl

variable {earlier : List ModelDecl} {m : ModelDecl}

theorem nameProblems_eq_nil :
    m.nameProblems earlier = []
      ↔ m.HasIdentifiers ∧ m.name.value ∉ earlier.map (·.name.value) := by
  have hduplicate : m.duplicateProblem earlier = []
      ↔ m.name.value ∉ earlier.map (·.name.value) := by
    unfold duplicateProblem
    split
    . next h => simpa using h
    . next first h =>
      have hname := List.find?_some h
      have hmem := List.mem_of_find?_eq_some h
      simp only [reduceCtorEq, false_iff, not_not, ← beq_iff_eq.mp hname]
      exact List.mem_map_of_mem hmem
  have hidentifiers : m.HasIdentifiers
      ↔ IsIdentifier m.name.value ∧ ∀ field ∈ m.fields, IsIdentifier field.name.value :=
    ⟨fun h => ⟨h.name, h.fields⟩, fun h => ⟨h.1, h.2⟩⟩
  simp only [nameProblems, List.append_eq_nil_iff, List.flatMap_eq_nil_iff,
    identifierProblem_eq_nil, hduplicate, hidentifiers]

theorem severity_of_mem_nameProblems {d : Diagnostic} (h : d ∈ m.nameProblems earlier) :
    d.severity = .error := by
  simp only [nameProblems, List.mem_append, List.mem_flatMap] at h
  rcases h with (h | ⟨_, _, h⟩) | h
  . exact severity_of_mem_identifierProblem h
  . exact severity_of_mem_identifierProblem h
  . unfold duplicateProblem at h
    split at h
    . cases h
    . rw [List.mem_singleton.mp h]

theorem superProblems_eq_nil {declared : List String} :
    m.superProblems declared = [] ↔ ∀ superType ∈ m.superTypes, superType.value ∈ declared := by
  simp [superProblems, List.filter_eq_nil_iff]

theorem severity_of_mem_superProblems {declared : List String} {d : Diagnostic}
    (h : d ∈ m.superProblems declared) : d.severity = .error := by
  obtain ⟨_, _, rfl⟩ := List.mem_map.mp h
  rfl

end ModelDecl

namespace SchemaFile

variable {file : SchemaFile} {policy : EmptyDelegatePolicy}

theorem declarations_eq_nil {earlier ms : List ModelDecl} :
    nameProblems.declarations earlier ms = []
      ↔ (∀ m ∈ ms, m.HasIdentifiers) ∧ (ms.map (·.name.value)).Nodup
        ∧ ∀ m ∈ ms, m.name.value ∉ earlier.map (·.name.value) := by
  induction ms generalizing earlier with
  | nil => simp [nameProblems.declarations]
  | cons m ms ih =>
    rw [nameProblems.declarations, List.append_eq_nil_iff, ModelDecl.nameProblems_eq_nil, ih]
    have hlater : m.name.value ∉ ms.map (·.name.value) ↔ ∀ x ∈ ms, x.name.value ≠ m.name.value := by
      simp
    simp only [List.forall_mem_cons, List.map_cons, List.nodup_cons, List.map_append, List.map_nil,
      List.mem_append, List.mem_singleton, not_or, forall_and, hlater]
    tauto

theorem nameProblems_eq_nil : file.nameProblems = [] ↔ file.HasNames := by
  simp only [nameProblems, List.append_eq_nil_iff, declarations_eq_nil, List.flatMap_eq_nil_iff,
    ModelDecl.superProblems_eq_nil]
  constructor
  . rintro ⟨⟨hidentifiers, hdistinct, _⟩, hdeclared⟩
    exact ⟨hidentifiers, hdistinct, hdeclared⟩
  . intro h
    exact ⟨⟨h.identifiers, h.distinct, by simp⟩, h.declared⟩

theorem severity_of_mem_nameProblems {d : Diagnostic} (h : d ∈ file.nameProblems) :
    d.severity = .error := by
  have hdeclarations {earlier ms : List ModelDecl} (h : d ∈ nameProblems.declarations earlier ms) :
      d.severity = .error := by
    induction ms generalizing earlier with
    | nil => cases h
    | cons m ms ih =>
      rcases List.mem_append.mp h with h | h
      . exact ModelDecl.severity_of_mem_nameProblems h
      . exact ih h
  rcases List.mem_append.mp h with h | h
  . exact hdeclarations h
  . obtain ⟨_, _, h⟩ := List.mem_flatMap.mp h
    exact ModelDecl.severity_of_mem_superProblems h

theorem hasNames_of_conclude {ds : List Diagnostic} (h : conclude file.nameProblems = .ok ds) :
    file.HasNames := by
  obtain ⟨_, herrors⟩ := conclude_eq_ok.mp h
  rw [← nameProblems_eq_nil, List.eq_nil_iff_forall_not_mem]
  exact fun d hd => herrors d hd (severity_of_mem_nameProblems hd)

theorem exists_elaborate (h : file.HasNames) (source : List Char) :
    ∃ m, file.elaborate source = .ok m := by
  have hmodel : ∀ decl ∈ file.models, ∃ e, decl.elaborate source = .ok e := by
    intro decl hdecl
    apply decl.exists_elaborate source (h.identifiers decl hdecl)
    intro superType hsuper
    obtain ⟨other, hother, hname⟩ := List.mem_map.mp (h.declared decl hdecl superType hsuper)
    rw [← hname]
    exact (h.identifiers other hother).name
  obtain ⟨entities, hentities⟩ := exists_mapM hmodel
  unfold elaborate
  rw [hentities]
  exact ⟨_, rfl⟩

/--
Whether the entities of `m` are those that a file declares in `source`.
-/
def Declares (source : List Char) (file : SchemaFile) (m : Model) : Prop :=
  List.Forall₂ (ModelDecl.Declares source) file.models m.entities

theorem parse_eq_ok {source : List Char} (h : SchemaFile.parse source = .ok file) :
    ∃ ls, Lexes 0 source ls ∧ ∀ m ∈ file.models, m.IsEnclosed (Item.ofLexemes ls) := by
  obtain ⟨ls, hls, h⟩ := bind_eq_ok h
  refine ⟨ls, tokenize_eq_ok.mp hls, ?_⟩
  split at h
  . next hfile =>
    cases h
    unfold ofLexemes at hfile
    split at hfile
    . next hmodels =>
      cases hfile
      intro m hm
      rcases isEnclosed_of_parseModels hmodels m hm with hm | hm
      . cases hm
      . exact hm
    . cases hfile
  . cases h

theorem declares_of_elaborate {source : List Char} {m : Model}
    (hparse : SchemaFile.parse source = .ok file) (h : file.elaborate source = .ok m) :
    file.Declares source m := by
  obtain ⟨ls, hls, henclosed⟩ := parse_eq_ok hparse
  obtain ⟨entities, hentities, h⟩ := bind_eq_ok h
  cases h
  have := (List.forall₂_and_left _ _).mpr ⟨henclosed, mapM_eq_ok.mp hentities⟩
  exact this.imp fun _ _ h => ModelDecl.declares_of_elaborate hls h.1 h.2

end SchemaFile

/-!
The check of the inheritance.
-/

theorem map_eq_of_forall₂ {α β γ : Type} {r : α → β → Prop} {f : α → γ} {g : β → γ} {as : List α}
    {bs : List β} (h : List.Forall₂ r as bs) (hr : ∀ a b, r a b → f a = g b) :
    as.map f = bs.map g := by
  rw [← List.forall₂_eq_eq_eq, List.forall₂_map_left_iff, List.forall₂_map_right_iff]
  exact h.imp hr

theorem any_eq_of_forall₂ {α β : Type} {r : α → β → Prop} {p : α → Bool} {q : β → Bool}
    {as : List α} {bs : List β} (h : List.Forall₂ r as bs) (hr : ∀ a b, r a b → p a = q b) :
    as.any p = bs.any q := by
  have := congrArg (List.any · id) (map_eq_of_forall₂ h hr)
  simpa using this

namespace ModelDecl.Declares

variable {source : List Char} {decl : ModelDecl} {e : Entity}

theorem isDelegate_eq (h : decl.Declares source e) : e.isDelegate = decl.isDelegate := by
  have hmarks : decl.isDelegate = e.attributes.any (·.name == "@@delegate") :=
    any_eq_of_forall₂ h.attributes fun _ _ hattr => by rw [hattr.name]
  rw [hmarks, Entity.isDelegate, Entity.delegateMark?, Bool.eq_iff_iff, List.find?_isSome,
    ← List.any_eq_true]

theorem extends?_eq (h : decl.Declares source e) (superType : Ident) :
    e.extends? superType = decl.extends? superType.name := by
  have := congrArg (superType.name ∈ ·) h.superTypes
  rw [Bool.eq_iff_iff, Entity.extends?, List.contains_iff_mem, extends?, List.any_eq_true]
  simp only [List.mem_map, beq_iff_eq] at this ⊢
  rw [← this]
  constructor
  . exact fun hmem => ⟨superType, hmem, rfl⟩
  . rintro ⟨other, hmem, hname⟩
    rwa [← Ident.ext_name hname]

end ModelDecl.Declares

theorem eraseDups_eq_self {α : Type} [BEq α] [LawfulBEq α] {as : List α} (h : as.Nodup) :
    as.eraseDups = as := by
  induction as with
  | nil => rfl
  | cons a as ih =>
    obtain ⟨hnot, h⟩ := List.nodup_cons.mp h
    have hfilter : as.filter (fun b => !b == a) = as := by
      apply List.filter_eq_self.mpr
      intro b hb
      have : b ≠ a := fun heq => hnot (heq ▸ hb)
      simpa using this
    rw [List.eraseDups_cons, hfilter, ih h]

theorem DelegateGraph.degenerate_ofModel {m : Model} (h : (m.entities.map (·.name)).Nodup) :
    (ofModel m).degenerate
      = (m.entities.filter fun e => e.isDelegate && !m.entities.any (·.extends? e.name)).map
          (·.name) := by
  have hnodup : (m.delegates.map (·.name)).Nodup := h.sublist (List.filter_sublist.map _)
  have hempty (e : Entity) :
      (relationOf m e.name).isDegenerate = !m.entities.any (·.extends? e.name) := by
    rw [Bool.eq_iff_iff]
    simp [relationOf, DelegateRelation.isDegenerate, List.filter_eq_nil_iff]
  rw [degenerate, ofModel, eraseDups_eq_self hnodup]
  simp only [List.map_map, List.filter_map, Function.comp_def, hempty, Model.delegates,
    List.filter_filter, Bool.and_comm]
  rfl

namespace SchemaFile

variable {file : SchemaFile} {policy : EmptyDelegatePolicy} {source : List Char} {m : Model}

namespace Declares

theorem map_name (h : file.Declares source m) :
    file.models.map (·.name.value) = m.entities.map (·.name.name) :=
  map_eq_of_forall₂ h fun _ _ hdecl => hdecl.name.symm

theorem nodup (h : file.Declares source m) (hnames : file.HasNames) :
    (m.entities.map (·.name)).Nodup := by
  have : ((m.entities.map (·.name)).map (·.name)).Nodup := by
    rw [List.map_map]
    exact h.map_name ▸ hnames.distinct
  exact this.of_map _

theorem extends_iff (h : file.Declares source m) (hnames : file.HasNames) {name superType : Ident} :
    (InheritanceGraph.ofModel m).Extends name superType
      ↔ file.Extends name.name superType.name := by
  rw [InheritanceGraph.extends_ofModel]
  constructor
  . rintro ⟨_, e, he, rfl, hsuper⟩
    obtain ⟨decl, hdecl, hdeclares⟩ := exists_mem_of_forall₂ h he
    refine ⟨decl, hdecl, hdeclares.name.symm, ?_⟩
    rw [← hdeclares.extends?_eq, Entity.extends?, List.contains_iff_mem]
    exact hsuper
  . rintro ⟨decl, hdecl, hname, hsuper⟩
    obtain ⟨e, he, hdeclares⟩ := exists_mem_of_forall₂ h.flip hdecl
    have hdeclared : superType.name ∈ m.entities.map (·.name.name) := by
      obtain ⟨other, hother, hname'⟩ := List.any_eq_true.mp hsuper
      rw [← h.map_name, ← beq_iff_eq.mp hname']
      exact hnames.declared decl hdecl other hother
    obtain ⟨other, hother, hname'⟩ := List.mem_map.mp hdeclared
    rw [← hdeclares.extends?_eq, Entity.extends?, List.contains_iff_mem] at hsuper
    exact ⟨List.mem_map.mpr ⟨other, hother, Ident.ext_name hname'⟩, e, he,
      Ident.ext_name (hdeclares.name.trans hname), hsuper⟩

theorem exists_ident (h : file.Declares source m) (hnames : file.HasNames) {name superType : String}
    (hextends : file.Extends name superType) :
    ∃ a b : Ident, a.name = name ∧ b.name = superType
      ∧ (InheritanceGraph.ofModel m).Extends a b := by
  have hident {name : String} (hname : name ∈ file.models.map (·.name.value)) :
      ∃ a : Ident, a.name = name := by
    obtain ⟨e, _, rfl⟩ := List.mem_map.mp (h.map_name ▸ hname)
    exact ⟨e.name, rfl⟩
  obtain ⟨decl, hdecl, rfl, hsuper⟩ := hextends
  obtain ⟨other, hother, hname⟩ := List.any_eq_true.mp hsuper
  obtain ⟨a, ha⟩ := hident (List.mem_map_of_mem hdecl)
  obtain ⟨b, hb⟩ := hident (hnames.declared decl hdecl other hother)
  rw [beq_iff_eq] at hname
  refine ⟨a, b, ha, hb.trans hname, (h.extends_iff hnames).mpr ?_⟩
  exact ⟨decl, hdecl, ha.symm, hb.trans hname ▸ hsuper⟩

theorem acyclic_iff (h : file.Declares source m) (hnames : file.HasNames) :
    (∀ name, ¬ TransGen (InheritanceGraph.ofModel m).Extends name name)
      ↔ ∀ name, ¬ TransGen file.Extends name name := by
  constructor
  . -- All names on a way through the file are names of entities.
    have hreach {name superType : String} (hreach : TransGen file.Extends name superType) :
        ∃ a b : Ident, a.name = name ∧ b.name = superType
          ∧ TransGen (InheritanceGraph.ofModel m).Extends a b := by
      induction hreach with
      | single hextends =>
        obtain ⟨a, b, ha, hb, hedge⟩ := h.exists_ident hnames hextends
        exact ⟨a, b, ha, hb, .single hedge⟩
      | tail _ hextends ih =>
        obtain ⟨a, b, ha, hb, hpath⟩ := ih
        obtain ⟨b', c, hb', hc, hedge⟩ := h.exists_ident hnames hextends
        cases Ident.ext_name (hb.trans hb'.symm)
        exact ⟨a, c, ha, hc, hpath.tail hedge⟩
    intro hacyclic name hcycle
    obtain ⟨a, b, ha, hb, hpath⟩ := hreach hcycle
    cases Ident.ext_name (ha.trans hb.symm)
    exact hacyclic a hpath
  . intro hacyclic name hcycle
    exact hacyclic name.name (hcycle.lift (·.name) fun _ _ => (h.extends_iff hnames).mp)

theorem degenerate_eq (h : file.Declares source m) (hnames : file.HasNames) :
    ∃ es, (DelegateGraph.ofModel m).degenerate = es.map Entity.name
      ∧ List.Forall₂ (ModelDecl.Declares source) file.emptyDelegates es := by
  refine ⟨_, DelegateGraph.degenerate_ofModel (h.nodup hnames), ?_⟩
  apply List.rel_filter _ h
  intro decl e hdeclares
  have hextended : file.isExtended decl.name.value = m.entities.any (·.extends? e.name) := by
    rw [← hdeclares.name]
    exact any_eq_of_forall₂ h fun _ _ hdecl => (hdecl.extends?_eq e.name).symm
  dsimp only
  rw [hdeclares.isDelegate_eq, hextended]

theorem nameSpan?_eq (hnames : file.HasNames) {decl : ModelDecl} (hdecl : decl ∈ file.models)
    {ident : Ident} (hident : ident.name = decl.name.value) :
    file.nameSpan? ident = some decl.name.span := by
  unfold nameSpan?
  cases hfind : file.models.find? (·.name.value == ident.name) with
  | none =>
    have := List.find?_eq_none.mp hfind decl hdecl
    simp [hident] at this
  | some other =>
    have hname : other.name.value = ident.name := by simpa using List.find?_some hfind
    have hother := List.mem_of_find?_eq_some hfind
    rw [List.inj_on_of_nodup_map hnames.distinct hother hdecl (hname.trans hident)]
    rfl

theorem inheritanceProblems_eq (h : file.Declares source m) (hnames : file.HasNames)
    (policy : EmptyDelegatePolicy) :
    ∃ problems, file.inheritanceProblems policy m
        = ((InheritanceGraph.ofModel m).findCycle?.map file.cycleProblem).toList ++ problems
      ∧ List.Forall₂ (fun decl problem => ∃ ident : Ident, ident.name = decl.name.value
          ∧ problem = degenerateProblem policy ident decl.name.span)
        file.emptyDelegates problems := by
  obtain ⟨es, hes, hdeclares⟩ := h.degenerate_eq hnames
  refine ⟨_, rfl, ?_⟩
  have hmem := (List.forall₂_and_left _ _).mpr
    ⟨fun decl (hdecl : decl ∈ file.emptyDelegates) => List.mem_of_mem_filter hdecl, hdeclares⟩
  rw [hes, List.filterMap_map, ← @List.filterMap_some _ file.emptyDelegates]
  apply List.rel_filterMap _ hmem
  rintro decl e ⟨hdecl, he⟩
  rw [Function.comp_apply, nameSpan?_eq hnames hdecl he.name]
  exact .some ⟨e.name, he.name, rfl⟩

theorem emptyDelegates_eq_nil :
    file.emptyDelegates = [] ↔ ∀ m ∈ file.models, m.isDelegate → file.isExtended m.name.value := by
  simp [emptyDelegates, List.filter_eq_nil_iff]

theorem conclude_inheritanceProblems (h : file.Declares source m) (hnames : file.HasNames)
    {ws : List Diagnostic} :
    conclude (file.inheritanceProblems policy m) = .ok ws
      ↔ file.IsAcceptable policy ∧ ws = file.warnings policy := by
  obtain ⟨problems, hproblems, hpairs⟩ := h.inheritanceProblems_eq hnames policy
  have hacyclic : (InheritanceGraph.ofModel m).findCycle? = none
      ↔ ∀ name, ¬ TransGen file.Extends name name := by
    rw [InheritanceGraph.findCycle?_eq_none_iff (InheritanceGraph.isClosed_ofModel m)]
    exact h.acyclic_iff hnames
  rw [conclude_eq_ok, hproblems]
  -- A cycle is an error under both policies, an empty delegate only under one of them.
  cases hfind : (InheritanceGraph.ofModel m).findCycle? with
  | some cycle =>
    rw [hfind] at hacyclic
    constructor
    . rintro ⟨_, herrors⟩
      exact absurd rfl (herrors (file.cycleProblem cycle) (by simp))
    . rintro ⟨hacceptable, _⟩
      exact absurd (hacyclic.mpr hacceptable.acyclic) (by simp)
  | none =>
    have hacyclic := hacyclic.mp hfind
    rw [Option.map_none, Option.toList_none, List.nil_append]
    cases policy with
    | skip =>
      have hwarnings : file.emptyDelegates.map (·.emptyWarning) = problems.map id := by
        apply map_eq_of_forall₂ hpairs
        rintro decl _ ⟨ident, hident, rfl⟩
        simp [ModelDecl.emptyWarning, degenerateProblem, hident]
      rw [List.map_id] at hwarnings
      subst hwarnings
      constructor
      . rintro ⟨rfl, _⟩
        exact ⟨⟨hnames, hacyclic, .inl rfl⟩, rfl⟩
      . rintro ⟨_, rfl⟩
        refine ⟨rfl, ?_⟩
        intro d hd
        obtain ⟨_, _, rfl⟩ := List.mem_map.mp hd
        exact Severity.noConfusion
    | reject =>
      generalize hempty : file.emptyDelegates = decls at hpairs
      have hextended := (emptyDelegates_eq_nil.symm.trans (by rw [hempty]) : _ ↔ decls = [])
      constructor
      . rintro ⟨rfl, herrors⟩
        cases hpairs with
        | nil => exact ⟨⟨hnames, hacyclic, .inr (hextended.mpr rfl)⟩, rfl⟩
        | cons hpair _ =>
          obtain ⟨_, _, rfl⟩ := hpair
          exact absurd rfl (herrors _ (.head _))
      . rintro ⟨hacceptable, rfl⟩
        rcases hacceptable.extended with hskip | hall
        . cases hskip
        . cases hextended.mp hall
          cases hpairs
          exact ⟨rfl, by simp⟩

end Declares

theorem load_eq_ok_iff {ws : List Diagnostic} :
    file.load policy source = .ok (m, ws)
      ↔ file.HasNames ∧ file.elaborate source = .ok m
        ∧ conclude (file.inheritanceProblems policy m) = .ok ws := by
  constructor
  . intro h
    obtain ⟨_, hconclude, h⟩ := bind_eq_ok h
    split at h
    . cases h
    . next m' helaborate =>
      obtain ⟨ws', hws, h⟩ := bind_eq_ok h
      cases h
      exact ⟨hasNames_of_conclude hconclude, helaborate, hws⟩
  . rintro ⟨h, helaborate, hws⟩
    have hconclude : conclude file.nameProblems = .ok [] := by
      rw [nameProblems_eq_nil.mpr h]
      rfl
    unfold load
    rw [hconclude, helaborate]
    change (conclude (file.inheritanceProblems policy m) >>= _) = _
    rw [hws]
    rfl

end SchemaFile

theorem exists_file_of_loadSchema {policy : EmptyDelegatePolicy} {source : List Char} {m : Model}
    {ws : List Diagnostic} (h : loadSchema policy source = .ok (m, ws)) :
    ∃ file, SchemaFile.parse source = .ok file ∧ file.Declares source m ∧ file.IsAcceptable policy
      ∧ ws = file.warnings policy := by
  obtain ⟨file, hparse, h⟩ := bind_eq_ok h
  obtain ⟨hnames, helaborate, hws⟩ := SchemaFile.load_eq_ok_iff.mp h
  have hdeclares := SchemaFile.declares_of_elaborate hparse helaborate
  exact ⟨file, hparse, hdeclares, (hdeclares.conclude_inheritanceProblems hnames).mp hws⟩

/--
A schema is accepted exactly if it can be parsed to a file that is in order. Then its model has the
entities that the file declares, and each empty delegate is warned of. A file whose names are in
order always has a model.
-/
theorem loadSchema_isOk_iff (policy : EmptyDelegatePolicy) (source : List Char) :
    ((∃ r, loadSchema policy source = .ok r)
        ↔ ∃ file, SchemaFile.parse source = .ok file ∧ file.IsAcceptable policy)
      ∧ (∀ m ws, loadSchema policy source = .ok (m, ws) →
          ∃ file, SchemaFile.parse source = .ok file ∧ file.Declares source m
            ∧ ws = file.warnings policy)
      ∧ ∀ (file : SchemaFile) (ds : List Diagnostic), conclude file.nameProblems = .ok ds →
          ∃ m, file.elaborate source = .ok m := by
  refine ⟨⟨?_, ?_⟩, ?_, ?_⟩
  . rintro ⟨⟨m, ws⟩, h⟩
    obtain ⟨file, hparse, _, hacceptable, _⟩ := exists_file_of_loadSchema h
    exact ⟨file, hparse, hacceptable⟩
  . rintro ⟨file, hparse, hacceptable⟩
    have hnames := hacceptable.toHasNames
    obtain ⟨m, helaborate⟩ := SchemaFile.exists_elaborate hnames source
    have hdeclares := SchemaFile.declares_of_elaborate hparse helaborate
    have hws := (hdeclares.conclude_inheritanceProblems hnames).mpr ⟨hacceptable, rfl⟩
    refine ⟨(m, file.warnings policy), ?_⟩
    unfold loadSchema
    rw [hparse]
    exact SchemaFile.load_eq_ok_iff.mpr ⟨hnames, helaborate, hws⟩
  . intro m ws h
    obtain ⟨file, hparse, hdeclares, _, hws⟩ := exists_file_of_loadSchema h
    exact ⟨file, hparse, hdeclares, hws⟩
  . intro file ds h
    exact SchemaFile.exists_elaborate (SchemaFile.hasNames_of_conclude h) source

theorem loadSchema_isOk_iff_nested :
    let source := "model A \x7b b C? @d( e )\n @@delegate(b) \x7d\n".toList
      ++ "abstract model F extends A \x7b @@delegate \x7d\n".toList
    let m : Model := ⟨[
      { name := ⟨"A", by decide⟩
        isAbstract := false
        fields := [⟨⟨"b", by decide⟩, "C", false, true, [⟨"@d", some " e "⟩]⟩]
        attributes := [⟨"@@delegate", some "b"⟩]
        superTypes := [] },
      { name := ⟨"F", by decide⟩
        isAbstract := true
        fields := []
        attributes := [⟨"@@delegate", none⟩]
        superTypes := [⟨"A", by decide⟩] }]⟩
    let w : Diagnostic :=
      { severity := .warning
        code := some .missingSubtypes
        message := "delegate model `F` is not extended by any model"
        labels := [⟨⟨55, 56⟩, "its payload type is left unchanged", true⟩]
        help := none }
    loadSchema .skip source = .ok (m, [w])
      ∧ ∃ file, SchemaFile.parse source = .ok file ∧ file.IsAcceptable .skip
        ∧ file.Declares source m ∧ [w] = file.warnings .skip := by
  intro source m w
  have h : loadSchema .skip source = .ok (m, [w]) := by decide +kernel
  obtain ⟨hok, hall, _⟩ := loadSchema_isOk_iff .skip source
  obtain ⟨file, hparse, hacceptable⟩ := hok.mp ⟨_, h⟩
  obtain ⟨file', hparse', hdeclares, hwarnings⟩ := hall m [w] h
  cases hparse.symm.trans hparse'
  exact ⟨h, file, hparse, hacceptable, hdeclares, hwarnings⟩

end Delegation
