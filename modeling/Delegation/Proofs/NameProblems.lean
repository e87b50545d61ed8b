import Delegation.Proofs.Acceptance

/-!
This module contains what the check of the names of a schema reports: every problem once, in the
order of the file, first those of the declarations and then those of the references.
-/

namespace Delegation

/--
The places of a schema where something can be wrong with a name: the name of a model, the name of
one of its fields, the declaration of a model as such, and one of the super types of a model. All of
them are counted from 0.
-/
inductive NameSite where
  | model (i : Nat)
  | field (i k : Nat)
  | duplicate (i : Nat)
  | superType (i k : Nat)

namespace NameSite

/--
The number of the walk over the models that comes by a site, the model, and the place in it.
-/
@[simp]
def key : NameSite → List Nat
  | model i => [0, i, 0]
  | field i k => [0, i, 1, k]
  | duplicate i => [0, i, 2]
  | superType i k => [1, i, k]

def IsBefore (a b : NameSite) : Prop :=
  a.key < b.key

@[simp]
theorem isBefore_iff {a b : NameSite} : a.IsBefore b ↔ a.key < b.key :=
  Iff.rfl

end NameSite

def Diagnostic.IsErrorOn (d : Diagnostic) (code : Code) (primary : Span) (others : List Span) :
    Prop :=
  d.severity = .error ∧ d.code = some code
    ∧ d.labels.map (fun label => (label.span, label.isPrimary))
      = (primary, true) :: others.map fun span => (span, false)

namespace SchemaFile

variable {file : SchemaFile} {i j k : Nat} {m first : ModelDecl} {d : Diagnostic}
  {ds es : List Diagnostic}

def IsWrongAt (file : SchemaFile) : NameSite → Prop
  | .model i => ∃ m, file.models[i]? = some m ∧ ¬ IsIdentifier m.name.value
  | .field i k => ∃ m field, file.models[i]? = some m ∧ m.fields[k]? = some field
    ∧ ¬ IsIdentifier field.name.value
  | .duplicate i => ∃ m, file.models[i]? = some m
    ∧ ∃ j < i, ∃ other, file.models[j]? = some other ∧ other.name.value = m.name.value
  | .superType i k => ∃ m superType, file.models[i]? = some m ∧ m.superTypes[k]? = some superType
    ∧ ∀ other ∈ file.models, other.name.value ≠ superType.value

def IsFirst (file : SchemaFile) (j : Nat) (first : ModelDecl) : Prop :=
  file.models[j]? = some first
    ∧ ∀ k < j, ∀ other, file.models[k]? = some other → other.name.value ≠ first.name.value

/--
Whether `d` says what is wrong at a site, and where that is.
-/
inductive Reports (file : SchemaFile) : NameSite → Diagnostic → Prop
  | model {i : Nat} {m : ModelDecl} {d : Diagnostic} (hm : file.models[i]? = some m)
      (hd : d.IsErrorOn .invalidIdentifier m.name.span []) : Reports file (.model i) d
  | field {i k : Nat} {m : ModelDecl} {field : FieldDecl} {d : Diagnostic}
      (hm : file.models[i]? = some m) (hfield : m.fields[k]? = some field)
      (hd : d.IsErrorOn .invalidIdentifier field.name.span []) : Reports file (.field i k) d
  | duplicate {i j : Nat} {m first : ModelDecl} {d : Diagnostic} (hm : file.models[i]? = some m)
      (hfirst : file.IsFirst j first) (hname : first.name.value = m.name.value)
      (hd : d.IsErrorOn .duplicateEntity m.name.span [first.name.span]) :
      Reports file (.duplicate i) d
  | superType {i k : Nat} {m : ModelDecl} {superType : Located String} {d : Diagnostic}
      (hm : file.models[i]? = some m) (hsuper : m.superTypes[k]? = some superType)
      (hd : d.IsErrorOn .undefinedSuper superType.span []) : Reports file (.superType i k) d

/--
Whether `ds` are the reports of what is wrong at the sites of a `region`, in their order.
-/
def ReportsIn (file : SchemaFile) (region : NameSite → Prop) (ds : List Diagnostic) : Prop :=
  ∃ sites : List NameSite, sites.Pairwise NameSite.IsBefore
    ∧ (∀ site, site ∈ sites ↔ region site ∧ file.IsWrongAt site)
    ∧ List.Forall₂ file.Reports sites ds

namespace ReportsIn

variable {region other : NameSite → Prop}

theorem congr (h : file.ReportsIn region ds)
    (hiff : ∀ site, file.IsWrongAt site → (region site ↔ other site)) :
    file.ReportsIn other ds := by
  obtain ⟨sites, hordered, hmem, hreports⟩ := h
  refine ⟨sites, hordered, fun site => ?_, hreports⟩
  rw [hmem, and_congr_left (hiff site)]

theorem single {site : NameSite} (hright : ¬ file.IsWrongAt site → ds = [])
    (hwrong : file.IsWrongAt site → ∃ d, ds = [d] ∧ file.Reports site d) :
    file.ReportsIn (· = site) ds := by
  by_cases h : file.IsWrongAt site
  . obtain ⟨d, rfl, hd⟩ := hwrong h
    refine ⟨[site], List.pairwise_singleton .., fun s => ?_, .cons hd .nil⟩
    rw [List.mem_singleton, iff_self_and]
    rintro rfl
    exact h
  . rw [hright h]
    refine ⟨[], .nil, fun s => ?_, .nil⟩
    simp only [List.not_mem_nil, false_iff, not_and]
    rintro rfl
    exact h

theorem append (h : file.ReportsIn region ds) (hother : file.ReportsIn other es)
    (hbefore : ∀ a, region a → ∀ b, other b → a.IsBefore b) :
    file.ReportsIn (fun site => region site ∨ other site) (ds ++ es) := by
  obtain ⟨sites, hordered, hmem, hreports⟩ := h
  obtain ⟨sites', hordered', hmem', hreports'⟩ := hother
  refine ⟨sites ++ sites', List.pairwise_append.mpr ⟨hordered, hordered', ?_⟩, fun site => ?_,
    List.rel_append hreports hreports'⟩
  . exact fun a ha b hb => hbefore a ((hmem a).mp ha).1 b ((hmem' b).mp hb).1
  . rw [List.mem_append, hmem, hmem', or_and_right]

theorem flatten {region : Nat → NameSite → Prop} {dss : List (List Diagnostic)}
    (h : ∀ n ds, dss[n]? = some ds → file.ReportsIn (region n) ds)
    (hbefore : ∀ n n', n < n' → ∀ a, region n a → ∀ b, region n' b → a.IsBefore b)
    (hlength : ∀ n site, region n site → file.IsWrongAt site → n < dss.length) :
    file.ReportsIn (fun site => ∃ n, region n site) dss.flatten := by
  induction dss generalizing region with
  | nil =>
    refine ⟨[], .nil, fun site => ?_, .nil⟩
    simp only [List.not_mem_nil, false_iff]
    rintro ⟨⟨n, hsite⟩, hwrong⟩
    exact Nat.not_lt_zero _ (hlength n site hsite hwrong)
  | cons ds dss ih =>
    have hfirst := h 0 ds rfl
    have hrest := ih (fun n es hes => h (n + 1) es hes)
      (fun n n' hlt => hbefore (n + 1) (n' + 1) (Nat.succ_lt_succ hlt))
      (fun n site hsite hwrong => Nat.lt_of_succ_lt_succ (hlength (n + 1) site hsite hwrong))
    refine (hfirst.append hrest ?_).congr fun site _ =>
      @Nat.or_exists_add_one fun n => region n site
    rintro a ha b ⟨n, hb⟩
    exact hbefore 0 (n + 1) (Nat.succ_pos n) a ha b hb

theorem flatMap {α : Type} {as : List α} {f : α → List Diagnostic}
    {region : Nat → NameSite → Prop}
    (h : ∀ n a, as[n]? = some a → file.ReportsIn (region n) (f a))
    (hbefore : ∀ n n', n < n' → ∀ a, region n a → ∀ b, region n' b → a.IsBefore b)
    (hlength : ∀ n site, region n site → file.IsWrongAt site → n < as.length) :
    file.ReportsIn (fun site => ∃ n, region n site) (as.flatMap f) := by
  rw [List.flatMap_def]
  apply flatten _ hbefore (by simpa using hlength)
  intro n ds hds
  rw [List.getElem?_map, Option.map_eq_some_iff] at hds
  obtain ⟨a, ha, rfl⟩ := hds
  exact h n a ha

end ReportsIn

theorem reportsIn_identifierProblem {site : NameSite} {what : String} {name : Located String}
    (hwrong : file.IsWrongAt site ↔ ¬ IsIdentifier name.value)
    (hreports : ∀ d : Diagnostic, d.IsErrorOn .invalidIdentifier name.span [] →
      file.Reports site d) :
    file.ReportsIn (· = site) (identifierProblem what name) := by
  apply ReportsIn.single
  . intro h
    rw [hwrong, not_not] at h
    exact identifierProblem_eq_nil.mpr h
  . intro h
    have hne : identifierProblem what name ≠ [] := mt identifierProblem_eq_nil.mp (hwrong.mp h)
    unfold identifierProblem at hne ⊢
    split
    . next ident heq => simp [heq] at hne
    . exact ⟨_, rfl, hreports _ ⟨rfl, rfl, rfl⟩⟩

theorem isFirst_of_find?_take {name : String}
    (h : (file.models.take i).find? (·.name.value == name) = some first) :
    ∃ j < i, file.IsFirst j first ∧ first.name.value = name := by
  obtain ⟨hname, j, hj, hfirst, hbefore⟩ := List.find?_eq_some_iff_getElem.mp h
  rw [beq_iff_eq] at hname
  rw [List.length_take] at hj
  have hmodels : ∀ k < i, (file.models.take i)[k]? = file.models[k]? :=
    fun k hk => List.getElem?_take_of_lt hk
  refine ⟨j, by omega, ⟨?_, ?_⟩, hname⟩
  . rw [← hmodels j (by omega), ← hfirst, List.getElem?_eq_getElem]
  . intro k hk other hother heq
    have := hbefore k hk
    rw [← hmodels k (by omega), List.getElem?_eq_some_iff] at hother
    obtain ⟨_, rfl⟩ := hother
    rw [heq, hname, beq_self_eq_true] at this
    cases this

theorem reportsIn_duplicateProblem (hm : file.models[i]? = some m) :
    file.ReportsIn (· = .duplicate i) (m.duplicateProblem (file.models.take i)) := by
  unfold ModelDecl.duplicateProblem
  split
  . next h =>
    refine .single (fun _ => rfl) ?_
    rintro ⟨_, hm', j, hj, other, hother, hname⟩
    rw [hm, Option.some_inj] at hm'
    subst hm'
    rw [List.find?_eq_none] at h
    refine absurd (beq_iff_eq.mpr hname) (h other ?_)
    rw [← List.getElem?_take_of_lt hj] at hother
    exact List.mem_of_getElem? hother
  . next first h =>
    obtain ⟨j, hj, hfirst, hname⟩ := isFirst_of_find?_take h
    refine .single (fun hright => ?_) fun _ => ?_
    . exact absurd ⟨m, hm, j, hj, first, hfirst.1, hname⟩ hright
    . exact ⟨_, rfl, .duplicate hm hfirst hname ⟨rfl, rfl, rfl⟩⟩

def IsDeclarationSite (i : Nat) (site : NameSite) : Prop :=
  site = .model i ∨ (∃ k, site = .field i k) ∨ site = .duplicate i

theorem reportsIn_fields (hm : file.models[i]? = some m) :
    file.ReportsIn (fun site => ∃ k, site = .field i k)
      (m.fields.flatMap (identifierProblem "field" ·.name)) := by
  apply ReportsIn.flatMap
  . intro k field hfield
    apply reportsIn_identifierProblem
    . simp [IsWrongAt, hm, hfield]
    . exact fun _ => .field hm hfield
  . rintro k k' hlt _ rfl _ rfl
    simp [List.cons_lt_cons_iff, hlt]
  . rintro k _ rfl ⟨_, field, hm', hfield, _⟩
    rw [hm, Option.some_inj] at hm'
    subst hm'
    exact (List.getElem?_eq_some_iff.mp hfield).1

theorem reportsIn_declaration (hm : file.models[i]? = some m) :
    file.ReportsIn (IsDeclarationSite i) (m.nameProblems (file.models.take i)) := by
  have hname : file.ReportsIn (· = .model i) (identifierProblem "model" m.name) := by
    apply reportsIn_identifierProblem
    . simp [IsWrongAt, hm]
    . exact fun _ => .model hm
  have hnames := hname.append (reportsIn_fields hm) ?_
  . refine (hnames.append (reportsIn_duplicateProblem hm) ?_).congr ?_
    . rintro _ (rfl | ⟨k, rfl⟩) _ rfl
      . simp [List.cons_lt_cons_iff]
      . simp [List.cons_lt_cons_iff]
    . intro site _
      rw [IsDeclarationSite, or_assoc]
  . rintro _ rfl _ ⟨k, rfl⟩
    simp [List.cons_lt_cons_iff]

theorem declarations_eq_flatten (earlier ms : List ModelDecl) :
    nameProblems.declarations earlier ms
      = (ms.mapIdx fun i m => m.nameProblems (earlier ++ ms.take i)).flatten := by
  induction ms generalizing earlier with
  | nil => rfl
  | cons m ms ih => simp [nameProblems.declarations, ih, List.mapIdx_cons]

theorem reportsIn_declarations (file : SchemaFile) :
    file.ReportsIn (fun site => ∃ i, IsDeclarationSite i site)
      (nameProblems.declarations [] file.models) := by
  rw [declarations_eq_flatten]
  apply ReportsIn.flatten
  . intro i ds hds
    rw [List.getElem?_mapIdx, Option.map_eq_some_iff] at hds
    obtain ⟨m, hm, rfl⟩ := hds
    exact reportsIn_declaration hm
  . rintro i i' hlt _ (rfl | ⟨k, rfl⟩ | rfl) _ (rfl | ⟨k', rfl⟩ | rfl)
    all_goals simp [List.cons_lt_cons_iff, hlt]
  . intro i site hsite hwrong
    rw [List.length_mapIdx]
    obtain ⟨m, hm⟩ : ∃ m, file.models[i]? = some m := by
      rcases hsite with rfl | ⟨k, rfl⟩ | rfl
      . exact hwrong.imp fun _ h => h.1
      . obtain ⟨m, _, hm, _⟩ := hwrong
        exact ⟨m, hm⟩
      . exact hwrong.imp fun _ h => h.1
    exact (List.getElem?_eq_some_iff.mp hm).1

theorem superProblems_eq_flatMap (declared : List String) (m : ModelDecl) :
    m.superProblems declared = m.superTypes.flatMap fun superType =>
      ({ m with superTypes := [superType] } : ModelDecl).superProblems declared := by
  unfold ModelDecl.superProblems
  induction m.superTypes with
  | nil => rfl
  | cons superType superTypes ih =>
    rw [List.flatMap_cons, ← ih, ← List.map_append, ← List.filter_append, List.singleton_append]

theorem reportsIn_superProblem {superType : Located String} (hm : file.models[i]? = some m)
    (hsuper : m.superTypes[k]? = some superType) :
    file.ReportsIn (· = .superType i k)
      (({ m with superTypes := [superType] } : ModelDecl).superProblems
        (file.models.map (·.name.value))) := by
  have hwrong : file.IsWrongAt (.superType i k)
      ↔ superType.value ∉ file.models.map (·.name.value) := by
    simp [IsWrongAt, hm, hsuper]
  apply ReportsIn.single
  . intro h
    rw [hwrong, not_not] at h
    exact ModelDecl.superProblems_eq_nil.mpr (by simpa using h)
  . intro h
    rw [hwrong] at h
    rw [ModelDecl.superProblems, List.filter_cons_of_pos (by simpa using h)]
    exact ⟨_, rfl, .superType hm hsuper ⟨rfl, rfl, rfl⟩⟩

theorem reportsIn_superProblems (file : SchemaFile) :
    file.ReportsIn (fun site => ∃ i k, site = .superType i k)
      (file.models.flatMap (·.superProblems (file.models.map (·.name.value)))) := by
  apply ReportsIn.flatMap
  . intro i m hm
    rw [superProblems_eq_flatMap]
    apply ReportsIn.flatMap
    . exact fun k superType hsuper => reportsIn_superProblem hm hsuper
    . rintro k k' hlt _ rfl _ rfl
      simp [List.cons_lt_cons_iff, hlt]
    . rintro k _ rfl ⟨_, superType, hm', hsuper, _⟩
      rw [hm, Option.some_inj] at hm'
      subst hm'
      exact (List.getElem?_eq_some_iff.mp hsuper).1
  . rintro i i' hlt _ ⟨k, rfl⟩ _ ⟨k', rfl⟩
    simp [List.cons_lt_cons_iff, hlt]
  . rintro i _ ⟨k, rfl⟩ ⟨m, _, hm, _⟩
    exact (List.getElem?_eq_some_iff.mp hm).1

theorem reportsIn_nameProblems (file : SchemaFile) :
    file.ReportsIn (fun _ => True) file.nameProblems := by
  refine ((reportsIn_declarations file).append (reportsIn_superProblems file) ?_).congr ?_
  . rintro _ ⟨i, rfl | ⟨k, rfl⟩ | rfl⟩ _ ⟨i', k', rfl⟩
    all_goals simp [List.cons_lt_cons_iff]
  . intro site _
    cases site with
    | model i => simp [IsDeclarationSite]
    | field i k => simp [IsDeclarationSite]
    | duplicate i => simp [IsDeclarationSite]
    | superType i k => simp

/--
The check of the names of a file goes well exactly if nothing is wrong with them. Else it fails with
one report for each site where something is wrong, in the order of the sites.
-/
theorem conclude_nameProblems (file : SchemaFile) :
    (conclude file.nameProblems = .ok [] ↔ ∀ site, ¬ file.IsWrongAt site)
      ∧ ((∃ site, file.IsWrongAt site) →
        ∃ ds, conclude file.nameProblems = .error ⟨ds⟩
          ∧ ∃ sites : List NameSite, sites.Pairwise NameSite.IsBefore
            ∧ (∀ site, site ∈ sites ↔ file.IsWrongAt site)
            ∧ List.Forall₂ file.Reports sites ds) := by
  obtain ⟨sites, hordered, hmem, hreports⟩ := reportsIn_nameProblems file
  simp only [true_and] at hmem
  have hnil : file.nameProblems = [] ↔ ∀ site, ¬ file.IsWrongAt site := by
    rw [← List.length_eq_zero_iff, ← hreports.length_eq, List.length_eq_zero_iff,
      List.eq_nil_iff_forall_not_mem]
    exact forall_congr' fun site => not_congr (hmem site)
  constructor
  . rw [← hnil, conclude_eq_ok]
    constructor
    . exact fun h => h.1.symm
    . exact fun h => ⟨h.symm, by simp [h]⟩
  . rintro ⟨site, hsite⟩
    refine ⟨file.nameProblems, ?_, sites, hordered, hmem, hreports⟩
    obtain ⟨d, hd⟩ := List.exists_mem_of_ne_nil _ (mt hnil.mp fun h => h site hsite)
    rw [conclude, if_pos]
    rw [List.any_eq_true]
    exact ⟨d, hd, by simp [severity_of_mem_nameProblems hd]⟩

end SchemaFile
end Delegation
