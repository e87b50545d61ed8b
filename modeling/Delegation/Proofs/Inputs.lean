import Delegation.Proofs.Acceptance
import Delegation.Proofs.Matching
import Mathlib.Data.List.Infix

/-!
This module contains which aliases are inputs of which entities. An alias may be an input of more
than one entity, if the name of one of them extends that of the other. It is revised as an input of
a delegate if one of them is a delegate.
-/

namespace Delegation

namespace Client

/--
Whether `typeName` is an input that creates or updates `entity`: the name of the entity, possibly
`Unchecked`, `Create` or `Update`, and anything that ends in `Input`.
-/
def IsInputOf (entity typeName : String) : Prop :=
  ∃ mode ∈ ["", "Unchecked"], ∃ operation ∈ ["Create", "Update"], ∃ tail,
    typeName = entity ++ mode ++ operation ++ tail ++ "Input"

/--
Whether an entity called `longer` may have inputs in common with one called `shorter`.
-/
def Extends (longer shorter : String) : Prop :=
  longer = shorter ++ "Unchecked"
    ∨ ∃ mode ∈ ["", "Unchecked"], ∃ operation ∈ ["Create", "Update"], ∃ tail,
      longer = shorter ++ mode ++ operation ++ tail

theorem any_operation_eq_true {rest : String} :
    (["Create", "Update"].any fun operation =>
        (dropStart? operation rest).any fun tail => (dropEnding? "Input" tail).isSome) = true
      ↔ ∃ operation ∈ ["Create", "Update"], ∃ tail, rest = operation ++ tail ++ "Input" := by
  simp only [List.any_eq_true, Option.any_eq_true, Option.isSome_iff_exists, dropStart?_eq_some,
    dropEnding?_eq_some, String.append_assoc]
  constructor
  . rintro ⟨operation, hoperation, _, rfl, tail, rfl⟩
    exact ⟨operation, hoperation, tail, rfl⟩
  . rintro ⟨operation, hoperation, tail, rfl⟩
    exact ⟨operation, hoperation, _, rfl, tail, rfl⟩

theorem dropStart?_unchecked {operation : String} (h : operation ∈ ["Create", "Update"])
    (rest : String) : dropStart? "Unchecked" (operation ++ rest) = none := by
  apply Option.eq_none_iff_forall_ne_some.mpr
  intro other hother
  rw [dropStart?_eq_some, ← String.toList_inj] at hother
  simp only [List.mem_cons, List.not_mem_nil, or_false] at h
  rcases h with rfl | rfl <;> simp at hother

theorem isInputAliasOf_iff {typeName entity : String} :
    isInputAliasOf typeName entity = true ↔ IsInputOf entity typeName := by
  constructor
  . intro h
    unfold isInputAliasOf at h
    split at h
    . cases h
    . next rest hrest =>
      obtain rfl := dropStart?_eq_some.mp hrest
      obtain ⟨operation, hoperation, tail, heq⟩ := any_operation_eq_true.mp h
      cases hmode : dropStart? "Unchecked" rest with
      | none =>
        rw [hmode, Option.getD_none] at heq
        exact ⟨"", by simp, operation, hoperation, tail, by simp [heq, String.append_assoc]⟩
      | some unchecked =>
        rw [hmode, Option.getD_some] at heq
        obtain rfl := dropStart?_eq_some.mp hmode
        exact ⟨"Unchecked", by simp, operation, hoperation, tail,
          by simp [heq, String.append_assoc]⟩
  . rintro ⟨mode, hmode, operation, hoperation, tail, rfl⟩
    have hentity : dropStart? entity (entity ++ mode ++ operation ++ tail ++ "Input")
        = some (mode ++ (operation ++ (tail ++ "Input"))) := by
      simp [dropStart?_eq_some, String.append_assoc]
    simp only [isInputAliasOf, hentity]
    apply any_operation_eq_true.mpr
    refine ⟨operation, hoperation, tail, ?_⟩
    rw [String.append_assoc]
    simp only [List.mem_cons, List.not_mem_nil, or_false] at hmode
    rcases hmode with rfl | rfl
    . rw [String.empty_append, dropStart?_unchecked hoperation, Option.getD_none]
    . rw [dropStart?_eq_some.mpr rfl, Option.getD_some]

def writeNames : List (List Char) :=
  ["Create".toList, "Update".toList, "UncheckedCreate".toList, "UncheckedUpdate".toList]

theorem mem_writeNames {mode operation : String} (hmode : mode ∈ ["", "Unchecked"])
    (hoperation : operation ∈ ["Create", "Update"]) :
    mode.toList ++ operation.toList ∈ writeNames := by
  have hall : ∀ mode ∈ ["", "Unchecked"], ∀ operation ∈ ["Create", "Update"],
      mode.toList ++ operation.toList ∈ writeNames := by decide
  exact hall mode hmode operation hoperation

theorem eq_unchecked_of_overlap {front back other : List Char} (h : front ++ back ∈ writeNames)
    (hother : other ∈ writeNames) (hback : back <+: other ∨ other <+: back) :
    front = [] ∨ front = "Unchecked".toList ∨ back = [] := by
  have hall : ∀ word ∈ writeNames, ∀ other ∈ writeNames, ∀ n ∈ List.range 16,
      word.drop n <+: other ∨ other <+: word.drop n →
        word.take n = [] ∨ word.take n = "Unchecked".toList ∨ word.drop n = [] := by
    decide +kernel
  have hlength : ∀ word ∈ writeNames, word.length < 16 := by decide
  have hfront : front.length ∈ List.range 16 := by
    have := hlength _ h
    rw [List.length_append] at this
    exact List.mem_range.mpr (by omega)
  simpa using hall _ h other hother front.length hfront (by simpa using hback)

theorem eq_unchecked_or_prefix {front word other rest rest' : List Char} (hword : word ∈ writeNames)
    (hother : other ∈ writeNames) (h : word ++ rest = front ++ (other ++ rest')) :
    front = [] ∨ front = "Unchecked".toList ∨ ∃ tail, front = word ++ tail := by
  rcases List.append_eq_append_iff.mp h with ⟨tail, hfront, _⟩ | ⟨back, rfl, hback⟩
  . exact .inr (.inr ⟨tail, hfront⟩)
  . have hprefix : back <+: other ∨ other <+: back :=
      List.prefix_or_prefix_of_prefix (List.prefix_append back rest)
        (hback ▸ List.prefix_append other rest')
    rcases eq_unchecked_of_overlap hword hother hprefix with hnil | hunchecked | rfl
    . exact .inl hnil
    . exact .inr (.inl hunchecked)
    . exact .inr (.inr ⟨[], by simp⟩)

theorem extends_of_append {a b typeName more : String} (ha : IsInputOf a typeName)
    (hb : IsInputOf b typeName) (hmore : b = a ++ more) (hne : a ≠ b) : Extends b a := by
  subst hmore
  obtain ⟨mode, hmode, operation, hoperation, tail, rfl⟩ := ha
  obtain ⟨mode', hmode', operation', hoperation', tail', heq⟩ := hb
  simp only [← String.toList_inj, String.toList_append, List.append_assoc,
    List.append_cancel_left_eq] at heq
  rw [← List.append_assoc, ← List.append_assoc mode'.toList] at heq
  rcases eq_unchecked_or_prefix (mem_writeNames hmode hoperation)
    (mem_writeNames hmode' hoperation') heq with hnil | hunchecked | ⟨cs, hcs⟩
  . rw [String.toList_eq_nil_iff] at hnil
    simp [hnil] at hne
  . rw [String.toList_inj] at hunchecked
    exact .inl (by rw [hunchecked])
  . refine .inr ⟨mode, hmode, operation, hoperation, .ofList cs, ?_⟩
    simp [← String.toList_inj, hcs]

theorem extends_or_extends {a b typeName : String} (ha : IsInputOf a typeName)
    (hb : IsInputOf b typeName) (hne : a ≠ b) : Extends a b ∨ Extends b a := by
  have heq : ∃ rest rest', a ++ rest = b ++ rest' := by
    obtain ⟨mode, _, operation, _, tail, rfl⟩ := ha
    obtain ⟨mode', _, operation', _, tail', heq⟩ := hb
    simp only [String.append_assoc] at heq
    exact ⟨_, _, heq⟩
  obtain ⟨rest, rest', heq⟩ := heq
  rw [← String.toList_inj, String.toList_append, String.toList_append] at heq
  rcases List.append_eq_append_iff.mp heq with ⟨cs, hcs, _⟩ | ⟨cs, hcs, _⟩
  . have hlonger : b = a ++ .ofList cs := by simp [← String.toList_inj, hcs]
    exact .inr (extends_of_append ha hb hlonger hne)
  . have hlonger : a = b ++ .ofList cs := by simp [← String.toList_inj, hcs]
    exact .inl (extends_of_append hb ha hlonger hne.symm)

theorem accessorEntity?_eq_some {interface entity : String} :
    accessorEntity? interface = some entity ↔ interface = entity ++ "Delegate" ∧ entity ≠ "" :=
  entityBefore?_eq_some

theorem inputAliasDelegate?_eq_some {g : DelegateGraph} {typeName entity : String} :
    inputAliasDelegate? typeName g = some entity
      ↔ ∃ before r after, g.relations = before ++ r :: after ∧ r.delegate.name = entity
        ∧ IsInputOf entity typeName
        ∧ ∀ other ∈ before, ¬ IsInputOf other.delegate.name typeName := by
  rw [inputAliasDelegate?, List.find?_map, Option.map_eq_some_iff]
  simp only [List.find?_eq_some_iff_append, Function.comp_apply, Bool.not_eq_true',
    ← Bool.not_eq_true, isInputAliasOf_iff]
  constructor
  . rintro ⟨r, ⟨hinput, before, after, hrelations, hbefore⟩, rfl⟩
    exact ⟨before, r, after, hrelations, rfl, hinput, hbefore⟩
  . rintro ⟨before, r, after, hrelations, rfl, hinput, hbefore⟩
    exact ⟨r, ⟨hinput, before, after, hrelations, hbefore⟩, rfl⟩

/--
The names of payloads and accessors are told from all other names, and so are those of inputs,
whatever their entity is called. Of more than one delegate an alias belongs to the first one.
-/
theorem entity_of_name_iff (g : DelegateGraph) (name entity : String) :
    (payloadEntity? name = some entity ↔ entity ≠ "" ∧ name = payloadAlias entity)
      ∧ (accessorEntity? name = some entity ↔ entity ≠ "" ∧ name = entity ++ "Delegate")
      ∧ (isInputAliasOf name entity = true ↔ IsInputOf entity name)
      ∧ (inputAliasDelegate? name g = some entity
        ↔ ∃ before r after, g.relations = before ++ r :: after ∧ r.delegate.name = entity
          ∧ IsInputOf entity name ∧ ∀ other ∈ before, ¬ IsInputOf other.delegate.name name) := by
  refine ⟨?_, ?_, isInputAliasOf_iff, inputAliasDelegate?_eq_some⟩
  . rw [payloadEntity?_eq_some, and_comm]
  . rw [accessorEntity?_eq_some, and_comm]

theorem isSome_inputAliasDelegate? (m : Model) (typeName : String) :
    (inputAliasDelegate? typeName (.ofModel m)).isSome = true
      ↔ ∃ d ∈ m.delegates, IsInputOf d.name.name typeName := by
  simp [inputAliasDelegate?, isInputAliasOf_iff, DelegateGraph.ofModel, DelegateGraph.relationOf]

end Client

namespace Owner

def isLiteral : Owner → Bool
  | typeLiteral _ => true
  | interfaceBlock _ | classBlock _ => false

end Owner

def Member.isNestedWrite (m : Member) : Bool :=
  m.kind == .property && m.name?.any Client.isNestedWrite

theorem Member.isBookkeeping_of_isNestedWrite {m : Member} (h : m.isNestedWrite = true)
    (owner : Owner) : m.isBookkeeping owner = false := by
  obtain ⟨_, hname⟩ := Bool.and_eq_true_iff.mp h
  obtain ⟨name, hname, hmem⟩ := (Option.any_eq_true _ _).mp hname
  exact isBookkeeping_eq_false hname (by simpa [Client.isNestedWrite] using hmem)

theorem Member.isUnfit_of_isLiteral (g : DelegateGraph) (a : TypeAlias) {owner : Owner}
    (h : owner.isLiteral = true) (m : Member) :
    m.isUnfit g (some a) owner = (m.isBookkeeping owner
      || (Client.inputAliasDelegate? a.name.value g).isSome && m.isNestedWrite) := by
  cases owner with
  | typeLiteral o =>
    simp only [isUnfit, isUnsafeMethod, isUnsafeWrite, Owner.isDelegateInterface, isNestedWrite,
      Option.any_some, Bool.false_and, Bool.or_false, Bool.true_and]
    rw [Bool.and_comm (m.kind == .property), Bool.and_assoc]
    rfl
  | interfaceBlock b | classBlock b => cases h

def AreLiterals (around : Option TypeAlias) (outer : List (Owner × Member)) : Prop :=
  around.isSome = true → ∀ p ∈ outer, p.1.isLiteral = true

def Site.IsInLiterals : Site → Prop
  | typeAlias _ => True
  | member around outer owner m => AreLiterals around ((owner, m) :: outer)

mutual

theorem isInLiterals_objectSites {around : Option TypeAlias} {outer : List (Owner × Member)}
    (h : AreLiterals around outer) :
    ∀ o : ObjectType, ∀ s ∈ objectSites around outer o, s.IsInLiterals
  | ⟨members, span⟩ => by
    rw [objectSites]
    exact isInLiterals_membersSites h (fun _ => rfl) members

theorem isInLiterals_objectsSites {around : Option TypeAlias} {outer : List (Owner × Member)}
    (h : AreLiterals around outer) :
    ∀ os : List ObjectType, ∀ s ∈ objectsSites around outer os, s.IsInLiterals
  | [] => by simp [objectsSites]
  | o :: os => by
    rw [objectsSites]
    exact List.forall_mem_append.mpr ⟨isInLiterals_objectSites h o, isInLiterals_objectsSites h os⟩

theorem isInLiterals_memberSites {around : Option TypeAlias} {outer : List (Owner × Member)}
    {owner : Owner} (h : AreLiterals around outer)
    (howner : around.isSome = true → owner.isLiteral = true) :
    ∀ m : Member, ∀ s ∈ memberSites around outer owner m, s.IsInLiterals
  | ⟨kind, name, isOptional, objects, span⟩ => by
    have hcons (m : Member) : AreLiterals around ((owner, m) :: outer) :=
      fun haround => List.forall_mem_cons.mpr ⟨howner haround, h haround⟩
    rw [memberSites]
    exact List.forall_mem_cons.mpr ⟨hcons _, isInLiterals_objectsSites (hcons _) objects⟩

theorem isInLiterals_membersSites {around : Option TypeAlias} {outer : List (Owner × Member)}
    {owner : Owner} (h : AreLiterals around outer)
    (howner : around.isSome = true → owner.isLiteral = true) :
    ∀ ms : List Member, ∀ s ∈ membersSites around outer owner ms, s.IsInLiterals
  | [] => by simp [membersSites]
  | m :: ms => by
    rw [membersSites]
    exact List.forall_mem_append.mpr ⟨isInLiterals_memberSites h howner m,
      isInLiterals_membersSites h howner ms⟩

end

mutual

theorem isInLiterals_statementSites : ∀ s : Statement, ∀ site ∈ statementSites s, site.IsInLiterals
  | .typeAlias a => by
    rw [statementSites]
    exact List.forall_mem_cons.mpr ⟨trivial, isInLiterals_objectsSites (by simp [AreLiterals]) _⟩
  | .interfaceBlock b => isInLiterals_membersSites (by simp [AreLiterals]) (by simp) b.members
  | .classBlock b => isInLiterals_membersSites (by simp [AreLiterals]) (by simp) b.members
  | .namespaceBlock _ body _ => isInLiterals_statementsSites body
  | .other objects _ => isInLiterals_objectsSites (by simp [AreLiterals]) objects

theorem isInLiterals_statementsSites : ∀ ss : List Statement, ∀ site ∈ statementsSites ss,
    site.IsInLiterals
  | [] => by simp [statementsSites]
  | s :: ss => by
    rw [statementsSites]
    exact List.forall_mem_append.mpr ⟨isInLiterals_statementSites s,
      isInLiterals_statementsSites ss⟩

end

section

variable {tree : DeclarationTree} {a : TypeAlias} {outer : List (Owner × Member)} {owner : Owner}
  {member : Member}

theorem isLiteral_of_mem_sites (h : .member (some a) outer owner member ∈ tree.sites) :
    owner.isLiteral = true ∧ ∀ p ∈ outer, p.1.isLiteral = true :=
  List.forall_mem_cons.mp (isInLiterals_statementsSites tree.statements _ h rfl)

theorem Site.edit?_of_not_input {g : DelegateGraph}
    (h : (Client.inputAliasDelegate? a.name.value g).isSome = false)
    (hsite : .member (some a) outer owner member ∈ tree.sites) :
    (Site.member (some a) outer owner member).edit? g
      = if (outer.all fun (owner, member) => !member.isBookkeeping owner)
          && member.isBookkeeping owner then
          some (.removal member.span)
        else
          none := by
  obtain ⟨howner, houter⟩ := isLiteral_of_mem_sites hsite
  have hopen : isOpen g (some a) outer
      = outer.all fun (owner, member) => !member.isBookkeeping owner := by
    rw [isOpen, Bool.eq_iff_iff, List.all_eq_true, List.all_eq_true]
    refine forall₂_congr fun (owner, member) hp => ?_
    simp only
    rw [Member.isUnfit_of_isLiteral g a (houter _ hp), h, Bool.false_and, Bool.or_false]
  rw [Site.edit?, Site.isExposed, hopen, Member.isUnfit_of_isLiteral g a howner, h, Bool.false_and,
    Bool.or_false]

theorem Site.edit?_typeAlias_of_isInputOf (g : DelegateGraph) {entity : String}
    (h : Client.IsInputOf entity a.name.value) : (Site.typeAlias a).edit? g = none := by
  obtain ⟨mode, _, operation, _, tail, hname⟩ := h
  have hnone : (g.relations.find? fun r => a.name.value == Client.payloadAlias r.delegate.name)
      = none := by
    apply List.find?_eq_none.mpr
    intro r _ hpayload
    rw [beq_iff_eq, hname, Client.payloadAlias, ← String.toList_inj] at hpayload
    have := congrArg List.getLast? hpayload
    simp [List.getLast?_cons] at this
  rw [Site.edit?, TypeAlias.payloadRelation?, hnone]
  rfl

theorem Site.edit?_of_input {g : DelegateGraph}
    (h : (Client.inputAliasDelegate? a.name.value g).isSome = true)
    (hsite : .member (some a) outer owner member ∈ tree.sites)
    (hopen : isOpen g (some a) outer = true) (hwrite : member.isNestedWrite = true) :
    (Site.member (some a) outer owner member).edit? g = some (.removal member.span) := by
  obtain ⟨howner, _⟩ := isLiteral_of_mem_sites hsite
  rw [Site.edit?, Site.isExposed, hopen, Member.isUnfit_of_isLiteral g a howner, h, hwrite,
    Bool.true_and, Bool.and_self, Bool.or_true, if_pos rfl]

end

theorem revise_eq (m : Model) {source : List Char} {tree : DeclarationTree}
    (h : DeclarationTree.parse source = .ok tree) :
    revise m source
      = match applyEdits source (tree.sites.filterMap (Site.edit? (.ofModel m))) with
        | .ok splice => .ok ⟨splice.text, .ofSites (.ofModel m) tree.sites⟩
        | .error e => .error (.edit e) := by
  rw [← tree.filterMap_edit?_findings, ← tree.ofFindings_findings, revise, h]
  simp only [Except.mapError, bind, Except.bind, reviseTree]
  cases applyEdits source ((tree.findings (.ofModel m)).filterMap Finding.edit?) <;> rfl

theorem Model.name_ne_of_not_isDelegate {policy : EmptyDelegatePolicy} {schema : List Char}
    {m : Model} {ws : List Diagnostic} (h : loadSchema policy schema = .ok (m, ws)) {e d : Entity}
    (he : e ∈ m.entities) (hdelegate : e.isDelegate = false) (hd : d ∈ m.delegates) :
    d.name.name ≠ e.name.name := by
  obtain ⟨file, _, hdeclares, hacceptable, _⟩ := exists_file_of_loadSchema h
  have hnodup := hdeclares.nodup hacceptable.toHasNames
  obtain ⟨hmem, hmark⟩ := List.mem_filter.mp hd
  intro hname
  rw [List.inj_on_of_nodup_map hnodup hmem he (Ident.ext_name hname), hdelegate] at hmark
  cases hmark

/--
In an alias that is an input of an entity, and that entity is no delegate, no nested write is
removed: only bookkeeping members are, with what is inside them. The exception is an alias that is
an input of a delegate as well, which takes a delegate whose name extends that of the entity, or the
other way round.
-/
theorem nestedWrites_kept_unless_shared {policy : EmptyDelegatePolicy} {schema source : List Char}
    {m : Model} {ws : List Diagnostic} {e : Entity} {tree : DeclarationTree} {a : TypeAlias}
    (hschema : loadSchema policy schema = .ok (m, ws)) (he : e ∈ m.entities)
    (hdelegate : e.isDelegate = false) (htree : DeclarationTree.parse source = .ok tree)
    (hinput : Client.IsInputOf e.name.name a.name.value) :
    let g := DelegateGraph.ofModel m
    let edit? outer owner member := (Site.member (some a) outer owner member).edit? g
    revise m source
        = (match applyEdits source (tree.sites.filterMap (Site.edit? g)) with
          | .ok splice => .ok ⟨splice.text, .ofSites g tree.sites⟩
          | .error error => .error (.edit error))
      ∧ (Site.typeAlias a).edit? g = none
      ∧ ((∀ d ∈ m.delegates, ¬ Client.IsInputOf d.name.name a.name.value) →
          ∀ outer owner member, .member (some a) outer owner member ∈ tree.sites →
            (member.isNestedWrite = true → edit? outer owner member = none)
              ∧ edit? outer owner member
                = if (outer.all fun (owner, member) => !member.isBookkeeping owner)
                    && member.isBookkeeping owner then
                    some (.removal member.span)
                  else
                    none)
      ∧ ∀ d ∈ m.delegates, Client.IsInputOf d.name.name a.name.value →
          (Client.Extends d.name.name e.name.name ∨ Client.Extends e.name.name d.name.name)
            ∧ ∀ outer owner member, .member (some a) outer owner member ∈ tree.sites →
                isOpen g (some a) outer = true → member.isNestedWrite = true →
                  edit? outer owner member = some (.removal member.span) := by
  intro g edit?
  refine ⟨revise_eq m htree, Site.edit?_typeAlias_of_isInputOf g hinput, ?_, ?_⟩
  . intro hnone outer owner member hsite
    have hinput : (Client.inputAliasDelegate? a.name.value g).isSome = false := by
      rw [Bool.eq_false_iff, ne_eq, Client.isSome_inputAliasDelegate?]
      rintro ⟨d, hd, hinput⟩
      exact hnone d hd hinput
    refine ⟨fun hwrite => ?_, Site.edit?_of_not_input hinput hsite⟩
    simp [edit?, Site.edit?_of_not_input hinput hsite, member.isBookkeeping_of_isNestedWrite hwrite]
  . intro d hd hother
    have hne := Model.name_ne_of_not_isDelegate hschema he hdelegate hd
    refine ⟨Client.extends_or_extends hother hinput hne, ?_⟩
    intro outer owner member hsite hopen hwrite
    have hsome := (Client.isSome_inputAliasDelegate? m a.name.value).mpr ⟨d, hd, hother⟩
    exact Site.edit?_of_input hsome hsite hopen hwrite

theorem nestedWrites_kept_unless_shared_post :
    let schema := "model Asset \x7b @@delegate(kind) \x7d\n".toList
      ++ "model Video extends Asset \x7b \x7d\nmodel Post \x7b \x7d\n".toList
    let source := "type PostCreateInput = \x7b\n  asset?: \x7b create?: A; poly_aux_b: B \x7d\n".toList
      ++ "\x7d\n".toList
    let text := "type PostCreateInput = \x7b\n  asset?: \x7b create?: A; \x7d\n\x7d\n".toList
    let asset : Entity := ⟨⟨"Asset", by decide⟩, false, [], [⟨"@@delegate", some "kind"⟩], []⟩
    let video : Entity := ⟨⟨"Video", by decide⟩, false, [], [], [asset.name]⟩
    let post : Entity := ⟨⟨"Post", by decide⟩, false, [], [], []⟩
    let m : Model := ⟨[asset, video, post]⟩
    loadSchema .reject schema = .ok (m, []) ∧ post.isDelegate = false
      ∧ revise m source = .ok ⟨text, ⟨0, 0, 1, 0, 0⟩⟩
      ∧ ∃ tree a, DeclarationTree.parse source = .ok tree ∧ .typeAlias a ∈ tree.sites
        ∧ Client.IsInputOf post.name.name a.name.value
        ∧ (Site.typeAlias a).edit? (.ofModel m) = none
        ∧ ∀ outer owner member, .member (some a) outer owner member ∈ tree.sites →
          member.isNestedWrite = true →
            (Site.member (some a) outer owner member).edit? (.ofModel m) = none := by
  intro schema source text asset video post m
  have hschema : loadSchema .reject schema = .ok (m, []) := by decide +kernel
  have hrevise : revise m source = .ok ⟨text, ⟨0, 0, 1, 0, 0⟩⟩ := by decide +kernel
  have hok : (DeclarationTree.parse source).isOk = true := by decide +kernel
  obtain ⟨tree, htree⟩ := exists_of_isOk hok
  have halias : ((DeclarationTree.parse source).toOption.any fun tree =>
      tree.sites.any (Site.isAlias (·.name.value == "PostCreateInput"))) = true := by
    decide +kernel
  rw [htree] at halias
  obtain ⟨a, ha, hname⟩ : ∃ a, .typeAlias a ∈ tree.sites ∧ a.name.value = "PostCreateInput" := by
    obtain ⟨s, hs, halias⟩ := List.any_eq_true.mp halias
    cases s with
    | typeAlias a => exact ⟨a, hs, beq_iff_eq.mp halias⟩
    | member around outer owner member => cases halias
  have hinput : Client.IsInputOf post.name.name a.name.value :=
    ⟨"", by decide, "Create", by decide, "", hname⟩
  obtain ⟨_, hnone, hkept, _⟩ := nestedWrites_kept_unless_shared hschema
    (.tail _ (.tail _ (.head _))) rfl htree hinput
  refine ⟨hschema, rfl, hrevise, tree, a, htree, ha, hinput, hnone, ?_⟩
  intro outer owner member hsite hwrite
  refine (hkept ?_ outer owner member hsite).1 hwrite
  rw [hname]
  intro d hd
  obtain rfl := List.mem_singleton.mp hd
  rw [← Client.isInputAliasOf_iff]
  decide

/--
The inputs of an entity are taken for those of a delegate whose name it extends.
-/
theorem exists_nestedWrite_removed :
    let schema := "model Asset \x7b @@delegate(kind) \x7d\n".toList
      ++ "model AssetCreate extends Asset \x7b \x7d\n".toList
    let source := "type AssetCreateCreateInput = \x7b\n  create?: A\n\x7d\n".toList
    let text := "type AssetCreateCreateInput = \x7b\n\x7d\n".toList
    let asset : Entity := ⟨⟨"Asset", by decide⟩, false, [], [⟨"@@delegate", some "kind"⟩], []⟩
    let other : Entity := ⟨⟨"AssetCreate", by decide⟩, false, [], [], [asset.name]⟩
    let m : Model := ⟨[asset, other]⟩
    loadSchema .skip schema = .ok (m, []) ∧ other.isDelegate = false
      ∧ Client.IsInputOf other.name.name "AssetCreateCreateInput"
      ∧ revise m source = .ok ⟨text, ⟨0, 1, 0, 1, 0⟩⟩ := by
  intro schema source text asset other m
  refine ⟨by decide +kernel, rfl, ?_, by decide +kernel⟩
  exact ⟨"", by decide, "Create", by decide, "", rfl⟩

end Delegation
