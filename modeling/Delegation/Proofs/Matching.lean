import Delegation.Proofs.Naming
import Delegation.Revision
import Mathlib.Data.List.Basic

/-!
This module contains which parts of a declaration tree a revision changes. They are told by where
they stand: the declaration around them, what contains them directly, and the members around them.
-/

namespace Delegation

inductive Site where
  | typeAlias (a : TypeAlias)
  /--
  A member, with the alias whose type it stands in, and the members around it, each with its owner
  and the innermost first.
  -/
  | member (around : Option TypeAlias) (outer : List (Owner × Member)) (owner : Owner) (m : Member)

mutual

def objectSites (around : Option TypeAlias) (outer : List (Owner × Member)) :
    ObjectType → List Site
  | ⟨members, span⟩ => membersSites around outer (.typeLiteral ⟨members, span⟩) members

def objectsSites (around : Option TypeAlias) (outer : List (Owner × Member)) :
    List ObjectType → List Site
  | [] => []
  | o :: os => objectSites around outer o ++ objectsSites around outer os

def memberSites (around : Option TypeAlias) (outer : List (Owner × Member)) (owner : Owner) :
    Member → List Site
  | ⟨kind, name, isOptional, objects, span⟩ =>
    let m := ⟨kind, name, isOptional, objects, span⟩
    .member around outer owner m :: objectsSites around ((owner, m) :: outer) objects

def membersSites (around : Option TypeAlias) (outer : List (Owner × Member)) (owner : Owner) :
    List Member → List Site
  | [] => []
  | m :: ms => memberSites around outer owner m ++ membersSites around outer owner ms

end

mutual

def statementSites : Statement → List Site
  | .typeAlias a => .typeAlias a :: objectsSites (some a) [] a.type.objects
  | .interfaceBlock b => membersSites none [] (.interfaceBlock b) b.members
  | .classBlock b => membersSites none [] (.classBlock b) b.members
  | .namespaceBlock _ body _ => statementsSites body
  | .other objects _ => objectsSites none [] objects

def statementsSites : List Statement → List Site
  | [] => []
  | s :: ss => statementSites s ++ statementsSites ss

end

def DeclarationTree.sites (tree : DeclarationTree) : List Site :=
  statementsSites tree.statements

def Member.isBookkeeping (owner : Owner) (m : Member) : Bool :=
  (owner matches .typeLiteral _ | .interfaceBlock _) && (m.kind == .property || m.kind == .method)
    && m.name?.any fun name => "poly_aux_".toList.isPrefixOf name.toList

variable (g : DelegateGraph)

def Owner.isDelegateInterface : Owner → Bool
  | .interfaceBlock b => g.relations.any fun r => b.name.value == r.delegate.name ++ "Delegate"
  | .typeLiteral _ | .classBlock _ => false

def Member.isUnsafeMethod (owner : Owner) (m : Member) : Bool :=
  owner.isDelegateInterface g && m.kind == .method
    && m.name?.any fun name => ["create", "upsert"].contains name

def Member.isUnsafeWrite (around : Option TypeAlias) (owner : Owner) (m : Member) : Bool :=
  (owner matches .typeLiteral _) && m.kind == .property
    && around.any (fun a => (Client.inputAliasDelegate? a.name.value g).isSome)
    && m.name?.any fun name =>
      ["create", "update", "updateMany", "upsert", "connectOrCreate"].contains name

/--
Whether a member of `owner` has to go.
-/
def Member.isUnfit (around : Option TypeAlias) (owner : Owner) (m : Member) : Bool :=
  m.isBookkeeping owner || m.isUnsafeMethod g owner || m.isUnsafeWrite g around owner

def isOpen (around : Option TypeAlias) (outer : List (Owner × Member)) : Bool :=
  outer.all fun (owner, m) => !m.isUnfit g around owner

def TypeAlias.payloadRelation? (a : TypeAlias) : Option DelegateRelation :=
  (g.relations.find? fun r => a.name.value == Client.payloadAlias r.delegate.name).filter
    (!·.isDegenerate)

namespace Site

/--
Whether no member around the site has to go.
-/
def isExposed : Site → Bool
  | typeAlias _ => true
  | member around outer _ _ => isOpen g around outer

/--
The edit of a site: an exposed member that has to go is removed, and the payload of a delegate
becomes the union of those of its subtypes.
-/
def edit? : Site → Option Edit
  | typeAlias a =>
    (a.payloadRelation? g).map fun r =>
      .replacement a.type.span (Client.payloadUnion r.subtypes (a.params.map (·.name.value))).render
  | member around outer owner m =>
    if (member around outer owner m).isExposed g && m.isUnfit g around owner then
      some (.removal m.span)
    else
      none

def isAlias (p : TypeAlias → Bool) : Site → Bool
  | typeAlias a => p a
  | member .. => false

def isMember (p : Option TypeAlias → Owner → Member → Bool) : Site → Bool
  | typeAlias _ => false
  | member around outer owner m => (member around outer owner m).isExposed g && p around owner m

def node : Site → Node
  | typeAlias a => .typeAlias a
  | member _ _ owner m => .member owner m

end Site

def Node.isSite : Node → Bool
  | .typeAlias _ | .member .. => true
  | _ => false

mutual

theorem map_node_objectSites (around : Option TypeAlias) (outer : List (Owner × Member)) :
    ∀ o : ObjectType, (objectSites around outer o).map Site.node
      = (visitObject (fun _ => false) o).filter Node.isSite
  | ⟨members, span⟩ => by
    simp only [objectSites, visitObject]
    rw [map_node_membersSites]
    rfl

theorem map_node_objectsSites (around : Option TypeAlias) (outer : List (Owner × Member)) :
    ∀ os : List ObjectType, (objectsSites around outer os).map Site.node
      = (visitObjects (fun _ => false) os).filter Node.isSite
  | [] => rfl
  | o :: os => by
    simp only [objectsSites, visitObjects, List.map_append, List.filter_append]
    rw [map_node_objectSites, map_node_objectsSites]

theorem map_node_memberSites (around : Option TypeAlias) (outer : List (Owner × Member))
    (owner : Owner) : ∀ m : Member, (memberSites around outer owner m).map Site.node
      = (visitMember (fun _ => false) owner m).filter Node.isSite
  | ⟨kind, name, isOptional, objects, span⟩ => by
    simp only [memberSites, visitMember, List.map_cons]
    rw [map_node_objectsSites]
    rfl

theorem map_node_membersSites (around : Option TypeAlias) (outer : List (Owner × Member))
    (owner : Owner) : ∀ ms : List Member, (membersSites around outer owner ms).map Site.node
      = (visitMembers (fun _ => false) owner ms).filter Node.isSite
  | [] => rfl
  | m :: ms => by
    simp only [membersSites, visitMembers, List.map_append, List.filter_append]
    rw [map_node_memberSites, map_node_membersSites]

end

mutual

theorem map_node_statementSites : ∀ s : Statement, (statementSites s).map Site.node
    = (visitStatement (fun _ => false) s).filter Node.isSite
  | .typeAlias a => by
    simp only [statementSites, visitStatement, List.map_cons]
    rw [map_node_objectsSites]
    rfl
  | .interfaceBlock b => by
    simp only [statementSites, visitStatement]
    rw [map_node_membersSites]
    rfl
  | .classBlock b => by
    simp only [statementSites, visitStatement]
    rw [map_node_membersSites]
    rfl
  | .namespaceBlock name body span => by
    simp only [statementSites, visitStatement]
    rw [map_node_statementsSites]
    rfl
  | .other objects span => by
    simp only [statementSites, visitStatement]
    rw [map_node_objectsSites]
    rfl

theorem map_node_statementsSites : ∀ ss : List Statement, (statementsSites ss).map Site.node
    = (visitStatements (fun _ => false) ss).filter Node.isSite
  | [] => rfl
  | s :: ss => by
    simp only [statementsSites, visitStatements, List.map_append, List.filter_append]
    rw [map_node_statementSites, map_node_statementsSites]

end

theorem DeclarationTree.map_node_sites (tree : DeclarationTree) :
    tree.sites.map Site.node = (tree.visit fun _ => false).filter Node.isSite :=
  map_node_statementsSites tree.statements

theorem MemberBlock.isAccessor_eq (b : MemberBlock) :
    b.isAccessor g = (Owner.interfaceBlock b).isDelegateInterface g :=
  g.any_entityBefore? "Delegate" b.name.value

def isInputAlias (around : Option TypeAlias) : Bool :=
  around.any fun a => (Client.inputAliasDelegate? a.name.value g).isSome

theorem Member.isBookkeeping_eq {m : Member} {name : String} (h : m.name? = some name)
    (owner : Owner) :
    (owner.isSignatureOwner && m.isNamedSignature && Client.isAuxMember name)
      = m.isBookkeeping owner := by
  unfold isBookkeeping
  rw [h, isNamedSignature, Client.isAuxMember_eq, Option.any_some]
  cases owner with
  | typeLiteral | interfaceBlock | classBlock => rfl

theorem not_isPrefixOf_of_mem {name : String}
    (h : name ∈ ["create", "update", "updateMany", "upsert", "connectOrCreate"]) :
    "poly_aux_".toList.isPrefixOf name.toList = false := by
  have : ∀ unsafeName ∈ ["create", "update", "updateMany", "upsert", "connectOrCreate"],
      "poly_aux_".toList.isPrefixOf unsafeName.toList = false := by decide
  exact this name h

theorem Member.isBookkeeping_eq_false {owner : Owner} {m : Member} {name : String}
    (hname : m.name? = some name)
    (h : name ∈ ["create", "update", "updateMany", "upsert", "connectOrCreate"]) :
    m.isBookkeeping owner = false := by
  unfold isBookkeeping
  rw [hname, Option.any_some, not_isPrefixOf_of_mem h, Bool.and_false]

theorem Member.isBookkeeping_eq_false_of_isUnsafeMethod {owner : Owner} {m : Member}
    (h : m.isUnsafeMethod g owner = true) : m.isBookkeeping owner = false := by
  simp only [isUnsafeMethod, Bool.and_eq_true, Option.any_eq_true, List.contains_iff_mem] at h
  obtain ⟨_, name, hname, hmem⟩ := h
  apply isBookkeeping_eq_false hname
  revert hmem
  simp only [List.mem_cons]
  tauto

theorem Member.isBookkeeping_eq_false_of_isUnsafeWrite {around : Option TypeAlias} {owner : Owner}
    {m : Member} (h : m.isUnsafeWrite g around owner = true) : m.isBookkeeping owner = false := by
  simp only [isUnsafeWrite, Bool.and_eq_true, Option.any_eq_true, List.contains_iff_mem] at h
  obtain ⟨_, name, hname, hmem⟩ := h
  exact isBookkeeping_eq_false hname hmem

theorem memberFinding?_cases (around : Option TypeAlias) (owner : Owner) (m : Member) :
    let found := memberFinding? g (isInputAlias g around) owner m
    (m.isBookkeeping owner = false ∧ m.isUnsafeMethod g owner = false
        ∧ m.isUnsafeWrite g around owner = false ∧ found = none)
      ∨ (m.isBookkeeping owner = true ∧ m.isUnsafeMethod g owner = false
        ∧ m.isUnsafeWrite g around owner = false ∧ ∃ name, found = some (.auxMember name m.span))
      ∨ (m.isBookkeeping owner = false ∧ m.isUnsafeMethod g owner = true
        ∧ m.isUnsafeWrite g around owner = false
        ∧ ∃ interface name, found = some (.creatingMethod interface name m.span))
      ∨ (m.isBookkeeping owner = false ∧ m.isUnsafeMethod g owner = false
        ∧ m.isUnsafeWrite g around owner = true
        ∧ ∃ name, found = some (.nestedWrite name m.span)) := by
  intro found
  cases h : m.name? with
  | none =>
    simp [found, memberFinding?, Member.isBookkeeping, Member.isUnsafeMethod, Member.isUnsafeWrite,
      h]
  | some name =>
    have hmethod := @Member.isBookkeeping_eq_false_of_isUnsafeMethod g owner m
    have hwrite := @Member.isBookkeeping_eq_false_of_isUnsafeWrite g around owner m
    simp only [found, memberFinding?, h, Member.isBookkeeping_eq h]
    cases hb : m.isBookkeeping owner with
    | true =>
      rw [hb] at hmethod hwrite
      exact .inr (.inl ⟨rfl, by simpa using hmethod, by simpa using hwrite, name, rfl⟩)
    | false =>
      simp only [Bool.false_eq_true, ↓reduceIte]
      cases owner with
      | interfaceBlock b =>
        simp only [Member.isUnsafeMethod, Member.isUnsafeWrite, h, Option.any_some,
          ← MemberBlock.isAccessor_eq, ← Client.isCreatingMethod.eq_1, Bool.false_and]
        split
        . next h => exact .inr (.inr (.inl ⟨trivial, h, trivial, _, _, rfl⟩))
        . next h => exact .inl ⟨trivial, by simpa using h, trivial, rfl⟩
      | typeLiteral o =>
        simp only [Member.isUnsafeMethod, Member.isUnsafeWrite, h, Option.any_some,
          Owner.isDelegateInterface, ← isInputAlias.eq_1, ← Client.isNestedWrite.eq_1,
          Bool.false_and, Bool.true_and, Bool.and_comm (m.kind == .property)]
        split
        . next h => exact .inr (.inr (.inr ⟨trivial, trivial, h, _, rfl⟩))
        . next h => exact .inl ⟨trivial, trivial, by simpa using h, rfl⟩
      | classBlock b =>
        simp [Member.isUnsafeMethod, Member.isUnsafeWrite, Owner.isDelegateInterface]

theorem isSome_memberFinding? (around : Option TypeAlias) (owner : Owner) (m : Member) :
    (memberFinding? g (isInputAlias g around) owner m).isSome = m.isUnfit g around owner := by
  rcases memberFinding?_cases g around owner m with ⟨hb, hm, hw, h⟩ | ⟨hb, hm, hw, name, h⟩
    | ⟨hb, hm, hw, interface, name, h⟩ | ⟨hb, hm, hw, name, h⟩
  all_goals
    rw [Member.isUnfit, hb, hm, hw, h]
    rfl

theorem payloadFinding?_eq (a : TypeAlias) :
    payloadFinding? g a
      = (g.relations.find? fun r => a.name.value == Client.payloadAlias r.delegate.name).map
          fun r =>
            if r.isDegenerate then
              .emptyDelegate r.delegate.name
            else
              .payload a.name.value a.type.span r.subtypes (a.params.map (·.name.value)) := by
  rw [g.find?_payloadAlias, payloadFinding?]
  cases Client.payloadEntity? a.name.value with
  | none => rfl
  | some entity =>
    simp only [bind, Option.bind_some, DelegateGraph.subtypes?, DelegateRelation.isDegenerate]
    cases h : g.relations.find? (·.delegate.name == entity) with
    | none => rfl
    | some r =>
      have hr := List.find?_some h
      rw [beq_iff_eq] at hr
      cases hs : r.subtypes <;> simp [hs, hr, pure]

def Site.findings : Site → List Finding
  | typeAlias a =>
    (payloadFinding? g a).toList
      ++ ((Client.inputAliasDelegate? a.name.value g).map (.inputAlias a.name.value)).toList
  | member around outer owner m =>
    if (member around outer owner m).isExposed g then
      (memberFinding? g (isInputAlias g around) owner m).toList
    else
      []

theorem isOpen_cons (around : Option TypeAlias) (owner : Owner) (m : Member)
    (outer : List (Owner × Member)) :
    isOpen g around ((owner, m) :: outer) = (!m.isUnfit g around owner && isOpen g around outer) :=
  rfl

mutual

theorem objectSites_findings (around : Option TypeAlias) (outer : List (Owner × Member)) :
    ∀ o : ObjectType, (objectSites around outer o).flatMap (Site.findings g)
      = if isOpen g around outer then objectFindings g (isInputAlias g around) o else []
  | ⟨members, span⟩ => by
    rw [objectSites, objectFindings, membersSites_findings]

theorem objectsSites_findings (around : Option TypeAlias) (outer : List (Owner × Member)) :
    ∀ os : List ObjectType, (objectsSites around outer os).flatMap (Site.findings g)
      = if isOpen g around outer then objectsFindings g (isInputAlias g around) os else []
  | [] => by simp [objectsSites, objectsFindings]
  | o :: os => by
    rw [objectsSites, objectsFindings, List.flatMap_append, objectSites_findings,
      objectsSites_findings]
    split <;> simp

theorem memberSites_findings (around : Option TypeAlias) (outer : List (Owner × Member))
    (owner : Owner) : ∀ m : Member, (memberSites around outer owner m).flatMap (Site.findings g)
      = if isOpen g around outer then memberFindings g (isInputAlias g around) owner m else []
  | ⟨kind, name, isOptional, objects, span⟩ => by
    have hfit := isSome_memberFinding? g around owner ⟨kind, name, isOptional, objects, span⟩
    rw [memberSites, memberFindings, List.flatMap_cons, objectsSites_findings]
    rw [Site.findings, Site.isExposed, isOpen_cons, ← hfit]
    cases memberFinding? g (isInputAlias g around) owner ⟨kind, name, isOptional, objects, span⟩ with
    | none => simp
    | some finding => simp

theorem membersSites_findings (around : Option TypeAlias) (outer : List (Owner × Member))
    (owner : Owner) :
    ∀ ms : List Member, (membersSites around outer owner ms).flatMap (Site.findings g)
      = if isOpen g around outer then membersFindings g (isInputAlias g around) owner ms else []
  | [] => by simp [membersSites, membersFindings]
  | m :: ms => by
    rw [membersSites, membersFindings, List.flatMap_append, memberSites_findings,
      membersSites_findings]
    split <;> simp

end

def Finding.isAtSite : Finding → Bool
  | accessor _ => false
  | _ => true

theorem isAtSite_of_mem_findings {s : Site} {finding : Finding} (h : finding ∈ s.findings g) :
    finding.isAtSite = true := by
  cases s with
  | typeAlias a =>
    simp only [Site.findings, payloadFinding?_eq, List.mem_append, Option.mem_toList,
      Option.map_eq_some_iff] at h
    grind [Finding.isAtSite]
  | member around outer owner m =>
    simp only [Site.findings, memberFinding?] at h
    grind [Finding.isAtSite]

theorem filter_isAtSite_findings (sites : List Site) :
    (sites.flatMap (Site.findings g)).filter Finding.isAtSite
      = sites.flatMap (Site.findings g) := by
  apply List.filter_eq_self.mpr
  intro finding h
  obtain ⟨s, _, hs⟩ := List.mem_flatMap.mp h
  exact isAtSite_of_mem_findings g hs

theorem objectsFindings_eq (around : Option TypeAlias) (os : List ObjectType) :
    objectsFindings g (isInputAlias g around) os
      = (objectsSites around [] os).flatMap (Site.findings g) := by
  rw [objectsSites_findings]
  rfl

theorem membersFindings_eq (owner : Owner) (ms : List Member) :
    membersFindings g false owner ms = (membersSites none [] owner ms).flatMap (Site.findings g) := by
  rw [membersSites_findings]
  rfl

mutual

theorem filter_statementFindings : ∀ s : Statement,
    (statementFindings g s).filter Finding.isAtSite
      = (statementSites s).flatMap (Site.findings g)
  | .typeAlias a => by
    have := objectsFindings_eq g (some a) a.type.objects
    rw [isInputAlias, Option.any_some] at this
    rw [statementFindings, this, statementSites]
    exact filter_isAtSite_findings g (.typeAlias a :: objectsSites (some a) [] a.type.objects)
  | .interfaceBlock b => by
    rw [statementFindings, statementSites, membersFindings_eq, List.filter_append,
      filter_isAtSite_findings]
    split <;> rfl
  | .classBlock b => by
    rw [statementFindings, statementSites, membersFindings_eq, filter_isAtSite_findings]
  | .namespaceBlock name body span => by
    rw [statementFindings, statementSites, filter_statementsFindings]
  | .other objects span => by
    have := objectsFindings_eq g none objects
    rw [isInputAlias, Option.any_none] at this
    rw [statementFindings, statementSites, this, filter_isAtSite_findings]

theorem filter_statementsFindings : ∀ ss : List Statement,
    (statementsFindings g ss).filter Finding.isAtSite
      = (statementsSites ss).flatMap (Site.findings g)
  | [] => rfl
  | s :: ss => by
    rw [statementsFindings, statementsSites, List.filter_append, List.flatMap_append,
      filter_statementFindings, filter_statementsFindings]

end

namespace Site

theorem filterMap_edit?_findings (s : Site) :
    (s.findings g).filterMap Finding.edit? = (s.edit? g).toList := by
  cases s with
  | typeAlias a =>
    rw [findings, edit?, payloadFinding?_eq, TypeAlias.payloadRelation?, List.filterMap_append]
    rcases g.relations.find? _ with _ | ⟨delegate, _ | _⟩
    all_goals
      cases Client.inputAliasDelegate? a.name.value g <;> rfl
  | member around outer owner m =>
    rw [findings, edit?]
    rcases memberFinding?_cases g around owner m with ⟨hb, hm, hw, h⟩ | ⟨hb, hm, hw, name, h⟩
      | ⟨hb, hm, hw, interface, name, h⟩ | ⟨hb, hm, hw, name, h⟩
    all_goals
      rw [Member.isUnfit, hb, hm, hw, h]
      cases (member around outer owner m).isExposed g <;> rfl

end Site

namespace Summary

def ofSites (sites : List Site) : Summary where
  payloads := sites.countP (Site.isAlias fun a => (a.payloadRelation? g).isSome)
  inputAliases :=
    sites.countP (Site.isAlias fun a => (Client.inputAliasDelegate? a.name.value g).isSome)
  auxMembers := sites.countP (Site.isMember g fun _ owner m => m.isBookkeeping owner)
  nestedWrites := sites.countP (Site.isMember g fun around owner m => m.isUnsafeWrite g around owner)
  creatingMethods := sites.countP (Site.isMember g fun _ owner m => m.isUnsafeMethod g owner)

theorem ofFindings_site (s : Site) : ofFindings (s.findings g) = ofSites g [s] := by
  cases s with
  | typeAlias a =>
    rw [Site.findings, payloadFinding?_eq]
    rcases hr : g.relations.find? fun r => a.name.value == Client.payloadAlias r.delegate.name
      with _ | ⟨delegate, _ | _⟩
    all_goals
      cases hi : Client.inputAliasDelegate? a.name.value g <;>
      simp [ofFindings, ofSites, Site.isAlias, Site.isMember, TypeAlias.payloadRelation?,
        DelegateRelation.isDegenerate, hr, hi]
  | member around outer owner m =>
    rw [Site.findings]
    rcases memberFinding?_cases g around owner m with ⟨hb, hm, hw, h⟩ | ⟨hb, hm, hw, name, h⟩
      | ⟨hb, hm, hw, interface, name, h⟩ | ⟨hb, hm, hw, name, h⟩
    all_goals
      cases he : (Site.member around outer owner m).isExposed g <;>
      simp [ofFindings, ofSites, Site.isAlias, Site.isMember, hb, hm, hw, h, he]

theorem ofFindings_flatMap (sites : List Site) :
    ofFindings (sites.flatMap (Site.findings g)) = ofSites g sites := by
  induction sites with
  | nil => rfl
  | cons s sites ih =>
    have hs := ofFindings_site g s
    simp only [ofFindings, ofSites, Summary.mk.injEq, List.countP_singleton] at hs ih
    simp only [ofFindings, ofSites, List.flatMap_cons, List.countP_append, List.countP_cons,
      Summary.mk.injEq]
    omega

theorem ofFindings_filter (findings : List Finding) :
    ofFindings (findings.filter Finding.isAtSite) = ofFindings findings := by
  simp only [ofFindings, List.countP_filter]
  congr <;> funext finding <;> cases finding <;> rfl

theorem length_filterMap_edit? (findings : List Finding) :
    (findings.filterMap Finding.edit?).length
      = (ofFindings findings).payloads + (ofFindings findings).removals := by
  induction findings with
  | nil => rfl
  | cons finding findings ih =>
    simp only [ofFindings, removals] at ih
    cases finding <;> simp [List.filterMap_cons, Finding.edit?, ofFindings, removals, ih] <;> omega

end Summary

theorem filterMap_edit?_filter (findings : List Finding) :
    (findings.filter Finding.isAtSite).filterMap Finding.edit?
      = findings.filterMap Finding.edit? := by
  rw [List.filterMap_filter]
  congr
  funext finding
  cases finding <;> rfl

theorem applyEdits_nil (source : List Char) : applyEdits source [] = .ok ⟨source, []⟩ := by
  rw [applyEdits, settle, List.mergeSort_nil]
  rfl

theorem DeclarationTree.filter_findings (tree : DeclarationTree) :
    (tree.findings g).filter Finding.isAtSite = tree.sites.flatMap (Site.findings g) :=
  filter_statementsFindings g tree.statements

theorem DeclarationTree.filterMap_edit?_findings (tree : DeclarationTree) :
    (tree.findings g).filterMap Finding.edit? = tree.sites.filterMap (Site.edit? g) := by
  rw [← filterMap_edit?_filter, tree.filter_findings, List.filterMap_flatMap,
    List.filterMap_eq_flatMap_toList]
  congr
  funext s
  exact s.filterMap_edit?_findings g

theorem DeclarationTree.ofFindings_findings (tree : DeclarationTree) :
    Summary.ofFindings (tree.findings g) = Summary.ofSites g tree.sites := by
  rw [← Summary.ofFindings_filter, tree.filter_findings, Summary.ofFindings_flatMap]

/--
A revision edits exactly the sites that it has to, in the order of a walk through the whole tree:
the members that have to go and are not inside another one are removed, and the payloads of
delegates with subtypes are replaced. The summary counts them by their reasons, and where it is
empty the text stays as it is.
-/
theorem DeclarationTree.edits_eq_sites (tree : DeclarationTree) :
    let edits := (tree.findings g).filterMap Finding.edit?
    let summary := Summary.ofFindings (tree.findings g)
    tree.sites.map Site.node = (tree.visit fun _ => false).filter Node.isSite
      ∧ edits = tree.sites.filterMap (Site.edit? g)
      ∧ summary = Summary.ofSites g tree.sites
      ∧ edits.length = summary.payloads + summary.removals
      ∧ (summary.isEmpty = true →
          ∀ source, reviseTree g source tree = .ok ⟨source, summary⟩) := by
  refine ⟨tree.map_node_sites, tree.filterMap_edit?_findings g, tree.ofFindings_findings g,
    Summary.length_filterMap_edit? _, ?_⟩
  intro hempty source
  have hlength := Summary.length_filterMap_edit? (tree.findings g)
  simp only [Summary.isEmpty, Bool.and_eq_true, beq_iff_eq] at hempty
  rw [hempty.1, hempty.2, Nat.add_zero, List.length_eq_zero_iff] at hlength
  rw [reviseTree, hlength, applyEdits_nil]
  rfl

end Delegation
