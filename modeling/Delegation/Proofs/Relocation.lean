import Delegation.Proofs.Settling

/-!
This module contains trees, findings and edits whose offsets are moved, each by the same function.
What is found in a tree does not depend on its offsets, and which edits are settled depends on
nothing but their order.
-/

namespace Delegation

variable (f : Nat → Nat)

def Span.relocate (span : Span) : Span :=
  ⟨f span.start, f span.stop⟩

def Located.relocate {α : Type} (x : Located α) : Located α :=
  ⟨x.value, x.span.relocate f⟩

mutual

def ObjectType.relocate : ObjectType → ObjectType
  | ⟨members, span⟩ => ⟨Member.relocateAll members, span.relocate f⟩

def ObjectType.relocateAll : List ObjectType → List ObjectType
  | [] => []
  | o :: os => o.relocate :: ObjectType.relocateAll os

def Member.relocate : Member → Member
  | ⟨kind, name, isOptional, objects, span⟩ =>
    ⟨kind, name.map (·.relocate f), isOptional, ObjectType.relocateAll objects, span.relocate f⟩

def Member.relocateAll : List Member → List Member
  | [] => []
  | m :: ms => m.relocate :: Member.relocateAll ms

end

theorem ObjectType.relocateAll_append (os os' : List ObjectType) :
    relocateAll f (os ++ os') = relocateAll f os ++ relocateAll f os' := by
  induction os with
  | nil => rfl
  | cons o os ih =>
    rw [List.cons_append, relocateAll, ih]
    rfl

def TypeParam.relocate (p : TypeParam) : TypeParam :=
  ⟨p.name.relocate f, p.span.relocate f⟩

def TypeExpr.relocate (t : TypeExpr) : TypeExpr :=
  ⟨ObjectType.relocateAll f t.objects, t.span.relocate f⟩

def TypeAlias.relocate (a : TypeAlias) : TypeAlias :=
  ⟨a.name.relocate f, a.params.map (·.relocate f), a.type.relocate f, a.span.relocate f⟩

def MemberBlock.relocate (b : MemberBlock) : MemberBlock :=
  ⟨b.name.relocate f, b.params.map (·.relocate f), Member.relocateAll f b.members,
    b.span.relocate f⟩

mutual

def Statement.relocate : Statement → Statement
  | .typeAlias a => .typeAlias (a.relocate f)
  | .interfaceBlock b => .interfaceBlock (b.relocate f)
  | .classBlock b => .classBlock (b.relocate f)
  | .namespaceBlock name body span =>
    .namespaceBlock (name.relocate f) (Statement.relocateAll body) (span.relocate f)
  | .other objects span => .other (ObjectType.relocateAll f objects) (span.relocate f)

def Statement.relocateAll : List Statement → List Statement
  | [] => []
  | s :: ss => s.relocate :: Statement.relocateAll ss

end

theorem Statement.relocateAll_append (ss ss' : List Statement) :
    relocateAll f (ss ++ ss') = relocateAll f ss ++ relocateAll f ss' := by
  induction ss with
  | nil => rfl
  | cons s ss ih =>
    rw [List.cons_append, relocateAll, ih]
    rfl

theorem Statement.relocateAll_reverse (ss : List Statement) :
    relocateAll f ss.reverse = (relocateAll f ss).reverse := by
  induction ss with
  | nil => rfl
  | cons s ss ih =>
    rw [List.reverse_cons, relocateAll_append, ih]
    exact List.reverse_cons.symm

theorem Span.relocate_id (span : Span) : span.relocate id = span := rfl

theorem Located.relocate_id {α : Type} (x : Located α) : x.relocate id = x := rfl

mutual

theorem ObjectType.relocate_id : ∀ o : ObjectType, o.relocate id = o
  | ⟨members, span⟩ => by
    rw [ObjectType.relocate, Member.relocateAll_id, Span.relocate_id]

theorem ObjectType.relocateAll_id : ∀ os : List ObjectType, ObjectType.relocateAll id os = os
  | [] => rfl
  | o :: os => by
    rw [ObjectType.relocateAll, ObjectType.relocate_id, ObjectType.relocateAll_id]

theorem Member.relocate_id : ∀ m : Member, m.relocate id = m
  | ⟨kind, name, isOptional, objects, span⟩ => by
    rw [Member.relocate, ObjectType.relocateAll_id, Span.relocate_id]
    cases name <;> rfl

theorem Member.relocateAll_id : ∀ ms : List Member, Member.relocateAll id ms = ms
  | [] => rfl
  | m :: ms => by
    rw [Member.relocateAll, Member.relocate_id, Member.relocateAll_id]

end

theorem TypeAlias.relocate_id (a : TypeAlias) : a.relocate id = a := by
  have hparams : a.params.map (TypeParam.relocate id) = a.params := List.map_id' _
  simp only [relocate, TypeExpr.relocate, ObjectType.relocateAll_id, hparams, Located.relocate_id,
    Span.relocate_id]

theorem MemberBlock.relocate_id (b : MemberBlock) : b.relocate id = b := by
  have hparams : b.params.map (TypeParam.relocate id) = b.params := List.map_id' _
  simp only [relocate, Member.relocateAll_id, hparams, Located.relocate_id, Span.relocate_id]

mutual

theorem Statement.relocate_id : ∀ s : Statement, s.relocate id = s
  | .typeAlias a => by rw [Statement.relocate, a.relocate_id]
  | .interfaceBlock b => by rw [Statement.relocate, b.relocate_id]
  | .classBlock b => by rw [Statement.relocate, b.relocate_id]
  | .namespaceBlock name body span => by
    rw [Statement.relocate, Statement.relocateAll_id, Located.relocate_id, Span.relocate_id]
  | .other objects span => by
    rw [Statement.relocate, ObjectType.relocateAll_id, Span.relocate_id]

theorem Statement.relocateAll_id : ∀ ss : List Statement, Statement.relocateAll id ss = ss
  | [] => rfl
  | s :: ss => by
    rw [Statement.relocateAll, Statement.relocate_id, Statement.relocateAll_id]

end

def Owner.relocate : Owner → Owner
  | typeLiteral o => typeLiteral (o.relocate f)
  | interfaceBlock b => interfaceBlock (b.relocate f)
  | classBlock b => classBlock (b.relocate f)

def Finding.relocate : Finding → Finding
  | payload typeName span subtypes params => payload typeName (span.relocate f) subtypes params
  | auxMember member span => auxMember member (span.relocate f)
  | creatingMethod interface method span => creatingMethod interface method (span.relocate f)
  | nestedWrite member span => nestedWrite member (span.relocate f)
  | finding => finding

def Edit.relocate : Edit → Edit
  | removal span => removal (span.relocate f)
  | replacement span text => replacement (span.relocate f) text

@[simp]
theorem Edit.span_relocate (e : Edit) : (e.relocate f).span = e.span.relocate f := by
  cases e <;> rfl

theorem edit?_relocate (finding : Finding) :
    (finding.relocate f).edit? = finding.edit?.map (·.relocate f) := by
  cases finding <;> rfl

/-!
The findings of a relocated tree are those of the tree.
-/

variable (g : DelegateGraph)

theorem memberFinding?_relocate (isInput : Bool) (owner : Owner) (m : Member) :
    memberFinding? g isInput (owner.relocate f) (m.relocate f)
      = (memberFinding? g isInput owner m).map (Finding.relocate f) := by
  obtain ⟨kind, name, isOptional, objects, span⟩ := m
  have howner : (owner.relocate f).isSignatureOwner = owner.isSignatureOwner := by
    cases owner <;> rfl
  unfold memberFinding?
  rw [howner]
  cases name with
  | none => rfl
  | some name =>
    simp only [Member.relocate, Member.name?, Member.isNamedSignature, Option.map_some,
      Located.relocate]
    rw [apply_ite (Option.map (Finding.relocate f))]
    congr 1
    cases owner with
    | typeLiteral o =>
      simp only [Owner.relocate]
      rw [apply_ite (Option.map (Finding.relocate f))]
      rfl
    | interfaceBlock b =>
      have haccessor : (b.relocate f).isAccessor g = b.isAccessor g := rfl
      simp only [Owner.relocate, haccessor]
      rw [apply_ite (Option.map (Finding.relocate f))]
      rfl
    | classBlock b => rfl

mutual

theorem objectFindings_relocate (isInput : Bool) : ∀ o : ObjectType,
    objectFindings g isInput (o.relocate f)
      = (objectFindings g isInput o).map (Finding.relocate f)
  | ⟨members, span⟩ => by
    rw [ObjectType.relocate, objectFindings, objectFindings, ← membersFindings_relocate]
    rfl

theorem objectsFindings_relocate (isInput : Bool) : ∀ os : List ObjectType,
    objectsFindings g isInput (ObjectType.relocateAll f os)
      = (objectsFindings g isInput os).map (Finding.relocate f)
  | [] => rfl
  | o :: os => by
    rw [ObjectType.relocateAll, objectsFindings, objectFindings_relocate, objectsFindings_relocate,
      objectsFindings, List.map_append]

theorem memberFindings_relocate (isInput : Bool) (owner : Owner) : ∀ m : Member,
    memberFindings g isInput (owner.relocate f) (m.relocate f)
      = (memberFindings g isInput owner m).map (Finding.relocate f)
  | ⟨kind, name, isOptional, objects, span⟩ => by
    have hfinding :=
      memberFinding?_relocate f g isInput owner ⟨kind, name, isOptional, objects, span⟩
    rw [Member.relocate] at hfinding ⊢
    rw [memberFindings, memberFindings, hfinding]
    cases memberFinding? g isInput owner ⟨kind, name, isOptional, objects, span⟩ with
    | none => exact objectsFindings_relocate isInput objects
    | some finding => rfl

theorem membersFindings_relocate (isInput : Bool) (owner : Owner) : ∀ ms : List Member,
    membersFindings g isInput (owner.relocate f) (Member.relocateAll f ms)
      = (membersFindings g isInput owner ms).map (Finding.relocate f)
  | [] => rfl
  | m :: ms => by
    rw [Member.relocateAll, membersFindings, memberFindings_relocate, membersFindings_relocate,
      membersFindings, List.map_append]

end

theorem payloadFinding?_relocate (a : TypeAlias) :
    payloadFinding? g (a.relocate f) = (payloadFinding? g a).map (Finding.relocate f) := by
  have hparams : (a.params.map (·.relocate f)).map (·.name.value) = a.params.map (·.name.value) := by
    rw [List.map_map]
    rfl
  unfold payloadFinding?
  simp only [TypeAlias.relocate, Located.relocate, hparams]
  cases Client.payloadEntity? a.name.value with
  | none => rfl
  | some delegate =>
    simp only [Option.bind_eq_bind, Option.bind_some]
    rcases g.subtypes? delegate with _ | _ | _
    all_goals
      rfl

mutual

theorem statementFindings_relocate : ∀ s : Statement,
    statementFindings g (s.relocate f) = (statementFindings g s).map (Finding.relocate f)
  | .typeAlias a => by
    rw [Statement.relocate, statementFindings, statementFindings, payloadFinding?_relocate]
    simp only [TypeAlias.relocate, TypeExpr.relocate, Located.relocate, objectsFindings_relocate,
      List.map_append]
    cases payloadFinding? g a with
    | none => cases Client.inputAliasDelegate? a.name.value g <;> rfl
    | some finding => cases Client.inputAliasDelegate? a.name.value g <;> rfl
  | .interfaceBlock b => by
    have hmembers := membersFindings_relocate f g false (.interfaceBlock b) b.members
    have haccessor : (b.relocate f).isAccessor g = b.isAccessor g := rfl
    rw [Statement.relocate, statementFindings, statementFindings, haccessor, List.map_append,
      ← hmembers]
    split <;> rfl
  | .classBlock b => by
    have hmembers := membersFindings_relocate f g false (.classBlock b) b.members
    rw [Statement.relocate, statementFindings, statementFindings, ← hmembers]
    rfl
  | .namespaceBlock name body span => by
    rw [Statement.relocate, statementFindings, statementsFindings_relocate, statementFindings]
  | .other objects span => by
    rw [Statement.relocate, statementFindings, objectsFindings_relocate, statementFindings]

theorem statementsFindings_relocate : ∀ ss : List Statement,
    statementsFindings g (Statement.relocateAll f ss)
      = (statementsFindings g ss).map (Finding.relocate f)
  | [] => rfl
  | s :: ss => by
    rw [Statement.relocateAll, statementsFindings, statementFindings_relocate,
      statementsFindings_relocate, statementsFindings, List.map_append]

end

theorem statementsFindings_append (ss ss' : List Statement) :
    statementsFindings g (ss ++ ss') = statementsFindings g ss ++ statementsFindings g ss' := by
  induction ss with
  | nil => rfl
  | cons s ss ih =>
    rw [List.cons_append, statementsFindings, ih, statementsFindings, List.append_assoc]

theorem editsFor_relocate (findings : List Finding) :
    editsFor (findings.map (Finding.relocate f)) = (editsFor findings).map (Edit.relocate f) := by
  rw [editsFor, editsFor, List.filterMap_map, List.map_filterMap]
  congr
  funext finding
  exact edit?_relocate f finding

theorem Summary.ofFindings_relocate (findings : List Finding) :
    ofFindings (findings.map (Finding.relocate f)) = ofFindings findings := by
  unfold ofFindings
  simp only [List.countP_map, Summary.mk.injEq]
  refine ⟨?_, ?_, ?_, ?_, ?_⟩
  all_goals
    congr
    funext finding
    cases finding <;> rfl

/-!
Edits are settled by their order.
-/

namespace Settlement

def relocate (s : Settlement) : Settlement :=
  ⟨s.kept.map (Edit.relocate f), s.subsumed.map (Span.relocate f)⟩

end Settlement

variable {f} (hf : ∀ {a b : Nat}, a < b → f a < f b)
include hf

theorem lt_iff_of_relocate {a b : Nat} : f a < f b ↔ a < b := by
  refine ⟨?_, hf⟩
  intro h
  by_contra hle
  rcases Nat.lt_or_eq_of_le (Nat.le_of_not_lt hle) with hlt | heq
  . have := hf hlt
    omega
  . rw [heq] at h
    omega

theorem le_iff_of_relocate {a b : Nat} : f a ≤ f b ↔ a ≤ b := by
  have := lt_iff_of_relocate hf (a := b) (b := a)
  omega

theorem eq_iff_of_relocate {a b : Nat} : f a = f b ↔ a = b := by
  have hab := le_iff_of_relocate hf (a := a) (b := b)
  have hba := le_iff_of_relocate hf (a := b) (b := a)
  omega

theorem Span.relocate_inj {a b : Span} : a.relocate f = b.relocate f ↔ a = b := by
  obtain ⟨start, stop⟩ := a
  obtain ⟨start', stop'⟩ := b
  simp only [relocate, Span.mk.injEq, eq_iff_of_relocate hf]

theorem Edit.relocate_inj {a b : Edit} : a.relocate f = b.relocate f ↔ a = b := by
  cases a with
  | removal span =>
    cases b with
    | removal span' => simp only [relocate, removal.injEq, Span.relocate_inj hf]
    | replacement span' text => simp [relocate]
  | replacement span text =>
    cases b with
    | removal span' => simp [relocate]
    | replacement span' text' => simp only [relocate, replacement.injEq, Span.relocate_inj hf]

theorem Span.contains_relocate (a b : Span) :
    (a.relocate f).contains (b.relocate f) = a.contains b := by
  simp only [contains, relocate, le_iff_of_relocate hf]

theorem Span.overlaps_relocate (a b : Span) :
    (a.relocate f).overlaps (b.relocate f) = a.overlaps b := by
  simp only [overlaps, relocate, lt_iff_of_relocate hf]

theorem Edit.precedes_relocate (a b : Edit) :
    (a.relocate f).precedes (b.relocate f) = a.precedes b := by
  have hbeq : (f a.span.start == f b.span.start) = (a.span.start == b.span.start) := by
    rw [Bool.eq_iff_iff, beq_iff_eq, beq_iff_eq]
    exact eq_iff_of_relocate hf
  simp only [precedes, Edit.span_relocate, Span.relocate, lt_iff_of_relocate hf,
    le_iff_of_relocate hf, hbeq]

theorem settleAfter_relocate {last : Edit} {es : List Edit} {settled : Settlement}
    (h : settleAfter last es = .ok settled) :
    settleAfter (last.relocate f) (es.map (Edit.relocate f)) = .ok (settled.relocate f) := by
  induction es generalizing last settled with
  | nil =>
    cases h
    rfl
  | cons e es ih =>
    rw [settleAfter] at h
    rw [List.map_cons, settleAfter]
    simp only [Edit.span_relocate, Span.relocate_inj hf, Edit.relocate_inj hf,
      Span.contains_relocate hf, Span.overlaps_relocate hf]
    split at h
    . next hspan =>
      rw [if_pos hspan]
      split at h
      . next heq =>
        rw [if_pos heq]
        exact ih h
      . cases h
    . next hspan =>
      rw [if_neg hspan]
      split at h
      . next hcontains =>
        rw [if_pos hcontains]
        obtain ⟨s, hs, h⟩ := bind_eq_ok h
        cases h
        rw [ih hs]
        rfl
      . next hcontains =>
        rw [if_neg hcontains]
        split at h
        . cases h
        . next hoverlaps =>
          rw [if_neg hoverlaps]
          obtain ⟨s, hs, h⟩ := bind_eq_ok h
          cases h
          rw [ih hs]
          rfl

/--
Relocated edits are settled alike if their order stays.
-/
theorem settle_relocate {es : List Edit} {settled : Settlement} (h : settle es = .ok settled) :
    settle (es.map (Edit.relocate f)) = .ok (settled.relocate f) := by
  have hsort : (es.map (Edit.relocate f)).mergeSort Edit.precedes
      = (es.mergeSort Edit.precedes).map (Edit.relocate f) := by
    rw [List.map_mergeSort]
    intro a _ b _
    exact (Edit.precedes_relocate hf a b).symm
  unfold settle at h ⊢
  rw [hsort]
  split at h
  . next hes =>
    cases h
    rw [hes]
    rfl
  . next e es hes =>
    rw [hes]
    exact settleAfter_relocate hf h

end Delegation
