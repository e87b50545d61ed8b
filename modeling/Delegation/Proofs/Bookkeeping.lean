import Delegation.Proofs.Literals
import Delegation.Proofs.Matching
import Delegation.Proofs.MaximalEdits
import Delegation.Proofs.Revision
import Delegation.Proofs.Rows
import Delegation.Schema.Load

/-!
This module contains which bookkeeping members a revision takes away: all of those that the tree
has, so all but those in what the parser passes over. The literals in the parameters of a
declaration and in what it extends are passed over, and their members stay where they are.
-/

namespace Delegation

open Item Lexeme

/--
Whether all bookkeeping members among `nodes` are inside the spans of some of `edits`.
-/
def AreTakenBy (edits : List Edit) (nodes : List Node) : Prop :=
  ∀ owner m, .member owner m ∈ nodes → m.isBookkeeping owner = true →
    ∃ e ∈ edits, e.span.contains m.span = true

namespace AreTakenBy

variable {edits edits' : List Edit} {nodes nodes' : List Node}

theorem nil (edits : List Edit) : AreTakenBy edits [] := by
  intro owner m hm
  cases hm

theorem append (h : AreTakenBy edits nodes) (h' : AreTakenBy edits' nodes') :
    AreTakenBy (edits ++ edits') (nodes ++ nodes') := by
  intro owner m hm hbooks
  rcases List.mem_append.mp hm with hm | hm
  . obtain ⟨e, he, hcontains⟩ := h owner m hm hbooks
    exact ⟨e, List.mem_append_left _ he, hcontains⟩
  . obtain ⟨e, he, hcontains⟩ := h' owner m hm hbooks
    exact ⟨e, List.mem_append_right _ he, hcontains⟩

theorem mono (h : AreTakenBy edits nodes) (hmore : ∀ e ∈ edits, e ∈ edits') :
    AreTakenBy edits' nodes := by
  intro owner m hm hbooks
  obtain ⟨e, he, hcontains⟩ := h owner m hm hbooks
  exact ⟨e, hmore e he, hcontains⟩

theorem under {node : Node} (h : AreTakenBy edits nodes) (hnode : ∀ owner m, node ≠ .member owner m) :
    AreTakenBy edits (node :: nodes) := by
  intro owner m hm hbooks
  rcases List.mem_cons.mp hm with hm | hm
  . exact absurd hm.symm (hnode owner m)
  . exact h owner m hm hbooks

end AreTakenBy

theorem MemberOf.contains_of_mem {used next : List Item} {m m' : Member} {owner owner' : Owner}
    {start : Nat} (h : MemberOf used next m) (horder : InOrder start used)
    (hm : .member owner' m' ∈ visitMember (fun _ => false) owner m) :
    m.span.contains m'.span = true := by
  obtain ⟨used', ⟨before, after, hused⟩, next', hread⟩ := h.isReadIn owner _ hm
  obtain ⟨first, more, rfl, hspan⟩ := h.span_eq
  obtain ⟨first', more', rfl, hspan'⟩ := hread.span_eq
  rw [Span.contains_iff, hspan, hspan']
  -- Both spans begin at the lead of an item, so the order is looked at from the lead of the first.
  have hlead : InOrder first.lead (first :: more) := ⟨Nat.le_refl _, horder.2⟩
  have hstop : stopAfter first.span.stop more = stopAfter first.lead (first :: more) := rfl
  rw [hstop]
  rw [← hused, inOrder_append, inOrder_append, stopAfter_append] at hlead
  rw [← hused, stopAfter_append, stopAfter_append]
  have hbefore := hlead.1.1.le_stopAfter
  have hfirst := hlead.1.2.1
  have hafter := hlead.2.le_stopAfter
  refine ⟨?_, hafter⟩
  dsimp only
  omega

section

variable (g : DelegateGraph)

theorem memberFinding?_ne_none {isInput : Bool} {owner : Owner} {m : Member}
    (h : m.isBookkeeping owner = true) : memberFinding? g isInput owner m ≠ none := by
  unfold memberFinding?
  split
  . next hname =>
    simp [Member.isBookkeeping, hname] at h
  . next name hname =>
    rw [m.isBookkeeping_eq hname owner, h, if_pos rfl]
    simp

mutual

theorem TermsOf.areTakenBy {collect : Bool} {items : List Item} {os : List ObjectType}
    (h : TermsOf collect items os) (isInput : Bool) {start : Nat} (horder : InOrder start items) :
    AreTakenBy (editsFor (objectsFindings g isInput os)) (visitObjects (fun _ => false) os) := by
  match h with
  | .nil =>
    rw [visitObjects]
    exact .nil _
  | .item _ _ htail => exact htail.areTakenBy isInput horder.2.2.2
  | .group _ _ _ hinner htail =>
    obtain ⟨_, _, _, horder⟩ := horder
    rw [inOrder_append] at horder
    rw [objectsFindings_append, editsFor_append, visitObjects_append]
    exact (hinner.areTakenBy isInput horder.1).append (htail.areTakenBy isInput horder.2.2.2.2)
  | .object _ _ hinner htail =>
    obtain ⟨_, _, _, horder⟩ := horder
    rw [inOrder_append] at horder
    rw [objectsFindings, objectFindings, editsFor_append, visitObjects, visitObject]
    exact ((hinner.areTakenBy isInput _ horder.1).under (by simp)).append
      (htail.areTakenBy isInput horder.2.2.2.2)

theorem MembersOf.areTakenBy {items : List Item} {ms : List Member} (h : MembersOf items ms)
    (isInput : Bool) (owner : Owner) {start : Nat} (horder : InOrder start items) :
    AreTakenBy (editsFor (membersFindings g isInput owner ms))
      (visitMembers (fun _ => false) owner ms) := by
  match h with
  | .nil =>
    rw [visitMembers]
    exact .nil _
  | .separator _ htail => exact htail.areTakenBy isInput owner horder.2.2.2
  | .member hmember htail =>
    rw [inOrder_append] at horder
    rw [membersFindings, editsFor_append, visitMembers]
    exact (hmember.areTakenBy isInput owner horder.1).append
      (htail.areTakenBy isInput owner horder.2)

theorem MemberOf.areTakenBy {used next : List Item} {m : Member} (h : MemberOf used next m)
    (isInput : Bool) (owner : Owner) {start : Nat} (horder : InOrder start used) :
    AreTakenBy (editsFor (memberFindings g isInput owner m))
      (visitMember (fun _ => false) owner m) := by
  have hself := h
  match h with
  | @MemberOf.mk first more head body separator _ kind name isOptional os hused _ _ _ hbody _ _ =>
    rw [memberFindings]
    split
    . next finding hfinding =>
      -- The member goes, with all that is inside it.
      have hedit := edit?_memberFinding? g hfinding
      intro owner' m' hm' _
      refine ⟨.removal _, ?_, hself.contains_of_mem horder hm'⟩
      simp [editsFor, hedit]
    . next hnone =>
      rw [hused, inOrder_append, inOrder_append] at horder
      have hinner := hbody.areTakenBy isInput horder.1.2
      rw [visitMember]
      intro owner' m' hm' hbooks
      rcases List.mem_cons.mp hm' with hm' | hm'
      . cases hm'
        exact absurd hnone (memberFinding?_ne_none g hbooks)
      . exact hinner owner' m' hm' hbooks

end

theorem MembersOf.areTakenBy_block {head inner : List Item} {opener closer : Item} {ms : List Member}
    (h : MembersOf inner ms) (owner : Owner) {start : Nat}
    (horder : InOrder start (head ++ opener :: (inner ++ [closer]))) :
    AreTakenBy (editsFor (membersFindings g false owner ms))
      (visitMembers (fun _ => false) owner ms) := by
  rw [inOrder_append] at horder
  obtain ⟨_, _, _, _, horder⟩ := horder
  rw [inOrder_append] at horder
  exact h.areTakenBy g false owner horder.1

mutual

theorem StatementOf.areTakenBy {used : List Item} {s : Statement} (h : StatementOf used s)
    {start : Nat} (horder : InOrder start used) :
    AreTakenBy (editsFor (statementFindings g s)) (visitStatement (fun _ => false) s) := by
  match h with
  | @StatementOf.typeAlias _ _ _ _ _ _ _ name _ _ hused _ _ htype _ =>
    rw [hused, inOrder_append] at horder
    obtain ⟨_, _, _, _, horder⟩ := horder
    rw [inOrder_append] at horder
    have hinner := htype.areTakenBy g (Client.inputAliasDelegate? name.value g).isSome horder.1
    rw [editsFor_statementFindings_typeAlias, visitStatement]
    refine ((hinner.mono ?_).under (by simp)).under (by simp)
    exact fun e he => List.mem_append_right _ he
  | .interfaceBlock hused _ _ _ hinner =>
    rw [hused] at horder
    rw [editsFor_statementFindings_interfaceBlock, visitStatement]
    exact ((hinner.areTakenBy_block g _ horder).under (by simp)).under (by simp)
  | .classBlock hused _ _ _ hinner =>
    rw [hused] at horder
    rw [statementFindings, visitStatement]
    exact ((hinner.areTakenBy_block g _ horder).under (by simp)).under (by simp)
  | .namespaceBlock hused _ _ _ hinner =>
    rw [hused, inOrder_append] at horder
    obtain ⟨_, _, _, _, horder⟩ := horder
    rw [inOrder_append] at horder
    rw [statementFindings, visitStatement]
    exact ((hinner.areTakenBy horder.1).under (by simp)).under (by simp)
  | .other hused _ hbody _ =>
    rw [hused, inOrder_append, inOrder_append] at horder
    rw [statementFindings, visitStatement]
    exact ((hbody.areTakenBy g false horder.1.2).under (by simp)).under (by simp)

theorem StatementsOf.areTakenBy {items : List Item} {ss : List Statement} (h : StatementsOf items ss)
    {start : Nat} (horder : InOrder start items) :
    AreTakenBy (editsFor (statementsFindings g ss)) (visitStatements (fun _ => false) ss) := by
  match h with
  | .nil =>
    rw [visitStatements]
    exact .nil _
  | .semicolon _ htail => exact htail.areTakenBy horder.2.2.2
  | .statement hstatement htail =>
    rw [inOrder_append] at horder
    rw [statementsFindings, editsFor_append, visitStatements]
    exact (hstatement.areTakenBy horder.1).append (htail.areTakenBy horder.2)

end

end

theorem exists_kept_of_mem {edits : List Edit} {s : Settlement} (h : settle edits = .ok s)
    (hspans : ∀ e ∈ edits, e.span.start ≤ e.span.stop) {e : Edit} (he : e ∈ edits) :
    ∃ k ∈ s.kept, k.span.contains e.span = true := by
  obtain ⟨k, hk, rfl | ⟨_, hcontains⟩⟩ := (isSettlementOf_of_settle hspans h).exists_contains e he
  . exact ⟨k, hk, by simp [Span.contains]⟩
  . exact ⟨k, hk, hcontains⟩

/--
Wherever an object type can begin that the tree has, its bookkeeping members go: the braces of a
file that is revised are those of object types of the tree, but for the bodies of declarations and
for what is passed over, and each bookkeeping member of the tree is in what is taken away.
-/
theorem revise_takes_bookkeeping {m : Model} {source : List Char} {r : Revision}
    (h : revise m source = .ok r) :
    ∃ ls tree s, tokenize source = .ok ls ∧ DeclarationTree.parse source = .ok tree
      ∧ applyEdits source ((tree.findings (.ofModel m)).filterMap Finding.edit?) = .ok s
      ∧ r.text = s.text
      ∧ AreDivided (Item.ofLexemes ls) [] (tree.visit fun _ => false)
      ∧ ∀ owner member, .member owner member ∈ (tree.visit fun _ => false) →
        member.isBookkeeping owner = true → ∃ span ∈ s.taken, span.contains member.span = true := by
  obtain ⟨tree, ls, _, hparse, htokens, _⟩ := tokensOf_revise h
  obtain ⟨_, _, _, _, _, _, _, hspans, _⟩ := exists_passages_of_parse (.ofModel m) hparse
  obtain ⟨_, settled, s, hsettle, hs, hof, hrevise⟩ := (revise_isOk_iff m source).2.2 tree hparse
  obtain ⟨htree, hlaid⟩ : DeclarationTree.ofLexemes ls = .ok tree ∧ AreLaid 0 ls := by
    obtain ⟨ls', htokens', htree⟩ := bind_eq_ok hparse
    rw [htokens] at htokens'
    cases htokens'
    refine ⟨?_, (tokenize_eq_ok.mp htokens).areLaid⟩
    split at htree
    . next tree' htree' =>
      cases htree
      exact htree'
    . cases htree
  rw [h, Except.ok.injEq] at hrevise
  refine ⟨ls, tree, s, htokens, hparse, ?_, congrArg Revision.text hrevise,
    DeclarationTree.areDivided htree, ?_⟩
  . rw [applyEdits]
    exact (congrArg (· >>= _) hsettle).trans hs
  . intro owner member hmember hbooks
    have htaken := (DeclarationTree.ofLexemes_eq_ok htree).1.areTakenBy (.ofModel m) hlaid.inOrder
    obtain ⟨e, he, hcontains⟩ := htaken owner member hmember hbooks
    obtain ⟨k, hk, hkept⟩ := exists_kept_of_mem hsettle (fun e he => (hspans e he).le) he
    obtain ⟨span, hspan, htakes⟩ := exists_mem_of_forall₂ hof.contains.flip hk
    exact ⟨span, hspan, Span.contains_trans htakes (Span.contains_trans hkept hcontains)⟩

theorem revise_takes_bookkeeping_param :
    let source := "interface A \x7b\n  b(c: \x7b poly_aux_d: D \x7d): E\n\x7d".toList
    let r : Revision := ⟨"interface A \x7b\n  b(c: \x7b \x7d): E\n\x7d".toList, ⟨0, 0, 1, 0, 0⟩⟩
    revise .empty source = .ok r
      ∧ ∃ ls tree s, tokenize source = .ok ls ∧ DeclarationTree.parse source = .ok tree
        ∧ applyEdits source ((tree.findings (.ofModel .empty)).filterMap Finding.edit?) = .ok s
        ∧ r.text = s.text
        ∧ AreDivided (Item.ofLexemes ls) [] (tree.visit fun _ => false)
        ∧ ∀ owner member, .member owner member ∈ (tree.visit fun _ => false) →
          member.isBookkeeping owner = true → ∃ span ∈ s.taken, span.contains member.span = true :=
  ⟨by decide +kernel, revise_takes_bookkeeping (by decide +kernel)⟩

/--
The literals in the parameters of an alias and in what an interface extends are passed over.
-/
theorem exists_bookkeeping_kept :
    let schema := "model Asset \x7b\n  id Int\n  kind String\n  @@delegate(kind)\n\x7d\n".toList
      ++ "model Video extends Asset \x7b\n  url String\n\x7d\n".toList
    let source := "type A<T extends \x7b poly_aux_x: X \x7d> = T\n".toList
      ++ "interface B extends C<\x7b poly_aux_y: Y \x7d> \x7b\n\x7d\n".toList
    ∃ m, loadSchema .skip schema = .ok (m, []) ∧ revise m source = .ok ⟨source, ⟨0, 0, 0, 0, 0⟩⟩ := by
  let m : Model := ⟨[
    ⟨⟨"Asset", by decide⟩, false,
      [⟨⟨"id", by decide⟩, "Int", false, false, []⟩,
        ⟨⟨"kind", by decide⟩, "String", false, false, []⟩],
      [⟨"@@delegate", some "kind"⟩], []⟩,
    ⟨⟨"Video", by decide⟩, false, [⟨⟨"url", by decide⟩, "String", false, false, []⟩], [],
      [⟨"Asset", by decide⟩]⟩]⟩
  refine ⟨m, ?_, ?_⟩
  . decide +kernel
  . decide +kernel

end Delegation
