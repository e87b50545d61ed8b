import Delegation.Declaration.Visit
import Delegation.Proofs.Grammar.Statement

/-!
This module contains which items the nodes of a declaration tree are read from: each of them from
consecutive items, by the rule of its kind.
-/

namespace Delegation

open Item

def Node.IsReadFrom (items : List Item) : Node → Prop
  | statement s => StatementOf items s
  | typeAlias a => StatementOf items (.typeAlias a)
  | interfaceBlock b => StatementOf items (.interfaceBlock b)
  | classBlock b => StatementOf items (.classBlock b)
  | namespaceBlock name body span => StatementOf items (.namespaceBlock name body span)
  | other objects span => StatementOf items (.other objects span)
  | object o =>
    ∃ opener inner closer, items = opener :: (inner ++ [closer])
      ∧ opener.token = .opening .brace ∧ closer.token = .closing .brace
      ∧ MembersOf inner o.members ∧ o.span = ⟨opener.span.start, closer.span.stop⟩
  | member _ m => ∃ next, MemberOf items next m

def Node.IsReadIn (items : List Item) (node : Node) : Prop :=
  ∃ used, used <:+: items ∧ node.IsReadFrom used

theorem Node.IsReadIn.mono {items more : List Item} {node : Node} (h : node.IsReadIn items)
    (hmore : items <:+: more) : node.IsReadIn more := by
  obtain ⟨used, hused, hnode⟩ := h
  exact ⟨used, hused.trans hmore, hnode⟩

theorem visitObjects_append (stops : NodeKind → Bool) (os os' : List ObjectType) :
    visitObjects stops (os ++ os') = visitObjects stops os ++ visitObjects stops os' := by
  induction os with
  | nil => simp [visitObjects]
  | cons o os ih => simp [visitObjects, ih]

mutual

theorem TermsOf.isReadIn {collect : Bool} {items : List Item} {os : List ObjectType}
    (h : TermsOf collect items os) :
    ∀ node ∈ visitObjects (fun _ => false) os, node.IsReadIn items := by
  intro node hnode
  match h with
  | .nil =>
    rw [visitObjects] at hnode
    cases hnode
  | @TermsOf.item _ item _ _ _ _ htail =>
    exact (htail.isReadIn node hnode).mono (List.suffix_cons item _).isInfix
  | @TermsOf.group _ opener closer inner items _ _ _ _ _ _ hinner htail =>
    rw [visitObjects_append, List.mem_append] at hnode
    rcases hnode with hnode | hnode
    . exact (hinner.isReadIn node hnode).mono ⟨[opener], closer :: items, by simp⟩
    . exact (htail.isReadIn node hnode).mono ⟨opener :: (inner ++ [closer]), [], by simp⟩
  | @TermsOf.object opener closer inner items _ _ hopener hcloser hinner htail =>
    rw [visitObjects, visitObject, List.cons_append, List.mem_cons, List.mem_append] at hnode
    rcases hnode with rfl | hnode | hnode
    . exact ⟨opener :: (inner ++ [closer]), ⟨[], items, by simp⟩, opener, inner, closer, rfl, hopener,
        hcloser, hinner, rfl⟩
    . exact (hinner.isReadIn _ node hnode).mono ⟨[opener], closer :: items, by simp⟩
    . exact (htail.isReadIn node hnode).mono ⟨opener :: (inner ++ [closer]), [], by simp⟩

theorem MembersOf.isReadIn {items : List Item} {ms : List Member} (h : MembersOf items ms)
    (owner : Owner) : ∀ node ∈ visitMembers (fun _ => false) owner ms, node.IsReadIn items := by
  intro node hnode
  match h with
  | .nil =>
    rw [visitMembers] at hnode
    cases hnode
  | @MembersOf.separator item _ _ _ htail =>
    exact (htail.isReadIn owner node hnode).mono (List.suffix_cons item _).isInfix
  | @MembersOf.member used items _ _ hmember htail =>
    rw [visitMembers, List.mem_append] at hnode
    rcases hnode with hnode | hnode
    . exact (hmember.isReadIn owner node hnode).mono (List.prefix_append used items).isInfix
    . exact (htail.isReadIn owner node hnode).mono (List.suffix_append used items).isInfix

theorem MemberOf.isReadIn {used next : List Item} {m : Member} (h : MemberOf used next m)
    (owner : Owner) : ∀ node ∈ visitMember (fun _ => false) owner m, node.IsReadIn used := by
  intro node hnode
  have hself := h
  match h with
  | @MemberOf.mk first more head body separator _ _ _ _ _ hused _ _ _ hbody _ _ =>
    rw [visitMember, List.mem_cons] at hnode
    rcases hnode with rfl | hnode
    . exact ⟨_, List.infix_refl _, next, hself⟩
    . exact (hbody.isReadIn node hnode).mono ⟨head, separator, hused.symm⟩

end

mutual

theorem StatementOf.isReadIn {used : List Item} {s : Statement} (h : StatementOf used s) :
    ∀ node ∈ visitStatement (fun _ => false) s, node.IsReadIn used := by
  intro node hnode
  have hself := h
  match h with
  | @StatementOf.typeAlias _ equals start _ head rest separator _ _ _ hused _ _ htype _ =>
    rw [visitStatement, List.mem_cons, if_neg Bool.false_ne_true, List.mem_cons] at hnode
    rcases hnode with rfl | rfl | hnode
    . exact ⟨_, List.infix_refl _, hself⟩
    . exact ⟨_, List.infix_refl _, hself⟩
    . exact (htype.isReadIn node hnode).mono ⟨head ++ [equals], separator, by simp [hused]⟩
  | @StatementOf.interfaceBlock _ opener closer _ head inner _ _ _ hused _ _ _ hinner =>
    rw [visitStatement, List.mem_cons, if_neg Bool.false_ne_true, List.mem_cons] at hnode
    rcases hnode with rfl | rfl | hnode
    . exact ⟨_, List.infix_refl _, hself⟩
    . exact ⟨_, List.infix_refl _, hself⟩
    . exact (hinner.isReadIn _ node hnode).mono ⟨head ++ [opener], [closer], by simp [hused]⟩
  | @StatementOf.classBlock _ opener closer _ head inner _ _ _ hused _ _ _ hinner =>
    rw [visitStatement, List.mem_cons, if_neg Bool.false_ne_true, List.mem_cons] at hnode
    rcases hnode with rfl | rfl | hnode
    . exact ⟨_, List.infix_refl _, hself⟩
    . exact ⟨_, List.infix_refl _, hself⟩
    . exact (hinner.isReadIn _ node hnode).mono ⟨head ++ [opener], [closer], by simp [hused]⟩
  | @StatementOf.namespaceBlock _ opener closer _ head inner _ _ hused _ _ _ hinner =>
    rw [visitStatement, List.mem_cons, if_neg Bool.false_ne_true, List.mem_cons] at hnode
    rcases hnode with rfl | rfl | hnode
    . exact ⟨_, List.infix_refl _, hself⟩
    . exact ⟨_, List.infix_refl _, hself⟩
    . exact (hinner.isReadIn node hnode).mono ⟨head ++ [opener], [closer], by simp [hused]⟩
  | @StatementOf.other _ _ _ head body separator _ hused _ hbody _ =>
    rw [visitStatement, List.mem_cons, if_neg Bool.false_ne_true, List.mem_cons] at hnode
    rcases hnode with rfl | rfl | hnode
    . exact ⟨_, List.infix_refl _, hself⟩
    . exact ⟨_, List.infix_refl _, hself⟩
    . exact (hbody.isReadIn node hnode).mono ⟨head, separator, hused.symm⟩

theorem StatementsOf.isReadIn {items : List Item} {ss : List Statement} (h : StatementsOf items ss) :
    ∀ node ∈ visitStatements (fun _ => false) ss, node.IsReadIn items := by
  intro node hnode
  match h with
  | .nil =>
    rw [visitStatements] at hnode
    cases hnode
  | @StatementsOf.semicolon item _ _ _ htail =>
    exact (htail.isReadIn node hnode).mono (List.suffix_cons item _).isInfix
  | @StatementsOf.statement used items _ _ hstatement htail =>
    rw [visitStatements, List.mem_append] at hnode
    rcases hnode with hnode | hnode
    . exact (hstatement.isReadIn node hnode).mono (List.prefix_append used items).isInfix
    . exact (htail.isReadIn node hnode).mono (List.suffix_append used items).isInfix

end

end Delegation
