import Delegation.Proofs.Layout
import Delegation.Proofs.Revision
import Mathlib.Data.List.Infix
import Mathlib.Data.List.Nodup

/-!
This module contains which nodes of a tree a walk visits, and in which order: every node that is not
inside one at which the walk stops, once, in front of what is inside it and in the order of the
source.
-/

namespace Delegation

open Lexeme

namespace Node

def kind : Node → NodeKind
  | statement _ => .statement
  | typeAlias _ => .typeAlias
  | interfaceBlock _ => .interfaceBlock
  | classBlock _ => .classBlock
  | namespaceBlock .. => .namespaceBlock
  | other .. => .other
  | object _ => .object
  | member .. => .member

def owner? : Node → Option Owner
  | object o => some (.typeLiteral o)
  | interfaceBlock b => some (.interfaceBlock b)
  | classBlock b => some (.classBlock b)
  | _ => none

def members : Node → List Member
  | object o => o.members
  | interfaceBlock b | classBlock b => b.members
  | _ => []

def ofStatement : Statement → Node
  | .typeAlias a => typeAlias a
  | .interfaceBlock b => interfaceBlock b
  | .classBlock b => classBlock b
  | .namespaceBlock name body span => namespaceBlock name body span
  | .other objects span => other objects span

def children : Node → List Node
  | statement s => [ofStatement s]
  | typeAlias a => a.type.objects.map object
  | interfaceBlock b => b.members.map (member (.interfaceBlock b))
  | classBlock b => b.members.map (member (.classBlock b))
  | namespaceBlock _ body _ => body.map statement
  | other objects _ => objects.map object
  | object o => o.members.map (member (.typeLiteral o))
  | member _ m => m.objects.map object

/--
The node that `path` leads to. Each number of a path says which one of the nodes side by side it is,
first among `nodes`, then inside the one before.
-/
def at? : (nodes : List Node) → (path : List Nat) → Option Node
  | _, [] => none
  | nodes, [i] => nodes[i]?
  | nodes, i :: j :: path => nodes[i]?.bind fun node => at? node.children (j :: path)

end Node

variable (stops : NodeKind → Bool)

/--
Whether there is a node at `path` that is not inside one of a kind in `stops`.
-/
def IsVisited (nodes : List Node) (path : List Nat) : Prop :=
  (Node.at? nodes path).isSome = true
    ∧ ∀ above node, above <+: path → above ≠ path → Node.at? nodes above = some node →
      stops node.kind = false

/--
Whether `visited` are the nodes at `paths`, which are those that are visited, each once: a path
comes before those that go on from it, and before those that turn to a later node.
-/
structure IsPreorder (nodes : List Node) (paths : List (List Nat)) (visited : List Node) :
    Prop where
  sorted : paths.Pairwise (· < ·)
  areAt : List.Forall₂ (fun path node => Node.at? nodes path = some node) paths visited
  mem_iff : ∀ path, path ∈ paths ↔ IsVisited stops nodes path

inductive Visits : (nodes visited : List Node) → Prop where
  | nil : Visits [] []
  | stop {node : Node} {nodes rest : List Node} (hstop : stops node.kind = true)
    (hrest : Visits nodes rest) : Visits (node :: nodes) (node :: rest)
  | enter {node : Node} {nodes inner rest : List Node} (hopen : stops node.kind = false)
    (hinner : Visits node.children inner) (hrest : Visits nodes rest) :
    Visits (node :: nodes) (node :: (inner ++ rest))

variable {stops}

namespace Visits

theorem cons {node : Node} {nodes inner rest : List Node}
    (hinner : Visits stops node.children inner) (hrest : Visits stops nodes rest) :
    Visits stops (node :: nodes) ((node :: if stops node.kind then [] else inner) ++ rest) := by
  cases hstop : stops node.kind with
  | true => exact .stop hstop hrest
  | false => exact .enter hstop hinner hrest

mutual

theorem visitObjects : ∀ os : List ObjectType,
    Visits stops (os.map .object) (visitObjects stops os)
  | [] => by
    rw [Delegation.visitObjects]
    exact .nil
  | ⟨members, span⟩ :: os => by
    rw [Delegation.visitObjects, visitObject]
    exact .cons (visitMembers _ members) (visitObjects os)

theorem visitMembers (owner : Owner) : ∀ ms : List Member,
    Visits stops (ms.map (.member owner)) (visitMembers stops owner ms)
  | [] => by
    rw [Delegation.visitMembers]
    exact .nil
  | ⟨kind, name, isOptional, objects, span⟩ :: ms => by
    rw [Delegation.visitMembers, visitMember]
    exact .cons (visitObjects objects) (visitMembers owner ms)

end

theorem statement {s : Statement} {ss : List Statement} {inner rest : List Node}
    (hinner : Visits stops (Node.ofStatement s).children inner)
    (hrest : Visits stops (ss.map .statement) rest) :
    Visits stops ((s :: ss).map .statement)
      ((.statement s :: if stops .statement then [] else
        .ofStatement s :: if stops (Node.ofStatement s).kind then [] else inner) ++ rest) := by
  have hself : Visits stops (Node.statement s).children
      ((.ofStatement s :: if stops (Node.ofStatement s).kind then [] else inner) ++ []) :=
    .cons hinner .nil
  rw [List.append_nil] at hself
  exact .cons hself hrest

theorem visitStatements : ∀ ss : List Statement,
    Visits stops (ss.map .statement) (visitStatements stops ss)
  | [] => by
    rw [Delegation.visitStatements]
    exact .nil
  | .typeAlias a :: ss => by
    rw [Delegation.visitStatements, visitStatement]
    exact .statement (visitObjects a.type.objects) (visitStatements ss)
  | .interfaceBlock b :: ss => by
    rw [Delegation.visitStatements, visitStatement]
    exact .statement (visitMembers _ b.members) (visitStatements ss)
  | .classBlock b :: ss => by
    rw [Delegation.visitStatements, visitStatement]
    exact .statement (visitMembers _ b.members) (visitStatements ss)
  | .namespaceBlock name body span :: ss => by
    rw [Delegation.visitStatements, visitStatement]
    exact .statement (visitStatements body) (visitStatements ss)
  | .other objects span :: ss => by
    rw [Delegation.visitStatements, visitStatement]
    exact .statement (visitObjects objects) (visitStatements ss)

end Visits

/-!
The paths of a walk.
-/

namespace Node

@[simp]
theorem at?_nil (path : List Nat) : at? [] path = none := by
  cases path with
  | nil => rfl
  | cons i path => cases path <;> simp [at?]

theorem ne_nil_of_at? {nodes : List Node} {path : List Nat} {node : Node}
    (h : at? nodes path = some node) : path ≠ [] := by
  rintro rfl
  cases h

theorem at?_zero (node : Node) (nodes : List Node) : at? (node :: nodes) [0] = some node := rfl

theorem at?_inside (node : Node) (nodes : List Node) {path : List Nat} (h : path ≠ []) :
    at? (node :: nodes) (0 :: path) = at? node.children path := by
  obtain ⟨j, path, rfl⟩ := List.exists_cons_of_ne_nil h
  rfl

theorem at?_next (node : Node) (nodes : List Node) (i : Nat) (path : List Nat) :
    at? (node :: nodes) ((i + 1) :: path) = at? nodes (i :: path) := by
  cases path with
  | nil => simp [at?]
  | cons j path => simp [at?]

end Node

namespace IsVisited

variable {node : Node} {nodes : List Node} {path : List Nat}

theorem ne_nil (h : IsVisited stops nodes path) : path ≠ [] := by
  rintro rfl
  cases h.1

theorem zero (stops : NodeKind → Bool) (node : Node) (nodes : List Node) :
    IsVisited stops (node :: nodes) [0] := by
  refine ⟨rfl, ?_⟩
  intro above node' hprefix hne hat
  rcases List.prefix_cons_iff.mp hprefix with rfl | ⟨more, rfl, hmore⟩
  . cases hat
  . rw [List.prefix_nil.mp hmore] at hne
    exact absurd rfl hne

theorem inside_iff (hpath : path ≠ []) :
    IsVisited stops (node :: nodes) (0 :: path)
      ↔ stops node.kind = false ∧ IsVisited stops node.children path := by
  unfold IsVisited
  rw [Node.at?_inside node nodes hpath]
  constructor
  . rintro ⟨hsome, hopen⟩
    refine ⟨hopen [0] node (by simp) (by simpa using Ne.symm hpath) rfl, hsome, ?_⟩
    intro above node' hprefix hne hat
    have hne' : above ≠ [] := by
      rintro rfl
      cases hat
    apply hopen (0 :: above) node' (by simpa using hprefix) (by simpa using hne)
    rwa [Node.at?_inside node nodes hne']
  . rintro ⟨hnode, hsome, hopen⟩
    refine ⟨hsome, ?_⟩
    intro above node' hprefix hne hat
    rcases List.prefix_cons_iff.mp hprefix with rfl | ⟨more, rfl, hmore⟩
    . cases hat
    . by_cases hnil : more = []
      . subst hnil
        cases hat
        exact hnode
      . rw [Node.at?_inside node nodes hnil] at hat
        exact hopen more node' hmore (by simpa using hne) hat

theorem next_iff {i : Nat} :
    IsVisited stops (node :: nodes) ((i + 1) :: path) ↔ IsVisited stops nodes (i :: path) := by
  unfold IsVisited
  rw [Node.at?_next]
  apply and_congr_right
  intro _
  constructor
  . intro hopen above node' hprefix hne hat
    rcases List.prefix_cons_iff.mp hprefix with rfl | ⟨more, rfl, hmore⟩
    . cases hat
    . apply hopen ((i + 1) :: more) node' (by simpa using hmore) (by simpa using hne)
      rwa [Node.at?_next]
  . intro hopen above node' hprefix hne hat
    rcases List.prefix_cons_iff.mp hprefix with rfl | ⟨more, rfl, hmore⟩
    . cases hat
    . rw [Node.at?_next] at hat
      exact hopen (i :: more) node' (by simpa using hmore) (by simpa using hne) hat

end IsVisited

def nextPath : List Nat → List Nat
  | [] => []
  | i :: path => (i + 1) :: path

theorem nextPath_lt {path path' : List Nat} (h : path < path') :
    nextPath path < nextPath path' := by
  cases path with
  | nil =>
    cases path' with
    | nil => exact absurd h (List.lt_irrefl _)
    | cons j path' => exact List.nil_lt_cons ..
  | cons i path =>
    cases path' with
    | nil => exact absurd h (List.not_lt_nil _)
    | cons j path' =>
      simp only [nextPath]
      rw [List.cons_lt_cons_iff] at h ⊢
      simpa using h

namespace IsPreorder

theorem nil : IsPreorder stops [] [] [] := by
  refine ⟨.nil, .nil, ?_⟩
  intro path
  simp [IsVisited]

theorem cons {node : Node} {nodes inner rest : List Node} {paths paths' : List (List Nat)}
    (hsorted : paths.Pairwise (· < ·))
    (hat : List.Forall₂ (fun path node' => Node.at? node.children path = some node') paths inner)
    (hmem : ∀ path, path ∈ paths ↔ stops node.kind = false ∧ IsVisited stops node.children path)
    (hrest : IsPreorder stops nodes paths' rest) :
    IsPreorder stops (node :: nodes) ([0] :: (paths.map (0 :: ·) ++ paths'.map nextPath))
      (node :: (inner ++ rest)) := by
  have hne : ∀ path ∈ paths, path ≠ [] := fun path hpath => ((hmem path).mp hpath).2.ne_nil
  have hne' : ∀ path ∈ paths', ∃ i more, path = i :: more := fun path hpath =>
    List.exists_cons_of_ne_nil ((hrest.mem_iff path).mp hpath).ne_nil
  have hbehind : ∀ path, ∀ path' ∈ paths'.map nextPath, 0 :: path < path' := by
    intro path path' hpath'
    obtain ⟨path', hmem', rfl⟩ := List.mem_map.mp hpath'
    obtain ⟨i, more, rfl⟩ := hne' path' hmem'
    exact List.cons_lt_cons_iff.mpr (.inl (Nat.succ_pos i))
  refine ⟨?_, ?_, ?_⟩
  . refine List.pairwise_cons.mpr ⟨?_, List.pairwise_append.mpr ⟨?_, ?_, ?_⟩⟩
    . intro path hpath
      rcases List.mem_append.mp hpath with hpath | hpath
      . obtain ⟨path, hmem', rfl⟩ := List.mem_map.mp hpath
        obtain ⟨i, more, rfl⟩ := List.exists_cons_of_ne_nil (hne path hmem')
        exact List.cons_lt_cons_iff.mpr (.inr ⟨rfl, List.nil_lt_cons i more⟩)
      . exact hbehind [] path hpath
    . apply List.pairwise_map.mpr
      exact hsorted.imp fun hlt => List.cons_lt_cons_iff.mpr (.inr ⟨rfl, hlt⟩)
    . apply List.pairwise_map.mpr
      exact hrest.sorted.imp nextPath_lt
    . intro path hpath path' hpath'
      obtain ⟨path, _, rfl⟩ := List.mem_map.mp hpath
      exact hbehind path path' hpath'
  . refine .cons (Node.at?_zero node nodes) (List.rel_append ?_ ?_)
    . apply List.forall₂_map_left_iff.mpr
      apply hat.imp
      intro path node' hnode
      rwa [Node.at?_inside node nodes (Node.ne_nil_of_at? hnode)]
    . apply List.forall₂_map_left_iff.mpr
      apply hrest.areAt.imp
      intro path node' hnode
      obtain ⟨i, path, rfl⟩ := List.exists_cons_of_ne_nil (Node.ne_nil_of_at? hnode)
      rwa [nextPath, Node.at?_next]
  . intro path
    simp only [List.mem_cons, List.mem_append, List.mem_map]
    constructor
    . rintro (rfl | ⟨path, hpath, rfl⟩ | ⟨path, hpath, rfl⟩)
      . exact .zero stops node nodes
      . exact (IsVisited.inside_iff (hne path hpath)).mpr ((hmem path).mp hpath)
      . obtain ⟨i, path, rfl⟩ := hne' path hpath
        exact IsVisited.next_iff.mpr ((hrest.mem_iff _).mp hpath)
    . intro hpath
      obtain ⟨i, path, rfl⟩ := List.exists_cons_of_ne_nil hpath.ne_nil
      cases i with
      | zero =>
        by_cases hnil : path = []
        . exact .inl (by rw [hnil])
        . exact .inr (.inl ⟨path, (hmem path).mpr ((IsVisited.inside_iff hnil).mp hpath), rfl⟩)
      | succ i =>
        exact .inr (.inr ⟨i :: path, (hrest.mem_iff _).mpr (IsVisited.next_iff.mp hpath), rfl⟩)

end IsPreorder

theorem Visits.exists_isPreorder {nodes visited : List Node} (h : Visits stops nodes visited) :
    ∃ paths, IsPreorder stops nodes paths visited := by
  induction h with
  | nil => exact ⟨[], .nil⟩
  | @stop node nodes rest hstop _ ih =>
    obtain ⟨paths, hrest⟩ := ih
    have hnode : IsPreorder stops (node :: nodes) _ (node :: ([] ++ rest)) :=
      .cons .nil .nil (by simp [hstop]) hrest
    exact ⟨_, hnode⟩
  | enter hopen _ _ ih ih' =>
    obtain ⟨paths, hinner⟩ := ih
    obtain ⟨paths', hrest⟩ := ih'
    exact ⟨_, .cons hinner.sorted hinner.areAt (by simp [hopen, hinner.mem_iff]) hrest⟩

/-!
The spans of the nodes on a walk.
-/

theorem Span.Encloses.areInRow {ls : List Lexeme} {span : Span} {front inside : List Span}
    (h : span.Encloses ls front inside) : AreInRow span.start span.stop inside := by
  obtain ⟨head, opener, closer, hends, hfront, hinside⟩ := h
  apply hinside.widen
  . exact Nat.le_trans hfront.le (Nat.le_add_right ..)
  . rw [← hends.stop]
    exact Nat.le_add_right ..

theorem Span.CoversTokens.areInRow {source : List Char} {ls : List Lexeme} {span : Span}
    (h : span.CoversTokens source ls) : AreInRow span.start span.stop [span] :=
  ⟨Nat.le_refl _, h.nonempty, Nat.le_refl _⟩

theorem Node.map_span_member (owner : Owner) (ms : List Member) :
    (ms.map (member owner)).map span = ms.map (·.span) := by
  simp [span]

theorem Node.map_span_object (os : List ObjectType) :
    (os.map object).map span = os.map (·.span) := by
  simp [span]

theorem Node.IsLaidOut.areInRow {source : List Char} {ls : List Lexeme} {node : Node}
    (h : node.IsLaidOut source ls) :
    Span.AreInRow node.span.start node.span.stop (node.children.map span) := by
  cases node with
  | statement s => cases s <;> exact Span.CoversTokens.areInRow h
  | typeAlias a =>
    obtain ⟨_, _, _, hparts, hobjects⟩ := h
    rw [← List.cons_append] at hparts
    obtain ⟨hstart, _, hstop⟩ := hparts.drop
    rw [children, map_span_object]
    exact hobjects.widen hstart hstop
  | interfaceBlock b =>
    rw [children, map_span_member]
    exact h.encloses.areInRow
  | classBlock b =>
    rw [children, map_span_member]
    exact h.encloses.areInRow
  | namespaceBlock name body span =>
    have := Span.Encloses.areInRow h
    simpa [children, Node.span, Function.comp_def] using this
  | other objects span =>
    rw [children, map_span_object]
    exact h
  | object o =>
    rw [children, map_span_member]
    exact h.2.areInRow
  | member owner m =>
    rw [children, map_span_object]
    exact h.2

/--
Whether `nodes` start between the offsets `start` and `stop`, none of them before an earlier one.
-/
def StartInOrder (start stop : Nat) (nodes : List Node) : Prop :=
  nodes.Pairwise (fun a b => a.span.start ≤ b.span.start)
    ∧ ∀ node ∈ nodes, start ≤ node.span.start ∧ node.span.start ≤ stop

namespace StartInOrder

theorem nil (start stop : Nat) : StartInOrder start stop [] :=
  ⟨.nil, by simp⟩

theorem cons {start stop : Nat} {node : Node} {inner rest : List Node}
    (hnode : start ≤ node.span.start) (hspan : node.span.start ≤ node.span.stop)
    (hstop : node.span.stop ≤ stop) (hinner : StartInOrder node.span.start node.span.stop inner)
    (hrest : StartInOrder node.span.stop stop rest) :
    StartInOrder start stop (node :: (inner ++ rest)) := by
  obtain ⟨hinner, hinside⟩ := hinner
  obtain ⟨hrest, hbehind⟩ := hrest
  constructor
  . refine List.pairwise_cons.mpr ⟨?_, List.pairwise_append.mpr ⟨hinner, hrest, ?_⟩⟩
    . intro x hx
      rcases List.mem_append.mp hx with hx | hx
      . exact (hinside x hx).1
      . exact Nat.le_trans hspan (hbehind x hx).1
    . intro x hx y hy
      exact Nat.le_trans (hinside x hx).2 (hbehind y hy).1
  . refine List.forall_mem_cons.mpr ⟨⟨hnode, Nat.le_trans hspan hstop⟩, ?_⟩
    refine List.forall_mem_append.mpr ⟨?_, ?_⟩
    . intro x hx
      have := hinside x hx
      omega
    . intro x hx
      have := hbehind x hx
      omega

end StartInOrder

theorem Visits.startInOrder {source : List Char} {ls : List Lexeme} {nodes visited : List Node}
    (h : Visits stops nodes visited) (hlaid : ∀ node ∈ visited, node.IsLaidOut source ls)
    {start stop : Nat} (hrow : Span.AreInRow start stop (nodes.map Node.span)) :
    StartInOrder start stop visited := by
  induction h generalizing start stop with
  | nil => exact .nil start stop
  | @stop node nodes rest _ _ ih =>
    obtain ⟨hnode, hspan, hbehind⟩ := hrow
    rw [List.forall_mem_cons] at hlaid
    rw [← List.nil_append rest]
    exact .cons hnode (Nat.le_of_lt hspan) hbehind.le (.nil _ _) (ih hlaid.2 hbehind)
  | enter _ _ _ ih ih' =>
    obtain ⟨hnode, hspan, hbehind⟩ := hrow
    rw [List.forall_mem_cons, List.forall_mem_append] at hlaid
    obtain ⟨hself, hinside, hothers⟩ := hlaid
    exact .cons hnode (Nat.le_of_lt hspan) hbehind.le (ih hinside hself.areInRow)
      (ih' hothers hbehind)

namespace Node

theorem exists_above {nodes : List Node} {above : List Nat} {i : Nat} {node : Node}
    (h : at? nodes (above ++ [i]) = some node) (hne : above ≠ []) :
    ∃ outer, at? nodes above = some outer ∧ outer.children[i]? = some node := by
  fun_induction at? nodes above with
  | case1 => exact absurd rfl hne
  | case2 nodes j =>
    obtain ⟨outer, houter, hnode⟩ := Option.bind_eq_some_iff.mp h
    exact ⟨outer, houter, hnode⟩
  | case3 nodes j k above ih =>
    obtain ⟨first, hfirst, hnode⟩ := Option.bind_eq_some_iff.mp h
    obtain ⟨outer, houter, hchild⟩ := ih first hnode (by simp)
    exact ⟨outer, by rw [hfirst]; exact houter, hchild⟩

theorem owner_of_children {outer : Node} {i : Nat} {owner : Owner} {m : Member}
    (h : outer.children[i]? = some (member owner m)) :
    outer.owner? = some owner ∧ outer.members[i]? = some m := by
  have of_map : ∀ {self : Owner} {ms : List Member},
      (ms.map (member self))[i]? = some (member owner m) → self = owner ∧ ms[i]? = some m := by
    intro self ms hchild
    rw [List.getElem?_map] at hchild
    obtain ⟨m', hm', heq⟩ := Option.map_eq_some_iff.mp hchild
    cases heq
    exact ⟨rfl, hm'⟩
  cases outer with
  | interfaceBlock b => exact (of_map h).imp_left (congrArg some)
  | classBlock b => exact (of_map h).imp_left (congrArg some)
  | object o => exact (of_map h).imp_left (congrArg some)
  | statement s =>
    obtain ⟨_, hs⟩ := List.getElem?_eq_some_iff.mp h
    cases s <;> simp [children, ofStatement] at hs
  | _ => simp [children] at h

end Node

namespace DeclarationTree

def roots (tree : DeclarationTree) : List Node :=
  tree.statements.map .statement

theorem exists_isPreorder (stops : NodeKind → Bool) (tree : DeclarationTree) :
    ∃ paths, IsPreorder stops tree.roots paths (tree.visit stops) :=
  (Visits.visitStatements tree.statements).exists_isPreorder

theorem mem_visit {stops : NodeKind → Bool} {tree : DeclarationTree} {node : Node}
    (h : node ∈ tree.visit stops) : node ∈ tree.visit fun _ => false := by
  obtain ⟨paths, hpaths⟩ := tree.exists_isPreorder stops
  obtain ⟨paths', hpaths'⟩ := tree.exists_isPreorder fun _ => false
  obtain ⟨path, _, hat⟩ := exists_mem_of_forall₂ hpaths.areAt h
  have hpath : path ∈ paths' := (hpaths'.mem_iff path).mpr ⟨by rw [hat]; rfl, by simp⟩
  obtain ⟨node', hnode', hat'⟩ := exists_mem_of_forall₂ hpaths'.areAt.flip hpath
  rw [hat] at hat'
  cases hat'
  exact hnode'

theorem exists_owner {tree : DeclarationTree} {path : List Nat} {owner : Owner} {m : Member}
    (h : Node.at? tree.roots path = some (.member owner m)) :
    ∃ above i outer, path = above ++ [i] ∧ Node.at? tree.roots above = some outer
      ∧ outer.owner? = some owner ∧ outer.members[i]? = some m := by
  obtain ⟨above, i, rfl⟩ := (List.eq_nil_or_concat path).resolve_left (Node.ne_nil_of_at? h)
  rw [List.concat_eq_append] at h ⊢
  have hne : above ≠ [] := by
    rintro rfl
    simp [Node.at?, roots] at h
  obtain ⟨outer, houter, hchild⟩ := Node.exists_above h hne
  exact ⟨above, i, outer, rfl, houter, Node.owner_of_children hchild⟩

/--
A walk through the tree of a file visits in pre-order what is not inside a node at which it stops,
each node once and each member with what it is directly inside. If it does not stop it visits all
nodes of the tree. The nodes start in the order of the source.
-/
theorem visit_isPreorder {source : List Char} {tree : DeclarationTree}
    (h : parse source = .ok tree) (stops : NodeKind → Bool) :
    (tree.visit stops).Pairwise (fun a b => a.span.start ≤ b.span.start)
      ∧ ∃ paths, IsPreorder stops tree.roots paths (tree.visit stops)
        ∧ (∀ path ∈ paths, ∀ owner m, Node.at? tree.roots path = some (.member owner m) →
          ∃ above i outer, path = above ++ [i] ∧ Node.at? tree.roots above = some outer
            ∧ outer.owner? = some owner ∧ outer.members[i]? = some m)
        ∧ ((∀ kind, stops kind = false) →
          ∀ path, (Node.at? tree.roots path).isSome = true → paths.count path = 1) := by
  obtain ⟨ls, hls, hstatements⟩ := parse_eq_ok h
  have hlaid : ∀ node ∈ tree.visit stops, node.IsLaidOut source ls := by
    intro node hnode
    obtain ⟨used, hused, hread⟩ := hstatements.isReadIn node (mem_visit hnode)
    have := hread.isLaidOut hls.areLaid hused
    rwa [hls.textOf_eq] at this
  have hspans : tree.roots.map Node.span = tree.statements.map (·.span) := by
    simp [roots, Node.span]
  have hrow := hstatements.areInRow hls.areLaid.inOrder.areInRow
  rw [← hspans] at hrow
  refine ⟨((Visits.visitStatements tree.statements).startInOrder hlaid hrow).1, ?_⟩
  obtain ⟨paths, hpaths⟩ := tree.exists_isPreorder stops
  refine ⟨paths, hpaths, fun path _ owner m => exists_owner, ?_⟩
  intro hopen path hpath
  apply List.count_eq_one_of_mem
  . exact hpaths.sorted.imp fun hlt => by
      rintro rfl
      exact List.lt_irrefl _ hlt
  . exact (hpaths.mem_iff path).mpr ⟨hpath, fun _ node _ _ _ => hopen node.kind⟩

theorem visit_isPreorder_nested :
    let source :=
      "namespace N \x7b\ninterface A \x7b b: \x7b c: D \x7d\n// e\nf(): D \x7d\n\x7d\ntype G = \x7b\x7d".toList
    let stops : NodeKind → Bool := fun kind => kind matches .object
    ∃ tree, parse source = .ok tree
      ∧ (tree.visit stops).Pairwise (fun a b => a.span.start ≤ b.span.start)
      ∧ ∃ paths, IsPreorder stops tree.roots paths (tree.visit stops)
        ∧ (∀ path ∈ paths, ∀ owner m, Node.at? tree.roots path = some (.member owner m) →
          ∃ above i outer, path = above ++ [i] ∧ Node.at? tree.roots above = some outer
            ∧ outer.owner? = some owner ∧ outer.members[i]? = some m)
        ∧ ((∀ kind, stops kind = false) →
          ∀ path, (Node.at? tree.roots path).isSome = true → paths.count path = 1) := by
  intro source stops
  have hok : (parse source).isOk = true := by decide +kernel
  obtain ⟨tree, h⟩ := exists_of_isOk hok
  exact ⟨tree, h, visit_isPreorder h stops⟩

end DeclarationTree
end Delegation
