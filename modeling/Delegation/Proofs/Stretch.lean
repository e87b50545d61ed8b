import Delegation.Proofs.Grammar.Statement
import Delegation.Proofs.Rendering
import Delegation.Revision

/-!
This module contains what a revision does to the items of a declaration file. The items are divided
into stretches, each of which stays, goes or is replaced.
-/

namespace Delegation

open Item

/--
A part of the items of a declaration file, and what becomes of it.
-/
inductive Stretch where
  | kept (item : Item)
  | removed (first : Item) (more : List Item)
  /--
  The type of a payload, with the edits inside it, which make no difference.
  -/
  | replaced (first : Item) (more : List Item) (text : List Char) (inner : List Edit)

/--
Whether all of the edit `b` is behind `a` or inside it.
-/
def Edit.Nests (a b : Edit) : Prop :=
  a.span.stop ≤ b.span.start ∨ a.span.start < b.span.start ∧ b.span.stop ≤ a.span.stop

namespace Stretch

def items : Stretch → List Item
  | kept item => [item]
  | removed first more | replaced first more _ _ => first :: more

def edit? : Stretch → Option Edit
  | kept _ => none
  | removed first more => some (.removal ⟨first.lead, stopAfter first.span.stop more⟩)
  | replaced first more text _ =>
    some (.replacement ⟨first.span.start, stopAfter first.span.stop more⟩ text)

def inner : Stretch → List Edit
  | kept _ | removed .. => []
  | replaced _ _ _ inner => inner

def edits (s : Stretch) : List Edit :=
  s.edit?.toList ++ s.inner

/--
Whether a stretch may stand behind the token `last`. What goes begins a line, or comes after the
end of something else. What is replaced comes after an equals sign, and by a union of payloads. No
delimiter of either closes one outside it.
-/
def Fits (last : Option Token) : Stretch → Prop
  | kept _ => True
  | removed first more =>
    (first.isOnNewLine = true ∨ last = some (.opening .brace) ∨ last = some (.sign .semicolon)
      ∨ last = some (.sign .comma)) ∧ IsBalanced (first :: more)
  | replaced first more text inner =>
    last = some (.sign .equals) ∧ IsBalanced (first :: more)
      ∧ (∃ subtypes params, subtypes ≠ [] ∧ (∀ p ∈ params, IsName p)
        ∧ text = (Client.payloadUnion subtypes params).render)
      ∧ (∀ e ∈ inner, ∃ span, e = .removal span) ∧ inner.Pairwise Edit.Nests
      ∧ ∀ e ∈ inner, first.span.start < e.span.start ∧ e.span.start < e.span.stop
        ∧ e.span.stop ≤ stopAfter first.span.stop more

def AllFit (last : Option Token) : List Stretch → Prop
  | [] => True
  | s :: ss => s.Fits last ∧ AllFit (lastAfter last s.items) ss

def itemsOf (ss : List Stretch) : List Item :=
  ss.flatMap items

def editsOf (ss : List Stretch) : List Edit :=
  ss.flatMap edits

@[simp]
theorem itemsOf_append (ss ss' : List Stretch) : itemsOf (ss ++ ss') = itemsOf ss ++ itemsOf ss' := by
  simp [itemsOf]

@[simp]
theorem editsOf_append (ss ss' : List Stretch) : editsOf (ss ++ ss') = editsOf ss ++ editsOf ss' := by
  simp [editsOf]

@[simp]
theorem itemsOf_cons (s : Stretch) (ss : List Stretch) :
    itemsOf (s :: ss) = s.items ++ itemsOf ss := rfl

@[simp]
theorem editsOf_cons (s : Stretch) (ss : List Stretch) :
    editsOf (s :: ss) = s.edits ++ editsOf ss := rfl

@[simp]
theorem itemsOf_nil : itemsOf [] = [] := rfl

@[simp]
theorem editsOf_nil : editsOf [] = [] := rfl

theorem itemsOf_map_kept (items : List Item) : itemsOf (items.map kept) = items := by
  induction items with
  | nil => rfl
  | cons item items ih =>
    rw [List.map_cons, itemsOf_cons, ih]
    rfl

theorem editsOf_map_kept (items : List Item) : editsOf (items.map kept) = [] := by
  induction items with
  | nil => rfl
  | cons item items ih =>
    rw [List.map_cons, editsOf_cons, ih]
    rfl

theorem AllFit.append {last : Option Token} {ss ss' : List Stretch} (h : AllFit last ss)
    (h' : AllFit (lastAfter last (itemsOf ss)) ss') : AllFit last (ss ++ ss') := by
  induction ss generalizing last with
  | nil => exact h'
  | cons s ss ih =>
    refine ⟨h.1, ih h.2 ?_⟩
    rw [itemsOf_cons, lastAfter_append] at h'
    exact h'

theorem allFit_map_kept (last : Option Token) (items : List Item) :
    AllFit last (items.map kept) := by
  induction items generalizing last with
  | nil => trivial
  | cons item items ih => exact ⟨trivial, ih _⟩

end Stretch

namespace Item

def InOrder (start : Nat) : List Item → Prop
  | [] => True
  | item :: items => start ≤ item.lead ∧ item.lead ≤ item.span.start
    ∧ item.span.start < item.span.stop ∧ InOrder item.span.stop items

theorem inOrder_append {start : Nat} {items more : List Item} :
    InOrder start (items ++ more) ↔ InOrder start items ∧ InOrder (stopAfter start items) more := by
  induction items generalizing start with
  | nil => simp [InOrder, stopAfter]
  | cons item items ih => simp [InOrder, stopAfter, ih, and_assoc]

theorem InOrder.le_stopAfter {start : Nat} {items : List Item} (h : InOrder start items) :
    start ≤ stopAfter start items := by
  induction items generalizing start with
  | nil => exact Nat.le_refl _
  | cons item items ih =>
    obtain ⟨hlead, hstart, hstop, htail⟩ := h
    have := ih htail
    rw [stopAfter]
    omega

end Item

open Stretch

theorem Stretch.mem_edits_bounds {s : Stretch} {last : Option Token} {start : Nat} {e : Edit}
    (hfit : s.Fits last) (horder : InOrder start s.items) (he : e ∈ s.edits) :
    start ≤ e.span.start ∧ e.span.start < e.span.stop ∧ e.span.stop ≤ stopAfter start s.items := by
  cases s with
  | kept item => simp [edits, edit?, inner] at he
  | removed first more =>
    simp only [edits, edit?, inner, Option.toList_some, List.append_nil, List.mem_singleton] at he
    subst he
    obtain ⟨hlead, hstart, hstop, htail⟩ := horder
    have := htail.le_stopAfter
    refine ⟨hlead, ?_, Nat.le_refl _⟩
    simp only [Edit.span]
    omega
  | replaced first more text inner =>
    simp only [edits, edit?, Stretch.inner, Option.toList_some, List.singleton_append,
      List.mem_cons] at he
    obtain ⟨hlead, hstart, hstop, htail⟩ := horder
    have := htail.le_stopAfter
    rcases he with rfl | he
    . refine ⟨?_, ?_, Nat.le_refl _⟩
      . simp only [Edit.span]
        omega
      . simp only [Edit.span]
        omega
    . have := hfit.2.2.2.2.2 e he
      refine ⟨?_, this.2⟩
      omega

theorem Stretch.mem_editsOf_bounds {ss : List Stretch} {last : Option Token} {start : Nat} {e : Edit}
    (hfit : AllFit last ss) (horder : InOrder start (itemsOf ss)) (he : e ∈ editsOf ss) :
    start ≤ e.span.start ∧ e.span.start < e.span.stop
      ∧ e.span.stop ≤ stopAfter start (itemsOf ss) := by
  induction ss generalizing last start with
  | nil => cases he
  | cons s ss ih =>
    rw [itemsOf_cons, inOrder_append] at horder
    rw [itemsOf_cons, stopAfter_append]
    rw [editsOf_cons, List.mem_append] at he
    have hle := horder.1.le_stopAfter
    have hle' := horder.2.le_stopAfter
    rcases he with he | he
    . have := mem_edits_bounds hfit.1 horder.1 he
      omega
    . have := ih hfit.2 horder.2 he
      omega

theorem Stretch.pairwise_edits {s : Stretch} {last : Option Token} (hfit : s.Fits last) :
    s.edits.Pairwise Edit.Nests := by
  cases s with
  | kept item => exact .nil
  | removed first more => exact List.pairwise_singleton ..
  | replaced first more text inner =>
    obtain ⟨_, _, _, _, hinner, hbounds⟩ := hfit
    refine List.Pairwise.cons ?_ hinner
    intro e he
    have := hbounds e he
    exact .inr ⟨this.1, this.2.2⟩

theorem Stretch.pairwise_editsOf {ss : List Stretch} {last : Option Token} {start : Nat}
    (hfit : AllFit last ss) (horder : InOrder start (itemsOf ss)) :
    (editsOf ss).Pairwise Edit.Nests := by
  induction ss generalizing last start with
  | nil => exact .nil
  | cons s ss ih =>
    rw [itemsOf_cons, inOrder_append] at horder
    rw [editsOf_cons, List.pairwise_append]
    refine ⟨pairwise_edits hfit.1, ih hfit.2 horder.2, ?_⟩
    intro a ha b hb
    have ha := mem_edits_bounds hfit.1 horder.1 ha
    have hb := mem_editsOf_bounds hfit.2 horder.2 hb
    exact .inl (Nat.le_trans ha.2.2 hb.1)

variable (g : DelegateGraph)

def editsFor (findings : List Finding) : List Edit :=
  findings.filterMap Finding.edit?

@[simp]
theorem editsFor_nil : editsFor [] = [] := rfl

@[simp]
theorem editsFor_append (findings findings' : List Finding) :
    editsFor (findings ++ findings') = editsFor findings ++ editsFor findings' := by
  simp [editsFor]

theorem objectsFindings_append (isInput : Bool) (os os' : List ObjectType) :
    objectsFindings g isInput (os ++ os')
      = objectsFindings g isInput os ++ objectsFindings g isInput os' := by
  induction os with
  | nil => rfl
  | cons o os ih =>
    rw [List.cons_append, objectsFindings, ih, objectsFindings, List.append_assoc]

theorem edit?_memberFinding? {isInput : Bool} {owner : Owner} {m : Member} {finding : Finding}
    (h : memberFinding? g isInput owner m = some finding) :
    finding.edit? = some (.removal m.span) := by
  unfold memberFinding? at h
  split at h
  . cases h
  . split at h
    . cases h
      rfl
    . split at h
      . split at h
        . cases h
          rfl
        . cases h
      . split at h
        . cases h
          rfl
        . cases h
      . cases h

mutual

theorem edit?_of_mem_object (isInput : Bool) :
    ∀ o : ObjectType, ∀ f ∈ objectFindings g isInput o, ∃ span, f.edit? = some (.removal span)
  | ⟨members, span⟩, f, hf => by
    rw [objectFindings] at hf
    exact edit?_of_mem_members isInput _ members f hf

theorem edit?_of_mem_objects (isInput : Bool) :
    ∀ os : List ObjectType, ∀ f ∈ objectsFindings g isInput os, ∃ span, f.edit? = some (.removal span)
  | [], f, hf => by
    rw [objectsFindings] at hf
    cases hf
  | o :: os, f, hf => by
    rw [objectsFindings, List.mem_append] at hf
    cases hf with
    | inl hf => exact edit?_of_mem_object isInput o f hf
    | inr hf => exact edit?_of_mem_objects isInput os f hf

theorem edit?_of_mem_member (isInput : Bool) (owner : Owner) :
    ∀ m : Member, ∀ f ∈ memberFindings g isInput owner m, ∃ span, f.edit? = some (.removal span)
  | ⟨kind, name, isOptional, objects, span⟩, f, hf => by
    rw [memberFindings] at hf
    split at hf
    . next finding hfinding =>
      rw [List.mem_singleton.mp hf]
      exact ⟨_, edit?_memberFinding? g hfinding⟩
    . exact edit?_of_mem_objects isInput objects f hf

theorem edit?_of_mem_members (isInput : Bool) (owner : Owner) :
    ∀ ms : List Member, ∀ f ∈ membersFindings g isInput owner ms,
      ∃ span, f.edit? = some (.removal span)
  | [], f, hf => by
    rw [membersFindings] at hf
    cases hf
  | m :: ms, f, hf => by
    rw [membersFindings, List.mem_append] at hf
    cases hf with
    | inl hf => exact edit?_of_mem_member isInput owner m f hf
    | inr hf => exact edit?_of_mem_members isInput owner ms f hf

end

theorem eq_removal_of_mem_objects (isInput : Bool) (os : List ObjectType) :
    ∀ e ∈ editsFor (objectsFindings g isInput os), ∃ span, e = .removal span := by
  intro e he
  obtain ⟨f, hf, hedit⟩ := List.mem_filterMap.mp he
  obtain ⟨span, hspan⟩ := edit?_of_mem_objects g isInput os f hf
  exact ⟨span, Option.some.inj (hedit.symm.trans hspan)⟩

/--
Whether a member may begin with `items` behind the token `last`: what comes before it is over.
-/
def IsBetween (last : Option Token) (items : List Item) : Prop :=
  last = some (.opening .brace) ∨ last = some (.sign .semicolon) ∨ last = some (.sign .comma)
    ∨ ∀ item ∈ items.head?, item.isOnNewLine = true ∨ item.isSeparator
      ∨ ∃ d, item.token = .closing d

theorem isBetween_of_isSeparator {items next : List Item} {last : Option Token} {item : Item}
    (h : item.isSeparator) : IsBetween (lastAfter last (items ++ [item])) next := by
  rw [lastAfter_append]
  rcases h with h | h
  . exact .inr (.inl (congrArg some h))
  . exact .inr (.inr (.inl (congrArg some h)))

theorem MemberOf.isBetween {used next : List Item} {m : Member} (h : MemberOf used next m)
    (last : Option Token) : IsBetween (lastAfter last used) next := by
  cases h with
  | @mk first more head body separator _ _ _ _ _ hused _ _ _ _ hseparator hover =>
    rw [hused]
    rcases List.eq_nil_or_concat separator with rfl | ⟨items, item, rfl⟩
    . refine .inr (.inr (.inr ?_))
      intro item hitem
      rcases hover rfl item hitem with hline | hterminator | hcomma
      . exact .inl hline
      . unfold Token.isTerminator at hterminator
        split at hterminator
        . next htoken => exact .inr (.inl (.inl htoken))
        . next htoken => exact .inr (.inr ⟨_, htoken⟩)
        . cases hterminator
      . exact .inr (.inl (.inr hcomma))
    . rw [List.concat_eq_append, ← List.append_assoc]
      exact isBetween_of_isSeparator (hseparator item (by simp))

mutual

theorem TermsOf.exists_stretches {collect : Bool} {items : List Item} {os : List ObjectType}
    (h : TermsOf collect items os) (isInput : Bool) :
    ∃ ss, itemsOf ss = items ∧ editsOf ss = editsFor (objectsFindings g isInput os)
      ∧ (∀ last, AllFit last ss) ∧ ∀ s ∈ ss.head?, ∃ item, s = .kept item := by
  match h with
  | .nil => exact ⟨[], rfl, rfl, fun _ => trivial, by simp⟩
  | @TermsOf.item _ item _ _ hopening hclosing htail =>
    obtain ⟨ss, hitems, hedits, hfit, _⟩ := htail.exists_stretches isInput
    refine ⟨.kept item :: ss, ?_, hedits, fun last => ⟨trivial, hfit _⟩, by simp⟩
    rw [itemsOf_cons, hitems]
    rfl
  | @TermsOf.group _ opener closer _ _ _ _ _ hopener hcloser hcollect hinner htail =>
    obtain ⟨ss, hitems, hedits, hfit, _⟩ := hinner.exists_stretches isInput
    obtain ⟨ss', hitems', hedits', hfit', _⟩ := htail.exists_stretches isInput
    refine ⟨.kept opener :: (ss ++ .kept closer :: ss'), ?_, ?_, ?_, by simp⟩
    . simp only [itemsOf_cons, itemsOf_append, hitems, hitems']
      rfl
    . simp only [editsOf_cons, editsOf_append, hedits, hedits', objectsFindings_append,
        editsFor_append]
      rfl
    . intro last
      exact ⟨trivial, (hfit _).append ⟨trivial, hfit' _⟩⟩
  | @TermsOf.object opener closer _ _ ms _ hopener hcloser hinner htail =>
    obtain ⟨ss, hitems, hedits, hfit⟩ := hinner.exists_stretches isInput
      (.typeLiteral ⟨ms, ⟨opener.span.start, closer.span.stop⟩⟩)
    obtain ⟨ss', hitems', hedits', hfit', _⟩ := htail.exists_stretches isInput
    refine ⟨.kept opener :: (ss ++ .kept closer :: ss'), ?_, ?_, ?_, by simp⟩
    . simp only [itemsOf_cons, itemsOf_append, hitems, hitems']
      rfl
    . simp only [editsOf_cons, editsOf_append, hedits, hedits', objectsFindings, objectFindings,
        editsFor_append]
      rfl
    . intro last
      refine ⟨trivial, (hfit _ ?_).append ⟨trivial, hfit' _⟩⟩
      exact .inl (congrArg some hopener)

theorem MembersOf.exists_stretches {items : List Item} {ms : List Member} (h : MembersOf items ms)
    (isInput : Bool) (owner : Owner) :
    ∃ ss, itemsOf ss = items ∧ editsOf ss = editsFor (membersFindings g isInput owner ms)
      ∧ ∀ last, IsBetween last items → AllFit last ss := by
  match h with
  | .nil => exact ⟨[], rfl, rfl, fun _ _ => trivial⟩
  | @MembersOf.separator item _ _ hitem htail =>
    obtain ⟨ss, hitems, hedits, hfit⟩ := htail.exists_stretches isInput owner
    refine ⟨.kept item :: ss, ?_, hedits, fun last _ => ⟨trivial, hfit _ ?_⟩⟩
    . rw [itemsOf_cons, hitems]
      rfl
    . show IsBetween (lastAfter last ([] ++ [item])) _
      exact isBetween_of_isSeparator hitem
  | @MembersOf.member used _ _ _ hmember htail =>
    obtain ⟨ss, hitems, hedits, hfit⟩ := hmember.exists_stretches isInput owner
    obtain ⟨ss', hitems', hedits', hfit'⟩ := htail.exists_stretches isInput owner
    refine ⟨ss ++ ss', ?_, ?_, ?_⟩
    . rw [itemsOf_append, hitems, hitems']
    . rw [editsOf_append, hedits, hedits', membersFindings, editsFor_append]
    . intro last hlast
      apply (hfit last ?_).append
      . rw [hitems]
        exact hfit' _ (hmember.isBetween last)
      . cases hmember
        exact hlast

theorem MemberOf.exists_stretches {used next : List Item} {m : Member} (h : MemberOf used next m)
    (isInput : Bool) (owner : Owner) :
    ∃ ss, itemsOf ss = used ∧ editsOf ss = editsFor (memberFindings g isInput owner m)
      ∧ ∀ last, IsBetween last used → AllFit last ss := by
  have hbalanced := h.isBalanced
  match h with
  | @MemberOf.mk first more head _ separator _ _ _ _ _ hused hfirst hclosing hhead hbody hseparator
      _ =>
    rw [memberFindings]
    split
    . next finding hfinding =>
      -- The member goes, with all that is inside it.
      refine ⟨[.removed first more], by simp [Stretch.items], ?_, ?_⟩
      . have := edit?_memberFinding? g hfinding
        simp [editsFor, this, Stretch.edits, Stretch.edit?, Stretch.inner]
      . intro last hlast
        refine ⟨⟨?_, hbalanced⟩, trivial⟩
        rcases hlast with hlast | hlast | hlast | hlast
        . exact .inr (.inl hlast)
        . exact .inr (.inr (.inl hlast))
        . exact .inr (.inr (.inr hlast))
        . rcases hlast first rfl with hline | hseparator | ⟨d, hd⟩
          . exact .inl hline
          . exact absurd hseparator hfirst
          . exact absurd hd (hclosing d)
    . obtain ⟨ss, hitems, hedits, hfit, _⟩ := hbody.exists_stretches isInput
      refine ⟨head.map .kept ++ ss ++ separator.map .kept, ?_, ?_, ?_⟩
      . rw [itemsOf_append, itemsOf_append, itemsOf_map_kept, itemsOf_map_kept, hitems, hused]
      . rw [editsOf_append, editsOf_append, editsOf_map_kept, editsOf_map_kept, hedits]
        simp
      . intro last _
        exact ((allFit_map_kept last head).append (hfit _)).append (allFit_map_kept _ separator)

end

theorem edit?_payloadFinding? {a : TypeAlias} {finding : Finding}
    (h : payloadFinding? g a = some finding) :
    finding.edit? = none ∨ ∃ subtypes, subtypes ≠ [] ∧ finding.edit? = some (.replacement a.type.span
      (Client.payloadUnion subtypes (a.params.map (·.name.value))).render) := by
  unfold payloadFinding? at h
  obtain ⟨delegate, _, h⟩ := Option.bind_eq_some_iff.mp h
  obtain ⟨subtypes, _, h⟩ := Option.bind_eq_some_iff.mp h
  split at h
  . cases h
    exact .inl rfl
  . next hne =>
    cases h
    exact .inr ⟨subtypes, hne, rfl⟩

theorem editsFor_statementFindings_typeAlias (a : TypeAlias) :
    editsFor (statementFindings g (.typeAlias a))
      = editsFor (payloadFinding? g a).toList ++ editsFor (objectsFindings g
        (Client.inputAliasDelegate? a.name.value g).isSome a.type.objects) := by
  rw [statementFindings, editsFor_append, editsFor_append]
  cases Client.inputAliasDelegate? a.name.value g with
  | none => simp
  | some delegate => simp [editsFor, Finding.edit?]

theorem editsFor_statementFindings_interfaceBlock (b : MemberBlock) :
    editsFor (statementFindings g (.interfaceBlock b))
      = editsFor (membersFindings g false (.interfaceBlock b) b.members) := by
  rw [statementFindings, editsFor_append]
  split
  . rfl
  . rfl

theorem Stretch.edits_bounds_of_kept {first : Item} {more : List Item} {ss : List Stretch}
    {start : Nat} (hitems : itemsOf ss = first :: more) (hfit : ∀ last, AllFit last ss)
    (hhead : ∀ s ∈ ss.head?, ∃ item, s = .kept item) (horder : InOrder start (first :: more)) :
    (editsOf ss).Pairwise Edit.Nests ∧ ∀ e ∈ editsOf ss, first.span.start < e.span.start
      ∧ e.span.start < e.span.stop ∧ e.span.stop ≤ stopAfter first.span.stop more := by
  constructor
  . apply pairwise_editsOf (hfit none)
    rw [hitems]
    exact horder
  . cases ss with
    | nil => cases hitems
    | cons s ss =>
      obtain ⟨item, rfl⟩ := hhead s rfl
      cases hitems
      intro e he
      have := mem_editsOf_bounds (hfit none).2 horder.2.2.2 he
      refine ⟨?_, this.2⟩
      have := horder.2.2.1
      omega

theorem MembersOf.exists_stretches_of_block {first opener closer : Item} {more head inner : List Item}
    {ms : List Member} {owner : Owner} (hused : first :: more = head ++ opener :: (inner ++ [closer]))
    (hopener : opener.token = .opening .brace) (hinner : MembersOf inner ms) :
    ∃ ss, itemsOf ss = first :: more ∧ editsOf ss = editsFor (membersFindings g false owner ms)
      ∧ ∀ last, AllFit last ss := by
  obtain ⟨ss, hitems, hedits, hfit⟩ := hinner.exists_stretches g false owner
  refine ⟨head.map .kept ++ .kept opener :: (ss ++ [.kept closer]), ?_, ?_, ?_⟩
  . simp only [itemsOf_cons, itemsOf_append, itemsOf_map_kept, hitems, hused]
    rfl
  . simp only [editsOf_cons, editsOf_append, editsOf_map_kept, hedits]
    simp [Stretch.edits, Stretch.edit?, Stretch.inner]
  . intro last
    apply (allFit_map_kept last head).append
    exact ⟨trivial, (hfit _ (.inl (congrArg some hopener))).append ⟨trivial, trivial⟩⟩

mutual

theorem StatementOf.exists_stretches {used : List Item} {s : Statement} (h : StatementOf used s)
    {start : Nat} (horder : InOrder start used)
    (hnames : ∀ item ∈ used, ∀ name, item.token = .identifier name → IsName name) :
    ∃ ss, itemsOf ss = used ∧ editsOf ss = editsFor (statementFindings g s)
      ∧ ∀ last, AllFit last ss := by
  match h with
  | @StatementOf.typeAlias _ equals first _ head rest separator name params os hused hhead hequals
      htype hseparator =>
    rw [editsFor_statementFindings_typeAlias]
    rw [hused] at horder hnames ⊢
    rw [inOrder_append] at horder
    obtain ⟨_, _, _, _, horder⟩ := horder
    rw [inOrder_append] at horder
    obtain ⟨ss, hitems, hedits, hfit, hkept⟩ := htype.exists_stretches g
      (Client.inputAliasDelegate? name.value g).isSome
    have hinner := edits_bounds_of_kept hitems hfit hkept horder.1
    have keep : ∃ ss, itemsOf ss = head ++ equals :: (first :: rest ++ separator)
        ∧ editsOf ss = editsFor (objectsFindings g
          (Client.inputAliasDelegate? name.value g).isSome os) ∧ ∀ last, AllFit last ss := by
      refine ⟨head.map .kept ++ .kept equals :: (ss ++ separator.map .kept), ?_, ?_, ?_⟩
      . simp only [itemsOf_cons, itemsOf_append, itemsOf_map_kept, hitems]
        rfl
      . simp only [editsOf_cons, editsOf_append, editsOf_map_kept, hedits]
        simp [Stretch.edits, Stretch.edit?, Stretch.inner]
      . intro last
        apply (allFit_map_kept last head).append
        exact ⟨trivial, (hfit _).append (allFit_map_kept _ separator)⟩
    cases hpayload : payloadFinding? g _ with
    | none => exact keep
    | some finding =>
      rcases edit?_payloadFinding? g hpayload with hnone | ⟨subtypes, hne, hsome⟩
      . simpa [editsFor, hnone] using keep
      . refine ⟨head.map .kept ++ .kept equals :: .replaced first rest
          (Client.payloadUnion subtypes (params.map (·.name.value))).render (editsOf ss)
          :: separator.map .kept, ?_, ?_, ?_⟩
        . simp only [itemsOf_cons, itemsOf_append, itemsOf_map_kept]
          rfl
        . simp only [editsOf_cons, editsOf_append, editsOf_map_kept, hedits]
          simp [Stretch.edits, Stretch.edit?, Stretch.inner, editsFor, hsome]
        . intro last
          apply (allFit_map_kept last head).append
          refine ⟨trivial, ⟨?_, htype.isBalanced, ⟨subtypes, _, hne, ?_, rfl⟩, ?_, hinner⟩,
            allFit_map_kept _ separator⟩
          . exact congrArg some hequals
          . intro p hp
            obtain ⟨param, hparam, rfl⟩ := List.mem_map.mp hp
            obtain ⟨item, _, hwithin, hname, _⟩ := hhead.exists_items param hparam
            exact hnames item (List.mem_append_left _ (hwithin.subset (.head _))) _ hname
          . rw [hedits]
            exact eq_removal_of_mem_objects g _ os
  | .interfaceBlock hused hhead hopener hcloser hinner =>
    rw [editsFor_statementFindings_interfaceBlock]
    exact hinner.exists_stretches_of_block g hused hopener
  | .classBlock hused hhead hopener hcloser hinner =>
    exact hinner.exists_stretches_of_block g hused hopener
  | @StatementOf.namespaceBlock _ opener closer _ head _ _ _ hused hhead hopener hcloser hinner =>
    rw [hused] at horder hnames ⊢
    rw [inOrder_append] at horder
    obtain ⟨_, _, _, _, horder⟩ := horder
    rw [inOrder_append] at horder
    obtain ⟨ss, hitems, hedits, hfit⟩ := hinner.exists_stretches horder.1
      (fun item hitem => hnames item (by simp [hitem]))
    refine ⟨head.map .kept ++ .kept opener :: (ss ++ [.kept closer]), ?_, ?_, ?_⟩
    . simp only [itemsOf_cons, itemsOf_append, itemsOf_map_kept, hitems]
      rfl
    . simp only [editsOf_cons, editsOf_append, editsOf_map_kept, hedits, statementFindings]
      simp [Stretch.edits, Stretch.edit?, Stretch.inner]
    . intro last
      apply (allFit_map_kept last head).append
      exact ⟨trivial, (hfit _).append ⟨trivial, trivial⟩⟩
  | @StatementOf.other _ _ _ head _ separator _ hused hhead hbody hseparator =>
    obtain ⟨ss, hitems, hedits, hfit, _⟩ := hbody.exists_stretches g false
    refine ⟨head.map .kept ++ ss ++ separator.map .kept, ?_, ?_, ?_⟩
    . simp only [itemsOf_append, itemsOf_map_kept, hitems, hused]
    . simp only [editsOf_append, editsOf_map_kept, hedits, statementFindings]
      simp
    . intro last
      exact ((allFit_map_kept last head).append (hfit _)).append (allFit_map_kept _ separator)

theorem StatementsOf.exists_stretches {items : List Item} {ss : List Statement}
    (h : StatementsOf items ss) {start : Nat} (horder : InOrder start items)
    (hnames : ∀ item ∈ items, ∀ name, item.token = .identifier name → IsName name) :
    ∃ stretches, itemsOf stretches = items
      ∧ editsOf stretches = editsFor (statementsFindings g ss)
      ∧ ∀ last, AllFit last stretches := by
  match h with
  | .nil => exact ⟨[], rfl, rfl, fun _ => trivial⟩
  | @StatementsOf.semicolon item _ _ hitem htail =>
    obtain ⟨stretches, hitems, hedits, hfit⟩ := htail.exists_stretches horder.2.2.2
      (fun x hx => hnames x (.tail _ hx))
    refine ⟨.kept item :: stretches, ?_, hedits, fun last => ⟨trivial, hfit _⟩⟩
    rw [itemsOf_cons, hitems]
    rfl
  | .statement hstatement htail =>
    rw [inOrder_append] at horder
    obtain ⟨stretches, hitems, hedits, hfit⟩ := hstatement.exists_stretches horder.1
      (fun x hx => hnames x (List.mem_append_left _ hx))
    obtain ⟨stretches', hitems', hedits', hfit'⟩ := htail.exists_stretches horder.2
      (fun x hx => hnames x (List.mem_append_right _ hx))
    refine ⟨stretches ++ stretches', ?_, ?_, fun last => (hfit last).append (hfit' _)⟩
    . rw [itemsOf_append, hitems, hitems']
    . rw [editsOf_append, hedits, hedits', statementsFindings, editsFor_append]

end

end Delegation
