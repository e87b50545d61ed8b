import Delegation.Proofs.Lossless
import Delegation.Proofs.Partners
import Delegation.Proofs.Rows

/-!
This module contains how the spans of a declaration tree lie in its source: each of them from token
to token, inside the node around it and behind its siblings.
-/

namespace Delegation

open Item Lexeme

section

variable (source : List Char) (ls : List Lexeme)

/--
Whether `span` is a part of `source`, which is divided into `ls`, from the start of a token that is
`IsFirst` to the end of one that is no trivia.
-/
structure Span.Covers (IsFirst : Token → Prop) (span : Span) : Prop where
  exists_first : ∃ l ∈ ls, IsFirst l.token ∧ l.start = span.start
  exists_last : ∃ l ∈ ls, l.token.isTrivia = false ∧ l.stop = span.stop
  nonempty : span.start < span.stop
  stop_le : span.stop ≤ byteLength source

def Span.CoversTokens (span : Span) : Prop :=
  span.Covers source ls (·.isTrivia = false)

def Span.CoversComments (span : Span) : Prop :=
  span.Covers source ls (fun token => token.isTrivia = false ∨ token.IsComment)

def Located.IsWritten (name : Located String) : Prop :=
  name.span.slice? source = some name.value.toList

structure TypeParam.IsLaidOut (param : TypeParam) : Prop where
  name : param.name.IsWritten source
  span : param.span.CoversTokens source ls

structure TypeAlias.IsLaidOut (a : TypeAlias) : Prop where
  name : a.name.IsWritten source
  params : ∀ param ∈ a.params, param.IsLaidOut source ls
  type : a.type.span.CoversTokens source ls
  areInRow : Span.AreInRow a.span.start a.span.stop
    (a.name.span :: (a.params.map (·.span) ++ [a.type.span]))
  objects : Span.AreInRow a.type.span.start a.type.span.stop (a.type.objects.map (·.span))

/--
Whether `span` ends with braces, `front` stands in a row before them and `inside` between them.
-/
def Span.Encloses (span : Span) (front inside : List Span) : Prop :=
  ∃ head opener closer, EndsWithBraces ls span head opener closer
    ∧ Span.AreInRow span.start opener.start front
    ∧ Span.AreInRow opener.stop closer.start inside

structure MemberBlock.IsLaidOut (b : MemberBlock) : Prop where
  name : b.name.IsWritten source
  params : ∀ param ∈ b.params, param.IsLaidOut source ls
  encloses : b.span.Encloses ls (b.name.span :: b.params.map (·.span)) (b.members.map (·.span))

/--
Whether a node lies in `source` from token to token, and what is directly inside it lies there in a
row: between its braces, if it has any.
-/
def Node.IsLaidOut : Node → Prop
  | statement s => s.span.CoversTokens source ls
  | typeAlias a => a.IsLaidOut source ls
  | interfaceBlock b | classBlock b => b.IsLaidOut source ls
  | namespaceBlock _ body span => span.Encloses ls [] (body.map (·.span))
  | other objects span => Span.AreInRow span.start span.stop (objects.map (·.span))
  | object o => o.span.CoversTokens source ls ∧ o.span.Encloses ls [] (o.members.map (·.span))
  | member _ m => m.span.CoversComments source ls
    ∧ Span.AreInRow m.span.start m.span.stop (m.objects.map (·.span))

end

theorem exists_inOrder {ls : List Lexeme} {used : List Item} (hls : AreLaid 0 ls)
    (hused : used <:+: itemsFrom .empty ls) : ∃ start, InOrder start used := by
  obtain ⟨before, after, hitems⟩ := hused
  have horder := hls.inOrder
  rw [← hitems, inOrder_append, inOrder_append] at horder
  exact ⟨_, horder.1.2⟩

theorem stopAfter_itemsFrom_le {ls : List Lexeme} (hls : AreLaid 0 ls) :
    stopAfter 0 (itemsFrom .empty ls) ≤ byteLength (textOf ls) := by
  obtain ⟨used, rest, rfl, _, hstop, _⟩ := itemsFrom_eq_append hls (List.append_nil _).symm
  rw [hstop, textOf_append, byteLength_append]
  omega

theorem covers_of_items {ls : List Lexeme} {first : Item} {more : List Item} (hls : AreLaid 0 ls)
    (hused : first :: more <:+: itemsFrom .empty ls) :
    Span.CoversTokens (textOf ls) ls ⟨first.span.start, stopAfter first.span.stop more⟩
      ∧ Span.CoversComments (textOf ls) ls ⟨first.lead, stopAfter first.span.stop more⟩ := by
  obtain ⟨_, _, hlead, hstart, hmore⟩ := exists_inOrder hls hused
  have hle := hmore.le_stopAfter
  -- Where items end, the last of them does, which is one of the lexemes.
  have hlast : ∃ l ∈ ls, l.token.isTrivia = false ∧ l.stop = stopAfter first.span.stop more := by
    obtain ⟨last, hmem, hstop⟩ := exists_stopAfter_eq first more
    obtain ⟨l, hl, _, hspan, htrivia⟩ := exists_lexeme_of_mem_itemsFrom (hused.subset hmem)
    exact ⟨l, hl, htrivia, (congrArg Span.stop hspan).trans hstop.symm⟩
  have hstop : stopAfter first.span.stop more ≤ byteLength (textOf ls) := by
    obtain ⟨l, hl, _, hstop⟩ := hlast
    have := hls.mem_bounds l hl
    omega
  obtain ⟨l, hl, _, hspan, htrivia⟩ := exists_lexeme_of_mem_itemsFrom (hused.subset (.head _))
  refine ⟨⟨⟨l, hl, htrivia, congrArg Span.start hspan⟩, hlast, ?_, hstop⟩, ?_, hlast, ?_, hstop⟩
  . dsimp only
    omega
  . rcases exists_lead_of_mem_itemsFrom (hused.subset (.head _)) with hnone | ⟨l, hl, hstart, hfirst⟩
    . cases hnone
    . exact ⟨l, hl, hfirst, hstart⟩
  . dsimp only
    omega

theorem isWritten_of_item {ls : List Lexeme} {item : Item} {name : String} (hls : AreLaid 0 ls)
    (hitem : item ∈ itemsFrom .empty ls) (hname : item.token = .identifier name) :
    Located.IsWritten (textOf ls) ⟨name, item.span⟩ := by
  obtain ⟨l, hl, htoken, hspan, _⟩ := exists_lexeme_of_mem_itemsFrom hitem
  obtain ⟨before, after, rfl⟩ := List.append_of_mem hl
  have hwritten := hls.split.cons.2.1.isWrittenAs
  rw [htoken, hname] at hwritten
  rw [Located.IsWritten, ← hspan, hls.slice?_span l hl, hwritten]

theorem HeadOf.isLaidOut {ls : List Lexeme} {items : List Item} {name : Located String}
    {params : List TypeParam} (h : HeadOf items name params) (hls : AreLaid 0 ls)
    (hitems : items <:+: itemsFrom .empty ls) :
    name.IsWritten (textOf ls) ∧ ∀ param ∈ params, param.IsLaidOut (textOf ls) ls := by
  constructor
  . obtain ⟨item, hitem, hname, hspan⟩ := h.exists_name
    have hwritten := isWritten_of_item hls (hitems.subset hitem) hname
    rwa [← hspan] at hwritten
  . intro param hparam
    obtain ⟨item, suffix, hwithin, hname, hnamespan, hspan⟩ := h.exists_items param hparam
    have hwritten := isWritten_of_item hls (hitems.subset (hwithin.subset (.head _))) hname
    have hcovers := (covers_of_items hls (hwithin.trans hitems)).1
    rw [← hnamespan] at hwritten
    rw [← hspan] at hcovers
    exact ⟨hwritten, hcovers⟩

theorem inOrder_of_braces {first opener closer : Item} {more head inner : List Item} {start : Nat}
    (hused : first :: more = head ++ opener :: (inner ++ [closer]))
    (horder : InOrder start (first :: more)) :
    Item.AreInRow first.span.start opener.span.start head ∧ InOrder opener.span.stop inner
      ∧ stopAfter opener.span.stop inner ≤ closer.span.start := by
  constructor
  . have hrow := horder.areInRow_cons
    rw [hused] at hrow
    obtain ⟨between, hhead, hopener⟩ := hrow.split
    exact hhead.widen (Nat.le_refl _) hopener.1
  . rw [hused, inOrder_append] at horder
    obtain ⟨_, _, _, _, hbehind⟩ := horder
    rw [inOrder_append] at hbehind
    obtain ⟨hinner, hlead, hstart, _⟩ := hbehind
    exact ⟨hinner, Nat.le_trans hlead hstart⟩

theorem encloses_of_items {ls : List Lexeme} {first opener closer : Item}
    {more head inner : List Item} {front inside : List Span} (hls : AreLaid 0 ls)
    (hitems : first :: more <:+: itemsFrom .empty ls)
    (hused : first :: more = head ++ opener :: (inner ++ [closer]))
    (hopener : opener.token = .opening .brace) (hcloser : closer.token = .closing .brace)
    (hinner : IsBalanced inner)
    (hfront : ∀ {start stop}, Item.AreInRow start stop head → Span.AreInRow start stop front)
    (hinside : ∀ {start}, InOrder start inner →
      Span.AreInRow start (stopAfter start inner) inside) :
    Span.Encloses ls ⟨first.span.start, stopAfter first.span.stop more⟩ front inside := by
  obtain ⟨_, horder⟩ := exists_inOrder hls hitems
  obtain ⟨hhead, hbetween, hend⟩ := inOrder_of_braces hused horder
  obtain ⟨head', opener', closer', hends, _, _, hopenerspan, hcloserspan⟩ :=
    exists_endsWithBraces hitems hused hopener hcloser hinner
  refine ⟨head', opener', closer', hends, ?_, ?_⟩
  . rw [← hopenerspan] at hhead
    exact hfront hhead
  . rw [← hopenerspan] at hbetween hend
    rw [← hcloserspan] at hend
    exact (hinside hbetween).widen (Nat.le_refl _) hend

section

variable {ls : List Lexeme} (hls : AreLaid 0 ls)
include hls

theorem StatementOf.coversTokens {used : List Item} {s : Statement} (h : StatementOf used s)
    (hused : used <:+: itemsFrom .empty ls) : s.span.CoversTokens (textOf ls) ls := by
  obtain ⟨first, more, rfl, hspan⟩ := h.span_eq
  rw [hspan]
  exact (covers_of_items hls hused).1

theorem StatementOf.isLaidOut_alias {used : List Item} {a : TypeAlias}
    (h : StatementOf used (.typeAlias a)) (hitems : used <:+: itemsFrom .empty ls) :
    a.IsLaidOut (textOf ls) ls := by
  cases h with
  | @typeAlias first equals start more head rest separator name params os hused hhead _ htype _ =>
    obtain ⟨_, horder⟩ := exists_inOrder hls hitems
    have hrow := horder.areInRow_cons
    have hwithin : head <:+: first :: more := ⟨[], equals :: (start :: rest ++ separator), hused.symm⟩
    have hwithin' : start :: rest <:+: first :: more :=
      ⟨head ++ [equals], separator, by simp [hused]⟩
    rw [hused] at hrow
    obtain ⟨between, hfront, hback⟩ := hrow.split
    obtain ⟨hstart, hlt, htyperow, hafter⟩ := (hback.drop [equals]).cover
    obtain ⟨hname, hparams⟩ := hhead.isLaidOut hls (hwithin.trans hitems)
    refine ⟨hname, hparams, (covers_of_items hls (hwithin'.trans hitems)).1, ?_,
      htype.areInRow htyperow⟩
    exact (hhead.areInRow hfront).append ⟨hstart, hlt, hafter.le⟩

theorem MemberBlock.isLaidOut_of_items {first opener closer : Item} {more head inner : List Item}
    {b : MemberBlock} (hitems : first :: more <:+: itemsFrom .empty ls)
    (hused : first :: more = head ++ opener :: (inner ++ [closer]))
    (hhead : HeadOf head b.name b.params) (hopener : opener.token = .opening .brace)
    (hcloser : closer.token = .closing .brace) (hinner : MembersOf inner b.members)
    (hspan : b.span = ⟨first.span.start, stopAfter first.span.stop more⟩) :
    b.IsLaidOut (textOf ls) ls := by
  have hwithin : head <:+: first :: more := ⟨[], opener :: (inner ++ [closer]), hused.symm⟩
  obtain ⟨hname, hparams⟩ := hhead.isLaidOut hls (hwithin.trans hitems)
  refine ⟨hname, hparams, ?_⟩
  rw [hspan]
  exact encloses_of_items hls hitems hused hopener hcloser hinner.isBalanced hhead.areInRow
    hinner.areInRow

theorem MemberOf.isLaidOut {used next : List Item} {m : Member} (h : MemberOf used next m)
    (hitems : used <:+: itemsFrom .empty ls) :
    m.span.CoversComments (textOf ls) ls
      ∧ Span.AreInRow m.span.start m.span.stop (m.objects.map (·.span)) := by
  obtain ⟨_, horder⟩ := exists_inOrder hls hitems
  cases h with
  | mk hused _ _ _ hbody _ _ =>
    refine ⟨(covers_of_items hls hitems).2, ?_⟩
    have hrow := horder.areInRow_cons
    rw [hused] at hrow
    exact (hbody.areInRow_between hrow).widen horder.2.1 (Nat.le_refl _)

theorem Node.IsReadFrom.isLaidOut {used : List Item} {node : Node} (h : node.IsReadFrom used)
    (hitems : used <:+: itemsFrom .empty ls) : node.IsLaidOut (textOf ls) ls := by
  cases node with
  | statement s => exact StatementOf.coversTokens hls h hitems
  | typeAlias a => exact StatementOf.isLaidOut_alias hls h hitems
  | interfaceBlock b =>
    cases h with
    | interfaceBlock hused hhead hopener hcloser hinner =>
      exact MemberBlock.isLaidOut_of_items hls hitems hused hhead hopener hcloser hinner rfl
  | classBlock b =>
    cases h with
    | classBlock hused hhead hopener hcloser hinner =>
      exact MemberBlock.isLaidOut_of_items hls hitems hused hhead hopener hcloser hinner rfl
  | namespaceBlock name body span =>
    cases h with
    | namespaceBlock hused hhead hopener hcloser hinner =>
      exact encloses_of_items hls hitems hused hopener hcloser hinner.isBalanced (·.le)
        (fun horder => hinner.areInRow horder.areInRow)
  | other objects span =>
    cases h with
    | other hused _ hbody _ =>
      obtain ⟨_, horder⟩ := exists_inOrder hls hitems
      have hrow := horder.areInRow_cons
      rw [hused] at hrow
      exact hbody.areInRow_between hrow
  | object o =>
    obtain ⟨opener, inner, closer, rfl, hopener, hcloser, hinner, hspan⟩ := h
    have hused : opener :: (inner ++ [closer]) = [] ++ opener :: (inner ++ [closer]) := rfl
    have hspan' : o.span = ⟨opener.span.start, stopAfter opener.span.stop (inner ++ [closer])⟩ := by
      rw [hspan, stopAfter_append]
      rfl
    rw [Node.IsLaidOut, hspan']
    exact ⟨(covers_of_items hls hitems).1, encloses_of_items hls hitems hused hopener hcloser
      hinner.isBalanced (·.le) hinner.areInRow⟩
  | member owner m =>
    obtain ⟨next, hmember⟩ := h
    exact hmember.isLaidOut hls hitems

end

/--
The spans of a declaration tree are nested as its nodes are. The tree has all of the source, and its
statements are in a row there. Every node begins and ends where tokens do, what is inside it is in
a row there, between the braces if it has any, and its names are those of the source.
-/
theorem DeclarationTree.parse_isLaidOut {source : List Char} {tree : DeclarationTree}
    (h : parse source = .ok tree) :
    ∃ ls, tokenize source = .ok ls ∧ tree.span = ⟨0, byteLength source⟩
      ∧ Span.AreInRow 0 (byteLength source) (tree.statements.map (·.span))
      ∧ ∀ node ∈ tree.visit fun _ => false, node.IsLaidOut source ls := by
  obtain ⟨ls, htokens, h⟩ := bind_eq_ok h
  split at h
  . next tree' htree =>
    cases h
    have hlexes := tokenize_eq_ok.mp htokens
    have hls := hlexes.areLaid
    obtain rfl := hlexes.textOf_eq
    obtain ⟨hstatements, hspan⟩ := ofLexemes_eq_ok htree
    refine ⟨ls, htokens, ?_, ?_, ?_⟩
    . rw [hspan, hls.endOfText_eq]
    . have hrow := hstatements.areInRow hls.inOrder.areInRow
      exact hrow.widen (Nat.le_refl _) (stopAfter_itemsFrom_le hls)
    . intro node hnode
      obtain ⟨used, hused, hread⟩ := hstatements.isReadIn node hnode
      exact hread.isLaidOut hls hused
  . cases h

theorem DeclarationTree.parse_isLaidOut_alias :
    let source := "type A<B> = \x7b\n  // c\n  d: \x7b e: B \x7d;\n\x7d".toList
    ∃ tree, parse source = .ok tree
      ∧ ∃ ls, tokenize source = .ok ls ∧ tree.span = ⟨0, byteLength source⟩
        ∧ Span.AreInRow 0 (byteLength source) (tree.statements.map (·.span))
        ∧ ∀ node ∈ tree.visit fun _ => false, node.IsLaidOut source ls := by
  intro source
  have hok : (parse source).isOk = true := by decide +kernel
  obtain ⟨tree, h⟩ := exists_of_isOk hok
  exact ⟨tree, h, parse_isLaidOut h⟩

end Delegation
