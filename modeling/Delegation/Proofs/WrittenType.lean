import Delegation.Proofs.Grammar.Reading
import Delegation.Proofs.PayloadUnion
import Delegation.Proofs.Relocation

/-!
This module contains how a type is read back that is written into a type alias. The alias ends where
the text does, and its object types are those of the type that was written.
-/

namespace Delegation

open Item Lexeme

namespace TypeNode

mutual

def IsInhabited : TypeNode → Prop
  | reference _ args => AreInhabited args
  | stringLiteral _ => True
  | object properties => ArePropertiesInhabited properties
  | intersection members | union members => members ≠ [] ∧ AreInhabited members
  | parenthesized inner => IsInhabited inner

def AreInhabited : List TypeNode → Prop
  | [] => True
  | node :: nodes => IsInhabited node ∧ AreInhabited nodes

def ArePropertiesInhabited : List (String × TypeNode) → Prop
  | [] => True
  | (_, type) :: properties => IsInhabited type ∧ ArePropertiesInhabited properties

end

mutual

/--
The object types in a type that are not a part of another one, as if all of them stood at the start
of the text.
-/
def objects : TypeNode → List ObjectType
  | reference _ args => objectsOfAll args
  | stringLiteral _ => []
  | object properties => [⟨membersOf properties, ⟨0, 0⟩⟩]
  | intersection members | union members => objectsOfAll members
  | parenthesized inner => objects inner

def objectsOfAll : List TypeNode → List ObjectType
  | [] => []
  | node :: nodes => objects node ++ objectsOfAll nodes

def memberOf : String × TypeNode → Member
  | (name, type) => ⟨.property, some ⟨name, ⟨0, 0⟩⟩, false, objects type, ⟨0, 0⟩⟩

def membersOf : List (String × TypeNode) → List Member
  | [] => []
  | property :: properties => memberOf property :: membersOf properties

end

theorem objectsOfAll_eq (nodes : List TypeNode) : objectsOfAll nodes = nodes.flatMap objects := by
  induction nodes with
  | nil => rfl
  | cons node nodes ih => rw [objectsOfAll, ih, List.flatMap_cons]

end TypeNode

/-!
The items of a type are read term by term, wherever on a line they stand.
-/

structure StandFor (ts : List Token) (items : List Item) : Prop where
  map_token : items.map Item.token = ts
  isOnNewLine : ∀ item ∈ items, item.isOnNewLine = false

namespace StandFor

variable {t : Token} {ts us : List Token} {items : List Item}

theorem eq_nil (h : StandFor [] items) : items = [] :=
  List.map_eq_nil_iff.mp h.map_token

theorem exists_cons (h : StandFor (t :: ts) items) :
    ∃ item more, items = item :: more ∧ item.token = t ∧ item.isOnNewLine = false
      ∧ StandFor ts more := by
  obtain ⟨item, more, rfl, htoken, hmore⟩ := List.map_eq_cons_iff.mp h.map_token
  have hline := List.forall_mem_cons.mp h.isOnNewLine
  exact ⟨item, more, rfl, htoken, hline.1, hmore, hline.2⟩

theorem exists_append (h : StandFor (ts ++ us) items) :
    ∃ front back, items = front ++ back ∧ StandFor ts front ∧ StandFor us back := by
  obtain ⟨front, back, rfl, hfront, hback⟩ := List.map_eq_append_iff.mp h.map_token
  have hline := List.forall_mem_append.mp h.isOnNewLine
  exact ⟨front, back, rfl, ⟨hfront, hline.1⟩, ⟨hback, hline.2⟩⟩

theorem exists_group {u : Token} (h : StandFor (t :: (ts ++ [u])) items) :
    ∃ opener inner closer, items = opener :: (inner ++ [closer]) ∧ opener.token = t
      ∧ opener.isOnNewLine = false ∧ StandFor ts inner ∧ closer.token = u := by
  obtain ⟨opener, more, rfl, hopener, hline, h⟩ := h.exists_cons
  obtain ⟨inner, back, rfl, hinner, hback⟩ := h.exists_append
  obtain ⟨closer, more, rfl, hcloser, _, hmore⟩ := hback.exists_cons
  rw [hmore.eq_nil]
  exact ⟨opener, inner, closer, rfl, hopener, hline, hinner, hcloser⟩

end StandFor

def TypeNode.IsMirroredBy (node : TypeNode) (os : List ObjectType) : Prop :=
  ObjectType.relocateAll (fun _ => 0) os = node.objects

structure IsJoint (p : Item → Prop) (separator : Token) : Prop where
  ne_opening : ∀ d, separator ≠ .opening d
  of_token : ∀ item, item.token = separator → item.isOnNewLine = false → p item
  of_continues : ∀ item, item.Continues → p item

theorem Item.continues_of_token {item : Item} {t : Token} (htoken : item.token = t)
    (hline : item.isOnNewLine = false) (ht : t.isTerminator = false ∧ t ≠ .sign .comma) :
    item.Continues := by
  subst htoken
  exact ⟨hline, ht⟩

theorem StandFor.readsTerms_item {t : Token} {used : List Item} (h : StandFor [t] used)
    (ht : t.isTerminator = false ∧ t ≠ .sign .comma) (hopening : ∀ d, t ≠ .opening d)
    (rest : List Item) : ReadsTerms Item.Continues rest (used ++ rest) [] := by
  obtain ⟨item, more, rfl, htoken, hline, hmore⟩ := h.exists_cons
  rw [hmore.eq_nil]
  exact .item (continues_of_token htoken hline ht) (by simpa [htoken] using hopening)

theorem isJoint_pipe : IsJoint Item.Continues (.sign .pipe) where
  ne_opening := by simp
  of_token _ htoken hline := continues_of_token htoken hline (by decide)
  of_continues _ h := h

theorem isJoint_ampersand : IsJoint Item.Continues (.sign .ampersand) where
  ne_opening := by simp
  of_token _ htoken hline := continues_of_token htoken hline (by decide)
  of_continues _ h := h

theorem isJoint_comma : IsJoint (fun item => ∀ d, item.token ≠ .closing d) (.sign .comma) where
  ne_opening := by simp
  of_token _ htoken _ := by simp [htoken]
  of_continues _ h := h.ne_closing

theorem isTerminator_propertiesTokens (properties : List (String × TypeNode)) {back : List Item}
    {closer : Item} (hback : StandFor (TypeNode.propertiesTokens properties) back)
    (hcloser : closer.token = .closing .brace) (rest : List Item) :
    ∀ item ∈ (back ++ closer :: rest).head?, item.token.isTerminator = true := by
  intro item hitem
  cases properties with
  | nil =>
    rw [hback.eq_nil] at hitem
    cases hitem
    simp [hcloser, Token.isTerminator]
  | cons property properties =>
    obtain ⟨separator, more, rfl, hseparator, _⟩ := hback.exists_cons
    cases hitem
    simp [hseparator, Token.isTerminator]

-- Behind a type comes anything, so that what is written behind a part of it can come there as well.
mutual

theorem readsTerms_tokens (node : TypeNode) {used : List Item} (h : StandFor node.tokens used)
    (rest : List Item) :
    ∃ os, node.IsMirroredBy os ∧ ReadsTerms Item.Continues rest (used ++ rest) os := by
  match node with
  | .reference name [] =>
    rw [TypeNode.tokens] at h
    exact ⟨[], rfl, h.readsTerms_item (by simp [Token.isTerminator]) (by simp) rest⟩
  | .reference name (arg :: args) =>
    rw [TypeNode.tokens] at h
    obtain ⟨item, more, rfl, htoken, hline, h⟩ := h.exists_cons
    obtain ⟨opener, inner, closer, rfl, hopener, hopenerline, h, hcloser⟩ := h.exists_group
    obtain ⟨front, back, rfl, hfront, hback⟩ := h.exists_append
    obtain ⟨os, hos, hfront⟩ := readsTerms_tokens arg hfront (back ++ closer :: rest)
    obtain ⟨os', hos', hback⟩ := readsTerms_moreTokens isJoint_comma args hback (closer :: rest)
    have hitem := continues_of_token htoken hline (by simp [Token.isTerminator])
    have hopen := continues_of_token hopener hopenerline (by decide)
    have hinner := (hfront.mono isJoint_comma.of_continues).trans hback
    have hgroup := hinner.group hopener hcloser (by simp) hopen fun _ hitem => hitem
    refine ⟨os ++ os', ?_, ?_⟩
    . rw [TypeNode.IsMirroredBy, ObjectType.relocateAll_append, hos, hos']
      rfl
    . have := (ReadsTerms.item hitem (by simp [htoken])).trans hgroup
      simpa using this
  | .stringLiteral value =>
    rw [TypeNode.tokens] at h
    exact ⟨[], rfl, h.readsTerms_item (by simp [Token.isTerminator]) (by simp) rest⟩
  | .object [] =>
    rw [TypeNode.tokens] at h
    obtain ⟨opener, more, rfl, hopener, hline, h⟩ := h.exists_cons
    obtain ⟨closer, more, rfl, hcloser, _, hmore⟩ := h.exists_cons
    rw [hmore.eq_nil]
    have hopen := continues_of_token hopener hline (by decide)
    refine ⟨_, ?_, .object hopener hopen (.parseMembers_nil hcloser)⟩
    rfl
  | .object (property :: properties) =>
    rw [TypeNode.tokens] at h
    obtain ⟨opener, inner, closer, rfl, hopener, hline, h, hcloser⟩ := h.exists_group
    obtain ⟨front, back, rfl, hfront, hback⟩ := h.exists_append
    have hopen := continues_of_token hopener hline (by decide)
    obtain ⟨ms, hms, hrest⟩ := leaves_propertiesTokens properties hback hcloser opener.span rest
    obtain ⟨m, hm, hread⟩ := leaves_propertyTokens property hfront
      (isTerminator_propertiesTokens properties hback hcloser rest) hrest
    refine ⟨[⟨m :: ms, ⟨opener.span.start, closer.span.stop⟩⟩], ?_, ?_⟩
    . rw [TypeNode.IsMirroredBy, ObjectType.relocateAll, ObjectType.relocate, Member.relocateAll,
        hm, hms]
      rfl
    . have hobject := ReadsTerms.object hopener hopen hread
      simpa using hobject
  | .intersection members =>
    rw [TypeNode.tokens] at h
    exact readsTerms_joinedTokens isJoint_ampersand members h rest
  | .union members =>
    rw [TypeNode.tokens] at h
    exact readsTerms_joinedTokens isJoint_pipe members h rest
  | .parenthesized inner =>
    rw [TypeNode.tokens] at h
    obtain ⟨opener, items, closer, rfl, hopener, hline, h, hcloser⟩ := h.exists_group
    obtain ⟨os, hos, hinner⟩ := readsTerms_tokens inner h (closer :: rest)
    have hopen := continues_of_token hopener hline (by decide)
    refine ⟨os, hos, ?_⟩
    rw [List.cons_append, List.append_assoc]
    exact hinner.group hopener hcloser (by simp) hopen fun _ hitem => hitem.ne_closing

theorem readsTerms_joinedTokens {p : Item → Prop} {separator : Token} (hjoint : IsJoint p separator)
    (nodes : List TypeNode) {used : List Item}
    (h : StandFor (TypeNode.joinedTokens separator nodes) used) (rest : List Item) :
    ∃ os, ObjectType.relocateAll (fun _ => 0) os = TypeNode.objectsOfAll nodes
      ∧ ReadsTerms p rest (used ++ rest) os := by
  match nodes with
  | [] =>
    rw [TypeNode.joinedTokens] at h
    rw [h.eq_nil]
    exact ⟨[], rfl, .nil⟩
  | node :: nodes =>
    rw [TypeNode.joinedTokens] at h
    obtain ⟨front, back, rfl, hfront, hback⟩ := h.exists_append
    obtain ⟨os, hos, hfront⟩ := readsTerms_tokens node hfront (back ++ rest)
    obtain ⟨os', hos', hback⟩ := readsTerms_moreTokens hjoint nodes hback rest
    refine ⟨os ++ os', ?_, ?_⟩
    . rw [ObjectType.relocateAll_append, hos, hos']
      rfl
    . rw [List.append_assoc]
      exact (hfront.mono hjoint.of_continues).trans hback

theorem readsTerms_moreTokens {p : Item → Prop} {separator : Token} (hjoint : IsJoint p separator)
    (nodes : List TypeNode) {used : List Item}
    (h : StandFor (TypeNode.moreTokens separator nodes) used) (rest : List Item) :
    ∃ os, ObjectType.relocateAll (fun _ => 0) os = TypeNode.objectsOfAll nodes
      ∧ ReadsTerms p rest (used ++ rest) os := by
  match nodes with
  | [] =>
    rw [TypeNode.moreTokens] at h
    rw [h.eq_nil]
    exact ⟨[], rfl, .nil⟩
  | node :: nodes =>
    rw [TypeNode.moreTokens] at h
    obtain ⟨item, more, rfl, htoken, hline, h⟩ := h.exists_cons
    obtain ⟨front, back, rfl, hfront, hback⟩ := h.exists_append
    obtain ⟨os, hos, hfront⟩ := readsTerms_tokens node hfront (back ++ rest)
    obtain ⟨os', hos', hback⟩ := readsTerms_moreTokens hjoint nodes hback rest
    refine ⟨os ++ os', ?_, ?_⟩
    . rw [ObjectType.relocateAll_append, hos, hos']
      rfl
    . have hitem : ReadsTerms p (front ++ (back ++ rest)) _ _ :=
        .item (hjoint.of_token item htoken hline) (by simpa [htoken] using hjoint.ne_opening)
      have := hitem.trans ((hfront.mono hjoint.of_continues).trans hback)
      simpa using this

theorem leaves_propertyTokens (property : String × TypeNode) {front : List Item}
    (hfront : StandFor (TypeNode.propertyTokens property) front) {opening close : Span}
    {ms : List Member} {next rest : List Item}
    (hnext : ∀ item ∈ next.head?, item.token.isTerminator = true)
    (hms : ∀ stop, Leaves rest (fun members => members = (ms, close))
      (parseMembers opening (terminator stop next).rest)) :
    ∃ m, Member.relocate (fun _ => 0) m = TypeNode.memberOf property
      ∧ Leaves rest (fun members => members = (m :: ms, close))
        (parseMembers opening (front ++ next)) := by
  match property with
  | (name, type) =>
    rw [TypeNode.propertyTokens] at hfront
    obtain ⟨item, more, rfl, hname, _, h⟩ := hfront.exists_cons
    obtain ⟨colon, more, rfl, hcolon, hline, h⟩ := h.exists_cons
    obtain ⟨os, hos, htype⟩ := readsTerms_tokens type h next
    obtain ⟨span, hread⟩ := Leaves.parseMembers_property hname hcolon hline htype hnext hms
    refine ⟨_, ?_, hread⟩
    rw [Member.relocate, hos]
    rfl

theorem leaves_propertiesTokens (properties : List (String × TypeNode)) {back : List Item}
    {closer : Item} (hback : StandFor (TypeNode.propertiesTokens properties) back)
    (hcloser : closer.token = .closing .brace) (opening : Span) (rest : List Item) :
    ∃ ms, Member.relocateAll (fun _ => 0) ms = TypeNode.membersOf properties
      ∧ ∀ stop, Leaves rest (fun members => members = (ms, closer.span))
        (parseMembers opening (terminator stop (back ++ closer :: rest)).rest) := by
  match properties with
  | [] =>
    rw [TypeNode.propertiesTokens] at hback
    rw [hback.eq_nil, List.nil_append]
    refine ⟨[], rfl, ?_⟩
    intro stop
    rw [terminator_of_head (by simp [Item.isSeparator, hcloser])]
    exact .parseMembers_nil hcloser
  | property :: properties =>
    rw [TypeNode.propertiesTokens] at hback
    obtain ⟨separator, more, rfl, hseparator, hline, h⟩ := hback.exists_cons
    obtain ⟨front, back, rfl, hfront, hback⟩ := h.exists_append
    obtain ⟨ms, hms, hrest⟩ := leaves_propertiesTokens properties hback hcloser opening rest
    obtain ⟨m, hm, hread⟩ := leaves_propertyTokens property hfront
      (isTerminator_propertiesTokens properties hback hcloser rest) hrest
    refine ⟨m :: ms, ?_, ?_⟩
    . rw [Member.relocateAll, hm, hms]
      rfl
    intro stop
    have hskip : (terminator stop (separator :: (front ++ (back ++ closer :: rest)))).rest
        = front ++ (back ++ closer :: rest) := by
      simp [terminator, hseparator, hline, Parsed.leaving, Parsed.loosen]
    rw [List.cons_append, List.append_assoc, hskip]
    exact hread

end

/-!
A type begins and ends with tokens, so that the span of the alias does not miss a part of it.
-/

structure IsTight (cs : List Char) : Prop where
  exists_first : ∃ c ∈ cs.head?, readPiece.isSpacing c = false
  exists_last : ∃ c ∈ cs.getLast?, readPiece.isSpacing c = false

theorem isSpacing_eq_false_of_isIdentifierPart {c : Char} (h : isIdentifierPart c = true) :
    readPiece.isSpacing c = false := by
  have hall : ∀ n ∈ blankCodes, isIdentifierPart (Char.ofNat n) = false := by
    decide +kernel
  rw [Bool.eq_false_iff]
  intro hspacing
  rw [readPiece.isSpacing, Bool.and_eq_true] at hspacing
  have := hall c.toNat (toNat_mem_blankCodes hspacing.1)
  rw [Char.ofNat_toNat, h] at this
  cases this

namespace IsTight

variable {cs ds : List Char}

theorem mark {c : Char} (hc : c ∈ ['\x27', '{', '}', '(', ')', '>']) : IsTight [c] := by
  have hall : ['\x27', '{', '}', '(', ')', '>'].all (!readPiece.isSpacing ·) = true := by
    decide +kernel
  have h : readPiece.isSpacing c = false := by
    simpa using List.all_eq_true.mp hall c hc
  exact ⟨⟨c, rfl, h⟩, ⟨c, rfl, h⟩⟩

theorem append (hcs : IsTight cs) (inner : List Char) (hds : IsTight ds) :
    IsTight (cs ++ inner ++ ds) := by
  obtain ⟨⟨c, hc, hfirst⟩, _⟩ := hcs
  obtain ⟨_, ⟨d, hd, hlast⟩⟩ := hds
  refine ⟨⟨c, ?_, hfirst⟩, ⟨d, ?_, hlast⟩⟩
  . simp only [Option.mem_def] at hc ⊢
    simp [List.head?_append, hc]
  . simp only [Option.mem_def] at hd ⊢
    simp [List.getLast?_append, hd]

theorem of_isName {name : String} (h : IsName name) : IsTight name.toList := by
  obtain ⟨c, cs, hname, _, hc, hcs⟩ := h.exists_chars
  have hpart : ∀ x ∈ c :: cs, isIdentifierPart x = true := by
    rw [List.forall_mem_cons]
    refine ⟨?_, hcs⟩
    simp only [isIdentifierStart, isIdentifierPart, Bool.or_eq_true] at hc ⊢
    rcases hc with (hc | hc) | hc <;> simp [hc]
  rw [hname]
  refine ⟨⟨c, rfl, ?_⟩, ⟨_, List.getLast?_eq_some_getLast (by simp), ?_⟩⟩
  . exact isSpacing_eq_false_of_isIdentifierPart (hpart c (.head _))
  . exact isSpacing_eq_false_of_isIdentifierPart (hpart _ (List.getLast_mem _))

end IsTight

mutual

theorem isTight_render (node : TypeNode) (hwritable : node.IsWritable)
    (hinhabited : node.IsInhabited) : IsTight node.render := by
  match node with
  | .reference name [] =>
    rw [TypeNode.render]
    exact .of_isName hwritable.1
  | .reference name (arg :: args) =>
    rw [TypeNode.render]
    have hclose : IsTight ['>'] := .mark (by simp)
    have := (IsTight.of_isName hwritable.1).append
      ('<' :: (arg.render ++ TypeNode.renderMore ", ".toList args)) hclose
    simpa using this
  | .stringLiteral value =>
    rw [TypeNode.render]
    have hquote : IsTight ['\x27'] := .mark (by simp)
    exact hquote.append _ hquote
  | .object [] =>
    rw [TypeNode.render]
    have hopen : IsTight ['{'] := .mark (by simp)
    have hclose : IsTight ['}'] := .mark (by simp)
    exact hopen.append [] hclose
  | .object (property :: properties) =>
    rw [TypeNode.render]
    have hopen : IsTight ['{'] := .mark (by simp)
    have hclose : IsTight ['}'] := .mark (by simp)
    have := hopen.append (' ' :: (TypeNode.renderProperty property
      ++ (TypeNode.renderProperties properties ++ [' ']))) hclose
    simpa using this
  | .intersection members =>
    rw [TypeNode.render]
    exact isTight_renderJoined " & ".toList members hinhabited.1 hwritable hinhabited.2
  | .union members =>
    rw [TypeNode.render]
    exact isTight_renderJoined " | ".toList members hinhabited.1 hwritable hinhabited.2
  | .parenthesized inner =>
    rw [TypeNode.render]
    have hopen : IsTight ['('] := .mark (by simp)
    have hclose : IsTight [')'] := .mark (by simp)
    exact hopen.append _ hclose

theorem isTight_renderJoined (separator : List Char) (nodes : List TypeNode) (hne : nodes ≠ [])
    (hwritable : TypeNode.AreWritable nodes) (hinhabited : TypeNode.AreInhabited nodes) :
    IsTight (TypeNode.renderJoined separator nodes) := by
  match nodes with
  | [node] =>
    rw [TypeNode.renderJoined, TypeNode.renderMore, List.append_nil]
    exact isTight_render node hwritable.1 hinhabited.1
  | node :: next :: nodes =>
    have hnode := isTight_render node hwritable.1 hinhabited.1
    have hmore := isTight_renderJoined separator (next :: nodes) (by simp) hwritable.2 hinhabited.2
    have := hnode.append separator hmore
    simpa [TypeNode.renderJoined, TypeNode.renderMore] using this

end

section

variable {start : Nat} {cs : List Char} {ls : List Lexeme}

theorem Lexes.isSpacing_of_isTrivia (hls : Lexes start cs ls)
    (htokens : ∀ t ∈ tokensOf ls, t.isTrivia = false) {l : Lexeme} (hl : l ∈ ls)
    (htrivia : l.token.isTrivia = true) :
    l.text ≠ [] ∧ ∀ c ∈ l.text, readPiece.isSpacing c = true := by
  have hspells : Spells l.text l.token := by
    obtain ⟨before, after, rfl⟩ := List.append_of_mem hl
    exact hls.areLaid.split.cons.2.1
  have hwhitespace : l.token = .whitespace := by
    by_contra hne
    have := htokens l.token (List.mem_filter.mpr ⟨List.mem_map_of_mem hl, by simpa using hne⟩)
    rw [htrivia] at this
    cases this
  refine ⟨hspells.ne_nil, ?_⟩
  rw [hwhitespace] at hspells
  exact hspells.eq_whitespace

theorem IsTight.isTrivia_eq_false (hcs : IsTight cs) (hls : Lexes start cs ls)
    (htokens : ∀ t ∈ tokensOf ls, t.isTrivia = false) :
    (∀ l ∈ ls.head?, l.token.isTrivia = false) ∧ ∀ l ∈ ls.getLast?, l.token.isTrivia = false := by
  obtain ⟨⟨c, hc, hfirst⟩, ⟨d, hd, hlast⟩⟩ := hcs
  rw [← hls.textOf_eq, Option.mem_def] at hc hd
  constructor
  . intro l hl
    obtain ⟨rest, rfl⟩ := List.head?_eq_some_iff.mp hl
    rw [Bool.eq_false_iff]
    intro htrivia
    obtain ⟨hne, hall⟩ := hls.isSpacing_of_isTrivia htokens (.head _) htrivia
    obtain ⟨x, xs, hxs⟩ := List.exists_cons_of_ne_nil hne
    rw [textOf_cons, hxs] at hc
    cases hc
    rw [hall c (by simp [hxs])] at hfirst
    cases hfirst
  . intro l hl
    obtain ⟨front, rfl⟩ := List.getLast?_eq_some_iff.mp hl
    rw [Bool.eq_false_iff]
    intro htrivia
    obtain ⟨hne, hall⟩ := hls.isSpacing_of_isTrivia htokens (by simp) htrivia
    have htext : textOf (front ++ [l]) = textOf front ++ l.text := by simp
    rw [htext, List.getLast?_append_of_ne_nil _ hne] at hd
    rw [hall d (List.mem_of_getLast? hd)] at hlast
    cases hlast

theorem IsTight.exists_items (hcs : IsTight cs) (hls : Lexes start cs ls)
    (htokens : ∀ t ∈ tokensOf ls, t.isTrivia = false) (gap : Gap) :
    ∃ first more, itemsFrom gap ls = first :: more ∧ first.span.start = start
      ∧ stopAfter first.span.stop more = start + byteLength cs := by
  obtain ⟨hfirst, hlast⟩ := hcs.isTrivia_eq_false hls htokens
  have hlaid := hls.areLaid
  obtain rfl := hls.textOf_eq
  cases ls with
  | nil =>
    obtain ⟨c, hc, _⟩ := hcs.exists_first
    cases hc
  | cons l ls =>
    obtain ⟨hstart, _, _, hrest⟩ := hlaid.cons
    refine ⟨ofLexeme gap l, itemsFrom .empty ls, itemsFrom_cons_item _ (hfirst l rfl), hstart, ?_⟩
    obtain ⟨used, rest, rfl, _, hstop, hitems⟩ := itemsFrom_eq_append hrest (List.append_nil _).symm
    -- Nothing is left behind the last item, because that would be trivia.
    have hnil : rest = [] := by
      obtain rfl | ⟨front, last, rfl⟩ := List.eq_nil_or_concat' rest
      . rfl
      . have hlists : l :: (used ++ (front ++ [last])) = l :: (used ++ front) ++ [last] := by simp
        rw [hlists, List.getLast?_concat] at hlast
        have htoken := hlast last rfl
        rw [itemsFrom_append, itemsFrom_cons_item _ htoken] at hitems
        simp at hitems
    rw [hnil, List.append_nil] at hstop ⊢
    refine hstop.trans ?_
    simp [Lexeme.stop, hstart, Nat.add_assoc]

end

mutual

theorem isTrivia_tokens (node : TypeNode) : ∀ t ∈ node.tokens, t.isTrivia = false := by
  match node with
  | .reference name [] => simp [TypeNode.tokens, Token.isTrivia]
  | .reference name (arg :: args) =>
    have harg := isTrivia_tokens arg
    have hargs := isTrivia_moreTokens (.sign .comma) rfl args
    simp only [TypeNode.tokens, List.forall_mem_cons, List.forall_mem_append]
    exact ⟨rfl, rfl, ⟨harg, hargs⟩, rfl, by simp⟩
  | .stringLiteral value => simp [TypeNode.tokens, Token.isTrivia]
  | .object [] => simp [TypeNode.tokens, Token.isTrivia]
  | .object (property :: properties) =>
    have hproperty := isTrivia_propertyTokens property
    have hproperties := isTrivia_propertiesTokens properties
    simp only [TypeNode.tokens, List.forall_mem_cons, List.forall_mem_append]
    exact ⟨rfl, ⟨hproperty, hproperties⟩, rfl, by simp⟩
  | .intersection members => exact isTrivia_joinedTokens (.sign .ampersand) rfl members
  | .union members => exact isTrivia_joinedTokens (.sign .pipe) rfl members
  | .parenthesized inner =>
    have hinner := isTrivia_tokens inner
    simp only [TypeNode.tokens, List.forall_mem_cons, List.forall_mem_append]
    exact ⟨rfl, hinner, rfl, by simp⟩

theorem isTrivia_joinedTokens (separator : Token) (hseparator : separator.isTrivia = false)
    (nodes : List TypeNode) :
    ∀ t ∈ TypeNode.joinedTokens separator nodes, t.isTrivia = false := by
  match nodes with
  | [] => simp [TypeNode.joinedTokens]
  | node :: nodes =>
    rw [TypeNode.joinedTokens, List.forall_mem_append]
    exact ⟨isTrivia_tokens node, isTrivia_moreTokens separator hseparator nodes⟩

theorem isTrivia_moreTokens (separator : Token) (hseparator : separator.isTrivia = false)
    (nodes : List TypeNode) :
    ∀ t ∈ TypeNode.moreTokens separator nodes, t.isTrivia = false := by
  match nodes with
  | [] => simp [TypeNode.moreTokens]
  | node :: nodes =>
    rw [TypeNode.moreTokens, List.forall_mem_cons, List.forall_mem_append]
    exact ⟨hseparator, isTrivia_tokens node, isTrivia_moreTokens separator hseparator nodes⟩

theorem isTrivia_propertyTokens (property : String × TypeNode) :
    ∀ t ∈ TypeNode.propertyTokens property, t.isTrivia = false := by
  match property with
  | (name, type) =>
    rw [TypeNode.propertyTokens, List.forall_mem_cons, List.forall_mem_cons]
    exact ⟨rfl, rfl, isTrivia_tokens type⟩

theorem isTrivia_propertiesTokens (properties : List (String × TypeNode)) :
    ∀ t ∈ TypeNode.propertiesTokens properties, t.isTrivia = false := by
  match properties with
  | [] => simp [TypeNode.propertiesTokens]
  | property :: properties =>
    rw [TypeNode.propertiesTokens, List.forall_mem_cons, List.forall_mem_append]
    exact ⟨rfl, isTrivia_propertyTokens property, isTrivia_propertiesTokens properties⟩

end

/-!
The alias around the type.
-/

structure TypeNode.IsReadAs (source : List Char) (x : Identifier) (node : TypeNode)
    (a : TypeAlias) : Prop where
  name : a.name.value = x.name
  params : a.params = []
  slice : a.type.span.slice? source = some node.render
  span : a.type.span = ⟨byteLength (aliasHead x), byteLength source⟩
  objects : node.IsMirroredBy a.type.objects

/--
Whether a type that is written into the alias `x` is read back: token by token, and then as one
alias.
-/
def TypeNode.IsReadBack (x : Identifier) (node : TypeNode) : Prop :=
  let source := aliasHead x ++ node.render
  ∃ ls a, tokenize source = .ok ls
    ∧ (ls.map Lexeme.token).filter (!·.isTrivia)
      = .identifier "type" :: .identifier x.name :: .sign .equals :: node.tokens
    ∧ DeclarationTree.parse source = .ok ⟨[.typeAlias a], ⟨0, byteLength source⟩⟩
    ∧ node.IsReadAs source x a

theorem TypeNode.exists_items {node : TypeNode} (hwritable : node.IsWritable)
    (hinhabited : node.IsInhabited) (start : Nat) (gap : Gap) :
    ∃ ls first more, Lexes start node.render ls ∧ tokensOf ls = node.tokens
      ∧ itemsFrom gap ls = first :: more ∧ first.span.start = start
      ∧ stopAfter first.span.stop more = start + byteLength node.render := by
  have hreads : Reads [] node.render node.tokens := by
    have hends : EndsName ([] ++ []) := rfl
    have := reads_render node hwritable hends .nil
    simpa using this
  obtain ⟨ls, hls, htokens⟩ := lexes_of_reads hreads start
  have htrivia : ∀ t ∈ tokensOf ls, t.isTrivia = false := by
    rw [htokens]
    exact isTrivia_tokens node
  obtain ⟨first, more, hitems, hstart, hstop⟩ :=
    (isTight_render node hwritable hinhabited).exists_items hls htrivia gap
  exact ⟨ls, first, more, hls, htokens, hitems, hstart, hstop⟩

theorem TypeNode.isReadBack (x : Identifier) {node : TypeNode} (hwritable : node.IsWritable)
    (hinhabited : node.IsInhabited) : node.IsReadBack x := by
  let gap : Gap := ⟨false, false, false, none⟩
  obtain ⟨ls, first, more, hls, hwritten, hitems, hstart, hstop⟩ :=
    exists_items hwritable hinhabited (byteLength (aliasHead x)) gap
  have hstand : StandFor node.tokens (first :: more) := by
    have htrivia := isTrivia_tokens node
    rw [← hwritten] at htrivia ⊢
    obtain ⟨htokens, hfirst, hmore⟩ := line_of_itemsFrom_eq_cons htrivia hitems
    exact ⟨htokens, List.forall_mem_cons.mpr ⟨hfirst, hmore⟩⟩
  have hends : Token.whitespace.endsBefore node.render = true := by
    obtain ⟨c, hc, hfirst⟩ := (isTight_render node hwritable hinhabited).exists_first
    rw [Option.mem_def] at hc
    simp [Token.endsBefore, hc, hfirst]
  have hyields : Yields (aliasHead x ++ node.render) ([] ++ aliasHead x) gap node.render
      (first :: more) := ⟨rfl, ls, hls, hitems⟩
  obtain ⟨keyword, name, equals, ⟨_, lexemes, hlexes, hall⟩, hkeyword, hname, hequals⟩ :=
    hyields.aliasHead x hends
  obtain ⟨os, hos, hread⟩ := readsTerms_tokens node hstand []
  rw [List.append_nil] at hread
  have hexpression := hread.leaves_parseExpression .aliasedType
  rw [hstart, hstop, ← byteLength_append] at hexpression
  have hstatements := leaves_parseStatements hkeyword hname hequals hexpression
  rw [← hall] at hstatements
  refine ⟨lexemes, _, tokenize_eq_ok.mpr hlexes, ?_, DeclarationTree.parse_of_leaves hlexes
    hstatements, rfl, rfl, ?_, rfl, hos⟩
  . rw [← map_token_itemsFrom .empty, hall, ← hstand.map_token, ← hkeyword, ← hname, ← hequals]
    rfl
  . have := Span.slice?_append (aliasHead x) node.render []
    rwa [List.append_nil, ← byteLength_append] at this

def ObjectType.ofProperty (name : String) (objects : List ObjectType) : ObjectType :=
  ⟨[⟨.property, some ⟨name, ⟨0, 0⟩⟩, false, objects, ⟨0, 0⟩⟩], ⟨0, 0⟩⟩

namespace Client

theorem isInhabited_payloadArm (params : List String) (subtype : Ident) :
    (payloadArm params subtype).IsInhabited := by
  have hargs : TypeNode.AreInhabited (params.map (TypeNode.reference · [])) := by
    induction params with
    | nil => trivial
    | cons p params ih => exact ⟨trivial, ih⟩
  exact ⟨by simp, hargs, ⟨⟨trivial, trivial⟩, trivial⟩, trivial⟩

theorem isInhabited_payloadUnion {subtypes : List Ident} (h : subtypes ≠ [])
    (params : List String) : (payloadUnion subtypes params).IsInhabited := by
  refine ⟨by simpa using h, ?_⟩
  clear h
  induction subtypes with
  | nil => trivial
  | cons subtype subtypes ih => exact ⟨isInhabited_payloadArm params subtype, ih⟩

theorem objects_payloadArm (params : List String) (subtype : Ident) :
    (payloadArm params subtype).objects
      = [.ofProperty "scalars" [.ofProperty "delegatedType" []]] := by
  have hargs : TypeNode.objectsOfAll (params.map (TypeNode.reference · [])) = [] := by
    induction params with
    | nil => rfl
    | cons p params ih => exact ih
  show TypeNode.objectsOfAll (params.map (TypeNode.reference · [])) ++ _ = _
  rw [hargs]
  rfl

theorem objects_payloadUnion (subtypes : List Ident) (params : List String) :
    (payloadUnion subtypes params).objects
      = subtypes.map fun _ => .ofProperty "scalars" [.ofProperty "delegatedType" []] := by
  show TypeNode.objectsOfAll (subtypes.map (payloadArm params)) = _
  rw [TypeNode.objectsOfAll_eq, List.flatMap_map]
  simp only [objects_payloadArm]
  exact List.map_eq_flatMap.symm

end Client

/--
What is written as the type of an alias is read back as its type: the alias has all of the text for
its type and nothing else, and the object types in it, with their properties, are those that were
written. A payload is read back with one object type for each of its subtypes.
-/
theorem DeclarationTree.parse_writtenType (x : Identifier) :
    (∀ node : TypeNode, node.IsWritable → node.IsInhabited → node.IsReadBack x)
      ∧ ∀ (subtypes : List Ident) (params : List Identifier), subtypes ≠ [] →
        let payload := Client.payloadUnion subtypes (params.map (·.name))
        payload.IsReadBack x ∧ payload.objects
          = subtypes.map fun _ => .ofProperty "scalars" [.ofProperty "delegatedType" []] := by
  refine ⟨fun node => TypeNode.isReadBack x, ?_⟩
  intro subtypes params hne
  have hparams : ∀ p ∈ params.map (·.name), IsName p := by
    rw [List.forall_mem_map]
    exact fun p _ => p.isName
  exact ⟨TypeNode.isReadBack x (Client.isWritable_payloadUnion hparams subtypes)
    (Client.isInhabited_payloadUnion hne _), Client.objects_payloadUnion ..⟩

/--
Words that mean something in front of a member, or in a type, are names like all others in what is
written.
-/
theorem DeclarationTree.parse_writtenType_words :
    let x : Identifier := ⟨"type", isName_type⟩
    let is : TypeNode := .reference "is" []
    let node : TypeNode := .reference "Array" [.parenthesized (.union [.stringLiteral "a\x27b",
      .object [("get", .object []), ("new", .intersection [is, is])]]), is]
    let post : Ident := ⟨"Post", by decide⟩
    let video : Ident := ⟨"Video", by decide⟩
    node.render = "Array<(\x27a\\\x27b\x27 | \x7b get: \x7b\x7d; new: is & is \x7d), is>".toList
      ∧ node.IsReadBack x
      ∧ (Client.payloadUnion [post, video] ["is"]).IsReadBack x := by
  intro x is node post video
  have his : is.IsWritable := ⟨isName_of_check (by decide +kernel), trivial⟩
  have hliteral : ∀ c ∈ "a\x27b".toList, c ≠ '\n' ∧ c ≠ '\r' := by simp
  have hget : IsName "get" := isName_of_check (by decide +kernel)
  have hnew : IsName "new" := isName_of_check (by decide +kernel)
  have hnode : node.IsWritable :=
    ⟨isName_of_check (by decide +kernel),
      ⟨hliteral, ⟨⟨hget, trivial⟩, ⟨hnew, his, his, trivial⟩, trivial⟩, trivial⟩, his, trivial⟩
  have hinhabited : node.IsInhabited :=
    ⟨⟨by simp, trivial, ⟨trivial, ⟨by simp, trivial, trivial, trivial⟩, trivial⟩, trivial⟩, trivial,
      trivial⟩
  refine ⟨by decide +kernel, (parse_writtenType x).1 node hnode hinhabited, ?_⟩
  exact ((parse_writtenType x).2 [post, video] [⟨"is", his.1⟩] (by simp)).1

end Delegation
