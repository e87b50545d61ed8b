import Delegation.Proofs.Grammar.ParsedMember
import Delegation.Proofs.Grammar.Reading
import Delegation.Proofs.SchemaText
import Delegation.Proofs.Composition
import Delegation.Revision
import Delegation.Schema.Load

/-!
This module contains how properties are read that are written line by line, without separators. A
line whose name is one of the words that link it to the line above is not a member by itself: it is
a part of the member above.
-/

namespace Delegation

open Item Lexeme

/--
A line `name: Type` of an object type, with the line break in front of it.
-/
structure PropertyLine where
  indent : List Char
  name : Identifier
  typeName : Identifier
  isSpacing : ∀ c ∈ indent, readPiece.isSpacing c = true
  isWhole : typeName.name ∉ openWords

namespace PropertyLine

def isLinked (l : PropertyLine) : Bool :=
  linkWords.contains l.name.name

def text (l : PropertyLine) : List Char :=
  l.name.name.toList ++ ':' :: ' ' :: l.typeName.name.toList

def render (l : PropertyLine) : List Char :=
  '\n' :: (l.indent ++ l.text)

def renderAll (ls : List PropertyLine) : List Char :=
  ls.flatMap render

@[simp]
theorem renderAll_nil : renderAll [] = [] := rfl

@[simp]
theorem renderAll_cons (l : PropertyLine) (ls : List PropertyLine) :
    renderAll (l :: ls) = l.render ++ renderAll ls := rfl

def start (above : Nat) (l : PropertyLine) : Nat :=
  above + byteLength ('\n' :: l.indent)

def items (start : Nat) (l : PropertyLine) : List Item :=
  let colon := start + byteLength l.name.name.toList
  let type := colon + 2
  [⟨.identifier l.name.name, ⟨start, colon⟩, start, true, false⟩,
    ⟨.sign .colon, ⟨colon, colon + 1⟩, colon, false, true⟩,
    ⟨.identifier l.typeName.name, ⟨type, type + byteLength l.typeName.name.toList⟩, type, false,
      false⟩]

def itemsBelow (above : Nat) : List PropertyLine → List Item
  | [] => []
  | l :: ls => l.items (l.start above) ++ itemsBelow (above + byteLength l.render) ls

end PropertyLine

/--
A line of an object type with the lines below that are linked to it.
-/
structure Paragraph where
  first : PropertyLine
  more : List PropertyLine

namespace Paragraph

def text (p : Paragraph) : List Char :=
  p.first.text ++ PropertyLine.renderAll p.more

def member (start : Nat) (p : Paragraph) : Member where
  kind := .property
  name := some ⟨p.first.name.name, ⟨start, start + byteLength p.first.name.name.toList⟩⟩
  isOptional := false
  objects := []
  span := ⟨start, start + byteLength p.text⟩

def ofLines : List PropertyLine → List Paragraph
  | [] => []
  | l :: ls =>
    ⟨l, ls.takeWhile PropertyLine.isLinked⟩ :: ofLines (ls.dropWhile PropertyLine.isLinked)
termination_by ls => ls.length
decreasing_by
  have := (List.dropWhile_sublist (l := ls) PropertyLine.isLinked).length_le
  simp only [List.length_cons]
  omega

def membersBelow (above : Nat) : List Paragraph → List Member
  | [] => []
  | p :: ps =>
    p.member (p.first.start above)
      :: membersBelow (above + byteLength (PropertyLine.renderAll (p.first :: p.more))) ps

theorem length_ofLines_le (ls : List PropertyLine) : (ofLines ls).length ≤ ls.length := by
  fun_induction ofLines ls with
  | case1 => exact Nat.le_refl _
  | case2 l ls ih =>
    have := (List.dropWhile_sublist (l := ls) PropertyLine.isLinked).length_le
    simp only [List.length_cons]
    omega

theorem length_ofLines_eq_iff (ls : List PropertyLine) :
    (ofLines ls).length = ls.length ↔ ∀ l ∈ ls.tail, l.isLinked = false := by
  fun_induction ofLines ls with
  | case1 => simp
  | case2 l ls ih =>
    rw [List.length_cons, List.length_cons, Nat.add_right_cancel_iff, List.tail_cons]
    cases ls with
    | nil => simp [ofLines]
    | cons next ls =>
      cases hnext : next.isLinked with
      | true =>
        -- There are fewer paragraphs than lines below the one that is linked.
        have hle := length_ofLines_le (ls.dropWhile PropertyLine.isLinked)
        have hle' := (List.dropWhile_sublist (l := ls) PropertyLine.isLinked).length_le
        rw [List.dropWhile_cons_of_pos hnext, List.length_cons]
        simp only [List.forall_mem_cons, hnext]
        constructor
        . intro h
          omega
        . rintro ⟨⟨⟩, _⟩
      | false =>
        rw [List.dropWhile_cons_of_neg (by simp [hnext])] at ih ⊢
        rw [ih, List.tail_cons, List.forall_mem_cons]
        simp [hnext]

theorem ofLines_eq_map {ls : List PropertyLine} (h : ∀ l ∈ ls.tail, l.isLinked = false) :
    ofLines ls = ls.map (⟨·, []⟩) := by
  induction ls with
  | nil => rw [ofLines, List.map_nil]
  | cons l ls ih =>
    cases ls with
    | nil => simp [ofLines]
    | cons next ls =>
      rw [List.tail_cons, List.forall_mem_cons] at h
      rw [ofLines, List.takeWhile_cons_of_neg (by simp [h.1]),
        List.dropWhile_cons_of_neg (by simp [h.1]), ih h.2]
      rfl

theorem map_shownIn_membersBelow (ls : List PropertyLine) (front back : List Char) :
    (membersBelow (byteLength front) (ofLines ls)).map
        (·.shownIn (front ++ (PropertyLine.renderAll ls ++ back)))
      = (ofLines ls).map fun p => (.property, some p.first.name.name, some p.text) := by
  fun_induction ofLines ls generalizing front with
  | case1 => rfl
  | case2 l ls ih =>
    have hlines : PropertyLine.renderAll (l :: ls)
        = PropertyLine.renderAll (l :: ls.takeWhile PropertyLine.isLinked)
          ++ PropertyLine.renderAll (ls.dropWhile PropertyLine.isLinked) := by
      rw [PropertyLine.renderAll, PropertyLine.renderAll, PropertyLine.renderAll,
        ← List.flatMap_append, List.cons_append, List.takeWhile_append_dropWhile]
    rw [hlines]
    generalize ls.takeWhile PropertyLine.isLinked = more
    generalize ls.dropWhile PropertyLine.isLinked = below at ih
    have hfirst : PropertyLine.renderAll (l :: more)
        = ('\n' :: l.indent) ++ (Paragraph.mk l more).text := by
      simp [text, PropertyLine.render]
    have hslice := Span.slice?_append (front ++ '\n' :: l.indent) (Paragraph.mk l more).text
      (PropertyLine.renderAll below ++ back)
    have hbelow := ih (front ++ PropertyLine.renderAll (l :: more))
    rw [byteLength_append] at hslice hbelow
    rw [membersBelow, List.map_cons, List.map_cons]
    dsimp only
    simp only [hfirst, List.append_assoc] at hslice hbelow ⊢
    rw [hbelow]
    exact congrArg (· :: _) (congrArg (_, _, ·) hslice)

end Paragraph

/-!
The items of the text.
-/

section

variable {source front rest : List Char} {items : List Item}

theorem Yields.indentation {gap : Gap} {cs : List Char}
    (h : Yields source (front ++ cs) gap rest items)
    (hcs : ∀ c ∈ cs, readPiece.isSpacing c = true) (hends : Token.whitespace.endsBefore rest = true)
    (hgap : gap.isNarrow = false) : Yields source front gap (cs ++ rest) items := by
  cases cs with
  | nil => rwa [List.append_nil] at h
  | cons c cs =>
    rw [List.forall_mem_cons] at hcs
    have hpush : gap.push ⟨byteLength front, .whitespace, c :: cs⟩ = gap := by
      rw [gap.push_whitespace rfl, ← hgap]
    rw [← hpush] at h
    exact h.trivia (.whitespace hcs.1 hcs.2) hends rfl

theorem Yields.propertyLine (l : PropertyLine)
    (h : Yields source (front ++ l.render) .empty rest items) (hends : EndsName rest) :
    Yields source front .empty (l.render ++ rest)
      (l.items (l.start (byteLength front)) ++ items) := by
  have hfront : front ++ l.render = front ++ ['\n'] ++ l.indent ++ l.name.name.toList ++ [':']
      ++ [' '] ++ l.typeName.name.toList := by
    simp [PropertyLine.render, PropertyLine.text]
  have htext : l.render ++ rest = '\n' :: (l.indent ++ (l.name.name.toList
      ++ ':' :: ' ' :: (l.typeName.name.toList ++ rest))) := by
    simp [PropertyLine.render, PropertyLine.text]
  rw [hfront] at h
  have hblank : Yields source _ .empty (' ' :: (l.typeName.name.toList ++ rest)) _ :=
    (h.name l.typeName.isName hends).blank (l.typeName.isName.endsBefore _ (by simp))
  have hcolon : Yields source _ .empty (':' :: ' ' :: (l.typeName.name.toList ++ rest)) _ :=
    hblank.char rfl rfl rfl
  have hname : Yields source _ ⟨false, true, true, none⟩ _ _ :=
    hcolon.name l.name.isName (endsName_cons _ (by decide))
  have hindent := hname.indentation l.isSpacing (l.name.isName.endsBefore _ (by simp)) rfl
  have hline : Yields source front .empty _ _ := hindent.newline
  rw [htext]
  convert hline using 1
  have hbytes : (':').utf8Size = 1 ∧ (' ').utf8Size = 1 := ⟨rfl, rfl⟩
  simp [PropertyLine.items, PropertyLine.start, ofLexeme, Lexeme.span, Lexeme.stop, Gap.empty,
    Gap.push, hbytes, Nat.add_assoc]

theorem Yields.propertyLines (ls : List PropertyLine)
    (h : Yields source (front ++ PropertyLine.renderAll ls) .empty ('\n' :: rest) items) :
    Yields source front .empty (PropertyLine.renderAll ls ++ '\n' :: rest)
      (PropertyLine.itemsBelow (byteLength front) ls ++ items) := by
  induction ls generalizing front with
  | nil =>
    rw [PropertyLine.renderAll_nil, List.append_nil] at h
    exact h
  | cons l ls ih =>
    rw [PropertyLine.renderAll_cons, ← List.append_assoc] at h
    have hbelow := ih h
    rw [byteLength_append] at hbelow
    rw [PropertyLine.renderAll_cons, PropertyLine.itemsBelow, List.append_assoc, List.append_assoc]
    apply hbelow.propertyLine
    cases ls with
    | nil => exact endsName_cons _ (by decide)
    | cons => exact endsName_cons _ (by decide)

end

/-!
The parsers on these items.
-/

namespace PropertyLine

theorem byteLength_text (l : PropertyLine) : byteLength l.text
    = byteLength l.name.name.toList + 2 + byteLength l.typeName.name.toList := by
  have hcolon : (':').utf8Size = 1 := rfl
  have hblank : (' ').utf8Size = 1 := rfl
  rw [text, byteLength_append, byteLength_cons, byteLength_cons, hcolon, hblank]
  omega

theorem start_add_text (l : PropertyLine) (above : Nat) :
    l.start above + byteLength l.text = above + byteLength l.render := by
  simp only [start, render, byteLength_cons, byteLength_append]
  omega

theorem not_continuesAfter (l : PropertyLine) :
    Token.continuesAfter (.identifier l.typeName.name) = false := by
  simp [Token.continuesAfter, Token.isWordOf, l.isWhole]

theorem continuesBefore_name (l : PropertyLine) :
    Token.continuesBefore (.identifier l.name.name) = l.isLinked := rfl

theorem leaves_parseRun_tail (l : PropertyLine) {start stop : Nat} {last : Option Token}
    {items rest : List Item} {P : List ObjectType × Nat → Prop}
    (h : Leaves rest P (parseRun true .member (some (.identifier l.typeName.name))
      (start + byteLength l.text) items)) :
    Leaves rest P (parseRun true .member last stop ((l.items start).tail ++ items)) := by
  apply Leaves.parseRun_cons (by simp) (by simp [endsBefore, Token.isTerminator])
  apply Leaves.parseRun_cons (by simp) (by simp [endsBefore, Token.isTerminator])
  rw [byteLength_text, ← Nat.add_assoc, ← Nat.add_assoc] at h
  exact h

/--
A run goes on through the lines that are linked to it, up to one that is not.
-/
theorem leaves_parseRun (ls : List PropertyLine) (above : Nat) {last : Token} {closer : Item}
    {rest : List Item} (hlast : last.continuesAfter = false)
    (hcloser : closer.token = .closing .brace) :
    let stop := above + byteLength (renderAll (ls.takeWhile isLinked))
    Leaves (itemsBelow stop (ls.dropWhile isLinked) ++ closer :: rest) (fun run => run = ([], stop))
      (parseRun true .member (some last) above (itemsBelow above ls ++ closer :: rest)) := by
  induction ls generalizing above last with
  | nil =>
    exact Leaves.parseRun_nil (by simp [endsBefore, hcloser, Token.isTerminator])
  | cons l ls ih =>
    cases hlinked : l.isLinked with
    | true =>
      rw [List.takeWhile_cons_of_pos hlinked, List.dropWhile_cons_of_pos hlinked, renderAll_cons,
        byteLength_append, ← Nat.add_assoc, itemsBelow, List.append_assoc]
      -- The name is read with the run above, and then nothing on its line ends it.
      apply Leaves.parseRun_cons (by simp)
      . simp [endsBefore, Token.isTerminator, l.continuesBefore_name, hlinked]
      apply l.leaves_parseRun_tail
      rw [start_add_text]
      exact ih _ l.not_continuesAfter
    | false =>
      rw [List.takeWhile_cons_of_neg (by simp [hlinked]),
        List.dropWhile_cons_of_neg (by simp [hlinked])]
      apply Leaves.parseRun_nil
      simp [endsBefore, hlast, l.continuesBefore_name, hlinked]

theorem isSeparator_head_itemsBelow (ls : List PropertyLine) {above : Nat} {closer : Item}
    {rest : List Item} (hcloser : closer.token = .closing .brace) :
    ∀ item ∈ (itemsBelow above ls ++ closer :: rest).head?, ¬ item.isSeparator := by
  intro item hitem
  cases ls with
  | nil =>
    cases hitem
    simp [Item.isSeparator, hcloser]
  | cons l ls =>
    cases hitem
    simp [Item.isSeparator]

theorem leaves_parseMember (l : PropertyLine) (ls : List PropertyLine) {above : Nat} {closer : Item}
    {rest : List Item} (hcloser : closer.token = .closing .brace) {name : Item} {items : List Item}
    (hitems : name :: items
      = l.items (l.start above)
        ++ (itemsBelow (above + byteLength l.render) ls ++ closer :: rest)) :
    Leaves (itemsBelow (above + byteLength (renderAll (l :: ls.takeWhile isLinked)))
        (ls.dropWhile isLinked) ++ closer :: rest)
      (fun m => m = (Paragraph.mk l (ls.takeWhile isLinked)).member (l.start above))
      (parseMember name items) := by
  have hrun : Leaves (_ ++ closer :: rest) _ _ := leaves_parseRun ls (above + byteLength l.render)
    l.not_continuesAfter hcloser
  rw [← l.start_add_text] at hrun
  have hstop : l.start above + byteLength l.text + byteLength (renderAll (ls.takeWhile isLinked))
      = l.start above + byteLength (Paragraph.mk l (ls.takeWhile isLinked)).text := by
    rw [Paragraph.text, byteLength_append, Nat.add_assoc]
  have hbelow : above + byteLength (renderAll (l :: ls.takeWhile isLinked))
      = l.start above + byteLength (Paragraph.mk l (ls.takeWhile isLinked)).text := by
    rw [renderAll_cons, byteLength_append, ← Nat.add_assoc, ← l.start_add_text, hstop]
  rw [hstop] at hrun
  rw [← l.start_add_text] at hitems
  rw [hbelow]
  cases hitems
  exact Leaves.parseMember_unseparated rfl rfl (l.leaves_parseRun_tail hrun)
    (isSeparator_head_itemsBelow _ hcloser)

theorem leaves_parseMembers (ls : List PropertyLine) (above : Nat) {opening : Span} {closer : Item}
    {rest : List Item} (hcloser : closer.token = .closing .brace) :
    Leaves rest (fun members => members
        = (Paragraph.membersBelow above (Paragraph.ofLines ls), closer.span))
      (parseMembers opening (itemsBelow above ls ++ closer :: rest)) := by
  fun_induction Paragraph.ofLines ls generalizing above with
  | case1 =>
    rw [itemsBelow, List.nil_append]
    exact Leaves.parseMembers_nil hcloser
  | case2 l ls ih =>
    rw [itemsBelow, List.append_assoc]
    obtain ⟨name, items, hitems, hname⟩ : ∃ name items, name :: items
        = l.items (l.start above) ++ (itemsBelow (above + byteLength l.render) ls ++ closer :: rest)
          ∧ name.token = .identifier l.name.name := ⟨_, _, rfl, rfl⟩
    have hmember := l.leaves_parseMember ls hcloser hitems
    rw [← hitems]
    unfold parseMembers
    simp only [hname]
    apply hmember.bind
    rintro _ hlt rfl
    apply (ih _).bind
    rintro _ hlt' rfl
    exact ⟨_, _, rfl, rfl⟩

end PropertyLine

/-!
The declaration around the lines.
-/

theorem leaves_parseExpression {opener : Item} {inner : List Item} {ms : List Member} {close : Span}
    (hopener : opener.token = .opening .brace)
    (h : Leaves [] (fun members => members = (ms, close)) (parseMembers opener.span inner)) :
    Leaves [] (fun type => type = ⟨[⟨ms, ⟨opener.span.start, close.stop⟩⟩],
        ⟨opener.span.start, close.stop⟩⟩)
      (parseExpression true .aliasedType (opener :: inner)) := by
  have hrun : Leaves [] (fun run => run = ([], close.stop))
      (parseRun true .statement (some (.closing .brace)) close.stop []) := by
    unfold parseRun
    exact .leaving rfl
  unfold parseExpression
  dsimp only
  rw [if_neg (by simp [hopener, Token.isTerminator])]
  apply (Leaves.parseTerm_object hopener h).bind
  rintro _ hlt rfl
  apply (Leaves.andMaybe hrun).bind
  rintro _ hlt rfl
  exact ⟨_, _, rfl, rfl⟩

def aliasOpening (x : Identifier) : List Char :=
  "type".toList ++ ' ' :: (x.name.toList ++ [' ', '=', ' ', '{'])

def aliasText (x : Identifier) (ls : List PropertyLine) : List Char :=
  aliasOpening x ++ (PropertyLine.renderAll ls ++ ['\n', '}'])

theorem Yields.aliasOpening (x : Identifier) {source front rest : List Char} {items : List Item}
    (h : Yields source (front ++ aliasOpening x) .empty rest items) :
    ∃ type name equals opener, Yields source front .empty (Delegation.aliasOpening x ++ rest)
        (type :: name :: equals :: opener :: items)
      ∧ type.token = .identifier "type" ∧ name.token = .identifier x.name
      ∧ equals.token = .sign .equals ∧ opener.token = .opening .brace := by
  have htext : Delegation.aliasOpening x = Delegation.aliasHead x ++ ['{'] := by
    simp [Delegation.aliasOpening, Delegation.aliasHead]
  rw [htext, ← List.append_assoc] at h
  rw [htext, List.append_assoc]
  have hopener : Yields source _ ⟨false, false, false, none⟩ ('{' :: rest) _ := h.char rfl rfl rfl
  obtain ⟨type, name, equals, hhead, htype, hname, hequals⟩ := hopener.aliasHead x rfl
  exact ⟨type, name, equals, _, hhead, htype, hname, hequals, rfl⟩

theorem exists_items_aliasText (x : Identifier) (ls : List PropertyLine) :
    ∃ type name equals opener closer lexemes, Lexes 0 (aliasText x ls) lexemes
      ∧ itemsFrom .empty lexemes = type :: name :: equals :: opener
        :: (PropertyLine.itemsBelow (byteLength (aliasOpening x)) ls ++ [closer])
      ∧ type.token = .identifier "type" ∧ name.token = .identifier x.name
      ∧ equals.token = .sign .equals ∧ opener.token = .opening .brace
      ∧ closer.token = .closing .brace := by
  have hend : Yields (aliasText x ls)
      (aliasOpening x ++ PropertyLine.renderAll ls ++ ['\n'] ++ ['}']) .empty [] [] := by
    have : aliasOpening x ++ PropertyLine.renderAll ls ++ ['\n'] ++ ['}'] = aliasText x ls := by
      simp [aliasText]
    rw [this]
    exact .nil _ _
  obtain ⟨closer, hcloser, hclosing⟩ : ∃ closer, Yields (aliasText x ls)
      (aliasOpening x ++ PropertyLine.renderAll ls) .empty ['\n', '}'] [closer]
      ∧ closer.token = .closing .brace := ⟨_, (hend.char rfl rfl rfl).newline, rfl⟩
  have hlines := Yields.propertyLines ls hcloser
  rw [← List.nil_append (aliasOpening x)] at hlines
  obtain ⟨type, name, equals, opener, ⟨_, lexemes, hlexes, hitems⟩, htokens⟩ :=
    hlines.aliasOpening
  rw [List.nil_append] at hitems
  obtain ⟨htype, hname, hequals, hopener⟩ := htokens
  exact ⟨type, name, equals, opener, closer, lexemes, hlexes, hitems, htype, hname, hequals,
    hopener, hclosing⟩

/--
An object type that is written line by line has a property for every paragraph, and these are where
they are written. There is one for every line, with its name and its text, exactly if no line but
the first has a name that links it to the line above.
-/
theorem DeclarationTree.parse_aliasText (x : Identifier) (ls : List PropertyLine) :
    let source := aliasText x ls
    ∃ a o, parse source = .ok ⟨[.typeAlias a], ⟨0, byteLength source⟩⟩
      ∧ a.name.value = x.name ∧ a.params = [] ∧ a.type.objects = [o]
      ∧ o.members = Paragraph.membersBelow (byteLength (aliasOpening x)) (Paragraph.ofLines ls)
      ∧ o.members.map (·.shownIn source)
        = (Paragraph.ofLines ls).map (fun p => (.property, some p.first.name.name, some p.text))
      ∧ (o.members.map (·.shownIn source)
          = ls.map (fun l => (.property, some l.name.name, some l.text))
        ↔ ∀ l ∈ ls.tail, l.isLinked = false) := by
  intro source
  obtain ⟨type, name, equals, opener, closer, lexemes, hlexes, hitems, htype, hname, hequals, hopener,
    hclosing⟩ := exists_items_aliasText x ls
  let o : ObjectType :=
    ⟨Paragraph.membersBelow (byteLength (aliasOpening x)) (Paragraph.ofLines ls),
    ⟨opener.span.start, closer.span.stop⟩⟩
  have hstatements := leaves_parseStatements htype hname hequals (leaves_parseExpression hopener
    (PropertyLine.leaves_parseMembers ls (byteLength (aliasOpening x)) hclosing))
  rw [← hitems] at hstatements
  have hshown : o.members.map (·.shownIn source) = _ :=
    Paragraph.map_shownIn_membersBelow ls (aliasOpening x) ['\n', '}']
  refine ⟨_, o, parse_of_leaves hlexes hstatements, rfl, rfl, rfl, rfl, hshown, ?_⟩
  rw [hshown]
  constructor
  . intro h
    apply (Paragraph.length_ofLines_eq_iff ls).mp
    simpa using congrArg List.length h
  . intro h
    rw [Paragraph.ofLines_eq_map h, List.map_map]
    simp [Paragraph.text]

/--
A line with the name `is` is read as part of the property above it, and the line below is not.
-/
theorem DeclarationTree.parse_aliasText_linked :
    let source := "type X = \x7b\n  id: string\n  is: boolean\n  as_of: Date\n\x7d".toList
    ∃ a o, parse source = .ok ⟨[.typeAlias a], ⟨0, byteLength source⟩⟩ ∧ a.type.objects = [o]
      ∧ o.members.map (·.shownIn source)
        = [(.property, some "id", some "id: string\n  is: boolean".toList),
          (.property, some "as_of", some "as_of: Date".toList)] := by
  intro source
  let x : Identifier := ⟨"X", isName_of_check (by decide +kernel)⟩
  let line (name type : Identifier) (h : type.name ∉ openWords) : PropertyLine :=
    ⟨[' ', ' '], name, type, by simp [readPiece.isSpacing, isBlank], h⟩
  let ls : List PropertyLine :=
    [line ⟨"id", isName_of_check (by decide +kernel)⟩
        ⟨"string", isName_of_check (by decide +kernel)⟩ (by decide),
      line ⟨"is", isName_of_check (by decide +kernel)⟩
        ⟨"boolean", isName_of_check (by decide +kernel)⟩ (by decide),
      line ⟨"as_of", isName_of_check (by decide +kernel)⟩
        ⟨"Date", isName_of_check (by decide +kernel)⟩ (by decide)]
  have hsource : aliasText x ls = source := by
    decide +kernel
  obtain ⟨a, o, hparse, _, _, hobjects, _, hshown, _⟩ := DeclarationTree.parse_aliasText x ls
  rw [hsource] at hparse hshown
  have hlines : Paragraph.ofLines ls = [⟨ls[0], [ls[1]]⟩, ⟨ls[2], []⟩] := by
    simp [Paragraph.ofLines, PropertyLine.isLinked, linkWords, ls, line]
  rw [hlines] at hshown
  exact ⟨a, o, hparse, hobjects, hshown.trans (by decide +kernel)⟩

/--
A line goes away with the one above if its name links it to that.
-/
theorem revise_takes_linked_line :
    let schema := "model Asset \x7b\n  id Int\n\x7d\n".toList
    let source := "type X = \x7b\n  poly_aux_x: string\n  is: boolean\n\x7d".toList
    (∃ tree, DeclarationTree.parse source = .ok tree ∧ tree.members.map (·.shownIn source)
        = [(.property, some "poly_aux_x", some "poly_aux_x: string\n  is: boolean".toList)])
      ∧ ∃ m, loadSchema .skip schema = .ok (m, [])
        ∧ revise m source = .ok ⟨"type X = \x7b\n\x7d".toList, ⟨0, 0, 1, 0, 0⟩⟩ := by
  let m : Model :=
    ⟨[⟨⟨"Asset", by decide⟩, false, [⟨⟨"id", by decide⟩, "Int", false, false, []⟩], [], []⟩]⟩
  intro schema source
  refine ⟨?_, m, ?_, ?_⟩
  . apply DeclarationTree.exists_parse_of_shownIn
    decide +kernel
  . decide +kernel
  . decide +kernel

end Delegation
