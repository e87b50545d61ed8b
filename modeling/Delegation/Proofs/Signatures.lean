import Delegation.Proofs.Grammar.ParsedMember
import Delegation.Proofs.Layout
import Delegation.Proofs.MaximalEdits
import Delegation.Schema.Load

/-!
This module contains how far methods reach. What makes a member a method is the signature behind
its name, on whatever line. The member has it in its span only if it is on the same line.
-/

namespace Delegation

open Item Lexeme

/--
Whether `opener` begins the signature of `m` among `items`: it comes right behind the modifiers, the
name and the mark of the member, which begins with the first of these.
-/
def Member.IsSignedBy (items : List Item) (m : Member) (opener : Item) : Prop :=
  ∃ front mods name mark back, items = front ++ (mods ++ name ++ mark ++ opener :: back)
    ∧ (∀ item ∈ mods, item.CanModify) ∧ IsMemberName name m.name ∧ IsMark mark m.isOptional
    ∧ opener.token.opensSignature = true
    ∧ ∀ first ∈ (mods ++ name).head?, m.span.start = first.lead

theorem Member.IsSignedBy.mono {items more : List Item} {m : Member} {opener : Item}
    (h : m.IsSignedBy items opener) (hmore : items <:+ more) : m.IsSignedBy more opener := by
  obtain ⟨front, mods, name, mark, back, hitems, hall⟩ := h
  obtain ⟨before, rfl⟩ := hmore
  exact ⟨before ++ front, mods, name, mark, back, by rw [hitems, List.append_assoc before], hall⟩

theorem Member.IsSignedBy.opensSignature {items : List Item} {m : Member} {opener : Item}
    (h : m.IsSignedBy items opener) : opener.token.opensSignature = true := by
  obtain ⟨_, _, _, _, _, _, _, _, _, hopens, _⟩ := h
  exact hopens

theorem Token.opensSignature_iff {token : Token} :
    token.opensSignature = true ↔ token = .opening .paren ∨ token = .opening .angle := by
  unfold opensSignature
  split <;> simp_all

theorem startsWith_eq_true {p : Token → Bool} {items : List Item}
    (h : startsWith p items = true) : ∃ item rest, items = item :: rest ∧ p item.token = true := by
  cases items with
  | nil => cases h
  | cons item rest => exact ⟨item, rest, rfl, h⟩

theorem optionalMark_rest_of_opensSignature (stop : Nat) (items : List Item)
    (h : startsWith Token.opensSignature items = true) :
    (optionalMark stop items).rest = items := by
  obtain ⟨item, rest, rfl, hitem⟩ := startsWith_eq_true h
  rcases Token.opensSignature_iff.mp hitem with hitem | hitem
  . simp [optionalMark, hitem, Parsed.leaving]
  . simp [optionalMark, hitem, Parsed.leaving]

theorem endsBefore_of_opensSignature {item : Item} (h : item.token.opensSignature = true) :
    endsBefore .member none item = item.isOnNewLine := by
  rcases Token.opensSignature_iff.mp h with h | h
  . simp [endsBefore, h, Token.isTerminator, Token.continuesBefore, Token.isWordOf]
  . simp [endsBefore, h, Token.isTerminator, Token.continuesBefore, Token.isWordOf]

theorem MemberHead.opensSignature_of_kindBefore {head : MemberHead} {items : List Item}
    (h : head.kindBefore items = .method)
    (hkind : head.kind = .method → startsWith Token.opensSignature items = true) :
    startsWith Token.opensSignature items = true := by
  unfold kindBefore at h
  split at h
  . next hboth =>
    rw [Bool.and_eq_true] at hboth
    exact hboth.2
  . exact hkind h

/--
Where a member ends whose signature begins with `opener`: in front of a line break, or else not
before the signature has begun.
-/
theorem parseRun_opener {stop : Nat} {opener : Item} {back : List Item}
    {p : Parsed Item (List ObjectType × Nat) (back.length + 2)}
    (h : parseRun true .member none stop (opener :: back) = .ok p)
    (hopens : opener.token.opensSignature = true) (horder : InOrder stop (opener :: back)) :
    if opener.isOnNewLine then
      (terminator p.value.2 p.rest).value = stop
    else
      opener.span.stop ≤ (terminator p.value.2 p.rest).value := by
  have hends := endsBefore_of_opensSignature hopens
  cases hline : opener.isOnNewLine with
  | true =>
    rw [hline] at hends
    unfold parseRun at h
    rw [if_pos hends] at h
    cases h
    rcases Token.opensSignature_iff.mp hopens with hopener | hopener
    . simp [terminator, Parsed.leaving, hopener]
    . simp [terminator, Parsed.leaving, hopener]
  | false =>
    obtain ⟨used, hused, _, hstop, hover⟩ := parseRun_eq_ok h
    obtain ⟨separator, hseparator, _, hstop'⟩ := terminator_eq p.value.2 p.rest
    -- The run cannot end in front of the signature, so it has at least its opener.
    cases used with
    | nil =>
      rw [List.nil_append] at hused
      have := hover opener (by simp [← hused])
      rw [lastAfter, hends, hline] at this
      cases this
    | cons first used =>
      rw [List.cons_append, List.cons.injEq] at hused
      obtain ⟨rfl, hback⟩ := hused
      have hbehind := horder.2.2.2
      rw [hback, hseparator, inOrder_append, inOrder_append] at hbehind
      have hle := hbehind.1.le_stopAfter
      have hle' := hbehind.2.1.le_stopAfter
      rw [if_neg (by simp), hstop', hstop, stopAfter]
      exact hle.trans hle'

theorem parseMember_method {item : Item} {rest : List Item}
    {p : Parsed Item Member (rest.length + 1)} (h : parseMember item rest = .ok p)
    (hmethod : p.value.kind = .method) :
    ∃ front opener back run, item :: rest = item :: front ++ opener :: back
      ∧ p.value.IsSignedBy (item :: rest) opener
      ∧ parseRun true .member none (stopAfter item.span.stop front) (opener :: back) = .ok run
      ∧ p.value.span = ⟨item.lead, (terminator run.value.2 run.rest).value⟩ := by
  obtain ⟨mods, hmods, hmodify⟩ := skipMemberModifiers_eq item rest
  unfold parseMember at h
  generalize skipMemberModifiers item rest = skipped at h hmods
  obtain ⟨first, rest₁, h₁⟩ := skipped
  dsimp only at h hmods
  split at h
  . next hsignature =>
    obtain ⟨term, hterm, h⟩ := bind_eq_ok h
    obtain ⟨run, hrun, h⟩ := bind_eq_ok h
    cases h
    obtain ⟨_, _, _, _, hkind⟩ := signatureStart?_eq_some hsignature
    exact absurd hmethod hkind
  . obtain ⟨⟨head, rest₂, h₂⟩, hhead, h⟩ := bind_eq_ok h
    obtain ⟨more, hrest₁, hname, hstop, hkind⟩ := memberHead_eq_ok hhead
    obtain ⟨mark, hrest₂, hmark, hstop'⟩ := optionalMark_eq head.stop rest₂
    have hskip := optionalMark_rest_of_opensSignature head.stop rest₂
    dsimp only at h hrest₁ hname hstop hkind
    generalize optionalMark head.stop rest₂ = marked at h hrest₂ hmark hstop' hskip
    obtain ⟨⟨isOptional, stop⟩, rest₃, h₃⟩ := marked
    dsimp only at h hrest₂ hmark hstop' hskip
    obtain ⟨run, hrun, h⟩ := bind_eq_ok h
    cases h
    have hopens : startsWith Token.opensSignature rest₃ = true := by
      apply MemberHead.opensSignature_of_kindBefore hmethod
      intro hhead
      rw [hskip (hkind hhead)]
      exact hkind hhead
    obtain ⟨opener, back, rfl, hopener⟩ := startsWith_eq_true hopens
    have hitems : item :: rest = (mods ++ first :: more ++ mark) ++ opener :: back := by
      simp [hmods, hrest₁, hrest₂]
    -- The member begins with its first modifier or, if it has none, with its name.
    have hhead : (mods ++ first :: more).head? = some item := by
      cases mods with
      | nil =>
        cases hmods
        rfl
      | cons head mods =>
        cases hmods
        rfl
    obtain ⟨named, hnamed⟩ := List.head?_eq_some_iff.mp hhead
    have hstart : stop = stopAfter item.span.stop (named ++ mark) := by
      have := congrArg (stopAfter 0) hnamed
      simp only [stopAfter_append, stopAfter, ← hstop] at this
      rw [hstop', this, stopAfter_append]
    rw [hstart] at hrun
    refine ⟨named ++ mark, opener, back, run, ?_, ?_, hrun, rfl⟩
    . rw [hitems, hnamed]
      rfl
    . refine ⟨[], mods, first :: more, mark, back, hitems, hmodify, hname, hmark, hopener, ?_⟩
      rw [hhead]
      rintro _ ⟨⟩
      rfl

theorem parseMember_contains_signature {start : Nat} {item : Item} {rest : List Item}
    {p : Parsed Item Member (rest.length + 1)} (h : parseMember item rest = .ok p)
    (hmethod : p.value.kind = .method) (horder : InOrder start (item :: rest)) :
    ∃ opener, p.value.IsSignedBy (item :: rest) opener
      ∧ (p.value.span.contains opener.span = true ↔ opener.isOnNewLine = false) := by
  obtain ⟨front, opener, back, run, hitems, hsigned, hrun, hspan⟩ := parseMember_method h hmethod
  have hopens := hsigned.opensSignature
  rw [hitems, inOrder_append] at horder
  obtain ⟨⟨_, hlead, hitem, hfront⟩, hback⟩ := horder
  have hreach := parseRun_opener hrun hopens hback
  have hle := hfront.le_stopAfter
  obtain ⟨hbehind, hlead', hopener, _⟩ := hback
  rw [stopAfter] at hbehind
  refine ⟨opener, hsigned, ?_⟩
  rw [Span.contains_iff, hspan]
  cases hline : opener.isOnNewLine with
  | true =>
    rw [hline, if_pos rfl] at hreach
    refine ⟨fun hwithin => ?_, by rintro ⟨⟩⟩
    have := hwithin.2
    dsimp only at this
    omega
  | false =>
    rw [hline, if_neg (by simp)] at hreach
    refine ⟨fun _ => rfl, fun _ => ⟨?_, hreach⟩⟩
    dsimp only
    omega

/--
A method of a file has its signature behind its modifiers, its name and its mark, on whatever line,
and has it in its span exactly if no line break stands in front of it.
-/
theorem DeclarationTree.contains_signature {source : List Char} {tree : DeclarationTree}
    (h : parse source = .ok tree) :
    ∃ ls, tokenize source = .ok ls ∧ ∀ m ∈ tree.members, m.kind = .method →
      ∃ opener, m.IsSignedBy (Item.ofLexemes ls) opener
        ∧ (m.span.contains opener.span = true ↔ opener.isOnNewLine = false) := by
  obtain ⟨ls, htokens, h⟩ := bind_eq_ok h
  split at h
  . next tree' htree =>
    cases h
    refine ⟨ls, htokens, ?_⟩
    intro m hm hmethod
    obtain ⟨item, rest, p, hsuffix, hparse, rfl⟩ := isParsedIn_of_mem htree m hm
    obtain ⟨start, horder⟩ := exists_inOrder (tokenize_eq_ok.mp htokens).areLaid hsuffix.isInfix
    obtain ⟨opener, hsigned, hcontains⟩ := parseMember_contains_signature hparse hmethod horder
    exact ⟨opener, hsigned.mono hsuffix, hcontains⟩
  . cases h

theorem DeclarationTree.contains_signature_nextLine :
    let source := "class A \x7b\n  get b?<B>(b: B): B;\n  c\n  (): C\n\x7d".toList
    ∃ tree, parse source = .ok tree
      ∧ ∃ ls, tokenize source = .ok ls ∧ ∀ m ∈ tree.members, m.kind = .method →
        ∃ opener, m.IsSignedBy (Item.ofLexemes ls) opener
          ∧ (m.span.contains opener.span = true ↔ opener.isOnNewLine = false) := by
  intro source
  have hok : (parse source).isOk = true := by decide +kernel
  obtain ⟨tree, h⟩ := exists_of_isOk hok
  exact ⟨tree, h, contains_signature h⟩

/--
A method whose signature is on the next line is taken away without it.
-/
theorem revise_keeps_signature :
    let schema := "model Asset \x7b\n  id Int\n  kind String\n  @@delegate(kind)\n\x7d\n".toList
      ++ "model Video extends Asset \x7b\n  url String\n\x7d\n".toList
    let source := "interface AssetDelegate \x7b\n  create\n  (x: X): Y\n\x7d\n".toList
    let text := "interface AssetDelegate \x7b\n  (x: X): Y\n\x7d\n".toList
    (∃ tree, DeclarationTree.parse source = .ok tree ∧ tree.members.map (·.shownIn source)
        = [(.method, some "create", some "create".toList),
          (.callSignature, none, some "(x: X): Y".toList)])
      ∧ ∃ m, loadSchema .skip schema = .ok (m, [])
        ∧ revise m source = .ok ⟨text, ⟨0, 0, 0, 0, 1⟩⟩ := by
  let m : Model := ⟨[
    ⟨⟨"Asset", by decide⟩, false,
      [⟨⟨"id", by decide⟩, "Int", false, false, []⟩,
        ⟨⟨"kind", by decide⟩, "String", false, false, []⟩],
      [⟨"@@delegate", some "kind"⟩], []⟩,
    ⟨⟨"Video", by decide⟩, false, [⟨⟨"url", by decide⟩, "String", false, false, []⟩], [],
      [⟨"Asset", by decide⟩]⟩]⟩
  intro schema source text
  refine ⟨?_, m, ?_, ?_⟩
  . apply DeclarationTree.exists_parse_of_shownIn
    decide +kernel
  . decide +kernel
  . decide +kernel

end Delegation
