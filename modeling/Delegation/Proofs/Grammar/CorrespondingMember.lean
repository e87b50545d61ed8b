import Delegation.Proofs.Grammar.Correspondence

/-!
This module contains what is read of type expressions and members that correspond to each other: the
same object types and members, or the same failure.
-/

namespace Delegation

open Item

namespace Correspondence

variable {c : Correspondence} {items others : List Item}

/-!
Members in front of their types.
-/

theorem isMemberModifier_eq {item item' next next' : Item} (hitem : c.Relates item item')
    (hnext : c.Relates next next') : isMemberModifier item' next' = isMemberModifier item next := by
  have hstart := (c.resembles hnext).congr Token.startsMemberName fun _ _ => rfl
  unfold isMemberModifier
  rw [isWord_eq hnext, hstart]
  rcases c.resembles hitem with htoken | ⟨x, y, hx, hy⟩
  . rw [htoken]
  . rw [hx, hy]
    rfl

theorem skipMemberModifiers_twins {item item' : Item} {rest rest' : List Item}
    (hitem : c.Relates item item') (h : c.Twins rest rest') :
    let p := skipMemberModifiers item rest
    let q := skipMemberModifiers item' rest'
    c.Relates p.value q.value ∧ c.Twins p.rest q.rest := by
  induction rest generalizing item item' rest' with
  | nil =>
    have hnil := h.eq_nil
    subst hnil
    exact ⟨hitem, h⟩
  | cons next rest ih =>
    obtain ⟨next', rest', rfl, hnext, _, htail⟩ := h.exists_cons
    rw [skipMemberModifiers, skipMemberModifiers, isMemberModifier_eq hitem hnext.relates]
    split
    . next hskip =>
      refine ih hnext.relates (htail ?_)
      intro heq
      unfold isMemberModifier at hskip
      rw [heq] at hskip
      split at hskip
      . cases hskip
      . cases hskip
      . rw [Bool.and_eq_true] at hskip
        cases hskip.2
    . exact ⟨hitem, h⟩

theorem signatureStart?_twins {item item' : Item} {rest rest' : List Item}
    (hitem : c.Relates item item') (h : c.Twins rest rest') :
    match signatureStart? item rest with
    | some (kind, p) => ∃ q, signatureStart? item' rest' = some (kind, q)
      ∧ c.Relates p.value q.value ∧ c.Twins p.rest q.rest
    | none => signatureStart? item' rest' = none := by
  have hopens {a b : Item} (hab : c.Relates a b) :=
    (c.resembles hab).congr Token.opensSignature fun _ _ => rfl
  unfold signatureStart?
  rw [hopens hitem]
  cases item.token.opensSignature with
  | true => exact ⟨_, rfl, hitem, h⟩
  | false =>
    cases rest with
    | nil =>
      have hnil := h.eq_nil
      subst hnil
      rfl
    | cons next rest =>
      obtain ⟨next', rest', rfl, hnext, _, htail⟩ := h.exists_cons
      simp only [isWord_eq hitem, hopens hnext.relates]
      cases hnew : item.token.isWord "new" && next.token.opensSignature with
      | true =>
        rw [Bool.and_eq_true] at hnew
        refine ⟨_, rfl, hnext.relates, htail ?_⟩
        intro heq
        rw [heq] at hnew
        cases hnew.2
      | false => rfl

structure SameHead (c : Correspondence) (p q : MemberHead) : Prop where
  kind_eq : q.kind = p.kind
  name : c.Alike (fun f => Option.map (Located.relocate f)) p.name q.name
  stop : c.there q.stop = c.here p.stop

theorem memberHead_agrees {item item' : Item} {rest rest' : List Item}
    (hitem : c.Relates item item') (h : c.Twins rest rest') :
    c.Agrees c.SameHead c.Twins (memberHead item rest) (memberHead item' rest') := by
  have hname (name : String) : c.SameHead ⟨.property, some ⟨name, item.span⟩, item.span.stop⟩
      ⟨.property, some ⟨name, item'.span⟩, item'.span.stop⟩ := by
    refine ⟨rfl, ?_, stop_eq hitem⟩
    simp only [Alike, Option.map_some, Located.relocate, c.span_eq hitem]
  unfold memberHead
  split
  case h_4 hhash =>
    simp only [token_eq hitem hhash (by simp)]
    refine (parseName_agrees .privateMemberName h.behind).bind fun _ _ hname hrest => ?_
    refine .ok ⟨rfl, ?_, ?_⟩ hrest
    all_goals
      simp only [Alike, Located.relocate, Located.mk.injEq, Span.relocate, Span.mk.injEq] at hname
      simp [Alike, Parsed.map, Parsed.loosen, Located.relocate, Span.relocate, start_eq hitem, hname]
  case h_5 hbracket =>
    simp only [token_eq hitem hbracket (by simp)]
    have hskip := skipGroup_agrees h.behind (sameOpening hitem .bracket) .nil
    refine hskip.bind fun _ _ hclose hrest => .ok ⟨?_, rfl, stop_eq hclose⟩ hrest
    simp only [Parsed.map, Parsed.loosen, hrest.startsWith_eq Token.opensSignature fun _ _ => rfl]
  case h_6 hidentifier hstring hnumber hhash hbracket =>
    split
    case h_6 => exact .failure (.expected _) hitem
    case h_1 name hd => exact absurd hd (token_ne hitem (hidentifier name) (by simp))
    case h_2 name hd => exact absurd hd (token_ne hitem (hstring name) (by simp))
    case h_3 name hd => exact absurd hd (token_ne hitem (hnumber name) (by simp))
    case h_4 hd => exact absurd hd (token_ne hitem hhash (by simp))
    case h_5 hd => exact absurd hd (token_ne hitem hbracket (by simp))
  all_goals
    next hd =>
    simp only [token_eq hitem hd (by simp)]
    exact .ok (hname _) h

theorem optionalMark_twins {stop stop' : Nat} (hstop : c.there stop' = c.here stop)
    (h : c.Twins items others) :
    let p := optionalMark stop items
    let q := optionalMark stop' others
    q.value.1 = p.value.1 ∧ c.there q.value.2 = c.here p.value.2 ∧ c.Twins p.rest q.rest := by
  fun_cases optionalMark stop items with
  | case1 =>
    have hnil := h.eq_nil
    subst hnil
    exact ⟨rfl, hstop, h⟩
  | case2 item rest hitem =>
    obtain ⟨item', rest', rfl, htwin, _, htail⟩ := h.exists_cons
    simp only [optionalMark, hitem, token_eq htwin.relates hitem (by simp)]
    exact ⟨rfl, stop_eq htwin.relates, htail (by simp [hitem])⟩
  | case3 item rest hitem =>
    obtain ⟨item', rest', rfl, htwin, _, htail⟩ := h.exists_cons
    simp only [optionalMark, hitem, token_eq htwin.relates hitem (by simp)]
    exact ⟨rfl, stop_eq htwin.relates, htail (by simp [hitem])⟩
  | case4 item next rest hitem hnext =>
    obtain ⟨item', next', rest', rfl, htwin, htwin', htail⟩ := h.exists_cons_cons
    rw [beq_iff_eq] at hnext
    simp only [optionalMark, hitem, token_eq htwin.relates hitem (by simp), hnext,
      token_eq htwin'.relates hnext (by simp), beq_self_eq_true, if_true]
    exact ⟨rfl, stop_eq htwin'.relates, htail (by simp [hnext])⟩
  | case5 item next rest hitem hnext =>
    obtain ⟨item', next', rest', rfl, htwin, htwin', _⟩ := h.exists_cons_cons
    simp only [optionalMark, hitem, token_eq htwin.relates hitem (by simp),
      beq_eq htwin'.relates (.sign .question) (by simp), hnext]
    exact ⟨rfl, hstop, h⟩
  | case6 item next rest hitem hnext =>
    obtain ⟨item', next', rest', rfl, htwin, htwin', htail⟩ := h.exists_cons_cons
    rw [beq_iff_eq] at hnext
    simp only [optionalMark, hitem, token_eq htwin.relates hitem (by simp), hnext,
      token_eq htwin'.relates hnext (by simp), beq_self_eq_true, if_true]
    exact ⟨rfl, stop_eq htwin'.relates, htail (by simp [hnext])⟩
  | case7 item next rest hitem hnext =>
    obtain ⟨item', next', rest', rfl, htwin, htwin', _⟩ := h.exists_cons_cons
    simp only [optionalMark, hitem, token_eq htwin.relates hitem (by simp),
      beq_eq htwin'.relates (.sign .question) (by simp), hnext]
    exact ⟨rfl, hstop, h⟩
  | case8 item rest hquestion hbang hplus hminus =>
    obtain ⟨item', rest', rfl, htwin, _, htail⟩ := h.exists_cons
    have hsign (s : Sign) : item'.token = .sign s ↔ item.token = .sign s :=
      (c.resembles htwin.relates).eq_iff (by simp)
    have hnone (s : Sign) (hs : s ≠ .semicolon)
        (hrest : ∀ next more, item.token = .sign s → rest = next :: more → False) :
        ∀ next more, item'.token = .sign s → rest' = next :: more → False := by
      intro next more heq hmore
      rw [hsign] at heq
      cases rest with
      | nil =>
        have := (htail (by simp [heq, hs])).eq_nil
        rw [this] at hmore
        cases hmore
      | cons next more => exact hrest next more heq rfl
    have hquestion' := fun heq => hquestion ((hsign _).mp heq)
    have hbang' := fun heq => hbang ((hsign _).mp heq)
    have hplus' := hnone .plus (by simp) hplus
    have hminus' := hnone .minus (by simp) hminus
    simp only [optionalMark]
    exact ⟨rfl, hstop, h⟩

/-!
Type expressions and members.
-/

theorem endsBefore_eq {place : Place} {last last' : Option Token} {item item' : Item}
    (hlast : last'.any Token.continuesAfter = last.any Token.continuesAfter)
    (hitem : c.IsTwin item item') : endsBefore place last' item' = endsBefore place last item := by
  have hterminator := (c.resembles hitem.relates).congr Token.isTerminator fun _ _ => rfl
  have hcontinues := (c.resembles hitem.relates).congr Token.continuesBefore fun _ _ => rfl
  unfold endsBefore
  rw [hterminator, hcontinues, hlast, beq_eq hitem.relates _ (by simp), hitem.isOnNewLine_eq]

structure SameObjects (c : Correspondence) (p q : List ObjectType × Nat) : Prop where
  objects : ObjectType.relocateAll c.there q.1 = ObjectType.relocateAll c.here p.1
  stop : c.there q.2 = c.here p.2

structure SameTerm (c : Correspondence) (p q : Term) : Prop where
  objects : ObjectType.relocateAll c.there q.objects = ObjectType.relocateAll c.here p.objects
  last : p.last.Resembles q.last
  stop : c.there q.stop = c.here p.stop

theorem SameTerm.continuesAfter_eq {p q : Term} (h : c.SameTerm p q) :
    (some q.last).any Token.continuesAfter = (some p.last).any Token.continuesAfter :=
  h.last.congr Token.continuesAfter fun _ _ => rfl

theorem SameTerm.append {p q : Term} {os os' : List ObjectType} {stop stop' : Nat}
    (h : c.SameTerm p q) (hrun : c.SameObjects (os, stop) (os', stop')) :
    c.SameObjects (p.objects ++ os, stop) (q.objects ++ os', stop') := by
  refine ⟨?_, hrun.stop⟩
  simp only [ObjectType.relocateAll_append, h.objects, hrun.objects]

theorem relocate_member (f : Nat → Nat) (kind : MemberKind) (name : Option (Located String))
    (isOptional : Bool) (objects : List ObjectType) (span : Span) :
    (Member.mk kind name isOptional objects span).relocate f
      = ⟨kind, name.map (·.relocate f), isOptional, ObjectType.relocateAll f objects,
        span.relocate f⟩ := by
  rw [Member.relocate]

mutual

/--
A term may also be a semicolon inside a group, so that nothing is said of what `Rest` is but that it
is between the ways in which items correspond.
-/
theorem parseTerm_agrees {collect : Bool} {item item' : Item} {rest rest' : List Item}
    {Rest : List Item → List Item → Prop}
    (hstrict : ∀ {items others}, c.Twins items others → Rest items others)
    (hbehind : ∀ {items others}, Rest items others → c.TwinsBehind items others)
    (hitem : c.Relates item item') (h : Rest rest rest') :
    c.Agrees c.SameTerm Rest (parseTerm collect item rest) (parseTerm collect item' rest') := by
  unfold parseTerm
  split
  . next d hd =>
    simp only [token_eq hitem hd (by simp)]
    split
    . refine (parseMembers_agrees (hbehind h) (sameItem hitem)).bind ?_
      rintro ⟨⟨ms, close⟩, rest₁, h₁⟩ ⟨⟨ms', close'⟩, rest₁', h₁'⟩ ⟨hmembers, hclose⟩ hrest
      have hstop : c.there close'.stop = c.here close.stop := congrArg Span.stop hclose
      refine .ok ⟨?_, .inl rfl, hstop⟩ (hstrict hrest)
      simp only [Parsed.map, Parsed.loosen, ObjectType.relocateAll, ObjectType.relocate,
        Span.relocate, hmembers, start_eq hitem, hstop]
    . refine (parseGroup_agrees (hbehind h) (sameOpening hitem d)).bind
        fun _ _ ⟨hobjects, hclose⟩ hrest => .ok ⟨hobjects, .inl rfl, ?_⟩ (hstrict hrest)
      exact congrArg Span.stop hclose
  . next hopening =>
    split
    . next d hd => exact absurd hd (token_ne hitem (hopening d) (by simp))
    . exact .ok ⟨rfl, c.resembles hitem, stop_eq hitem⟩ h
termination_by 4 * rest.length + 4

theorem parseGroup_agrees {collect : Bool} {opening opening' : OpenDelimiter}
    {items others : List Item} (h : c.TwinsBehind items others)
    (hopening : c.SameOpening opening opening') :
    c.Agrees (fun p q => ObjectType.relocateAll c.there q.1 = ObjectType.relocateAll c.here p.1
        ∧ q.2.relocate c.there = p.2.relocate c.here) c.Twins
      (parseGroup collect opening items) (parseGroup collect opening' others) := by
  cases items with
  | nil =>
    rw [parseGroup]
    exact .of_nil h hopening.unclosed (by rintro rfl; rw [parseGroup])
  | cons item rest =>
    obtain ⟨item', rest', rfl, hitem, hbehind, htail⟩ := h.exists_cons
    have hclosing := (c.resembles hitem.relates).congr Token.isClosing fun _ _ => rfl
    unfold parseGroup
    dsimp only
    rw [hopening.delimiter_eq, hclosing, beq_eq hitem.relates _ (by simp)]
    split
    . next hcloser =>
      rw [beq_iff_eq] at hcloser
      exact .ok ⟨rfl, c.span_eq hitem.relates⟩ (htail (by simp [hcloser]))
    . split
      . have := hopening.unbalanced
        rw [hopening.delimiter_eq] at this
        exact .failure this hitem.relates
      . refine (parseTerm_agrees .inl id hitem.relates hbehind).bind ?_
        rintro ⟨term, rest₁, h₁⟩ ⟨term', rest₁', h₁'⟩ hterm hrest₁
        refine (parseGroup_agrees hrest₁ hopening).bind ?_
        rintro ⟨⟨os, close⟩, rest₂, h₂⟩ ⟨⟨os', close'⟩, rest₂', h₂'⟩ ⟨hobjects, hclose⟩ hrest₂
        refine .ok ⟨?_, hclose⟩ hrest₂
        simp only [Parsed.map, Parsed.within, Parsed.loosen, ObjectType.relocateAll_append,
          hterm.objects, hobjects]
termination_by 4 * items.length + 1

theorem parseRun_agrees {collect : Bool} {place : Place} {last last' : Option Token}
    {stop stop' : Nat} {items others : List Item} (h : c.Twins items others)
    (hlast : last'.any Token.continuesAfter = last.any Token.continuesAfter)
    (hstop : c.there stop' = c.here stop) :
    c.Agrees c.SameObjects c.Twins (parseRun collect place last stop items)
      (parseRun collect place last' stop' others) := by
  cases items with
  | nil =>
    have hnil := h.eq_nil
    subst hnil
    unfold parseRun
    exact .ok ⟨rfl, hstop⟩ h
  | cons item rest =>
    obtain ⟨item', rest', rfl, hitem, _, htail⟩ := h.exists_cons
    unfold parseRun
    dsimp only
    rw [endsBefore_eq hlast hitem]
    split
    . exact .ok ⟨rfl, hstop⟩ h
    . next hends =>
      -- A run goes on only in front of what does not end it.
      have hne : item.token ≠ .sign .semicolon := by
        intro heq
        simp [endsBefore, heq, Token.isTerminator] at hends
      refine (parseTerm_agrees id .inl hitem.relates (htail hne)).bind ?_
      rintro ⟨term, rest₁, h₁⟩ ⟨term', rest₁', h₁'⟩ hterm hrest₁
      exact (parseRun_agrees hrest₁ hterm.continuesAfter_eq hterm.stop).bind
        fun _ _ hrun hrest₂ => .ok (hterm.append hrun) hrest₂
termination_by 4 * items.length + 1

theorem parseMembers_agrees {opening opening' : Span} {items others : List Item}
    (h : c.TwinsBehind items others) (hopening : c.SameItem opening opening') :
    c.Agrees (fun p q => Member.relocateAll c.there q.1 = Member.relocateAll c.here p.1
        ∧ q.2.relocate c.there = p.2.relocate c.here) c.Twins
      (parseMembers opening items) (parseMembers opening' others) := by
  cases items with
  | nil =>
    rw [parseMembers]
    exact .of_nil h (.unclosed hopening _) (by rintro rfl; rw [parseMembers])
  | cons item rest =>
    obtain ⟨item', rest', rfl, hitem, hbehind, htail⟩ := h.exists_cons
    unfold parseMembers
    dsimp only
    split
    . next d hd =>
      simp only [token_eq hitem.relates hd (by simp)]
      split
      . exact .ok ⟨rfl, c.span_eq hitem.relates⟩ (htail (by simp [hd]))
      . exact .failure (.unbalanced (.some hopening) _) hitem.relates
    . next hsemicolon =>
      simp only [token_eq hitem.relates hsemicolon (by simp)]
      exact (parseMembers_agrees hbehind hopening).loosen
    . next hcomma =>
      simp only [token_eq hitem.relates hcomma (by simp)]
      exact (parseMembers_agrees hbehind hopening).loosen
    . next hclosing hsemicolon hcomma =>
      split
      . next d hd => exact absurd hd (token_ne hitem.relates (hclosing d) (by simp))
      . next hd => exact absurd hd (token_ne hitem.relates hsemicolon (by simp))
      . next hd => exact absurd hd (token_ne hitem.relates hcomma (by simp))
      . refine (parseMember_agrees hitem (htail hsemicolon)).bind ?_
        rintro ⟨m, rest₁, h₁⟩ ⟨m', rest₁', h₁'⟩ hmember hrest₁
        refine (parseMembers_agrees hrest₁ hopening).bind ?_
        rintro ⟨⟨ms, close⟩, rest₂, h₂⟩ ⟨⟨ms', close'⟩, rest₂', h₂'⟩ ⟨hmembers, hclose⟩ hrest₂
        refine .ok ⟨?_, hclose⟩ hrest₂
        simp only [Alike] at hmember
        simp only [Parsed.map, Parsed.within, Parsed.loosen, Member.relocateAll, hmember, hmembers]
termination_by 4 * items.length + 3

theorem parseMember_agrees {item item' : Item} {rest rest' : List Item}
    (hitem : c.IsTwin item item') (h : c.Twins rest rest') :
    c.Agrees (c.Alike Member.relocate) c.TwinsBehind (parseMember item rest)
      (parseMember item' rest') := by
  obtain ⟨hfirst, hrest₁⟩ := skipMemberModifiers_twins hitem.relates h
  unfold parseMember
  generalize skipMemberModifiers item rest = skipped at hfirst hrest₁ ⊢
  generalize skipMemberModifiers item' rest' = skipped' at hfirst hrest₁ ⊢
  obtain ⟨first, rest₁, h₁⟩ := skipped
  obtain ⟨first', rest₁', h₁'⟩ := skipped'
  dsimp only at hfirst hrest₁ ⊢
  have hsignature := signatureStart?_twins hfirst hrest₁
  split
  . next kind start rest₂ h₂ hstart =>
    rw [hstart] at hsignature
    obtain ⟨⟨start', rest₂', h₂'⟩, hstart', hrelates, hrest₂⟩ := hsignature
    rw [hstart']
    dsimp only at hrelates hrest₂ ⊢
    refine (parseTerm_agrees id .inl hrelates hrest₂).bind ?_
    rintro ⟨term, rest₃, h₃⟩ ⟨term', rest₃', h₃'⟩ hterm hrest₃
    refine (parseRun_agrees hrest₃ hterm.continuesAfter_eq hterm.stop).bind ?_
    rintro ⟨⟨os, stop⟩, rest₄, h₄⟩ ⟨⟨os', stop'⟩, rest₄', h₄'⟩ hrun hrest₄
    obtain ⟨hend, hrest₅⟩ := terminator_twins hrun.stop hrest₄
    refine .ok ?_ hrest₅
    simp only [Alike, Parsed.map, Parsed.within, Parsed.onward, relocate_member, Option.map_none,
      Span.relocate, hitem.lead_eq, hend, (hterm.append hrun).objects]
  . next hstart =>
    rw [hstart] at hsignature
    rw [hsignature]
    refine (memberHead_agrees hfirst hrest₁).bind ?_
    rintro ⟨head, rest₂, h₂⟩ ⟨head', rest₂', h₂'⟩ hhead hrest₂
    obtain ⟨hmark, hstop, hrest₃⟩ := optionalMark_twins hhead.stop hrest₂
    dsimp only at hmark hstop hrest₃ ⊢
    generalize optionalMark head.stop rest₂ = marked at hmark hstop hrest₃ ⊢
    generalize optionalMark head'.stop rest₂' = marked' at hmark hstop hrest₃ ⊢
    obtain ⟨⟨isOptional, stop⟩, rest₃, h₃⟩ := marked
    obtain ⟨⟨isOptional', stop'⟩, rest₃', h₃'⟩ := marked'
    dsimp only at hmark hstop hrest₃ ⊢
    refine (parseRun_agrees hrest₃ rfl hstop).bind ?_
    rintro ⟨⟨os, stop⟩, rest₄, h₄⟩ ⟨⟨os', stop'⟩, rest₄', h₄'⟩ hrun hrest₄
    obtain ⟨hend, hrest₅⟩ := terminator_twins hrun.stop hrest₄
    refine .ok ?_ hrest₅
    obtain ⟨hkind, hname, _⟩ := hhead
    have hsignature := hrest₃.startsWith_eq Token.opensSignature fun _ _ => rfl
    simp only [Alike] at hkind hname
    simp only [Alike, Parsed.map, Parsed.within, Parsed.onward, relocate_member, Span.relocate,
      hitem.lead_eq, hend, hname, hmark, hrun.objects, MemberHead.kindBefore, hkind, hsignature]
termination_by 4 * rest.length + 6

end

end Correspondence
end Delegation
