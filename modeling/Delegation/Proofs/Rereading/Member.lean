import Delegation.Proofs.Rereading.Step

/-!
This module contains the stretches of type expressions and members: these are divided into parts
that stay and parts that go, and what is left of them is read again.
-/

namespace Delegation

open Item Stretch

variable (g : DelegateGraph) {isInput : Bool} {owner : Owner}

theorem memberFindings_of_eq_some {m : Member} {finding : Finding}
    (h : memberFinding? g isInput owner m = some finding) :
    memberFindings g isInput owner m = [finding] := by
  obtain ⟨kind, name, isOptional, objects, span⟩ := m
  rw [memberFindings, h]

theorem memberFindings_of_eq_none {m : Member} (h : memberFinding? g isInput owner m = none) :
    memberFindings g isInput owner m = objectsFindings g isInput m.objects := by
  obtain ⟨kind, name, isOptional, objects, span⟩ := m
  rw [memberFindings, h]

theorem MemberOf.edits_removed {first : Item} {more next : List Item} {m : Member}
    {finding : Finding} (h : MemberOf (first :: more) next m)
    (hgoes : memberFinding? g isInput owner m = some finding) :
    editsOf [.removed first more] = editsFor [finding] := by
  have hedit := edit?_memberFinding? g hgoes
  cases h
  simp [editsFor, hedit, Stretch.edits, Stretch.edit?, Stretch.inner]

theorem MemberOf.fits_removed {first : Item} {more next items : List Item} {m : Member}
    {last : Option Token} (h : MemberOf (first :: more) next m)
    (hlast : IsBetween last (first :: items)) : Fits last (.removed first more) := by
  have hbalanced := h.isBalanced
  cases h with
  | mk _ hfirst hclosing =>
    refine ⟨?_, hbalanced⟩
    rcases hlast with hlast | hlast | hlast | hlast
    . exact .inr (.inl hlast)
    . exact .inr (.inr (.inl hlast))
    . exact .inr (.inr (.inr hlast))
    . rcases hlast first rfl with hline | hseparator | ⟨d, hd⟩
      . exact .inl hline
      . exact absurd hseparator hfirst
      . exact absurd hd (hclosing d)

variable (isInput)

mutual

theorem parseTerm_rereads {collect : Bool} {item : Item} {rest : List Item}
    {p : Parsed Item Term (rest.length + 1)} (h : parseTerm collect item rest = .ok p) :
    ∃ ss, rest = itemsOf ss ++ p.rest
      ∧ Covers (objectsFindings g isInput p.value.objects) (.kept item :: ss)
      ∧ (item.token ≠ .opening .brace →
        IsSteady ss ∧ Covers (objectsFindings g isInput p.value.objects) ss)
      ∧ ((∀ d, item.token ≠ .opening d) → ss = [])
      ∧ TermRereads g isInput collect item ss p.value.last := by
  unfold parseTerm at h
  split at h
  . next d hd =>
    split at h
    . next hcollect =>
      rw [Bool.and_eq_true, beq_iff_eq] at hcollect
      obtain ⟨rfl, rfl⟩ := hcollect
      obtain ⟨⟨⟨ms, close⟩, rest', hlt⟩, hmembers, h⟩ := bind_eq_ok h
      cases h
      obtain ⟨ss, hrest, hedits, hfit, hbroken, _, hreads⟩ := parseMembers_rereads hmembers
        (.typeLiteral ⟨ms, ⟨item.span.start, close.stop⟩⟩)
      refine ⟨ss, hrest, ⟨?_, ?_, hbroken false⟩, fun hne => absurd hd hne,
        fun hne => absurd hd (hne _), hreads.term hd⟩
      . show editsOf ss = editsFor (objectsFindings g isInput [⟨ms, _⟩])
        rw [objectsFindings, objectFindings, hedits, editsFor_append]
        exact (List.append_nil _).symm
      . intro last
        exact ⟨trivial, hfit _ (.inl (congrArg some hd))⟩
    . next hcollect =>
      obtain ⟨group, hgroup, h⟩ := bind_eq_ok h
      cases h
      obtain ⟨ss, hrest, hcovers, hsteady, hreads⟩ := parseGroup_rereads hgroup
      exact ⟨ss, hrest, hcovers.cons item, fun _ => ⟨hsteady, hcovers⟩,
        fun hne => absurd hd (hne _), hreads.term hd (by simpa using hcollect)⟩
  . next hopening =>
    cases h
    exact ⟨[], rfl, covers_map_kept [item], fun _ => ⟨isSteady_nil, covers_map_kept []⟩,
      fun _ => rfl, TermRereads.of_ne hopening⟩
termination_by 4 * rest.length + 4

theorem parseGroup_rereads {collect : Bool} {opening : OpenDelimiter} {items : List Item}
    {p : Parsed Item (List ObjectType × Span) items.length}
    (h : parseGroup collect opening items = .ok p) :
    ∃ ss, items = itemsOf ss ++ p.rest ∧ Covers (objectsFindings g isInput p.value.1) ss
      ∧ IsSteady ss ∧ GroupRereads g isInput collect opening.delimiter ss := by
  unfold parseGroup at h
  split at h
  . cases h
  . next item rest =>
    split at h
    . next hcloser =>
      cases h
      exact ⟨[.kept item], rfl, covers_map_kept [item], isSteady_nil.cons,
        groupRereads_closer (beq_iff_eq.mp hcloser)⟩
    . split at h
      . cases h
      . next hclosing =>
        obtain ⟨⟨term, rest', hlt⟩, hterm, h⟩ := bind_eq_ok h
        obtain ⟨⟨group, rest'', hlt'⟩, hgroup, h⟩ := bind_eq_ok h
        obtain ⟨ss, hrest, hcovers, _, hnil, hreads⟩ := parseTerm_rereads hterm
        obtain ⟨ss', hrest', hcovers', hsteady', hreads'⟩ := parseGroup_rereads hgroup
        have hitem : ∀ d, item.token ≠ .closing d := by
          intro d hd
          simp [hd, Token.isClosing] at hclosing
        cases h
        dsimp only at hrest hrest'
        subst hrest' hrest
        have hbroken : isBrokenAfter false ss = false := hcovers.isBrokenAfter_eq
        refine ⟨.kept item :: (ss ++ ss'), ?_, ?_, isSteady_term hnil hsteady',
          GroupRereads.cons hitem hbroken hreads hreads'⟩
        . simp [Parsed.map, Parsed.within, Parsed.loosen, Stretch.items]
        . show Covers (objectsFindings g isInput (term.objects ++ group.1)) _
          rw [objectsFindings_append]
          exact hcovers.append hcovers'
termination_by 4 * items.length + 1

theorem parseRun_rereads {collect : Bool} {place : Place} {last : Option Token} {stop : Nat}
    {items : List Item} {p : Parsed Item (List ObjectType × Nat) (items.length + 1)}
    (h : parseRun collect place last stop items = .ok p) :
    ∃ ss, items = itemsOf ss ++ p.rest ∧ Covers (objectsFindings g isInput p.value.1) ss
      ∧ IsSteady ss ∧ RunRereads g isInput collect place last ss p.rest := by
  unfold parseRun at h
  split at h
  . cases h
    exact ⟨[], rfl, covers_map_kept [], isSteady_nil, runRereads_nil (by simp [Parsed.leaving])⟩
  . next item rest =>
    split at h
    . next hends =>
      cases h
      refine ⟨[], rfl, covers_map_kept [], isSteady_nil, runRereads_nil ?_⟩
      intro x hx
      cases hx
      exact hends
    . next hends =>
      obtain ⟨⟨term, rest', hlt⟩, hterm, h⟩ := bind_eq_ok h
      obtain ⟨⟨run, rest'', hlt'⟩, hrun, h⟩ := bind_eq_ok h
      obtain ⟨ss, hrest, hcovers, _, hnil, hreads⟩ := parseTerm_rereads hterm
      obtain ⟨ss', hrest', hcovers', hsteady', hreads'⟩ := parseRun_rereads hrun
      cases h
      dsimp only at hrest hrest'
      subst hrest' hrest
      have hbroken : isBrokenAfter false ss = false := hcovers.isBrokenAfter_eq
      refine ⟨.kept item :: (ss ++ ss'), ?_, ?_, isSteady_term hnil hsteady',
        RunRereads.cons (by simpa using hends) hbroken hreads hreads'⟩
      . simp [Parsed.map, Parsed.within, Parsed.loosen, Stretch.items]
      . show Covers (objectsFindings g isInput (term.objects ++ run.1)) _
        rw [objectsFindings_append]
        exact hcovers.append hcovers'
termination_by 4 * items.length + 1

/--
Members are made of stretches up to the brace that closes them, and what is left of them are members
again.
-/
theorem parseMembers_rereads {opening : Span} {items : List Item}
    {p : Parsed Item (List Member × Span) items.length}
    (h : parseMembers opening items = .ok p) (owner : Owner) :
    ∃ ss, items = itemsOf ss ++ p.rest
      ∧ editsOf ss = editsFor (membersFindings g isInput owner p.value.1)
      ∧ (∀ last, IsBetween last items → AllFit last ss)
      ∧ (∀ isBroken, isBrokenAfter isBroken ss = false) ∧ IsRow ss
      ∧ MembersRereads g isInput owner ss := by
  unfold parseMembers at h
  split at h
  . cases h
  . next item rest =>
    have step : item.isSeparator → (parseMembers opening rest).map .loosen = .ok p →
        ∃ ss, item :: rest = itemsOf ss ++ p.rest
          ∧ editsOf ss = editsFor (membersFindings g isInput owner p.value.1)
          ∧ (∀ last, IsBetween last (item :: rest) → AllFit last ss)
          ∧ (∀ isBroken, isBrokenAfter isBroken ss = false) ∧ IsRow ss
          ∧ MembersRereads g isInput owner ss := by
      intro hitem hmap
      obtain ⟨q, hq, hp⟩ := map_eq_ok hmap
      obtain ⟨ss, hrest, hedits, hfit, hbroken, _, hreads⟩ := parseMembers_rereads hq owner
      subst hp
      refine ⟨.kept item :: ss, congrArg (item :: ·) hrest, hedits, ?_, fun _ => hbroken _,
        isRow_of_ne ?_ ss, MembersRereads.separator hitem hreads⟩
      . intro last _
        have hbetween : IsBetween (lastAfter last ([] ++ [item])) rest :=
          isBetween_of_isSeparator hitem
        exact ⟨trivial, hfit _ hbetween⟩
      . rcases hitem with hitem | hitem
        . exact .inr (.inl hitem)
        . exact .inr (.inr hitem)
    split at h
    . next d hd =>
      split at h
      . next heq =>
        cases h
        subst heq
        exact ⟨[.kept item], rfl, rfl, fun _ _ => ⟨trivial, trivial⟩, fun _ => rfl,
          isRow_of_ne (.inl ⟨_, hd⟩) [], membersRereads_closer hd⟩
      . cases h
    . next hitem => exact step (.inl hitem) h
    . next hitem => exact step (.inr hitem) h
    . next hclosing hsemicolon hcomma =>
      obtain ⟨⟨m, rest', hlt⟩, hmember, h⟩ := bind_eq_ok h
      obtain ⟨⟨members, rest'', hlt'⟩, hmembers, h⟩ := bind_eq_ok h
      have hitem : ¬ item.isSeparator := by
        rintro (hitem | hitem)
        . exact hsemicolon hitem
        . exact hcomma hitem
      obtain ⟨ss, hrest, hedits, hfit, hrow, hreads⟩ :=
        parseMember_rereads hmember hitem hclosing owner
      obtain ⟨ss', hrest', hedits', hfit', hbroken, hrow', hreads'⟩ :=
        parseMembers_rereads hmembers owner
      cases h
      dsimp only at hrest hrest' hreads
      refine ⟨ss ++ ss', ?_, ?_, ?_, ?_, hrow ss' hrow', ?_⟩
      . show item :: rest = itemsOf (ss ++ ss') ++ rest''
        rw [hrest, hrest', itemsOf_append, List.append_assoc]
      . show _ = editsFor (membersFindings g isInput owner (m :: members.1))
        rw [editsOf_append, hedits, hedits', membersFindings, editsFor_append]
      . intro last hlast
        exact (hfit last hlast).1.append (hfit' _ (hfit last hlast).2)
      . intro isBroken
        rw [isBrokenAfter_append, hbroken]
      . rcases hreads with ⟨more, rfl⟩ | ⟨⟨ss, rfl⟩, hbroken', hreads⟩
        . exact hreads'.removed
        . rw [hrest'] at hreads
          exact MembersRereads.member hitem hclosing hbroken' hreads hrow' hreads'
termination_by 4 * items.length + 3

theorem parseMember_rereads {item : Item} {rest : List Item}
    {p : Parsed Item Member (rest.length + 1)} (h : parseMember item rest = .ok p)
    (hitem : ¬ item.isSeparator) (hclosing : ∀ d, item.token ≠ .closing d) (owner : Owner) :
    ∃ ss, item :: rest = itemsOf ss ++ p.rest
      ∧ editsOf ss = editsFor (memberFindings g isInput owner p.value)
      ∧ (∀ last, IsBetween last (item :: rest) → AllFit last ss
        ∧ IsBetween (lastAfter last (itemsOf ss)) p.rest)
      ∧ (∀ ss', IsRow ss' → IsRow (ss ++ ss'))
      ∧ ((∃ more, ss = [.removed item more])
        ∨ (∃ ss', ss = .kept item :: ss') ∧ (∀ isBroken, isBrokenAfter isBroken ss = false)
          ∧ MemberRereads g isInput owner ss p.rest) := by
  obtain ⟨more, hrest, hmember⟩ := parseMember_eq_ok h hitem hclosing
  cases hstays : memberFinding? g isInput owner p.value with
  | some finding =>
    refine ⟨[.removed item more], ?_, ?_, ?_, fun _ hrow => .removed hrow, .inl ⟨more, rfl⟩⟩
    . simpa [Stretch.items] using hrest
    . rw [memberFindings_of_eq_some g hstays, hmember.edits_removed g hstays]
    . intro last hlast
      refine ⟨⟨hmember.fits_removed hlast, trivial⟩, ?_⟩
      simpa [Stretch.items] using hmember.isBetween last
  | none =>
    have hkept : ∃ front ss, rest = front ++ itemsOf ss ++ p.rest
        ∧ Covers (objectsFindings g isInput p.value.objects) ss
        ∧ (∀ ss, IsRow ((item :: front).map kept ++ ss))
        ∧ MemberRereads g isInput owner ((item :: front).map kept ++ ss) p.rest := by
      unfold parseMember at h
      generalize hskip : skipMemberModifiers item rest = skipped at h
      obtain ⟨first, rest₁, h₁⟩ := skipped
      dsimp only at h
      split at h
      . next kind start rest₂ h₂ hsignature =>
        obtain ⟨⟨term, rest₃, h₃⟩, hterm, h⟩ := bind_eq_ok h
        obtain ⟨⟨⟨os, stop⟩, rest₄, h₄⟩, hrun, h⟩ := bind_eq_ok h
        have hstart : start.token ≠ .opening .brace := by
          intro hbrace
          obtain ⟨_, _, _, hopens, _⟩ := signatureStart?_eq_some hsignature
          simp [hbrace, Token.opensSignature] at hopens
        obtain ⟨ss, hrest₂, _, hsteady, _, hreads⟩ := parseTerm_rereads hterm
        obtain ⟨hsteady, hcovers⟩ := hsteady hstart
        obtain ⟨_, hrest₃, hcovers', hsteady', hreads'⟩ := parseRun_rereads hrun
        obtain ⟨ss', hrest₃, hcovers', hsteady', htail⟩ :=
          RunRereads.exists_tail hrun hrest₃ hcovers' hsteady' hreads'
        obtain ⟨front, hfront, hrow, hagain⟩ := TailRereads.exists_signature owner
          hskip hsignature hrest₂ hcovers.isBrokenAfter_eq hsteady hreads hrest₃ hsteady' htail
        cases h
        dsimp only at hrest₂ hrest₃ hfront
        refine ⟨front, ss ++ ss', ?_, ?_, hrow, hagain⟩
        . show rest = front ++ itemsOf (ss ++ ss') ++ (terminator stop rest₄).rest
          rw [hfront, hrest₂, hrest₃, itemsOf_append]
          simp only [List.append_assoc]
        . show Covers (objectsFindings g isInput (term.objects ++ os)) _
          rw [objectsFindings_append]
          exact hcovers.append hcovers'
      . next hsignature =>
        obtain ⟨⟨head, rest₂, h₂⟩, hhead, h⟩ := bind_eq_ok h
        dsimp only at h
        generalize hmark : optionalMark head.stop rest₂ = marked at h
        obtain ⟨⟨isOptional, stop⟩, rest₃, h₃⟩ := marked
        obtain ⟨⟨⟨os, stop'⟩, rest₄, h₄⟩, hrun, h⟩ := bind_eq_ok h
        obtain ⟨_, hrest₃, hcovers, hsteady, hreads⟩ := parseRun_rereads hrun
        obtain ⟨ss, hrest₃, hcovers, hsteady, htail⟩ :=
          RunRereads.exists_tail hrun hrest₃ hcovers hsteady hreads
        cases h
        obtain ⟨front, hfront, hrow, hagain⟩ := TailRereads.exists_member hskip hsignature hhead
          hmark hrest₃ hsteady htail rfl rfl hstays
        dsimp only at hrest₃
        refine ⟨front, ss, ?_, hcovers, hrow, hagain⟩
        show rest = front ++ itemsOf ss ++ (terminator stop' rest₄).rest
        rw [hfront, hrest₃, List.append_assoc]
    obtain ⟨front, ss, hrest', hcovers, hrow, hagain⟩ := hkept
    have hmore : itemsOf ((item :: front).map kept ++ ss) = item :: more := by
      rw [itemsOf_append, itemsOf_map_kept, List.append_cancel_right (hrest.symm.trans hrest')]
      rfl
    refine ⟨(item :: front).map kept ++ ss, ?_, ?_, ?_, ?_, .inr ⟨⟨_, rfl⟩, ?_, hagain⟩⟩
    . rw [hmore, List.cons_append, ← hrest]
    . rw [memberFindings_of_eq_none g hstays, editsOf_append, editsOf_map_kept,
        hcovers.editsOf_eq, List.nil_append]
    . intro last _
      rw [hmore]
      exact ⟨(allFit_map_kept _ _).append (hcovers.allFit _), hmember.isBetween last⟩
    . intro ss' _
      rw [List.append_assoc]
      exact hrow _
    . intro isBroken
      rw [isBrokenAfter_append]
      show isBrokenAfter (isBrokenAfter false (front.map kept)) ss = false
      rw [isBrokenAfter_map_kept, hcovers.isBrokenAfter_eq]
termination_by 4 * rest.length + 6

end

end Delegation
