import Delegation.Proofs.Grammar.Lookahead

/-!
This module contains what stands in front of the body or the type of a declaration. Its parsers read
it by its tokens, whatever follows it but for the token that is next.
-/

namespace Delegation

open Item

theorem head?_append_congr {used used' rest rest' : List Item}
    (h : used'.map token = used.map token)
    (hrest : used = [] → rest'.head?.map token = rest.head?.map token) :
    (used' ++ rest').head?.map token = (used ++ rest).head?.map token := by
  cases used with
  | nil =>
    obtain rfl := List.map_eq_nil_iff.mp h
    exact hrest rfl
  | cons item used =>
    obtain ⟨item', used', rfl, hitem, _⟩ := List.map_eq_cons_iff.mp h
    simp [hitem]

theorem skipModifiers_reads (modifiers : List String) (item : Item) (rest : List Item) :
    ∃ mods, item :: rest = mods ++ (skipModifiers modifiers item rest).value
        :: (skipModifiers modifiers item rest).rest
      ∧ ∀ {mods' rest' others : List Item} {first item' : Item},
        mods'.map token = mods.map token →
        first.token = (skipModifiers modifiers item rest).value.token →
        (first.token.isIdentifier = true → rest'.head?.map token
          = (skipModifiers modifiers item rest).rest.head?.map token) →
        item' :: others = mods' ++ first :: rest' →
        (skipModifiers modifiers item' others).value = first
          ∧ (skipModifiers modifiers item' others).rest = rest' := by
  induction rest generalizing item with
  | nil =>
    refine ⟨[], rfl, ?_⟩
    intro mods' rest' others first item' hmods hfirst hrest heq
    obtain rfl := List.map_eq_nil_iff.mp hmods
    cases heq
    cases rest' with
    | nil => exact ⟨rfl, rfl⟩
    | cons next rest' =>
      have hmodifier : first.token.isWordOf modifiers = false := by
        cases hword : first.token.isWordOf modifiers with
        | false => rfl
        | true =>
          have := hrest (isIdentifier_of_isWordOf hword)
          simp [skipModifiers, Parsed.leaving] at this
      simp [skipModifiers, hmodifier, Parsed.leaving]
  | cons next rest ih =>
    unfold skipModifiers
    split
    . next hmodifier =>
      obtain ⟨mods, hused, hall⟩ := ih next
      refine ⟨item :: mods, congrArg (item :: ·) hused, ?_⟩
      intro mods' rest' others first item' hmods hfirst hrest heq
      cases mods' with
      | nil => cases hmods
      | cons mod mods' =>
        rw [List.map_cons, List.map_cons, List.cons.injEq] at hmods
        cases heq
        obtain ⟨x, xs, hx⟩ := List.exists_cons_of_ne_nil (by simp : mods' ++ first :: rest' ≠ [])
        have hx' : x.token = next.token := token_eq_of_append hused hx.symm hmods.2 hfirst
        have hskip := hall hmods.2 hfirst hrest hx.symm
        have hagain : (item'.token.isWordOf modifiers && x.token.isIdentifier) = true := by
          rw [hmods.1, hx']
          exact hmodifier
        rw [List.append_eq, hx]
        simp only [hagain, if_true]
        exact hskip
    . next hmodifier =>
      refine ⟨[], rfl, ?_⟩
      intro mods' rest' others first item' hmods hfirst hrest heq
      obtain rfl := List.map_eq_nil_iff.mp hmods
      cases heq
      cases rest' with
      | nil => exact ⟨rfl, rfl⟩
      | cons b others =>
        have hnone : (first.token.isWordOf modifiers && b.token.isIdentifier) = false := by
          cases hword : first.token.isWordOf modifiers with
          | false => rfl
          | true =>
            have hb := hrest (isIdentifier_of_isWordOf hword)
            simp only [Parsed.leaving, List.head?_cons, Option.map_some, Option.some.injEq] at hb
            rw [hb, ← hword, hfirst]
            simpa [Parsed.leaving] using hmodifier
        simp only [hnone]
        exact ⟨rfl, rfl⟩

theorem parseParamSuffix_reads {opening : Span} {stop : Nat} {items : List Item}
    {p : Parsed Item Nat (items.length + 1)} (h : parseParamSuffix opening stop items = .ok p) :
    ∃ used, items = used ++ p.rest
      ∧ ∀ {used' rest' : List Item}, used'.map token = used.map token →
        rest'.head?.map token = p.rest.head?.map token → ∀ opening' stop',
        Leaves rest' (fun _ => True) (parseParamSuffix opening' stop' (used' ++ rest')) := by
  cases items with
  | nil =>
    unfold parseParamSuffix at h
    cases h
  | cons item rest =>
    unfold parseParamSuffix at h
    dsimp only at h
    split at h
    . next hcomma =>
      cases h
      refine ⟨[item], rfl, ?_⟩
      intro used' rest' hused _ opening' stop'
      obtain ⟨comma, more, rfl, hcomma', hmore⟩ := List.map_eq_cons_iff.mp hused
      obtain rfl := List.map_eq_nil_iff.mp hmore
      rw [List.cons_append, parseParamSuffix]
      simp only [hcomma', hcomma]
      exact ⟨_, _, rfl, trivial⟩
    . next d hd =>
      split at h
      . next heq =>
        cases h
        refine ⟨[], rfl, ?_⟩
        intro used' rest' hused hhead opening' stop'
        obtain rfl := List.map_eq_nil_iff.mp hused
        cases rest' with
        | nil => cases hhead
        | cons closer rest' =>
          simp only [Parsed.leaving, List.head?_cons, Option.map_some, Option.some.injEq] at hhead
          rw [List.nil_append, parseParamSuffix]
          simp only [hhead, hd, heq, if_true]
          exact ⟨_, _, rfl, trivial⟩
      . cases h
    . next d hd =>
      obtain ⟨⟨close, rest', hlt⟩, hskip, h⟩ := bind_eq_ok h
      obtain ⟨⟨stop', rest'', hlt'⟩, hsuffix, h⟩ := bind_eq_ok h
      obtain ⟨group, hrest, hgroup⟩ := skipGroup_reads hskip
      obtain ⟨suffix, hrest', hall⟩ := parseParamSuffix_reads hsuffix
      cases h
      dsimp only at hrest hrest'
      subst hrest' hrest
      refine ⟨item :: (group ++ suffix), by simp [Parsed.within, Parsed.loosen], ?_⟩
      intro used' rest' hused hhead opening' stop'
      obtain ⟨opener, more, rfl, hopener, hmore⟩ := List.map_eq_cons_iff.mp hused
      rw [List.map_append] at hmore
      obtain ⟨group', suffix', rfl, hgroup', hsuffix'⟩ := List.map_eq_append_iff.mp hmore
      have hskip' : Leaves (suffix' ++ rest') (fun _ => True)
          (skipGroup ⟨d, opener.span⟩ [] (group' ++ (suffix' ++ rest'))) := hgroup hgroup' rfl
      rw [List.cons_append, List.append_assoc, parseParamSuffix]
      simp only [hopener, hd]
      apply hskip'.bind
      intro closer hlt₁ _
      apply (hall hsuffix' hhead _ _).bind
      intro _ hlt₂ _
      exact ⟨_, _, rfl, trivial⟩
    . next hcomma hclosing hopening =>
      obtain ⟨⟨stop', rest', hlt⟩, hsuffix, h⟩ := map_eq_ok h
      obtain ⟨suffix, hrest, hall⟩ := parseParamSuffix_reads hsuffix
      subst h
      refine ⟨item :: suffix, congrArg (item :: ·) hrest, ?_⟩
      intro used' rest' hused hhead opening' stop'
      obtain ⟨first, more, rfl, hfirst, hmore⟩ := List.map_eq_cons_iff.mp hused
      have hagain := (hall hmore hhead opening' first.span.stop).loosen
      rw [← hfirst] at hcomma hclosing hopening
      unfold parseParamSuffix
      rw [List.cons_append]
      dsimp only
      split
      . next h => exact absurd h hcomma
      . next d h => exact absurd h (hclosing d)
      . next d h => exact absurd h (hopening d)
      . exact hagain
termination_by items.length
decreasing_by
  all_goals
    subst_vars
    simp only [List.length_cons]
    omega

theorem parseParams_reads {opening : Span} {items : List Item}
    {p : Parsed Item (List TypeParam) (items.length + 1)} (h : parseParams opening items = .ok p) :
    ∃ used, used ≠ [] ∧ items = used ++ p.rest
      ∧ ∀ {used' rest' : List Item}, used'.map token = used.map token → ∀ opening',
        Leaves rest' (fun params => params.map (·.name.value) = p.value.map (·.name.value))
          (parseParams opening' (used' ++ rest')) := by
  cases items with
  | nil =>
    unfold parseParams at h
    cases h
  | cons item rest =>
    unfold parseParams at h
    split at h
    . next hcloser =>
      cases h
      refine ⟨[item], by simp, rfl, ?_⟩
      intro used' rest' hused opening'
      obtain ⟨closer, more, rfl, hcloser', hmore⟩ := List.map_eq_cons_iff.mp hused
      obtain rfl := List.map_eq_nil_iff.mp hmore
      rw [List.cons_append, parseParams, if_pos (by rw [hcloser']; exact hcloser)]
      exact ⟨_, _, rfl, rfl⟩
    . next hcloser =>
      obtain ⟨mods, hmods, hskip⟩ := skipModifiers_reads paramModifiers item rest
      dsimp only at h
      generalize skipModifiers paramModifiers item rest = skipped at h hmods hskip
      obtain ⟨first, rest₁, h₁⟩ := skipped
      dsimp only at h hmods hskip
      split at h
      . next name hname =>
        obtain ⟨⟨stop, rest₂, h₂⟩, hsuffix, h⟩ := bind_eq_ok h
        obtain ⟨⟨params, rest₃, h₃⟩, hparams, h⟩ := bind_eq_ok h
        obtain ⟨suffix, hrest₁, hall⟩ := parseParamSuffix_reads hsuffix
        obtain ⟨tail, hne, hrest₂, htail⟩ := parseParams_reads hparams
        cases h
        dsimp only at hrest₁ hrest₂ hall htail
        subst hrest₂ hrest₁
        refine ⟨mods ++ first :: (suffix ++ tail), by simp, ?_, ?_⟩
        . apply hmods.trans
          simp [Parsed.map, Parsed.within, Parsed.loosen]
        . intro used' rest' hused opening'
          rw [List.map_append] at hused
          obtain ⟨mods', back, rfl, hmods', hback⟩ := List.map_eq_append_iff.mp hused
          obtain ⟨first', back, rfl, hfirst', hback⟩ := List.map_eq_cons_iff.mp hback
          rw [List.map_append] at hback
          obtain ⟨suffix', tail', rfl, hsuffix', htail'⟩ := List.map_eq_append_iff.mp hback
          have hnext : (tail' ++ rest').head?.map token = (tail ++ rest₃).head?.map token :=
            head?_append_congr htail' (fun hnil => absurd hnil hne)
          have hnext' : (suffix' ++ (tail' ++ rest')).head?.map token
              = (suffix ++ (tail ++ rest₃)).head?.map token :=
            head?_append_congr hsuffix' fun _ => hnext
          obtain ⟨item', others, hitem'⟩ := List.exists_cons_of_ne_nil
            (by simp : mods' ++ first' :: (suffix' ++ (tail' ++ rest')) ≠ [])
          obtain ⟨hvalue, hothers⟩ := hskip hmods' hfirst' (fun _ => hnext') hitem'.symm
          have htoken : item'.token = item.token :=
            token_eq_of_append hmods hitem'.symm hmods' hfirst'
          have hitems : mods' ++ first' :: (suffix' ++ tail') ++ rest' = item' :: others := by
            rw [← hitem']
            simp
          rw [hitems, parseParams, if_neg (by rw [htoken]; exact hcloser)]
          dsimp only
          generalize skipModifiers paramModifiers item' others = skipped at hvalue hothers
          obtain ⟨first₁, rest₁', h₁'⟩ := skipped
          dsimp only at hvalue hothers
          subst hvalue hothers
          simp only [hfirst', hname]
          apply (hall hsuffix' hnext _ _).bind
          intro stop' hlt _
          apply (htail htail' _).bind
          intro params' hlt' hparams'
          refine ⟨_, _, rfl, ?_⟩
          simp [Parsed.map, Parsed.within, Parsed.loosen, hparams']
      . cases h
termination_by items.length
decreasing_by
  all_goals
    subst_vars
    simp only [List.length_cons]
    omega

theorem parseParamList_reads {items : List Item}
    {p : Parsed Item (List TypeParam) (items.length + 1)} (h : parseParamList items = .ok p) :
    ∃ used, items = used ++ p.rest
      ∧ ∀ {used' rest' : List Item}, used'.map token = used.map token →
        rest'.head?.map token = p.rest.head?.map token →
        Leaves rest' (fun params => params.map (·.name.value) = p.value.map (·.name.value))
          (parseParamList (used' ++ rest')) := by
  unfold parseParamList at h
  split at h
  . cases h
    refine ⟨[], rfl, ?_⟩
    intro used' rest' hused hhead
    obtain rfl := List.map_eq_nil_iff.mp hused
    cases rest' with
    | nil => exact ⟨_, _, rfl, rfl⟩
    | cons => cases hhead
  . next item rest =>
    split at h
    . next hopener =>
      obtain ⟨q, hq, h⟩ := map_eq_ok h
      obtain ⟨used, _, hrest, hall⟩ := parseParams_reads hq
      subst h
      refine ⟨item :: used, congrArg (item :: ·) hrest, ?_⟩
      intro used' rest' hused _
      obtain ⟨opener, used', rfl, hopener', hused⟩ := List.map_eq_cons_iff.mp hused
      rw [List.cons_append, parseParamList, if_pos (by rw [hopener']; exact hopener)]
      exact (hall hused _).loosen
    . next hopener =>
      cases h
      refine ⟨[], rfl, ?_⟩
      intro used' rest' hused hhead
      obtain rfl := List.map_eq_nil_iff.mp hused
      cases rest' with
      | nil => cases hhead
      | cons item' rest' =>
        simp only [Parsed.leaving, List.head?_cons, Option.map_some, Option.some.injEq] at hhead
        rw [List.nil_append, parseParamList, if_neg (by rw [hhead]; exact hopener)]
        exact ⟨_, _, rfl, rfl⟩

theorem parseHeritage_reads {items : List Item} {p : Parsed Item Span items.length}
    (h : parseHeritage items = .ok p) :
    ∃ used, used ≠ [] ∧ items = used ++ p.rest
      ∧ ∀ {used' rest' : List Item}, used'.map token = used.map token →
        Leaves rest' (fun _ => True) (parseHeritage (used' ++ rest')) := by
  cases items with
  | nil =>
    unfold parseHeritage at h
    cases h
  | cons item rest =>
    unfold parseHeritage at h
    dsimp only at h
    split at h
    . next d hd =>
      split at h
      . next heq =>
        cases h
        refine ⟨[item], by simp, rfl, ?_⟩
        intro used' rest' hused
        obtain ⟨opener, more, rfl, hopener, hmore⟩ := List.map_eq_cons_iff.mp hused
        obtain rfl := List.map_eq_nil_iff.mp hmore
        rw [List.cons_append, parseHeritage]
        simp only [hopener, hd, heq, if_true]
        exact ⟨_, _, rfl, trivial⟩
      . next hne =>
        obtain ⟨⟨close, rest', hlt⟩, hskip, h⟩ := bind_eq_ok h
        obtain ⟨⟨body, rest'', hlt'⟩, hbody, h⟩ := bind_eq_ok h
        obtain ⟨group, hrest, hgroup⟩ := skipGroup_reads hskip
        obtain ⟨tail, _, hrest', hall⟩ := parseHeritage_reads hbody
        cases h
        dsimp only at hrest hrest'
        subst hrest' hrest
        refine ⟨item :: (group ++ tail), by simp, by simp [Parsed.within, Parsed.loosen], ?_⟩
        intro used' rest' hused
        obtain ⟨opener, more, rfl, hopener, hmore⟩ := List.map_eq_cons_iff.mp hused
        rw [List.map_append] at hmore
        obtain ⟨group', tail', rfl, hgroup', htail'⟩ := List.map_eq_append_iff.mp hmore
        have hskip' : Leaves (tail' ++ rest') (fun _ => True)
            (skipGroup ⟨d, opener.span⟩ [] (group' ++ (tail' ++ rest'))) := hgroup hgroup' rfl
        rw [List.cons_append, List.append_assoc, parseHeritage]
        simp only [hopener, hd, hne, if_false]
        apply hskip'.bind
        intro closer hlt₁ _
        apply (hall htail').bind
        intro _ hlt₂ _
        exact ⟨_, _, rfl, trivial⟩
    . cases h
    . cases h
    . next hopening hsemicolon hclosing =>
      obtain ⟨q, hq, h⟩ := map_eq_ok h
      obtain ⟨used, _, hrest, hall⟩ := parseHeritage_reads hq
      subst h
      refine ⟨item :: used, by simp, congrArg (item :: ·) hrest, ?_⟩
      intro used' rest' hused
      obtain ⟨first, more, rfl, hfirst, hmore⟩ := List.map_eq_cons_iff.mp hused
      have hagain : Leaves rest' _ (parseHeritage (more ++ rest')) := hall hmore
      rw [← hfirst] at hopening hsemicolon hclosing
      unfold parseHeritage
      rw [List.cons_append]
      dsimp only
      split
      . next d h => exact absurd h (hopening d)
      . next h => exact absurd h hsemicolon
      . next d h => exact absurd h (hclosing d)
      . exact hagain.loosen
termination_by items.length
decreasing_by
  all_goals
    subst_vars
    simp only [List.length_cons]
    omega

theorem parseDottedName_reads (name : Located String) (items : List Item) :
    ∃ used, items = used ++ (parseDottedName name items).rest
      ∧ ∀ {used' rest' : List Item}, used'.map token = used.map token →
        Meets (parseDottedName name items).rest rest' → ∀ name',
        (parseDottedName name' (used' ++ rest')).rest = rest' := by
  fun_induction parseDottedName name items with
  | case1 name dot part rest text hpart hdot name' ih =>
    obtain ⟨used, hused, hall⟩ := ih
    refine ⟨dot :: part :: used, congrArg (dot :: part :: ·) hused, ?_⟩
    intro used' rest' htokens hmeets name₁
    obtain ⟨dot', more, rfl, hdot', hmore⟩ := List.map_eq_cons_iff.mp htokens
    obtain ⟨part', more, rfl, hpart', hmore⟩ := List.map_eq_cons_iff.mp hmore
    simp only [List.cons_append, parseDottedName, hdot', hdot, hpart', hpart]
    exact hall hmore hmeets _
  | case2 name dot part rest hno =>
    refine ⟨[], rfl, ?_⟩
    intro used' rest' htokens hmeets name'
    obtain rfl := List.map_eq_nil_iff.mp htokens
    rw [List.nil_append]
    cases hmeets with
    | @cons _ b _ others hb _ hnext =>
      cases others with
      | nil => rfl
      | cons c others =>
        unfold parseDottedName
        split
        . next text hdot hpart =>
          have hdot' : dot.token = .sign .dot := hb.symm.trans hdot
          have := hnext (by simp [hdot'])
          simp only [List.head?_cons, Option.map_some, Option.some.injEq] at this
          exact absurd (this.symm.trans hpart) (hno text hdot')
        . rfl
  | case3 =>
    refine ⟨[], rfl, ?_⟩
    intro used' rest' htokens hmeets name'
    obtain rfl := List.map_eq_nil_iff.mp htokens
    cases hmeets
    rfl
  | case4 name item =>
    refine ⟨[], rfl, ?_⟩
    intro used' rest' htokens hmeets name'
    obtain rfl := List.map_eq_nil_iff.mp htokens
    rw [List.nil_append]
    cases hmeets with
    | @cons _ b _ others hb _ hnext =>
      cases others with
      | nil => rfl
      | cons c others =>
        unfold parseDottedName
        split
        . next text hdot hpart =>
          have := hnext (by simp [← hb, hdot])
          cases this
        . rfl

theorem parseNamespaceName_reads {keyword : Item} {items : List Item}
    {p : Parsed Item (Located String) (items.length + 1)}
    (h : parseNamespaceName keyword items = .ok p) :
    ∃ used, items = used ++ p.rest
      ∧ ∀ {used' rest' : List Item} {keyword' : Item}, used'.map token = used.map token →
        keyword'.token = keyword.token → Meets p.rest rest' →
        Leaves rest' (fun _ => True) (parseNamespaceName keyword' (used' ++ rest')) := by
  unfold parseNamespaceName at h
  split at h
  . next hglobal =>
    cases h
    refine ⟨[], rfl, ?_⟩
    intro used' rest' keyword' hused hkeyword _
    obtain rfl := List.map_eq_nil_iff.mp hused
    unfold parseNamespaceName
    rw [if_pos (by rw [hkeyword]; exact hglobal)]
    exact ⟨_, _, rfl, trivial⟩
  . next hglobal =>
    split at h
    . cases h
    . next item rest =>
      split at h
      . next name hname =>
        cases h
        refine ⟨[item], rfl, ?_⟩
        intro used' rest' keyword' hused hkeyword _
        obtain ⟨item', more, rfl, hitem, hmore⟩ := List.map_eq_cons_iff.mp hused
        obtain rfl := List.map_eq_nil_iff.mp hmore
        unfold parseNamespaceName
        rw [if_neg (by rw [hkeyword]; exact hglobal)]
        simp only [List.cons_append, hitem, hname]
        exact ⟨_, _, rfl, trivial⟩
      . next name hname =>
        cases h
        obtain ⟨used, hused, hall⟩ := parseDottedName_reads ⟨name, item.span⟩ rest
        refine ⟨item :: used, congrArg (item :: ·) hused, ?_⟩
        intro used' rest' keyword' htokens hkeyword hmeets
        obtain ⟨item', more, rfl, hitem, hmore⟩ := List.map_eq_cons_iff.mp htokens
        unfold parseNamespaceName
        rw [if_neg (by rw [hkeyword]; exact hglobal)]
        simp only [List.cons_append, hitem, hname]
        have hrest := hall hmore hmeets ⟨name, item'.span⟩
        generalize parseDottedName ⟨name, item'.span⟩ (more ++ rest') = dotted at hrest
        obtain ⟨value, rest₁, hlt⟩ := dotted
        dsimp only at hrest
        subst hrest
        exact ⟨_, _, rfl, trivial⟩
      . cases h

theorem statementForm_congr {keyword keyword' : Item} {items others : List Item}
    (hkeyword : keyword'.token = keyword.token)
    (h : keyword.token.isIdentifier = true → Meets items others) :
    statementForm keyword' others = statementForm keyword items := by
  cases hidentifier : keyword.token.isIdentifier with
  | false =>
    have hword : ∀ word, keyword.token.isWord word = false := by
      intro word
      unfold Token.isWord
      split
      . next hname => simp [hname, Token.isIdentifier] at hidentifier
      . rfl
    have hwords : ∀ words, keyword.token.isWordOf words = false := by
      intro words
      unfold Token.isWordOf
      split
      . next hname => simp [hname, Token.isIdentifier] at hidentifier
      . rfl
    simp [statementForm, hkeyword, hword, hwords]
  | true =>
    have hmeets := h hidentifier
    have hnext := startsWith_congr hmeets.head?_eq
    have halias : ∀ p, (startsWith Token.isIdentifier items && startsWith p (others.drop 1))
        = (startsWith Token.isIdentifier items && startsWith p (items.drop 1)) := by
      intro p
      cases hmeets with
      | nil => rfl
      | @cons a b items others htoken _ hafter =>
        cases ha : a.token.isIdentifier with
        | false => simp [startsWith, ha]
        | true =>
          have := hafter (by rintro d hd; simp [hd, Token.isIdentifier] at ha)
          simp only [List.drop_one, List.tail_cons, startsWith_congr this]
    unfold statementForm
    simp only [hkeyword, hnext, halias]

end Delegation
