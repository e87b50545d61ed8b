import Delegation.Proofs.Grammar.Params

/-!
This module contains what parsers see of the items that they leave. A member ends in the same way
in front of other items than before if these look alike to it, and what is read in front of them
depends on nothing but the tokens.
-/

namespace Delegation

open Item

/--
Whether a member that ends in front of `items` also ends in front of `others`. These begin with the
same item, or with one that neither opens a signature nor goes on with the line above, where another
member began before.
-/
inductive Ahead : List Item → List Item → Prop where
  | nil : Ahead [] []
  | same {a b : Item} {items others : List Item} (htoken : b.token = a.token)
    (hline : b.isOnNewLine = a.isOnNewLine)
    (hnext : a.token = .sign .plus ∨ a.token = .sign .minus →
      startsWith (· == .sign .question) others = true →
      startsWith (· == .sign .question) items = true) : Ahead (a :: items) (b :: others)
  | parted {a b : Item} {items others : List Item} (ha : a.token.startsMemberName = true)
    (hline : a.isOnNewLine = true → b.isOnNewLine = true)
    (hopens : b.token.opensSignature = false) (hbefore : b.token.continuesBefore = false)
    (hbang : b.token ≠ .sign .bang)
    (hnext : b.token = .sign .plus ∨ b.token = .sign .minus →
      startsWith (· == .sign .question) others = false) : Ahead (a :: items) (b :: others)

/--
Whether a statement that ends in front of `items` also ends in front of `others`, and the next one
begins in the same way: they agree in the first item and, unless it opens a group, in the token
behind it.
-/
inductive Meets : List Item → List Item → Prop where
  | nil : Meets [] []
  | cons {a b : Item} {items others : List Item} (htoken : b.token = a.token)
    (hline : b.isOnNewLine = a.isOnNewLine)
    (hnext : (∀ d, a.token ≠ .opening d) → others.head?.map token = items.head?.map token) :
    Meets (a :: items) (b :: others)

theorem startsWith_congr {items others : List Item}
    (h : others.head?.map token = items.head?.map token) (p : Token → Bool) :
    startsWith p others = startsWith p items := by
  cases items with
  | nil =>
    cases others with
    | nil => rfl
    | cons => cases h
  | cons item items =>
    cases others with
    | nil => cases h
    | cons other others =>
      simp only [List.head?_cons, Option.map_some, Option.some.injEq] at h
      simp [startsWith, h]

namespace Meets

variable {items others : List Item}

theorem head?_eq (h : Meets items others) : others.head?.map token = items.head?.map token := by
  cases h with
  | nil => rfl
  | cons htoken => simp [htoken]

theorem ahead (h : Meets items others) : Ahead items others := by
  cases h with
  | nil => exact .nil
  | cons htoken hline hnext =>
    refine .same htoken hline ?_
    intro hsign hquestion
    rw [startsWith_congr (hnext ?_)] at hquestion
    . exact hquestion
    . rcases hsign with h | h <;> simp [h]

end Meets

namespace Ahead

variable {items others : List Item}

theorem opensSignature_eq (h : Ahead items others) :
    startsWith Token.opensSignature others = startsWith Token.opensSignature items := by
  cases h with
  | nil => rfl
  | same htoken => simp [startsWith, htoken]
  | @parted a b _ _ ha _ hopens =>
    have : a.token.opensSignature = false := by
      unfold Token.opensSignature
      split
      . next h => simp [h, Token.startsMemberName] at ha
      . next h => simp [h, Token.startsMemberName] at ha
      . rfl
    simp [startsWith, hopens, this]

theorem isOnNewLine_of_endsBefore {item : Item} {place : Place} {last : Option Token}
    (hitem : item.token.startsMemberName = true) (h : endsBefore place last item = true) :
    item.isOnNewLine = true ∧ last.any Token.continuesAfter = false := by
  simp only [endsBefore, Bool.or_eq_true, Bool.and_eq_true, beq_iff_eq, Bool.not_eq_true'] at h
  rcases h with (hterminator | ⟨hcomma, _⟩) | ⟨⟨hbroken, hlast⟩, _⟩
  . unfold Token.isTerminator at hterminator
    split at hterminator
    . next h => simp [h, Token.startsMemberName] at hitem
    . next h => simp [h, Token.startsMemberName] at hitem
    . cases hterminator
  . simp [hcomma, Token.startsMemberName] at hitem
  . exact ⟨hbroken, hlast⟩

theorem endsBefore (h : Ahead items others) {place : Place} {last : Option Token}
    (hitems : ∀ item ∈ items.head?, endsBefore place last item = true) :
    ∀ item ∈ others.head?, Delegation.endsBefore place last item = true := by
  cases h with
  | nil => simp
  | @same a b _ _ htoken hline =>
    intro item hitem
    cases hitem
    have := hitems a rfl
    rwa [Delegation.endsBefore, ← htoken, ← hline] at this
  | @parted a b _ _ ha hline _ hbefore =>
    intro item hitem
    cases hitem
    obtain ⟨hbroken, hlast⟩ := isOnNewLine_of_endsBefore ha (hitems a rfl)
    simp [Delegation.endsBefore, hline hbroken, hlast, hbefore]

theorem question (h : Ahead items others)
    (hothers : startsWith (· == .sign .question) others = true) :
    startsWith (· == .sign .question) items = true := by
  cases h with
  | nil => cases hothers
  | same htoken => simpa [startsWith, htoken] using hothers
  | parted _ _ _ hbefore =>
    simp only [startsWith, beq_iff_eq] at hothers
    simp [hothers, Token.continuesBefore] at hbefore

theorem isMemberModifier (h : Ahead items others) {item other : Item}
    (htoken : other.token = item.token)
    (hsign : item.token ≠ .sign .plus ∧ item.token ≠ .sign .minus)
    (hitems : ∀ next ∈ items.head?, isMemberModifier item next = false) :
    ∀ next ∈ others.head?, Delegation.isMemberModifier other next = false := by
  cases h with
  | nil => simp
  | @same a b _ _ hb =>
    intro next hnext
    cases hnext
    have := hitems a rfl
    rwa [Delegation.isMemberModifier, ← htoken, ← hb] at this
  | @parted a b _ _ ha =>
    intro next hnext
    cases hnext
    have := hitems a rfl
    unfold Delegation.isMemberModifier at this ⊢
    rw [htoken]
    split at this
    . next h => exact absurd h hsign.1
    . next h => exact absurd h hsign.2
    . simp only [ha, Bool.and_true] at this
      simp [this]

end Ahead

theorem isMemberModifier_congr {a b a' b' : Item} (ha : a'.token = a.token)
    (hb : b'.token = b.token) : isMemberModifier a' b' = isMemberModifier a b := by
  rw [isMemberModifier, isMemberModifier, ha, hb]

theorem token_eq_of_append {item item' first first' : Item} {front front' items others : List Item}
    {rest rest' : List Item} (h : item :: items = front ++ first :: rest)
    (h' : item' :: others = front' ++ first' :: rest') (hfront : front'.map token = front.map token)
    (hfirst : first'.token = first.token) : item'.token = item.token := by
  cases front with
  | nil =>
    obtain rfl := List.map_eq_nil_iff.mp hfront
    cases h
    cases h'
    exact hfirst
  | cons x front =>
    obtain ⟨x', front', rfl, hx, _⟩ := List.map_eq_cons_iff.mp hfront
    cases h
    cases h'
    exact hx

theorem skipMemberModifiers_reads (item : Item) (rest : List Item) :
    ∃ mods, item :: rest = mods ++ (skipMemberModifiers item rest).value
        :: (skipMemberModifiers item rest).rest
      ∧ ∀ {mods' rest' others : List Item} {first item' : Item},
        mods'.map token = mods.map token →
        first.token = (skipMemberModifiers item rest).value.token →
        first.token ≠ .sign .plus ∧ first.token ≠ .sign .minus →
        Ahead (skipMemberModifiers item rest).rest rest' →
        item' :: others = mods' ++ first :: rest' →
        (skipMemberModifiers item' others).value = first
          ∧ (skipMemberModifiers item' others).rest = rest' := by
  induction rest generalizing item with
  | nil =>
    refine ⟨[], rfl, ?_⟩
    intro mods' rest' others first item' hmods hfirst _ hahead heq
    obtain rfl := List.map_eq_nil_iff.mp hmods
    cases hahead
    cases heq
    exact ⟨rfl, rfl⟩
  | cons next rest ih =>
    unfold skipMemberModifiers
    split
    . next hmodifier =>
      obtain ⟨mods, hused, hall⟩ := ih next
      refine ⟨item :: mods, congrArg (item :: ·) hused, ?_⟩
      intro mods' rest' others first item' hmods hfirst hsign hahead heq
      cases mods' with
      | nil => cases hmods
      | cons mod mods' =>
        rw [List.map_cons, List.map_cons, List.cons.injEq] at hmods
        cases heq
        obtain ⟨x, xs, hx⟩ := List.exists_cons_of_ne_nil (by simp : mods' ++ first :: rest' ≠ [])
        have hx' : x.token = next.token := token_eq_of_append hused hx.symm hmods.2 hfirst
        have hskip := hall hmods.2 hfirst hsign hahead hx.symm
        have hagain : isMemberModifier item' x = true := by
          rw [isMemberModifier_congr hmods.1 hx']
          exact hmodifier
        rw [List.append_eq, hx]
        simp only [hagain, if_true]
        exact hskip
    . next hmodifier =>
      refine ⟨[], rfl, ?_⟩
      intro mods' rest' others first item' hmods hfirst hsign hahead heq
      obtain rfl := List.map_eq_nil_iff.mp hmods
      cases heq
      have hnone := hahead.isMemberModifier hfirst (by rw [← hfirst]; exact hsign) (by
        intro x hx
        cases hx
        simpa [Parsed.leaving] using hmodifier)
      cases rest' with
      | nil => exact ⟨rfl, rfl⟩
      | cons b others =>
        simp only [hnone b rfl]
        exact ⟨rfl, rfl⟩

theorem signatureStart?_reads {first start : Item} {rest rest' : List Item} {kind : MemberKind}
    {hlt : rest'.length < rest.length + 1}
    (h : signatureStart? first rest = some (kind, ⟨start, rest', hlt⟩)) :
    ∃ used, first :: rest = used ++ start :: rest'
      ∧ ∀ {used' others others' : List Item} {start' first' : Item},
        used'.map token = used.map token → start'.token = start.token →
        first' :: others = used' ++ start' :: others' →
        ∃ hlt', signatureStart? first' others = some (kind, ⟨start', others', hlt'⟩) := by
  unfold signatureStart? at h
  split at h
  . next hopens =>
    cases h
    refine ⟨[], rfl, ?_⟩
    intro used' others others' start' first' hused hstart heq
    obtain rfl := List.map_eq_nil_iff.mp hused
    cases heq
    unfold signatureStart?
    rw [hstart, if_pos hopens]
    exact ⟨_, rfl⟩
  . next hopens =>
    split at h
    . next next rest'' =>
      split at h
      . next hnew =>
        cases h
        refine ⟨[first], rfl, ?_⟩
        intro used' others others' start' first' hused hstart heq
        obtain ⟨x, xs, rfl, hx, hxs⟩ := List.map_eq_cons_iff.mp hused
        obtain rfl := List.map_eq_nil_iff.mp hxs
        cases heq
        have hnew' : (first'.token.isWord "new" && start'.token.opensSignature) = true := by
          rw [hx, hstart]
          exact hnew
        unfold signatureStart?
        rw [hx, if_neg hopens, ← hx]
        simp only [List.append_eq, List.nil_append, hnew', if_true]
        exact ⟨(Parsed.leaving start' others').loosen.rest_lt, rfl⟩
      . cases h
    . cases h

theorem signatureStart?_eq_none {first first' : Item} {rest others : List Item}
    (h : signatureStart? first rest = none) (hfirst : first'.token = first.token)
    (hahead : Ahead rest others) : signatureStart? first' others = none := by
  have hopens : first.token.opensSignature = false := by
    unfold signatureStart? at h
    split at h
    . cases h
    . next hopens => simpa using hopens
  have hnew : first.token.isWord "new" = true → startsWith Token.opensSignature rest = false := by
    intro hword
    unfold signatureStart? at h
    rw [if_neg (by simp [hopens])] at h
    cases rest with
    | nil => rfl
    | cons next rest => simpa [hword, startsWith] using h
  unfold signatureStart?
  rw [hfirst, if_neg (by simp [hopens])]
  cases others with
  | nil => rfl
  | cons next others =>
    cases hword : first.token.isWord "new" with
    | false => rfl
    | true =>
      have := hahead.opensSignature_eq.trans (hnew hword)
      simp only [startsWith] at this
      simp [this]

theorem skipGroup_reads {opening : OpenDelimiter} {items : List Item}
    {p : Parsed Item Item items.length} (h : skipGroup opening [] items = .ok p) :
    ∃ used, items = used ++ p.rest
      ∧ ∀ {used' rest' : List Item} {opening' : OpenDelimiter}, used'.map token = used.map token →
        opening'.delimiter = opening.delimiter →
        Leaves rest' (fun _ => True) (skipGroup opening' [] (used' ++ rest')) := by
  obtain ⟨inner, hitems, hcloser, hinner⟩ := skipGroup_eq_ok h
  refine ⟨inner ++ [p.value], by simpa using hitems, ?_⟩
  intro used' rest' opening' hused hopening
  rw [List.map_append] at hused
  obtain ⟨inner', back, rfl, hinner', hback⟩ := List.map_eq_append_iff.mp hused
  obtain ⟨closer, more, rfl, hcloser', hmore⟩ := List.map_eq_cons_iff.mp hback
  obtain rfl := List.map_eq_nil_iff.mp hmore
  have hbalanced : IsBalanced inner' := by
    rw [IsBalanced, nest?_congr hinner']
    exact hinner
  have hskip : Leaves rest' (· = closer) (skipGroup opening' [] (inner' ++ closer :: rest')) :=
    hbalanced.leaves_skipGroup (by rw [hcloser', hopening]; exact hcloser)
  rw [List.append_assoc]
  exact hskip.mono fun _ _ => trivial

theorem memberHead_reads {first : Item} {rest : List Item}
    {p : Parsed Item MemberHead (rest.length + 1)} (h : memberHead first rest = .ok p) :
    first.token ≠ .sign .plus ∧ first.token ≠ .sign .minus ∧ ∃ used, rest = used ++ p.rest
      ∧ ∀ {used' rest' : List Item} {first' : Item}, used'.map token = used.map token →
        first'.token = first.token →
        startsWith Token.opensSignature rest' = startsWith Token.opensSignature p.rest →
        Leaves rest' (fun head => head.kind = p.value.kind
          ∧ head.name.map (·.value) = p.value.name.map (·.value))
          (memberHead first' (used' ++ rest')) := by
  unfold memberHead at h
  split at h
  case h_4 hfirst =>
    obtain ⟨name, hname, h⟩ := bind_eq_ok h
    obtain ⟨item, text, hrest, hitem, hvalue⟩ := parseName_eq_ok hname
    cases h
    refine ⟨by simp [hfirst], by simp [hfirst], [item], hrest, ?_⟩
    intro used' rest' first' hused hfirst' _
    obtain ⟨item', more, rfl, hitem', hmore⟩ := List.map_eq_cons_iff.mp hused
    obtain rfl := List.map_eq_nil_iff.mp hmore
    simp only [memberHead, hfirst', hfirst]
    apply (leaves_parseName (hitem'.trans hitem)).bind
    rintro located hlt hlocated
    refine ⟨_, _, rfl, rfl, ?_⟩
    simp [Parsed.map, Parsed.loosen, hlocated, hvalue]
  case h_5 hfirst =>
    obtain ⟨close, hclose, h⟩ := bind_eq_ok h
    obtain ⟨used, hrest, hall⟩ := skipGroup_reads hclose
    cases h
    refine ⟨by simp [hfirst], by simp [hfirst], used, hrest, ?_⟩
    intro used' rest' first' hused hfirst' hopens
    simp only [memberHead, hfirst', hfirst]
    have hskip : Leaves rest' (fun _ => True)
        (skipGroup ⟨.bracket, first'.span⟩ [] (used' ++ rest')) := hall hused rfl
    apply hskip.bind
    intro closer hlt _
    refine ⟨_, _, rfl, ?_⟩
    simp only [Parsed.map, Parsed.loosen] at hopens ⊢
    simp [hopens]
  case h_6 => cases h
  all_goals
    next hfirst =>
    cases h
    refine ⟨by simp [hfirst], by simp [hfirst], [], rfl, ?_⟩
    intro used' rest' first' hused hfirst' _
    obtain rfl := List.map_eq_nil_iff.mp hused
    simp only [memberHead, hfirst', hfirst]
    exact ⟨_, _, rfl, rfl, by simp [Parsed.leaving]⟩

def hasMark : List Item → Bool
  | [] => false
  | item :: items => item.token == .sign .question || item.token == .sign .bang
    || (item.token == .sign .plus || item.token == .sign .minus)
      && startsWith (· == .sign .question) items

theorem optionalMark_of_hasMark {items : List Item} (h : hasMark items = false) (stop : Nat) :
    optionalMark stop items = .leaving (false, stop) items := by
  fun_cases optionalMark stop items with
  | case1 => rfl
  | case2 item rest hitem => simp [hasMark, hitem] at h
  | case3 item rest hitem => simp [hasMark, hitem] at h
  | case4 item next rest hitem hnext => simp [hasMark, hitem, startsWith, beq_iff_eq.mp hnext] at h
  | case5 item next rest hitem hnext => simp [optionalMark, hitem, hnext]
  | case6 item next rest hitem hnext => simp [hasMark, hitem, startsWith, beq_iff_eq.mp hnext] at h
  | case7 item next rest hitem hnext => simp [optionalMark, hitem, hnext]
  | case8 => simp [optionalMark]

theorem Ahead.hasMark_eq_false {items others : List Item} (h : Ahead items others)
    (hitems : hasMark items = false) : hasMark others = false := by
  cases h with
  | nil => rfl
  | @same a b items others htoken _ hnext =>
    simp only [hasMark, Bool.or_eq_false_iff, Bool.and_eq_false_imp, Bool.or_eq_true,
      beq_iff_eq] at hitems ⊢
    rw [htoken]
    refine ⟨hitems.1, ?_⟩
    intro hsign
    cases hquestion : startsWith (· == .sign .question) others with
    | false => rfl
    | true =>
      have := hnext hsign hquestion
      rw [hitems.2 hsign] at this
      cases this
  | @parted a b items others _ _ _ hbefore hbang hnext =>
    simp only [hasMark, Bool.or_eq_false_iff, Bool.and_eq_false_imp, Bool.or_eq_true, beq_iff_eq]
    refine ⟨⟨?_, by simpa using hbang⟩, hnext⟩
    cases hb : b.token == .sign .question with
    | false => rfl
    | true =>
      rw [beq_iff_eq] at hb
      simp [hb, Token.continuesBefore] at hbefore

theorem optionalMark_reads (stop : Nat) (items : List Item) :
    ∃ mark, items = mark ++ (optionalMark stop items).rest
      ∧ ∀ {mark' rest' : List Item}, mark'.map token = mark.map token →
        Ahead (optionalMark stop items).rest rest' → ∀ stop',
        (optionalMark stop' (mark' ++ rest')).rest = rest' := by
  cases hmark : hasMark items with
  | false =>
    rw [optionalMark_of_hasMark hmark]
    refine ⟨[], rfl, ?_⟩
    intro mark' rest' hnil hahead stop'
    obtain rfl := List.map_eq_nil_iff.mp hnil
    rw [List.nil_append, optionalMark_of_hasMark (hahead.hasMark_eq_false hmark)]
    rfl
  | true =>
    have one : ∀ {item : Item} {mark' : List Item}, mark'.map token = [item].map token →
        ∃ x, mark' = [x] ∧ x.token = item.token := by
      intro item mark' h
      obtain ⟨x, more, rfl, hx, hmore⟩ := List.map_eq_cons_iff.mp h
      exact ⟨x, by rw [List.map_eq_nil_iff.mp hmore], hx⟩
    have two : ∀ {item next : Item} {mark' : List Item},
        mark'.map token = [item, next].map token →
        ∃ x y, mark' = [x, y] ∧ x.token = item.token ∧ y.token = next.token := by
      intro item next mark' h
      obtain ⟨x, more, rfl, hx, hmore⟩ := List.map_eq_cons_iff.mp h
      obtain ⟨y, rfl, hy⟩ := one hmore
      exact ⟨x, y, rfl, hx, hy⟩
    fun_cases optionalMark stop items with
    | case1 => cases hmark
    | case2 item rest hitem =>
      refine ⟨[item], by simp [optionalMark, hitem, Parsed.leaving, Parsed.loosen], ?_⟩
      intro mark' rest' hmark' _ stop'
      obtain ⟨x, rfl, hx⟩ := one hmark'
      simp [optionalMark, hx, hitem, Parsed.leaving, Parsed.loosen]
    | case3 item rest hitem =>
      refine ⟨[item], by simp [optionalMark, hitem, Parsed.leaving, Parsed.loosen], ?_⟩
      intro mark' rest' hmark' _ stop'
      obtain ⟨x, rfl, hx⟩ := one hmark'
      simp [optionalMark, hx, hitem, Parsed.leaving, Parsed.loosen]
    | case4 item next rest hitem hnext =>
      refine ⟨[item, next], by simp [optionalMark, hitem, hnext, Parsed.leaving, Parsed.loosen], ?_⟩
      intro mark' rest' hmark' _ stop'
      obtain ⟨x, y, rfl, hx, hy⟩ := two hmark'
      simp [optionalMark, hx, hitem, hy, beq_iff_eq.mp hnext, Parsed.leaving, Parsed.loosen]
    | case5 item next rest hitem hnext => simp_all [hasMark, startsWith]
    | case6 item next rest hitem hnext =>
      refine ⟨[item, next], by simp [optionalMark, hitem, hnext, Parsed.leaving, Parsed.loosen], ?_⟩
      intro mark' rest' hmark' _ stop'
      obtain ⟨x, y, rfl, hx, hy⟩ := two hmark'
      simp [optionalMark, hx, hitem, hy, beq_iff_eq.mp hnext, Parsed.leaving, Parsed.loosen]
    | case7 item next rest hitem hnext => simp_all [hasMark, startsWith]
    | case8 item rest hquestion hbang hplus hminus =>
      exfalso
      cases rest with
      | nil => simp_all [hasMark, startsWith]
      | cons next rest => simp_all [hasMark, startsWith]

theorem terminator_reads (stop : Nat) {items : List Item} {place : Place} {last : Option Token}
    (hends : ∀ item ∈ items.head?, endsBefore place last item = true) :
    ∃ separator, items = separator ++ (terminator stop items).rest
      ∧ (∀ item ∈ separator, item.isSeparator)
      ∧ ∀ {separator' rest' : List Item}, separator'.map token = separator.map token →
        separator'.map isOnNewLine = separator.map isOnNewLine →
        (separator = [] → Ahead items rest') → ∀ stop',
        (terminator stop' (separator' ++ rest')).rest = rest' := by
  cases items with
  | nil =>
    refine ⟨[], rfl, by simp, ?_⟩
    intro separator' rest' htoken _ hahead stop'
    obtain rfl := List.map_eq_nil_iff.mp htoken
    cases hahead rfl
    rfl
  | cons item items =>
    cases hitem : (item.token == .sign .semicolon || item.token == .sign .comma)
        && !item.isOnNewLine with
    | true =>
      refine ⟨[item], by simp [terminator, hitem, Parsed.leaving, Parsed.loosen], ?_, ?_⟩
      . intro x hx
        cases List.mem_singleton.mp hx
        simp only [Bool.and_eq_true, Bool.or_eq_true, beq_iff_eq] at hitem
        exact hitem.1
      . intro separator' rest' htoken hline _ stop'
        obtain ⟨x, more, rfl, hx, hmore⟩ := List.map_eq_cons_iff.mp htoken
        obtain rfl := List.map_eq_nil_iff.mp hmore
        simp only [List.map_cons, List.map_nil, List.cons.injEq, and_true] at hline
        rw [← hx, ← hline] at hitem
        simp [terminator, hitem, Parsed.leaving, Parsed.loosen]
    | false =>
      refine ⟨[], by simp [terminator, hitem, Parsed.leaving], by simp, ?_⟩
      intro separator' rest' htoken _ hahead stop'
      obtain rfl := List.map_eq_nil_iff.mp htoken
      rw [List.nil_append]
      cases hahead rfl with
      | same htoken hline =>
        rw [← htoken, ← hline] at hitem
        simp [terminator, hitem, Parsed.leaving]
      | @parted _ b _ others ha hline =>
        have hbroken := hline (Ahead.isOnNewLine_of_endsBefore ha (hends item rfl)).1
        simp [terminator, hbroken, Parsed.leaving]

end Delegation
