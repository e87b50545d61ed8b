import Delegation.Proofs.Rereading.Member
import Delegation.Proofs.WrittenType

/-!
This module contains how type expressions are read again, those that stay but for what goes inside
them as well as the unions of payloads that are written in place of others.
-/

namespace Delegation

open Item Stretch

variable (g : DelegateGraph)

namespace Stretch

theorem Remains.terminator (stop : Nat) {items : List Item} {place : Place} {last : Option Token}
    (hends : ∀ item ∈ items.head?, endsBefore place last item = true) :
    ∃ separator, items = separator ++ (Delegation.terminator stop items).rest
      ∧ ∀ {text others rest'}, Remains text false (separator.map .kept) others →
        Meets (Delegation.terminator stop items).rest rest' → Meets items (others ++ rest')
        ∧ ∀ stop', (Delegation.terminator stop' (others ++ rest')).rest = rest' := by
  obtain ⟨separator, hitems, _, hterminator⟩ := terminator_reads stop hends
  refine ⟨separator, hitems, ?_⟩
  intro text others rest' hremains hmeets
  obtain ⟨htoken, hline⟩ := hremains.of_map_kept
  have hnext := hremains.meets (isSteady_map_kept separator) hmeets
  rw [itemsOf_map_kept, ← hitems] at hnext
  refine ⟨hnext, fun stop' => hterminator htoken (hline rfl) ?_ stop'⟩
  rintro rfl
  rw [hitems]
  exact hmeets.ahead

variable (isInput : Bool)

/--
Whether what is left of `ss`, in front of what looks like `rest`, is an expression.
-/
def ExpressionRereads (collect : Bool) (what : Expectation) (ss : List Stretch) (rest : List Item) :
    Prop :=
  ∀ {text : List Char} {after others rest' : List Item}, Remains text false ss others →
    AreLoose after ss → Ahead rest rest' →
    Leaves rest' (fun type => objectsFindings g isInput type.objects = [])
      (parseExpression collect what (others ++ rest'))

end Stretch

theorem parseExpression_rereads {collect : Bool} {what : Expectation} {items : List Item}
    {p : Parsed Item TypeExpr items.length} (h : parseExpression collect what items = .ok p)
    (isInput : Bool) :
    ∃ first ss, items = first :: itemsOf ss ++ p.rest
      ∧ p.value.span = ⟨first.span.start, stopAfter first.span.stop (itemsOf ss)⟩
      ∧ Covers (objectsFindings g isInput p.value.objects) (.kept first :: ss)
      ∧ IsBalanced (first :: itemsOf ss)
      ∧ ((∀ d, first.token ≠ .opening d) → IsSteady ss)
      ∧ (∃ last, ∀ item ∈ p.rest.head?, endsBefore .statement last item = true)
      ∧ ExpressionRereads g isInput collect what (.kept first :: ss) p.rest := by
  obtain ⟨start, more, hitems, hterms, hspan⟩ := parseExpression_eq_ok h
  unfold parseExpression at h
  split at h
  . cases h
  . next item rest =>
    split at h
    . cases h
    . next hterminator =>
      obtain ⟨⟨term, rest₁, h₁⟩, hterm, h⟩ := bind_eq_ok h
      obtain ⟨_, hand, h⟩ := bind_eq_ok h
      obtain ⟨⟨os, stop⟩, rest₂, h₂, _, hrun, rfl⟩ := andMaybe_eq_ok hand
      obtain ⟨ss, hrest, hcovers, _, hnil, hreads⟩ := parseTerm_rereads g isInput hterm
      obtain ⟨ss', hrest', hcovers', hsteady', hreads'⟩ := parseRun_rereads g isInput hrun
      obtain ⟨_, _, _, _, hends⟩ := parseRun_eq_ok hrun
      have hbroken : isBrokenAfter false ss = false := hcovers.isBrokenAfter_eq
      cases h
      dsimp only [Parsed.map] at hitems hrest hrest' hends
      have hmore : more = itemsOf (ss ++ ss') := by
        rw [List.cons_append, List.cons.injEq, hrest, hrest', ← List.append_assoc] at hitems
        rw [itemsOf_append]
        exact (List.append_cancel_right hitems.2).symm
      obtain rfl : start = item := (List.cons.inj hitems).1.symm
      subst hmore
      refine ⟨start, ss ++ ss', hitems, hspan, ?_, hterms.isBalanced, ?_,
        ⟨_, hends⟩, ?_⟩
      . show Covers (objectsFindings g isInput (term.objects ++ os)) _
        rw [objectsFindings_append]
        exact hcovers.append hcovers'
      . intro hopening
        rw [hnil hopening]
        exact hsteady'
      . intro text after others rest' hremains hloose hahead
        cases hremains with
        | @kept _ _ start' _ _ htoken _ htail =>
          obtain ⟨front, back, rfl, hfront, hback⟩ := htail.of_append
          rw [hbroken] at hback
          have hloose := areLoose_append.mp hloose
          rw [List.cons_append, List.append_assoc]
          unfold parseExpression
          dsimp only
          rw [if_neg (by rw [htoken]; exact hterminator)]
          apply (hreads htoken hfront hloose.1 (back ++ rest')).bind
          rintro term' hlt ⟨hlast, hobjects⟩
          have hrun' := hreads' hback hloose.2 hahead term'.stop
          rw [← hlast] at hrun'
          apply (Leaves.andMaybe hrun').bind
          intro run hlt' hobjects'
          refine ⟨_, _, rfl, ?_⟩
          show objectsFindings g isInput (term'.objects ++ run.1) = []
          rw [objectsFindings_append, hobjects, hobjects']
          rfl

theorem ReadsTerms.exists_used {p : Item → Prop} {items rest : List Item} {os : List ObjectType}
    (h : ReadsTerms p rest items os) {place : Place}
    (hp : ∀ item, p item → ∀ last, endsBefore place last item = false) :
    ∃ used, items = used ++ rest ∧ ∀ last stop,
      (∀ item ∈ rest.head?, endsBefore place (lastAfter last used) item = true) →
      Leaves rest (fun run => run.1 = os) (parseRun true place last stop items) := by
  induction h with
  | nil =>
    refine ⟨[], rfl, ?_⟩
    intro last stop hrest
    cases rest with
    | nil =>
      unfold parseRun
      exact .leaving rfl
    | cons item rest =>
      apply (Leaves.parseRun_nil (hrest item rfl)).mono
      rintro _ rfl
      rfl
  | @cons item items next os os' hitem hterm _ ih =>
    obtain ⟨used, hnext, hrun⟩ := ih
    obtain ⟨term, hlt, hterm, rfl⟩ := hterm
    have hclosing : ∀ d, item.token ≠ .closing d := by
      intro d hd
      have := hp item hitem none
      simp [endsBefore, hd, Token.isTerminator] at this
    obtain ⟨more, hitems, _, _, hlast⟩ := parseTerm_eq_ok hterm hclosing
    refine ⟨item :: (more ++ used), by simp [hitems, hnext], ?_⟩
    intro last stop hrest
    rw [lastAfter, lastAfter_append, ← hlast] at hrest
    unfold parseRun
    rw [if_neg (by simp [hp _ hitem]), hterm]
    apply (hrun (some term.last) term.stop hrest).bind
    rintro run hlt' rfl
    exact ⟨_, _, rfl, rfl⟩

theorem objectFindings_ofProperty {isInput : Bool} {name : String} {os : List ObjectType}
    (haux : Client.isAuxMember name = false) (hwrite : Client.isNestedWrite name = false)
    (hos : objectsFindings g isInput os = []) :
    objectFindings g isInput (.ofProperty name os) = [] := by
  simp [ObjectType.ofProperty, objectFindings, membersFindings, memberFindings, memberFinding?,
    Member.name?, haux, hwrite, hos]

theorem objectsFindings_payloadUnion (isInput : Bool) (subtypes : List Ident)
    (params : List String) :
    objectsFindings g isInput (Client.payloadUnion subtypes params).objects = [] := by
  rw [Client.objects_payloadUnion]
  induction subtypes with
  | nil => rfl
  | cons subtype subtypes ih =>
    have harm :
        objectFindings g isInput (.ofProperty "scalars" [.ofProperty "delegatedType" []]) = [] := by
      apply objectFindings_ofProperty g (by decide) (by decide)
      rw [objectsFindings, objectFindings_ofProperty g (by decide) (by decide) rfl]
      rfl
    rw [List.map_cons, objectsFindings, ih, harm]
    rfl

theorem endsBefore_of_last {place : Place} {last last' : Option Token} {item : Item}
    (h : endsBefore place last item = true) (hlast : last'.any Token.continuesAfter = false) :
    endsBefore place last' item = true := by
  simp only [endsBefore, Bool.or_eq_true, Bool.and_eq_true] at h ⊢
  rcases h with h | ⟨⟨hline, _⟩, hbefore⟩
  . exact .inl h
  . exact .inr ⟨⟨hline, by simp [hlast]⟩, hbefore⟩

theorem lastAfter_eq (last : Option Token) (items : List Item) :
    lastAfter last items = (items.map token).getLast?.or last := by
  induction items generalizing last with
  | nil => rfl
  | cons item items ih =>
    rw [lastAfter, ih, List.map_cons, List.getLast?_cons]
    cases (items.map token).getLast? <;> rfl

theorem reads_inj {cs : List Char} {ts us : List Token} (h : Reads [] cs ts) (h' : Reads [] cs us) :
    ts = us := by
  obtain ⟨ls, hls, rfl⟩ := lexes_of_reads h 0
  obtain ⟨ls', hls', rfl⟩ := lexes_of_reads h' 0
  have := (tokenize_eq_ok.mpr hls).symm.trans (tokenize_eq_ok.mpr hls')
  cases this
  rfl

theorem parseTerm_isOnNewLine (collect : Bool) (item : Item) (isOnNewLine : Bool)
    (rest : List Item) :
    parseTerm collect { item with isOnNewLine := isOnNewLine } rest
      = parseTerm collect item rest := by
  unfold parseTerm
  rfl

theorem Leaves.parseExpression {item : Item} {items rest : List Item} {os : List ObjectType}
    {stop : Nat} (h : Leaves rest (fun run => run.1 = os)
      (parseRun true .statement none stop ({ item with isOnNewLine := false } :: items)))
    (hitem : item.token.isTerminator = false)
    (what : Expectation) :
    Leaves rest (fun type => type.objects = os)
      (Delegation.parseExpression true what (item :: items)) := by
  obtain ⟨run, hlt, hrun, rfl⟩ := h
  unfold parseRun at hrun
  rw [if_neg (by simp [endsBefore, hitem])] at hrun
  obtain ⟨⟨term, next, h₁⟩, hterm, hrun⟩ := bind_eq_ok hrun
  obtain ⟨⟨run', rest', h₂⟩, hrun', hvalue⟩ := bind_eq_ok hrun
  cases hvalue
  rw [parseTerm_isOnNewLine] at hterm
  unfold Delegation.parseExpression
  dsimp only
  rw [if_neg (by simp [hitem])]
  have hterm : Leaves next (fun found => found = term) (parseTerm true item items) :=
    ⟨_, _, hterm, rfl⟩
  have hrun : Leaves rest' (fun found => found = run')
      (parseRun true .statement (some term.last) term.stop next) := ⟨_, _, hrun', rfl⟩
  apply hterm.bind
  rintro _ hlt' rfl
  apply (Leaves.andMaybe hrun).bind
  rintro _ hlt' rfl
  exact ⟨_, _, rfl, rfl⟩

theorem Stretch.IsWritten.leaves_parseExpression {text : List Char} {subtypes : List Ident}
    {params : List String} {first : Item} {more rest : List Item}
    (h : IsWritten text (Client.payloadUnion subtypes params).render first more)
    (hne : subtypes ≠ []) (hparams : ∀ p ∈ params, IsName p)
    {last : Option Token} (hrest : ∀ item ∈ rest.head?, endsBefore .statement last item = true)
    (isInput : Bool)
    (what : Expectation) :
    Leaves rest (fun type => objectsFindings g isInput type.objects = []
        ∧ type.span = ⟨first.span.start, stopAfter first.span.stop more⟩)
      (parseExpression true what (first :: more ++ rest)) := by
  have htokens : (first :: more).map token = (Client.payloadUnion subtypes params).tokens :=
    reads_inj h.reads (Client.reads_payloadUnion hne hparams [])
  have hobjects : Leaves rest (fun type => objectsFindings g isInput type.objects = [])
      (parseExpression true what (first :: more ++ rest)) := by
    have hstand : StandFor (Client.payloadUnion subtypes params).tokens
        ({ first with isOnNewLine := false } :: more) := by
      refine ⟨htokens, ?_⟩
      rw [List.forall_mem_cons]
      exact ⟨rfl, h.isOnNewLine⟩
    obtain ⟨os, hos, hreads⟩ := readsTerms_tokens _ hstand rest
    have hfindings : objectsFindings g isInput os = [] := by
      have := objectsFindings_relocate (fun _ => 0) g isInput os
      rw [hos, objectsFindings_payloadUnion] at this
      exact List.map_eq_nil_iff.mp this.symm
    obtain ⟨used, hused, hrun⟩ := hreads.exists_used
      fun _ hitem => hitem.endsBefore_eq .statement
    have hbehind := hrun none
    obtain rfl := List.append_cancel_right hused
    have hlast : lastAfter none ({ first with isOnNewLine := false } :: more)
        = some (.closing .paren) := by
      rw [lastAfter_eq, hstand.map_token]
      cases subtypes with
      | nil => exact absurd rfl hne
      | cons subtype subtypes => rw [Client.getLast?_tokens_payloadUnion]; rfl
    have hfirst : first.token = .opening .paren := by
      cases subtypes with
      | nil => exact absurd rfl hne
      | cons subtype subtypes => exact (List.cons.inj htokens).1
    rw [hlast] at hbehind
    have hrun := hbehind 0 fun item hitem => endsBefore_of_last (hrest item hitem) rfl
    apply (hrun.parseExpression (by rw [hfirst]; rfl) what).mono
    rintro type rfl
    exact hfindings
  obtain ⟨type, hlt, hparse, hobjects⟩ := hobjects
  obtain ⟨start, used, hitems, _, hspan⟩ := parseExpression_eq_ok hparse
  obtain ⟨rfl, hmore⟩ := List.cons.inj hitems
  obtain rfl := List.append_cancel_right hmore
  exact ⟨type, hlt, hparse, hobjects, hspan⟩

end Delegation
