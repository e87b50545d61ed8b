import Delegation.Proofs.Grammar.DeclarationHead
import Delegation.Proofs.Rereading.Expression

/-!
This module contains what is found in a declaration file that is settled. The payloads of delegates
are found again as they have to be, and so are their type aliases.
-/

namespace Delegation

open Item Stretch

variable (g : DelegateGraph)

def Summary.withoutRemovals (s : Summary) : Summary :=
  { s with auxMembers := 0, nestedWrites := 0, creatingMethods := 0 }

/--
Whether `findings'` in `text` are what is left of `findings`: the same payloads, which already are
what they have to be, and the same inputs.
-/
structure AreSettled (text : List Char) (findings findings' : List Finding) : Prop where
  slice : ∀ e ∈ editsFor findings', ∃ span new, e = .replacement span new
    ∧ span.slice? text = some new
  summary : Summary.ofFindings findings' = (Summary.ofFindings findings).withoutRemovals

namespace AreSettled

variable {text : List Char} {findings findings' found found' : List Finding}

theorem append (h : AreSettled text findings findings') (h' : AreSettled text found found') :
    AreSettled text (findings ++ found) (findings' ++ found') where
  slice := by
    intro e he
    rw [editsFor_append, List.mem_append] at he
    rcases he with he | he
    . exact h.slice e he
    . exact h'.slice e he
  summary := by
    have hsummary := h.summary
    have hsummary' := h'.summary
    simp only [Summary.ofFindings, Summary.withoutRemovals, Summary.mk.injEq]
      at hsummary hsummary' ⊢
    simp only [List.countP_append]
    omega

theorem of_removals (h : ∀ f ∈ findings, ∃ span, f.edit? = some (.removal span)) :
    AreSettled text findings [] where
  slice := by
    intro e he
    cases he
  summary := by
    have hzero : ∀ p : Finding → Bool,
        (∀ f span, p f = true → f.edit? ≠ some (.removal span)) → findings.countP p = 0 := by
      intro p hp
      rw [List.countP_eq_zero]
      intro f hf hpf
      obtain ⟨span, hspan⟩ := h f hf
      exact hp f span hpf hspan
    simp only [Summary.ofFindings, Summary.withoutRemovals, List.countP_nil, Summary.mk.injEq,
      and_true]
    refine ⟨(hzero _ ?_).symm, (hzero _ ?_).symm⟩
    all_goals
      intro f span hf
      cases f <;> simp [Finding.edit?] at hf ⊢

theorem refl (h : ∀ f ∈ findings, f.edit? = none) : AreSettled text findings findings where
  slice := by
    intro e he
    obtain ⟨f, hf, hedit⟩ := List.mem_filterMap.mp he
    rw [h f hf] at hedit
    cases hedit
  summary := by
    have hzero : ∀ p : Finding → Bool, (∀ f, p f = true → f.edit? ≠ none) →
        findings.countP p = 0 := by
      intro p hp
      rw [List.countP_eq_zero]
      intro f hf hpf
      exact hp f hpf (h f hf)
    simp only [Summary.ofFindings, Summary.withoutRemovals, Summary.mk.injEq, true_and]
    refine ⟨hzero _ ?_, hzero _ ?_, hzero _ ?_⟩
    all_goals
      intro f hf
      cases f <;> simp [Finding.edit?] at hf ⊢

theorem objects (isInput : Bool) (os : List ObjectType) :
    AreSettled text (objectsFindings g isInput os) [] :=
  of_removals (edit?_of_mem_objects g isInput os)

theorem members (isInput : Bool) (owner : Owner) (ms : List Member) :
    AreSettled text (membersFindings g isInput owner ms) [] :=
  of_removals (edit?_of_mem_members g isInput owner ms)

end AreSettled

def IsSettled (text : List Char) (s s' : Statement) : Prop :=
  AreSettled text (statementFindings g s) (statementFindings g s')

theorem isSettled_typeAlias {text : List Char} {a a' : TypeAlias}
    (hname : a'.name.value = a.name.value)
    (hpayload : AreSettled text (payloadFinding? g a).toList (payloadFinding? g a').toList)
    (hobjects : ∀ isInput, isInput = (Client.inputAliasDelegate? a.name.value g).isSome →
      objectsFindings g isInput a'.type.objects = []) :
    IsSettled g text (.typeAlias a) (.typeAlias a') := by
  unfold IsSettled
  rw [statementFindings, statementFindings, hname, hobjects _ rfl]
  refine (hpayload.append (.refl ?_)).append (.objects g _ _)
  simp [Finding.edit?]

theorem isSettled_interfaceBlock {text : List Char} {b b' : MemberBlock}
    (hname : b'.name.value = b.name.value)
    (hmembers : membersFindings g false (.interfaceBlock b') b'.members = []) :
    IsSettled g text (.interfaceBlock b) (.interfaceBlock b') := by
  have haccessor : b'.isAccessor g = b.isAccessor g := by
    rw [MemberBlock.isAccessor, MemberBlock.isAccessor, hname]
  unfold IsSettled
  rw [statementFindings, statementFindings, hmembers, haccessor, hname]
  refine .append (.refl ?_) (.members g _ _ _)
  split
  . simp [Finding.edit?]
  . simp

theorem isSettled_classBlock {text : List Char} {b b' : MemberBlock}
    (hmembers : membersFindings g false (.classBlock b') b'.members = []) :
    IsSettled g text (.classBlock b) (.classBlock b') := by
  unfold IsSettled
  rw [statementFindings, statementFindings, hmembers]
  exact .members g _ _ _

theorem isSettled_other {text : List Char} {os os' : List ObjectType} {span span' : Span}
    (h : objectsFindings g false os' = []) :
    IsSettled g text (.other os span) (.other os' span') := by
  unfold IsSettled
  rw [statementFindings, statementFindings, h]
  exact .objects g _ _

theorem payloadFinding?_cases (name : String) (params : List String) :
    (∀ a : TypeAlias, a.name.value = name → a.params.map (·.name.value) = params →
        payloadFinding? g a = none)
      ∨ (∃ delegate, ∀ a : TypeAlias, a.name.value = name →
        a.params.map (·.name.value) = params → payloadFinding? g a = some (.emptyDelegate delegate))
      ∨ ∃ subtypes, subtypes ≠ [] ∧ ∀ a : TypeAlias, a.name.value = name →
        a.params.map (·.name.value) = params →
        payloadFinding? g a = some (.payload name a.type.span subtypes params) := by
  cases hentity : Client.payloadEntity? name with
  | none =>
    refine .inl ?_
    rintro a rfl _
    simp [payloadFinding?, hentity]
  | some delegate =>
    cases hsubtypes : g.subtypes? delegate with
    | none =>
      refine .inl ?_
      rintro a rfl _
      simp [payloadFinding?, hentity, hsubtypes]
    | some subtypes =>
      cases subtypes with
      | nil =>
        refine .inr (.inl ⟨delegate, ?_⟩)
        rintro a rfl _
        simp [payloadFinding?, hentity, hsubtypes]
      | cons subtype subtypes =>
        refine .inr (.inr ⟨subtype :: subtypes, by simp, ?_⟩)
        rintro a rfl rfl
        simp [payloadFinding?, hentity, hsubtypes]

/--
Whether the stretches `ts` are the type of the alias `a` in front of `rest`: they ask for what has
to be done about it, and what is left of them is a type again, which is what it has to be.
-/
structure IsAliasType (isInput : Bool) (a : TypeAlias) (rest : List Item) (ts : List Stretch) :
    Prop where
  editsOf_eq : editsOf ts = editsFor ((payloadFinding? g a).toList
    ++ objectsFindings g isInput a.type.objects)
  allFit : AllFit (some (.sign .equals)) ts
  isBrokenAfter_eq : isBrokenAfter false ts = false
  rereads {text : List Char} {after others rest' : List Item}
    (hremains : Remains text false ts others) (hloose : AreLoose after ts)
    (hahead : Ahead rest rest') :
    Leaves rest' (fun type => objectsFindings g isInput type.objects = []
        ∧ ∀ a' : TypeAlias, a'.name.value = a.name.value →
          a'.params.map (·.name.value) = a.params.map (·.name.value) → a'.type = type →
          AreSettled text (payloadFinding? g a).toList (payloadFinding? g a').toList)
      (parseExpression true .aliasedType (others ++ rest'))

section

variable {g} {isInput : Bool} {a : TypeAlias} {first : Item} {ss : List Stretch} {rest : List Item}

theorem isAliasType_kept (hedit : ∀ f ∈ (payloadFinding? g a).toList, f.edit? = none)
    (hsame : ∀ a' : TypeAlias, a'.name.value = a.name.value →
      a'.params.map (·.name.value) = a.params.map (·.name.value) →
      payloadFinding? g a' = payloadFinding? g a)
    (hcovers : Covers (objectsFindings g isInput a.type.objects) (.kept first :: ss))
    (hreads : ExpressionRereads g isInput true .aliasedType (.kept first :: ss) rest) :
    IsAliasType g isInput a rest (.kept first :: ss) where
  editsOf_eq := by
    have hnone : editsFor (payloadFinding? g a).toList = [] :=
      List.filterMap_eq_nil_iff.mpr hedit
    rw [editsFor_append, hnone, hcovers.editsOf_eq, List.nil_append]
  allFit := hcovers.allFit _
  isBrokenAfter_eq := hcovers.isBrokenAfter_eq
  rereads := by
    intro text after others rest' hremains hloose hahead
    apply (hreads hremains hloose hahead).mono
    intro type hobjects
    refine ⟨hobjects, ?_⟩
    rintro a' hname hparams rfl
    rw [hsame a' hname hparams]
    exact .refl hedit

theorem isAliasType_replaced {subtypes : List Ident} {last : Option Token} {start : Nat}
    (hne : subtypes ≠ [])
    (hpayload : ∀ a' : TypeAlias, a'.name.value = a.name.value →
      a'.params.map (·.name.value) = a.params.map (·.name.value) →
      payloadFinding? g a' = some (.payload a.name.value a'.type.span subtypes
        (a.params.map (·.name.value))))
    (hspan : a.type.span = ⟨first.span.start, stopAfter first.span.stop (itemsOf ss)⟩)
    (hcovers : Covers (objectsFindings g isInput a.type.objects) (.kept first :: ss))
    (hbalanced : IsBalanced (first :: itemsOf ss))
    (hends : ∀ item ∈ rest.head?, endsBefore .statement last item = true)
    (hparams : ∀ p ∈ a.params.map (·.name.value), IsName p)
    (horder : InOrder start (first :: itemsOf ss)) :
    IsAliasType g isInput a rest [.replaced first (itemsOf ss)
      (Client.payloadUnion subtypes (a.params.map (·.name.value))).render (editsOf ss)] where
  editsOf_eq := by
    have hedits : editsOf ss = editsFor (objectsFindings g isInput a.type.objects) :=
      hcovers.editsOf_eq
    rw [editsFor_append, hpayload a rfl rfl, ← hedits, hspan]
    simp [Stretch.edits, Stretch.edit?, Stretch.inner, editsFor, Finding.edit?]
  allFit := by
    have hedits : editsOf ss = editsFor (objectsFindings g isInput a.type.objects) :=
      hcovers.editsOf_eq
    have hitems : itemsOf (.kept first :: ss) = first :: itemsOf ss := rfl
    have hinner := edits_bounds_of_kept hitems hcovers.allFit (by simp) horder
    refine ⟨⟨rfl, hbalanced, ⟨subtypes, _, hne, hparams, rfl⟩, ?_, hinner⟩, trivial⟩
    rw [hedits]
    exact eq_removal_of_mem_objects g isInput _
  isBrokenAfter_eq := rfl
  rereads := by
    intro text after others rest' hremains _ hahead
    cases hremains with
    | @replaced _ _ first' _ more' _ _ _ others' hwritten htail =>
      cases htail
      rw [List.append_nil]
      apply (hwritten.leaves_parseExpression g hne hparams (hahead.endsBefore hends) isInput _).mono
      rintro type ⟨hobjects, hspan'⟩
      refine ⟨hobjects, ?_⟩
      rintro a' hname hnames rfl
      rw [hpayload a rfl rfl, hpayload a' hname hnames]
      refine ⟨?_, rfl⟩
      intro e he
      cases List.mem_singleton.mp he
      exact ⟨_, _, rfl, by rw [hspan']; exact hwritten.slice⟩

theorem exists_aliasType {last : Option Token} {start : Nat}
    (hspan : a.type.span = ⟨first.span.start, stopAfter first.span.stop (itemsOf ss)⟩)
    (hcovers : Covers (objectsFindings g isInput a.type.objects) (.kept first :: ss))
    (hbalanced : IsBalanced (first :: itemsOf ss))
    (hends : ∀ item ∈ rest.head?, endsBefore .statement last item = true)
    (hreads : ExpressionRereads g isInput true .aliasedType (.kept first :: ss) rest)
    (hparams : ∀ p ∈ a.params.map (·.name.value), IsName p)
    (horder : InOrder start (first :: itemsOf ss)) :
    ∃ ts, itemsOf ts = first :: itemsOf ss ∧ IsAliasType g isInput a rest ts := by
  rcases payloadFinding?_cases g a.name.value (a.params.map (·.name.value)) with
    hnone | ⟨delegate, hempty⟩ | ⟨subtypes, hne, hpayload⟩
  . refine ⟨_, rfl, isAliasType_kept ?_ ?_ hcovers hreads⟩
    . rw [hnone a rfl rfl]
      simp
    . intro a' hname hnames
      rw [hnone a rfl rfl, hnone a' hname hnames]
  . refine ⟨_, rfl, isAliasType_kept ?_ ?_ hcovers hreads⟩
    . rw [hempty a rfl rfl]
      simp [Finding.edit?]
    . intro a' hname hnames
      rw [hempty a rfl rfl, hempty a' hname hnames]
  . exact ⟨_, List.append_nil _,
      isAliasType_replaced hne hpayload hspan hcovers hbalanced hends hparams horder⟩

end

/--
Whether what is left of `ss`, in front of what looks like `rest`, is read by `parse`. The value that
is read has the property `P` in a text.
-/
def Stretch.Rereads {α : Type} {bound : List Item → Nat} (ss : List Stretch) (rest : List Item)
    (P : List Char → α → Prop) (parse : (items : List Item) → Parse α (bound items)) : Prop :=
  ∀ {text : List Char} {after others rest' : List Item}, Remains text false ss others →
    AreLoose after ss → Meets rest rest' → Leaves rest' (P text) (parse (others ++ rest'))

section

variable {g} {isInput : Bool} {a : TypeAlias} {rest : List Item} {ts : List Stretch}

theorem isName_of_paramList {list : List Item} {params : List TypeParam}
    (hlist : ParamListOf list params)
    (hnames : ∀ item ∈ list, ∀ name, item.token = .identifier name → IsName name) :
    ∀ p ∈ params.map (·.name.value), IsName p := by
  intro p hp
  obtain ⟨param, hparam, rfl⟩ := List.mem_map.mp hp
  obtain ⟨item, _, hwithin, hitem, _⟩ := hlist.exists_items param hparam
  exact hnames item (hwithin.subset (.head _)) _ hitem

theorem IsAliasType.covers (h : IsAliasType g isInput a rest ts)
    (hinput : isInput = (Client.inputAliasDelegate? a.name.value g).isSome) {equals : Item}
    (hequals : equals.token = .sign .equals) (front separator : List Item) :
    Covers (statementFindings g (.typeAlias a))
      ((front ++ [equals]).map .kept ++ (ts ++ separator.map .kept)) := by
  subst hinput
  refine ⟨?_, ?_, ?_⟩
  . have hedits := h.editsOf_eq
    rw [editsFor_append] at hedits
    refine Eq.trans ?_ (hedits.trans (editsFor_statementFindings_typeAlias g _).symm)
    rw [editsOf_append, editsOf_append, editsOf_map_kept, editsOf_map_kept]
    simp
  . intro last
    apply (allFit_map_kept last _).append
    rw [itemsOf_map_kept, lastAfter_append]
    have hlast : lastAfter (lastAfter last front) [equals] = some (.sign .equals) :=
      congrArg some hequals
    rw [hlast]
    exact h.allFit.append (allFit_map_kept _ _)
  . rw [isBrokenAfter_append, isBrokenAfter_map_kept, isBrokenAfter_append,
      h.isBrokenAfter_eq, isBrokenAfter_map_kept]

/--
An alias is read again behind its keyword: its name, its type parameters and its type.
-/
theorem IsAliasType.rereads_alias {behind separator list : List Item} {item equals : Item}
    (h : IsAliasType g isInput a rest ts)
    (hinput : isInput = (Client.inputAliasDelegate? a.name.value g).isSome)
    (hitem : item.token = .identifier a.name.value) (hequals : equals.token = .sign .equals)
    (hlist : ∀ {list' rest' : List Item}, list'.map token = list.map token →
      rest'.head?.map token = some equals.token →
      Leaves rest' (fun params => params.map (·.name.value) = a.params.map (·.name.value))
        (parseParamList (list' ++ rest')))
    (hseparator : ∀ {text others rest'}, Remains text false (separator.map .kept) others →
      Meets behind rest' → Meets rest (others ++ rest')
        ∧ ∀ stop', (terminator stop' (others ++ rest')).rest = rest') (start : Nat) :
    Rereads ((item :: list ++ [equals]).map .kept ++ (ts ++ separator.map .kept)) behind
      (fun text a' => IsSettled g text (.typeAlias a) (.typeAlias a')) (parseAlias start) := by
  intro text after others rest' hremains hloose hmeets
  obtain ⟨front, back, rfl, hfront, hback⟩ := hremains.of_append
  rw [isBrokenAfter_map_kept] at hback
  obtain ⟨back, separator', rfl, hback, hseparator'⟩ := hback.of_append
  rw [h.isBrokenAfter_eq] at hseparator'
  have hloose := (areLoose_append.mp (areLoose_append.mp hloose).2).1
  obtain ⟨hmeets', hterminator⟩ := hseparator hseparator' hmeets
  obtain ⟨htokens, _⟩ := hfront.of_map_kept
  rw [List.map_append] at htokens
  obtain ⟨head, more, rfl, htokens, hmore⟩ := List.map_eq_append_iff.mp htokens
  obtain ⟨item', list', rfl, hitem', hlist'⟩ := List.map_eq_cons_iff.mp htokens
  obtain ⟨equals', more, rfl, hequals', hmore⟩ := List.map_eq_cons_iff.mp hmore
  obtain rfl := List.map_eq_nil_iff.mp hmore
  have hothers : item' :: list' ++ [equals'] ++ (back ++ separator') ++ rest'
      = item' :: (list' ++ equals' :: (back ++ (separator' ++ rest'))) := by
    simp
  rw [hothers]
  unfold parseAlias
  apply (leaves_parseName (hitem'.trans hitem)).bind
  intro name' hlt hname'
  have hnext : (equals' :: (back ++ (separator' ++ rest'))).head?.map token = some equals.token :=
    congrArg some hequals'
  apply (Leaves.andMaybe (hlist hlist' hnext)).bind
  intro params' hlt' hparams'
  apply (Leaves.andThen (leaves_parseToken (hequals'.trans hequals))).bind
  rintro _ hlt'' rfl
  apply (Leaves.andThen (h.rereads hback hloose hmeets'.ahead)).bind
  rintro type' hlt₄ ⟨hobjects, hpayload⟩
  have hrest := hterminator type'.span.stop
  dsimp only [Parsed.onward]
  generalize terminator type'.span.stop (separator' ++ rest') = last at hrest ⊢
  obtain ⟨stop, rest₅, hlt₅⟩ := last
  dsimp only at hrest
  subst hrest
  refine ⟨_, _, rfl, isSettled_typeAlias g hname' (hpayload _ hname' hparams' rfl) ?_⟩
  rintro _ rfl
  rw [← hinput]
  exact hobjects

end

theorem parseAlias_rereads {start : Nat} {items : List Item}
    {p : Parsed Item TypeAlias items.length} (h : parseAlias start items = .ok p) {behind : Nat}
    (horder : InOrder behind items)
    (hnames : ∀ item ∈ items, ∀ name, item.token = .identifier name → IsName name) :
    ∃ ss, items = itemsOf ss ++ p.rest ∧ Covers (statementFindings g (.typeAlias p.value)) ss
      ∧ IsSteady ss ∧ ∀ start', Rereads ss p.rest
        (fun text a => IsSettled g text (.typeAlias p.value) (.typeAlias a))
        (parseAlias start') := by
  unfold parseAlias at h
  obtain ⟨⟨name, rest₁, h₁⟩, hname, h⟩ := bind_eq_ok h
  obtain ⟨_, hand, h⟩ := bind_eq_ok h
  obtain ⟨params, rest₂, h₂, _, hparams, rfl⟩ := andMaybe_eq_ok hand
  obtain ⟨_, hand, h⟩ := bind_eq_ok h
  obtain ⟨equals, rest₃, h₃, _, hequals, rfl⟩ := andThen_eq_ok hand
  obtain ⟨_, hand, h⟩ := bind_eq_ok h
  obtain ⟨type, rest₄, h₄, _, htype, rfl⟩ := andThen_eq_ok hand
  cases h
  obtain ⟨item, text, hitems, hitem, rfl⟩ := parseName_eq_ok hname
  obtain ⟨list, hrest₁, hlist⟩ := parseParamList_reads hparams
  obtain ⟨list', hrest₁', hlistOf⟩ := parseParamList_eq_ok hparams
  obtain ⟨hrest₂, htoken⟩ := parseToken_eq_ok hequals
  obtain ⟨first, ss, hrest₃, hspan, hcovers, hbalanced, _, ⟨last, hends⟩, hreads⟩ :=
    parseExpression_rereads g htype (Client.inputAliasDelegate? text g).isSome
  obtain ⟨separator, hrest₄, hterminator⟩ := Remains.terminator type.span.stop hends
  dsimp only at hitems hrest₁ hrest₁' hrest₂ hrest₃ hrest₄ hspan hlist hreads
  rw [hrest₁] at hrest₁'
  obtain rfl := List.append_cancel_right hrest₁'
  have hall : items = item :: list ++ [equals] ++ (first :: itemsOf ss ++ rest₄) := by
    rw [hitems, hrest₁, hrest₂, hrest₃]
    simp
  have hparamNames := isName_of_paramList hlistOf fun x hx => hnames x (by simp [hall, hx])
  rw [hall] at horder
  have horder' := (inOrder_append.mp (inOrder_append.mp horder).2).1
  obtain ⟨ts, hts, htype'⟩ := exists_aliasType
    (a := ⟨⟨text, item.span⟩, params, type, ⟨start, (terminator type.span.stop rest₄).value⟩⟩)
    hspan hcovers hbalanced hends hreads hparamNames horder'
  refine ⟨(item :: list ++ [equals]).map kept ++ (ts ++ separator.map kept), ?_,
    htype'.covers rfl htoken (item :: list) separator, ?_, htype'.rereads_alias rfl hitem htoken ?_ hterminator⟩
  . show items = _ ++ (terminator type.span.stop rest₄).rest
    rw [hall, itemsOf_append, itemsOf_append, itemsOf_map_kept, itemsOf_map_kept, hts]
    simpa using hrest₄
  . cases list with
    | nil => exact isSteady_two item equals _
    | cons x list => exact isSteady_two item x _
  . rw [hrest₂] at hlist
    exact hlist

end Delegation
