import Delegation.Proofs.Rereading.Alias

/-!
This module contains how statements are read again when all is done that had to be done about them.
Nothing is found in them but what is settled.
-/

namespace Delegation

open Item Stretch

variable (g : DelegateGraph)

theorem parseBlock_rereads {start : Nat} {items : List Item}
    {p : Parsed Item MemberBlock items.length} (h : parseBlock start items = .ok p)
    (owner : MemberBlock → Owner)
    (howner : ∀ b b', b'.name.value = b.name.value → (owner b').Resembles (owner b)) :
    ∃ ss, items = itemsOf ss ++ p.rest
      ∧ Covers (membersFindings g false (owner p.value) p.value.members) ss ∧ IsSteady ss
      ∧ ∀ start', Rereads ss p.rest (fun _ b => b.name.value = p.value.name.value
        ∧ membersFindings g false (owner b) b.members = []) (parseBlock start') := by
  unfold parseBlock at h
  obtain ⟨⟨name, rest₁, h₁⟩, hname, h⟩ := bind_eq_ok h
  obtain ⟨_, hand, h⟩ := bind_eq_ok h
  obtain ⟨params, rest₂, h₂, _, hparams, rfl⟩ := andMaybe_eq_ok hand
  obtain ⟨_, hand, h⟩ := bind_eq_ok h
  obtain ⟨opening, rest₃, h₃, _, hopening, rfl⟩ := andThen_eq_ok hand
  obtain ⟨_, hand, h⟩ := bind_eq_ok h
  obtain ⟨⟨ms, close⟩, rest₄, h₄, _, hmembers, rfl⟩ := andThen_eq_ok hand
  cases h
  obtain ⟨item, text, hitems, hitem, hlocated⟩ := parseName_eq_ok hname
  obtain ⟨list, hrest₁, hlist⟩ := parseParamList_reads hparams
  obtain ⟨heritage, hne, hrest₂, hheritage⟩ := parseHeritage_reads hopening
  obtain ⟨inner, opener, hrest₂', _, _, hopener, _⟩ := parseHeritage_eq_ok hopening
  obtain ⟨ss, hrest₃, hedits, hfit, hbroken, _, hreads⟩ := parseMembers_rereads g false hmembers
    (owner ⟨name, params, ms, ⟨start, close.stop⟩⟩)
  dsimp only at hitems hrest₁ hrest₂ hrest₂' hrest₃ hlocated hlist hheritage
  have hinner : heritage = inner ++ [opener] := by
    rw [hrest₂, List.append_cons] at hrest₂'
    exact List.append_cancel_right hrest₂'
  refine ⟨(item :: list ++ heritage).map .kept ++ ss, ?_, ?_, ?_, ?_⟩
  . show items = _ ++ rest₄
    rw [itemsOf_append, itemsOf_map_kept, hitems, hrest₁, hrest₂, hrest₃]
    simp
  . refine ⟨?_, ?_, ?_⟩
    . rw [editsOf_append, editsOf_map_kept, List.nil_append]
      exact hedits
    . intro last
      apply (allFit_map_kept last _).append
      rw [itemsOf_map_kept, lastAfter_append, hinner, lastAfter_append]
      exact hfit _ (.inl (congrArg some hopener))
    . rw [isBrokenAfter_append, isBrokenAfter_map_kept, hbroken]
  . obtain ⟨x, heritage, rfl⟩ := List.exists_cons_of_ne_nil hne
    cases list with
    | nil => exact isSteady_two item x _
    | cons y list => exact isSteady_two item y _
  . intro start' text' after others rest' hremains hloose _
    obtain ⟨front, back, rfl, hfront, hback⟩ := hremains.of_append
    have hloose := (areLoose_append.mp hloose).2
    obtain ⟨htokens, _⟩ := hfront.of_map_kept
    rw [List.map_append] at htokens
    obtain ⟨head, heritage', rfl, htokens, hheritage'⟩ := List.map_eq_append_iff.mp htokens
    obtain ⟨item', list', rfl, hitem', hlist'⟩ := List.map_eq_cons_iff.mp htokens
    have hothers : item' :: list' ++ heritage' ++ back ++ rest'
        = item' :: (list' ++ (heritage' ++ (back ++ rest'))) := by
      simp
    have hnext : (heritage' ++ (back ++ rest')).head?.map token = rest₂.head?.map token := by
      rw [hrest₂]
      exact head?_append_congr hheritage' (fun hnil => absurd hnil hne)
    rw [hothers]
    unfold parseBlock
    apply (leaves_parseName (hitem'.trans hitem)).bind
    intro name' hlt hname'
    apply (Leaves.andMaybe (hlist hlist' hnext)).bind
    intro params' hlt' hparams'
    apply (Leaves.andThen (hheritage hheritage')).bind
    intro opening' hlt'' _
    apply (Leaves.andThen (hreads hback hloose opening' rest')).bind
    intro ms' hlt₄ hms
    refine ⟨_, _, rfl, ?_, hms _ (howner _ _ ?_)⟩
    . rw [hlocated]
      exact hname'
    . rw [hlocated]
      exact hname'

def Stretch.StatementRereads (ss : List Stretch) (rest : List Item) (s : Statement) : Prop :=
  ∀ {text : List Char} {after others rest' : List Item} {item : Item},
    Remains text false ss (item :: others) → AreLoose after ss → Meets rest rest' →
    Leaves rest' (IsSettled g text s) (parseStatement item (others ++ rest'))

def Stretch.KeywordRereads (keyword : Item) (form : StatementForm) (ss : List Stretch)
    (rest : List Item) (s : Statement) : Prop :=
  ∀ {text : List Char} {after items others rest' behind : List Item} {item keyword' : Item}
    {hlt : behind.length < items.length + 1}, behind = others ++ rest' →
    Remains text false ss others → AreLoose after ss → Meets rest rest' →
    skipModifiers statementModifiers item items = ⟨keyword', behind, hlt⟩ →
    keyword'.token = keyword.token → keyword'.isOnNewLine = keyword.isOnNewLine →
    statementForm keyword' behind = form →
    Leaves rest' (IsSettled g text s) (parseStatement item items)

def Stretch.StatementsReread (opening : Option Span) (ss : List Stretch) (rest : List Item)
    (found : List Statement) : Prop :=
  ∀ {text : List Char} {after others rest' : List Item} {opening' : Option Span},
    Remains text false ss others → AreLoose after ss → Meets rest rest' →
    opening'.isSome = opening.isSome → ∀ acc,
    Leaves rest' (fun statements => ∃ found', statements.1 = acc.reverse ++ found'
        ∧ AreSettled text (statementsFindings g found) (statementsFindings g found'))
      (parseStatements opening' acc (others ++ rest'))

variable {g}

theorem Stretch.KeywordRereads.exists_statement {item keyword : Item} {rest rest₁ rest₂ : List Item}
    {hlt : rest₁.length < rest.length + 1} {ss : List Stretch} {s : Statement}
    (hskip : skipModifiers statementModifiers item rest = ⟨keyword, rest₁, hlt⟩)
    (hrest : rest₁ = itemsOf ss ++ rest₂)
    (hcovers : Covers (statementFindings g s) (kept keyword :: ss))
    (hsteady : (∀ d, keyword.token ≠ .opening d) → IsSteady ss)
    (hreads : KeywordRereads g keyword (statementForm keyword rest₁) ss rest₂ s) :
    ∃ ss', rest = itemsOf ss' ++ rest₂ ∧ Covers (statementFindings g s) (kept item :: ss')
      ∧ IsSteady (kept item :: ss') ∧ StatementRereads g (kept item :: ss') rest₂ s := by
  obtain ⟨mods, hmods, hskip'⟩ := skipModifiers_reads statementModifiers item rest
  rw [hskip] at hmods hskip'
  dsimp only at hmods hskip'
  have hcons : ∃ ss', kept item :: ss' = mods.map kept ++ kept keyword :: ss := by
    cases mods with
    | nil => exact ⟨ss, by rw [(List.cons.inj hmods).1]; rfl⟩
    | cons mod mods => exact ⟨_, by rw [(List.cons.inj hmods).1]; rfl⟩
  obtain ⟨ss', hss'⟩ := hcons
  have hitems : item :: rest = itemsOf (kept item :: ss') ++ rest₂ := by
    rw [hss', hmods, hrest, itemsOf_append, itemsOf_map_kept]
    simp [Stretch.items]
  refine ⟨ss', (List.cons.inj hitems).2, ?_, ?_, ?_⟩
  . rw [hss']
    exact (covers_map_kept mods).append hcovers
  . rw [hss']
    exact (isSteady_behind hsteady).map_kept mods
  . intro text after others rest' item' hremains hloose hmeets
    rw [hss'] at hremains hloose
    obtain ⟨mods', back, hothers, hmods', hback⟩ := hremains.of_append
    rw [isBrokenAfter_map_kept] at hback
    cases hback with
    | @kept _ _ keyword' _ others' hkeyword hline hback =>
      have hnext : keyword.token.isIdentifier = true → Meets rest₁ (others' ++ rest') := by
        intro hidentifier
        rw [hrest]
        refine hback.meets (hsteady ?_) hmeets
        intro d hd
        simp [hd, Token.isIdentifier] at hidentifier
      have hitem' : item' :: (others ++ rest') = mods' ++ keyword' :: (others' ++ rest') := by
        rw [← List.cons_append, hothers]
        simp
      obtain ⟨hvalue, hrest'⟩ := hskip' hmods'.of_map_kept.1 hkeyword
        (fun hidentifier => (hnext (by rwa [← hkeyword])).head?_eq) hitem'
      have hlt' : (others' ++ rest').length < (others ++ rest').length + 1 := by
        rw [← hrest']
        exact (skipModifiers statementModifiers item' (others ++ rest')).rest_lt
      have hskipped : skipModifiers statementModifiers item' (others ++ rest')
          = ⟨keyword', others' ++ rest', hlt'⟩ := by
        generalize skipModifiers statementModifiers item' (others ++ rest') = skipped
          at hvalue hrest'
        obtain ⟨value, rest, hlt''⟩ := skipped
        dsimp only at hvalue hrest'
        subst hvalue hrest'
        rfl
      exact hreads rfl hback (areLoose_append.mp hloose).2 hmeets hskipped hkeyword hline
        (statementForm_congr hkeyword hnext)

section

variable {keyword : Item} {ss : List Stretch} {rest : List Item}

theorem Stretch.Rereads.typeAlias {a : TypeAlias} (h : ∀ start, Rereads ss rest
    (fun text a' => IsSettled g text (.typeAlias a) (.typeAlias a')) (parseAlias start)) :
    KeywordRereads g keyword .typeAlias ss rest (.typeAlias a) := by
  rintro text after items others rest' behind item keyword' hlt rfl hremains hloose hmeets hskip
    _ _ hform
  unfold parseStatement
  dsimp only
  rw [hskip]
  dsimp only
  rw [hform]
  apply (h item.span.start hremains hloose hmeets).bind
  intro a' hlt' ha'
  exact ⟨_, _, rfl, ha'⟩

theorem Stretch.Rereads.interfaceBlock {b : MemberBlock} (h : ∀ start, Rereads ss rest
    (fun _ b' => b'.name.value = b.name.value
      ∧ membersFindings g false (.interfaceBlock b') b'.members = []) (parseBlock start)) :
    KeywordRereads g keyword .interfaceBlock ss rest (.interfaceBlock b) := by
  rintro text after items others rest' behind item keyword' hlt rfl hremains hloose hmeets hskip
    _ _ hform
  unfold parseStatement
  dsimp only
  rw [hskip]
  dsimp only
  rw [hform]
  apply (h item.span.start hremains hloose hmeets).bind
  rintro b' hlt' ⟨hname, hmembers⟩
  exact ⟨_, _, rfl, isSettled_interfaceBlock g hname hmembers⟩

theorem Stretch.Rereads.classBlock {b : MemberBlock} (h : ∀ start, Rereads ss rest
    (fun _ b' => b'.name.value = b.name.value
      ∧ membersFindings g false (.classBlock b') b'.members = []) (parseBlock start)) :
    KeywordRereads g keyword .classBlock ss rest (.classBlock b) := by
  rintro text after items others rest' behind item keyword' hlt rfl hremains hloose hmeets hskip
    _ _ hform
  unfold parseStatement
  dsimp only
  rw [hskip]
  dsimp only
  rw [hform]
  apply (h item.span.start hremains hloose hmeets).bind
  rintro b' hlt' ⟨_, hmembers⟩
  exact ⟨_, _, rfl, isSettled_classBlock g hmembers⟩

theorem Stretch.StatementsReread.namespaceBlock {opening : Item} {dotted : List Item}
    {name : Located String} {body : List Statement} {span : Span}
    (hopening : opening.token = .opening .brace)
    (hname : ∀ {used' rest' : List Item} {keyword' : Item}, used'.map token = dotted.map token →
      keyword'.token = keyword.token → Meets (opening :: (itemsOf ss ++ rest)) rest' →
      Leaves rest' (fun _ => True) (parseNamespaceName keyword' (used' ++ rest')))
    (h : StatementsReread g (some opening.span) ss rest body) :
    KeywordRereads g keyword .namespaceBlock (dotted.map .kept ++ .kept opening :: ss) rest
      (.namespaceBlock name body span) := by
  intro text after items others rest' behind item keyword' hlt hbehind hremains hloose hmeets hskip
    hkeyword _ hform
  obtain ⟨dotted', back, rfl, hdotted', hback⟩ := hremains.of_append
  rw [List.append_assoc] at hbehind
  rw [isBrokenAfter_map_kept] at hback
  have hmeets' := hback.meets (isSteady_of_opening hopening ss) hmeets
  have hloose := (areLoose_append.mp hloose).2
  cases hback with
  | @kept _ _ opening' _ back hopening' _ hback =>
    have htake : takeToken? (.opening .brace) (opening' :: back ++ rest')
        = some (.leaving opening' (back ++ rest')) := by
      simp [takeToken?, hopening', hopening]
    unfold parseStatement
    dsimp only
    rw [hskip]
    dsimp only
    rw [hform]
    subst hbehind
    apply (hname hdotted'.of_map_kept.1 hkeyword hmeets').bind
    intro name' hlt' _
    dsimp only
    rw [htake]
    dsimp only [Parsed.leaving]
    have hsome : (some opening'.span).isSome = (some opening.span).isSome := rfl
    apply (h hback hloose hmeets hsome []).bind
    rintro statements' hlt'' ⟨found', hfound', hsettled⟩
    refine ⟨_, _, rfl, ?_⟩
    show IsSettled g text _ (.namespaceBlock name' statements'.1 _)
    rw [hfound']
    exact hsettled

theorem Stretch.TailRereads.namespaceBlock {dotted : List Item} {os : List ObjectType} {span : Span}
    (hopening : takeToken? (.opening .brace) (itemsOf ss ++ rest) = none) (hsteady : IsSteady ss)
    (hname : ∀ {used' rest' : List Item} {keyword' : Item}, used'.map token = dotted.map token →
      keyword'.token = keyword.token → Meets (itemsOf ss ++ rest) rest' →
      Leaves rest' (fun _ => True) (parseNamespaceName keyword' (used' ++ rest')))
    (h : TailRereads g false false .statement none ss rest) :
    KeywordRereads g keyword .namespaceBlock (dotted.map .kept ++ ss) rest (.other os span) := by
  intro text after items others rest' behind item keyword' hlt hbehind hremains hloose hmeets hskip
    hkeyword _ hform
  obtain ⟨dotted', back, rfl, hdotted', hback⟩ := hremains.of_append
  rw [List.append_assoc] at hbehind
  rw [isBrokenAfter_map_kept] at hback
  have hmeets' := hback.meets hsteady hmeets
  have hloose := (areLoose_append.mp hloose).2
  have htake : takeToken? (.opening .brace) (back ++ rest') = none := by
    rw [takeToken?_eq_none] at hopening ⊢
    rw [startsWith_congr hmeets'.head?_eq]
    exact hopening
  unfold parseStatement
  dsimp only
  rw [hskip]
  dsimp only
  rw [hform]
  subst hbehind
  apply (hname hdotted'.of_map_kept.1 hkeyword hmeets').bind
  intro name' hlt' _
  dsimp only
  rw [htake]
  obtain ⟨run, hrun, hobjects, hterminator⟩ := h hback hloose hmeets.ahead name'.span.stop
  dsimp only
  rw [hrun]
  simp only [bind, Except.bind, Parsed.onward]
  generalize terminator run.value.2 run.rest = last at hterminator ⊢
  obtain ⟨stop, rest₂, hlt₂⟩ := last
  dsimp only at hterminator
  subst hterminator
  exact ⟨_, _, rfl, isSettled_other g hobjects⟩

theorem Stretch.ExpressionRereads.other {collect : Bool} {separator : List Item} {rest' : List Item}
    {os : List ObjectType} {span : Span}
    (hbroken : isBrokenAfter false (kept keyword :: ss) = false)
    (hseparator : ∀ {text others rest''}, Remains text false (separator.map .kept) others →
      Meets rest' rest'' → Meets rest (others ++ rest'')
        ∧ ∀ stop', (terminator stop' (others ++ rest'')).rest = rest'')
    (h : ExpressionRereads g false collect .statement (.kept keyword :: ss) rest) :
    KeywordRereads g keyword (.other collect) (ss ++ separator.map .kept) rest'
      (.other os span) := by
  intro text after items others rest'' behind item keyword' hlt hbehind hremains hloose hmeets hskip
    hkeyword hline hform
  obtain ⟨front, separator', rfl, hfront, hback⟩ := hremains.of_append
  rw [List.append_assoc] at hbehind
  have hbroken : isBrokenAfter false ss = false := hbroken
  rw [hbroken] at hback
  have hloose := (areLoose_append.mp hloose).1
  obtain ⟨hmeets', hterminator⟩ := hseparator hback hmeets
  have hremains : Remains text false (kept keyword :: ss) (keyword' :: front) :=
    .kept hkeyword hline hfront
  unfold parseStatement
  dsimp only
  rw [hskip]
  dsimp only
  rw [hform]
  subst hbehind
  apply (h hremains hloose hmeets'.ahead).bind
  intro type hlt' hobjects
  have hrest := hterminator type.span.stop
  dsimp only [Parsed.onward]
  generalize terminator type.span.stop (separator' ++ rest'') = last at hrest ⊢
  obtain ⟨stop, rest₂, hlt₂⟩ := last
  dsimp only at hrest
  subst hrest
  exact ⟨_, _, rfl, isSettled_other g hobjects⟩

theorem statementsReread_nil : StatementsReread g none [] [] [] := by
  intro text after others rest' opening' hremains _ hmeets hopening acc
  cases hremains
  cases hmeets
  cases opening' with
  | none =>
    unfold parseStatements
    exact ⟨_, _, rfl, [], (List.append_nil _).symm, .refl (by simp [statementsFindings])⟩
  | some => cases hopening

variable {opening : Option Span} {item : Item} {found : List Statement}

theorem statementsReread_closer (hitem : item.token = .closing .brace)
    (hsome : opening.isSome = true) : StatementsReread g opening [kept item] rest [] := by
  intro text after others rest' opening' hremains _ hmeets hopening acc
  cases hremains with
  | kept htoken _ htail =>
    cases htail
    rw [List.cons_append]
    unfold parseStatements
    simp only [htoken, hitem, hopening, hsome, decide_true, Bool.and_self, if_true]
    exact ⟨_, _, rfl, [], (List.append_nil _).symm, .refl (by simp [statementsFindings])⟩

theorem Stretch.StatementsReread.separator (hitem : item.token = .sign .semicolon)
    (h : StatementsReread g opening ss rest found) :
    StatementsReread g opening (kept item :: ss) rest found := by
  intro text after others rest' opening' hremains hloose hmeets hopening acc
  cases hremains with
  | kept htoken _ htail =>
    have hagain := (h htail hloose hmeets hopening acc).loosen
    rw [List.cons_append]
    unfold parseStatements
    simp only [htoken, hitem]
    exact hagain

theorem Stretch.StatementsReread.statement {ss' : List Stretch} {rest' : List Item} {s : Statement}
    (hclosing : ∀ d, item.token ≠ .closing d) (hsemicolon : item.token ≠ .sign .semicolon)
    (hreads : StatementRereads g (kept item :: ss) rest s)
    (hbroken : isBrokenAfter false (kept item :: ss) = false) (hrest : rest = itemsOf ss' ++ rest')
    (hsteady : IsSteady ss') (h : StatementsReread g opening ss' rest' found) :
    StatementsReread g opening (kept item :: ss ++ ss') rest' (s :: found) := by
  intro text after others rest₁ opening' hremains hloose hmeets hopening acc
  obtain ⟨front, back, rfl, hfront, hback⟩ := hremains.of_append
  rw [hbroken] at hback
  have hloose := areLoose_append.mp hloose
  have hmeets' : Meets rest (back ++ rest₁) := by
    rw [hrest]
    exact hback.meets hsteady hmeets
  cases hfront with
  | @kept _ _ item' _ front htoken hline htail =>
    have hread := hreads (.kept htoken hline htail) hloose.1 hmeets'
    rw [← htoken] at hclosing hsemicolon
    rw [List.append_assoc, List.cons_append]
    unfold parseStatements
    dsimp only
    split
    . next d hd => exact absurd hd (hclosing d)
    . next hitem => exact absurd hitem hsemicolon
    . apply hread.bind
      intro s' hlt₁ hs'
      apply (h hback hloose.2 hmeets hopening (s' :: acc)).bind
      rintro statements' hlt₂ ⟨found', hfound', hsettled⟩
      exact ⟨_, _, rfl, s' :: found', by simp [Parsed.within, hfound'], hs'.append hsettled⟩

end

section

variable {keyword : Item} {rest : List Item} (span : Span)

theorem Stretch.KeywordRereads.exists_namespaceBlock {opening : Item} {dotted : List Item}
    {ss : List Stretch} {body : List Statement} (hopening : opening.token = .opening .brace)
    (hname : ∀ {used' rest' : List Item} {keyword' : Item}, used'.map token = dotted.map token →
      keyword'.token = keyword.token → Meets (opening :: (itemsOf ss ++ rest)) rest' →
      Leaves rest' (fun _ => True) (parseNamespaceName keyword' (used' ++ rest')))
    (hcovers : Covers (statementsFindings g body) ss)
    (hreads : StatementsReread g (some opening.span) ss rest body) (name : Located String) :
    ∃ ss', dotted ++ opening :: (itemsOf ss ++ rest) = itemsOf ss' ++ rest
      ∧ Covers (statementFindings g (.namespaceBlock name body span)) ss' ∧ IsSteady ss'
      ∧ KeywordRereads g keyword .namespaceBlock ss' rest (.namespaceBlock name body span) := by
  refine ⟨dotted.map kept ++ kept opening :: ss, ?_,
    (covers_map_kept dotted).append (hcovers.cons opening),
    (isSteady_of_opening hopening ss).map_kept dotted, hreads.namespaceBlock hopening hname⟩
  rw [itemsOf_append, itemsOf_map_kept]
  simp [Stretch.items]

theorem Stretch.KeywordRereads.exists_bodiless {stop : Nat} {dotted : List Item}
    {p : Parsed Item (List ObjectType × Nat) (rest.length + 1)}
    (htake : takeToken? (.opening .brace) rest = none)
    (hname : ∀ {used' rest' : List Item} {keyword' : Item}, used'.map token = dotted.map token →
      keyword'.token = keyword.token → Meets rest rest' →
      Leaves rest' (fun _ => True) (parseNamespaceName keyword' (used' ++ rest')))
    (hrun : parseRun false .statement none stop rest = .ok p) :
    ∃ ss, dotted ++ rest = itemsOf ss ++ (terminator p.value.2 p.rest).rest
      ∧ Covers (statementFindings g (.other p.value.1 span)) ss ∧ IsSteady ss
      ∧ KeywordRereads g keyword .namespaceBlock ss (terminator p.value.2 p.rest).rest
        (.other p.value.1 span) := by
  obtain ⟨_, hrest, hcovers, hsteady, hreads⟩ := parseRun_rereads g false hrun
  obtain ⟨ss, hrest, hcovers, hsteady, htail⟩ :=
    RunRereads.exists_tail hrun hrest hcovers hsteady hreads
  refine ⟨dotted.map kept ++ ss, ?_, (covers_map_kept dotted).append hcovers,
    hsteady.map_kept dotted, ?_⟩
  . rw [itemsOf_append, itemsOf_map_kept, List.append_assoc, ← hrest]
  . rw [hrest] at hname htake
    exact TailRereads.namespaceBlock htake hsteady hname htail

theorem Stretch.KeywordRereads.exists_other {collect : Bool}
    {p : Parsed Item TypeExpr (rest.length + 1)}
    (hexpr : parseExpression collect .statement (keyword :: rest) = .ok p) :
    ∃ ss, rest = itemsOf ss ++ (terminator p.value.span.stop p.rest).rest
      ∧ Covers (statementFindings g (.other p.value.objects span)) (kept keyword :: ss)
      ∧ ((∀ d, keyword.token ≠ .opening d) → IsSteady ss)
      ∧ KeywordRereads g keyword (.other collect) ss (terminator p.value.span.stop p.rest).rest
        (.other p.value.objects span) := by
  obtain ⟨first, ss, hitems, _, hcovers, _, hsteady, ⟨last, hends⟩, hreads⟩ :=
    parseExpression_rereads g hexpr false
  obtain ⟨separator, hrest, hterminator⟩ := Remains.terminator p.value.span.stop hends
  obtain ⟨rfl, hss⟩ := List.cons.inj hitems
  refine ⟨ss ++ separator.map kept, ?_, ?_,
    fun hopening => (hsteady hopening).append (isSteady_map_kept separator),
    hreads.other hcovers.isBrokenAfter_eq hterminator⟩
  . rw [itemsOf_append, itemsOf_map_kept, List.append_assoc, ← hrest]
    exact hss
  . simpa [statementFindings] using hcovers.append (covers_map_kept separator)

end

variable (g)

mutual

theorem parseStatement_rereads {item : Item} {rest : List Item}
    {p : Parsed Item Statement (rest.length + 1)} (h : parseStatement item rest = .ok p)
    {behind : Nat} (horder : InOrder behind (item :: rest))
    (hnames : ∀ x ∈ item :: rest, ∀ name, x.token = .identifier name → IsName name) :
    ∃ ss, rest = itemsOf ss ++ p.rest ∧ Covers (statementFindings g p.value) (.kept item :: ss)
      ∧ IsSteady (.kept item :: ss) ∧ StatementRereads g (.kept item :: ss) p.rest p.value := by
  obtain ⟨mods, hmods, _⟩ := skipModifiers_eq statementModifiers item rest
  unfold parseStatement at h
  dsimp only at h
  generalize hskip : skipModifiers statementModifiers item rest = skipped at h hmods
  obtain ⟨keyword, rest₁, h₁⟩ := skipped
  dsimp only at h hmods
  have hitems : item :: rest = mods ++ [keyword] ++ rest₁ := by simpa using hmods
  rw [hitems] at horder
  have horder₁ := (inOrder_append.mp horder).2
  have hnames₁ : ∀ x ∈ rest₁, ∀ name, x.token = .identifier name → IsName name := by
    intro x hx
    apply hnames
    rw [hitems]
    exact List.mem_append_right _ hx
  split at h
  . next hform =>
    obtain ⟨⟨decl, rest₂, h₂⟩, hdecl, h⟩ := bind_eq_ok h
    cases h
    obtain ⟨ss, hrest₁, hcovers, hsteady, hreads⟩ := parseAlias_rereads g hdecl horder₁ hnames₁
    apply KeywordRereads.exists_statement hskip hrest₁ (hcovers.cons keyword) fun _ => hsteady
    rw [hform]
    exact Rereads.typeAlias hreads
  . next hform =>
    obtain ⟨⟨decl, rest₂, h₂⟩, hdecl, h⟩ := bind_eq_ok h
    cases h
    obtain ⟨ss, hrest₁, hcovers, hsteady, hreads⟩ :=
      parseBlock_rereads g hdecl .interfaceBlock fun _ _ hname => hname
    have hedits := editsFor_statementFindings_interfaceBlock g decl
    apply KeywordRereads.exists_statement hskip hrest₁ ?_ fun _ => hsteady
    . rw [hform]
      exact Rereads.interfaceBlock hreads
    . exact (Covers.mk (hcovers.editsOf_eq.trans hedits.symm) hcovers.allFit
        hcovers.isBrokenAfter_eq).cons keyword
  . next hform =>
    obtain ⟨⟨decl, rest₂, h₂⟩, hdecl, h⟩ := bind_eq_ok h
    cases h
    obtain ⟨ss, hrest₁, hcovers, hsteady, hreads⟩ :=
      parseBlock_rereads g hdecl .classBlock fun _ _ _ => trivial
    have hcovers : Covers (statementFindings g (.classBlock decl)) ss := hcovers
    apply KeywordRereads.exists_statement hskip hrest₁ (hcovers.cons keyword) fun _ => hsteady
    rw [hform]
    exact Rereads.classBlock hreads
  . next hform =>
    obtain ⟨⟨name, rest₂, h₂⟩, hname, h⟩ := bind_eq_ok h
    obtain ⟨dotted, hrest₁, hdotted⟩ := parseNamespaceName_reads hname
    dsimp only at h hrest₁ hdotted
    split at h
    . next opening rest₃ h₃ htake =>
      obtain ⟨⟨⟨body, stop⟩, rest₄, h₄⟩, hbody, h⟩ := bind_eq_ok h
      obtain ⟨hrest₂, hopening⟩ := takeToken?_eq_some htake
      dsimp only at hrest₂ hopening
      rw [hrest₁, hrest₂] at horder₁ hnames₁
      obtain ⟨_, _, _, _, horder₃⟩ := inOrder_append.mp horder₁
      obtain ⟨ss, found, hrest₃, hfound, hcovers, _, _, hreads⟩ :=
        parseStatements_reread hbody horder₃ fun x hx => hnames₁ x (by simp [hx])
      cases h
      dsimp only at hrest₃ hfound
      obtain rfl : body = found := hfound
      rw [hrest₂, hrest₃] at hdotted hrest₁
      obtain ⟨ss', hitems', hcovers', hsteady, hreads'⟩ :=
        KeywordRereads.exists_namespaceBlock ⟨item.span.start, stop⟩ hopening hdotted hcovers hreads
          name
      apply KeywordRereads.exists_statement hskip (hrest₁.trans hitems') (hcovers'.cons keyword)
        fun _ => hsteady
      rw [hform]
      exact hreads'
    . next htake =>
      obtain ⟨⟨⟨os, stop⟩, rest₃, h₃⟩, hrun, h⟩ := bind_eq_ok h
      cases h
      obtain ⟨ss, hitems', hcovers, hsteady, hreads⟩ := KeywordRereads.exists_bodiless
        ⟨item.span.start, (terminator stop rest₃).value⟩ htake hdotted hrun
      apply KeywordRereads.exists_statement hskip (hrest₁.trans hitems') (hcovers.cons keyword)
        fun _ => hsteady
      rw [hform]
      exact hreads
  . next collect hform =>
    obtain ⟨⟨⟨os, span⟩, rest₂, h₂⟩, hexpr, h⟩ := bind_eq_ok h
    cases h
    obtain ⟨ss, hrest₁, hcovers, hsteady, hreads⟩ := KeywordRereads.exists_other
      ⟨item.span.start, (terminator span.stop rest₂).value⟩ hexpr
    apply KeywordRereads.exists_statement hskip hrest₁ hcovers hsteady
    rw [hform]
    exact hreads
termination_by 2 * rest.length + 2

theorem parseStatements_reread {opening : Option Span} {acc : List Statement} {items : List Item}
    {p : Parsed Item (List Statement × Nat) (items.length + 1)}
    (h : parseStatements opening acc items = .ok p) {behind : Nat} (horder : InOrder behind items)
    (hnames : ∀ x ∈ items, ∀ name, x.token = .identifier name → IsName name) :
    ∃ ss found, items = itemsOf ss ++ p.rest ∧ p.value.1 = acc.reverse ++ found
      ∧ Covers (statementsFindings g found) ss ∧ IsSteady ss ∧ (opening = none → p.rest = [])
      ∧ StatementsReread g opening ss p.rest found := by
  cases items with
  | nil =>
    unfold parseStatements at h
    split at h
    . cases h
    . cases h
      exact ⟨[], [], rfl, (List.append_nil _).symm, covers_map_kept [], isSteady_nil, fun _ => rfl,
        statementsReread_nil⟩
  | cons item rest =>
    unfold parseStatements at h
    dsimp only at h
    split at h
    . next d hd =>
      split at h
      . next heq =>
        rw [Bool.and_eq_true, decide_eq_true_eq] at heq
        obtain ⟨rfl, hsome⟩ := heq
        cases h
        refine ⟨[kept item], [], rfl, (List.append_nil _).symm, covers_map_kept [item],
          isSteady_nil.cons, ?_, statementsReread_closer hd hsome⟩
        rintro rfl
        cases hsome
      . cases h
    . next hitem =>
      obtain ⟨q, hq, h⟩ := map_eq_ok h
      obtain ⟨ss, found, hrest, hfound, hcovers, hsteady, hnone, hreads⟩ :=
        parseStatements_reread hq horder.2.2.2 fun x hx => hnames x (.tail _ hx)
      subst h
      exact ⟨kept item :: ss, found, congrArg (item :: ·) hrest, hfound, hcovers.cons item,
        hsteady.cons, hnone, hreads.separator hitem⟩
    . next hclosing hsemicolon =>
      obtain ⟨⟨s, rest', hlt⟩, hstatement, h⟩ := bind_eq_ok h
      obtain ⟨⟨statements, rest'', hlt'⟩, hstatements, h⟩ := bind_eq_ok h
      obtain ⟨ss, hrest, hcovers, hsteady, hreads⟩ :=
        parseStatement_rereads hstatement horder hnames
      dsimp only at hrest
      have hitems : item :: rest = itemsOf (kept item :: ss) ++ rest' := congrArg (item :: ·) hrest
      rw [hitems] at horder
      obtain ⟨ss', found, hrest', hfound, hcovers', hsteady', hnone, hreads'⟩ :=
        parseStatements_reread hstatements (inOrder_append.mp horder).2
          fun x hx => hnames x (by simp [hitems, hx])
      cases h
      dsimp only at hrest' hfound
      refine ⟨kept item :: ss ++ ss', s :: found, ?_, ?_, hcovers.append hcovers',
        hsteady.append hsteady', hnone, hreads'.statement hclosing hsemicolon hreads
          hcovers.isBrokenAfter_eq hrest' hsteady'⟩
      . show item :: rest = itemsOf (kept item :: ss ++ ss') ++ rest''
        rw [hitems, hrest', itemsOf_append, List.append_assoc]
      . simp [Parsed.within, Parsed.loosen, hfound]
termination_by 2 * items.length + 1

end

end Delegation
