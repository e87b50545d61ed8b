import Delegation.Proofs.Grammar.Params
import Delegation.Proofs.Grammar.ParsedMember
import Delegation.Proofs.Matching
import Delegation.Proofs.ModelGraphs
import Delegation.Proofs.Revision
import Delegation.Proofs.Trivia

/-!
This module contains how the type parameters of an alias are read that are written in its text: they
are divided at the commas that stand in no brackets, and the payload of a delegate hands them on.
-/

namespace Delegation

open Item

def Lexeme.located (l : Lexeme) : Located Token :=
  ⟨l.token, l.span⟩

def Item.located (item : Item) : Located Token :=
  ⟨item.token, item.span⟩

def writtenTokens (ls : List Lexeme) : List (Located Token) :=
  (significant ls).map Lexeme.located

theorem eq_of_map_parts {ts us : List (Located Token)}
    (h : ts.map (fun t => (t.value, t.span)) = us.map fun t => (t.value, t.span)) : ts = us := by
  apply List.map_injective_iff.mpr _ h
  rintro ⟨_, _⟩ ⟨_, _⟩ heq
  cases heq
  rfl

theorem map_located_itemsFrom (gap : Gap) (ls : List Lexeme) :
    (itemsFrom gap ls).map Item.located = writtenTokens ls := by
  induction ls generalizing gap with
  | nil => rfl
  | cons l ls ih =>
    cases htrivia : l.token.isTrivia with
    | true =>
      simpa [itemsFrom_cons_trivia ls htrivia, writtenTokens, significant, htrivia]
        using ih (gap.push l)
    | false =>
      simp only [itemsFrom_cons_item ls htrivia, writtenTokens, significant, List.map_cons, ih,
        htrivia, Bool.not_false, List.filter_cons_of_pos]
      rfl

theorem exists_itemsFrom_of_head? {ls : List Lexeme} {token : Token}
    (h : (writtenTokens ls).head?.map (·.value) = some token) :
    ∃ items, ∀ gap, ∃ item, itemsFrom gap ls = item :: items ∧ item.token = token := by
  induction ls with
  | nil => cases h
  | cons l ls ih =>
    cases htrivia : l.token.isTrivia with
    | true =>
      rw [writtenTokens, significant, List.filter_cons_of_neg (by simp [htrivia])] at h
      obtain ⟨items, hitems⟩ := ih h
      refine ⟨items, fun gap => ?_⟩
      rw [itemsFrom_cons_trivia ls htrivia]
      exact hitems (gap.push l)
    | false =>
      rw [writtenTokens, significant, List.filter_cons_of_pos (by simp [htrivia])] at h
      cases h
      exact ⟨_, fun gap => ⟨_, itemsFrom_cons_item ls htrivia, rfl⟩⟩

def Token.isOpening : Token → Bool
  | opening _ => true
  | _ => false

/--
A type parameter as it is written: its modifiers, its name, and its constraint and its default.
These may be any tokens whose brackets have their partners, with commas only between brackets.
-/
structure WrittenParam where
  modifiers : List (Located String)
  name : Located String
  suffix : List (Located Token)
  modifiers_mem : ∀ word ∈ modifiers, word.value ∈ ["const", "in", "out"]
  name_notMem : name.value ∉ ["const", "in", "out"]
  isWellNested : IsWellNested ((suffix.map (·.value)).filter Token.isDelimiter)
  isEnclosed : ∀ i, (hi : i < suffix.length) → suffix[i].value = .sign .comma →
    (suffix.take i).countP (·.value.isClosing) < (suffix.take i).countP (·.value.isOpening)

namespace WrittenParam

def tokens (p : WrittenParam) : List (Located Token) :=
  p.modifiers.map (·.map .identifier) ++ p.name.map .identifier :: p.suffix

/--
What is known of the parameter in the tree. Its span goes from its name to the end of its last
token.
-/
def param (p : WrittenParam) : TypeParam :=
  ⟨p.name, ⟨p.name.span.start, (p.suffix.getLast?.map (·.span.stop)).getD p.name.span.stop⟩⟩

end WrittenParam

/--
Whether `tokens` are the type parameters `ps` with a comma between any two of them, and maybe one
behind the last.
-/
inductive AreWritten : (tokens : List (Located Token)) → (ps : List WrittenParam) → Prop where
  | last (p : WrittenParam) : AreWritten p.tokens [p]
  | trailing (p : WrittenParam) {comma : Located Token} (hcomma : comma.value = .sign .comma) :
    AreWritten (p.tokens ++ [comma]) [p]
  | cons (p : WrittenParam) {comma : Located Token} {tokens : List (Located Token)}
    {ps : List WrittenParam} (hcomma : comma.value = .sign .comma)
    (htail : AreWritten tokens ps) : AreWritten (p.tokens ++ comma :: tokens) (p :: ps)

def IsParamList (tokens : List (Located Token)) (ps : List WrittenParam) : Prop :=
  ∃ opener inner closer, tokens = opener :: (inner ++ [closer])
    ∧ opener.value = .opening .angle ∧ closer.value = .closing .angle ∧ AreWritten inner ps

/-!
The items of a written parameter.
-/

theorem map_token_of_located {items : List Item} {tokens : List (Located Token)}
    (h : items.map Item.located = tokens) : items.map Item.token = tokens.map (·.value) := by
  rw [← h, List.map_map]
  rfl

theorem IsWellNested.countP_eq {ts : List Token} (h : IsWellNested ts) :
    ts.countP Token.isClosing = ts.countP Token.isOpening := by
  induction h with
  | nil => rfl
  | group _ _ ihinner ihafter =>
    simp [List.countP_cons, Token.isClosing, Token.isOpening, ihinner, ihafter]
    omega

theorem IsBalanced.countP_eq {items : List Item} (h : IsBalanced items) :
    (items.map Item.token).countP Token.isClosing
      = (items.map Item.token).countP Token.isOpening := by
  have := h.isWellNested.countP_eq
  rw [delimitersOf, List.countP_filter, List.countP_filter] at this
  have hclosing (t : Token) : (t.isClosing && t.isDelimiter) = t.isClosing := by cases t <;> rfl
  have hopening (t : Token) : (t.isOpening && t.isDelimiter) = t.isOpening := by cases t <;> rfl
  simpa only [hclosing, hopening] using this

theorem stopAfter_eq_getLast? (stop : Nat) (items : List Item) :
    stopAfter stop items = (items.getLast?.map (·.span.stop)).getD stop := by
  induction items generalizing stop with
  | nil => rfl
  | cons item items ih =>
    rw [stopAfter, ih, List.getLast?_cons]
    cases items.getLast? <;> rfl

namespace WrittenParam

theorem hasNoSeparator (p : WrittenParam) {items : List Item}
    (h : items.map Item.located = p.suffix) : HasNoSeparator items where
  balanced := by
    apply p.isWellNested.isBalanced
    rw [delimitersOf, map_token_of_located h]
  enclosed := by
    rintro before comma after rfl hcomma hbefore
    have htake : p.suffix.take before.length = before.map Item.located := by
      rw [← h, List.map_append, List.take_append_of_le_length (by simp)]
      simp
    have hlength : before.length < p.suffix.length := by
      rw [← h]
      simp
    have hlt := p.isEnclosed before.length hlength (by simpa [← h, Item.located] using hcomma)
    have heq := hbefore.countP_eq
    rw [htake] at hlt
    simp only [List.countP_map] at hlt heq
    exact absurd heq (Nat.ne_of_lt hlt)

theorem exists_items (p : WrittenParam) {items : List Item}
    (h : items.map Item.located = p.tokens) :
    ∃ mods name suffix, items = mods ++ name :: suffix
      ∧ (∀ mod ∈ mods, mod.token.isWordOf paramModifiers = true)
      ∧ name.token = .identifier p.name.value ∧ p.name.value ∉ paramModifiers
      ∧ HasNoSeparator suffix
      ∧ ⟨⟨p.name.value, name.span⟩, ⟨name.span.start, stopAfter name.span.stop suffix⟩⟩
        = p.param := by
  obtain ⟨mods, more, rfl, hmods, hmore⟩ := List.map_eq_append_iff.mp h
  obtain ⟨name, suffix, rfl, hname, hsuffix⟩ := List.map_eq_cons_iff.mp hmore
  refine ⟨mods, name, suffix, rfl, ?_, congrArg Located.value hname, p.name_notMem,
    p.hasNoSeparator hsuffix, ?_⟩
  . intro mod hmod
    have hmem := List.mem_map_of_mem (f := Item.located) hmod
    rw [hmods] at hmem
    obtain ⟨word, hword, heq⟩ := List.mem_map.mp hmem
    have htoken : mod.token = .identifier word.value := (congrArg Located.value heq).symm
    rw [htoken]
    exact List.contains_iff_mem.mpr (p.modifiers_mem word hword)
  . have hspan : name.span = p.name.span := congrArg Located.span hname
    rw [stopAfter_eq_getLast?, param, ← hsuffix, hspan, List.getLast?_map, Option.map_map]
    rfl

end WrittenParam

theorem AreWritten.splitsInto {tokens : List (Located Token)} {ps : List WrittenParam}
    (h : AreWritten tokens ps) {items : List Item} (hitems : items.map Item.located = tokens) :
    SplitsInto items (ps.map (·.param)) := by
  induction h generalizing items with
  | last p =>
    obtain ⟨mods, name, suffix, rfl, hmods, hname, htext, hsuffix, hparam⟩ := p.exists_items hitems
    rw [List.map_singleton, ← hparam]
    exact .last hmods hname htext hsuffix
  | trailing p hcomma =>
    obtain ⟨front, back, rfl, hfront, hback⟩ := List.map_eq_append_iff.mp hitems
    obtain ⟨comma, rest, rfl, rfl, hrest⟩ := List.map_eq_cons_iff.mp hback
    obtain rfl := List.map_eq_nil_iff.mp hrest
    obtain ⟨mods, name, suffix, rfl, hmods, hname, htext, hsuffix, hparam⟩ := p.exists_items hfront
    rw [List.map_singleton, ← hparam, List.append_assoc, List.cons_append]
    exact .cons hmods hname htext hsuffix hcomma .nil
  | cons p hcomma _ ih =>
    obtain ⟨front, back, rfl, hfront, hback⟩ := List.map_eq_append_iff.mp hitems
    obtain ⟨comma, rest, rfl, rfl, hrest⟩ := List.map_eq_cons_iff.mp hback
    obtain ⟨mods, name, suffix, rfl, hmods, hname, htext, hsuffix, hparam⟩ := p.exists_items hfront
    rw [List.map_cons, ← hparam, List.append_assoc, List.cons_append]
    exact .cons hmods hname htext hsuffix hcomma (ih hrest)

theorem IsParamList.leaves_parseParamList {list : List Lexeme} {ps : List WrittenParam}
    (h : IsParamList (writtenTokens list) ps) (gap : Gap) (rest : List Item) :
    Leaves rest (· = ps.map (·.param)) (parseParamList (itemsFrom gap list ++ rest))
      ∧ startsWith (· == .opening .angle) (itemsFrom gap list ++ rest) = true := by
  obtain ⟨opener', inner', closer', htokens, hopener, hcloser, hinner⟩ := h
  rw [← map_located_itemsFrom gap] at htokens
  obtain ⟨opener, more, hitems, rfl, hmore⟩ := List.map_eq_cons_iff.mp htokens
  obtain ⟨inner, last, rfl, hlocated, hlast⟩ := List.map_eq_append_iff.mp hmore
  obtain ⟨closer, none, rfl, rfl, hnone⟩ := List.map_eq_cons_iff.mp hlast
  obtain rfl := List.map_eq_nil_iff.mp hnone
  rw [hitems, List.cons_append, List.append_assoc, List.singleton_append]
  refine ⟨(hinner.splitsInto hlocated).leaves_parseParamList hopener hcloser, ?_⟩
  exact beq_iff_eq.mpr hopener

/--
Whether the type parameters of an alias are `params` if `list` stands between its name and its `=`.
-/
def ReadsParams (list : List Lexeme) (params : List TypeParam) : Prop :=
  ∀ gap equals items, equals.token = .sign .equals →
    Leaves (equals :: items) (· = params) (parseParamList (itemsFrom gap list ++ equals :: items))
      ∧ startsWith (fun t => t == .opening .angle || t == .sign .equals)
        (itemsFrom gap list ++ equals :: items) = true

theorem readsParams_nil : ReadsParams [] [] := by
  intro gap equals items hequals
  rw [itemsFrom_nil, List.nil_append, parseParamList, if_neg (by simp [hequals])]
  exact ⟨.leaving rfl, by simp [startsWith, hequals]⟩

theorem IsParamList.readsParams {list : List Lexeme} {ps : List WrittenParam}
    (h : IsParamList (writtenTokens list) ps) : ReadsParams list (ps.map (·.param)) := by
  intro gap equals items _
  obtain ⟨hparams, hopener⟩ := h.leaves_parseParamList gap (equals :: items)
  refine ⟨hparams, ?_⟩
  generalize itemsFrom gap list ++ equals :: items = all at hopener
  cases all with
  | nil => cases hopener
  | cons item rest => exact Bool.or_eq_true_iff.mpr (.inl hopener)

/-!
The alias in front of whose type the parameters are written.
-/

theorem parseAlias_head {start : Nat} {items : List Item} {p : Parsed Item TypeAlias items.length}
    (h : parseAlias start items = .ok p) :
    ∃ name rest q, items = name :: rest ∧ name.located = p.value.name.map .identifier
      ∧ parseParamList rest = .ok q ∧ q.value = p.value.params := by
  unfold parseAlias at h
  obtain ⟨⟨located, rest₁, h₁⟩, hname, h⟩ := bind_eq_ok h
  obtain ⟨_, hand, h⟩ := bind_eq_ok h
  obtain ⟨params, rest₂, h₂, _, hparams, rfl⟩ := andMaybe_eq_ok hand
  obtain ⟨_, hand, h⟩ := bind_eq_ok h
  obtain ⟨equals, rest₃, h₃, _, _, rfl⟩ := andThen_eq_ok hand
  obtain ⟨_, hand, h⟩ := bind_eq_ok h
  obtain ⟨type, rest₄, h₄, _, _, rfl⟩ := andThen_eq_ok hand
  obtain ⟨name, text, hitems, htoken, hlocated⟩ := parseName_eq_ok hname
  cases h
  refine ⟨name, rest₁, _, hitems, ?_, hparams, rfl⟩
  dsimp only at hlocated
  simp only [Item.located, Parsed.map, hlocated, Located.map, htoken]

namespace Item

theorem InOrder.start_lt {start : Nat} {first item : Item} {between rest : List Item}
    (h : InOrder start (first :: (between ++ item :: rest))) :
    first.span.start < item.span.start := by
  obtain ⟨_, _, hfirst, hmore⟩ := h
  obtain ⟨hbetween, hitem, hlead, _⟩ := inOrder_append.mp hmore
  have := hbetween.le_stopAfter
  omega

theorem InOrder.rest_eq {start : Nat} {front back front' back' : List Item} {item item' : Item}
    (h : InOrder start (front ++ item :: back))
    (heq : front ++ item :: back = front' ++ item' :: back') (hspan : item.span = item'.span) :
    back = back' := by
  have h' := h
  rw [heq] at h'
  rcases List.append_eq_append_iff.mp heq with ⟨between, rfl, hbetween⟩ | ⟨between, rfl, hbetween⟩
  . cases between with
    | nil => exact (List.cons.inj hbetween).2
    | cons first between =>
      obtain ⟨rfl, rfl⟩ := List.cons.inj hbetween
      have := (inOrder_append.mp h).2.start_lt
      exact absurd (congrArg Span.start hspan) (Nat.ne_of_lt this)
  . cases between with
    | nil => exact (List.cons.inj hbetween).2.symm
    | cons first between =>
      obtain ⟨rfl, rfl⟩ := List.cons.inj hbetween
      have := (inOrder_append.mp h').2.start_lt
      exact absurd (congrArg Span.start hspan).symm (Nat.ne_of_lt this)

end Item

section

variable {source : List Char} {front list back : List Lexeme} {ps : List WrittenParam}
  {tree : DeclarationTree} {a : TypeAlias}

theorem DeclarationTree.params_eq (h : tokenize source = .ok (front ++ list ++ back))
    (hlist : IsParamList (writtenTokens list) ps)
    (htree : ofLexemes (front ++ list ++ back) = .ok tree) (ha : a ∈ tree.aliases)
    (hname : (writtenTokens front).getLast? = some (a.name.map .identifier)) :
    a.params = ps.map (·.param) := by
  obtain ⟨start, items, p, hsuffix, hparse, rfl⟩ := isParsedIn_of_mem_aliases htree a ha
  obtain ⟨name, rest, q, rfl, hlocated, hparams, hvalue⟩ := parseAlias_head hparse
  obtain ⟨before, hitems⟩ := hsuffix
  rw [← map_located_itemsFrom .empty, List.getLast?_map, Option.map_eq_some_iff] at hname
  obtain ⟨last, hlast, hsame⟩ := hname
  obtain ⟨others, hfront⟩ := List.getLast?_eq_some_iff.mp hlast
  have hsplit : Item.ofLexemes (front ++ list ++ back) = others ++ last
      :: (itemsFrom (Gap.empty.after front) list
        ++ itemsFrom (Gap.empty.after (front ++ list)) back) := by
    show itemsFrom .empty _ = _
    rw [itemsFrom_append, itemsFrom_append, hfront]
    simp
  have horder : InOrder 0 (Item.ofLexemes (front ++ list ++ back)) :=
    (tokenize_eq_ok.mp h).areLaid.inOrder
  rw [hsplit] at horder hitems
  have hrest := horder.rest_eq hitems.symm (congrArg Located.span (hsame.trans hlocated.symm))
  obtain ⟨⟨params, hlt, hok, rfl⟩, _⟩ := hlist.leaves_parseParamList (Gap.empty.after front)
    (itemsFrom (Gap.empty.after (front ++ list)) back)
  subst hrest
  rw [hparams] at hok
  rw [← hvalue, Except.ok.inj hok]

theorem Site.typeAlias_mem_sites (ha : a ∈ tree.aliases) : Site.typeAlias a ∈ tree.sites := by
  obtain ⟨node, hnode, halias⟩ := List.mem_filterMap.mp ha
  cases node with
  | typeAlias a' =>
    cases halias
    have hmem : Node.typeAlias a ∈ tree.sites.map Site.node := by
      rw [tree.map_node_sites]
      exact List.mem_filter.mpr ⟨hnode, rfl⟩
    obtain ⟨site, hsite, heq⟩ := List.mem_map.mp hmem
    cases site with
    | typeAlias =>
      cases heq
      exact hsite
    | member => cases heq
  | _ => cases halias

theorem replacement_mem_editsFor {m : Model} {r : DelegateRelation} (ha : a ∈ tree.aliases)
    (hr : r ∈ (DelegateGraph.ofModel m).relations)
    (hname : a.name.value = Client.payloadAlias r.delegate.name) (hne : r.subtypes ≠ []) :
    .replacement a.type.span
        (Client.payloadUnion r.subtypes (a.params.map (·.name.value))).render
      ∈ editsFor (tree.findings (.ofModel m)) := by
  have hentity : Client.payloadEntity? a.name.value = some r.delegate.name :=
    Client.payloadEntity?_eq_some.mpr ⟨hname, r.delegate.name_ne_empty⟩
  have hrelation : a.payloadRelation? (.ofModel m) = some r := by
    have hdegenerate : r.isDegenerate = false := by
      simpa [DelegateRelation.isDegenerate] using hne
    rw [TypeAlias.payloadRelation?, DelegateGraph.find?_payloadAlias, hentity, Option.bind_some,
      DelegateGraph.find?_of_mem (DelegateGraph.isOf_ofModel m).nodup hr]
    simp [hdegenerate]
  show _ ∈ (tree.findings (.ofModel m)).filterMap Finding.edit?
  rw [tree.filterMap_edit?_findings]
  apply List.mem_filterMap.mpr
  refine ⟨.typeAlias a, Site.typeAlias_mem_sites ha, ?_⟩
  rw [Site.edit?, hrelation, Option.map_some]

theorem Passage.AllFit.fits_of_mem {start : Nat} {passages : List Passage}
    (h : AllFit start passages) {p : Passage} (hp : p ∈ passages) : ∃ start', p.Fits start' := by
  induction passages generalizing start with
  | nil => cases hp
  | cons first passages ih =>
    rcases List.mem_cons.mp hp with rfl | hp
    . exact ⟨start, h.1⟩
    . exact ih h.2 hp

theorem replacement_mem_kept {g : DelegateGraph} (h : DeclarationTree.parse source = .ok tree)
    {settled : Settlement} (hsettle : settle (editsFor (tree.findings g)) = .ok settled)
    {span : Span} {text : List Char}
    (he : .replacement span text ∈ editsFor (tree.findings g)) :
    .replacement span text ∈ settled.kept := by
  obtain ⟨ps, tail, subsumed, _, hps, hedits, _, _, hsettle'⟩ := exists_passages_of_parse g h
  obtain rfl := Except.ok.inj (hsettle'.symm.trans hsettle)
  rw [← hedits] at he
  obtain ⟨p, hp, he⟩ := List.mem_flatMap.mp he
  apply List.mem_map.mpr
  refine ⟨p, hp, ?_⟩
  rcases List.mem_cons.mp he with he | he
  . exact he.symm
  . obtain ⟨_, hfits⟩ := hps.fits_of_mem hp
    obtain ⟨⟨_, hremoval⟩, _⟩ := hfits.inner _ he
    cases hremoval

theorem exists_readStatements_alias {mods : List (Located Token)} {word : Located Token}
    {name : Located String} (hfront : writtenTokens front = mods ++ [word, name.map .identifier])
    (hmods : ∀ mod ∈ mods, ∃ text ∈ statementModifiers, mod.value = .identifier text)
    (hword : word.value = .identifier "type")
    (hback : (writtenTokens back).head?.map (·.value) = some (.sign .equals)) :
    ∃ start items, ∀ list params, ReadsParams list params →
      readStatements [] (Item.ofLexemes (front ++ list ++ back))
        = (readAliased items).map fun (type, stop, ss) =>
          .typeAlias ⟨name, params, type, ⟨start, stop⟩⟩ :: ss := by
  obtain ⟨items, hitems⟩ := exists_itemsFrom_of_head? hback
  rw [← map_located_itemsFrom .empty] at hfront
  obtain ⟨mods', more, hfront, rfl, hmore⟩ := List.map_eq_append_iff.mp hfront
  obtain ⟨keyword, rest, rfl, rfl, hrest⟩ := List.map_eq_cons_iff.mp hmore
  obtain ⟨item, none, rfl, hname, hnone⟩ := List.map_eq_cons_iff.mp hrest
  obtain rfl := List.map_eq_nil_iff.mp hnone
  obtain ⟨first, hfirst⟩ : ∃ first, ∀ tail, ∃ more, mods' ++ keyword :: tail = first :: more := by
    cases mods' with
    | nil => exact ⟨keyword, fun tail => ⟨tail, rfl⟩⟩
    | cons mod mods => exact ⟨mod, fun tail => ⟨mods ++ keyword :: tail, rfl⟩⟩
  have hmods' : ∀ mod ∈ mods', mod.token.isWordOf statementModifiers = true := by
    intro mod hmod
    obtain ⟨text, htext, htoken⟩ := hmods _ (List.mem_map_of_mem hmod)
    have htoken : mod.token = .identifier text := htoken
    rw [htoken]
    exact List.contains_iff_mem.mpr htext
  refine ⟨first.span.start, items, fun list params hlist => ?_⟩
  obtain ⟨equals, hequals, htoken⟩ := hitems (Gap.empty.after (front ++ list))
  obtain ⟨hparams, hnext⟩ := hlist (Gap.empty.after front) equals items htoken
  have hall : Item.ofLexemes (front ++ list ++ back) = mods' ++ keyword
      :: item :: (itemsFrom (Gap.empty.after front) list ++ equals :: items) := by
    show itemsFrom .empty _ = _
    rw [itemsFrom_append, itemsFrom_append, hfront, hequals]
    simp
  have hlocated : (⟨name.value, item.span⟩ : Located String) = name := by
    have hspan : item.span = name.span := congrArg Located.span hname
    rw [hspan]
  obtain ⟨more, hmore⟩ := hfirst (item :: (itemsFrom (Gap.empty.after front) list
    ++ equals :: items))
  rw [hall, hmore, readStatements_alias_eq hmods' hword (congrArg Located.value hname) htoken
    hparams hnext hmore, hlocated]

theorem endOfText_append {ls ms : List Lexeme} (h : ms ≠ []) :
    endOfText (ls ++ ms) = endOfText ms := by
  rw [endOfText, List.getLast?_append_of_ne_nil _ h, endOfText]

/--
The type parameters of an alias are those that are written, in the same order: they are divided at
the commas that stand in no brackets. If the alias is the payload of a delegate with subtypes, its
type becomes a union in which the payload of each subtype has the names of all of them as arguments.
An alias at the start of a file is parsed with type parameters exactly if it is without them, and
nothing else in the tree depends on them.
-/
theorem DeclarationTree.parse_typeParams
    (h : tokenize source = .ok (front ++ list ++ back))
    (hlist : IsParamList (writtenTokens list) ps) :
    (∀ tree, parse source = .ok tree → ∀ a ∈ tree.aliases,
      (writtenTokens front).getLast? = some (a.name.map .identifier) →
      a.params = ps.map (·.param)
        ∧ ∀ m, ∀ r ∈ (DelegateGraph.ofModel m).relations,
          a.name.value = Client.payloadAlias r.delegate.name → r.subtypes ≠ [] →
          let findings := tree.findings (.ofModel m)
          let arms := r.subtypes.map fun subtype =>
            TypeNode.parenthesized (.intersection [
              .reference (Client.payloadAlias subtype.name)
                (ps.map fun p => .reference p.name.value []),
              Client.discriminator subtype])
          ∃ (settled : Settlement) (s : Splice),
            settle (findings.filterMap Finding.edit?) = .ok settled
            ∧ .replacement a.type.span (TypeNode.union arms).render ∈ settled.kept
            ∧ s.IsOf source 0 settled.kept
            ∧ revise m source = .ok ⟨s.text, .ofFindings findings⟩)
      ∧ ∀ mods word name, writtenTokens front = mods ++ [word, Located.map .identifier name] →
        (∀ mod ∈ mods, ∃ text ∈ statementModifiers, mod.value = .identifier text) →
        word.value = .identifier "type" →
        (writtenTokens back).head?.map (·.value) = some (.sign .equals) →
        (∀ d, ofLexemes (front ++ back) = .error d → parse source = .error (.ofDiagnostic d))
          ∧ ∀ tree, ofLexemes (front ++ back) = .ok tree →
            ∃ a ss, tree.statements = .typeAlias a :: ss ∧ a.name = name ∧ a.params = []
              ∧ parse source
                = .ok ⟨.typeAlias { a with params := ps.map (·.param) } :: ss, tree.span⟩ := by
  have hparse : parse source = (ofLexemes (front ++ list ++ back)).mapError .ofDiagnostic := by
    rw [parse, h]
    dsimp only [bind, Except.bind]
    cases ofLexemes (front ++ list ++ back) with
    | error d => rfl
    | ok tree => rfl
  constructor
  . intro tree htree a ha hname
    have hof : ofLexemes (front ++ list ++ back) = .ok tree := by
      rw [hparse] at htree
      cases hof : ofLexemes (front ++ list ++ back) with
      | error d =>
        rw [hof] at htree
        cases htree
      | ok other =>
        rw [hof] at htree
        cases htree
        rfl
    have hparams := params_eq h hlist hof ha hname
    refine ⟨hparams, ?_⟩
    intro m r hr halias hne findings arms
    have hedit := replacement_mem_editsFor ha hr halias hne
    obtain ⟨settled, s, _, _, hsettle, hs, _⟩ := exists_splice_of_parse (.ofModel m) htree
    refine ⟨settled, s, hsettle, ?_, isOf_of_spliceFrom ⟨[], rfl, rfl⟩ hs,
      revise_of_parse htree hsettle hs⟩
    have harms : Client.payloadUnion r.subtypes (a.params.map (·.name.value)) = .union arms := by
      apply congrArg TypeNode.union
      apply List.map_congr_left
      intro subtype _
      rw [Client.payloadArm, TypeNode.withArgs, List.nil_append, hparams, List.map_map,
        List.map_map]
      rfl
    rw [← harms]
    exact replacement_mem_kept htree hsettle hedit
  . intro mods word name hfront hmods hword hback
    obtain ⟨start, items, hread⟩ := exists_readStatements_alias hfront hmods hword hback
    have hne : back ≠ [] := by
      rintro rfl
      cases hback
    have hwithout := hread [] [] readsParams_nil
    rw [List.append_nil] at hwithout
    rw [hparse, ofLexemes_eq, ofLexemes_eq, hwithout, hread list _ hlist.readsParams,
      endOfText_append hne, endOfText_append hne]
    cases readAliased items with
    | error x =>
      refine ⟨?_, by rintro _ ⟨⟩⟩
      rintro _ ⟨⟩
      rfl
    | ok p =>
      refine ⟨by rintro _ ⟨⟩, ?_⟩
      rintro _ ⟨⟩
      exact ⟨_, _, rfl, rfl, rfl, rfl⟩

end

/--
The commas and the arrow in the default of a parameter do not end it, and there is a comma behind
the last parameter.
-/
theorem DeclarationTree.parse_typeParams_arrow :
    let source := "type $AssetPayload<in T = (a: A, b: B) => C, // d\n U,> = X".toList
    let ls := (tokenize source).toOption.getD []
    let front := ls.take 3
    let list := (ls.drop 3).take 31
    let back := ls.drop 34
    let text := "type $AssetPayload<in T = (a: A, b: B) => C, // d\n U,> = ".toList
      ++ "($VideoPayload<T, U> & \x7b scalars: \x7b delegatedType: \x27Video\x27 \x7d \x7d)".toList
    let m : Model := ⟨[⟨⟨"Asset", by decide⟩, false, [], [⟨"@@delegate", none⟩], []⟩,
      ⟨⟨"Video", by decide⟩, false, [], [], [⟨"Asset", by decide⟩]⟩]⟩
    ∃ ps, tokenize source = .ok (front ++ list ++ back) ∧ IsParamList (writtenTokens list) ps
      ∧ ∃ tree a, parse source = .ok tree ∧ tree.statements.head? = some (.typeAlias a)
        ∧ a.params = ps.map (·.param)
        ∧ ps.map (fun p => (p.name.value, p.param.span)) = [("T", ⟨22, 43⟩), ("U", ⟨51, 52⟩)]
        ∧ revise m source = .ok ⟨text, ⟨1, 0, 0, 0, 0⟩⟩ := by
  intro source ls front list back text m
  let first : WrittenParam := ⟨[⟨"in", ⟨19, 21⟩⟩], ⟨"T", ⟨22, 23⟩⟩,
    [⟨.sign .equals, ⟨24, 25⟩⟩, ⟨.opening .paren, ⟨26, 27⟩⟩, ⟨.identifier "a", ⟨27, 28⟩⟩,
      ⟨.sign .colon, ⟨28, 29⟩⟩, ⟨.identifier "A", ⟨30, 31⟩⟩, ⟨.sign .comma, ⟨31, 32⟩⟩,
      ⟨.identifier "b", ⟨33, 34⟩⟩, ⟨.sign .colon, ⟨34, 35⟩⟩, ⟨.identifier "B", ⟨36, 37⟩⟩,
      ⟨.closing .paren, ⟨37, 38⟩⟩, ⟨.sign .arrow, ⟨39, 41⟩⟩, ⟨.identifier "C", ⟨42, 43⟩⟩],
    by decide, by decide, .group .nil .nil, by decide⟩
  let second : WrittenParam :=
    ⟨[], ⟨"U", ⟨51, 52⟩⟩, [], by decide, by decide, .nil, by decide⟩
  have htokens : tokenize source = .ok (front ++ list ++ back) := by decide +kernel
  have hlist : IsParamList (writtenTokens list) [first, second] := by
    let comma (start : Nat) : Located Token := ⟨.sign .comma, ⟨start, start + 1⟩⟩
    have hwritten : AreWritten (first.tokens ++ comma 43 :: (second.tokens ++ [comma 52]))
        [first, second] :=
      .cons first rfl (.trailing second rfl)
    refine ⟨⟨.opening .angle, ⟨18, 19⟩⟩, _, ⟨.closing .angle, ⟨53, 54⟩⟩, ?_, rfl, rfl, hwritten⟩
    apply eq_of_map_parts
    decide +kernel
  have hfront : writtenTokens front
      = [] ++ [⟨.identifier "type", ⟨0, 4⟩⟩, ⟨.identifier "$AssetPayload", ⟨5, 18⟩⟩] := by
    apply eq_of_map_parts
    decide +kernel
  have hok : (ofLexemes (front ++ back)).isOk = true := by decide +kernel
  obtain ⟨tree, htree⟩ := exists_of_isOk hok
  obtain ⟨a, ss, _, _, _, hparse⟩ := ((parse_typeParams htokens hlist).2 [] _
    ⟨"$AssetPayload", ⟨5, 18⟩⟩ hfront (by simp) rfl (by decide +kernel)).2 tree htree
  exact ⟨[first, second], htokens, hlist, _, _, hparse, rfl, rfl, rfl, by decide +kernel⟩

end Delegation
