import Delegation.Declaration.Visit
import Delegation.Proofs.Grammar.Node

/-!
This module contains the members and the type aliases of a declaration tree, however deep, and where
they come from: each of them is what its parser returns at one of the items.
-/

namespace Delegation

open Item

def Member.IsParsedIn (items : List Item) (m : Member) : Prop :=
  ∃ item rest p, item :: rest <:+ items ∧ parseMember item rest = .ok p ∧ p.value = m

def TypeAlias.IsParsedIn (items : List Item) (a : TypeAlias) : Prop :=
  ∃ start rest p, rest <:+ items ∧ parseAlias start rest = .ok p ∧ p.value = a

def Node.IsParsedIn (items : List Item) : Node → Prop
  | typeAlias a => a.IsParsedIn items
  | member _ m => m.IsParsedIn items
  | _ => True

theorem Node.IsParsedIn.mono {items more : List Item} {node : Node} (h : node.IsParsedIn items)
    (hmore : items <:+ more) : node.IsParsedIn more := by
  cases node with
  | typeAlias a =>
    obtain ⟨start, rest, p, hsuffix, hp⟩ := h
    exact ⟨start, rest, p, hsuffix.trans hmore, hp⟩
  | member owner m =>
    obtain ⟨item, rest, p, hsuffix, hp⟩ := h
    exact ⟨item, rest, p, hsuffix.trans hmore, hp⟩
  | _ => trivial

def AreParsedIn (items : List Item) (nodes : List Node) : Prop :=
  ∀ node ∈ nodes, node.IsParsedIn items

namespace AreParsedIn

variable {items more : List Item} {nodes nodes' : List Node}

theorem mono (h : AreParsedIn items nodes) (hmore : items <:+ more) : AreParsedIn more nodes :=
  fun node hnode => (h node hnode).mono hmore

theorem append (h : AreParsedIn items nodes) (h' : AreParsedIn items nodes') :
    AreParsedIn items (nodes ++ nodes') :=
  List.forall_mem_append.mpr ⟨h, h'⟩

theorem nil : AreParsedIn items [] := by
  intro node hnode
  cases hnode

theorem cons {node : Node} (hnode : node.IsParsedIn items) (h : AreParsedIn items nodes) :
    AreParsedIn items (node :: nodes) :=
  List.forall_mem_cons.mpr ⟨hnode, h⟩

theorem visitObjects_nil : AreParsedIn items (visitObjects (fun _ => false) []) := by
  rw [visitObjects]
  exact .nil

theorem visitObjects_append {os os' : List ObjectType}
    (h : AreParsedIn items (visitObjects (fun _ => false) os))
    (h' : AreParsedIn items (visitObjects (fun _ => false) os')) :
    AreParsedIn items (visitObjects (fun _ => false) (os ++ os')) := by
  rw [Delegation.visitObjects_append]
  exact h.append h'

end AreParsedIn

mutual

theorem parseTerm_areParsedIn {collect : Bool} {item : Item} {rest : List Item}
    {p : Parsed Item Term (rest.length + 1)} (h : parseTerm collect item rest = .ok p) :
    AreParsedIn rest (visitObjects (fun _ => false) p.value.objects) := by
  unfold parseTerm at h
  split at h
  . split at h
    . obtain ⟨members, hmembers, h⟩ := bind_eq_ok h
      cases h
      have := parseMembers_areParsedIn hmembers (.typeLiteral ⟨members.value.1,
        ⟨item.span.start, members.value.2.stop⟩⟩)
      simp only [Parsed.map, Parsed.loosen, visitObjects, visitObject, List.append_nil]
      exact .cons trivial this
    . obtain ⟨group, hgroup, h⟩ := bind_eq_ok h
      cases h
      exact parseGroup_areParsedIn hgroup
  . cases h
    exact .visitObjects_nil
termination_by 4 * rest.length + 4

theorem parseGroup_areParsedIn {collect : Bool} {opening : OpenDelimiter} {items : List Item}
    {p : Parsed Item (List ObjectType × Span) items.length}
    (h : parseGroup collect opening items = .ok p) :
    AreParsedIn items (visitObjects (fun _ => false) p.value.1) := by
  unfold parseGroup at h
  split at h
  . cases h
  . next item rest =>
    split at h
    . cases h
      exact .visitObjects_nil
    . split at h
      . cases h
      . next hclosing =>
        obtain ⟨⟨term, rest', hlt⟩, hterm, h⟩ := bind_eq_ok h
        obtain ⟨⟨group, rest'', hlt'⟩, hgroup, h⟩ := bind_eq_ok h
        have hitem : ∀ d, item.token ≠ .closing d := by
          intro d hd
          simp [hd, Token.isClosing] at hclosing
        obtain ⟨more, hrest, _⟩ := parseTerm_eq_ok hterm hitem
        have hfirst := parseTerm_areParsedIn hterm
        have hothers := parseGroup_areParsedIn hgroup
        cases h
        dsimp only at hrest
        subst hrest
        exact .visitObjects_append (hfirst.mono (List.suffix_cons ..))
          (hothers.mono ⟨item :: more, by simp⟩)
termination_by 4 * items.length + 1

theorem parseRun_areParsedIn {collect : Bool} {place : Place} {last : Option Token} {stop : Nat}
    {items : List Item} {p : Parsed Item (List ObjectType × Nat) (items.length + 1)}
    (h : parseRun collect place last stop items = .ok p) :
    AreParsedIn items (visitObjects (fun _ => false) p.value.1) := by
  unfold parseRun at h
  split at h
  . cases h
    exact .visitObjects_nil
  . next item rest =>
    split at h
    . cases h
      exact .visitObjects_nil
    . next hends =>
      obtain ⟨⟨term, rest', hlt⟩, hterm, h⟩ := bind_eq_ok h
      obtain ⟨⟨run, rest'', hlt'⟩, hrun, h⟩ := bind_eq_ok h
      have hitem : ∀ d, item.token ≠ .closing d := by
        intro d hd
        simp [endsBefore, hd, Token.isTerminator] at hends
      obtain ⟨more, hrest, _⟩ := parseTerm_eq_ok hterm hitem
      have hfirst := parseTerm_areParsedIn hterm
      have hothers := parseRun_areParsedIn hrun
      cases h
      dsimp only at hrest
      subst hrest
      exact .visitObjects_append (hfirst.mono (List.suffix_cons ..))
        (hothers.mono ⟨item :: more, by simp⟩)
termination_by 4 * items.length + 1

theorem parseMembers_areParsedIn {opening : Span} {items : List Item}
    {p : Parsed Item (List Member × Span) items.length}
    (h : parseMembers opening items = .ok p) (owner : Owner) :
    AreParsedIn items (visitMembers (fun _ => false) owner p.value.1) := by
  unfold parseMembers at h
  split at h
  . cases h
  . next item rest =>
    have step : (parseMembers opening rest).map .loosen = .ok p →
        AreParsedIn (item :: rest) (visitMembers (fun _ => false) owner p.value.1) := by
      intro hmap
      obtain ⟨q, hq, rfl⟩ := map_eq_ok hmap
      exact (parseMembers_areParsedIn hq owner).mono (List.suffix_cons ..)
    split at h
    . split at h
      . cases h
        simp only [Parsed.leaving, visitMembers]
        exact .nil
      . cases h
    . exact step h
    . exact step h
    . next hclosing hsemicolon hcomma =>
      obtain ⟨⟨m, rest', hlt⟩, hmember, h⟩ := bind_eq_ok h
      obtain ⟨⟨members, rest'', hlt'⟩, hmembers, h⟩ := bind_eq_ok h
      have hitem : ¬ item.isSeparator := by
        rintro (hitem | hitem)
        . exact hsemicolon hitem
        . exact hcomma hitem
      obtain ⟨more, hrest, _⟩ := parseMember_eq_ok hmember hitem hclosing
      have hfirst := parseMember_areParsedIn hmember owner
      have hothers := parseMembers_areParsedIn hmembers owner
      cases h
      dsimp only at hrest
      subst hrest
      simp only [Parsed.map, Parsed.within, Parsed.loosen, visitMembers]
      exact hfirst.append (hothers.mono ⟨item :: more, by simp⟩)
termination_by 4 * items.length + 3

theorem parseMember_areParsedIn {item : Item} {rest : List Item}
    {p : Parsed Item Member (rest.length + 1)} (h : parseMember item rest = .ok p)
    (owner : Owner) :
    AreParsedIn (item :: rest) (visitMember (fun _ => false) owner p.value) := by
  have hself : p.value.IsParsedIn (item :: rest) := ⟨item, rest, p, List.suffix_rfl, h, rfl⟩
  have hobjects : AreParsedIn (item :: rest) (visitObjects (fun _ => false) p.value.objects) := by
    obtain ⟨mods, hmods, _⟩ := skipMemberModifiers_eq item rest
    unfold parseMember at h
    generalize skipMemberModifiers item rest = skipped at h hmods
    obtain ⟨first, rest₁, h₁⟩ := skipped
    dsimp only at h hmods
    rw [hmods]
    split at h
    . next kind start rest₂ h₂ hsignature =>
      obtain ⟨used, hused, _, hopens, _⟩ := signatureStart?_eq_some hsignature
      obtain ⟨⟨term, rest₃, h₃⟩, hterm, h⟩ := bind_eq_ok h
      obtain ⟨⟨⟨os, stop⟩, rest₄, h₄⟩, hrun, h⟩ := bind_eq_ok h
      have hstart : ∀ d, start.token ≠ .closing d := by
        intro d hd
        simp [hd, Token.opensSignature] at hopens
      obtain ⟨more, hrest₂, _⟩ := parseTerm_eq_ok hterm hstart
      have hfirst := parseTerm_areParsedIn hterm
      have hothers := parseRun_areParsedIn hrun
      cases h
      dsimp only at hrest₂
      rw [hused]
      exact .visitObjects_append (hfirst.mono ⟨mods ++ used ++ [start], by simp⟩)
        (hothers.mono ⟨mods ++ used ++ start :: more, by simp [hrest₂]⟩)
    . obtain ⟨⟨head, rest₂, h₂⟩, hhead, h⟩ := bind_eq_ok h
      obtain ⟨more, hrest₁, _⟩ := memberHead_eq_ok hhead
      obtain ⟨mark, hrest₂, _⟩ := optionalMark_eq head.stop rest₂
      dsimp only at h hrest₁
      generalize optionalMark head.stop rest₂ = marked at h hrest₂
      obtain ⟨⟨isOptional, stop⟩, rest₃, h₃⟩ := marked
      obtain ⟨⟨⟨os, stop'⟩, rest₄, h₄⟩, hrun, h⟩ := bind_eq_ok h
      have hbody := parseRun_areParsedIn hrun
      cases h
      dsimp only at hrest₂
      exact hbody.mono ⟨mods ++ first :: (more ++ mark), by simp [hrest₁, hrest₂]⟩
  generalize p.value = value at hself hobjects
  cases value
  rw [visitMember]
  exact .cons hself hobjects
termination_by 4 * rest.length + 6

end

theorem parseExpression_areParsedIn {collect : Bool} {what : Expectation} {items : List Item}
    {p : Parsed Item TypeExpr items.length} (h : parseExpression collect what items = .ok p) :
    AreParsedIn items (visitObjects (fun _ => false) p.value.objects) := by
  unfold parseExpression at h
  split at h
  . cases h
  . next item rest =>
    split at h
    . cases h
    . next hterminator =>
      have hitem : ∀ d, item.token ≠ .closing d := by
        intro d hd
        simp [hd, Token.isTerminator] at hterminator
      obtain ⟨⟨term, rest', hlt⟩, hterm, h⟩ := bind_eq_ok h
      obtain ⟨run, hrun, h⟩ := bind_eq_ok h
      obtain ⟨⟨⟨os, stop⟩, rest'', hlt'⟩, hrun, hmap⟩ := bind_eq_ok hrun
      obtain ⟨more, hrest, _⟩ := parseTerm_eq_ok hterm hitem
      have hfirst := parseTerm_areParsedIn hterm
      have hothers := parseRun_areParsedIn hrun
      cases hmap
      cases h
      dsimp only at hrest
      subst hrest
      exact .visitObjects_append (hfirst.mono (List.suffix_cons ..))
        (hothers.mono ⟨item :: more, by simp⟩)

theorem parseAlias_areParsedIn {start : Nat} {items : List Item}
    {p : Parsed Item TypeAlias items.length} (h : parseAlias start items = .ok p) :
    AreParsedIn items (visitObjects (fun _ => false) p.value.type.objects) := by
  unfold parseAlias at h
  obtain ⟨⟨name, rest₁, h₁⟩, hname, h⟩ := bind_eq_ok h
  obtain ⟨_, hand, h⟩ := bind_eq_ok h
  obtain ⟨params, rest₂, h₂, _, hparams, rfl⟩ := andMaybe_eq_ok hand
  obtain ⟨_, hand, h⟩ := bind_eq_ok h
  obtain ⟨equals, rest₃, h₃, _, hequals, rfl⟩ := andThen_eq_ok hand
  obtain ⟨_, hand, h⟩ := bind_eq_ok h
  obtain ⟨type, rest₄, h₄, _, htype, rfl⟩ := andThen_eq_ok hand
  obtain ⟨item, text, hitems, _⟩ := parseName_eq_ok hname
  obtain ⟨list, hrest₁, _⟩ := parseParamList_eq_ok hparams
  obtain ⟨hrest₂, _⟩ := parseToken_eq_ok hequals
  have hobjects := parseExpression_areParsedIn htype
  cases h
  dsimp only at hitems hrest₁ hrest₂
  exact hobjects.mono ⟨item :: (list ++ [equals]), by simp [hitems, hrest₁, hrest₂]⟩

theorem parseBlock_areParsedIn {start : Nat} {items : List Item}
    {p : Parsed Item MemberBlock items.length} (h : parseBlock start items = .ok p)
    (owner : Owner) : AreParsedIn items (visitMembers (fun _ => false) owner p.value.members) := by
  unfold parseBlock at h
  obtain ⟨⟨name, rest₁, h₁⟩, hname, h⟩ := bind_eq_ok h
  obtain ⟨_, hand, h⟩ := bind_eq_ok h
  obtain ⟨params, rest₂, h₂, _, hparams, rfl⟩ := andMaybe_eq_ok hand
  obtain ⟨_, hand, h⟩ := bind_eq_ok h
  obtain ⟨opening, rest₃, h₃, _, hopening, rfl⟩ := andThen_eq_ok hand
  obtain ⟨_, hand, h⟩ := bind_eq_ok h
  obtain ⟨⟨ms, close⟩, rest₄, h₄, _, hmembers, rfl⟩ := andThen_eq_ok hand
  obtain ⟨item, text, hitems, _⟩ := parseName_eq_ok hname
  obtain ⟨list, hrest₁, _⟩ := parseParamList_eq_ok hparams
  obtain ⟨heritage, opener, hrest₂, _⟩ := parseHeritage_eq_ok hopening
  have hms := parseMembers_areParsedIn hmembers owner
  cases h
  dsimp only at hitems hrest₁ hrest₂
  exact hms.mono ⟨item :: (list ++ (heritage ++ [opener])), by simp [hitems, hrest₁, hrest₂]⟩

mutual

theorem parseStatement_areParsedIn {item : Item} {rest : List Item}
    {p : Parsed Item Statement (rest.length + 1)} (h : parseStatement item rest = .ok p) :
    AreParsedIn (item :: rest) (visitStatement (fun _ => false) p.value) := by
  obtain ⟨mods, hmods, _⟩ := skipModifiers_eq statementModifiers item rest
  unfold parseStatement at h
  dsimp only at h
  generalize skipModifiers statementModifiers item rest = skipped at h hmods
  obtain ⟨keyword, rest₁, h₁⟩ := skipped
  dsimp only at h hmods
  rw [hmods]
  have hbehind : rest₁ <:+ mods ++ keyword :: rest₁ := ⟨mods ++ [keyword], by simp⟩
  split at h
  . obtain ⟨decl, hdecl, h⟩ := bind_eq_ok h
    have hobjects := (parseAlias_areParsedIn hdecl).mono hbehind
    have hself : decl.value.IsParsedIn (mods ++ keyword :: rest₁) :=
      ⟨_, rest₁, decl, hbehind, hdecl, rfl⟩
    cases h
    exact .cons trivial (.cons hself hobjects)
  . obtain ⟨decl, hdecl, h⟩ := bind_eq_ok h
    have hmembers := (parseBlock_areParsedIn hdecl (.interfaceBlock decl.value)).mono hbehind
    cases h
    exact .cons trivial (.cons trivial hmembers)
  . obtain ⟨decl, hdecl, h⟩ := bind_eq_ok h
    have hmembers := (parseBlock_areParsedIn hdecl (.classBlock decl.value)).mono hbehind
    cases h
    exact .cons trivial (.cons trivial hmembers)
  . obtain ⟨⟨name, rest₂, h₂⟩, hname, h⟩ := bind_eq_ok h
    obtain ⟨dotted, hrest₁, _⟩ := parseNamespaceName_eq_ok hname
    dsimp only at h hrest₁
    split at h
    . next opening rest₃ h₃ htake =>
      obtain ⟨body, hbody, h⟩ := bind_eq_ok h
      obtain ⟨hrest₂, _⟩ := takeToken?_eq_some htake
      obtain ⟨ss, hss, hall⟩ := parseStatements_areParsedIn hbody
      rw [List.reverse_nil, List.nil_append] at hss
      rw [← hss] at hall
      cases h
      dsimp only at hrest₂
      have hbody : AreParsedIn (mods ++ keyword :: rest₁) _ := hall.mono
        ⟨mods ++ keyword :: (dotted ++ [opening]), by simp [hrest₁, hrest₂]⟩
      exact .cons trivial (.cons trivial hbody)
    . obtain ⟨run, hrun, h⟩ := bind_eq_ok h
      have hbody : AreParsedIn (mods ++ keyword :: rest₁) _ := (parseRun_areParsedIn hrun).mono
        ⟨mods ++ keyword :: dotted, by simp [hrest₁]⟩
      cases h
      exact .cons trivial (.cons trivial hbody)
  . obtain ⟨type, hexpr, h⟩ := bind_eq_ok h
    have hbody := (parseExpression_areParsedIn hexpr).mono (List.suffix_append mods _)
    cases h
    exact .cons trivial (.cons trivial hbody)
termination_by 2 * rest.length + 2

theorem parseStatements_areParsedIn {opening : Option Span} {acc : List Statement}
    {items : List Item} {p : Parsed Item (List Statement × Nat) (items.length + 1)}
    (h : parseStatements opening acc items = .ok p) :
    ∃ ss, p.value.1 = acc.reverse ++ ss
      ∧ AreParsedIn items (visitStatements (fun _ => false) ss) := by
  have stop : ∀ {more}, ∃ ss, acc.reverse = acc.reverse ++ ss
      ∧ AreParsedIn more (visitStatements (fun _ => false) ss) := by
    intro more
    refine ⟨[], (List.append_nil _).symm, ?_⟩
    rw [visitStatements]
    exact .nil
  cases items with
  | nil =>
    unfold parseStatements at h
    split at h
    . cases h
    . cases h
      exact stop
  | cons item rest =>
    unfold parseStatements at h
    dsimp only at h
    split at h
    . split at h
      . cases h
        exact stop
      . cases h
    . obtain ⟨q, hq, rfl⟩ := map_eq_ok h
      obtain ⟨ss, hss, hall⟩ := parseStatements_areParsedIn hq
      exact ⟨ss, hss, hall.mono (List.suffix_cons ..)⟩
    . obtain ⟨⟨s, rest', hlt⟩, hstatement, h⟩ := bind_eq_ok h
      obtain ⟨statements, hstatements, h⟩ := bind_eq_ok h
      obtain ⟨more, hrest, _⟩ := parseStatement_eq_ok hstatement
      have hfirst := parseStatement_areParsedIn hstatement
      obtain ⟨ss, hss, hall⟩ := parseStatements_areParsedIn hstatements
      cases h
      dsimp only at hrest
      refine ⟨s :: ss, by simpa [Parsed.within, Parsed.loosen] using hss, ?_⟩
      rw [visitStatements]
      exact hfirst.append (hall.mono ⟨item :: more, by simp [hrest]⟩)
termination_by 2 * items.length + 1

end

theorem DeclarationTree.areParsedIn {ls : List Lexeme} {tree : DeclarationTree}
    (h : ofLexemes ls = .ok tree) :
    AreParsedIn (Item.ofLexemes ls) (tree.visit fun _ => false) := by
  unfold ofLexemes at h
  dsimp only at h
  split at h
  . next statements stop rest hlt hparse =>
    cases h
    obtain ⟨ss, hss, hall⟩ := parseStatements_areParsedIn hparse
    rw [List.reverse_nil, List.nil_append] at hss
    rwa [← hss] at hall
  . cases h

def Node.member? : Node → Option Member
  | member _ m => some m
  | _ => none

def Node.typeAlias? : Node → Option TypeAlias
  | typeAlias a => some a
  | _ => none

/--
What is seen of a member in the text: its kind, its name and its part of the text.
-/
def Member.shownIn (source : List Char) (m : Member) :
    MemberKind × Option String × Option (List Char) :=
  (m.kind, m.name.map (·.value), m.span.slice? source)

namespace DeclarationTree

def members (tree : DeclarationTree) : List Member :=
  (tree.visit fun _ => false).filterMap Node.member?

theorem isParsedIn_of_mem {ls : List Lexeme} {tree : DeclarationTree} (h : ofLexemes ls = .ok tree) :
    ∀ m ∈ tree.members, m.IsParsedIn (Item.ofLexemes ls) := by
  intro m hm
  obtain ⟨node, hnode, hmember⟩ := List.mem_filterMap.mp hm
  cases node with
  | member owner m' =>
    cases hmember
    exact areParsedIn h _ hnode
  | _ => cases hmember

def aliases (tree : DeclarationTree) : List TypeAlias :=
  (tree.visit fun _ => false).filterMap Node.typeAlias?

theorem isParsedIn_of_mem_aliases {ls : List Lexeme} {tree : DeclarationTree}
    (h : ofLexemes ls = .ok tree) : ∀ a ∈ tree.aliases, a.IsParsedIn (Item.ofLexemes ls) := by
  intro a ha
  obtain ⟨node, hnode, halias⟩ := List.mem_filterMap.mp ha
  cases node with
  | typeAlias a' =>
    cases halias
    exact areParsedIn h _ hnode
  | _ => cases halias

theorem exists_parse_of_shownIn {source : List Char}
    {shown : List (MemberKind × Option String × Option (List Char))}
    (h : (parse source).toOption.map (fun tree => tree.members.map (·.shownIn source)) = some shown) :
    ∃ tree, parse source = .ok tree ∧ tree.members.map (·.shownIn source) = shown := by
  obtain ⟨tree, htree, hshown⟩ := Option.map_eq_some_iff.mp h
  refine ⟨tree, ?_, hshown⟩
  cases hparse : parse source with
  | error e =>
    rw [hparse] at htree
    cases htree
  | ok tree' =>
    rw [hparse] at htree
    cases htree
    rfl

end DeclarationTree
end Delegation
