import Delegation.Proofs.Grammar.CorrespondingMember

/-!
This module contains what is read of statements that correspond to each other. A list of statements
is read up to the end of what corresponds, then the parser goes on with what is behind it. How the
first item of a list is separated from what is in front of it does not matter.
-/

namespace Delegation

open Item

namespace Correspondence

variable {c : Correspondence} {items others : List Item}

theorem parseExpression_agrees {collect : Bool} {what : Expectation} {item item' : Item}
    {rest rest' : List Item} (hitem : c.Relates item item')
    (h : item.token ≠ .sign .semicolon → c.Twins rest rest') :
    c.Agrees (c.Alike TypeExpr.relocate) c.Twins (parseExpression collect what (item :: rest))
      (parseExpression collect what (item' :: rest')) := by
  have hterminator := (c.resembles hitem).congr Token.isTerminator fun _ _ => rfl
  unfold parseExpression
  dsimp only
  rw [hterminator]
  split
  . exact .failure (.expected what) hitem
  . next hcontinues =>
    have hne : item.token ≠ .sign .semicolon := by
      intro heq
      rw [heq] at hcontinues
      exact hcontinues rfl
    refine (parseTerm_agrees id .inl hitem (h hne)).bind ?_
    rintro ⟨term, rest₁, h₁⟩ ⟨term', rest₁', h₁'⟩ hterm hrest₁
    have hrun : c.Agrees c.SameObjects c.Twins
        (parseRun collect .statement (some term.last) term.stop rest₁)
        (parseRun collect .statement (some term'.last) term'.stop rest₁') :=
      parseRun_agrees hrest₁ hterm.continuesAfter_eq hterm.stop
    refine hrun.andMaybe.bind ?_
    rintro ⟨⟨os, stop⟩, rest₂, h₂⟩ ⟨⟨os', stop'⟩, rest₂', h₂'⟩ hrun hrest₂
    refine .ok ?_ hrest₂
    simp only [Alike, Parsed.map, TypeExpr.relocate, Span.relocate, start_eq hitem,
      (hterm.append hrun).objects, hrun.stop]

theorem parseAlias_agrees {start start' : Nat} (hstart : c.there start' = c.here start)
    (h : c.Twins items others) :
    c.Agrees (c.Alike TypeAlias.relocate) c.TwinsBehind (parseAlias start items)
      (parseAlias start' others) := by
  unfold parseAlias
  refine (parseName_agrees .aliasName h.behind).bind ?_
  rintro ⟨name, rest₁, h₁⟩ ⟨name', rest₁', h₁'⟩ hname hrest₁
  refine (parseParamList_agrees hrest₁).andMaybe.bind ?_
  rintro ⟨params, rest₂, h₂⟩ ⟨params', rest₂', h₂'⟩ hparams hrest₂
  refine (parseToken_agrees .equals hrest₂.behind (by simp) (by simp)).andThen.bind ?_
  rintro ⟨equals, rest₃, h₃⟩ ⟨equals', rest₃', h₃'⟩ _ hrest₃
  have htype : c.Agrees (c.Alike TypeExpr.relocate) c.Twins
      (parseExpression true .aliasedType rest₃) (parseExpression true .aliasedType rest₃') := by
    cases rest₃ with
    | nil =>
      obtain rfl := hrest₃.eq_nil
      exact .of_nil hrest₃.behind (.expected _) fun _ => rfl
    | cons item rest =>
      obtain ⟨item', rest', rfl, hitem, _, htail⟩ := hrest₃.exists_cons
      exact parseExpression_agrees hitem.relates htail
  refine htype.andThen.bind ?_
  rintro ⟨type, rest₄, h₄⟩ ⟨type', rest₄', h₄'⟩ htype hrest₄
  have hstop : c.there type'.span.stop = c.here type.span.stop :=
    congrArg (fun t => t.span.stop) htype.eq
  obtain ⟨hend, hrest₅⟩ := terminator_twins hstop hrest₄
  refine .ok ?_ hrest₅
  simp only [Alike] at hname hparams htype
  simp only [Alike, Parsed.map, Parsed.onward, Parsed.within, TypeAlias.relocate, Span.relocate,
    hstart, hname, hparams, htype, hend]

theorem parseBlock_agrees {start start' : Nat} (hstart : c.there start' = c.here start)
    (h : c.Twins items others) :
    c.Agrees (c.Alike MemberBlock.relocate) c.Twins (parseBlock start items)
      (parseBlock start' others) := by
  unfold parseBlock
  refine (parseName_agrees .declarationName h.behind).bind ?_
  rintro ⟨name, rest₁, h₁⟩ ⟨name', rest₁', h₁'⟩ hname hrest₁
  refine (parseParamList_agrees hrest₁).andMaybe.bind ?_
  rintro ⟨params, rest₂, h₂⟩ ⟨params', rest₂', h₂'⟩ hparams hrest₂
  refine (parseHeritage_agrees hrest₂.behind).andThen.bind ?_
  rintro ⟨opening, rest₃, h₃⟩ ⟨opening', rest₃', h₃'⟩ hopening hrest₃
  refine (parseMembers_agrees hrest₃.behind hopening).andThen.bind ?_
  rintro ⟨⟨ms, close⟩, rest₄, h₄⟩ ⟨⟨ms', close'⟩, rest₄', h₄'⟩ ⟨hmembers, hclose⟩ hrest₄
  refine .ok ?_ hrest₄
  have hstop : c.there close'.stop = c.here close.stop := congrArg Span.stop hclose
  simp only [Alike] at hname hparams
  simp only [Alike, Parsed.map, MemberBlock.relocate, Span.relocate, hstart, hname, hparams,
    hmembers, hstop]

mutual

theorem parseStatement_agrees {item item' : Item} {rest rest' : List Item}
    (hitem : c.Relates item item') (h : c.Twins rest rest') :
    c.Agrees (c.Alike Statement.relocate) c.TwinsBehind (parseStatement item rest)
      (parseStatement item' rest') := by
  obtain ⟨hkeyword, hrest₁⟩ := skipModifiers_twins statementModifiers hitem h
  unfold parseStatement
  dsimp only
  generalize skipModifiers statementModifiers item rest = skipped at hkeyword hrest₁ ⊢
  generalize skipModifiers statementModifiers item' rest' = skipped' at hkeyword hrest₁ ⊢
  obtain ⟨keyword, rest₁, h₁⟩ := skipped
  obtain ⟨keyword', rest₁', h₁'⟩ := skipped'
  dsimp only at hkeyword hrest₁ ⊢
  rw [statementForm_eq hkeyword hrest₁]
  split
  . refine (parseAlias_agrees (start_eq hitem) hrest₁).bind
      fun _ _ hvalue hrest₂ => .ok ?_ hrest₂
    simp only [Alike] at hvalue
    simp only [Alike, Parsed.map, Parsed.within, Parsed.loosen, Statement.relocate, hvalue]
  . refine (parseBlock_agrees (start_eq hitem) hrest₁).bind
      fun _ _ hvalue hrest₂ => .ok ?_ hrest₂.behind
    simp only [Alike] at hvalue
    simp only [Alike, Parsed.map, Parsed.within, Parsed.loosen, Statement.relocate, hvalue]
  . refine (parseBlock_agrees (start_eq hitem) hrest₁).bind
      fun _ _ hvalue hrest₂ => .ok ?_ hrest₂.behind
    simp only [Alike] at hvalue
    simp only [Alike, Parsed.map, Parsed.within, Parsed.loosen, Statement.relocate, hvalue]
  . refine (parseNamespaceName_agrees hkeyword hrest₁).bind ?_
    rintro ⟨name, rest₂, h₂⟩ ⟨name', rest₂', h₂'⟩ hname hrest₂
    have hbrace := takeToken?_brace_twins hrest₂
    simp only [Alike] at hname hbrace ⊢
    split
    . next opening rest₃ h₃ htake =>
      rw [htake] at hbrace
      obtain ⟨⟨opening', rest₃', h₃'⟩, htake', hopening, hrest₃⟩ := hbrace
      rw [htake']
      dsimp only at hopening hrest₃ ⊢
      refine (parseBody_agrees rfl hrest₃.behind (sameItem hopening)).bind ?_
      rintro ⟨⟨body, stop⟩, rest₄, h₄⟩ ⟨⟨body', stop'⟩, rest₄', h₄'⟩ ⟨hbody, hstop⟩ hrest₄
      refine .ok ?_ hrest₄.behind
      simp only [Alike, Parsed.map, Parsed.within, Parsed.loosen, Statement.relocate,
        Span.relocate, hname, hbody, hstop, start_eq hitem]
    . next htake =>
      rw [htake] at hbrace
      rw [hbrace]
      dsimp only
      have hstop : c.there name'.span.stop = c.here name.span.stop :=
        congrArg (fun n => n.span.stop) hname
      refine (parseRun_agrees hrest₂ rfl hstop).bind ?_
      rintro ⟨⟨os, stop⟩, rest₃, h₃⟩ ⟨⟨os', stop'⟩, rest₃', h₃'⟩ hrun hrest₃
      obtain ⟨hend, hrest₄⟩ := terminator_twins hrun.stop hrest₃
      refine .ok ?_ hrest₄
      simp only [Alike, Parsed.map, Parsed.within, Parsed.onward, Statement.relocate,
        Span.relocate, hrun.objects, hend, start_eq hitem]
  . refine (parseExpression_agrees hkeyword fun _ => hrest₁).bind ?_
    rintro ⟨type, rest₂, h₂⟩ ⟨type', rest₂', h₂'⟩ htype hrest₂
    have hstop : c.there type'.span.stop = c.here type.span.stop :=
      congrArg (fun t => t.span.stop) htype.eq
    have hobjects : ObjectType.relocateAll c.there type'.objects
        = ObjectType.relocateAll c.here type.objects :=
      congrArg (·.objects) htype.eq
    obtain ⟨hend, hrest₃⟩ := terminator_twins hstop hrest₂
    refine .ok ?_ hrest₃
    simp only [Alike, Parsed.map, Parsed.within, Parsed.onward, Statement.relocate, Span.relocate,
      hobjects, hend, start_eq hitem]
termination_by 2 * rest.length + 2

theorem parseBody_agrees {opening opening' : Span} {acc acc' : List Statement}
    {items others : List Item}
    (hacc : Statement.relocateAll c.there acc' = Statement.relocateAll c.here acc)
    (h : c.TwinsBehind items others) (hopening : c.SameItem opening opening') :
    c.Agrees (fun p q => Statement.relocateAll c.there q.1 = Statement.relocateAll c.here p.1
        ∧ c.there q.2 = c.here p.2) c.Twins
      (parseStatements (some opening) acc items) (parseStatements (some opening') acc' others) := by
  cases items with
  | nil =>
    rw [parseStatements]
    exact .of_nil h (.unclosed hopening _) (by rintro rfl; rw [parseStatements])
  | cons item rest =>
    obtain ⟨item', rest', rfl, hitem, hbehind, htail⟩ := h.exists_cons
    unfold parseStatements
    dsimp only
    split
    . next d hd =>
      simp only [token_eq hitem.relates hd (by simp), Option.isSome_some]
      split
      . refine .ok ⟨?_, stop_eq hitem.relates⟩ (htail (by simp [hd]))
        simp only [Parsed.leaving, Parsed.loosen, Statement.relocateAll_reverse, hacc]
      . exact .failure (.unbalanced (.some hopening) _) hitem.relates
    . next hsemicolon =>
      simp only [token_eq hitem.relates hsemicolon (by simp)]
      exact (parseBody_agrees hacc hbehind hopening).loosen
    . next hclosing hsemicolon =>
      split
      . next d hd => exact absurd hd (token_ne hitem.relates (hclosing d) (by simp))
      . next hd => exact absurd hd (token_ne hitem.relates hsemicolon (by simp))
      . refine (parseStatement_agrees hitem.relates (htail hsemicolon)).bind ?_
        rintro ⟨s, rest₁, h₁⟩ ⟨s', rest₁', h₁'⟩ hstatement hrest₁
        have hacc' : Statement.relocateAll c.there (s' :: acc')
            = Statement.relocateAll c.here (s :: acc) := by
          rw [Statement.relocateAll, Statement.relocateAll, hacc, hstatement.eq]
        exact (parseBody_agrees hacc' hrest₁ hopening).bind
          fun _ _ hvalue hrest₂ => .ok hvalue hrest₂
termination_by 2 * items.length + 1

end

end Correspondence

def readStatements (acc : List Statement) (items : List Item) : Except Failure (List Statement) :=
  (parseStatements none acc items).map (·.value.1)

@[simp]
theorem readStatements_nil (acc : List Statement) : readStatements acc [] = .ok acc.reverse := by
  rw [readStatements, parseStatements]
  rfl

section

variable {item : Item} (acc : List Statement) (rest : List Item)

theorem readStatements_closing {d : Delimiter} (h : item.token = .closing d) :
    readStatements acc (item :: rest) = .error ⟨.unbalanced none .statement, item :: rest⟩ := by
  rw [readStatements, parseStatements]
  simp only [h]
  rw [Option.isSome_none, Bool.and_false]
  rfl

theorem readStatements_semicolon (h : item.token = .sign .semicolon) :
    readStatements acc (item :: rest) = readStatements acc rest := by
  rw [readStatements, parseStatements]
  simp only [h]
  rw [readStatements]
  cases parseStatements none acc rest <;> rfl

theorem readStatements_statement (hclosing : ∀ d, item.token ≠ .closing d)
    (hsemicolon : item.token ≠ .sign .semicolon) :
    readStatements acc (item :: rest)
      = parseStatement item rest >>= fun p => readStatements (p.value :: acc) p.rest := by
  rw [readStatements, parseStatements]
  split
  . next d hd => exact absurd hd (hclosing d)
  . next hd => exact absurd hd hsemicolon
  . cases parseStatement item rest with
    | error x => rfl
    | ok p =>
      dsimp only [bind, Except.bind]
      rw [readStatements]
      cases parseStatements none (p.value :: acc) p.rest <;> rfl

end

theorem DeclarationTree.ofLexemes_eq (ls : List Lexeme) :
    ofLexemes ls = match readStatements [] (Item.ofLexemes ls) with
      | .ok ss => .ok ⟨ss, ⟨0, endOfText ls⟩⟩
      | .error x => .error (x.diagnostic (endOfText ls)) := by
  unfold ofLexemes readStatements
  cases parseStatements none [] (Item.ofLexemes ls) <;> rfl

namespace Correspondence

variable {c : Correspondence}

/--
Whether a file is read like one that gives `result` behind the statements `acc`: the same statements
up to where the second text goes on, or a failure of the same kind if it does not.
-/
def ReadsLike (c : Correspondence) (acc : List Statement) (others : List Item)
    (result : Except Failure (List Statement)) : Prop :=
  match result with
  | .ok all => ∃ ss ss', all = acc.reverse ++ ss
    ∧ Statement.relocateAll c.there ss' = Statement.relocateAll c.here ss
    ∧ ∀ acc', readStatements acc' others = readStatements (ss'.reverse ++ acc') c.tail
  | .error x => c.tail = [] →
    ∀ acc', ∃ y, readStatements acc' others = .error y ∧ c.FailsAlike x y

theorem ReadsLike.of_eq {acc : List Statement} {items others : List Item}
    {result : Except Failure (List Statement)} (h : c.ReadsLike acc others result)
    (hitems : ∀ acc', readStatements acc' items = readStatements acc' others) :
    c.ReadsLike acc items result := by
  unfold ReadsLike at h ⊢
  simpa only [hitems] using h

theorem ReadsLike.cons {acc : List Statement} {s s' : Statement} {items others : List Item}
    {result : Except Failure (List Statement)} (h : c.ReadsLike (s :: acc) others result)
    (hs : c.Alike Statement.relocate s s')
    (hitems : ∀ acc', readStatements acc' items = readStatements (s' :: acc') others) :
    c.ReadsLike acc items result := by
  cases result with
  | ok all =>
    obtain ⟨ss, ss', hss, hss', hothers⟩ := h
    refine ⟨s :: ss, s' :: ss', ?_, ?_, fun acc' => ?_⟩
    . rw [hss, List.reverse_cons, List.append_assoc, List.singleton_append]
    . rw [Statement.relocateAll, Statement.relocateAll, hs.eq, hss']
    . rw [hitems, hothers, List.reverse_cons, List.append_assoc, List.singleton_append]
  | error x =>
    intro htail acc'
    rw [hitems]
    exact h htail (s' :: acc')

theorem readStatements_readsLike (acc : List Statement) {items others : List Item}
    (h : c.TwinsLoosely items others) : c.ReadsLike acc others (readStatements acc items) := by
  cases items with
  | nil =>
    rw [readStatements_nil]
    exact ⟨[], [], (List.append_nil _).symm, rfl, fun _ => by rw [h]; rfl⟩
  | cons item rest =>
    obtain ⟨item', rest', rfl, hitem, hbehind, htail⟩ := h
    by_cases hsemicolon : item.token = .sign .semicolon
    . have hagain := readStatements_readsLike acc hbehind.loosely
      rw [readStatements_semicolon acc rest hsemicolon]
      have hsemicolon' := token_eq hitem hsemicolon (by simp)
      exact hagain.of_eq fun acc' => readStatements_semicolon acc' rest' hsemicolon'
    by_cases hclosing : ∃ d, item.token = .closing d
    . obtain ⟨d, hd⟩ := hclosing
      rw [readStatements_closing acc rest hd]
      intro _ acc'
      exact ⟨_, readStatements_closing acc' rest' (token_eq hitem hd (by simp)),
        .unbalanced .none _, .some hitem⟩
    have hclosing (d : Delimiter) : item.token ≠ .closing d := fun hd => hclosing ⟨d, hd⟩
    have hothers (acc' : List Statement) := readStatements_statement acc' rest'
      (fun d => token_ne hitem (hclosing d) (by simp)) (token_ne hitem hsemicolon (by simp))
    have hstatement := parseStatement_agrees hitem (htail hsemicolon)
    rw [readStatements_statement acc rest hclosing hsemicolon]
    generalize parseStatement item rest = x at hstatement ⊢
    generalize parseStatement item' rest' = y at hstatement hothers
    cases hstatement with
    | @ok p q hs hrest =>
      have hlt := p.rest_lt
      exact (readStatements_readsLike _ hrest.loosely).cons hs hothers
    | error hxy => exact fun _ acc' => ⟨_, hothers acc', hxy⟩
    | cut htail => exact fun h => absurd h htail
termination_by items.length

end Correspondence
end Delegation
