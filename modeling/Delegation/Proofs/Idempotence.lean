import Delegation.Proofs.Rereading.Statement
import Delegation.Proofs.Rereading.Text
import Delegation.Schema.Load

/-!
This module contains what a second revision does to a declaration file. Removals change what stands
behind the members that stay. A second revision changes nothing if no removal brings there what the
parser looks for behind the name of a member or at the start of a line.
-/

namespace Delegation

open Item Lexeme Stretch

/--
Whether the edit `e` of a file with these items takes no member away from in front of a signature,
or from in front of a word that goes on with the line above. What it takes begins like a name.
-/
def Edit.IsLoose (items : List Item) : Edit → Prop
  | removal span => (∀ first ∈ items.find? (span.start ≤ ·.span.start),
      first.token.startsMemberName = true)
    ∧ ∀ next ∈ items.find? (span.stop ≤ ·.span.start),
      next.token.opensSignature = false ∧ next.token.isWordOf linkWords = false
  | replacement .. => True

instance (items : List Item) (e : Edit) : Decidable (e.IsLoose items) :=
  match e with
  | .removal _ => inferInstanceAs (Decidable (_ ∧ _))
  | .replacement .. => .isTrue trivial

def RemovesLoosely (m : Model) (source : List Char) : Prop :=
  ∀ tree ∈ (DeclarationTree.parse source).toOption, ∀ ls ∈ (tokenize source).toOption,
    ∀ settled ∈ (settle ((tree.findings (.ofModel m)).filterMap Finding.edit?)).toOption,
      ∀ e ∈ settled.kept, e.IsLoose (Item.ofLexemes ls)

instance (m : Model) (source : List Char) : Decidable (RemovesLoosely m source) :=
  inferInstanceAs (Decidable (∀ tree ∈ (DeclarationTree.parse source).toOption,
    ∀ ls ∈ (tokenize source).toOption,
      ∀ settled ∈ (settle ((tree.findings (.ofModel m)).filterMap Finding.edit?)).toOption,
        ∀ e ∈ settled.kept, e.IsLoose (Item.ofLexemes ls)))

theorem mem_toOption_of_eq_ok {ε α : Type} {x : Except ε α} {a : α} (h : x = .ok a) :
    a ∈ x.toOption := by
  rw [h]
  rfl

theorem Item.InOrder.find?_eq {start offset : Nat} {items rest : List Item}
    (h : InOrder start (items ++ rest)) (hle : stopAfter start items ≤ offset)
    (hrest : ∀ item ∈ rest.head?, offset ≤ item.span.start) :
    (items ++ rest).find? (offset ≤ ·.span.start) = rest.head? := by
  induction items generalizing start with
  | nil =>
    cases rest with
    | nil => rfl
    | cons item rest => simp [hrest item rfl]
  | cons item items ih =>
    obtain ⟨_, _, hstop, htail⟩ := h
    have hafter := (inOrder_append.mp htail).1.le_stopAfter
    have hle : stopAfter item.span.stop items ≤ offset := hle
    have hnot : decide (offset ≤ item.span.start) = false := by
      rw [decide_eq_false_iff_not]
      omega
    rw [List.cons_append, List.find?_cons, hnot]
    exact ih htail hle

theorem Stretch.areLoose_of_isLoose {front : List Item} {ss : List Stretch} {start : Nat}
    (horder : InOrder start (front ++ itemsOf ss))
    (h : ∀ e ∈ ss.filterMap edit?, e.IsLoose (front ++ itemsOf ss)) : AreLoose [] ss := by
  induction ss generalizing front with
  | nil => trivial
  | cons s ss ih =>
    have hitems : front ++ itemsOf (s :: ss) = front ++ s.items ++ itemsOf ss := by
      simp
    have htail : AreLoose [] ss := by
      rw [hitems] at horder
      apply ih horder
      intro e he
      rw [← hitems]
      apply h e
      cases hedit : s.edit? <;> simp [hedit, he]
    cases s with
    | kept item => exact htail
    | replaced => exact htail
    | removed first more =>
      obtain ⟨hfirst, hnext⟩ := h _ (List.mem_filterMap.mpr ⟨_, .head _, rfl⟩)
      have hlead := (inOrder_append.mp horder).2
      have hfind : (front ++ itemsOf (removed first more :: ss)).find?
          (first.lead ≤ ·.span.start) = some first := by
        apply horder.find?_eq hlead.1
        rintro _ ⟨⟩
        exact hlead.2.1
      rw [hfind] at hfirst
      rw [hitems] at horder hnext
      have hfind : (front ++ (removed first more).items ++ itemsOf ss).find?
          (stopAfter first.span.stop more ≤ ·.span.start) = (itemsOf ss).head? := by
        apply horder.find?_eq
        . rw [stopAfter_append]
          exact Nat.le_refl _
        . intro item hitem
          have := (inOrder_append.mp horder).2
          rw [stopAfter_append] at this
          cases hss : itemsOf ss with
          | nil =>
            rw [hss] at hitem
            cases hitem
          | cons next items =>
            rw [hss] at hitem this
            cases hitem
            exact Nat.le_trans this.1 this.2.1
      rw [hfind] at hnext
      exact ⟨hfirst first rfl, by rwa [List.append_nil], htail⟩

theorem spliceFrom_slices {source : List Char} {c : Cursor} {es : List Edit} {s : Splice}
    (hc : c.IsIn source) (hes : ∀ e ∈ es, ∃ span new, e = .replacement span new
      ∧ span.slice? source = some new) (h : spliceFrom c es = .ok s) : s.text = c.rest := by
  induction es generalizing c s with
  | nil =>
    cases h
    rfl
  | cons e es ih =>
    obtain ⟨span, new, rfl, hslice⟩ := hes e (.head _)
    obtain ⟨back, hsource, hoffset⟩ := hc
    obtain ⟨gap, cut, rest, hrest, hstart, hstop⟩ := exists_place_of_spliceFrom h
    simp only [Edit.span] at hstart hstop
    rw [hrest, ← List.append_assoc] at hsource
    have hcut := (span.isSliceOf_append hsource (by simp [hstart, hoffset])
      (by simp [hstop, hstart, hoffset])).2
    obtain rfl : new = cut := Option.some.inj (hslice.symm.trans hcut)
    rw [spliceFrom_replacement hrest hstart hstop] at h
    obtain ⟨s', hs', rfl⟩ := map_eq_ok h
    have hin : ((c.behind gap (new ++ rest)).behind new rest).IsIn source :=
      ⟨back ++ gap ++ new, by simp [hsource, Cursor.behind],
        by simp [Cursor.behind, hoffset, Nat.add_assoc]⟩
    have hs' : s'.text = rest := ih hin (fun e he => hes e (.tail _ he)) hs'
    show gap ++ new ++ s'.text = c.rest
    rw [hs', hrest, List.append_assoc]

theorem revise_of_slices {m : Model} {source : List Char} {tree : DeclarationTree}
    (h : DeclarationTree.parse source = .ok tree)
    (hslices : ∀ e ∈ editsFor (tree.findings (.ofModel m)), ∃ span new, e = .replacement span new
      ∧ span.slice? source = some new) :
    revise m source = .ok ⟨source, .ofFindings (tree.findings (.ofModel m))⟩ := by
  obtain ⟨settled, s, _, _, hsettle, hs, _⟩ := exists_splice_of_parse (.ofModel m) h
  have hin : (Cursor.ofText source).IsIn source := ⟨[], rfl, rfl⟩
  have htext : s.text = source := spliceFrom_slices hin
    (fun e he => hslices e (mem_of_mem_kept h hsettle e he)) hs
  rw [revise_of_parse h hsettle hs, htext]

theorem exists_parseStatements_of_parse {source : List Char} {tree : DeclarationTree}
    (h : DeclarationTree.parse source = .ok tree) :
    ∃ ls p, Lexes 0 source ls ∧ parseStatements none [] (itemsFrom .empty ls) = .ok p
      ∧ p.value.1 = tree.statements := by
  obtain ⟨ls, hls, h⟩ := bind_eq_ok h
  refine ⟨ls, ?_⟩
  split at h
  . next tree' htree =>
    cases h
    unfold DeclarationTree.ofLexemes at htree
    dsimp only at htree
    split at htree
    . next p hparse =>
      cases htree
      exact ⟨_, tokenize_eq_ok.mp hls, hparse, rfl⟩
    . cases htree
  . cases h

/--
What comes of a file whose removals are loose is parsed, and it only asks for what it already is.
-/
theorem exists_settled {m : Model} {source : List Char} {r : Revision} {tree : DeclarationTree}
    (htree : DeclarationTree.parse source = .ok tree) (hr : revise m source = .ok r)
    (hloose : RemovesLoosely m source) :
    ∃ tree', DeclarationTree.parse r.text = .ok tree'
      ∧ AreSettled r.text (tree.findings (.ofModel m)) (tree'.findings (.ofModel m)) := by
  obtain ⟨ls, p, hls, hparse, hstatements⟩ := exists_parseStatements_of_parse htree
  have htokenize := tokenize_eq_ok.mpr hls
  have horder := hls.areLaid.inOrder
  obtain ⟨ss, found, hitems, hfound, hcovers, _, hrest, hreads⟩ := parseStatements_reread
    (.ofModel m) hparse horder fun item hitem name => isName_of_mem_itemsFrom hls.areLaid hitem
  rw [hrest rfl, List.append_nil] at hitems
  rw [hrest rfl] at hreads
  have htree' : tree.findings (.ofModel m) = statementsFindings (.ofModel m) found := by
    rw [DeclarationTree.findings, ← hstatements, hfound]
    rfl
  obtain ⟨ps, tail, hlexemes, hfit, hedits, hall, hthose⟩ := @Passage.exists_passages [] ls [] none
    0 ss hls.areLaid hitems.symm (hcovers.allFit none) (by simp) (by simp) rfl
  rw [List.nil_append] at hlexemes
  rw [hlexemes] at hls
  obtain ⟨s, hs, hresult⟩ := Passage.exists_resultsIn hfit hls.areLaid (Cursor.isAt_ofText hls)
  rw [hitems] at horder
  obtain ⟨subsumed, hsettle⟩ := settle_editsOf (hcovers.allFit none) horder
  rw [hcovers.editsOf_eq, ← htree'] at hsettle
  rw [revise_of_parse htree hsettle (by rwa [← hedits])] at hr
  cases hr
  have hloose : AreLoose [] ss := by
    have horder : InOrder 0 ([] ++ itemsOf ss) := horder
    apply areLoose_of_isLoose horder
    intro e he
    rw [List.nil_append, ← hitems]
    exact hloose tree (mem_toOption_of_eq_ok htree) ls (mem_toOption_of_eq_ok htokenize) _
      (mem_toOption_of_eq_ok hsettle) e he
  obtain ⟨items, ⟨_, ls', hls₁, rfl⟩, hremains⟩ :=
    hresult.yieldsSome hthose (List.nil_append _).symm (fun h => h) .empty rfl
  have hleaves := hreads hremains hloose .nil rfl []
  rw [List.append_nil] at hleaves
  obtain ⟨⟨statements, stop⟩, hlt, hparse', found', hfound', hsettled⟩ := hleaves
  obtain rfl : statements = found' := hfound'
  refine ⟨_, DeclarationTree.parse_of_leaves hls₁ ⟨_, hlt, hparse', rfl⟩, ?_⟩
  rw [htree']
  exact hsettled

/--
A second revision leaves the text of the first one as it is, if the removals of the first one are
loose. It finds the same payloads and inputs again, but no more members that have to go.
-/
theorem revise_idempotent {m : Model} {source : List Char} {r : Revision}
    (hr : revise m source = .ok r) (hloose : RemovesLoosely m source) :
    revise m r.text = .ok ⟨r.text, r.summary.withoutRemovals⟩ := by
  obtain ⟨tree, htree⟩ := (revise_isOk_iff m source).1.mp ⟨r, hr⟩
  obtain ⟨tree', htree', hsettled⟩ := exists_settled htree hr hloose
  obtain ⟨_, s, _, _, hsettle, hs, _⟩ := exists_splice_of_parse (.ofModel m) htree
  rw [revise_of_parse htree hsettle hs] at hr
  cases hr
  rw [revise_of_slices htree' hsettled.slice, hsettled.summary]

theorem revise_idempotent_accessor :
    let source := "interface AssetDelegate \x7b\n  create\n".toList
      ++ "  // b\n  poly_aux_c: C;\n  d(): E\n\x7d\n".toList
    let m : Model := ⟨[
      ⟨⟨"Asset", by decide⟩, false, [], [⟨"@@delegate", some "kind"⟩], []⟩,
      ⟨⟨"Video", by decide⟩, false, [], [], [⟨"Asset", by decide⟩]⟩]⟩
    let r : Revision :=
      ⟨"interface AssetDelegate \x7b\n  create\n  d(): E\n\x7d\n".toList, ⟨0, 0, 1, 0, 0⟩⟩
    revise m source = .ok r ∧ RemovesLoosely m source
      ∧ revise m r.text = .ok ⟨r.text, r.summary.withoutRemovals⟩ := by
  intro source m r
  have hr : revise m source = .ok r := by decide +kernel
  have hloose : RemovesLoosely m source := by decide +kernel
  exact ⟨hr, hloose, revise_idempotent hr hloose⟩

/--
A method that was divided from its parameters by a member that is gone is found only then.
-/
theorem revise_not_idempotent :
    let schema := "model Asset \x7b\n  id Int\n  kind String\n  @@delegate(kind)\n\x7d\n".toList
      ++ "model Video extends Asset \x7b\n  url String\n\x7d\n".toList
    let source := "interface AssetDelegate \x7b\n  create\n  poly_aux_x: X;\n  (y: Y): Z\n\x7d\n".toList
    ∃ m r r', loadSchema .skip schema = .ok (m, []) ∧ revise m source = .ok r
      ∧ revise m r.text = .ok r' ∧ r'.text ≠ r.text := by
  let m : Model := ⟨[
    ⟨⟨"Asset", by decide⟩, false,
      [⟨⟨"id", by decide⟩, "Int", false, false, []⟩,
        ⟨⟨"kind", by decide⟩, "String", false, false, []⟩],
      [⟨"@@delegate", some "kind"⟩], []⟩,
    ⟨⟨"Video", by decide⟩, false, [⟨⟨"url", by decide⟩, "String", false, false, []⟩], [],
      [⟨"Asset", by decide⟩]⟩]⟩
  let r : Revision :=
    ⟨"interface AssetDelegate \x7b\n  create\n  (y: Y): Z\n\x7d\n".toList, ⟨0, 0, 1, 0, 0⟩⟩
  let r' : Revision := ⟨"interface AssetDelegate \x7b\n  (y: Y): Z\n\x7d\n".toList, ⟨0, 0, 0, 0, 1⟩⟩
  refine ⟨m, r, r', ?_, ?_, ?_, ?_⟩
  . decide +kernel
  . decide +kernel
  . decide +kernel
  . decide +kernel

end Delegation
