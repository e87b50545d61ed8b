import Delegation.Proofs.Spelling

/-!
This module contains which lexemes a text has. A part of a text that begins and ends where lexemes
do has the same tokens by itself, and keeps them in front of any other text that does not go on
with the last of them.
-/

namespace Delegation

inductive Lexes : Nat → List Char → List Lexeme → Prop where
  | nil {start : Nat} : Lexes start [] []
  | cons {start : Nat} {text rest : List Char} {token : Token} {ls : List Lexeme}
    (hspells : Spells text token) (hends : token.endsBefore rest = true)
    (htail : Lexes (start + byteLength text) rest ls) :
    Lexes start (text ++ rest) (⟨start, token, text⟩ :: ls)

theorem pieces.go_eq_append (acc : List Piece) (start : Nat) (cs : List Char) :
    go acc start cs = acc.reverse ++ go [] start cs := by
  generalize hlength : cs.length = n
  induction n using Nat.strongRecOn generalizing acc start cs with
  | _ n ih =>
    cases cs with
    | nil =>
      unfold go
      simp
    | cons c cs =>
      have hread := readPiece_rest_length_le start c cs
      rw [List.length_cons] at hlength
      unfold go
      dsimp only
      split
      . simp
      . rw [ih _ (by omega) (_ :: acc) _ _ rfl]
        rw [ih _ (by omega) [_] _ _ rfl]
        simp

theorem pieces.go_cons (start : Nat) (c : Char) (cs : List Char) :
    go [] start (c :: cs) =
      (readPiece start c cs).1 :: if (readPiece start c cs).1.isFinal then []
        else go [] (readPiece start c cs).1.stop (readPiece start c cs).2 := by
  conv => lhs; unfold go
  simp only
  split
  . rfl
  . rw [go_eq_append]
    rfl

theorem lexes_of_pieces {start : Nat} {cs : List Char} {ls : List Lexeme}
    (h : pieces.go [] start cs = ls.map Piece.lexeme) : Lexes start cs ls := by
  induction ls generalizing start cs with
  | nil =>
    cases cs with
    | nil => exact .nil
    | cons c cs =>
      rw [pieces.go_cons] at h
      cases h
  | cons l ls ih =>
    cases cs with
    | nil =>
      unfold pieces.go at h
      cases h
    | cons c cs =>
      rw [pieces.go_cons, List.map_cons, List.cons.injEq] at h
      obtain ⟨hl, htail⟩ := h
      generalize hread : readPiece start c cs = read at hl htail
      obtain ⟨piece, rest⟩ := read
      subst hl
      obtain ⟨hstart, htext, hspells, hends⟩ := spells_of_readPiece hread
      subst hstart
      rw [htext]
      exact .cons hspells hends (ih htail)

theorem pieces_of_lexes {start : Nat} {cs : List Char} {ls : List Lexeme}
    (h : Lexes start cs ls) : pieces.go [] start cs = ls.map Piece.lexeme := by
  induction h with
  | nil =>
    unfold pieces.go
    rfl
  | cons hspells hends _ ih =>
    obtain ⟨c, cs, rfl, hread⟩ := readPiece_of_spells hspells hends
    rw [List.cons_append, pieces.go_cons, hread]
    simp only [Piece.isFinal, List.map_cons, List.cons.injEq, true_and]
    exact ih

theorem eq_map_lexeme_iff {ps : List Piece} {ls : List Lexeme} :
    ps = ls.map Piece.lexeme
      ↔ ps.filterMap Piece.fault? = [] ∧ ps.filterMap Piece.lexeme? = ls := by
  constructor
  . rintro rfl
    constructor
    . simp [Piece.fault?]
    . simp [List.filterMap_map, Function.comp_def, Piece.lexeme?]
  . rintro ⟨hfault, rfl⟩
    induction ps with
    | nil => rfl
    | cons p ps ih =>
      cases p with
      | lexeme l => simpa [Piece.lexeme?] using ih (by simpa [Piece.fault?] using hfault)
      | fault f => simp [Piece.fault?] at hfault

theorem tokenize_eq_ok {source : List Char} {ls : List Lexeme} :
    tokenize source = .ok ls ↔ Lexes 0 source ls := by
  have : Lexes 0 source ls ↔ pieces source = ls.map Piece.lexeme :=
    ⟨pieces_of_lexes, lexes_of_pieces⟩
  rw [this, eq_map_lexeme_iff]
  unfold tokenize
  dsimp only
  split
  . next h => simp [h]
  . next h =>
    simp only [reduceCtorEq, false_iff, not_and]
    intro hnil
    exact absurd hnil h

theorem Lexes.exists_cons {start : Nat} {text rest : List Char} {token : Token} {ls : List Lexeme}
    (hspells : Spells text token) (hends : token.endsBefore rest = true)
    (h : Lexes start (text ++ rest) ls) :
    ∃ more, ls = ⟨start, token, text⟩ :: more ∧ Lexes (start + byteLength text) rest more := by
  obtain ⟨c, cs, rfl, hread⟩ := readPiece_of_spells hspells hends
  have hpieces := pieces_of_lexes h
  rw [List.cons_append, pieces.go_cons, hread] at hpieces
  cases ls with
  | nil => cases hpieces
  | cons l more =>
    rw [List.map_cons, List.cons.injEq] at hpieces
    obtain ⟨hl, hmore⟩ := hpieces
    cases hl
    exact ⟨more, rfl, lexes_of_pieces hmore⟩

theorem not_lexes_of_fault {start : Nat} {c : Char} {cs rest : List Char} {f : Fault}
    (h : readPiece start c cs = (.fault f, rest)) (ls : List Lexeme) :
    ¬ Lexes start (c :: cs) ls := by
  intro hls
  have hpieces := pieces_of_lexes hls
  rw [pieces.go_cons, h] at hpieces
  cases ls with
  | nil => cases hpieces
  | cons l ls =>
    rw [List.map_cons, List.cons.injEq] at hpieces
    cases hpieces.1

namespace Lexeme

def textOf (ls : List Lexeme) : List Char :=
  ls.flatMap text

@[simp]
theorem textOf_nil : textOf [] = [] := rfl

@[simp]
theorem textOf_cons (l : Lexeme) (ls : List Lexeme) : textOf (l :: ls) = l.text ++ textOf ls := rfl

@[simp]
theorem textOf_append (ls ms : List Lexeme) : textOf (ls ++ ms) = textOf ls ++ textOf ms := by
  simp [textOf]

/--
The tokens of `ls` other than white space. Line breaks are among them.
-/
def tokensOf (ls : List Lexeme) : List Token :=
  (ls.map token).filter (· != .whitespace)

@[simp]
theorem tokensOf_nil : tokensOf [] = [] := rfl

@[simp]
theorem tokensOf_append (ls ms : List Lexeme) : tokensOf (ls ++ ms) = tokensOf ls ++ tokensOf ms := by
  simp [tokensOf]

end Lexeme

open Lexeme

theorem Lexes.textOf_eq {start : Nat} {cs : List Char} {ls : List Lexeme} (h : Lexes start cs ls) :
    textOf ls = cs := by
  induction h with
  | nil => rfl
  | cons _ _ _ ih => rw [textOf_cons, ih]

theorem Lexes.split {start : Nat} {cs : List Char} {ls ms : List Lexeme}
    (h : Lexes start cs (ls ++ ms)) : Lexes (start + byteLength (textOf ls)) (textOf ms) ms := by
  induction ls generalizing start cs with
  | nil =>
    rw [List.nil_append] at h
    rw [h.textOf_eq]
    exact h
  | cons l ls ih =>
    rw [List.cons_append] at h
    cases h with
    | cons _ _ htail =>
      have := ih htail
      rw [Nat.add_assoc] at this
      simpa using this

/--
Whether `ls` are the lexemes of their text, which begins at the offset `start`.
-/
def Lexeme.AreLaid (start : Nat) (ls : List Lexeme) : Prop :=
  Lexes start (textOf ls) ls

theorem Lexes.areLaid {start : Nat} {cs : List Char} {ls : List Lexeme} (h : Lexes start cs ls) :
    AreLaid start ls := by
  rw [AreLaid, h.textOf_eq]
  exact h

theorem Lexeme.AreLaid.split {start : Nat} {ls ms : List Lexeme} (h : AreLaid start (ls ++ ms)) :
    AreLaid (start + byteLength (textOf ls)) ms :=
  Lexes.split h

theorem Lexeme.AreLaid.cons {start : Nat} {l : Lexeme} {ls : List Lexeme}
    (h : AreLaid start (l :: ls)) :
    l.start = start ∧ Spells l.text l.token ∧ l.token.endsBefore (textOf ls) = true
      ∧ AreLaid l.stop ls := by
  unfold AreLaid at h
  generalize hcs : textOf (l :: ls) = cs at h
  cases h with
  | cons hspells hends htail =>
    rw [textOf_cons, List.append_cancel_left_eq] at hcs
    subst hcs
    exact ⟨rfl, hspells, hends, htail⟩

inductive Reads (rest : List Char) : List Char → List Token → Prop where
  | nil : Reads rest [] []
  | space {c : Char} {cs : List Char} {ts : List Token} (hc : readPiece.isSpacing c = true)
    (htail : Reads rest cs ts) : Reads rest (c :: cs) ts
  | token {text cs : List Char} {token : Token} {ts : List Token} (hspells : Spells text token)
    (hblank : token ≠ .whitespace) (hends : token.endsBefore (cs ++ rest) = true)
    (htail : Reads rest cs ts) : Reads rest (text ++ cs) (token :: ts)

theorem Spells.ne_nil {text : List Char} {token : Token} (h : Spells text token) : text ≠ [] := by
  cases h <;> simp

theorem Spells.isSpacing_eq_false {c : Char} {cs : List Char} {token : Token}
    (h : Spells (c :: cs) token) (hblank : token ≠ .whitespace) :
    readPiece.isSpacing c = false := by
  rw [Bool.eq_false_iff]
  intro hc
  obtain ⟨hmarks, hdigit, hstart, htoken⟩ := of_isSpacing hc
  cases h with
  | whitespace => exact hblank rfl
  | char h => simp [htoken] at h
  | number hc => simp [hdigit] at hc
  | identifier hc => simp [hstart] at hc
  | string hquote => rcases hquote with rfl | rfl <;> exact hmarks (by decide)
  | _ => exact hmarks (by decide)

theorem Token.ne_whitespace_of_ofChar? {c : Char} {token : Token}
    (h : Token.ofChar? c = some token) : token ≠ .whitespace := by
  rintro rfl
  have hall : tokenChars.all (Token.ofChar? · != some .whitespace) = true := by decide
  have hne := List.all_eq_true.mp hall c (mem_tokenChars h)
  rw [h] at hne
  cases hne

theorem Spells.eq_newline {cs : List Char} {token : Token} (h : Spells ('\n' :: cs) token) :
    cs = [] ∧ token = .newline := by
  cases h with
  | char h =>
    cases h
    exact ⟨rfl, rfl⟩
  | string hquote => simp at hquote
  | number hc => exact absurd hc (by decide)
  | identifier hc => exact absurd hc (by decide)
  | whitespace hc => exact absurd hc (by decide)

theorem Spells.eq_whitespace {text : List Char} (h : Spells text .whitespace) :
    ∀ c ∈ text, readPiece.isSpacing c = true := by
  generalize htoken : Token.whitespace = token at h
  cases h with
  | whitespace hc hcs => simpa using ⟨hc, hcs⟩
  | char h =>
    exact absurd htoken.symm (Token.ne_whitespace_of_ofChar? h)
  | _ => cases htoken

namespace Reads

variable {rest : List Char}

theorem spaces {cs ds : List Char} {ts : List Token}
    (hcs : ∀ c ∈ cs, readPiece.isSpacing c = true) (h : Reads rest ds ts) :
    Reads rest (cs ++ ds) ts := by
  induction cs with
  | nil => exact h
  | cons c cs ih =>
    apply Reads.space
    . exact hcs c (.head _)
    . apply ih
      intro d hd
      exact hcs d (.tail _ hd)

theorem append {cs ds : List Char} {ts us : List Token} (h : Reads (ds ++ rest) cs ts)
    (hds : Reads rest ds us) : Reads rest (cs ++ ds) (ts ++ us) := by
  induction h with
  | nil => exact hds
  | space hc _ ih =>
    rw [List.cons_append]
    exact .space hc ih
  | token hspells hblank hends _ ih =>
    rw [List.append_assoc, List.cons_append]
    apply Reads.token hspells hblank
    . rw [List.append_assoc]
      exact hends
    . exact ih

theorem of_space {c : Char} {cs : List Char} {ts : List Token} (h : Reads rest (c :: cs) ts)
    (hc : readPiece.isSpacing c = true) : Reads rest cs ts := by
  generalize hds : c :: cs = ds at h
  cases h with
  | nil => cases hds
  | space _ htail =>
    cases hds
    exact htail
  | @token text cs' _ _ hspells hblank =>
    obtain ⟨d, text, rfl⟩ := List.exists_cons_of_ne_nil hspells.ne_nil
    cases hds
    rw [hspells.isSpacing_eq_false hblank] at hc
    cases hc

theorem of_spaces {cs ds : List Char} {ts : List Token} (h : Reads rest (cs ++ ds) ts)
    (hcs : ∀ c ∈ cs, readPiece.isSpacing c = true) : Reads rest ds ts := by
  induction cs with
  | nil => exact h
  | cons c cs ih =>
    apply ih
    . exact h.of_space (hcs c (.head _))
    . intro d hd
      exact hcs d (.tail _ hd)

theorem of_newline {cs : List Char} {ts : List Token} (h : Reads rest ('\n' :: cs) ts) :
    ∃ us, ts = .newline :: us ∧ Reads rest cs us := by
  generalize hds : '\n' :: cs = ds at h
  cases h with
  | nil => cases hds
  | space hc =>
    cases hds
    exact absurd hc (by decide)
  | @token text cs' token ts hspells hblank _ htail =>
    obtain ⟨c, text, rfl⟩ := List.exists_cons_of_ne_nil hspells.ne_nil
    cases hds
    obtain ⟨rfl, rfl⟩ := hspells.eq_newline
    exact ⟨_, rfl, htail⟩

end Reads

theorem reads_of_areLaid {start : Nat} {ls ms : List Lexeme} (h : AreLaid start (ls ++ ms)) :
    Reads (textOf ms) (textOf ls) (tokensOf ls) := by
  induction ls generalizing start with
  | nil => exact .nil
  | cons l ls ih =>
    rw [List.cons_append] at h
    obtain ⟨_, hspells, hends, htail⟩ := h.cons
    have hreads := ih htail
    rw [textOf_append] at hends
    by_cases hblank : l.token = .whitespace
    . have : tokensOf (l :: ls) = tokensOf ls := by
        simp [tokensOf, hblank]
      rw [this]
      rw [hblank] at hspells
      exact hreads.spaces hspells.eq_whitespace
    . have : tokensOf (l :: ls) = l.token :: tokensOf ls := by
        simp [tokensOf, hblank]
      rw [this]
      exact .token hspells hblank hends hreads

namespace Token

def isSecure : Token → Bool
  | newline | blockComment _ | opening _ | sign .semicolon | sign .comma => true
  | _ => false

theorem endsBefore_of_isSecure {token : Token} (h : token.isSecure = true) (rest : List Char) :
    token ≠ .sign .dot ∧ token.endsBefore rest = true := by
  unfold isSecure at h
  split at h
  all_goals
    first
    | exact ⟨by simp, rfl⟩
    | cases h

theorem endsBefore_append (token : Token) {c : Char} {cs : List Char} (h : c ≠ '.' ∨ cs ≠ [])
    (rest rest' : List Char) :
    token.endsBefore (c :: (cs ++ rest)) = token.endsBefore (c :: (cs ++ rest')) := by
  cases token with
  | sign s =>
    cases s with
    | dot =>
      cases cs with
      | nil =>
        have hc : ('.' == c) = false := by
          rcases h with h | h
          . exact beq_eq_false_iff_ne.mpr (Ne.symm h)
          . exact absurd rfl h
        simp [endsBefore, List.isPrefixOf, hc]
      | cons d cs => rfl
    | _ => rfl
  | _ => rfl

end Token

theorem Spells.eq_dot {token : Token} (h : Spells ['.'] token) : token = .sign .dot := by
  cases h with
  | char h =>
    cases h
    rfl
  | number hc => exact absurd hc (by decide)
  | identifier hc => exact absurd hc (by decide +kernel)
  | whitespace hc => exact absurd hc (by decide +kernel)
  | string hquote => simp at hquote

theorem Spells.getLast?_of_isSecure {text : List Char} {token : Token} (h : Spells text token)
    (hsecure : token.isSecure = true) : ∀ c ∈ text.getLast?, readPiece.isSpacing c = false := by
  intro c hc
  cases h with
  | blockComment =>
    rw [← List.cons_append, ← List.cons_append, List.getLast?_append] at hc
    cases hc
    decide
  | char h =>
    cases hc
    rw [Bool.eq_false_iff]
    intro hspacing
    have := (of_isSpacing hspacing).2.2.2
    rw [List.getLast_singleton, h] at this
    cases this
  | _ => cases hsecure

theorem getLast?_ne_of_run {c d : Char} {cs : List Char} {p q : Char → Bool} (hc : p c = true)
    (hcs : ∀ x ∈ cs, q x = true) (hp : p d = false) (hq : q d = false) :
    (c :: cs).getLast? ≠ some d := by
  intro hlast
  rcases List.mem_cons.mp (List.mem_of_getLast? hlast) with rfl | h
  . rw [hp] at hc
    cases hc
  . rw [hcs d h] at hq
    cases hq

theorem Spells.eq_newline_of_getLast? {text : List Char} {token : Token} (h : Spells text token)
    (hlast : text.getLast? = some '\n') : token = .newline := by
  cases h with
  | blockComment =>
    rw [← List.cons_append, ← List.cons_append, List.getLast?_append] at hlast
    simp at hlast
  | lineComment h => exact absurd (List.mem_of_getLast? hlast) (by simpa using h)
  | string hquote h =>
    refine absurd hlast (Quoted.getLast?_ne_of_scan ?_ (by simp) h)
    rcases hquote with rfl | rfl <;> simp
  | template h => exact absurd hlast (Quoted.getLast?_ne_of_scan (by simp) (by simp) h)
  | number hc hcs => exact absurd hlast (getLast?_ne_of_run hc hcs (by decide) (by decide))
  | identifier hc hcs => exact absurd hlast (getLast?_ne_of_run hc hcs (by decide) (by decide))
  | char h =>
    cases hlast
    cases h
    rfl
  | whitespace hc hcs => exact absurd hlast (getLast?_ne_of_run hc hcs (by decide) (by decide))
  | _ => simp at hlast

namespace Reads

variable {rest cs : List Char} {ts : List Token}

theorem eq_nil (h : Reads rest [] ts) : ts = [] := by
  generalize hds : [] = ds at h
  cases h with
  | nil => rfl
  | space => cases hds
  | token hspells =>
    have := List.append_eq_nil_iff.mp hds.symm
    exact absurd this.1 hspells.ne_nil

theorem eq_nil_of_spaces (h : Reads rest cs ts) (hcs : ∀ c ∈ cs, readPiece.isSpacing c = true) :
    ts = [] := by
  rw [← List.append_nil cs] at h
  exact (h.of_spaces hcs).eq_nil

theorem eq_dot (h : Reads rest ['.'] ts) : ts = [.sign .dot] := by
  generalize hds : ['.'] = ds at h
  cases h with
  | nil => cases hds
  | space hc =>
    cases hds
    exact absurd hc (by decide +kernel)
  | token hspells _ _ htail =>
    rcases List.append_eq_singleton_iff.mp hds.symm with ⟨rfl, rfl⟩ | ⟨rfl, rfl⟩
    . exact absurd rfl hspells.ne_nil
    . rw [htail.eq_nil, hspells.eq_dot]

theorem getLast?_eq_newline (h : Reads rest cs ts) (hlast : cs.getLast? = some '\n') :
    ts.getLast? = some .newline := by
  induction h with
  | nil => cases hlast
  | @space c cs ts hc _ ih =>
    cases cs with
    | nil =>
      cases hlast
      exact absurd hc (by decide)
    | cons d cs => exact ih hlast
  | @token text cs token ts hspells _ _ htail ih =>
    cases cs with
    | nil =>
      rw [List.append_nil] at hlast
      rw [htail.eq_nil, hspells.eq_newline_of_getLast? hlast]
      rfl
    | cons d cs =>
      have : (d :: cs).getLast? = some '\n' := by
        rw [List.getLast?_append] at hlast
        simpa using hlast
      rw [List.getLast?_cons, ih this]
      rfl

theorem before (h : Reads rest cs ts) {rest' : List Char}
    (hlast : ∀ t ∈ ts.getLast?, t ≠ .sign .dot ∧ t.endsBefore rest' = true) :
    Reads rest' cs ts := by
  induction h with
  | nil => exact .nil
  | space hc _ ih => exact .space hc (ih hlast)
  | @token text cs token ts hspells hblank hends htail ih =>
    have htail' : Reads rest' cs ts := by
      apply ih
      intro t ht
      apply hlast
      rw [List.getLast?_cons, ht]
      rfl
    apply Reads.token hspells hblank _ htail'
    cases cs with
    | nil =>
      rw [htail.eq_nil] at hlast
      exact (hlast token rfl).2
    | cons c cs =>
      rw [List.cons_append] at hends ⊢
      rw [token.endsBefore_append _ rest' rest]
      . exact hends
      . by_contra hdot
        simp only [ne_eq, not_or, not_not] at hdot
        obtain ⟨rfl, rfl⟩ := hdot
        rw [htail.eq_dot] at hlast
        exact (hlast _ rfl).1 rfl

theorem strip {kept spaces : List Char} (h : Reads rest (kept ++ spaces) ts)
    (hspaces : ∀ c ∈ spaces, readPiece.isSpacing c = true)
    (hlast : ∀ t ∈ ts.getLast?, t.isSecure = true) : Reads (spaces ++ rest) kept ts := by
  generalize hds : kept ++ spaces = ds at h
  induction h generalizing kept with
  | nil =>
    obtain ⟨rfl, rfl⟩ := List.append_eq_nil_iff.mp hds
    exact .nil
  | @space c cs ts hc htail ih =>
    cases kept with
    | nil =>
      rw [List.nil_append] at hds
      subst hds
      have : ts = [] := by
        apply htail.eq_nil_of_spaces
        intro x hx
        exact hspaces x (.tail _ hx)
      rw [this]
      exact .nil
    | cons d kept =>
      cases hds
      exact .space hc (ih hlast rfl)
  | @token text cs token ts hspells hblank hends htail ih =>
    have hlast' : ∀ t ∈ ts.getLast?, t.isSecure = true := by
      intro t ht
      apply hlast
      rw [List.getLast?_cons, ht]
      rfl
    rcases List.append_eq_append_iff.mp hds with ⟨more, htext, hspaces'⟩ | ⟨more, hkept, hcs⟩
    . have hnil : ts = [] := by
        apply htail.eq_nil_of_spaces
        intro x hx
        apply hspaces
        rw [hspaces']
        exact List.mem_append_right _ hx
      subst hnil
      cases List.eq_nil_or_concat more with
      | inl hmore =>
        subst hmore
        simp only [List.append_nil, List.nil_append] at htext hspaces'
        subst htext hspaces'
        have : Reads (spaces ++ rest) (text ++ []) [token] :=
          .token hspells hblank (by simpa using hends) .nil
        simpa using this
      | inr hmore =>
        obtain ⟨front, x, rfl⟩ := hmore
        have hx : readPiece.isSpacing x = true := by
          apply hspaces
          rw [hspaces']
          simp
        have := hspells.getLast?_of_isSecure (hlast token rfl) x (by rw [htext]; simp)
        rw [hx] at this
        cases this
    . subst hkept
      apply Reads.token hspells hblank
      . rw [hcs, List.append_assoc] at hends
        exact hends
      . exact ih hlast' hcs.symm

end Reads

/--
A text whose tokens can be read is divided into lexemes.
-/
theorem lexes_of_reads {cs : List Char} {ts : List Token} (h : Reads [] cs ts) (start : Nat) :
    ∃ ls, Lexes start cs ls ∧ tokensOf ls = ts := by
  generalize hlength : cs.length = n
  induction n using Nat.strongRecOn generalizing cs ts start with
  | _ n ih =>
    cases h with
    | nil => exact ⟨[], .nil, rfl⟩
    | @space c cs _ hc htail =>
      -- White space that is read character by character is one lexeme.
      have hrest : Reads [] (cs.dropWhile readPiece.isSpacing) ts := by
        rw [← List.takeWhile_append_dropWhile (p := readPiece.isSpacing) (l := cs)] at htail
        exact htail.of_spaces fun c hc => List.mem_takeWhile_imp hc
      have hle := (List.dropWhile_suffix (l := cs) readPiece.isSpacing).length_le
      rw [List.length_cons] at hlength
      obtain ⟨ls, hls, htokens⟩ := ih _ (by omega) hrest
        (start + byteLength (c :: cs.takeWhile readPiece.isSpacing)) rfl
      refine ⟨⟨start, .whitespace, c :: cs.takeWhile readPiece.isSpacing⟩ :: ls, ?_, ?_⟩
      . have := Lexes.cons (.whitespace hc fun c hc => List.mem_takeWhile_imp hc)
          (head?_dropWhile_all cs) hls
        rw [List.cons_append, List.takeWhile_append_dropWhile] at this
        exact this
      . rw [← htokens]
        rfl
    | @token text cs token ts hspells hblank hends htail =>
      have hpos := List.length_pos_iff.mpr hspells.ne_nil
      rw [List.length_append] at hlength
      obtain ⟨ls, hls, htokens⟩ := ih _ (by omega) htail (start + byteLength text) rfl
      refine ⟨⟨start, token, text⟩ :: ls, ?_, ?_⟩
      . rw [List.append_nil] at hends
        exact .cons hspells hends hls
      . rw [← htokens]
        simp [tokensOf, hblank]

end Delegation
