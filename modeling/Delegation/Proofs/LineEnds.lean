import Delegation.Proofs.Mirror
import Delegation.Proofs.Resplicing
import Delegation.Proofs.Revision
import Mathlib.Data.List.Infix
import Mathlib.Order.Monotone.Basic

/-!
This module contains the revision of a file whose lines end with a carriage return and a line break.
Carriage returns are white space between tokens, and part of comments and templates.
-/

namespace Delegation

open Item Lexeme

def crlf (cs : List Char) : List Char :=
  endLines ['\r'] cs

@[simp]
theorem crlf_nil : crlf [] = [] := rfl

theorem crlf_cons_newline (cs : List Char) : crlf ('\n' :: cs) = '\r' :: '\n' :: crlf cs :=
  endLines_cons_newline ..

theorem crlf_cons {c : Char} (h : c ≠ '\n') (cs : List Char) : crlf (c :: cs) = c :: crlf cs :=
  endLines_cons _ h _

@[simp]
theorem crlf_append (cs ds : List Char) : crlf (cs ++ ds) = crlf cs ++ crlf ds :=
  endLines_append ..

theorem crlf_eq_self {cs : List Char} (h : '\n' ∉ cs) : crlf cs = cs :=
  endLines_eq_self _ h

theorem exists_cons_of_crlf {c : Char} {cs rest : List Char} (hc : c ≠ '\r')
    (h : crlf cs = c :: rest) : ∃ more, cs = c :: more := by
  cases cs with
  | nil => cases h
  | cons d cs =>
    by_cases hd : d = '\n'
    . rw [hd, crlf_cons_newline, List.cons.injEq] at h
      exact absurd h.1.symm hc
    . rw [crlf_cons hd, List.cons.injEq] at h
      exact ⟨cs, by rw [h.1]⟩

/--
Whether no line break of `cs` is escaped by a backslash in front of it.
-/
def HasPlainBreaks (cs : List Char) : Prop :=
  ¬ ['\\', '\n'] <:+: cs

instance (cs : List Char) : Decidable (HasPlainBreaks cs) :=
  inferInstanceAs (Decidable (¬ _))

theorem HasPlainBreaks.of_append {cs ds : List Char} (h : HasPlainBreaks (cs ++ ds)) :
    HasPlainBreaks ds :=
  fun hescaped => h (hescaped.trans (List.suffix_append cs ds).isInfix)

theorem HasPlainBreaks.tail {c : Char} {cs : List Char} (h : HasPlainBreaks (c :: cs)) :
    HasPlainBreaks cs :=
  @HasPlainBreaks.of_append [c] cs h

theorem HasPlainBreaks.ne_newline {c : Char} {cs : List Char}
    (h : HasPlainBreaks ('\\' :: c :: cs)) :
    c ≠ '\n' := by
  rintro rfl
  exact h ⟨[], cs, rfl⟩

/-!
Comments and quoted literals.
-/

theorem blockCommentBody?_crlf (cs : List Char) :
    blockCommentBody? (crlf cs)
      = (blockCommentBody? cs).map (Prod.map crlf crlf) := by
  fun_induction blockCommentBody? cs with
  | case1 cs =>
    rw [crlf_cons (by decide), crlf_cons (by decide)]
    rfl
  | case2 c cs hend ih =>
    by_cases hc : c = '\n'
    . subst hc
      rw [crlf_cons_newline, blockCommentBody?, blockCommentBody?, ih, Option.map_map,
        Option.map_map, Option.map_map]
      . rfl
      all_goals
        intro tail hstar
        cases hstar
    . rw [crlf_cons hc, blockCommentBody?, ih, Option.map_map, Option.map_map]
      . congr 1
        funext found
        simp [crlf_cons hc]
      . intro tail hstar htail
        obtain ⟨more, hmore⟩ := exists_cons_of_crlf (by decide) htail
        exact hend more hstar hmore
  | case3 => rfl

/--
Whether two frames differ only in what was read before they were opened.
-/
inductive Frame.Resembles : Frame → Frame → Prop where
  | string {quote : Char} {opened opened' : List Char} :
    Frame.Resembles (.string quote opened) (.string quote opened')
  | template {opened opened' : List Char} : Frame.Resembles (.template opened) (.template opened')
  | placeholder {depth : Nat} {front front' opened opened' : List Char} :
    Frame.Resembles (.placeholder depth front opened) (.placeholder depth front' opened')

theorem Frame.Resembles.refl (frame : Frame) : frame.Resembles frame := by
  cases frame <;> constructor

namespace Quoted

def IsAlike (read cs : List Char) : Quoted → Quoted → Prop
  | .closed _ rest, other =>
    ∃ body, cs = body ++ rest ∧ other = .closed (read.reverse ++ crlf body) (crlf rest)
  | .unclosed .., other =>
    ∃ quotation before text rest, other = .unclosed quotation before text rest

theorem IsAlike.step {read cs : List Char} (front : List Char) {quoted other : Quoted}
    (h : IsAlike ((crlf front).reverse ++ read) cs quoted other) :
    IsAlike read (front ++ cs) quoted other := by
  cases quoted with
  | unclosed => exact h
  | closed text rest =>
    obtain ⟨body, rfl, rfl⟩ := h
    exact ⟨front ++ body, by simp, by simp⟩

theorem IsAlike.char {read cs : List Char} {c : Char} {quoted other : Quoted} (hc : c ≠ '\n')
    (h : IsAlike (c :: read) cs quoted other) : IsAlike read (c :: cs) quoted other := by
  apply IsAlike.step [c]
  rw [crlf_cons hc]
  exact h

theorem IsAlike.newline {read cs : List Char} {quoted other : Quoted}
    (h : IsAlike ('\n' :: '\r' :: read) cs quoted other) :
    IsAlike read ('\n' :: cs) quoted other := by
  apply IsAlike.step ['\n']
  rw [crlf_cons_newline]
  exact h

theorem isAlike_leave (read cs : List Char) (quotation quotation' : Quotation)
    (opened read₁ rest opened' read₂ rest' : List Char) :
    IsAlike read cs (leave quotation opened read₁ rest) (leave quotation' opened' read₂ rest') :=
  ⟨_, _, _, _, rfl⟩

def AreQuotes (frames : List Frame) : Prop :=
  ∀ quote opened, .string quote opened ∈ frames → quote = '\x27' ∨ quote = '\x22'

theorem AreQuotes.tail {frame : Frame} {frames : List Frame} (h : AreQuotes (frame :: frames)) :
    AreQuotes frames :=
  fun quote opened hmem => h quote opened (.tail _ hmem)

theorem AreQuotes.push {frame : Frame} {frames : List Frame} (h : AreQuotes frames)
    (hframe : ∀ quote opened, frame = .string quote opened → quote = '\x27' ∨ quote = '\x22') :
    AreQuotes (frame :: frames) := by
  intro quote opened hmem
  rcases List.mem_cons.mp hmem with heq | hmem
  . exact hframe quote opened heq.symm
  . exact h quote opened hmem

/--
Whether literals are closed at the same characters with other line ends, in texts of less than
`bound` characters.
-/
def AreAlikeBelow (bound : Nat) : Prop :=
  ∀ ⦃read read' : List Char⦄ ⦃frames frames' : List Frame⦄ ⦃cs : List Char⦄, cs.length < bound →
    List.Forall₂ Frame.Resembles frames frames' → AreQuotes frames → HasPlainBreaks cs →
    IsAlike read' cs (scan read frames cs) (scan read' frames' (crlf cs))

section

variable {read read' opened opened' front front' cs : List Char} {outer outer' : List Frame}

theorem isAlike_string {quote : Char} (ih : AreAlikeBelow cs.length)
    (houter : List.Forall₂ Frame.Resembles outer outer')
    (hquotes : AreQuotes (.string quote opened :: outer)) (hbreaks : HasPlainBreaks cs) :
    IsAlike read' cs (scan read (.string quote opened :: outer) cs)
      (scan read' (.string quote opened' :: outer') (crlf cs)) := by
  have hquote := hquotes quote opened (.head _)
  have hframes := List.Forall₂.cons (@Frame.Resembles.string quote opened opened') houter
  generalize hother : scan read' _ (crlf cs) = other
  unfold scan
  split
  . next c rest =>
    have hc := hbreaks.ne_newline
    rw [crlf_cons (by decide), crlf_cons hc, scan] at hother
    subst hother
    exact .char (by decide) (.char hc (ih (by simp only [List.length_cons]; omega) hframes hquotes
      hbreaks.tail.tail))
  . next c rest hescape =>
    split
    . next hclose =>
      rw [beq_iff_eq] at hclose
      subst hclose
      have hne : c ≠ '\n' := by rcases hquote with rfl | rfl <;> decide
      have hslash : c ≠ '\\' := by rcases hquote with rfl | rfl <;> decide
      rw [crlf_cons hne, scan, if_pos (beq_self_eq_true c)] at hother
      . subst hother
        exact .char hne (ih (by simp) houter hquotes.tail hbreaks.tail)
      . exact fun _ _ h _ => hslash h
    . next hclose =>
      split
      . next hend =>
        simp only [Bool.or_eq_true, beq_iff_eq] at hend
        rcases hend with (rfl | rfl) | rfl
        . cases rest with
          | cons d rest => exact (hescape d rest rfl rfl).elim
          | nil =>
            rw [crlf_cons (by decide)] at hother
            simp only [crlf_nil, scan, hclose] at hother
            subst hother
            exact isAlike_leave ..
        . rw [crlf_cons_newline] at hother
          subst hother
          rcases hquote with rfl | rfl <;> exact isAlike_leave ..
        . rw [crlf_cons (by decide)] at hother
          subst hother
          rcases hquote with rfl | rfl <;> exact isAlike_leave ..
      . next hend =>
        have hend' := hend
        simp only [Bool.or_eq_true, beq_iff_eq, not_or] at hend'
        rw [crlf_cons hend'.1.2, scan, if_neg hclose, if_neg hend] at hother
        . subst hother
          exact .char hend'.1.2 (ih (by simp) hframes hquotes hbreaks.tail)
        . exact fun d _ hd _ => hend'.1.1 hd
  . exact hother ▸ isAlike_leave ..

theorem isAlike_template (ih : AreAlikeBelow cs.length)
    (houter : List.Forall₂ Frame.Resembles outer outer')
    (hquotes : AreQuotes (.template opened :: outer)) (hbreaks : HasPlainBreaks cs) :
    IsAlike read' cs (scan read (.template opened :: outer) cs)
      (scan read' (.template opened' :: outer') (crlf cs)) := by
  have hframes := List.Forall₂.cons (@Frame.Resembles.template opened opened') houter
  generalize hother : scan read' _ (crlf cs) = other
  unfold scan
  split
  . next c rest =>
    have hc := hbreaks.ne_newline
    rw [crlf_cons (by decide), crlf_cons hc, scan] at hother
    subst hother
    exact .char (by decide) (.char hc (ih (by simp only [List.length_cons]; omega) hframes hquotes
      hbreaks.tail.tail))
  . next rest =>
    rw [crlf_cons (by decide), crlf_cons (by decide), scan] at hother
    subst hother
    exact .char (by decide) (.char (by decide) (ih (by simp only [List.length_cons]; omega)
      (.cons .placeholder hframes) (hquotes.push (by simp)) hbreaks.tail.tail))
  . next c rest hescape hdollar =>
    split
    . next hclose =>
      rw [beq_iff_eq] at hclose
      subst hclose
      rw [crlf_cons (by decide), scan] at hother
      . subst hother
        exact .char (by decide) (ih (by simp) houter hquotes.tail hbreaks.tail)
      . simp
      . simp
    . next hclose =>
      split
      . next hend =>
        rw [beq_iff_eq] at hend
        subst hend
        cases rest with
        | cons d rest => exact (hescape d rest rfl rfl).elim
        | nil =>
          rw [crlf_cons (by decide)] at hother
          subst hother
          exact isAlike_leave ..
      . next hend =>
        by_cases hnewline : c = '\n'
        . subst hnewline
          rw [crlf_cons_newline] at hother
          subst hother
          exact .newline (ih (by simp) hframes hquotes hbreaks.tail)
        . rw [crlf_cons hnewline, scan, if_neg hclose, if_neg hend] at hother
          . subst hother
            exact .char hnewline (ih (by simp) hframes hquotes hbreaks.tail)
          . exact fun d _ hd _ => hend (beq_iff_eq.mpr hd)
          . intro tail hc htail
            obtain ⟨more, hmore⟩ := exists_cons_of_crlf (by decide) htail
            exact hdollar more hc hmore
  . exact hother ▸ isAlike_leave ..

theorem isAlike_placeholder {depth : Nat} (ih : AreAlikeBelow cs.length)
    (houter : List.Forall₂ Frame.Resembles outer outer')
    (hquotes : AreQuotes (.placeholder depth front opened :: outer))
    (hbreaks : HasPlainBreaks cs) :
    IsAlike read' cs (scan read (.placeholder depth front opened :: outer) cs)
      (scan read' (.placeholder depth front' opened' :: outer') (crlf cs)) := by
  have hframes : ∀ depth, List.Forall₂ Frame.Resembles
      (.placeholder depth front opened :: outer) (.placeholder depth front' opened' :: outer') :=
    fun _ => .cons .placeholder houter
  have hinner : ∀ depth, AreQuotes (.placeholder depth front opened :: outer) :=
    fun _ => hquotes.tail.push (by simp)
  cases cs with
  | nil => exact isAlike_leave ..
  | cons c rest =>
    have hrest : rest.length < (c :: rest).length := by simp
    by_cases hnewline : c = '\n'
    . subst hnewline
      rw [crlf_cons_newline]
      exact .newline (ih hrest (hframes depth) hquotes hbreaks.tail)
    . rw [crlf_cons hnewline]
      apply IsAlike.char hnewline
      simp only [scan]
      split
      . exact ih hrest (hframes _) (hinner _) hbreaks.tail
      . split
        . cases depth with
          | zero => exact ih hrest houter hquotes.tail hbreaks.tail
          | succ depth => exact ih hrest (hframes _) (hinner _) hbreaks.tail
        . split
          . next hquote =>
            refine ih hrest (.cons .string (hframes _)) (hquotes.push ?_) hbreaks.tail
            rintro quote opened ⟨⟩
            simpa using hquote
          . split
            . exact ih hrest (.cons .template (hframes _)) (hquotes.push (by simp)) hbreaks.tail
            . exact ih hrest (hframes _) hquotes hbreaks.tail

end

theorem areAlikeBelow (bound : Nat) : AreAlikeBelow bound := by
  induction bound using Nat.strong_induction_on with
  | _ bound ih =>
    intro read read' frames frames' cs hlength hframes hquotes hbreaks
    cases hframes with
    | nil =>
      rw [scan, scan]
      exact ⟨[], rfl, by simp⟩
    | cons hframe houter =>
      cases hframe with
      | string => exact isAlike_string (ih _ hlength) houter hquotes hbreaks
      | template => exact isAlike_template (ih _ hlength) houter hquotes hbreaks
      | placeholder => exact isAlike_placeholder (ih _ hlength) houter hquotes hbreaks

theorem isAlike_quoted {q : Char} {frame : Frame} {cs : List Char} (hq : q ≠ '\n')
    (hquotes : AreQuotes [frame]) (hbreaks : HasPlainBreaks cs) :
    match scan [q] [frame] cs with
    | .closed text rest => scan [q] [frame] (crlf cs) = .closed (crlf text) (crlf rest)
    | .unclosed .. => ∃ quotation before text rest,
      scan [q] [frame] (crlf cs) = .unclosed quotation before text rest := by
  have halike := @areAlikeBelow (cs.length + 1) [q] [q] _ _ cs (by omega) (.cons (.refl frame) .nil)
    hquotes hbreaks
  split
  . next text rest hscan =>
    rw [hscan] at halike
    obtain ⟨body, rfl, hother⟩ := halike
    have htext := scan_closed hscan
    rw [← List.append_assoc, List.append_cancel_right_eq] at htext
    rw [hother, htext, crlf_append, List.reverse_singleton, crlf_cons hq, crlf_nil]
  . next hscan =>
    rw [hscan] at halike
    exact halike

theorem not_mem_of_scan {read cs text rest : List Char} {frames : List Frame}
    (hstrings : ∀ frame ∈ frames, ∃ quote opened, frame = .string quote opened)
    (hquotes : AreQuotes frames) (hread : '\n' ∉ read) (hbreaks : HasPlainBreaks cs)
    (h : scan read frames cs = .closed text rest) : '\n' ∉ text := by
  fun_induction scan read frames cs with
  | case1 read cs =>
    cases h
    simpa using hread
  | case2 read quote opened outer c cs ih =>
    apply ih hstrings hquotes _ hbreaks.tail.tail h
    simp [hread, Ne.symm hbreaks.ne_newline]
  | case3 read quote opened outer c cs hesc hc ih =>
    apply ih (fun frame hmem => hstrings frame (.tail _ hmem)) hquotes.tail _ hbreaks.tail h
    rw [beq_iff_eq] at hc
    subst hc
    rcases hquotes c opened (.head _) with rfl | rfl <;> simpa using hread
  | case4 => simp [leave] at h
  | case5 read quote opened outer c cs hesc hc hend ih =>
    apply ih hstrings hquotes _ hbreaks.tail h
    simp only [Bool.or_eq_true, beq_iff_eq, not_or] at hend
    simp [hread, Ne.symm hend.1.2]
  | case6 => simp [leave] at h
  | _ => simp at hstrings

end Quoted

/-!
Runs of characters.
-/

theorem takeWhile_crlf {p : Char → Bool} (hnewline : p '\n' = false) (hreturn : p '\r' = false)
    (cs : List Char) :
    (crlf cs).takeWhile p = cs.takeWhile p ∧ (crlf cs).dropWhile p = crlf (cs.dropWhile p) := by
  induction cs with
  | nil => exact ⟨rfl, rfl⟩
  | cons c cs ih =>
    by_cases hc : c = '\n'
    . rw [hc, crlf_cons_newline]
      simp [hnewline, hreturn, crlf_cons_newline]
    . rw [crlf_cons hc]
      cases hp : p c with
      | true => simp [hp, ih]
      | false => simp [hp, crlf_cons hc]

theorem takeWhile_crlf_of_return {p : Char → Bool} (hnewline : p '\n' = false)
    (hreturn : p '\r' = true) (cs : List Char) :
    ((crlf cs).takeWhile p = cs.takeWhile p ∧ (crlf cs).dropWhile p = crlf (cs.dropWhile p))
      ∨ ∃ rest, cs.dropWhile p = '\n' :: rest
        ∧ (crlf cs).takeWhile p = cs.takeWhile p ++ ['\r']
        ∧ (crlf cs).dropWhile p = '\n' :: crlf rest := by
  induction cs with
  | nil => exact .inl ⟨rfl, rfl⟩
  | cons c cs ih =>
    by_cases hc : c = '\n'
    . subst hc
      refine .inr ⟨cs, ?_⟩
      rw [crlf_cons_newline]
      simp [hnewline, hreturn]
    . rw [crlf_cons hc]
      cases hp : p c with
      | false => exact .inl (by simp [hp, crlf_cons hc])
      | true =>
        rcases ih with ih | ⟨rest, ih⟩
        . exact .inl (by simp [hp, ih])
        . exact .inr ⟨rest, by simp [hp, ih]⟩

theorem beginsLongToken_crlf (c : Char) (cs : List Char) :
    beginsLongToken c (crlf cs) = beginsLongToken c cs := by
  rcases cs with _ | ⟨d, cs⟩
  . rfl
  by_cases hd : d = '\n'
  . rw [hd, crlf_cons_newline]
    unfold beginsLongToken
    split <;> simp_all
  rw [crlf_cons hd]
  rcases cs with _ | ⟨e, cs⟩
  . rfl
  by_cases he : e = '\n'
  . rw [he, crlf_cons_newline]
    unfold beginsLongToken
    split <;> simp_all
  . rw [crlf_cons he]
    unfold beginsLongToken
    split
    case h_6 =>
      split
      all_goals simp_all
    all_goals simp_all

/--
Whether `other` is what is read at `start'` with the other line ends, if `read` is what is read at
`start` otherwise. The carriage return of the next line end belongs to a line comment, or to white
space.
-/
inductive ReadsAlike (start start' : Nat) : Piece × List Char → Piece × List Char → Prop where
  | fault {f f' : Fault} {rest rest' : List Char} :
    ReadsAlike start start' (.fault f, rest) (.fault f', rest')
  | item {token token' : Token} {text rest : List Char} (htrivia : token.isTrivia = false)
    (htoken : token.Resembles token') :
    ReadsAlike start start' (.lexeme ⟨start, token, text⟩, rest)
      (.lexeme ⟨start', token', crlf text⟩, crlf rest)
  | trivia {token token' : Token} {text rest : List Char}
    (htoken : token = .whitespace ∧ token' = .whitespace ∨ token.IsComment ∧ token'.IsComment) :
    ReadsAlike start start' (.lexeme ⟨start, token, text⟩, rest)
      (.lexeme ⟨start', token', crlf text⟩, crlf rest)
  | line {token token' : Token} {text rest : List Char}
    (htoken : token = .whitespace ∧ token' = .whitespace ∨ token.IsComment ∧ token'.IsComment) :
    ReadsAlike start start' (.lexeme ⟨start, token, text⟩, '\n' :: rest)
      (.lexeme ⟨start', token', crlf text ++ ['\r']⟩, '\n' :: crlf rest)

theorem Token.isComment_lineComment (content : String) : (lineComment content).IsComment :=
  ⟨rfl, by simp, by simp⟩

theorem Token.isComment_blockComment (content : String) : (blockComment content).IsComment :=
  ⟨rfl, by simp, by simp⟩

theorem not_mem_takeWhile {p : Char → Bool} (hnewline : p '\n' = false) (cs : List Char) :
    '\n' ∉ cs.takeWhile p := by
  intro hmem
  have := List.mem_takeWhile_imp hmem
  rw [hnewline] at this
  cases this

namespace ReadsAlike

variable {start start' : Nat} {p : Char → Bool}

theorem ofTrivia (hnewline : p '\n' = false) (hreturn : p '\r' = true) (front : List Char)
    (hfront : '\n' ∉ front) {token token' : Token}
    (htoken : token = .whitespace ∧ token' = .whitespace ∨ token.IsComment ∧ token'.IsComment)
    (cs : List Char) :
    ReadsAlike start start' (.lexeme ⟨start, token, front ++ cs.takeWhile p⟩, cs.dropWhile p)
      (.lexeme ⟨start', token', front ++ (crlf cs).takeWhile p⟩, (crlf cs).dropWhile p) := by
  have htext : crlf (front ++ cs.takeWhile p) = front ++ cs.takeWhile p := by
    apply crlf_eq_self
    rw [List.mem_append, not_or]
    exact ⟨hfront, not_mem_takeWhile hnewline cs⟩
  rcases takeWhile_crlf_of_return hnewline hreturn cs with
    ⟨htake, hdrop⟩ | ⟨rest, hrest, htake, hdrop⟩
  . have := @ReadsAlike.trivia start start' _ _ (front ++ cs.takeWhile p) (cs.dropWhile p) htoken
    rw [htext] at this
    rw [htake, hdrop]
    exact this
  . have := @ReadsAlike.line start start' _ _ (front ++ cs.takeWhile p) rest htoken
    rw [htext, List.append_assoc] at this
    rw [htake, hdrop, hrest]
    exact this

theorem ofItem (hnewline : p '\n' = false) (hreturn : p '\r' = false) {c : Char} (hc : c ≠ '\n')
    (make : List Char → Token) (hmake : ∀ text, (make text).isTrivia = false) (cs : List Char) :
    ReadsAlike start start'
      (.lexeme ⟨start, make (c :: cs.takeWhile p), c :: cs.takeWhile p⟩, cs.dropWhile p)
      (.lexeme ⟨start', make (c :: (crlf cs).takeWhile p), c :: (crlf cs).takeWhile p⟩,
        (crlf cs).dropWhile p) := by
  obtain ⟨htake, hdrop⟩ := takeWhile_crlf hnewline hreturn cs
  have htext : crlf (c :: cs.takeWhile p) = c :: cs.takeWhile p := by
    rw [crlf_cons hc, crlf_eq_self (not_mem_takeWhile hnewline cs)]
  have := @ReadsAlike.item start start' (make (c :: cs.takeWhile p)) _ (c :: cs.takeWhile p)
    (cs.dropWhile p) (hmake _) (.inl rfl)
  rw [htext] at this
  rw [htake, hdrop]
  exact this

end ReadsAlike

theorem readsAlike_of_beginsLongToken (start start' : Nat) {c : Char} {cs : List Char}
    (h : beginsLongToken c cs = true) :
    ReadsAlike start start' (readPiece start c cs) (readPiece start' c (crlf cs)) := by
  unfold beginsLongToken at h
  split at h
  . next cs =>
    rw [crlf_cons (by decide)]
    simp only [readPiece, blockCommentBody?_crlf]
    cases blockCommentBody? cs with
    | none => exact .fault
    | some found =>
      obtain ⟨body, rest⟩ := found
      have := @ReadsAlike.trivia start start' (.blockComment (.ofList body))
        (.blockComment (.ofList (crlf body))) ('/' :: '*' :: (body ++ ['*', '/'])) rest
        (.inr ⟨Token.isComment_blockComment _, Token.isComment_blockComment _⟩)
      rw [crlf_cons (by decide), crlf_cons (by decide), crlf_append] at this
      exact this
  . next cs =>
    rw [crlf_cons (by decide)]
    exact ReadsAlike.ofTrivia (p := (· != '\n')) rfl rfl ['/', '/'] (by simp)
      (.inr ⟨Token.isComment_lineComment _, Token.isComment_lineComment _⟩) cs
  . next cs =>
    rw [crlf_cons (by decide)]
    exact .item rfl (.inl rfl)
  . next cs =>
    rw [crlf_cons (by decide), crlf_cons (by decide)]
    exact .item rfl (.inl rfl)
  . next cs =>
    rw [crlf_cons (by decide)]
    exact .item rfl (.inl rfl)
  . cases h

theorem Token.isTrivia_of_ofChar? {c : Char} {token : Token} (h : Token.ofChar? c = some token)
    (hc : c ≠ '\n') : token.isTrivia = false := by
  have hall : tokenChars.all (fun c => c = '\n' || (Token.ofChar? c).all (!·.isTrivia)) = true := by
    decide
  have := List.all_eq_true.mp hall c (mem_tokenChars h)
  simpa [h, hc] using this

theorem readsAlike_readPiece (start start' : Nat) {c : Char} {cs : List Char} (hc : c ≠ '\n')
    (hbreaks : HasPlainBreaks (c :: cs)) :
    ReadsAlike start start' (readPiece start c cs) (readPiece start' c (crlf cs)) := by
  cases hlong : beginsLongToken c cs with
  | true => exact readsAlike_of_beginsLongToken start start' hlong
  | false =>
    rw [readPiece_of_run start hlong, readPiece_of_run start' (by rw [beginsLongToken_crlf, hlong])]
    split
    . next hquote =>
      have hquotes : Quoted.AreQuotes [.string c []] := by
        intro quote opened hmem
        simp only [List.mem_singleton, Frame.string.injEq] at hmem
        rw [hmem.1]
        simpa using hquote
      have halike := Quoted.isAlike_quoted hc hquotes hbreaks.tail
      unfold quotedString
      split
      . next text rest hscan =>
        have hplain : '\n' ∉ text := by
          apply Quoted.not_mem_of_scan _ hquotes (by simpa using Ne.symm hc) hbreaks.tail hscan
          simp
        rw [hscan] at halike
        simp only [halike, crlf_eq_self hplain]
        have := @ReadsAlike.item start start' (.string (readPiece.content text)) _ text rest rfl
          (.inl rfl)
        rw [crlf_eq_self hplain] at this
        exact this
      . next hscan =>
        rw [hscan] at halike
        obtain ⟨_, _, _, _, hother⟩ := halike
        rw [hother]
        exact .fault
    split
    . next hquote =>
      rw [beq_iff_eq] at hquote
      subst hquote
      have hquotes : Quoted.AreQuotes [.template []] := by
        simp [Quoted.AreQuotes]
      have halike := Quoted.isAlike_quoted hc hquotes hbreaks.tail
      unfold quotedTemplate
      split
      . next text rest hscan =>
        rw [hscan] at halike
        rw [halike]
        exact .item rfl (.inr ⟨_, _, rfl, rfl⟩)
      . next hscan =>
        rw [hscan] at halike
        obtain ⟨_, _, _, _, hother⟩ := halike
        rw [hother]
        exact .fault
    split
    . exact ReadsAlike.ofItem (by decide) (by decide) hc (fun text => .number (.ofList text))
        (fun _ => rfl) cs
    split
    . exact ReadsAlike.ofItem (by decide +kernel) (by decide +kernel) hc
        (fun text => .identifier (.ofList text)) (fun _ => rfl) cs
    split
    . next token htoken =>
      have := @ReadsAlike.item start start' token _ [c] cs (Token.isTrivia_of_ofChar? htoken hc)
        (.inl rfl)
      rw [crlf_cons hc] at this
      exact this
    split
    . exact ReadsAlike.ofTrivia (by decide) (by decide) [c] (by simpa using Ne.symm hc)
        (.inl ⟨rfl, rfl⟩) cs
    . exact .fault

theorem Mirrors.cons_trivia {f : Nat → Nat} {l l' : Lexeme}
    (htoken : l.token = .whitespace ∧ l'.token = .whitespace
      ∨ l.token.IsComment ∧ l'.token.IsComment)
    (hstart : l'.start = f l.start) (ls ls' : List Lexeme) (h : Mirrors f ls ls') :
    Mirrors f (l :: ls) (l' :: ls') := by
  rcases htoken with ⟨hl, hl'⟩ | ⟨hl, hl'⟩
  . exact .blank hl (.otherBlank hl' h)
  . exact .comment hl hl' hstart h

/--
Whether the lexemes of `ds` are those of `cs` at the offsets that `f` moves them to. Or else neither
of the texts can be divided into lexemes.
-/
def LexesAlike (f : Nat → Nat) (start start' : Nat) (cs ds : List Char) : Prop :=
  (∃ ls ls', Lexes start cs ls ∧ Lexes start' ds ls' ∧ Mirrors f ls ls')
    ∨ (∀ ls, ¬ Lexes start cs ls) ∧ ∀ ls', ¬ Lexes start' ds ls'

namespace LexesAlike

variable {f : Nat → Nat} {start start' : Nat} {text text' rest rest' : List Char}
  {token token' : Token}

theorem cons (hspells : Spells text token) (hends : token.endsBefore rest = true)
    (hspells' : Spells text' token') (hends' : token'.endsBefore rest' = true)
    (hmirrors : ∀ ls ls', Mirrors f ls ls' →
      Mirrors f (⟨start, token, text⟩ :: ls) (⟨start', token', text'⟩ :: ls'))
    (h : LexesAlike f (start + byteLength text) (start' + byteLength text') rest rest') :
    LexesAlike f start start' (text ++ rest) (text' ++ rest') := by
  rcases h with ⟨ls, ls', hls, hls', h⟩ | ⟨hnone, hnone'⟩
  . exact .inl ⟨_, _, .cons hspells hends hls, .cons hspells' hends' hls', hmirrors ls ls' h⟩
  . refine .inr ⟨fun ls hls => ?_, fun ls' hls' => ?_⟩
    . obtain ⟨_, _, hmore⟩ := Lexes.exists_cons hspells hends hls
      exact hnone _ hmore
    . obtain ⟨_, _, hmore⟩ := Lexes.exists_cons hspells' hends' hls'
      exact hnone' _ hmore

theorem blank {cs : List Char} (hspells : Spells text .whitespace)
    (hends : Token.whitespace.endsBefore rest = true)
    (h : LexesAlike f start (start' + byteLength text) cs rest) :
    LexesAlike f start start' cs (text ++ rest) := by
  rcases h with ⟨ls, ls', hls, hls', h⟩ | ⟨hnone, hnone'⟩
  . exact .inl ⟨_, _, hls, .cons hspells hends hls', .otherBlank rfl h⟩
  . refine .inr ⟨hnone, fun ls' hls' => ?_⟩
    obtain ⟨_, _, hmore⟩ := Lexes.exists_cons hspells hends hls'
    exact hnone' _ hmore

theorem newline {cs ds : List Char} (h : LexesAlike f (start + 1) (start' + 1) cs ds) :
    LexesAlike f start start' ('\n' :: cs) ('\n' :: ds) :=
  cons (.char rfl) rfl (.char rfl) rfl (fun _ _ h => .newline rfl rfl h) h

end LexesAlike

def Moves (f : Nat → Nat) (start start' : Nat) (cs : List Char) : Prop :=
  ∀ passed rest, cs = passed ++ rest →
    f (start + byteLength passed) = start' + byteLength (crlf passed)

theorem Moves.start_eq {f : Nat → Nat} {start start' : Nat} {cs : List Char}
    (h : Moves f start start' cs) : f start = start' :=
  h [] cs rfl

theorem Moves.of_append {f : Nat → Nat} {start start' : Nat} {cs ds : List Char}
    (h : Moves f start start' (cs ++ ds)) :
    Moves f (start + byteLength cs) (start' + byteLength (crlf cs)) ds := by
  rintro passed rest rfl
  have := h (cs ++ passed) rest (List.append_assoc ..).symm
  rw [crlf_append, byteLength_append, byteLength_append, ← Nat.add_assoc, ← Nat.add_assoc] at this
  exact this

theorem spells_of_readPiece_lexeme {start : Nat} {c : Char} {cs text rest : List Char}
    {token : Token} (h : readPiece start c cs = (.lexeme ⟨start, token, text⟩, rest)) :
    c :: cs = text ++ rest ∧ Spells text token ∧ token.endsBefore rest = true
      ∧ rest.length < cs.length + 1 := by
  obtain ⟨_, htext, hspells, hends⟩ := spells_of_readPiece h
  have hpos := List.length_pos_iff.mpr hspells.ne_nil
  have hsum := congrArg List.length htext
  rw [List.length_cons, List.length_append] at hsum
  exact ⟨htext, hspells, hends, by dsimp only at hsum hpos; omega⟩

theorem lexesAlike_crlf {f : Nat → Nat} {start start' : Nat} {cs : List Char}
    (hmoves : Moves f start start' cs) (hbreaks : HasPlainBreaks cs) :
    LexesAlike f start start' cs (crlf cs) := by
  generalize hlength : cs.length = n
  induction n using Nat.strongRecOn generalizing start start' cs with
  | _ n ih =>
    cases cs with
    | nil => exact .inl ⟨[], [], .nil, .nil, .nil⟩
    | cons c cs =>
      rw [List.length_cons] at hlength
      by_cases hc : c = '\n'
      . subst hc
        -- At the start of a token, the carriage return is white space of its own.
        have hreturn : Spells ['\r'] .whitespace := .whitespace (by decide) (by simp)
        have hmore := ih _ (by omega) (@Moves.of_append _ _ _ ['\n'] cs hmoves) hbreaks.tail rfl
        rw [crlf_cons_newline]
        exact .blank hreturn rfl (.newline hmore)
      . have hread := readsAlike_readPiece start start' hc hbreaks
        rw [crlf_cons hc]
        generalize hpiece : readPiece start c cs = read at hread
        generalize hpiece' : readPiece start' c (crlf cs) = read' at hread
        cases hread with
        | fault => exact .inr ⟨not_lexes_of_fault hpiece, not_lexes_of_fault hpiece'⟩
        | @item token token' text rest htrivia htoken =>
          obtain ⟨htext, hspells, hends, hshorter⟩ := spells_of_readPiece_lexeme hpiece
          obtain ⟨htext', hspells', hends', _⟩ := spells_of_readPiece_lexeme hpiece'
          rw [htext] at hmoves hbreaks
          have hspan : (⟨start', start' + byteLength (crlf text)⟩ : Span)
              = Span.relocate f ⟨start, start + byteLength text⟩ := by
            rw [Span.relocate, hmoves.start_eq, hmoves text rest rfl]
          have hmore := ih _ (by omega) hmoves.of_append hbreaks.of_append rfl
          rw [htext, htext']
          exact .cons hspells hends hspells' hends' (fun _ _ h => .item htrivia htoken hspan h)
            hmore
        | @trivia token token' text rest htoken =>
          obtain ⟨htext, hspells, hends, hshorter⟩ := spells_of_readPiece_lexeme hpiece
          obtain ⟨htext', hspells', hends', _⟩ := spells_of_readPiece_lexeme hpiece'
          rw [htext] at hmoves hbreaks
          have hstart := hmoves.start_eq.symm
          have hmore := ih _ (by omega) hmoves.of_append hbreaks.of_append rfl
          rw [htext, htext']
          exact .cons hspells hends hspells' hends' (Mirrors.cons_trivia htoken hstart) hmore
        | @line token token' text rest htoken =>
          -- The carriage return in front of the line break was read with the trivia already.
          obtain ⟨htext, hspells, hends, hshorter⟩ := spells_of_readPiece_lexeme hpiece
          obtain ⟨htext', hspells', hends', _⟩ := spells_of_readPiece_lexeme hpiece'
          rw [List.length_cons] at hshorter
          rw [htext] at hmoves hbreaks
          have hstart := hmoves.start_eq.symm
          have hline := @Moves.of_append _ _ _ ['\n'] rest hmoves.of_append
          have hmore := ih _ (by omega) hline hbreaks.of_append.tail rfl
          rw [htext, htext']
          refine .cons hspells hends hspells' hends' (Mirrors.cons_trivia htoken hstart)
            (.newline ?_)
          rw [byteLength_append, ← Nat.add_assoc]
          exact hmore

/-!
A type is written on one line.
-/

theorem IsName.not_mem {name : String} (h : IsName name) : '\n' ∉ name.toList := by
  unfold IsName at h
  generalize name.toList = text at h
  cases h with
  | identifier hc hcs =>
    intro hmem
    rcases List.mem_cons.mp hmem with rfl | hmem
    . exact absurd hc (by decide)
    . exact absurd (hcs _ hmem) (by decide)
  | char h =>
    rw [List.mem_singleton]
    rintro rfl
    cases h

theorem not_mem_escape {cs : List Char} (h : '\n' ∉ cs) : '\n' ∉ TypeNode.escape cs := by
  intro hmem
  obtain ⟨c, hc, hmem⟩ := List.mem_flatMap.mp hmem
  have hne : '\n' ≠ c := fun heq => h (heq ▸ hc)
  split at hmem
  all_goals simp [hne] at hmem

mutual

theorem not_mem_render (node : TypeNode) (h : node.IsWritable) : '\n' ∉ node.render := by
  match node with
  | .reference name [] => exact h.1.not_mem
  | .reference name (arg :: args) =>
    have harg := not_mem_render arg h.2.1
    have hargs := not_mem_renderMore (show '\n' ∉ [',', ' '] by decide) args h.2.2
    simp [TypeNode.render, h.1.not_mem, harg, hargs]
  | .stringLiteral value =>
    have := not_mem_escape (fun hmem => (h _ hmem).1 rfl)
    simp [TypeNode.render, this]
  | .object [] => decide
  | .object ((name, type) :: properties) =>
    have htype := not_mem_render type h.1.2
    have hproperties := not_mem_renderProperties properties h.2
    simp [TypeNode.render, TypeNode.renderProperty, h.1.1.not_mem, htype, hproperties]
  | .intersection members =>
    rw [TypeNode.render]
    exact not_mem_renderJoined (by decide) members h
  | .union members =>
    rw [TypeNode.render]
    exact not_mem_renderJoined (by decide) members h
  | .parenthesized inner =>
    have := not_mem_render inner h
    simp [TypeNode.render, this]

theorem not_mem_renderJoined {separator : List Char} (hseparator : '\n' ∉ separator)
    (nodes : List TypeNode) (h : TypeNode.AreWritable nodes) :
    '\n' ∉ TypeNode.renderJoined separator nodes := by
  match nodes with
  | [] => exact List.not_mem_nil
  | node :: nodes =>
    have hnode := not_mem_render node h.1
    have hnodes := not_mem_renderMore hseparator nodes h.2
    simp [TypeNode.renderJoined, hnode, hnodes]

theorem not_mem_renderMore {separator : List Char} (hseparator : '\n' ∉ separator)
    (nodes : List TypeNode) (h : TypeNode.AreWritable nodes) :
    '\n' ∉ TypeNode.renderMore separator nodes := by
  match nodes with
  | [] => exact List.not_mem_nil
  | node :: nodes =>
    have hnode := not_mem_render node h.1
    have hnodes := not_mem_renderMore hseparator nodes h.2
    simp [TypeNode.renderMore, hseparator, hnode, hnodes]

theorem not_mem_renderProperties (properties : List (String × TypeNode))
    (h : TypeNode.ArePropertiesWritable properties) :
    '\n' ∉ TypeNode.renderProperties properties := by
  match properties with
  | [] => exact List.not_mem_nil
  | (name, type) :: properties =>
    have htype := not_mem_render type h.1.2
    have hproperties := not_mem_renderProperties properties h.2
    simp [TypeNode.renderProperties, TypeNode.renderProperty, h.1.1.not_mem, htype, hproperties]

end

theorem Passage.AllFit.not_mem_text {start : Nat} {ps : List Passage} (h : AllFit start ps) :
    ∀ p ∈ ps, '\n' ∉ p.edit.text := by
  induction ps generalizing start with
  | nil => simp
  | cons p ps ih =>
    intro x hx
    rcases List.mem_cons.mp hx with rfl | hx
    . have hfollows := h.1.follows
      cases hedit : x.edit with
      | removal span => exact List.not_mem_nil
      | replacement span text =>
        rw [hedit] at hfollows
        obtain ⟨⟨subtypes, params, _, hparams, rfl⟩, _⟩ := hfollows
        exact not_mem_render _ (Client.isWritable_payloadUnion hparams subtypes)
    . exact ih h.2 x hx

/-!
The offsets of a text with the other line ends.
-/

/--
Where the offset `p` of `cs` is found in `crlf cs`. Offsets inside a character are counted from its
start.
-/
def crlfOffset : (cs : List Char) → (p : Nat) → Nat
  | [], p => p
  | c :: cs, p =>
    if p < c.utf8Size then
      p
    else
      byteLength (crlf [c]) + crlfOffset cs (p - c.utf8Size)

theorem utf8Size_le_crlf (c : Char) : c.utf8Size ≤ byteLength (crlf [c]) := by
  by_cases hc : c = '\n'
  . subst hc
    decide
  . rw [crlf_cons hc]
    simp

theorem crlfOffset_lt (cs : List Char) {a b : Nat} (h : a < b) :
    crlfOffset cs a < crlfOffset cs b := by
  induction cs generalizing a b with
  | nil => exact h
  | cons c cs ih =>
    have hle := utf8Size_le_crlf c
    unfold crlfOffset
    split
    . split
      . exact h
      . omega
    . split
      . omega
      . have := @ih (a - c.utf8Size) (b - c.utf8Size) (by omega)
        omega

theorem crlfOffset_append (passed rest : List Char) :
    crlfOffset (passed ++ rest) (byteLength passed) = byteLength (crlf passed) := by
  induction passed with
  | nil =>
    cases rest with
    | nil => rfl
    | cons c rest =>
      have := c.utf8Size_pos
      rw [List.nil_append, crlfOffset, byteLength_nil, if_pos this]
      rfl
  | cons c passed ih =>
    have : crlf (c :: passed) = crlf [c] ++ crlf passed := crlf_append [c] passed
    rw [List.cons_append, crlfOffset, byteLength_cons, if_neg (by omega), Nat.add_sub_cancel_left,
      ih, this, byteLength_append]

theorem moves_crlfOffset (cs : List Char) : Moves (crlfOffset cs) 0 0 cs := by
  rintro passed rest rfl
  rw [Nat.zero_add, Nat.zero_add, crlfOffset_append]

theorem parse_crlf {source : List Char} (hbreaks : HasPlainBreaks source) :
    ((∃ tree, DeclarationTree.parse (crlf source) = .ok tree)
        ↔ ∃ tree, DeclarationTree.parse source = .ok tree)
      ∧ ∀ tree, DeclarationTree.parse source = .ok tree →
        ∃ tree', DeclarationTree.parse (crlf source) = .ok tree'
          ∧ tree'.statements = Statement.relocateAll (crlfOffset source) tree.statements := by
  have hsome {source : List Char} {tree : DeclarationTree}
      (h : DeclarationTree.parse source = .ok tree) : ∃ ls, Lexes 0 source ls := by
    obtain ⟨ls, hls, _⟩ := parse_eq_ok h
    exact ⟨ls, hls⟩
  rcases lexesAlike_crlf (moves_crlfOffset source) hbreaks with
    ⟨ls, ls', hls, hls', hmirrors⟩ | ⟨hnone, hnone'⟩
  . have hinjective : Function.Injective (crlfOffset source) := by
      apply StrictMono.injective
      exact fun _ _ h => crlfOffset_lt source h
    obtain ⟨g, hg⟩ := hinjective.hasLeftInverse
    have hforth : ∀ tree, DeclarationTree.parse source = .ok tree →
        ∃ tree', DeclarationTree.parse (crlf source) = .ok tree'
          ∧ tree'.statements = Statement.relocateAll (crlfOffset source) tree.statements := by
      intro tree htree
      obtain ⟨ss, hss, hothers⟩ :=
        hmirrors.statementsOf?_eq .empty .empty ((parse_eq_ok_iff hls).mp ⟨tree, htree, rfl⟩)
      rw [List.reverse_nil, List.nil_append] at hss
      rw [parse_eq_ok_iff hls', hothers, hss]
      rfl
    refine ⟨⟨?_, ?_⟩, hforth⟩
    . rintro ⟨tree', htree'⟩
      obtain ⟨ss, _, hothers⟩ := (hmirrors.symm hg).statementsOf?_eq .empty .empty
        ((parse_eq_ok_iff hls').mp ⟨tree', htree', rfl⟩)
      obtain ⟨tree, htree, _⟩ := (parse_eq_ok_iff hls).mpr (hothers [])
      exact ⟨tree, htree⟩
    . rintro ⟨tree, htree⟩
      obtain ⟨tree', htree', _⟩ := hforth tree htree
      exact ⟨tree', htree'⟩
  . refine ⟨⟨?_, ?_⟩, ?_⟩
    . rintro ⟨tree', htree'⟩
      obtain ⟨ls', hls'⟩ := hsome htree'
      exact absurd hls' (hnone' ls')
    . rintro ⟨tree, htree⟩
      obtain ⟨ls, hls⟩ := hsome htree
      exact absurd hls (hnone ls)
    . intro tree htree
      obtain ⟨ls, hls⟩ := hsome htree
      exact absurd hls (hnone ls)

/--
A file is revised alike whether its lines end with a line break or with a carriage return and a line
break.
-/
theorem revise_crlf (m : Model) {source : List Char} (hbreaks : HasPlainBreaks source) :
    ((∃ r, revise m (crlf source) = .ok r) ↔ ∃ r, revise m source = .ok r)
      ∧ ∀ r, revise m source = .ok r → revise m (crlf source) = .ok ⟨crlf r.text, r.summary⟩ := by
  obtain ⟨hok, hall⟩ := parse_crlf hbreaks
  refine ⟨?_, ?_⟩
  . rw [(revise_isOk_iff m (crlf source)).1, (revise_isOk_iff m source).1]
    exact hok
  . intro r hr
    obtain ⟨tree, htree⟩ := (revise_isOk_iff m source).1.mp ⟨r, hr⟩
    obtain ⟨tree', htree', hstatements⟩ := hall tree htree
    obtain ⟨settled, s, _, _, hsettled, hs, _⟩ := exists_splice_of_parse (.ofModel m) htree
    rw [revise_of_parse htree hsettled hs] at hr
    cases hr
    -- What is written into the file has no line breaks.
    obtain ⟨ps, _, subsumed, _, hfit, _, _, _, hsettled'⟩ :=
      exists_passages_of_parse (.ofModel m) htree
    have htexts : ∀ e ∈ settled.kept, endLines ['\r'] e.text = e.text := by
      rw [hsettled] at hsettled'
      cases hsettled'
      intro e he
      obtain ⟨p, hp, rfl⟩ := List.mem_map.mp he
      exact crlf_eq_self (hfit.not_mem_text p hp)
    have hfindings : tree'.findings (.ofModel m)
        = (tree.findings (.ofModel m)).map (Finding.relocate (crlfOffset source)) := by
      rw [DeclarationTree.findings, hstatements, statementsFindings_relocate]
      rfl
    have hmirrors : (Cursor.ofText source).Mirrors (crlfOffset source) ['\r'] []
        (.ofText (crlf source)) :=
      ⟨rfl, moves_crlfOffset source, rfl, rfl⟩
    obtain ⟨s', hs', htext⟩ := spliceFrom_mirrors (by simp) htexts hmirrors hs
    have hsettle : settle (editsFor (tree'.findings (.ofModel m)))
        = .ok (settled.relocate (crlfOffset source)) := by
      rw [hfindings, editsFor_relocate]
      exact settle_relocate (crlfOffset_lt source) hsettled
    rw [revise_of_parse htree' hsettle hs', htext, hfindings, Summary.ofFindings_relocate]
    rfl

theorem revise_crlf_interface :
    let source := "interface A \x7b // b\n  poly_aux_c: D; /* e\n */\n  f: G\n\x7d\n".toList
    let r : Revision :=
      ⟨"interface A \x7b // b\n /* e\n */\n  f: G\n\x7d\n".toList, ⟨0, 0, 1, 0, 0⟩⟩
    HasPlainBreaks source ∧ revise .empty source = .ok r
      ∧ revise .empty (crlf source) = .ok ⟨crlf r.text, r.summary⟩ := by
  intro source r
  have hbreaks : HasPlainBreaks source := by decide +kernel
  have hr : revise .empty source = .ok r := by decide +kernel
  exact ⟨hbreaks, hr, (revise_crlf .empty hbreaks).2 r hr⟩

end Delegation
