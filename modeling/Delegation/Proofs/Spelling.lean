import Delegation.Token.Lexeme
import Mathlib.Data.List.TakeWhile

/-!
This module contains which texts are tokens. A text that spells a token is read as that token
wherever it stands, as long as what follows does not go on with it.
-/

namespace Delegation

def Token.endsBefore (rest : List Char) : Token → Bool
  | identifier _ => rest.head?.all (!isIdentifierPart ·)
  | number _ => rest.head?.all (!isNumberPart ·)
  | whitespace => rest.head?.all (!readPiece.isSpacing ·)
  | lineComment _ => rest.head?.all (· == '\n')
  | sign .equals => rest.head? != some '>'
  | sign .atSign => rest.head? != some '@'
  | sign .dot => !(['.', '.'].isPrefixOf rest)
  | _ => true

/--
The text of a token, whatever it stands in.
-/
inductive Spells : List Char → Token → Prop where
  | blockComment {body : List Char} (h : blockCommentBody? (body ++ ['*', '/']) = some (body, [])) :
    Spells ('/' :: '*' :: (body ++ ['*', '/'])) (.blockComment (.ofList body))
  | lineComment {body : List Char} (h : '\n' ∉ body) :
    Spells ('/' :: '/' :: body) (.lineComment (.ofList body))
  | arrow : Spells ['=', '>'] (.sign .arrow)
  | ellipsis : Spells ['.', '.', '.'] (.sign .ellipsis)
  | doubleAt : Spells ['@', '@'] (.sign .doubleAt)
  | string {quote : Char} {body : List Char} (hquote : quote = '\x27' ∨ quote = '\x22')
    (h : quotedString quote body = .closed (quote :: body) []) :
    Spells (quote :: body) (.string (.ofList body.dropLast))
  | template {body : List Char} (h : quotedTemplate body = .closed ('\x60' :: body) []) :
    Spells ('\x60' :: body) (.template (.ofList body.dropLast))
  | number {c : Char} {cs : List Char} (hc : c.isDigit = true)
    (hcs : ∀ x ∈ cs, isNumberPart x = true) : Spells (c :: cs) (.number (.ofList (c :: cs)))
  | identifier {c : Char} {cs : List Char} (hc : isIdentifierStart c = true)
    (hcs : ∀ x ∈ cs, isIdentifierPart x = true) : Spells (c :: cs) (.identifier (.ofList (c :: cs)))
  | char {c : Char} {token : Token} (h : Token.ofChar? c = some token) : Spells [c] token
  | whitespace {c : Char} {cs : List Char} (hc : readPiece.isSpacing c = true)
    (hcs : ∀ x ∈ cs, readPiece.isSpacing x = true) : Spells (c :: cs) .whitespace

namespace Quoted

def AreProper (frames : List Frame) : Prop :=
  ∀ quote opened, .string quote opened ∈ frames → quote ≠ '\\'

theorem AreProper.tail {frame : Frame} {frames : List Frame} (h : AreProper (frame :: frames)) :
    AreProper frames :=
  fun quote opened hmem => h quote opened (.tail _ hmem)

theorem AreProper.push {frame : Frame} {frames : List Frame} (h : AreProper frames)
    (hframe : ∀ quote opened, frame = .string quote opened → quote ≠ '\\') :
    AreProper (frame :: frames) := by
  intro quote opened hmem
  cases hmem with
  | head => exact hframe quote opened rfl
  | tail _ hmem => exact h quote opened hmem

theorem not_scan_nil {read text : List Char} {frame : Frame} {outer : List Frame}
    {rest : List Char} : scan read (frame :: outer) [] ≠ .closed text rest := by
  cases frame <;> simp [scan, leave]

/--
The text that closes the literals in `frames` behind `cs`, if `rest` is what follows it.
-/
def ClosedBy (read : List Char) (frames : List Frame) (cs text rest : List Char) : Prop :=
  ∃ body, cs = body ++ rest ∧ text = read.reverse ++ body
    ∧ ∀ rest', scan read frames (body ++ rest') = .closed text rest'

theorem ClosedBy.ne_nil {read cs text rest : List Char} {frame : Frame} {outer : List Frame}
    (h : ClosedBy read (frame :: outer) cs text rest) : ∀ {body}, cs = body ++ rest → body ≠ [] := by
  obtain ⟨body, hbody, _, hall⟩ := h
  rintro body' hbody' rfl
  have : body = [] := List.append_cancel_right (hbody.symm.trans hbody')
  subst this
  exact not_scan_nil (hall [])

theorem ClosedBy.step {read cs text rest : List Char} {frames frames' : List Frame}
    (front : List Char) (h : ClosedBy (front.reverse ++ read) frames' cs text rest)
    (hscan : ∀ body rest', cs = body ++ rest →
      scan read frames (front ++ (body ++ rest'))
        = scan (front.reverse ++ read) frames' (body ++ rest')) :
    ClosedBy read frames (front ++ cs) text rest := by
  obtain ⟨body, hbody, htext, hall⟩ := h
  refine ⟨front ++ body, by rw [hbody, List.append_assoc], by simp [htext], ?_⟩
  intro rest'
  rw [List.append_assoc, hscan body rest' hbody, hall]

theorem closedBy_of_scan {read cs text rest : List Char} {frames : List Frame}
    (hframes : AreProper frames) (h : scan read frames cs = .closed text rest) :
    ClosedBy read frames cs text rest := by
  fun_induction scan read frames cs with
  | case1 read cs =>
    simp only [closed.injEq] at h
    exact ⟨[], h.2, by simp [h.1], by simp [scan, h.1]⟩
  | case2 read quote opened outer c cs ih =>
    apply (ih hframes h).step ['\\', c]
    simp [scan]
  | case3 read quote opened outer c cs hesc hc ih =>
    have : c ≠ '\\' := by
      rw [beq_iff_eq.mp hc]
      exact hframes quote opened (.head _)
    apply (ih hframes.tail h).step [c]
    simp [scan, this, hc]
  | case4 => simp [leave] at h
  | case5 read quote opened outer c cs hesc hc hend ih =>
    apply (ih hframes h).step [c]
    simp only [Bool.or_eq_true, beq_iff_eq, not_or] at hend
    simp [scan, hc, hend]
  | case6 => simp [leave] at h
  | case7 read opened outer c cs ih =>
    apply (ih hframes h).step ['\\', c]
    simp [scan]
  | case8 read opened outer cs ih =>
    apply (ih (hframes.push (by simp)) h).step ['$', '{']
    simp [scan]
  | case9 read opened outer c cs hesc hdollar hc ih =>
    rw [beq_iff_eq] at hc
    subst hc
    apply (ih hframes.tail h).step ['\x60']
    simp [scan]
  | case10 => simp [leave] at h
  | case11 read opened outer c cs hesc hdollar hc hend ih =>
    have hclosed := ih hframes h
    apply hclosed.step [c]
    intro body rest' hbody
    -- A dollar sign is read alone here, so that what follows it must not be a brace.
    obtain ⟨d, body, rfl⟩ := List.exists_cons_of_ne_nil (hclosed.ne_nil hbody)
    have hd : c = '$' → d ≠ '{' := by
      rintro rfl rfl
      exact hdollar (body ++ rest) rfl hbody
    rw [beq_iff_eq] at hc hend
    simp only [List.cons_append, List.nil_append, List.reverse_singleton]
    rw [scan]
    . simp [hc, hend]
    . intro c' rest hc'
      exact absurd hc' hend
    . intro rest hc' hrest
      exact hd hc' (List.cons.inj hrest).1
  | case12 => simp [leave] at h
  | case13 read depth front opened outer c cs hc ih =>
    apply (ih (hframes.tail.push (by simp)) h).step [c]
    simp [scan, hc]
  | case14 read front opened outer c cs hopen hc ih =>
    apply (ih hframes.tail h).step [c]
    simp [scan, hopen, hc]
  | case15 read front opened outer c cs hopen hc depth ih =>
    apply (ih (hframes.tail.push (by simp)) h).step [c]
    simp [scan, hopen, hc]
  | case16 read depth front opened outer c cs hopen hclose hc ih =>
    apply (ih (hframes.push ?_) h).step [c]
    . simp [scan, hopen, hclose, hc]
    . simp only [Frame.string.injEq]
      rintro quote _ ⟨rfl, _⟩ rfl
      simp at hc
  | case17 read depth front opened outer c cs hopen hclose hquote hc ih =>
    apply (ih (hframes.push (by simp)) h).step [c]
    simp [scan, hopen, hclose, hquote, hc]
  | case18 read depth front opened outer c cs hopen hclose hquote hc ih =>
    apply (ih hframes h).step [c]
    simp [scan, hopen, hclose, hquote, hc]
  | case19 => simp [leave] at h

theorem getLast?_ne_of_scan {read cs text rest : List Char} {frames : List Frame}
    (hquotes : ∀ quote opened, .string quote opened ∈ frames → quote ≠ '\n')
    (hread : frames = [] → read.head? ≠ some '\n') (h : scan read frames cs = .closed text rest) :
    text.getLast? ≠ some '\n' := by
  fun_induction scan read frames cs with
  | case1 read cs =>
    cases h
    rw [List.getLast?_reverse]
    exact hread rfl
  | case2 read quote opened outer c cs ih => exact ih hquotes (by simp) h
  | case3 read quote opened outer c cs hesc hc ih =>
    apply ih (fun q o hmem => hquotes q o (.tail _ hmem)) _ h
    intro _ heq
    have := hquotes quote opened (.head _)
    simp_all
  | case4 => simp [leave] at h
  | case5 read quote opened outer c cs hesc hc hend ih => exact ih hquotes (by simp) h
  | case6 => simp [leave] at h
  | case7 read opened outer c cs ih => exact ih hquotes (by simp) h
  | case8 read opened outer cs ih => exact ih (by simpa using hquotes) (by simp) h
  | case9 read opened outer c cs hesc hdollar hc ih =>
    apply ih (by simpa using hquotes) _ h
    rw [beq_iff_eq.mp hc]
    simp
  | case10 => simp [leave] at h
  | case11 read opened outer c cs hesc hdollar hc hend ih => exact ih hquotes (by simp) h
  | case12 => simp [leave] at h
  | case13 read depth front opened outer c cs hc ih =>
    exact ih (by simpa using hquotes) (by simp) h
  | case14 read front opened outer c cs hopen hc ih =>
    apply ih (by simpa using hquotes) _ h
    rw [beq_iff_eq.mp hc]
    simp
  | case15 read front opened outer c cs hopen hc depth ih =>
    exact ih (by simpa using hquotes) (by simp) h
  | case16 read depth front opened outer c cs hopen hclose hc ih =>
    apply ih _ (by simp) h
    intro quote _ hmem
    rcases List.mem_cons.mp hmem with heq | hmem
    . rintro rfl
      cases heq
      simp at hc
    . exact hquotes _ _ hmem
  | case17 read depth front opened outer c cs hopen hclose hquote hc ih =>
    exact ih (by simpa using hquotes) (by simp) h
  | case18 read depth front opened outer c cs hopen hclose hquote hc ih =>
    exact ih hquotes (by simp) h
  | case19 => simp [leave] at h

end Quoted

theorem blockCommentBody?_append {cs body rest : List Char}
    (h : blockCommentBody? cs = some (body, rest)) (rest' : List Char) :
    blockCommentBody? (body ++ '*' :: '/' :: rest') = some (body, rest') := by
  fun_induction blockCommentBody? cs generalizing body with
  | case1 cs =>
    cases h
    rfl
  | case2 c cs hend ih =>
    obtain ⟨⟨body', rest''⟩, hbody, heq⟩ := Option.map_eq_some_iff.mp h
    cases heq
    have := ih hbody
    rw [List.cons_append, blockCommentBody?, this]
    . rfl
    . intro tail hc htail
      have hcs := blockCommentBody?_eq_some hbody
      cases body' with
      | nil => simp at htail
      | cons d body' =>
        rw [(List.cons.inj htail).1] at hcs
        exact hend _ hc hcs.symm
  | case3 => simp at h

def beginsLongToken (c : Char) (cs : List Char) : Bool :=
  match c, cs with
  | '/', '*' :: _ | '/', '/' :: _ | '=', '>' :: _ | '.', '.' :: '.' :: _ | '@', '@' :: _ => true
  | _, _ => false

theorem beginsLongToken_eq_false {c : Char} {cs : List Char}
    (hc : c ∉ ['/', '=', '.', '@']) : beginsLongToken c cs = false := by
  simp only [List.mem_cons, List.not_mem_nil, or_false, not_or] at hc
  unfold beginsLongToken
  split <;> simp_all

theorem readPiece_of_run (start : Nat) {c : Char} {cs : List Char}
    (h : beginsLongToken c cs = false) :
    readPiece start c cs =
      if c == '\x27' || c == '\x22' then
        match quotedString c cs with
        | .closed text rest => readPiece.found start (.string (readPiece.content text)) text rest
        | .unclosed quotation before text rest =>
          readPiece.unclosed start quotation before text rest
      else if c == '\x60' then
        match quotedTemplate cs with
        | .closed text rest => readPiece.found start (.template (readPiece.content text)) text rest
        | .unclosed quotation before text rest =>
          readPiece.unclosed start quotation before text rest
      else if c.isDigit then
        let text := c :: cs.takeWhile isNumberPart
        readPiece.found start (.number (.ofList text)) text (cs.dropWhile isNumberPart)
      else if isIdentifierStart c then
        let text := c :: cs.takeWhile isIdentifierPart
        readPiece.found start (.identifier (.ofList text)) text (cs.dropWhile isIdentifierPart)
      else
        match Token.ofChar? c with
        | some token => readPiece.found start token [c] cs
        | none =>
          if isBlank c then
            readPiece.found start .whitespace (c :: cs.takeWhile readPiece.isSpacing)
              (cs.dropWhile readPiece.isSpacing)
          else
            readPiece.fault start (.unexpectedCharacter c) [c] cs := by
  unfold beginsLongToken at h
  unfold readPiece
  split <;> first | rfl | simp at h

theorem quotedString_eq_closed {quote : Char} {cs text rest : List Char}
    (hquote : quote = '\x27' ∨ quote = '\x22') (h : quotedString quote cs = .closed text rest) :
    ∃ body, cs = body ++ rest ∧ text = quote :: body
      ∧ ∀ rest', quotedString quote (body ++ rest') = .closed text rest' := by
  apply Quoted.closedBy_of_scan _ h
  intro q opened hmem
  simp only [List.mem_cons, Frame.string.injEq, List.not_mem_nil, or_false] at hmem
  rcases hquote with rfl | rfl <;> simp [hmem.1]

theorem quotedTemplate_eq_closed {cs text rest : List Char}
    (h : quotedTemplate cs = .closed text rest) :
    ∃ body, cs = body ++ rest ∧ text = '\x60' :: body
      ∧ ∀ rest', quotedTemplate (body ++ rest') = .closed text rest' :=
  Quoted.closedBy_of_scan (by simp [Quoted.AreProper]) h

theorem head?_dropWhile_all {p : Char → Bool} (cs : List Char) :
    (cs.dropWhile p).head?.all (!p ·) = true := by
  have := List.head?_dropWhile_not p cs
  cases h : (cs.dropWhile p).head? with
  | none => rfl
  | some c => rw [h] at this; simpa using this

theorem Sign.endsBefore_ofChar? {c : Char} {s : Sign} {rest : List Char}
    (h : Sign.ofChar? c = some s) (hlong : beginsLongToken c rest = false) :
    (Token.sign s).endsBefore rest = true := by
  unfold Sign.ofChar? at h
  split at h
  all_goals
    cases h
    try rfl
  all_goals
    by_contra hends
    simp only [Token.endsBefore, bne_iff_ne, not_not, List.head?_eq_some_iff, Bool.not_eq_true',
      Bool.not_eq_false, List.isPrefixOf_iff_prefix] at hends
    obtain ⟨tail, rfl⟩ := hends
    simp [beginsLongToken] at hlong

theorem Token.endsBefore_ofChar? {c : Char} {token : Token} {rest : List Char}
    (h : Token.ofChar? c = some token) (hlong : beginsLongToken c rest = false) :
    token.endsBefore rest = true := by
  unfold Token.ofChar? at h
  split at h
  case h_10 =>
    obtain ⟨s, hs, rfl⟩ := Option.map_eq_some_iff.mp h
    exact Sign.endsBefore_ofChar? hs hlong
  all_goals
    cases h
    rfl

theorem spells_of_beginsLongToken {start : Nat} {c : Char} {cs rest : List Char} {l : Lexeme}
    (hlong : beginsLongToken c cs = true) (h : readPiece start c cs = (.lexeme l, rest)) :
    l.start = start ∧ c :: cs = l.text ++ rest ∧ Spells l.text l.token
      ∧ l.token.endsBefore rest = true := by
  unfold beginsLongToken at hlong
  split at hlong
  . next cs =>
    simp only [readPiece] at h
    split at h
    . next body rest' hbody =>
      cases h
      have hspells := blockCommentBody?_append hbody []
      have := blockCommentBody?_eq_some hbody
      exact ⟨rfl, by simp [← this], .blockComment (by simpa using hspells), rfl⟩
    . cases h
  . next cs =>
    cases h
    refine ⟨rfl, by simp, .lineComment ?_, ?_⟩
    . intro hmem
      simpa using List.mem_takeWhile_imp hmem
    . have := head?_dropWhile_all (p := (· != '\n')) cs
      simp only [bne, Bool.not_not] at this
      exact this
  . cases h
    exact ⟨rfl, rfl, .arrow, rfl⟩
  . cases h
    exact ⟨rfl, rfl, .ellipsis, rfl⟩
  . cases h
    exact ⟨rfl, rfl, .doubleAt, rfl⟩
  . cases hlong

theorem isSpacing_of_ofChar?_eq_none {c : Char} (h : Token.ofChar? c = none)
    (hblank : isBlank c = true) : readPiece.isSpacing c = true := by
  rw [readPiece.isSpacing, hblank, Bool.true_and, bne_iff_ne]
  rintro rfl
  cases h

/--
What is read in front of `rest` is a text that spells a token and is over there.
-/
theorem spells_of_readPiece {start : Nat} {c : Char} {cs rest : List Char} {l : Lexeme}
    (h : readPiece start c cs = (.lexeme l, rest)) :
    l.start = start ∧ c :: cs = l.text ++ rest ∧ Spells l.text l.token
      ∧ l.token.endsBefore rest = true := by
  cases hlong : beginsLongToken c cs with
  | true => exact spells_of_beginsLongToken hlong h
  | false =>
    rw [readPiece_of_run start hlong] at h
    split at h
    . next hquote =>
      simp only [Bool.or_eq_true, beq_iff_eq] at hquote
      split at h
      . next text rest' hclosed =>
        cases h
        obtain ⟨body, rfl, rfl, hbody⟩ := quotedString_eq_closed hquote hclosed
        exact ⟨rfl, rfl, .string hquote (by simpa using hbody []), rfl⟩
      . cases h
    split at h
    . next hquote =>
      rw [beq_iff_eq] at hquote
      subst hquote
      split at h
      . next text rest' hclosed =>
        cases h
        obtain ⟨body, rfl, rfl, hbody⟩ := quotedTemplate_eq_closed hclosed
        exact ⟨rfl, rfl, .template (by simpa using hbody []), rfl⟩
      . cases h
    split at h
    . next hdigit =>
      cases h
      refine ⟨rfl, by simp, .number hdigit ?_, head?_dropWhile_all cs⟩
      exact fun x hx => List.mem_takeWhile_imp hx
    split at h
    . next hstart =>
      cases h
      refine ⟨rfl, by simp, .identifier hstart ?_, head?_dropWhile_all cs⟩
      exact fun x hx => List.mem_takeWhile_imp hx
    split at h
    . next token htoken =>
      cases h
      exact ⟨rfl, rfl, .char htoken, Token.endsBefore_ofChar? htoken hlong⟩
    . next hnone =>
      split at h
      . next hblank =>
        cases h
        refine ⟨rfl, by simp, .whitespace (isSpacing_of_ofChar?_eq_none hnone hblank) ?_,
          head?_dropWhile_all cs⟩
        exact fun x hx => List.mem_takeWhile_imp hx
      . cases h

def blankCodes : List Nat :=
  [9, 10, 11, 12, 13, 0x20, 0x85, 0xA0, 0x1680, 0x2000, 0x2001, 0x2002, 0x2003, 0x2004, 0x2005,
   0x2006, 0x2007, 0x2008, 0x2009, 0x200A, 0x2028, 0x2029, 0x202F, 0x205F, 0x3000]

theorem toNat_mem_blankCodes {c : Char} (h : isBlank c = true) : c.toNat ∈ blankCodes := by
  simp only [isBlank, Bool.or_eq_true, Bool.and_eq_true, decide_eq_true_eq, beq_iff_eq] at h
  simp only [blankCodes, List.mem_cons, List.not_mem_nil]
  omega

def marks : List Char :=
  ['/', '=', '.', '@', '\x27', '\x22', '\x60', '\n']

theorem of_isSpacing {c : Char} (h : readPiece.isSpacing c = true) :
    c ∉ marks ∧ c.isDigit = false ∧ isIdentifierStart c = false ∧ Token.ofChar? c = none := by
  have hall : ∀ n ∈ blankCodes, Char.ofNat n ≠ '\n' →
      Char.ofNat n ∉ marks ∧ (Char.ofNat n).isDigit = false
        ∧ isIdentifierStart (Char.ofNat n) = false ∧ Token.ofChar? (Char.ofNat n) = none := by
    decide +kernel
  simp only [readPiece.isSpacing, Bool.and_eq_true, bne_iff_ne] at h
  rw [← Char.ofNat_toNat c]
  apply hall _ (toNat_mem_blankCodes h.1)
  rw [Char.ofNat_toNat]
  exact h.2

theorem toNat_mem_of_isDigit {c : Char} (h : c.isDigit = true) : c.toNat ∈ List.range' 48 10 := by
  simp only [Char.isDigit, Bool.and_eq_true, decide_eq_true_eq, ge_iff_le, Char.toNat,
    UInt32.le_iff_toNat_le] at h ⊢
  rw [List.mem_range'_1]
  exact ⟨h.1, Nat.lt_succ_of_le h.2⟩

theorem of_isDigit {c : Char} (h : c.isDigit = true) :
    c ∉ marks ∧ isIdentifierStart c = false := by
  have hall : ∀ n ∈ List.range' 48 10,
      Char.ofNat n ∉ marks ∧ isIdentifierStart (Char.ofNat n) = false := by
    decide +kernel
  rw [← Char.ofNat_toNat c]
  exact hall _ (toNat_mem_of_isDigit h)

theorem of_isIdentifierStart {c : Char} (h : isIdentifierStart c = true) :
    c ∉ marks ∧ c.isDigit = false := by
  constructor
  . intro hmem
    have hall : marks.all (!isIdentifierStart ·) = true := by decide
    have hmark := List.all_eq_true.mp hall c hmem
    rw [h] at hmark
    cases hmark
  . rw [Bool.eq_false_iff]
    intro hdigit
    rw [(of_isDigit hdigit).2] at h
    cases h

def tokenChars : List Char :=
  ['{', '}', '(', ')', '[', ']', '<', '>', '\n', '@', '=', ':', '?', '!', '|', '&', '.', '-', '+',
   '*', '#', ';', ',']

theorem mem_tokenChars {c : Char} {token : Token} (h : Token.ofChar? c = some token) :
    c ∈ tokenChars := by
  unfold Token.ofChar? at h
  split at h
  case h_10 =>
    obtain ⟨s, hs, _⟩ := Option.map_eq_some_iff.mp h
    unfold Sign.ofChar? at hs
    split at hs
    all_goals
      first
      | decide
      | cases hs
  all_goals
    decide

theorem of_ofChar? {c : Char} {token : Token} (h : Token.ofChar? c = some token) :
    c ∉ ['\x27', '\x22', '\x60'] ∧ c.isDigit = false ∧ isIdentifierStart c = false := by
  have hall : tokenChars.all (fun c =>
      c ∉ ['\x27', '\x22', '\x60'] ∧ c.isDigit = false ∧ isIdentifierStart c = false) = true := by
    decide
  exact of_decide_eq_true (List.all_eq_true.mp hall c (mem_tokenChars h))

theorem beginsLongToken_of_endsBefore {c : Char} {token : Token} {rest : List Char}
    (h : Token.ofChar? c = some token) (hends : token.endsBefore rest = true) :
    beginsLongToken c rest = false := by
  rw [Bool.eq_false_iff]
  intro hlong
  unfold beginsLongToken at hlong
  split at hlong
  . cases h
  . cases h
  . cases h
    cases hends
  . cases h
    simp [Token.endsBefore] at hends
  . cases h
    cases hends
  . cases hlong

theorem span_run {p : Char → Bool} {cs rest : List Char} (hcs : ∀ c ∈ cs, p c = true)
    (hrest : rest.head?.all (!p ·) = true) :
    (cs ++ rest).takeWhile p = cs ∧ (cs ++ rest).dropWhile p = rest := by
  rw [List.takeWhile_append_of_pos hcs, List.dropWhile_append_of_pos hcs]
  cases rest with
  | nil => simp
  | cons c rest =>
    simp only [List.head?_cons, Option.all_some, Bool.not_eq_true'] at hrest
    simp [hrest]

theorem readPiece_of_plain (start : Nat) {c : Char} {cs : List Char} (h : c ∉ marks) :
    readPiece start c cs =
      if c.isDigit then
        let text := c :: cs.takeWhile isNumberPart
        readPiece.found start (.number (.ofList text)) text (cs.dropWhile isNumberPart)
      else if isIdentifierStart c then
        let text := c :: cs.takeWhile isIdentifierPart
        readPiece.found start (.identifier (.ofList text)) text (cs.dropWhile isIdentifierPart)
      else
        match Token.ofChar? c with
        | some token => readPiece.found start token [c] cs
        | none =>
          if isBlank c then
            readPiece.found start .whitespace (c :: cs.takeWhile readPiece.isSpacing)
              (cs.dropWhile readPiece.isSpacing)
          else
            readPiece.fault start (.unexpectedCharacter c) [c] cs := by
  simp only [marks, List.mem_cons, List.not_mem_nil, or_false, not_or] at h
  rw [readPiece_of_run start (beginsLongToken_eq_false (by simp [h])), if_neg (by simp [h]),
    if_neg (by simp [h])]

/--
A text that spells a token is read as that token in front of all that does not go on with it.
-/
theorem readPiece_of_spells {text rest : List Char} {token : Token} (h : Spells text token)
    (hends : token.endsBefore rest = true) :
    ∃ c cs, text = c :: cs
      ∧ ∀ start, readPiece start c (cs ++ rest) = (.lexeme ⟨start, token, text⟩, rest) := by
  cases h with
  | @blockComment body h =>
    refine ⟨_, _, rfl, fun start => ?_⟩
    have := blockCommentBody?_append h rest
    simp [readPiece, this, readPiece.found]
  | @lineComment body h =>
    refine ⟨_, _, rfl, fun start => ?_⟩
    have hrest : rest.head?.all (fun c => !(c != '\n')) = true := by
      simpa [Token.endsBefore, bne] using hends
    have hbody : ∀ c ∈ body, (c != '\n') = true := by
      intro c hc
      rw [bne_iff_ne]
      rintro rfl
      exact h hc
    have := span_run hbody hrest
    simp [readPiece, this, readPiece.found]
  | arrow => exact ⟨_, _, rfl, fun start => rfl⟩
  | ellipsis => exact ⟨_, _, rfl, fun start => rfl⟩
  | doubleAt => exact ⟨_, _, rfl, fun start => rfl⟩
  | @string quote body hquote h =>
    refine ⟨_, _, rfl, fun start => ?_⟩
    obtain ⟨body', hbody', htext, hall⟩ := quotedString_eq_closed hquote h
    cases htext
    rw [readPiece_of_run start (beginsLongToken_eq_false (by rcases hquote with rfl | rfl <;> decide)),
      if_pos (by simpa using hquote), hall]
    rfl
  | @template body h =>
    refine ⟨_, _, rfl, fun start => ?_⟩
    obtain ⟨body', hbody', htext, hall⟩ := quotedTemplate_eq_closed h
    cases htext
    rw [readPiece_of_run start (beginsLongToken_eq_false (by decide)), if_neg (by decide),
      if_pos (by decide), hall]
    rfl
  | @number c cs hc hcs =>
    refine ⟨_, _, rfl, fun start => ?_⟩
    obtain ⟨hmarks, _⟩ := of_isDigit hc
    obtain ⟨htake, hdrop⟩ := span_run hcs hends
    rw [readPiece_of_plain start hmarks, if_pos hc, htake, hdrop]
    rfl
  | @identifier c cs hc hcs =>
    refine ⟨_, _, rfl, fun start => ?_⟩
    obtain ⟨hmarks, hdigit⟩ := of_isIdentifierStart hc
    obtain ⟨htake, hdrop⟩ := span_run hcs hends
    rw [readPiece_of_plain start hmarks, if_neg (by simp [hdigit]), if_pos hc, htake, hdrop]
    rfl
  | @char c token h =>
    refine ⟨_, _, rfl, fun start => ?_⟩
    obtain ⟨hquotes, hdigit, hstart⟩ := of_ofChar? h
    simp only [List.mem_cons, List.not_mem_nil, or_false, not_or] at hquotes
    rw [List.nil_append, readPiece_of_run start (beginsLongToken_of_endsBefore h hends)]
    simp [hquotes, hdigit, hstart, h, readPiece.found]
  | @whitespace c cs hc hcs =>
    refine ⟨_, _, rfl, fun start => ?_⟩
    obtain ⟨hmarks, hdigit, hstart, htoken⟩ := of_isSpacing hc
    obtain ⟨htake, hdrop⟩ := span_run hcs hends
    have hblank : isBlank c = true := by
      rw [readPiece.isSpacing, Bool.and_eq_true] at hc
      exact hc.1
    rw [readPiece_of_plain start hmarks, if_neg (by simp [hdigit]), if_neg (by simp [hstart]),
      htoken, htake, hdrop]
    simp only [hblank, if_true]
    rfl

end Delegation
