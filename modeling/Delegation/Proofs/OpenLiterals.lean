import Delegation.Token.Quoted

/-!
This module contains which literals are left open. The innermost of them is left open by itself: it
is read as it would be in front of the rest of the text alone.
-/

namespace Delegation

namespace Frame

def behind (base : List Char) : Frame → Frame
  | string quote opened => .string quote (opened ++ base)
  | template opened => .template (opened ++ base)
  | placeholder depth front opened => .placeholder depth (front ++ base) (opened ++ base)

def literal : Frame → Quotation × List Char
  | string _ opened => (.string, opened)
  | template opened | placeholder _ _ opened => (.template, opened)

/--
Whether the literal of the frame was opened within `read`, and its placeholder behind its backtick.
-/
def IsWithin (read : List Char) : Frame → Prop
  | string _ opened | template opened => ∃ more c, read = more ++ c :: opened
  | placeholder _ front opened => front <:+ read ∧ ∃ more c, front = more ++ c :: opened

def AreWithin (read : List Char) (frames : List Frame) : Prop :=
  ∀ frame ∈ frames, frame.IsWithin read

namespace AreWithin

variable {read : List Char} {frame : Frame} {frames : List Frame}

theorem cons (h : AreWithin read frames) (c : Char) : AreWithin (c :: read) frames := by
  intro frame hframe
  cases frame with
  | placeholder _ front opened =>
    obtain ⟨hfront, hopened⟩ := h _ hframe
    exact ⟨hfront.trans (List.suffix_cons ..), hopened⟩
  | _ =>
    obtain ⟨more, d, rfl⟩ := h _ hframe
    exact ⟨c :: more, d, rfl⟩

theorem head (h : AreWithin read (frame :: frames)) : frame.IsWithin read :=
  h _ (.head _)

theorem tail (h : AreWithin read (frame :: frames)) : AreWithin read frames :=
  fun x hx => h x (.tail _ hx)

theorem push (h : AreWithin read frames) (hframe : frame.IsWithin read) :
    AreWithin read (frame :: frames) :=
  List.forall_mem_cons.mpr ⟨hframe, h⟩

end AreWithin
end Frame

open Delegation.Frame

namespace Quoted

/--
Go on with what is open in `outer` when a literal that was read behind `base` is closed.
-/
def onward (base : List Char) (outer : List Frame) : Quoted → Quoted
  | .closed text rest => scan (text.reverse ++ base) outer rest
  | .unclosed quotation before text rest => .unclosed quotation (base.reverse ++ before) text rest

@[simp]
theorem onward_leave (base : List Char) (outer : List Frame) (quotation : Quotation)
    (opened read rest : List Char) : (leave quotation opened read rest).onward base outer
      = leave quotation (opened ++ base) (read ++ base) rest := by
  have : (read ++ base).reverse.drop (opened ++ base).length
      = read.reverse.drop opened.length := by
    have hlength : (opened ++ base).length = base.reverse.length + opened.length := by
      rw [List.length_append, List.length_reverse, Nat.add_comm]
    rw [List.reverse_append, hlength, List.drop_length_add_append]
  rw [leave, leave, onward, this, List.reverse_append]

theorem scan_append (read base : List Char) (frames outer : List Frame) (cs : List Char) :
    scan (read ++ base) (frames.map (Frame.behind base) ++ outer) cs
      = (scan read frames cs).onward base outer := by
  -- Every step looks at the innermost frame and at the characters to come, and at nothing else.
  fun_induction scan read frames cs with
  | case1 => simp [onward]
  | _ => simp_all [scan, Frame.behind]

def StandsIn (source : List Char) (quotation : Quotation) (before text rest : List Char) : Prop :=
  text ≠ [] ∧ ∃ behind, source = before ++ text ++ behind
    ∧ (quotation = .string → behind = rest)

theorem standsIn_of_leave {quotation quotation' : Quotation}
    {opened read before text rest rest' : List Char} (behind : List Char)
    (h : leave quotation opened read rest = .unclosed quotation' before text rest')
    (hopened : ∃ more c, read = more ++ c :: opened) (hbehind : quotation = .string → behind = rest) :
    StandsIn (read.reverse ++ behind) quotation' before text rest' := by
  obtain ⟨more, c, rfl⟩ := hopened
  cases h
  have : (more ++ c :: opened).reverse.drop opened.length = c :: more.reverse := by
    simp
  rw [this]
  exact ⟨by simp, behind, by simp, hbehind⟩

theorem standsIn_of_scan {read cs before text rest : List Char} {frames : List Frame}
    {quotation : Quotation} (hframes : AreWithin read frames)
    (h : scan read frames cs = .unclosed quotation before text rest) :
    StandsIn (read.reverse ++ cs) quotation before text rest := by
  fun_induction scan read frames cs with
  | case1 => cases h
  | case4 | case6 => exact standsIn_of_leave _ h hframes.head fun _ => rfl
  | case10 | case12 => exact standsIn_of_leave _ h hframes.head (by simp)
  | case19 =>
    obtain ⟨⟨more, rfl⟩, hopened⟩ := hframes.head
    simpa using standsIn_of_leave more.reverse h hopened (by simp)
  | case2 _ _ _ _ c _ ih | case7 _ _ _ c _ ih => simpa using ih ((hframes.cons '\\').cons c) h
  | case3 _ _ _ _ c _ _ _ ih | case9 _ _ _ c _ _ _ _ ih | case14 _ _ _ _ c _ _ _ ih =>
    simpa using ih (hframes.tail.cons c) h
  | case5 _ _ _ _ c _ _ _ _ ih | case11 _ _ _ c _ _ _ _ _ ih | case18 _ _ _ _ _ c _ _ _ _ _ ih =>
    simpa using ih (hframes.cons c) h
  | case8 read opened outer rest ih =>
    have hopen := (hframes.cons '$').cons '{'
    simpa using ih (hopen.push ⟨⟨['{', '$'], rfl⟩, hframes.head⟩) h
  | case13 _ _ _ _ _ c _ _ ih | case15 _ _ _ _ c _ _ _ _ ih =>
    have hopen := hframes.cons c
    simpa using ih (hopen.tail.push hopen.head) h
  | case16 _ _ _ _ _ c _ _ _ _ ih | case17 _ _ _ _ _ c _ _ _ _ _ ih =>
    simpa using ih ((hframes.cons c).push ⟨[], c, rfl⟩) h

/--
Whether the literal that `cs` begins with is left open after `text`, and `rest` is left to read.
-/
inductive BeginsOpen : Quotation → List Char → List Char → List Char → Prop where
  | string {quote : Char} {cs text rest : List Char} (hquote : quote = '\x27' ∨ quote = '\x22')
    (h : quotedString quote cs = .unclosed .string [] text rest) :
    BeginsOpen .string (quote :: cs) text rest
  | template {cs text rest : List Char}
    (h : quotedTemplate cs = .unclosed .template [] text rest) :
    BeginsOpen .template ('\x60' :: cs) text rest

/--
Whether the literal that is left open at `before` is one of `frames`, or begins in `cs`.
-/
def Blames (read : List Char) (frames : List Frame) (cs : List Char) (quotation : Quotation)
    (before text rest : List Char) : Prop :=
  (quotation, before.reverse) ∈ frames.map literal
    ∨ ∃ body tail, cs = body ++ tail ∧ read.reverse ++ body = before
      ∧ BeginsOpen quotation tail text rest

theorem Blames.step {read cs before text rest : List Char} {frames frames' : List Frame}
    {quotation : Quotation} (front : List Char)
    (h : Blames (front.reverse ++ read) frames' cs quotation before text rest)
    (hframes : frames'.map literal ⊆ frames.map literal) :
    Blames read frames (front ++ cs) quotation before text rest := by
  rcases h with hmem | ⟨body, tail, rfl, rfl, hopen⟩
  . exact .inl (hframes hmem)
  . exact .inr ⟨front ++ body, tail, by simp, by simp, hopen⟩

theorem Blames.exists_beginsOpen {cs before text rest : List Char} {c : Char} {frame : Frame}
    {quotation quotation' : Quotation}
    (h : Blames [c] [frame] cs quotation before text rest)
    (hframe : frame.literal = (quotation', []))
    (hscan : scan [c] [frame] cs = .unclosed quotation before text rest)
    (hbegins : scan [c] [frame] cs = .unclosed quotation' [] text rest →
      BeginsOpen quotation' (c :: cs) text rest) :
    ∃ tail, c :: cs = before ++ tail ∧ BeginsOpen quotation tail text rest := by
  rcases h with hmem | ⟨body, tail, rfl, rfl, hopen⟩
  . rw [List.map_singleton, List.mem_singleton, hframe, Prod.mk.injEq,
      List.reverse_eq_nil_iff] at hmem
    obtain ⟨rfl, rfl⟩ := hmem
    exact ⟨c :: cs, rfl, hbegins hscan⟩
  . exact ⟨tail, rfl, hopen⟩

theorem blames_of_opening {read cs before text rest : List Char} {outer : List Frame} {c : Char}
    (frame : Frame) {quotation quotation' : Quotation}
    (ih : ∀ {read' frames cs' before' text rest quotation}, cs'.length ≤ cs.length →
      scan read' frames cs' = .unclosed quotation before' text rest →
      Blames read' frames cs' quotation before' text rest)
    (hframe : frame.literal = (quotation', []))
    (hbegins : scan [c] [frame] cs = .unclosed quotation' [] text rest →
      BeginsOpen quotation' (c :: cs) text rest)
    (h : scan (c :: read) (frame.behind read :: outer) cs = .unclosed quotation before text rest) :
    Blames read outer (c :: cs) quotation before text rest := by
  have happend := scan_append [c] read [frame] outer cs
  rw [List.map_singleton, List.singleton_append, List.singleton_append, h] at happend
  cases hscan : scan [c] [frame] cs with
  | closed text' rest' =>
    rw [hscan] at happend
    have hall := scan_closed hscan
    have hlength := scan_rest_length_le [c] [frame] cs
    rw [hscan, Quoted.rest] at hlength
    have := (ih hlength happend.symm).step text' (List.Subset.refl _)
    rwa [hall] at this
  | unclosed quotation' before' text' rest' =>
    rw [hscan] at happend
    cases happend
    obtain ⟨tail, hcs, hopen⟩ :=
      (ih (Nat.le_refl _) hscan).exists_beginsOpen hframe hscan hbegins
    exact .inr ⟨before', tail, hcs, rfl, hopen⟩

/--
A literal that is left open is one of those that were open before, or it begins to be open by
itself.
-/
theorem blames_of_scan (n : Nat) {read cs before text rest : List Char} {frames : List Frame}
    {quotation : Quotation} (hn : cs.length ≤ n)
    (h : scan read frames cs = .unclosed quotation before text rest) :
    Blames read frames cs quotation before text rest := by
  induction n using Nat.strongRecOn generalizing read cs before text rest frames quotation with
  | _ n ihn =>
    fun_induction scan read frames cs with
    | case1 => cases h
    | case4 | case6 | case10 | case12 | case19 =>
      cases h
      exact .inl (by simp [literal])
    | case2 _ _ _ _ c _ ih | case7 _ _ _ c _ ih =>
      exact (ih (Nat.le_of_succ_le (Nat.le_of_succ_le hn)) h).step ['\\', c] (List.Subset.refl _)
    | case3 _ _ _ _ c _ _ _ ih | case9 _ _ _ c _ _ _ _ ih | case14 _ _ _ _ c _ _ _ ih =>
      exact (ih (Nat.le_of_succ_le hn) h).step [c] (List.subset_cons_self ..)
    | case5 _ _ _ _ c _ _ _ _ ih | case11 _ _ _ c _ _ _ _ _ ih
    | case18 _ _ _ _ _ c _ _ _ _ _ ih =>
      exact (ih (Nat.le_of_succ_le hn) h).step [c] (List.Subset.refl _)
    | case8 _ _ _ _ ih =>
      exact (ih (Nat.le_of_succ_le (Nat.le_of_succ_le hn)) h).step ['$', '{'] (by simp [literal])
    | case13 _ _ _ _ _ c _ _ ih | case15 _ _ _ _ c _ _ _ _ ih =>
      exact (ih (Nat.le_of_succ_le hn) h).step [c] (by simp [literal])
    | case16 _ _ _ _ _ c _ _ _ hc =>
      apply blames_of_opening (.string c []) (fun hle => ihn _ hn hle) rfl _ h
      exact .string (by simpa using hc)
    | case17 _ _ _ _ _ c _ _ _ _ hc =>
      apply blames_of_opening (.template []) (fun hle => ihn _ hn hle) rfl _ h
      rw [beq_iff_eq.mp hc]
      exact .template

theorem exists_beginsOpen_of_quotedString {quote : Char} {cs before text rest : List Char}
    {quotation : Quotation} (hquote : quote = '\x27' ∨ quote = '\x22')
    (h : quotedString quote cs = .unclosed quotation before text rest) :
    ∃ tail, quote :: cs = before ++ tail ∧ BeginsOpen quotation tail text rest :=
  (blames_of_scan _ (Nat.le_refl _) h).exists_beginsOpen rfl h (.string hquote)

theorem exists_beginsOpen_of_quotedTemplate {cs before text rest : List Char}
    {quotation : Quotation} (h : quotedTemplate cs = .unclosed quotation before text rest) :
    ∃ tail, '\x60' :: cs = before ++ tail ∧ BeginsOpen quotation tail text rest :=
  (blames_of_scan _ (Nat.le_refl _) h).exists_beginsOpen rfl h .template

theorem BeginsOpen.exists_behind {quotation : Quotation} {cs text rest : List Char}
    (h : BeginsOpen quotation cs text rest) :
    ∃ quote body behind, text = quote :: body ∧ cs = text ++ behind
      ∧ (quotation = .string → behind = rest) := by
  have hstands : StandsIn cs quotation [] text rest := by
    cases h with
    | @string quote _ _ _ _ hscan =>
      have hwithin : AreWithin [quote] [.string quote []] := by simpa [AreWithin] using ⟨[], quote, rfl⟩
      exact standsIn_of_scan hwithin hscan
    | template hscan =>
      have hwithin : AreWithin ['\x60'] [.template []] := by simpa [AreWithin] using ⟨[], _, rfl⟩
      exact standsIn_of_scan hwithin hscan
  obtain ⟨hne, behind, hcs, hbehind⟩ := hstands
  obtain ⟨quote, body, rfl⟩ := List.exists_cons_of_ne_nil hne
  exact ⟨quote, body, behind, rfl, hcs, hbehind⟩

end Quoted

end Delegation
