import JsPrune.Proofs.Comment.Replacement
import JsPrune.Proofs.Text.Chars
/-!
# Blanks between two lexemes

The padding of comments knows four blanks.  For the scanner three of them are spaces, and the vertical
tab is a lexeme like an operator: behind it a slash starts a regular expression, and a word is no
property name.  So which blanks stand between two lexemes matters only in this one way.
-/

namespace JsPrune

open String (utf8Len)
open Text

namespace Scanner

/-- What the scanner remembers behind some blanks. -/
def State.behindBlanks (st : State) (run : List Char) : State :=
  if '\x0b' ∈ run then st.after true else st

theorem State.behindBlanks_cons (st : State) (c : Char) (run : List Char) :
    st.behindBlanks (c :: run) = (st.behindBlanks [c]).behindBlanks run := by
  unfold State.behindBlanks
  by_cases hc : '\x0b' = c
  · subst hc
    simp [State.after]
  · simp [hc]

theorem step_blank {c : Char} (hc : isBlankChar c = true) (st : State) (cs : List Char) :
    step st c cs = lexeme ([c], cs) (st.behindBlanks [c]) := by
  simp only [isBlankChar, Bool.or_eq_true, beq_iff_eq] at hc
  rcases hc with ((rfl | rfl) | rfl) | rfl <;> rfl

variable {run : List Char}

theorem scan_blanks (hrun : ∀ c ∈ run, isBlankChar c = true) (offset : Nat) (st : State)
    (rest : List Char) :
    scan offset st (run ++ rest) = scan (offset + utf8Len run) (st.behindBlanks run) rest := by
  induction run generalizing offset st with
  | nil => rfl
  | cons c run ih =>
      calc scan offset st (c :: run ++ rest)
          = scan (offset + utf8Len [c]) (st.behindBlanks [c]) (run ++ rest) := by
            rw [List.cons_append, scan_cons, step_blank (hrun c List.mem_cons_self)]
            rfl
        _ = scan (offset + utf8Len [c] + utf8Len run) ((st.behindBlanks [c]).behindBlanks run)
              rest := ih (fun d hd => hrun d (List.mem_cons_of_mem c hd)) _ _
        _ = scan (offset + utf8Len (c :: run)) (st.behindBlanks (c :: run)) rest := by
            rw [← State.behindBlanks_cons, Nat.add_assoc, ← String.utf8Len_append]
            rfl

theorem takes_blanks (hrun : ∀ c ∈ run, isBlankChar c = true) (st : State) (rest : List Char) :
    Takes st run rest (st.behindBlanks run) := by
  induction run generalizing st with
  | nil => exact takes_nil st rest
  | cons c run ih =>
      have hfirst : Takes st [c] (run ++ rest) (st.behindBlanks [c]) :=
        takes_of_step (step_blank (hrun c List.mem_cons_self) st (run ++ rest))
      have hlater := ih (fun d hd => hrun d (List.mem_cons_of_mem c hd)) (st.behindBlanks [c])
      rw [State.behindBlanks_cons]
      exact hfirst.append hlater

/-- Whether two scans of one text agree does not depend on where the text stands. -/
theorem scan_eq_scan_iff (old new : Nat) (st st' : State) (cs : List Char) :
    scan new st cs = scan new st' cs ↔ scan old st cs = scan old st' cs := by
  constructor <;> intro h
  · rw [scan_moved new old, h, ← scan_moved]
  · rw [scan_moved old new, h, ← scan_moved]

end Scanner

namespace Text

theorem head?_of_blanks {run : List Char} (hrun : ∀ c ∈ run, Scanner.isBlankChar c = true)
    (hne : run ≠ []) (rest : List Char) :
    (run ++ rest).head?.any Scanner.isBlankChar = true := by
  obtain ⟨c, run, rfl⟩ := List.exists_cons_of_ne_nil hne
  exact hrun c List.mem_cons_self

theorem exists_run_of_blanks {source : String} {span : Span} {front cs : List Char}
    (hs : source.toList = front ++ cs) (hfront : utf8Len front = span.start)
    (hlt : span.start < span.stop) (hrun : BlankRun source span.start span.stop) :
    ∃ run rest, cs = run ++ rest ∧ slice source span.start span.stop = String.ofList run ∧
      span.stop = span.start + utf8Len run ∧ run ≠ [] ∧
      ∀ c ∈ run, Scanner.isBlankChar c = true := by
  have hboundary : isBoundary source span.stop = true := by
    have hlast := isBoundary_succ_of_any (fun _ => toNat_lt_of_isBlank)
      (hrun (span.stop - 1) (by omega) (by omega))
    rwa [Nat.sub_add_cancel (by omega)] at hlast
  obtain ⟨run, rest, rfl, hstop⟩ := exists_split hs hboundary (by omega)
  refine ⟨run, rest, rfl, ?_, by omega, ?_, ?_⟩
  · rw [← hfront, ← hstop]
    exact slice_eq (hs.trans (List.append_assoc ..).symm)
  · rintro rfl
    rw [String.utf8Len_nil] at hstop
    omega
  · rw [← hfront, ← hstop] at hrun
    exact fun c hc => blank_of_mem_run hs hrun hc

theorem blank_of_mem {blanks : String} (hblanks : BlankRun blanks 0 blanks.utf8ByteSize) {c : Char}
    (hc : c ∈ blanks.toList) : Scanner.isBlankChar c = true := by
  have hchars : blanks.toList = [] ++ (blanks.toList ++ []) := by simp
  rw [← String.utf8Len_toList] at hblanks
  exact blank_of_mem_run hchars (by simpa using hblanks) hc

end Text

namespace Comment

def pushed (span : Span) (size : Nat) (c : Comment) : Comment :=
  if c.span.stop ≤ span.start then c else c.moved span.stop (span.start + size)

variable {source blanks : String} {span : Span} {st : Scanner.State} {cs : List Char}

/-- With other blanks between two lexemes the scan is the same up to them, and goes on behind them with
what they leave. -/
theorem exists_scans_of_blanks (hreached : Scanner.Reached source span.start st cs)
    (hlt : span.start < span.stop) (hrun : BlankRun source span.start span.stop)
    (hne : blanks ≠ "") (hblanks : BlankRun blanks 0 blanks.utf8ByteSize) :
    ∃ before rest,
      Scanner.Reached source span.stop
        (st.behindBlanks (slice source span.start span.stop).toList) rest ∧
      all source = before ++ Scanner.scan span.stop
        (st.behindBlanks (slice source span.start span.stop).toList) rest ∧
      all (Text.replace source span blanks) = before ++
        Scanner.scan (span.start + blanks.utf8ByteSize) (st.behindBlanks blanks.toList) rest ∧
      ∀ c ∈ before, c.span.stop ≤ span.start := by
  obtain ⟨front, hs, hfront⟩ := hreached.exists_before
  obtain ⟨run, rest, rfl, hslice, hstop, hrunne, hrunall⟩ := exists_run_of_blanks hs hfront hlt hrun
  have hnewne : blanks.toList ≠ [] := by simpa using hne
  have hnewall : ∀ c ∈ blanks.toList, Scanner.isBlankChar c = true := fun c => blank_of_mem hblanks
  have hhead := head?_of_blanks hrunall hrunne rest
  have hother : ∀ d, Scanner.isBlankChar d = false → (run ++ rest).head? ≠ some d := by
    intro d hd heq
    rw [heq, Option.any_some, hd] at hhead
    exact absurd hhead (by simp)
  have hreplace := toList_replace hs hfront.symm (by omega) blanks
  have hbehind := Scanner.takes_blanks hrunall st rest source span.start hreached
  rw [← hfront] at hreached
  obtain ⟨before, hall, hall', hbefore⟩ := hreached.all_ahead hs hreplace
    (List.append_ne_nil_of_left_ne_nil hrunne rest) (hother '#' rfl) (hother '!' rfl)
    (Or.inr ⟨head?_of_blanks hnewall hnewne rest, hhead⟩)
  rw [hfront] at hall hall' hbefore
  rw [Scanner.scan_blanks hrunall] at hall
  rw [Scanner.scan_blanks hnewall, String.utf8Len_toList] at hall'
  rw [hslice, String.toList_ofList, hstop]
  exact ⟨before, rest, hbehind, hall, hall', hbefore⟩

/-- Behind the span a second scan finds the comments of the first one, pushed, if the two would find
the same at one place. -/
theorem eq_map_pushed_iff {before : List Comment} {st st' : Scanner.State} {rest : List Char}
    (hall : all source = before ++ Scanner.scan span.stop st rest)
    (hreached : Scanner.Reached source span.stop st rest) (hlt : span.start < span.stop)
    (hbefore : ∀ c ∈ before, c.span.stop ≤ span.start) (size : Nat) :
    before ++ Scanner.scan (span.start + size) st' rest = (all source).map (pushed span size) ↔
      Scanner.scan span.stop st rest = Scanner.scan span.stop st' rest := by
  have hfirst : before.map (pushed span size) = before := by
    calc before.map (pushed span size)
        = before.map id := List.map_congr_left fun c hc => if_pos (hbefore c hc)
      _ = before := List.map_id before
  have hlater : (Scanner.scan span.stop st rest).map (pushed span size) =
      Scanner.scan (span.start + size) st rest := by
    rw [Scanner.scan_moved span.stop (span.start + size)]
    apply List.map_congr_left
    intro c hc
    have hstart := hreached.le_start_of_mem hc
    have hinside := (wellFormed_of_mem (hall ▸ List.mem_append_right before hc)).inside.1
    exact if_neg (by omega)
  rw [hall, List.map_append, hfirst, hlater, List.append_cancel_left_eq, eq_comm]
  exact Scanner.scan_eq_scan_iff span.stop (span.start + size) st st' rest

/-- With other blanks in the place of blanks between two lexemes, the comments before them are the same.
Behind them the scanner goes on as it stood, or as behind an operator if a vertical tab is among the
blanks.  So the comments behind are the same and pushed exactly if these two ways of going on find the
same, as they do if both runs of blanks hold a vertical tab, or neither does. -/
theorem all_replace_blanks_iff (hreached : Scanner.Reached source span.start st cs)
    (hlt : span.start < span.stop) (hrun : BlankRun source span.start span.stop)
    (hne : blanks ≠ "") (hblanks : BlankRun blanks 0 blanks.utf8ByteSize) :
    ∃ before rest,
      Scanner.Reached source span.stop
        (st.behindBlanks (slice source span.start span.stop).toList) rest ∧
      all source = before ++ Scanner.scan span.stop
        (st.behindBlanks (slice source span.start span.stop).toList) rest ∧
      all (Text.replace source span blanks) = before ++
        Scanner.scan (span.start + blanks.utf8ByteSize) (st.behindBlanks blanks.toList) rest ∧
      (∀ c ∈ before, c.span.stop ≤ span.start) ∧
      (all (Text.replace source span blanks) = (all source).map (pushed span blanks.utf8ByteSize) ↔
        Scanner.scan span.stop (st.behindBlanks (slice source span.start span.stop).toList) rest =
          Scanner.scan span.stop (st.behindBlanks blanks.toList) rest) ∧
      (('\x0b' ∈ (slice source span.start span.stop).toList ↔ '\x0b' ∈ blanks.toList) →
        all (Text.replace source span blanks) =
          (all source).map (pushed span blanks.utf8ByteSize)) := by
  obtain ⟨before, rest, hbehind, hall, hall', hbefore⟩ :=
    exists_scans_of_blanks hreached hlt hrun hne hblanks
  have hiff : all (Text.replace source span blanks) =
      (all source).map (pushed span blanks.utf8ByteSize) ↔
      Scanner.scan span.stop (st.behindBlanks (slice source span.start span.stop).toList) rest =
        Scanner.scan span.stop (st.behindBlanks blanks.toList) rest := by
    rw [hall']
    exact eq_map_pushed_iff hall hbehind hlt hbefore _
  refine ⟨before, rest, hbehind, hall, hall', hbefore, hiff, ?_⟩
  intro htab
  apply hiff.mpr
  simp only [Scanner.State.behindBlanks, htab]

/-- A space in the place of a vertical tab. -/
theorem all_replace_blanks_iff_space :
    Scanner.Reached "a\x0b/2//x" 1 (Scanner.State.initial.after false) "\x0b/2//x".toList ∧
    BlankRun "a\x0b/2//x" 1 2 ∧ BlankRun " " 0 (" " : String).utf8ByteSize ∧
    ∃ before rest,
      Scanner.Reached "a\x0b/2//x" 2 ((Scanner.State.initial.after false).behindBlanks
        (slice "a\x0b/2//x" 1 2).toList) rest ∧
      all "a\x0b/2//x" = before ++ Scanner.scan 2 ((Scanner.State.initial.after false).behindBlanks
        (slice "a\x0b/2//x" 1 2).toList) rest ∧
      all (Text.replace "a\x0b/2//x" ⟨1, 2⟩ " ") = before ++ Scanner.scan (1 + 1)
        ((Scanner.State.initial.after false).behindBlanks (" " : String).toList) rest ∧
      (∀ c ∈ before, c.span.stop ≤ 1) ∧
      (all (Text.replace "a\x0b/2//x" ⟨1, 2⟩ " ") = (all "a\x0b/2//x").map (pushed ⟨1, 2⟩ 1) ↔
        Scanner.scan 2 ((Scanner.State.initial.after false).behindBlanks
          (slice "a\x0b/2//x" 1 2).toList) rest =
        Scanner.scan 2 ((Scanner.State.initial.after false).behindBlanks
          (" " : String).toList) rest) ∧
      (('\x0b' ∈ (slice "a\x0b/2//x" 1 2).toList ↔ '\x0b' ∈ (" " : String).toList) →
        all (Text.replace "a\x0b/2//x" ⟨1, 2⟩ " ") =
          (all "a\x0b/2//x").map (pushed ⟨1, 2⟩ 1)) := by
  have hreached : Scanner.Reached "a\x0b/2//x" (⟨1, 2⟩ : Span).start
      (Scanner.State.initial.after false) "\x0b/2//x".toList :=
    Scanner.Reached.of_walk 1 (by decide +kernel)
  have hrun : BlankRun "a\x0b/2//x" (⟨1, 2⟩ : Span).start (⟨1, 2⟩ : Span).stop := by
    intro i hi hlt
    obtain rfl : i = 1 := Nat.le_antisymm (Nat.le_of_lt_succ hlt) hi
    decide +kernel
  have hblanks : BlankRun " " 0 (" " : String).utf8ByteSize := by
    intro i _ hlt
    obtain rfl : i = 0 := Nat.lt_one_iff.mp hlt
    decide +kernel
  exact ⟨hreached, hrun, hblanks,
    all_replace_blanks_iff hreached (by decide) hrun (by decide) hblanks⟩

/-- Behind the space the slash divides; behind the vertical tab it starts a regular expression. -/
example : all "a\x0b/2//x" = [] ∧ all "a /2//x" = [⟨⟨4, 7⟩, .line, "//x", true⟩] := by
  decide +kernel

end Comment

end JsPrune
