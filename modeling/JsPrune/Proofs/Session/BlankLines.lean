import JsPrune.Proofs.Padding.BlankLines
import JsPrune.Proofs.Padding.Cutting
import JsPrune.Proofs.Session.Comments
/-!
# Blank lines of a session

Where comments are removed, all bytes of the blank lines outside comments are left.  In the output they
are a blank line again, unless a cut brings a carriage return and a line feed together: then the line
break at one end of the blank line grows together with what stands there.
-/

namespace JsPrune

open Text Segment

namespace Text

variable {source : String} {removed : List Span} {line : Span}

theorem startsLine_rank (h : Cuttable source removed) {i : Nat}
    (hstarts : startsLine source i = true)
    (hkept : ∀ j, j + 1 = i → Span.covers removed j = false) :
    startsLine (cut source removed) (rank removed i) = true := by
  rcases startsLine_iff.mp hstarts with rfl | ⟨j, rfl, hbreak⟩
  · rfl
  · apply startsLine_iff.mpr
    refine Or.inr ⟨rank removed j, ?_, ?_⟩
    · rw [rank_succ, hkept j rfl]
      rfl
    · rw [byte?_rank h (lt_size_of_any hbreak) (hkept j rfl)]
      exact hbreak

/-- A break that is left has the same length in the output, unless the output puts a line feed behind
its only byte, a carriage return. -/
theorem breakLength_rank_iff (h : Cuttable source removed) {i : Nat}
    (hbreak : (byte? source i).any isLineBreak = true)
    (hkept : ∀ j, i ≤ j → j < i + breakLength source i → Span.covers removed j = false) :
    breakLength (cut source removed) (rank removed i) = breakLength source i ↔
      ¬ (byte? source (i + breakLength source i - 1) = some 0x0D ∧
        byte? (cut source removed) (rank removed i + breakLength source i) = some 0x0A) := by
  have hlen := breakLength_cases hbreak
  have hfirst : byte? (cut source removed) (rank removed i) = byte? source i :=
    byte?_rank h (lt_size_of_any hbreak) (hkept i (Nat.le_refl _) (by omega))
  have hbreak' : (byte? (cut source removed) (rank removed i)).any isLineBreak = true := by
    rw [hfirst]
    exact hbreak
  have hlen' := breakLength_cases hbreak'
  have htwo := breakLength_eq_two_iff (s := cut source removed) (i := rank removed i)
  rw [hfirst] at htwo
  rcases hlen with hone | ⟨hpair, hnext⟩
  · rw [hone, Nat.add_sub_cancel, ← htwo]
    omega
  · obtain ⟨hreturn, hfeed⟩ := breakLength_eq_two_iff.mp hpair
    have hsecond : byte? (cut source removed) (rank removed i + 1) = some 0x0A := by
      have hrank := rank_add_of_kept i 1 fun k hk hlt => hkept k hk (by omega)
      rw [← hrank, byte?_rank h (lt_size_of_any hnext) (hkept (i + 1) (by omega) (by omega))]
      exact hfeed
    refine iff_of_true (hpair ▸ htwo.mpr ⟨hreturn, hsecond⟩) ?_
    rw [hpair, show i + 2 - 1 = i + 1 by omega, hfeed]
    simp

/-- Where a cut leaves a blank line, and a line starts there in the output, the bytes of the blank line
are one in the output, unless the output has a carriage return right before its line feed or a line
feed right behind its carriage return. -/
theorem BlankLine.cut_iff (h : Cuttable source removed) (hline : BlankLine source line)
    (hkept : ∀ i, line.start ≤ i → i < line.stop → Span.covers removed i = false)
    (hstarts : startsLine (cut source removed) (rank removed line.start) = true) :
    BlankLine (cut source removed)
        ⟨rank removed line.start, rank removed line.start + line.length⟩ ↔
      ¬ (byte? source line.start = some 0x0A ∧ ∃ j, j + 1 = rank removed line.start ∧
        byte? (cut source removed) j = some 0x0D) ∧
      ¬ (byte? source (line.stop - 1) = some 0x0D ∧
        byte? (cut source removed) (rank removed line.start + line.length) = some 0x0A) := by
  have hlt := hline.lt
  have hsize := hline.stop_le_size
  have hstop := hline.stop_eq
  have hle := le_blankStop source line.start
  have hlen : 0 < breakLength source (blankStop source line.start) := by
    rcases breakLength_cases hline.breaks with hone | ⟨htwo, -⟩ <;> omega
  have hfirst : byte? (cut source removed) (rank removed line.start) = byte? source line.start :=
    byte?_rank h (by omega) (hkept _ (Nat.le_refl _) hlt)
  have hblank : blankStop (cut source removed) (rank removed line.start) =
      rank removed (blankStop source line.start) :=
    (Padding.blankStop_cut h (by omega) fun k hk hkb => hkept k hk (by omega)).1
  have hrank : rank removed (blankStop source line.start) =
      rank removed line.start + (blankStop source line.start - line.start) := by
    rw [← rank_add_of_kept _ _ fun k hk hkb => hkept k hk (by omega), Nat.add_sub_cancel' hle]
  have hbreak : (byte? (cut source removed)
      (rank removed (blankStop source line.start))).any isLineBreak = true := by
    rw [byte?_rank h (by omega) (hkept _ hle (by omega))]
    exact hline.breaks
  have hlength : rank removed line.start + line.length =
      rank removed (blankStop source line.start) +
        breakLength source (blankStop source line.start) := by
    rw [hrank, Span.length]
    omega
  have hiff := breakLength_rank_iff h hline.breaks fun j hj hlt => hkept j (by omega) (by omega)
  rw [← hstop, ← hlength] at hiff
  rw [← hiff]
  constructor
  · rintro ⟨-, hunsplit, -, hends⟩
    dsimp only at hunsplit hends
    rw [hfirst] at hunsplit
    rw [hblank, hlength] at hends
    exact ⟨hunsplit, by omega⟩
  · rintro ⟨hunsplit, hends⟩
    refine ⟨hstarts, ?_, ?_, ?_⟩
    · dsimp only
      rw [hfirst]
      exact hunsplit
    · dsimp only
      rw [hblank]
      exact hbreak
    · dsimp only
      rw [hblank, hlength, hends]

end Text

namespace Padding

variable {source : String} {marks : List Mark} {line : Span}

/-- Behind what goes before it, a blank line outside comments starts a line of the output. -/
theorem startsLine_cut (h : Cuttable source (Mark.removed source marks))
    (hmarks : OfComments source marks) (hline : BlankLine source line)
    (hapart : ∀ c ∈ Comment.all source, c.span.Apart line) :
    startsLine (cut source (Mark.removed source marks))
      (rank (Mark.removed source marks) line.start) = true := by
  have hlt := hline.lt
  have hout : OutsideComments source line.start := by
    rintro c hc j hj ⟨hcj, hjc⟩
    have hbefore : c.span.stop ≤ line.start := by
      rcases hapart c hc with hle | hle <;> omega
    have := stop_lt_of_apart hline hc hbefore
    omega
  by_cases hkept : ∀ j, j + 1 = line.start → Span.covers (Mark.removed source marks) j = false
  · exact startsLine_rank h hline.starts hkept
  · -- What goes begins at the start of a line, and the line break before that is left.
    push Not at hkept
    obtain ⟨j, hj, hcovers⟩ := hkept
    rw [ne_eq, Bool.not_eq_false] at hcovers
    obtain ⟨r, hr, hrj, hjr⟩ := Span.covers_iff.mp hcovers
    have hstop : r.stop = line.start := by
      rcases apart_line_of_mem_removed hmarks hline hapart hr with hle | hle <;> omega
    have hgone : rank (Mark.removed source marks) (r.start + (r.stop - r.start)) =
        rank (Mark.removed source marks) r.start :=
      rank_add_of_removed _ _ fun k hk hlt => Span.covers_of_mem hr hk (by omega)
    rw [Nat.add_sub_cancel' (by omega), hstop] at hgone
    have hfirst := startsLine_of_removed hmarks hr (i := line.start) (by omega) hline.starts hout
    rw [hgone]
    exact startsLine_rank h hfirst fun k hk => h.canonical.not_covers_before hr hk

end Padding

namespace Session

/-- Of a blank line that no comment touches nothing is removed, and its bytes stand together in the
output.  There they are a blank line again, exactly if they are not a line feed right behind a carriage
return and do not end in a carriage return right before a line feed. -/
theorem blank_line_survives_iff {source : String} (sourceName : String) (decision : Decision)
    {line : Span} (hline : BlankLine source line)
    (hapart : ∀ c ∈ Comment.all source, c.span.Apart line) :
    (∀ i, line.start ≤ i → i < line.stop →
      Span.covers (withoutComments source sourceName decision).removed i = false) ∧
    ∃ k, (∀ i < line.length,
        (origins source (withoutComments source sourceName decision).removed)[k + i]? =
          some (line.start + i)) ∧
      (BlankLine (withoutComments source sourceName decision).code ⟨k, k + line.length⟩ ↔
        ¬ (byte? source line.start = some 0x0A ∧
          ∃ j, j + 1 = k ∧
            byte? (withoutComments source sourceName decision).code j = some 0x0D) ∧
        ¬ (byte? source (line.stop - 1) = some 0x0D ∧
          byte? (withoutComments source sourceName decision).code (k + line.length) =
            some 0x0A)) := by
  have hcut := cuttable_withoutComments source sourceName decision
  have hmarks := ofComments_withoutComments source sourceName decision
  have hsize := hline.stop_le_size
  rw [code_withoutComments]
  rw [removed_withoutComments] at hcut ⊢
  have hkept : ∀ i, line.start ≤ i → i < line.stop →
      Span.covers (Mark.removed source
        (withoutComments source sourceName decision).marks) i = false := by
    intro i hi hlt
    apply Span.covers_eq_false_of_apart ?_ hi hlt
    exact fun r hr => Padding.apart_line_of_mem_removed hmarks hline hapart hr
  refine ⟨hkept, rank (Mark.removed source
    (withoutComments source sourceName decision).marks) line.start, ?_, ?_⟩
  · intro i hi
    rw [Span.length] at hi
    rw [← rank_add_of_kept line.start i fun k hk hlt => hkept k hk (by omega)]
    exact origins_rank (by omega) (hkept _ (by omega) (by omega))
  · exact hline.cut_iff hcut hkept (Padding.startsLine_cut hcut hmarks hline hapart)

/-- Between lines with all three line breaks, two of which go with their comments. -/
theorem blank_line_survives_between_breaks :
    BlankLine "a\r//x\r \t\r\n/*y*/\nb" ⟨6, 10⟩ ∧
    (∀ c ∈ Comment.all "a\r//x\r \t\r\n/*y*/\nb", c.span.Apart ⟨6, 10⟩) ∧
    BlankLine (withoutComments "a\r//x\r \t\r\n/*y*/\nb" "a.js" ⟨fun _ _ => true⟩).code
      ⟨2, 6⟩ := by
  have hline : BlankLine "a\r//x\r \t\r\n/*y*/\nb" ⟨6, 10⟩ := by
    refine ⟨by decide +kernel, ?_, by decide +kernel, by decide +kernel⟩
    rintro ⟨hfeed, -⟩
    exact absurd hfeed (by decide +kernel)
  have hapart : ∀ c ∈ Comment.all "a\r//x\r \t\r\n/*y*/\nb", c.span.Apart ⟨6, 10⟩ := by
    decide +kernel
  obtain ⟨-, k, hplace, hiff⟩ :=
    blank_line_survives_iff "a.js" ⟨fun _ _ => true⟩ hline hapart
  have hrank := rank_of_origins (hplace 0 (by decide))
  obtain rfl : 2 = k := by
    rw [← Nat.add_zero k, ← hrank]
    decide +kernel
  refine ⟨hline, hapart, hiff.mpr ⟨?_, ?_⟩⟩
  · rintro ⟨hfeed, -⟩
    exact absurd hfeed (by decide +kernel)
  · rintro ⟨hreturn, -⟩
    exact absurd hreturn (by decide +kernel)

-- The lone line feed of the last line comes behind the lone carriage return of the first one.
example : (withoutComments "a\r//x\n\n" "a.js" ⟨fun _ _ => true⟩).code = "a\r\n" := by
  decide +kernel

end Session

end JsPrune
