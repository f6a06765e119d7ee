import JsPrune.Proofs.Comment.Locality
import JsPrune.Proofs.Comment.WellFormed
import JsPrune.Proofs.Lexical.Steps
import JsPrune.Proofs.Padding.Cutting
/-!
# Comments of what a cut leaves

If the scanner does not notice what is cut out, then it finds in what is left the comments that are
left, and no others.  It does not notice a span if it stands between two lexemes at both of its ends,
if the lexeme before it does not depend on it, and if what it remembers behind it is, for the rest,
as good as what it remembered before.
-/

namespace JsPrune

open String (utf8Len)
open Text Segment

namespace Scanner

/-! ## Seams -/

/-- The scanner does not notice that the span is cut out.  It stands between two lexemes at both ends,
a lexeme that ends before the span is the same in front of what is kept behind it, and this has the
same comments for what the scanner remembers before the span and behind it. -/
inductive Seam (source : String) (removed : List Span) (r : Span) : Prop
  | intro {st st' : State} {cs cs' : List Char} (hstart : Reached source r.start st cs)
      (hstop : Reached source r.stop st' cs')
      (hbefore : ∀ offset st₀ c tail, Reached source offset st₀ (c :: (tail ++ cs)) →
        (step st₀ c (tail ++ cs)).taken = c :: tail →
          step st₀ c (tail ++ keep removed r.stop cs') =
            { step st₀ c (tail ++ cs) with rest := keep removed r.stop cs' })
      (hbehind : ∀ offset, scan offset st (keep removed r.stop cs') =
        scan offset st' (keep removed r.stop cs'))

/-- A span behind a space, with the same to remember at both of its ends. -/
theorem Seam.of_space {source : String} {removed : List Span} {r : Span} {offset : Nat} {st : State}
    {c : Char} {cs cs' : List Char} (hreached : Reached source offset st (c :: cs))
    (hc : isSpace c = true) (hoffset : offset + c.utf8Size = r.start)
    (hstop : Reached source r.stop st cs') : Seam source removed r := by
  have hlen : offset + utf8Len (step st c cs).taken = r.start := by
    rw [step_space hc, ← hoffset]
    simp [lexeme]
  have hstart : Reached source r.start st cs := by
    have hnext := hreached.step
    rw [hlen, step_space hc] at hnext
    exact hnext
  refine ⟨hstart, hstop, fun offset' st₀ d tail hreached' htaken => ?_, fun _ => rfl⟩
  have hsize := hstart.add_utf8Len
  have hsize' := hreached'.add_utf8Len
  have hpos := d.utf8Size_pos
  rw [String.utf8Len_cons, String.utf8Len_append] at hsize'
  -- The lexeme that ends before the span is the space.
  obtain rfl : offset' = offset := by
    rcases Nat.lt_trichotomy offset' offset with hlt | heq | hgt
    · have hle := hreached'.step_le hreached hlt
      have hcpos := c.utf8Size_pos
      rw [htaken, String.utf8Len_cons] at hle
      omega
    · exact heq
    · have hle := hreached.step_le hreached' hgt
      omega
  obtain ⟨rfl, hchars⟩ := hreached'.unique hreached
  obtain ⟨rfl, htail⟩ := List.cons.inj hchars
  obtain rfl : tail = [] := List.append_left_eq_self.mp htail
  rw [List.nil_append, List.nil_append, step_space hc, step_space hc]
  rfl

section

variable {source : String} {removed : List Span} {r : Span} {offset : Nat} {st : State} {c : Char}
  {cs cs' : List Char}

theorem keep_of_run {st' : State} (hr : r ∈ removed) (hne : r.start < r.stop)
    (hrun : Run (r.start, st, cs) (r.stop, st', cs')) :
    keep removed r.start cs = keep removed r.stop cs' ∧ cs'.length < cs.length ∧
      ((scan r.start st cs).filter fun c => !Span.covers removed c.span.start) =
        (scan r.stop st' cs').filter fun c => !Span.covers removed c.span.start := by
  obtain ⟨taken, found, hchars, hlen, hscan, hin⟩ := hrun.exists_taken
  dsimp only at hchars hlen hscan hin
  have hgone : keep removed r.start taken = [] :=
    keep_eq_nil fun i hi hlt => Span.covers_of_mem hr hi (by omega)
  refine ⟨?_, ?_, ?_⟩
  · rw [hchars, keep_append, hgone, hlen, List.nil_append]
  · cases taken with
    | nil =>
        rw [String.utf8Len_nil] at hlen
        omega
    | cons c taken =>
        rw [hchars, List.length_append, List.length_cons]
        omega
  · rw [hscan, List.filter_append, List.filter_eq_nil_iff.mpr, List.nil_append]
    intro d hd
    obtain ⟨hle, hlt⟩ := hin d hd
    rw [Span.covers_of_mem hr hle hlt]
    simp

variable (h : Cuttable source removed) (hseams : ∀ r ∈ removed, Seam source removed r)
  (hreached : Reached source offset st (c :: cs)) (hkept : Span.covers removed offset = false)
  (hout : ∀ r ∈ removed, r.start < offset → r.stop ≤ offset)
include h hseams hreached hkept hout

theorem stop_le_or_step_le (hr : r ∈ removed) :
    r.stop ≤ offset ∨ offset + utf8Len (step st c cs).taken ≤ r.start := by
  have hne := h.canonical.nonempty r hr
  rcases Nat.lt_trichotomy r.start offset with hlt | heq | hgt
  · exact Or.inl (hout r hr hlt)
  · rw [Span.covers_of_mem hr (Nat.le_of_eq heq) (by omega)] at hkept
    exact absurd hkept (by simp)
  · obtain ⟨hstart, -, -, -⟩ := hseams r hr
    exact Or.inr (hreached.step_le hstart hgt)

theorem covers_step {i : Nat} (hi : offset ≤ i) (hlt : i < offset + utf8Len (step st c cs).taken) :
    Span.covers removed i = false := by
  refine Span.covers_eq_false_iff.mpr fun r hr => ?_
  rcases stop_le_or_step_le h hseams hreached hkept hout hr with hbefore | hbehind <;> omega

theorem step_keep : ∃ tail, (step st c cs).taken = c :: tail ∧
    keep removed offset (c :: cs) = c :: (tail ++
      keep removed (offset + utf8Len (step st c cs).taken) (step st c cs).rest) ∧
    step st c (tail ++ keep removed (offset + utf8Len (step st c cs).taken) (step st c cs).rest) =
      { step st c cs with
        rest := keep removed (offset + utf8Len (step st c cs).taken) (step st c cs).rest } := by
  obtain ⟨tail, htaken⟩ := exists_taken_step st c cs
  have hchars : c :: cs = c :: tail ++ (step st c cs).rest := by
    rw [← htaken]
    exact (chars_step st c cs).symm
  have hnext := hreached.step
  have hself : keep removed offset (step st c cs).taken = (step st c cs).taken :=
    keep_eq_self fun i hi hlt => covers_step h hseams hreached hkept hout hi hlt
  refine ⟨tail, htaken, ?_, ?_⟩
  · rw [hchars, ← htaken, keep_append, hself, htaken]
    rfl
  · obtain ⟨rest, hrest⟩ : ∃ rest, (step st c cs).rest = rest := ⟨_, rfl⟩
    rw [hrest] at hchars hnext ⊢
    obtain rfl : cs = tail ++ rest := (List.cons.inj hchars).2
    cases hcut : Span.covers removed (offset + utf8Len (step st c (tail ++ rest)).taken) with
    | true =>
        obtain ⟨r, hr, hle, hlt⟩ := Span.covers_iff.mp hcut
        have hne := h.canonical.nonempty r hr
        have heq : offset + utf8Len (step st c (tail ++ rest)).taken = r.start := by
          rcases stop_le_or_step_le h hseams hreached hkept hout hr with hbefore | hbehind <;> omega
        obtain ⟨hstart, hstop, hbefore, -⟩ := hseams r hr
        rw [heq] at hnext ⊢
        obtain ⟨-, rfl⟩ := hnext.unique hstart
        rw [(keep_of_run hr hne (hstart.leads hstop (Nat.le_of_lt hne))).1]
        exact hbefore offset st c tail hreached htaken
    | false =>
        cases rest with
        | nil =>
            rw [keep]
            exact congrArg (fun rest => { step st c (tail ++ []) with rest := rest }) hrest
        | cons d rest =>
            rw [keep, if_neg (by rw [hcut]; simp)]
            refine local_step st c _ tail _ htaken ?_ ?_ <;> rw [hrest]
            · simp
            · rfl

end

theorem scan_keep {source : String} {removed : List Span} (h : Cuttable source removed)
    (hseams : ∀ r ∈ removed, Seam source removed r) {offset : Nat} {st : State} {cs : List Char}
    (hreached : Reached source offset st cs)
    (hout : ∀ r ∈ removed, r.start < offset → r.stop ≤ offset) :
    scan (rank removed offset) st (keep removed offset cs) =
      ((scan offset st cs).filter fun c => !Span.covers removed c.span.start).map
        (Comment.afterCut removed) := by
  induction hlen : cs.length using Nat.strong_induction_on generalizing offset st cs with
  | _ len ih =>
      cases cs with
      | nil => rfl
      | cons c cs =>
          cases hcovers : Span.covers removed offset with
          | true =>
              -- A removed span starts here, and the scan goes on behind it with what it remembers.
              obtain ⟨r, hr, hle, hlt⟩ := Span.covers_iff.mp hcovers
              obtain rfl : r.start = offset := by
                by_contra hne
                have := hout r hr (by omega)
                omega
              have hne := h.canonical.nonempty r hr
              obtain ⟨hstart, hstop, -, hbehind⟩ := hseams r hr
              obtain ⟨rfl, rfl⟩ := hstart.unique hreached
              obtain ⟨hkeep, hshorter, hfilter⟩ :=
                keep_of_run hr hne (hstart.leads hstop (Nat.le_of_lt hne))
              have hrank : rank removed r.stop = rank removed r.start := by
                have hadd : rank removed (r.start + (r.stop - r.start)) = rank removed r.start :=
                  rank_add_of_removed _ _ fun i hi hlt => Span.covers_of_mem hr hi (by omega)
                rwa [Nat.add_sub_cancel' (Nat.le_of_lt hne)] at hadd
              rw [hkeep, hbehind, hfilter, ← hrank]
              refine ih _ (by omega) hstop (fun s hs hlt => ?_) rfl
              rcases h.canonical.eq_or_apart hr hs with rfl | hbefore | hbehind <;> omega
          | false =>
              obtain ⟨tail, htaken, hkeep, hstep⟩ := step_keep h hseams hreached hcovers hout
              have hrank : rank removed (offset + utf8Len (step st c cs).taken) =
                  rank removed offset + utf8Len (step st c cs).taken :=
                rank_add_of_kept _ _ fun i hi hlt => covers_step h hseams hreached hcovers hout hi hlt
              have hrest := length_rest_step st c cs
              rw [List.length_cons] at hlen
              have hlater := ih _ (by omega) hreached.step (fun r hr hlt => by
                rcases stop_le_or_step_le h hseams hreached hcovers hout hr with hbefore | hbehind <;>
                  omega) rfl
              rw [hkeep, scan_cons, hstep, scan_cons, Move.scan, Move.scan, List.filter_append,
                List.map_append, ← hlater, hrank]
              congr 1
              unfold Move.found
              cases (step st c cs).comment with
              | none => rfl
              | some k => simp [Comment.afterCut, hcovers, hrank]

end Scanner

namespace Comment

variable {source : String} {removed : List Span} {c : Comment}

/-- If the scanner does not notice what is cut out, what is left has the comments that are left. -/
theorem all_cut (h : Cuttable source removed)
    (hseams : ∀ r ∈ removed, Scanner.Seam source removed r)
    (hline : (Scanner.splitHashbang (cut source removed).toList).1 =
      (Scanner.splitHashbang source.toList).1) :
    all (cut source removed) =
      ((all source).filter fun c => !Span.covers removed c.span.start).map (afterCut removed) := by
  have hbehind : ∀ r ∈ removed, utf8Len (Scanner.splitHashbang source.toList).1 ≤ r.start := by
    intro r hr
    obtain ⟨hstart, -, -, -⟩ := hseams r hr
    exact hstart.start_le
  have hkept : ∀ i, 0 ≤ i → i < 0 + utf8Len (Scanner.splitHashbang source.toList).1 →
      Span.covers removed i = false := by
    intro i _ hi
    refine Span.covers_eq_false_iff.mpr fun r hr => ?_
    have := hbehind r hr
    omega
  have hrest : (Scanner.splitHashbang (cut source removed).toList).2 =
      keep removed (utf8Len (Scanner.splitHashbang source.toList).1)
        (Scanner.splitHashbang source.toList).2 := by
    have hsplit := Scanner.splitHashbang_append (cut source removed).toList
    have hcut := toList_cut_append h (Scanner.splitHashbang_append source.toList).symm
    rw [keep_eq_self hkept] at hcut
    rw [hline] at hsplit
    exact List.append_cancel_left (hsplit.trans hcut)
  have hrank : rank removed (utf8Len (Scanner.splitHashbang source.toList).1) =
      utf8Len (Scanner.splitHashbang source.toList).1 := by
    have hadd := rank_add_of_kept 0 _ hkept
    rw [Nat.zero_add] at hadd
    exact hadd.trans (Nat.zero_add _)
  have hscan := Scanner.scan_keep h hseams Scanner.Reached.start fun r hr hlt => by
    have := hbehind r hr
    omega
  rw [hrank] at hscan
  rw [all_eq_scan, all_eq_scan, hline, hrest]
  exact hscan

theorem inside_or_apart {r : Span} (hseam : Scanner.Seam source removed r) (hc : c ∈ all source) :
    (r.start ≤ c.span.start ∧ c.span.stop ≤ r.stop) ∨ r.Apart c.span := by
  obtain ⟨hstart, hstop, -, -⟩ := hseam
  obtain ⟨offset, st, ch, cs, hreached, hfound⟩ := Scanner.mem_all_iff.mp hc
  obtain ⟨-, -, hspan⟩ := Scanner.found_eq_singleton_iff.mp hfound
  have hlt := hreached.lt_step
  rw [hspan]
  dsimp only [Span.Apart]
  rcases Nat.lt_or_ge offset r.start with hbefore | hbehind
  · have hle := hreached.step_le hstart hbefore
    exact Or.inr (Or.inr hle)
  rcases Nat.lt_or_ge offset r.stop with hin | hout
  · have hle := hreached.step_le hstop hin
    exact Or.inl ⟨hbehind, hle⟩
  · exact Or.inr (Or.inl hout)

end Comment

end JsPrune
