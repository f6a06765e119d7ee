import JsPrune.Proofs.Padding.Gluing
import JsPrune.Proofs.Padding.Runs
import JsPrune.Proofs.Session.Exactness
/-!
# Sessions that remove comments

What a session does to a script if all it is asked for is to remove comments.  A line break is left
wherever one stood between two pieces of code.  Tokens are left apart as well, but for one case: two
comments end to end, which nothing else holds apart, between two identifiers.  And no whitespace is left
stranded, unless two comments on one line have only blanks between them.
-/

namespace JsPrune.Session

open String (utf8Len)
open Text

def withoutComments (source sourceName : String) (decision : Decision) : Session :=
  ((new source sourceName).answer (.markComments decision)).2

section

variable (source sourceName : String) (decision : Decision)

theorem cuttable_withoutComments :
    Cuttable source (withoutComments source sourceName decision).removed :=
  cuttable_after_new source sourceName [.markComments decision]

theorem source_withoutComments :
    (withoutComments source sourceName decision).source = source := rfl

theorem code_withoutComments :
    (withoutComments source sourceName decision).code =
      cut source (withoutComments source sourceName decision).removed := by
  rw [code_eq, source_withoutComments]

theorem removed_withoutComments :
    (withoutComments source sourceName decision).removed =
      Mark.removed source (withoutComments source sourceName decision).marks := by
  rw [removed_eq, source_withoutComments]

theorem marks_withoutComments :
    (withoutComments source sourceName decision).marks =
      ((decision.chosen (Comment.all source)).filterMap (Padding.comment source)).map
        fun span => ⟨span, .comment⟩ := rfl

theorem ofComments_withoutComments :
    Padding.OfComments source (withoutComments source sourceName decision).marks := by
  intro mark hmark
  rw [marks_withoutComments] at hmark
  obtain ⟨span, hspan, rfl⟩ := List.mem_map.mp hmark
  obtain ⟨c, hc, hcspan⟩ := List.mem_filterMap.mp hspan
  exact ⟨c, Decision.mem_of_mem_chosen hc, hcspan⟩

theorem marked_withoutComments {c : Comment} {span : Span}
    (hc : c ∈ decision.chosen (Comment.all source))
    (hspan : Padding.comment source c = some span) :
    Padding.Marked source (withoutComments source sourceName decision).marks c := by
  refine ⟨Decision.mem_of_mem_chosen hc, ⟨span, .comment⟩, ?_, hspan⟩
  rw [marks_withoutComments]
  exact List.mem_map.mpr ⟨span, List.mem_filterMap.mpr ⟨c, hc, hspan⟩, rfl⟩

theorem chosen_of_marked {c : Comment}
    (h : Padding.Marked source (withoutComments source sourceName decision).marks c) :
    c ∈ decision.chosen (Comment.all source) := by
  obtain ⟨hc, mark, hmark, hspan⟩ := h
  rw [marks_withoutComments] at hmark
  obtain ⟨span, hmem, rfl⟩ := List.mem_map.mp hmark
  obtain ⟨d, hd, hdspan⟩ := List.mem_filterMap.mp hmem
  rw [Padding.eq_of_comment_eq hc (Decision.mem_of_mem_chosen hd) hspan hdspan]
  exact hd

end

/-! ## Lines -/

/-- Let two bytes of code come from offsets `p` and `q`, with only spaces between them in the output.
If the source has a line terminator between these offsets, in a comment or not, then the output has
a line break between the two bytes. -/
theorem line_break_between_code {source sourceName : String} {decision : Decision}
    {j k p q : Nat} {front behind : List Char} {t : Char}
    (hp : (origins source (withoutComments source sourceName decision).removed)[j]? = some p)
    (hq : (origins source (withoutComments source sourceName decision).removed)[k]? = some q)
    (hjk : j < k)
    (hjcode : (byte? (withoutComments source sourceName decision).code j).any isSpace = false)
    (hkcode : (byte? (withoutComments source sourceName decision).code k).any isSpace = false)
    (hbetween : ∀ i, j < i → i < k →
      (byte? (withoutComments source sourceName decision).code i).any isSpace = true)
    (hs : source.toList = front ++ t :: behind) (ht : isLineTerminator t = true)
    (hpt : p < utf8Len front) (htq : utf8Len front < q) :
    ∃ i, j < i ∧ i < k ∧
      (byte? (withoutComments source sourceName decision).code i).any isLineBreak = true := by
  have hcut := cuttable_withoutComments source sourceName decision
  have hmarks := ofComments_withoutComments source sourceName decision
  rw [code_withoutComments] at hjcode hkcode hbetween ⊢
  have hgap := Padding.Gap.of_origins hcut hp hq hjk hjcode hkcode hbetween
  rw [removed_withoutComments] at hgap
  obtain ⟨i, hpi, hiq, hkept, hbreak⟩ := hgap.exists_kept_break hmarks hs ht hpt htq
  rw [← removed_withoutComments] at hkept
  obtain ⟨l, hl⟩ := exists_origin (Nat.lt_trans hiq hgap.stop_lt) hkept
  refine ⟨l, (origins_lt_iff hp hl).mpr hpi, (origins_lt_iff hl hq).mpr hiq, ?_⟩
  rw [byte?_cut hcut hl]
  exact hbreak

theorem line_break_between_code_two_lines :
    ∃ i, 0 < i ∧ i < 2 ∧
      (byte? (withoutComments "a/*\n*/\nb" "a.js" ⟨fun _ _ => true⟩).code i).any isLineBreak =
        true := by
  have hsplit : "a/*\n*/\nb".toList = "a/*".toList ++ '\n' :: "*/\nb".toList := by decide +kernel
  refine line_break_between_code (p := 0) (q := 7) (by decide +kernel) (by decide +kernel)
    (by decide) (by decide +kernel) (by decide +kernel) ?_ hsplit (by decide) (by decide +kernel)
    (by decide +kernel)
  intro i hi hi'
  obtain rfl : i = 1 := by omega
  decide +kernel

/-! ## Tokens -/

/-- Two bytes that glue come from offsets `p` and `q`, stand side by side in the output and did not in
the source, exactly if both belong to identifiers and what stood between them are two comments, end
to end, each on one line and chosen to go. -/
theorem glues_iff_two_comments (source sourceName : String) (decision : Decision) (p q : Nat) :
    (∃ k l r, (origins source (withoutComments source sourceName decision).removed)[k]? = some p ∧
      (origins source (withoutComments source sourceName decision).removed)[k + 1]? = some q ∧
      p + 1 < q ∧ byte? (withoutComments source sourceName decision).code k = some l ∧
      byte? (withoutComments source sourceName decision).code (k + 1) = some r ∧
      Padding.glues l r = true) ↔
    (byte? source p).any Padding.isIdentifierByte = true ∧
      (byte? source q).any Padding.isIdentifierByte = true ∧
      ∃ c ∈ decision.chosen (Comment.all source), ∃ d ∈ decision.chosen (Comment.all source),
        c.isMultiline = false ∧ d.isMultiline = false ∧
        c.span.start = p + 1 ∧ d.span.start = c.span.stop ∧ d.span.stop = q := by
  have hcut := cuttable_withoutComments source sourceName decision
  have hmarks := ofComments_withoutComments source sourceName decision
  rw [code_withoutComments]
  constructor
  · rintro ⟨k, l, r, hp, hq, hpq, hl, hr, hglues⟩
    obtain ⟨hlcode, hrcode⟩ := Padding.not_space_of_glues hglues
    have hgap := Padding.Gap.of_origins hcut hp hq (Nat.lt_succ_self k) (by rw [hl]; exact hlcode)
      (by rw [hr]; exact hrcode) (fun i hi hi' => by omega)
    have hall := fun i => covers_between_origins hp hq (i := i)
    rw [byte?_cut hcut hp] at hl
    rw [byte?_cut hcut hq] at hr
    rw [removed_withoutComments] at hgap hall
    obtain ⟨hl', hr', c, d, hc, hd, hcone, hdone, hcstart, hdstart, hdstop⟩ :=
      Padding.ClosedGap.two_comments ⟨hgap, hmarks, hall⟩ hpq hl hr hglues
    exact ⟨by rw [hl]; exact hl', by rw [hr]; exact hr',
      c, chosen_of_marked source sourceName decision hc,
      d, chosen_of_marked source sourceName decision hd, hcone, hdone, hcstart, hdstart, hdstop⟩
  · rintro ⟨hp, hq, c, hcchosen, d, hdchosen, hcone, hdone, hcstart, hdstart, hdstop⟩
    have hc := Decision.mem_of_mem_chosen hcchosen
    have hd := Decision.mem_of_mem_chosen hdchosen
    obtain ⟨l, hl, hl'⟩ := (Option.any_eq_true _ _).mp hp
    obtain ⟨r, hr, hr'⟩ := (Option.any_eq_true _ _).mp hq
    obtain ⟨hcspan, hdspan⟩ := Padding.comment_eq_span_of_two hc hd hl hr hl' hr' hcone hdone
      hcstart hdstart hdstop
    have hclosed := Padding.closedGap_of_two hmarks
      (marked_withoutComments source sourceName decision hcchosen hcspan)
      (marked_withoutComments source sourceName decision hdchosen hdspan)
      hl hr hl' hr' hcstart hdstart hdstop
    have hgap := hclosed.gap
    have hall := hclosed.closed
    rw [← removed_withoutComments] at hgap hall
    obtain ⟨k, hk, hk'⟩ := exists_adjacent_origins hgap.lt hgap.stop_lt hgap.kept_start
      hgap.kept_stop hall
    have hctwo := (Comment.standsIn_of_mem hc).start_add_two_le
    have hdtwo := (Comment.standsIn_of_mem hd).start_add_two_le
    refine ⟨k, l, r, hk, hk', by omega, ?_, ?_, Padding.glues_iff.mpr (Or.inl ⟨hl', hr'⟩)⟩
    · rw [byte?_cut hcut hk, hl]
    · rw [byte?_cut hcut hk', hr]

-- Each of the two comments is harmless beside the slash of the other one.
example : (withoutComments "a/*x*//*y*/b" "a.js" ⟨fun _ _ => true⟩).code = "ab" := by
  decide +kernel

/-! ## Whitespace -/

/-- Widening what a session removes once more changes nothing, exactly if none of it strands
whitespace.  A span that does holds two chosen comments on one line, with only blanks between them and
with code before the first one and behind the second one. -/
theorem removed_fixed_iff (source sourceName : String) (decision : Decision) :
    (Span.union ((withoutComments source sourceName decision).removed.map
        (Padding.stranded source)) = (withoutComments source sourceName decision).removed ↔
      ∀ r ∈ (withoutComments source sourceName decision).removed,
        ¬ Padding.Strands source r) ∧
    ∀ r ∈ (withoutComments source sourceName decision).removed, Padding.Strands source r →
      ∃ c ∈ decision.chosen (Comment.all source), ∃ d ∈ decision.chosen (Comment.all source),
        r.start ≤ c.span.start ∧ d.span.stop ≤ r.stop ∧ Padding.Spaced source c d := by
  have hcut := cuttable_withoutComments source sourceName decision
  have hmarks := ofComments_withoutComments source sourceName decision
  constructor
  · exact Padding.union_stranded_eq_self_iff hcut.canonical
  · intro r hr hstrands
    rw [removed_withoutComments] at hr
    obtain ⟨c, d, hc, hd, hrc, hdr, hspaced⟩ :=
      Padding.exists_spaced_of_strands hmarks hr hstrands
    exact ⟨c, chosen_of_marked source sourceName decision hc,
      d, chosen_of_marked source sourceName decision hd, hrc, hdr, hspaced⟩

-- The two comments before the blank and the two behind it go together only once they are widened.
example : (withoutComments "  /*a*//*b*/ /*c*//*d*/\nf();\n" "a.js" ⟨fun _ _ => true⟩).code =
    "  \nf();\n" := by
  decide +kernel

end JsPrune.Session
