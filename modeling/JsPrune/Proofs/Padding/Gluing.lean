import JsPrune.Proofs.Padding.LineBreaks
/-!
# When comments hold tokens apart

A comment between code on both sides stays if the bytes beside it could belong to one token.  The test
sees the slashes of its neighbours: in a chain of comments, the first and the last stand between an
operator and something else, and those in the middle between two operators.  So a gap between two
bytes of one token closes in one case only, that of two comments end to end between identifiers.
-/

namespace JsPrune.Padding

open Text

/-! ## Bytes of tokens -/

def operatorBytes : List UInt8 :=
  [0x2B, 0x2D, 0x2A, 0x2F, 0x25, 0x3C, 0x3E, 0x3D, 0x26, 0x7C, 0x21, 0x3F, 0x2E, 0x5E, 0x7E]

theorem isOperatorByte_iff {b : UInt8} : isOperatorByte b = true ↔ b ∈ operatorBytes := by
  have hlist : "+-*/%<>=&|!?.^~".toUTF8.toList = operatorBytes := by decide +kernel
  unfold isOperatorByte
  rw [hlist, List.contains_iff_mem]

theorem not_identifier_of_operator {b : UInt8} (h : isOperatorByte b = true) :
    isIdentifierByte b = false ∧ isSpace b = false := by
  have hall : ∀ b ∈ operatorBytes, isIdentifierByte b = false ∧ isSpace b = false := by
    decide +kernel
  exact hall b (isOperatorByte_iff.mp h)

theorem not_operator_of_identifier {b : UInt8} (h : isIdentifierByte b = true) :
    isOperatorByte b = false := by
  by_contra hoperator
  rw [(not_identifier_of_operator (Bool.not_eq_false _ ▸ hoperator)).1] at h
  exact absurd h (by simp)

theorem not_space_of_identifier {b : UInt8} (h : isIdentifierByte b = true) :
    isSpace b = false := by
  by_contra hspace
  rw [Bool.not_eq_false] at hspace
  simp only [isSpace, isBlank, isLineBreak, Bool.or_eq_true, beq_iff_eq] at hspace
  rcases hspace with (((rfl | rfl) | rfl) | rfl) | rfl | rfl <;> exact absurd h (by decide)

theorem glues_iff {l r : UInt8} :
    glues l r = true ↔ (isIdentifierByte l = true ∧ isIdentifierByte r = true) ∨
      (isOperatorByte l = true ∧ isOperatorByte r = true) := by
  rw [glues, Bool.or_eq_true, Bool.and_eq_true, Bool.and_eq_true]

theorem not_space_of_glues {l r : UInt8} (h : glues l r = true) :
    isSpace l = false ∧ isSpace r = false := by
  rcases glues_iff.mp h with ⟨hl, hr⟩ | ⟨hl, hr⟩
  · exact ⟨not_space_of_identifier hl, not_space_of_identifier hr⟩
  · exact ⟨(not_identifier_of_operator hl).2, (not_identifier_of_operator hr).2⟩

theorem isOperatorByte_slash : isOperatorByte 0x2F = true := isOperatorByte_iff.mpr (by decide)

theorem glues_slash_right (l : UInt8) : glues l 0x2F = isOperatorByte l := by
  rw [glues, isOperatorByte_slash, Bool.and_true, show isIdentifierByte 0x2F = false by decide,
    Bool.and_false, Bool.false_or]

theorem glues_slash_left (r : UInt8) : glues 0x2F r = isOperatorByte r := by
  rw [glues, isOperatorByte_slash, Bool.true_and, show isIdentifierByte 0x2F = false by decide,
    Bool.false_and, Bool.false_or]

/-! ## Embedded comments -/

theorem blankStart_eq_self {source : String} {i p : Nat} (hi : i = p + 1)
    (hp : ¬ (byte? source p).any isBlank = true) : blankStart source i = i := by
  rw [hi, blankStart, if_neg hp]

theorem blankStop_eq_self {source : String} {i : Nat}
    (hi : ¬ (byte? source i).any isBlank = true) : blankStop source i = i :=
  blankStop_eq (Nat.le_refl i) (fun k hk hki => by omega) (Bool.eq_false_iff.mpr hi)

theorem gluesAround_eq {source : String} {span : Span} {p : Nat} {l r : UInt8}
    (hp : span.start = p + 1) (hl : byte? source p = some l)
    (hr : byte? source span.stop = some r) : gluesAround source span = glues l r := by
  rw [gluesAround, hp, Nat.add_sub_cancel, hl, hr]

theorem opens_false_of_code {source : String} {p : Nat} (hp : (byte? source p).any isSpace = false) :
    opens source (p + 1) = false := by
  refine Bool.eq_false_iff.mpr fun hopens => ?_
  obtain ⟨k, hpk, hk, -⟩ := break_of_opens hp (Nat.lt_succ_self p) hopens
  omega

theorem closes_false_of_code {source : String} {q : Nat} (hlt : q < source.utf8ByteSize)
    (hq : (byte? source q).any isSpace = false) : closes source q = false := by
  apply not_closes_of_run hlt hq (Nat.le_refl q)
  intro k hk hkq
  omega

/-- A comment on one line that touches code on both sides goes alone, unless they would glue. -/
theorem comment_eq_span {source : String} {c : Comment} {p : Nat} {l r : UInt8}
    (hp : c.span.start = p + 1) (hl : byte? source p = some l)
    (hr : byte? source c.span.stop = some r) (hl' : isSpace l = false) (hr' : isSpace r = false)
    (hone : c.isMultiline = false) (hglues : glues l r = false) :
    comment source c = some c.span := by
  have hpcode : (byte? source p).any isSpace = false := by rw [hl]; exact hl'
  have hqcode : (byte? source c.span.stop).any isSpace = false := by rw [hr]; exact hr'
  have hopens : opens source c.span.start = false := by
    rw [hp]
    exact opens_false_of_code hpcode
  have hstart := blankStart_eq_self hp (not_blank_of_not_space hpcode)
  have hmargin : (Margin.ofSpan source c.span).start = c.span.start := hstart
  rw [comment_eq_embedded hopens (closes_false_of_code (lt_size_of_byte? hr) hqcode), embedded,
    gluesAround_eq hp hl hr, hglues, hmargin, hone]
  simp

/-- Of two comments end to end the first ends with a slash. -/
theorem slash_of_touch {source : String} {c d : Comment} (hc : c ∈ Comment.all source)
    (hd : d ∈ Comment.all source) (htouch : d.span.start = c.span.stop) :
    byte? source (c.span.stop - 1) = some 0x2F := by
  have hslash := (Comment.standsIn_of_mem hd).byte?_start
  rw [htouch] at hslash
  rcases (Comment.standsIn_of_mem hc).byte?_stop (lt_size_of_byte? hslash) with hlast | ⟨-, hbreak⟩
  · exact hlast
  · exact absurd (hbreak _ hslash (by decide)) (by decide)

/-! ## Gaps that close -/

/-- A gap in which everything is removed, by marks of comments alone. -/
structure ClosedGap (source : String) (marks : List Mark) (p q : Nat) : Prop where
  gap : Gap source (Mark.removed source marks) p q
  comments : OfComments source marks
  closed : ∀ i, p < i → i < q → Span.covers (Mark.removed source marks) i = true

namespace ClosedGap

variable {source : String} {marks : List Mark} {p q : Nat}

theorem no_break (h : ClosedGap source marks p q) {i : Nat} (hpi : p < i) (hiq : i < q) :
    ¬ (byte? source i).any isLineBreak = true := by
  intro hbreak
  obtain ⟨front, t, behind, hs, rfl, ht⟩ := Comment.exists_terminator_of_break hbreak
  obtain ⟨k, hpk, hkq, hkept, -⟩ := h.gap.exists_kept_break h.comments hs ht hpi hiq
  rw [h.closed k hpk hkq] at hkept
  exact absurd hkept (by simp)

theorem not_opens (h : ClosedGap source marks p q) {i : Nat} (hpi : p < i) (hiq : i ≤ q) :
    opens source i = false := by
  refine Bool.eq_false_iff.mpr fun hopens => ?_
  obtain ⟨k, hpk, hki, hbreak⟩ := break_of_opens h.gap.code_start hpi hopens
  exact h.no_break hpk (by omega) hbreak

theorem not_closes (h : ClosedGap source marks p q) {i : Nat} (hpi : p < i) (hiq : i ≤ q) :
    closes source i = false := by
  refine Bool.eq_false_iff.mpr fun hcloses => ?_
  obtain ⟨hik, hkq, hbreak⟩ := break_of_closes h.gap.stop_lt h.gap.code_stop hiq hcloses
  exact h.no_break (by omega) hkq hbreak

theorem embedded_ok (h : ClosedGap source marks p q) {c : Comment} {wide : Span}
    (hc : c ∈ Comment.all source) (hpc : p < c.span.start) (hcq : c.span.stop ≤ q)
    (hwide : comment source c = some wide) :
    c.isMultiline = false ∧ wide.start = c.span.start ∧
      wide.stop ≤ blankStop source c.span.stop ∧
      (blankStart source c.span.start = c.span.start → wide = c.span) ∧
      (blankStart source c.span.start = c.span.start → blankStop source c.span.stop = c.span.stop →
        gluesAround source c.span = false) := by
  have htwo := (Comment.standsIn_of_mem hc).start_add_two_le
  have hopens := h.not_opens hpc (by omega)
  have hcloses := h.not_closes (by omega) hcq
  have hstop := stop_of_comment hwide (Or.inl hopens)
  cases hasMark_of_comment hwide with
  | wholeLine hopens' _ _ =>
      rw [hopens] at hopens'
      exact absurd hopens' (by simp)
  | lineEnd _ hcloses' _ =>
      rw [hcloses] at hcloses'
      exact absurd hcloses' (by simp)
  | lineStart hopens' _ _ =>
      rw [hopens] at hopens'
      exact absurd hopens' (by simp)
  | embedded _ _ hone hapart heq =>
      refine ⟨hone, by rw [heq], hstop, ?_, hapart⟩
      intro hstart
      rw [heq, if_neg (by omega)]

theorem exists_comment (h : ClosedGap source marks p q) {i : Nat} (hpi : p < i) (hiq : i < q) :
    ∃ c wide, Marked source marks c ∧ p < c.span.start ∧ c.span.stop ≤ q ∧
      comment source c = some wide ∧ wide.start ≤ i ∧ i < wide.stop := by
  have hremoved := h.closed i hpi hiq
  rw [Mark.removed, Span.covers_union] at hremoved
  obtain ⟨stranding, hstranding, hin⟩ := Span.covers_iff.mp hremoved
  obtain ⟨u, hu, rfl⟩ := List.mem_map.mp hstranding
  -- Between code on both sides nothing is stranded ...
  have huplace : p < u.start ∧ u.stop ≤ q := by
    have hrun : ∀ k, (stranded source u).start ≤ k → k < (stranded source u).stop →
        Span.covers (Mark.removed source marks) k = true := by
      intro k hk hk'
      rw [Mark.removed, Span.covers_union]
      exact Span.covers_of_mem hstranding hk hk'
    have hplace := h.gap.span_inside hrun hpi hiq hin
    have hwidens := widens_stranded source u
    have hstart := hwidens.start_le
    have hstop := hwidens.le_stop
    omega
  have hune := (Span.canonical_union _).nonempty u hu
  rw [stranded_eq_self (h.not_opens huplace.1 (by omega))
    (h.not_closes (by omega) huplace.2)] at hin
  -- ... so the offset lies in a mark.
  have hmarked := Span.covers_of_mem hu hin.1 hin.2
  rw [Span.covers_union] at hmarked
  obtain ⟨wide, hwide, hiwide⟩ := Span.covers_iff.mp hmarked
  obtain ⟨mark, hmark, rfl⟩ := List.mem_map.mp hwide
  obtain ⟨c, hc, hcmark⟩ := h.comments mark hmark
  have hplace := h.gap.span_inside (fun _ => covers_mark hmark) hpi hiq hiwide
  have hwidens := widens_comment hcmark
  have hstart := hwidens.start_le
  have hstop := hwidens.le_stop
  have htwo := (Comment.standsIn_of_mem hc).start_add_two_le
  exact ⟨c, mark.span, ⟨hc, mark, hmark, hcmark⟩, by omega, by omega, hcmark, hiwide⟩

theorem exists_next (h : ClosedGap source marks p q) {c : Comment} (hc : c ∈ Comment.all source)
    (hpc : p < c.span.start) (hcq : c.span.stop < q)
    (hstart : blankStart source c.span.start = c.span.start) :
    ∃ d wide, Marked source marks d ∧ d.span.start = c.span.stop ∧ d.span.stop ≤ q ∧
      comment source d = some wide := by
  have htwo := (Comment.standsIn_of_mem hc).start_add_two_le
  obtain ⟨d, wide, hd, hpd, hdq, hdwide, hin⟩ :=
    h.exists_comment (i := c.span.stop) (by omega) hcq
  obtain ⟨-, hwstart, hwstop, hwide, -⟩ := h.embedded_ok hd.1 hpd hdq hdwide
  refine ⟨d, wide, hd, ?_, hdq, hdwide⟩
  rcases Comment.eq_or_apart hc hd.1 with rfl | hbehind | hbefore
  · rw [hwide hstart] at hin
    omega
  · omega
  · -- Only blanks stand between a comment and the end of its mark.
    have hblank := blankRun_blankStop source d.span.stop c.span.start hbefore (by omega)
    rw [(Comment.standsIn_of_mem hc).byte?_start] at hblank
    exact absurd hblank (by decide)

/-- A gap between two bytes that glue closes only over two comments end to end between
identifiers. -/
theorem two_comments (h : ClosedGap source marks p q) (hpq : p + 1 < q) {l r : UInt8}
    (hl : byte? source p = some l) (hr : byte? source q = some r) (hglues : glues l r = true) :
    isIdentifierByte l = true ∧ isIdentifierByte r = true ∧
      ∃ c d, Marked source marks c ∧ Marked source marks d ∧
        c.isMultiline = false ∧ d.isMultiline = false ∧
        c.span.start = p + 1 ∧ d.span.start = c.span.stop ∧ d.span.stop = q := by
  have hstop := blankStop_eq_self (not_blank_of_not_space h.gap.code_stop)
  obtain ⟨c, wide, hc, hpc, hcq, hcwide, hcin⟩ := h.exists_comment (i := p + 1) (by omega) hpq
  obtain ⟨hcone, hwstart, -, -, hctight⟩ := h.embedded_ok hc.1 hpc hcq hcwide
  have hcstart : c.span.start = p + 1 := by omega
  have hcblank := blankStart_eq_self hcstart (not_blank_of_not_space h.gap.code_start)
  -- The first comment is not alone, or it would stay.
  have hclt : c.span.stop < q := by
    by_contra hge
    have hcstop : c.span.stop = q := by omega
    have hnot := hctight hcblank (by rw [hcstop, hstop])
    rw [gluesAround_eq hcstart hl (by rw [hcstop, hr]), hglues] at hnot
    exact absurd hnot (by simp)
  obtain ⟨d, wide', hd, hdstart, hdq, hdwide⟩ := h.exists_next hc.1 hpc hclt hcblank
  have htwo := (Comment.standsIn_of_mem hc.1).start_add_two_le
  have hlast := slash_of_touch hc.1 hd.1 hdstart
  have hfirst := (Comment.standsIn_of_mem hd.1).byte?_start
  rw [hdstart] at hfirst
  have hdprev : d.span.start = c.span.stop - 1 + 1 := by omega
  have hdblank := blankStart_eq_self hdprev (by rw [hlast]; decide)
  obtain ⟨hdone, -, -, -, hdtight⟩ := h.embedded_ok hd.1 (by omega) hdq hdwide
  -- A third comment would leave the second one between two slashes.
  have hdstop : d.span.stop = q := by
    by_contra hne
    obtain ⟨e, wide'', he, hestart, -, -⟩ := h.exists_next hd.1 (by omega) (by omega) hdblank
    have hnext := (Comment.standsIn_of_mem he.1).byte?_start
    rw [hestart] at hnext
    have hnot := hdtight hdblank (blankStop_eq_self (by rw [hnext]; decide))
    rw [gluesAround_eq hdprev hlast hnext, glues_slash_right, isOperatorByte_slash] at hnot
    exact absurd hnot (by simp)
  have hnot := hctight hcblank (blankStop_eq_self (by rw [hfirst]; decide))
  rw [gluesAround_eq hcstart hl hfirst, glues_slash_right] at hnot
  rcases glues_iff.mp hglues with ⟨hl', hr'⟩ | ⟨hl', -⟩
  · exact ⟨hl', hr', c, d, hc, hd, hcone, hdone, hcstart, hdstart, hdstop⟩
  · rw [hnot] at hl'
    exact absurd hl' (by simp)

end ClosedGap

/-! ## Two comments end to end -/

section

variable {source : String} {p q : Nat} {l r : UInt8} {c d : Comment}

theorem comment_eq_span_of_two (hc : c ∈ Comment.all source) (hd : d ∈ Comment.all source)
    (hl : byte? source p = some l) (hr : byte? source q = some r)
    (hl' : isIdentifierByte l = true) (hr' : isIdentifierByte r = true)
    (hcone : c.isMultiline = false) (hdone : d.isMultiline = false)
    (hcstart : c.span.start = p + 1) (hdstart : d.span.start = c.span.stop)
    (hdstop : d.span.stop = q) :
    comment source c = some c.span ∧ comment source d = some d.span := by
  have htwo := (Comment.standsIn_of_mem hc).start_add_two_le
  have hlast := slash_of_touch hc hd hdstart
  have hfirst := (Comment.standsIn_of_mem hd).byte?_start
  rw [hdstart] at hfirst
  have hdprev : d.span.start = c.span.stop - 1 + 1 := by omega
  rw [← hdstop] at hr
  constructor
  · refine comment_eq_span hcstart hl hfirst (not_space_of_identifier hl') (by decide) hcone ?_
    rw [glues_slash_right]
    exact not_operator_of_identifier hl'
  · refine comment_eq_span hdprev hlast hr (by decide) (not_space_of_identifier hr') hdone ?_
    rw [glues_slash_left]
    exact not_operator_of_identifier hr'

theorem closedGap_of_two {marks : List Mark} (hmarks : OfComments source marks)
    (hc : Marked source marks c) (hd : Marked source marks d)
    (hl : byte? source p = some l) (hr : byte? source q = some r)
    (hl' : isIdentifierByte l = true) (hr' : isIdentifierByte r = true)
    (hcstart : c.span.start = p + 1) (hdstart : d.span.start = c.span.stop)
    (hdstop : d.span.stop = q) : ClosedGap source marks p q := by
  have hctwo := (Comment.standsIn_of_mem hc.1).start_add_two_le
  have hdtwo := (Comment.standsIn_of_mem hd.1).start_add_two_le
  have hpcode : (byte? source p).any isSpace = false := by
    rw [hl]
    exact not_space_of_identifier hl'
  have hqcode : (byte? source q).any isSpace = false := by
    rw [hr]
    exact not_space_of_identifier hr'
  have hclosed : ∀ i, p < i → i < q → Span.covers (Mark.removed source marks) i = true := by
    intro i hpi hiq
    by_cases hi : i < c.span.stop
    · exact hc.covers (by omega) hi
    · exact hd.covers (by omega) (by omega)
  refine ⟨⟨by omega, lt_size_of_byte? hr, hpcode, hqcode, ?_, ?_, ?_⟩, hmarks, hclosed⟩
  · -- A comment around the first identifier would end with it, not with a slash.
    refine Bool.eq_false_iff.mpr fun hcovers => ?_
    obtain ⟨e, he, hein⟩ := exists_marked_of_code hmarks hpcode hcovers
    rcases Comment.eq_or_apart he.1 hc.1 with rfl | hbefore | hbehind
    · omega
    · have hlast := slash_of_touch he.1 hc.1 (by omega)
      rw [show e.span.stop - 1 = p by omega, hl, Option.some_inj] at hlast
      rw [hlast] at hl'
      exact absurd hl' (by decide)
    · omega
  · refine Bool.eq_false_iff.mpr fun hcovers => ?_
    obtain ⟨e, he, hein⟩ := exists_marked_of_code hmarks hqcode hcovers
    rcases Comment.eq_or_apart hd.1 he.1 with rfl | hbehind | hbefore
    · omega
    · have hfirst := (Comment.standsIn_of_mem he.1).byte?_start
      rw [show e.span.start = q by omega, hr, Option.some_inj] at hfirst
      rw [hfirst] at hr'
      exact absurd hr' (by decide)
    · omega
  · intro i hpi hiq hkept
    rw [hclosed i hpi hiq] at hkept
    exact absurd hkept (by simp)

end

end JsPrune.Padding
