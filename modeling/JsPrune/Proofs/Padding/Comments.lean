import JsPrune.Proofs.Comment.Placement
import JsPrune.Proofs.Padding.Widening
/-!
# Marks of comments

A comment that is marked over more than one line stands at the start of its line or at the end of it.
Apart from the line breaks inside such comments, a line break is removed only together with
everything back to a comment that stands at the start of its line.
-/

namespace JsPrune.Padding

open Text

def opens (source : String) (i : Nat) : Bool := startsLine source (blankStart source i)

def closes (source : String) (i : Nat) : Bool := endsLine source (blankStop source i)

theorem blankStart_blankStart (source : String) (i : Nat) :
    blankStart source (blankStart source i) = blankStart source i :=
  (blankStart_eq_of_run (blankStart_le source i) (blankRun_blankStart source i)).symm

theorem blankStop_blankStop (source : String) (i : Nat) :
    blankStop source (blankStop source i) = blankStop source i :=
  blankStop_eq (Nat.le_refl _) (fun k hk hlt => by omega) (not_blank_blankStop source i)

theorem opens_blankStart (source : String) (i : Nat) :
    opens source (blankStart source i) = opens source i := by
  rw [opens, opens, blankStart_blankStart]

theorem closes_blankStop (source : String) (i : Nat) :
    closes source (blankStop source i) = closes source i := by
  rw [closes, closes, blankStop_blankStop]

/-! ## Lines between two bytes of code -/

theorem not_blank_of_not_space {source : String} {i : Nat}
    (h : (byte? source i).any isSpace = false) : ¬ (byte? source i).any isBlank = true := by
  intro hblank
  rw [any_isSpace_of_blank hblank] at h
  exact absurd h (by simp)

theorem not_break_of_not_space {source : String} {i : Nat}
    (h : (byte? source i).any isSpace = false) : ¬ (byte? source i).any isLineBreak = true := by
  intro hbreak
  rw [any_isSpace_of_break hbreak] at h
  exact absurd h (by simp)

theorem not_blank_of_break {source : String} {i : Nat}
    (h : (byte? source i).any isLineBreak = true) : ¬ (byte? source i).any isBlank = true := by
  intro hblank
  rw [not_break_of_blank hblank] at h
  exact absurd h (by simp)

theorem break_of_opens {source : String} {p i : Nat}
    (hp : (byte? source p).any isSpace = false) (hpi : p < i) (h : opens source i = true) :
    ∃ k, p < k ∧ k < i ∧ (byte? source k).any isLineBreak = true := by
  have hle := blankStart_le source i
  have hlt : p < blankStart source i := by
    by_contra hge
    exact not_blank_of_not_space hp (blankRun_blankStart source i p (by omega) hpi)
  rcases startsLine_iff.mp h with hzero | ⟨j, hj, hbreak⟩
  · omega
  · refine ⟨j, ?_, by omega, hbreak⟩
    have hne : j ≠ p := by
      rintro rfl
      exact not_break_of_not_space hp hbreak
    omega

theorem break_of_closes {source : String} {q i : Nat} (hlt : q < source.utf8ByteSize)
    (hq : (byte? source q).any isSpace = false) (hiq : i ≤ q) (h : closes source i = true) :
    i ≤ blankStop source i ∧ blankStop source i < q ∧
      (byte? source (blankStop source i)).any isLineBreak = true := by
  have hle : blankStop source i ≤ q := by
    by_contra hgt
    exact not_blank_of_not_space hq (blankRun_blankStop source i q hiq (by omega))
  rcases endsLine_iff.mp h with hsize | hbreak
  · omega
  · have hne : blankStop source i ≠ q := by
      intro heq
      rw [heq] at hbreak
      exact not_break_of_not_space hq hbreak
    exact ⟨le_blankStop source i, by omega, hbreak⟩

theorem not_space_iff {source : String} {i : Nat} :
    (byte? source i).any isSpace = false ↔
      (byte? source i).any isBlank = false ∧ (byte? source i).any isLineBreak = false := by
  cases byte? source i with
  | none => simp
  | some b => simp [isSpace]

theorem exists_code_of_not_opens {source : String} {i : Nat} (h : opens source i = false) :
    ∃ p, p + 1 = blankStart source i ∧ (byte? source p).any isSpace = false := by
  have hstart : ¬ startsLine source (blankStart source i) = true := by
    rw [Bool.not_eq_true]
    exact h
  rw [startsLine_iff, not_or] at hstart
  obtain ⟨p, hp⟩ := Nat.exists_eq_succ_of_ne_zero hstart.1
  refine ⟨p, hp.symm, not_space_iff.mpr ⟨not_blank_before_blankStart hp.symm, ?_⟩⟩
  apply Bool.eq_false_iff.mpr
  intro hbreak
  exact hstart.2 ⟨p, hp.symm, hbreak⟩

theorem code_of_not_closes {source : String} {i : Nat} (h : closes source i = false) :
    blankStop source i < source.utf8ByteSize ∧
      (byte? source (blankStop source i)).any isSpace = false := by
  have hstop : ¬ endsLine source (blankStop source i) = true := by
    rw [Bool.not_eq_true]
    exact h
  rw [endsLine_iff, not_or, Bool.not_eq_true] at hstop
  exact ⟨by omega, not_space_iff.mpr ⟨not_blank_blankStop source i, hstop.2⟩⟩

theorem not_closes_of_run {source : String} {q i : Nat} (hlt : q < source.utf8ByteSize)
    (hq : (byte? source q).any isSpace = false) (hiq : i ≤ q) (hrun : BlankRun source i q) :
    closes source i = false := by
  apply Bool.eq_false_iff.mpr
  intro hcloses
  obtain ⟨hk, hkq, hbreak⟩ := break_of_closes hlt hq hiq hcloses
  exact not_blank_of_break hbreak (hrun _ hk hkq)

/-! ## One comment -/

/-- The marks that a comment can have.  In the last case code stands on both sides. -/
inductive HasMark (source : String) (c : Comment) (wide : Span) : Prop
  | wholeLine (hopens : opens source c.span.start = true)
      (hcloses : closes source c.span.stop = true)
      (hwide : wide = ⟨blankStart source c.span.start,
        blankStop source c.span.stop + breakLength source (blankStop source c.span.stop)⟩)
  | lineEnd (hopens : opens source c.span.start = false)
      (hcloses : closes source c.span.stop = true)
      (hwide : wide = ⟨blankStart source c.span.start, c.span.stop⟩)
  | lineStart (hopens : opens source c.span.start = true)
      (hcloses : closes source c.span.stop = false)
      (hwide : wide = ⟨c.span.start, blankStop source c.span.stop⟩)
  | embedded (hopens : opens source c.span.start = false)
      (hcloses : closes source c.span.stop = false) (hone : c.isMultiline = false)
      (hapart : blankStart source c.span.start = c.span.start →
        blankStop source c.span.stop = c.span.stop → gluesAround source c.span = false)
      (hwide : wide = ⟨c.span.start,
        if blankStart source c.span.start < c.span.start ∧
            c.span.stop < blankStop source c.span.stop then
          blankStop source c.span.stop
        else c.span.stop⟩)

theorem margin_ofSpan (source : String) (span : Span) :
    Margin.ofSpan source span = ⟨blankStart source span.start, blankStop source span.stop,
      opens source span.start, closes source span.stop⟩ := rfl

/-- A comment between code on both sides has the padding of an embedded comment. -/
theorem comment_eq_embedded {source : String} {c : Comment}
    (hopens : opens source c.span.start = false) (hcloses : closes source c.span.stop = false) :
    comment source c = embedded source c (Margin.ofSpan source c.span) := by
  unfold comment
  rw [margin_ofSpan, hopens, hcloses]

theorem hasMark_of_comment {source : String} {c : Comment} {wide : Span}
    (h : comment source c = some wide) : HasMark source c wide := by
  unfold comment at h
  rw [margin_ofSpan] at h
  cases hopens : opens source c.span.start with
  | true =>
      cases hcloses : closes source c.span.stop with
      | true =>
          rw [hopens, hcloses] at h
          exact .wholeLine hopens hcloses (Option.some.inj h).symm
      | false =>
          rw [hopens, hcloses] at h
          exact .lineStart hopens hcloses (Option.some.inj h).symm
  | false =>
      cases hcloses : closes source c.span.stop with
      | true =>
          rw [hopens, hcloses] at h
          exact .lineEnd hopens hcloses (Option.some.inj h).symm
      | false =>
          rw [hopens, hcloses] at h
          unfold embedded at h
          dsimp only at h
          split_ifs at h with hmulti htight hboth
          · rw [Bool.and_eq_true, decide_eq_true_eq, decide_eq_true_eq] at hboth
            refine .embedded hopens hcloses (Bool.eq_false_iff.mpr hmulti) ?_ ?_
            · intro hstart
              omega
            · rw [if_pos hboth]
              exact (Option.some.inj h).symm
          · rw [Bool.and_eq_true, decide_eq_true_eq, decide_eq_true_eq] at hboth
            refine .embedded hopens hcloses (Bool.eq_false_iff.mpr hmulti) ?_ ?_
            · intro hstart hstop
              simpa [hstart, hstop] using htight
            · rw [if_neg hboth]
              exact (Option.some.inj h).symm

theorem start_of_comment {source : String} {c : Comment} {wide : Span}
    (h : comment source c = some wide) :
    wide.start = c.span.start ∨ wide.start = blankStart source c.span.start := by
  cases hasMark_of_comment h with
  | wholeLine _ _ hwide => exact Or.inr (by rw [hwide])
  | lineEnd _ _ hwide => exact Or.inr (by rw [hwide])
  | lineStart _ _ hwide => exact Or.inl (by rw [hwide])
  | embedded _ _ _ _ hwide => exact Or.inl (by rw [hwide])

theorem opens_start_of_comment {source : String} {c : Comment} {wide : Span}
    (h : comment source c = some wide) : opens source wide.start = opens source c.span.start := by
  rcases start_of_comment h with hstart | hstart
  · rw [hstart]
  · rw [hstart, opens_blankStart]

theorem opens_or_closes {source : String} {c : Comment} {wide : Span}
    (h : comment source c = some wide) (hmulti : c.isMultiline = true) :
    opens source c.span.start = true ∨ closes source c.span.stop = true := by
  cases hasMark_of_comment h with
  | wholeLine hopens _ _ => exact Or.inl hopens
  | lineEnd _ hcloses _ => exact Or.inr hcloses
  | lineStart hopens _ _ => exact Or.inl hopens
  | embedded _ _ hone _ _ =>
      rw [hmulti] at hone
      exact absurd hone (by simp)

theorem stop_of_comment {source : String} {c : Comment} {wide : Span}
    (h : comment source c = some wide)
    (hcode : opens source c.span.start = false ∨ closes source c.span.stop = false) :
    wide.stop ≤ blankStop source c.span.stop := by
  have hle := le_blankStop source c.span.stop
  cases hasMark_of_comment h with
  | wholeLine hopens hcloses _ =>
      rw [hopens, hcloses] at hcode
      exact absurd hcode (by simp)
  | lineEnd _ _ hwide =>
      rw [hwide]
      exact hle
  | lineStart _ _ hwide =>
      rw [hwide]
  | embedded _ _ _ _ hwide =>
      rw [hwide]
      dsimp only
      split
      · exact Nat.le_refl _
      · exact hle

/-- A line break in the mark of a comment is inside the comment, or behind one that has its lines for
itself. -/
theorem break_of_comment {source : String} {c : Comment} {wide : Span}
    (h : comment source c = some wide) {i : Nat} (hi : wide.start ≤ i ∧ i < wide.stop)
    (hbreak : (byte? source i).any isLineBreak = true) :
    c.span.start ≤ i ∧ (i < c.span.stop ∨
      opens source c.span.start = true ∧ closes source c.span.stop = true) := by
  have hblank := not_blank_of_break hbreak
  constructor
  · by_contra hlt
    refine hblank (blankRun_blankStart source c.span.start i ?_ (by omega))
    have hle := blankStart_le source c.span.start
    rcases start_of_comment h with heq | heq <;> omega
  · by_contra hneither
    rw [not_or, not_and_or, Bool.not_eq_true, Bool.not_eq_true] at hneither
    have hstop := stop_of_comment h hneither.2
    exact hblank (blankRun_blankStop source c.span.stop i (by omega) (by omega))

theorem start_of_stranded (source : String) (span : Span) :
    (stranded source span).start = span.start ∨
      (stranded source span).start = blankStart source span.start := by
  unfold stranded
  dsimp only
  split
  · exact Or.inl rfl
  · split
    · exact Or.inr rfl
    · exact Or.inr rfl
    · exact Or.inl rfl
    · exact Or.inl rfl

theorem stop_of_stranded {source : String} {span : Span}
    (hopens : opens source span.start = false) :
    (stranded source span).stop ≤ blankStop source span.stop := by
  have hle := le_blankStop source span.stop
  unfold stranded
  rw [margin_ofSpan, hopens]
  split
  · exact hle
  · cases closes source span.stop with
    | true => exact Nat.le_refl _
    | false => exact hle

theorem break_of_stranded {source : String} {span : Span} {i : Nat}
    (hi : (stranded source span).start ≤ i ∧ i < (stranded source span).stop)
    (hbreak : (byte? source i).any isLineBreak = true) :
    (span.start ≤ i ∧ i < span.stop) ∨
      span.start < span.stop ∧ span.stop ≤ i ∧ opens source span.start = true := by
  have hblank := not_blank_of_break hbreak
  have hstart : span.start ≤ i := by
    by_contra hlt
    refine hblank (blankRun_blankStart source span.start i ?_ (by omega))
    have hle := blankStart_le source span.start
    rcases start_of_stranded source span with heq | heq <;> omega
  by_cases hin : i < span.stop
  · exact Or.inl ⟨hstart, hin⟩
  right
  have hne : span.isEmpty = false := by
    by_contra hempty
    rw [Bool.not_eq_false] at hempty
    rw [stranded, hempty, Bool.true_or, if_pos rfl] at hi
    omega
  refine ⟨Span.isEmpty_eq_false_iff.mp hne, by omega, ?_⟩
  by_contra hopens
  have hstop := stop_of_stranded (Bool.not_eq_true _ ▸ hopens)
  exact hblank (blankRun_blankStop source span.stop i (by omega) (by omega))

theorem stranded_eq_self {source : String} {span : Span} (hopens : opens source span.start = false)
    (hcloses : closes source span.stop = false) : stranded source span = span := by
  unfold stranded
  rw [margin_ofSpan, hopens, hcloses, ite_self]

/-- The mark of a comment reaches no other comment. -/
theorem eq_of_reaches {source : String} {c d : Comment} {wide : Span}
    (hc : c ∈ Comment.all source) (hd : d ∈ Comment.all source)
    (hwide : comment source c = some wide)
    (h : wide.start ≤ d.span.start ∧ d.span.start < wide.stop) : c = d := by
  have htwo := (Comment.standsIn_of_mem hd).start_add_two_le
  rcases Comment.eq_or_apart hc hd with heq | hapart
  · exact heq
  · -- The slash of the one would be a space of the other one's mark.
    have hspace := (widens_comment hwide).space d.span.start h.1 h.2 (by omega)
    rw [(Comment.standsIn_of_mem hd).byte?_start] at hspace
    exact absurd hspace (by decide)

theorem eq_of_comment_eq {source : String} {c d : Comment} {wide : Span}
    (hc : c ∈ Comment.all source) (hd : d ∈ Comment.all source)
    (hcwide : comment source c = some wide) (hdwide : comment source d = some wide) : c = d := by
  have hdwidens := widens_comment hdwide
  have hstop := hdwidens.le_stop
  have htwo := (Comment.standsIn_of_mem hd).start_add_two_le
  exact eq_of_reaches hc hd hcwide ⟨hdwidens.start_le, by omega⟩

/-! ## Marks of comments -/

def OfComments (source : String) (marks : List Mark) : Prop :=
  ∀ mark ∈ marks, ∃ c ∈ Comment.all source, comment source c = some mark.span

def Marked (source : String) (marks : List Mark) (c : Comment) : Prop :=
  c ∈ Comment.all source ∧ ∃ mark ∈ marks, comment source c = some mark.span

section

variable {source : String} {marks : List Mark}

theorem covers_mark {mark : Mark} (hmark : mark ∈ marks) {i : Nat} (hstart : mark.span.start ≤ i)
    (hstop : i < mark.span.stop) : Span.covers (Mark.removed source marks) i = true :=
  (covering_removed source marks).covers i
    (Span.covers_of_mem (List.mem_map_of_mem hmark) hstart hstop)

theorem Marked.covers {c : Comment} (h : Marked source marks c) {i : Nat}
    (hstart : c.span.start ≤ i) (hstop : i < c.span.stop) :
    Span.covers (Mark.removed source marks) i = true := by
  obtain ⟨-, mark, hmark, hc⟩ := h
  have hwide := widens_comment hc
  exact covers_mark hmark (Nat.le_trans hwide.start_le hstart)
    (Nat.lt_of_lt_of_le hstop hwide.le_stop)

theorem exists_marked_of_code (hmarks : OfComments source marks) {i : Nat}
    (hcode : (byte? source i).any isSpace = false)
    (hcovers : Span.covers (Mark.removed source marks) i = true) :
    ∃ c, Marked source marks c ∧ c.span.start ≤ i ∧ i < c.span.stop := by
  have hmarked : Span.covers (marks.map Mark.span) i = true := by
    by_contra hout
    have hspace := (covering_removed source marks).space i hcovers (Bool.not_eq_true _ ▸ hout)
    rw [hcode] at hspace
    exact absurd hspace (by simp)
  obtain ⟨wide, hwide, hstart, hstop⟩ := Span.covers_iff.mp hmarked
  obtain ⟨mark, hmark, rfl⟩ := List.mem_map.mp hwide
  obtain ⟨c, hc, hcmark⟩ := hmarks mark hmark
  refine ⟨c, ⟨hc, mark, hmark, hcmark⟩, ?_⟩
  by_contra hout
  have hspace := (widens_comment hcmark).space i hstart hstop (by omega)
  rw [hcode] at hspace
  exact absurd hspace (by simp)

/-- A removed line break is inside a marked comment, or removed together with everything back to a
marked comment that opens its line. -/
theorem exists_marked_of_break (hmarks : OfComments source marks) {i : Nat}
    (hbreak : (byte? source i).any isLineBreak = true)
    (hcovers : Span.covers (Mark.removed source marks) i = true) :
    ∃ c, Marked source marks c ∧ c.span.start ≤ i ∧
      (∀ k, c.span.start ≤ k → k ≤ i → Span.covers (Mark.removed source marks) k = true) ∧
      (i < c.span.stop ∨ opens source c.span.start = true) := by
  have hremoved := hcovers
  rw [Mark.removed, Span.covers_union] at hremoved
  obtain ⟨wide, hwide, hin⟩ := Span.covers_iff.mp hremoved
  obtain ⟨u, hu, rfl⟩ := List.mem_map.mp hwide
  have hrun : ∀ k, u.start ≤ k → k ≤ i →
      Span.covers (Mark.removed source marks) k = true := by
    intro k hk hki
    rw [Mark.removed, Span.covers_union]
    have hstart := (widens_stranded source u).start_le
    exact Span.covers_of_mem hwide (by omega) (by omega)
  rcases break_of_stranded hin hbreak with hinside | ⟨hne, hbehind, hopens⟩
  · have hunion := Span.covers_of_mem hu hinside.1 hinside.2
    rw [Span.covers_union] at hunion
    obtain ⟨span, hspan, hspan'⟩ := Span.covers_iff.mp hunion
    obtain ⟨mark, hmark, rfl⟩ := List.mem_map.mp hspan
    obtain ⟨c, hc, hcmark⟩ := hmarks mark hmark
    obtain ⟨hstart, hor⟩ := break_of_comment hcmark hspan' hbreak
    refine ⟨c, ⟨hc, mark, hmark, hcmark⟩, hstart, fun k hk hki => ?_, hor.imp_right And.left⟩
    have hle := (widens_comment hcmark).start_le
    exact covers_mark hmark (by omega) (by omega)
  · -- The stranding span starts with the mark of a comment, which opens the same line.
    obtain ⟨span, hspan, hspanne, hstart⟩ := Span.start_of_mem_union hu
    have hinside := Span.contains_of_mem_union hu hspan (i := u.start) (by omega) (by omega)
    obtain ⟨mark, hmark, rfl⟩ := List.mem_map.mp hspan
    obtain ⟨c, hc, hcmark⟩ := hmarks mark hmark
    have hwide := widens_comment hcmark
    have hle := hwide.start_le
    have hle' := hwide.le_stop
    have htwo := (Comment.standsIn_of_mem hc).start_add_two_le
    rw [hstart, opens_start_of_comment hcmark] at hopens
    exact ⟨c, ⟨hc, mark, hmark, hcmark⟩, by omega, fun k hk hki => hrun k (by omega) hki,
      Or.inr hopens⟩

end

end JsPrune.Padding
