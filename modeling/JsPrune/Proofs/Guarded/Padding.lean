import JsPrune.Proofs.Padding.Widening
/-!
# Padding that asks before it reads

Here every byte, every difference of offsets and every part of a text is asked for, and what cannot
be had ends the whole computation: a byte behind the end, an offset below zero, a part that starts
behind its end or inside a character.  Beside a span of the text nothing of this happens, and the
padding is the one that takes everything for granted.
-/

namespace JsPrune

namespace Guarded

open Text

def sub (i j : Nat) : Option Nat := if j ≤ i then some (i - j) else none

def blankStart (s : String) : Nat → Option Nat
  | 0 => some 0
  | i + 1 => do
    let b ← byte? s i
    if isBlank b then blankStart s i else some (i + 1)

def skipBlanks (s : String) : Nat → Nat → Option Nat
  | 0, i => some i
  | n + 1, i => do
    let b ← byte? s i
    if isBlank b then skipBlanks s n (i + 1) else some i

def blankStop (s : String) (i : Nat) : Option Nat :=
  skipBlanks s (s.utf8ByteSize - i) i

def startsLine (s : String) : Nat → Option Bool
  | 0 => some true
  | i + 1 => do
    let b ← byte? s i
    some (isLineBreak b)

def endsLine (s : String) (i : Nat) : Option Bool :=
  if i = s.utf8ByteSize then some true
  else do
    let b ← byte? s i
    some (isLineBreak b)

def margin (source : String) (span : Span) : Option Margin := do
  let start ← blankStart source span.start
  let stop ← blankStop source span.stop
  let opensLine ← startsLine source start
  let closesLine ← endsLine source stop
  some ⟨start, stop, opensLine, closesLine⟩

def withSemicolon (source : String) (span : Span) : Option Span := do
  let last ← sub span.stop 1
  let b ← byte? source last
  if b == ';'.toNat.toUInt8 then some span
  else
    let next ← blankStop source span.stop
    if byte? source next == some ';'.toNat.toUInt8 then some ⟨span.start, next + 1⟩ else some span

def line (source : String) (span : Span) : Option Span := do
  let margin ← margin source span
  match margin.opensLine, margin.closesLine with
  | true, true => some (margin.wholeLine source)
  | false, true => some ⟨margin.start, span.stop⟩
  | _, false => some ⟨span.start, margin.stop⟩

def construct (source : String) (span : Span) (kind : Construct) (placement : Placement) :
    Option Span :=
  if Padding.isFullStatement kind placement then do
    let span ← withSemicolon source span
    line source span
  else some span

/-- Whether the bytes beside a span belong to one token, asked only where the span has no blank
beside it. -/
def gluesAround (source : String) (span : Span) (tight : Bool) : Option Bool :=
  if tight then do
    let before ← sub span.start 1
    let left ← byte? source before
    let right ← byte? source span.stop
    some (Padding.glues left right)
  else some false

/-- What goes with a comment between code on both sides; the inner `none` is a comment that stays. -/
def embedded (source : String) (comment : Comment) (margin : Margin) : Option (Option Span) :=
  let span := comment.span
  if comment.isMultiline then some none
  else do
    let glues ← gluesAround source span (margin.start == span.start && margin.stop == span.stop)
    if glues then some none
    else if margin.start < span.start && span.stop < margin.stop then
      some (some ⟨span.start, margin.stop⟩)
    else some (some span)

def comment (source : String) (comment : Comment) : Option (Option Span) := do
  let margin ← margin source comment.span
  match margin.opensLine, margin.closesLine with
  | true, true => some (some (margin.wholeLine source))
  | false, true => some (some ⟨margin.start, comment.span.stop⟩)
  | true, false => some (some ⟨comment.span.start, margin.stop⟩)
  | false, false => embedded source comment margin

def stranded (source : String) (span : Span) : Option Span :=
  if span.isEmpty then some span
  else do
    let last ← sub span.stop 1
    let b ← byte? source last
    if isLineBreak b then some span
    else
      let margin ← margin source span
      match margin.opensLine, margin.closesLine with
      | true, true => some (margin.wholeLine source)
      | false, true => some ⟨margin.start, margin.stop⟩
      | true, false => some ⟨span.start, margin.stop⟩
      | false, false => some span

/-! ## Reads that succeed -/

theorem sub_eq {i j : Nat} (h : j ≤ i) : sub i j = some (i - j) := if_pos h

theorem slice?_eq {s : String} {start stop : Nat} (hle : start ≤ stop)
    (hstart : isBoundary s start = true) (hstop : isBoundary s stop = true) :
    slice? s start stop = some (slice s start stop) :=
  if_pos ⟨hle, hstart, hstop⟩

theorem slice?_part {s : String} {before part after : List Char}
    (hs : s.toList = before ++ (part ++ after)) :
    slice? s (String.utf8Len before) (String.utf8Len before + String.utf8Len part) =
      some (String.ofList part) := by
  have hs' : s.toList = before ++ part ++ after := by rw [hs, List.append_assoc]
  have hstop := isBoundary_utf8Len hs'
  rw [String.utf8Len_append] at hstop
  rw [slice?_eq (Nat.le_add_right _ _) (isBoundary_utf8Len hs) hstop, Text.slice_eq hs']

theorem exists_byte? {s : String} {i : Nat} (h : i < s.utf8ByteSize) : ∃ b, byte? s i = some b :=
  Option.isSome_iff_exists.mp (by
    rw [Option.isSome_iff_ne_none, ne_eq, byte?_eq_none_iff]
    omega)

theorem blankStart_eq {s : String} {i : Nat} (hi : i ≤ s.utf8ByteSize) :
    blankStart s i = some (Text.blankStart s i) := by
  induction i with
  | zero => rfl
  | succ i ih =>
      obtain ⟨b, hb⟩ := exists_byte? (show i < s.utf8ByteSize by omega)
      rw [blankStart, Text.blankStart, hb, ih (by omega), Option.bind_eq_bind, Option.bind_some,
        Option.any_some]
      split <;> rfl

theorem skipBlanks_eq {s : String} {n i : Nat} (hn : i + n ≤ s.utf8ByteSize) :
    skipBlanks s n i = some (Text.skipBlanks s n i) := by
  induction n generalizing i with
  | zero => rfl
  | succ n ih =>
      obtain ⟨b, hb⟩ := exists_byte? (show i < s.utf8ByteSize by omega)
      rw [skipBlanks, Text.skipBlanks, hb, ih (by omega), Option.bind_eq_bind, Option.bind_some,
        Option.any_some]
      split <;> rfl

theorem blankStop_eq {s : String} {i : Nat} (hi : i ≤ s.utf8ByteSize) :
    blankStop s i = some (Text.blankStop s i) :=
  skipBlanks_eq (by omega)

theorem startsLine_eq {s : String} {i : Nat} (hi : i ≤ s.utf8ByteSize) :
    startsLine s i = some (Text.startsLine s i) := by
  cases i with
  | zero => rfl
  | succ i =>
      obtain ⟨b, hb⟩ := exists_byte? (show i < s.utf8ByteSize by omega)
      simp [startsLine, Text.startsLine, hb]

theorem endsLine_eq {s : String} {i : Nat} (hi : i ≤ s.utf8ByteSize) :
    endsLine s i = some (Text.endsLine s i) := by
  unfold endsLine Text.endsLine
  split
  · next hend => rw [byte?_eq_none_iff.mpr (Nat.le_of_eq hend.symm)]; rfl
  · next hend =>
      obtain ⟨b, hb⟩ := exists_byte? (Nat.lt_of_le_of_ne hi hend)
      rw [hb]
      rfl

/-! ## Paddings beside a span of the text -/

variable {source : String} {span : Span}

theorem blankStop_le {i : Nat} (hi : i ≤ source.utf8ByteSize) :
    Text.blankStop source i ≤ source.utf8ByteSize := by
  rcases Nat.eq_or_lt_of_le (le_blankStop source i) with heq | hlt
  · omega
  · -- The last byte of the run is a byte of the text.
    obtain ⟨b, hb, -⟩ := (Option.any_eq_true _ _).mp
      (blankRun_blankStop source i (Text.blankStop source i - 1) (by omega) (by omega))
    have := lt_size_of_byte? hb
    omega

theorem margin_eq (hle : span.start ≤ span.stop) (hstop : span.stop ≤ source.utf8ByteSize) :
    margin source span = some (Margin.ofSpan source span) := by
  have hbefore := blankStart_le source span.start
  rw [margin, blankStart_eq (by omega), blankStop_eq hstop]
  simp only [Option.bind_eq_bind, Option.bind_some]
  rw [startsLine_eq (by omega), endsLine_eq (blankStop_le hstop)]
  rfl

theorem withSemicolon_eq (hlt : span.start < span.stop) (hstop : span.stop ≤ source.utf8ByteSize) :
    withSemicolon source span = some (Padding.withSemicolon source span) := by
  obtain ⟨b, hb⟩ := exists_byte? (show span.stop - 1 < source.utf8ByteSize by omega)
  simp only [withSemicolon, Padding.withSemicolon, sub_eq (show 1 ≤ span.stop by omega), hb,
    blankStop_eq hstop, Option.bind_eq_bind, Option.bind_some, Option.some_beq_some]
  split_ifs <;> rfl

theorem withSemicolon_inside (hlt : span.start < span.stop) (hstop : span.stop ≤ source.utf8ByteSize) :
    (Padding.withSemicolon source span).start < (Padding.withSemicolon source span).stop ∧
      (Padding.withSemicolon source span).stop ≤ source.utf8ByteSize := by
  unfold Padding.withSemicolon
  dsimp only
  split_ifs with hown hnext
  · exact ⟨hlt, hstop⟩
  · have hbehind := le_blankStop source span.stop
    have hinside := lt_size_of_byte? (beq_iff_eq.mp hnext)
    exact ⟨by dsimp only; omega, hinside⟩
  · exact ⟨hlt, hstop⟩

theorem line_eq (hle : span.start ≤ span.stop) (hstop : span.stop ≤ source.utf8ByteSize) :
    line source span = some (Padding.line source span) := by
  rw [line, margin_eq hle hstop, Padding.line, Option.bind_eq_bind, Option.bind_some]
  generalize Margin.ofSpan source span = margin
  obtain ⟨start, stop, _ | _, _ | _⟩ := margin <;> rfl

theorem construct_eq (hlt : span.start < span.stop) (hstop : span.stop ≤ source.utf8ByteSize)
    (kind : Construct) (placement : Placement) :
    construct source span kind placement =
      some (Padding.construct source span kind placement) := by
  obtain ⟨hlt', hstop'⟩ := withSemicolon_inside hlt hstop
  unfold construct Padding.construct
  split
  · rw [withSemicolon_eq hlt hstop, Option.bind_eq_bind, Option.bind_some,
      line_eq (Nat.le_of_lt hlt') hstop']
  · rfl

theorem stranded_eq (hle : span.start ≤ span.stop) (hstop : span.stop ≤ source.utf8ByteSize) :
    stranded source span = some (Padding.stranded source span) := by
  unfold stranded Padding.stranded
  by_cases hempty : span.isEmpty = true
  · simp only [hempty, Bool.true_or, if_true]
  · have hlt : span.start < span.stop := by simpa [Span.isEmpty] using hempty
    obtain ⟨b, hb⟩ := exists_byte? (show span.stop - 1 < source.utf8ByteSize by omega)
    simp only [hempty, Bool.false_or, Bool.false_eq_true, if_false, Option.bind_eq_bind,
      Option.bind_some, sub_eq (show 1 ≤ span.stop by omega), hb, margin_eq hle hstop,
      Option.any_some]
    split_ifs
    · rfl
    · generalize Margin.ofSpan source span = margin
      obtain ⟨start, stop, _ | _, _ | _⟩ := margin <;> rfl

/-- Between code on both sides a byte stands before the comment and another behind it. -/
theorem gluesAround_eq (hle : span.start ≤ span.stop) (hstop : span.stop ≤ source.utf8ByteSize)
    (hopens : (Margin.ofSpan source span).opensLine = false)
    (hcloses : (Margin.ofSpan source span).closesLine = false) :
    gluesAround source span ((Margin.ofSpan source span).start == span.start &&
        (Margin.ofSpan source span).stop == span.stop) =
      some ((Margin.ofSpan source span).start == span.start &&
        (Margin.ofSpan source span).stop == span.stop && Padding.gluesAround source span) := by
  cases htight : ((Margin.ofSpan source span).start == span.start &&
      (Margin.ofSpan source span).stop == span.stop) with
  | false => rfl
  | true =>
      rw [Bool.and_eq_true, beq_iff_eq, beq_iff_eq] at htight
      have hstart : 1 ≤ span.start := by
        rcases Nat.eq_zero_or_pos span.start with hzero | hpos
        · have : Text.startsLine source (Margin.ofSpan source span).start = false := hopens
          rw [htight.1, hzero] at this
          exact absurd this (by simp [Text.startsLine])
        · exact hpos
      have hbehind : span.stop < source.utf8ByteSize := by
        by_contra hend
        have : Text.endsLine source (Margin.ofSpan source span).stop = false := hcloses
        rw [htight.2, Text.endsLine, byte?_eq_none_iff.mpr (by omega)] at this
        exact absurd this (by simp)
      obtain ⟨left, hleft⟩ := exists_byte? (show span.start - 1 < source.utf8ByteSize by omega)
      obtain ⟨right, hright⟩ := exists_byte? hbehind
      simp only [gluesAround, Padding.gluesAround, if_true, sub_eq hstart, hleft, hright,
        Option.bind_eq_bind, Option.bind_some, Bool.true_and]

theorem comment_eq {c : Comment} (hle : c.span.start ≤ c.span.stop)
    (hstop : c.span.stop ≤ source.utf8ByteSize) :
    comment source c = some (Padding.comment source c) := by
  rw [comment, margin_eq hle hstop, Padding.comment, Option.bind_eq_bind, Option.bind_some]
  cases hopens : (Margin.ofSpan source c.span).opensLine with
  | true => cases (Margin.ofSpan source c.span).closesLine <;> rfl
  | false =>
      cases hcloses : (Margin.ofSpan source c.span).closesLine with
      | true => rfl
      | false =>
          simp only [embedded, Padding.embedded, gluesAround_eq hle hstop hopens hcloses,
            Option.bind_eq_bind, Option.bind_some]
          split_ifs <;> rfl

end Guarded

end JsPrune
