import JsPrune.Proofs.Guarded.Cut
import JsPrune.Proofs.Text.Position
import Mathlib.Data.List.Induction
/-!
# Source maps that ask before they read

The map of a cut reads the output inside its segments only, and a cursor takes its next part of the
text from one boundary to another one behind it.  So the map can always be had, and it is the one that
takes everything for granted.  Lines and columns are numbers without a bound here.
-/

namespace JsPrune.Guarded

open Text
open String (utf8Len)

/-! ## Segments and their anchors -/

def keptFrom (size : Nat) : Nat → Nat → List Span → Option (List Segment)
  | cursor, generated, [] =>
    if cursor < size then do
      let length ← sub size cursor
      some [⟨cursor, generated, length⟩]
    else some []
  | cursor, generated, r :: removed =>
    if cursor < r.start then do
      let length ← sub r.start cursor
      let later ← keptFrom size (max cursor r.stop) (generated + length) removed
      some (⟨cursor, generated, length⟩ :: later)
    else keptFrom size (max cursor r.stop) generated removed

def endsLineAt (output : String) (first i : Nat) : Option Bool := do
  let b ← byte? output i
  if b == 0x0A then
    if i == first && 0 < i then do
      let before ← sub i 1
      let previous ← byte? output before
      some (previous != 0x0D)
    else some true
  else if b == 0x0D then some (byte? output (i + 1) != some 0x0A)
  else some false

def anchor (output : String) (segment : Segment) (stop i : Nat) : Option (Option (Nat × Nat)) := do
  let ends ← endsLineAt output segment.generated i
  if ends && i + 1 < stop then do
    let further ← sub (i + 1) segment.generated
    some (some (i + 1, segment.original + further))
  else some none

def anchors (output : String) (segment : Segment) : Option (List (Nat × Nat)) := do
  let stop := min (segment.generated + segment.length) output.utf8ByteSize
  let lines ← (List.range' segment.generated (stop - segment.generated)).mapM
    (anchor output segment stop)
  some ((segment.generated, segment.original) :: lines.filterMap id)

/-! ## Cursors -/

structure Cursor where
  offset : Nat
  position : Position
  afterReturn : Bool
  deriving DecidableEq, Repr

namespace Cursor

def start : Cursor := ⟨0, .start, false⟩

def advance (cursor : Cursor) (c : Char) : Cursor :=
  ⟨cursor.offset, cursor.position.advance cursor.afterReturn c, c == '\r'⟩

end Cursor

def lastBoundary (s : String) : Nat → Option Nat
  | 0 => if isBoundary s 0 then some 0 else none
  | i + 1 => if isBoundary s (i + 1) then some (i + 1) else lastBoundary s i

def moveTo (text : String) (cursor : Cursor) (target : Nat) : Option Cursor := do
  let target ← lastBoundary text (min target text.utf8ByteSize)
  let origin := if target < cursor.offset then Cursor.start else cursor
  let part ← slice? text origin.offset target
  some { part.toList.foldl Cursor.advance origin with offset := target }

def positions (text : String) : Cursor → List Nat → Option (List Position)
  | _, [] => some []
  | cursor, target :: targets => do
    let here ← moveTo text cursor target
    let later ← positions text here targets
    some (here.position :: later)

def sourceMap (source output sourceName : String) (removed : List Span) : Option SourceMap := do
  let segments ← keptFrom source.utf8ByteSize 0 0 removed
  let pairs ← segments.mapM (anchors output)
  let generated ← positions output .start (pairs.flatten.map Prod.fst)
  let original ← positions source .start (pairs.flatten.map Prod.snd)
  some ⟨sourceName, SourceMap.sort (List.zipWith Mapping.mk generated original)⟩

/-! ## Segments are read inside the output -/

theorem keptFrom_eq (size cursor generated : Nat) (removed : List Span) :
    keptFrom size cursor generated removed =
      some (Segment.keptFrom size cursor generated removed) := by
  induction removed generalizing cursor generated with
  | nil =>
      rw [keptFrom, Segment.keptFrom]
      split
      · next hlt => rw [sub_eq (Nat.le_of_lt hlt)]; rfl
      · rfl
  | cons r removed ih =>
      rw [keptFrom, Segment.keptFrom]
      split
      · next hlt =>
          rw [sub_eq (Nat.le_of_lt hlt), Option.bind_eq_bind, Option.bind_some, ih]
          rfl
      · exact ih _ _

theorem endsLineAt_eq {output : String} {i : Nat} (hi : i < output.utf8ByteSize) (first : Nat) :
    endsLineAt output first i = some (Segment.endsLineAt output first i) := by
  obtain ⟨b, hb⟩ := exists_byte? hi
  rw [endsLineAt, Segment.endsLineAt, hb, Option.bind_eq_bind, Option.bind_some]
  by_cases hfeed : b = 0x0A
  · subst hfeed
    rw [if_pos (by decide)]
    by_cases hsplit : (i == first && decide (0 < i)) = true
    · have hpos : 0 < i := of_decide_eq_true (Bool.and_eq_true _ _ ▸ hsplit).2
      obtain ⟨previous, hprevious⟩ := exists_byte? (show i - 1 < output.utf8ByteSize by omega)
      rw [if_pos hsplit, sub_eq hpos, Option.bind_eq_bind, Option.bind_some, hprevious,
        Option.bind_some]
      simp [hsplit, bne]
    · rw [if_neg hsplit]
      simp [hsplit]
  rw [if_neg (by simpa using hfeed)]
  by_cases hreturn : b = 0x0D
  · subst hreturn
    rfl
  · rw [if_neg (by simpa using hreturn)]
    split
    · next h => exact absurd (Option.some.inj h) hfeed
    · next h => exact absurd (Option.some.inj h) hreturn
    · rfl

theorem anchors_eq (output : String) (segment : Segment) :
    anchors output segment = some (segment.anchors output) := by
  have hanchor : ∀ i ∈ List.range' segment.generated
      (min (segment.generated + segment.length) output.utf8ByteSize - segment.generated),
      anchor output segment (min (segment.generated + segment.length) output.utf8ByteSize) i =
        some (if Segment.endsLineAt output segment.generated i &&
            i + 1 < min (segment.generated + segment.length) output.utf8ByteSize then
          some (i + 1, segment.original + (i + 1 - segment.generated)) else none) := by
    intro i hi
    rw [List.mem_range'_1] at hi
    rw [anchor, endsLineAt_eq (by omega), Option.bind_eq_bind, Option.bind_some]
    split
    · rw [sub_eq (by omega), Option.bind_eq_bind, Option.bind_some]
    · rfl
  rw [anchors, Segment.anchors, mapM_eq_some hanchor, Option.bind_eq_bind, Option.bind_some,
    List.filterMap_map]
  rfl

/-! ## Cursors stand at boundaries -/

theorem exists_fitting (n : Nat) (cs : List Char) :
    (∃ rest, cs = fitting n cs ++ rest) ∧ utf8Len (fitting n cs) ≤ n := by
  induction cs generalizing n with
  | nil => exact ⟨⟨[], rfl⟩, Nat.zero_le n⟩
  | cons c cs ih =>
      rw [fitting]
      split
      · next hfits =>
          obtain ⟨⟨rest, hrest⟩, hle⟩ := ih (n - c.utf8Size)
          refine ⟨⟨rest, by rw [List.cons_append, ← hrest]⟩, ?_⟩
          rw [String.utf8Len_cons]
          omega
      · exact ⟨⟨_, rfl⟩, Nat.zero_le n⟩

theorem fitting_eq_of_le {m n : Nat} {cs : List Char} (hle : utf8Len (fitting n cs) ≤ m)
    (hmn : m ≤ n) : fitting m cs = fitting n cs := by
  obtain ⟨rest, hrest⟩ := (exists_fitting n cs).1
  obtain ⟨more, hmore⟩ := exists_fitting_append hle cs
  obtain ⟨further, hfurther⟩ := exists_fitting_append hmn cs
  generalize fitting n cs = longest at hle hrest hmore hfurther ⊢
  rw [hrest, fitting_utf8Len, ← hrest] at hmore
  -- Each of the two goes on with the other.
  have hlength := congrArg List.length hfurther
  rw [hmore, List.length_append, List.length_append] at hlength
  rw [hmore, List.length_eq_zero_iff.mp (show more.length = 0 by omega), List.append_nil]

theorem lastBoundary_eq (s : String) (i : Nat) :
    lastBoundary s i = some (utf8Len (fitting i s.toList)) := by
  induction i with
  | zero => rw [lastBoundary, if_pos (isBoundary_zero s), fitting_zero]; rfl
  | succ i ih =>
      rw [lastBoundary]
      by_cases hboundary : isBoundary s (i + 1) = true
      · obtain ⟨before, after, hs, hlen⟩ := isBoundary_iff.mp hboundary
        rw [if_pos hboundary, ← hlen, hs, fitting_utf8Len]
      · obtain ⟨⟨rest, hrest⟩, hle⟩ := exists_fitting (i + 1) s.toList
        have hne : utf8Len (fitting (i + 1) s.toList) ≠ i + 1 := fun heq =>
          hboundary (heq ▸ isBoundary_utf8Len hrest)
        rw [if_neg hboundary, ih, fitting_eq_of_le (n := i + 1) (by omega) (by omega)]

theorem fitting_min (i : Nat) (s : String) :
    fitting (min i s.utf8ByteSize) s.toList = fitting i s.toList := by
  obtain ⟨⟨rest, hrest⟩, hle⟩ := exists_fitting i s.toList
  have hsize := congrArg utf8Len hrest
  rw [String.utf8Len_toList, String.utf8Len_append] at hsize
  exact fitting_eq_of_le (by omega) (Nat.min_le_left ..)

structure Cursor.At (text : String) (front : List Char) (cursor : Cursor) : Prop where
  front_eq : ∃ rest, text.toList = front ++ rest
  offset_eq : cursor.offset = utf8Len front
  position_eq : cursor.position = Position.behind front
  afterReturn_eq : cursor.afterReturn = Position.endsReturn front

theorem Cursor.at_start (text : String) : Cursor.start.At text [] := ⟨⟨_, rfl⟩, rfl, rfl, rfl⟩

theorem Cursor.At.foldl_advance {text : String} {front : List Char} {cursor : Cursor}
    (h : cursor.At text front) (part : List Char) :
    (part.foldl Cursor.advance cursor).position = Position.behind (front ++ part) ∧
      (part.foldl Cursor.advance cursor).afterReturn = Position.endsReturn (front ++ part) := by
  induction part using List.reverseRecOn with
  | nil => simpa using ⟨h.position_eq, h.afterReturn_eq⟩
  | append_singleton part c ih =>
      rw [List.foldl_append, ← List.append_assoc, Position.behind_snoc, Position.endsReturn_snoc,
        ← ih.1, ← ih.2]
      exact ⟨rfl, rfl⟩

theorem at_moveTo {text : String} {front : List Char} {cursor : Cursor} (h : cursor.At text front)
    (target : Nat) :
    ∃ there, moveTo text cursor target = some there ∧ there.At text (fitting target text.toList) := by
  obtain ⟨rest, hrest⟩ := (exists_fitting target text.toList).1
  generalize hthere : fitting target text.toList = there at hrest
  -- The place to start from is the start of the text or the cursor, and stands before the target.
  obtain ⟨origin, before, part, horigin, hat, hpart⟩ : ∃ origin before part,
      (if utf8Len there < cursor.offset then Cursor.start else cursor) = origin ∧
        origin.At text before ∧ there = before ++ part := by
    by_cases hlt : utf8Len there < cursor.offset
    · exact ⟨_, [], there, if_pos hlt, Cursor.at_start text, rfl⟩
    · obtain ⟨behind, hbehind⟩ := h.front_eq
      rw [h.offset_eq, Nat.not_lt] at hlt
      obtain ⟨part, hpart⟩ := exists_fitting_append hlt text.toList
      rw [hbehind, fitting_utf8Len, ← hbehind, hrest, fitting_utf8Len] at hpart
      exact ⟨cursor, front, part, if_neg (by rw [h.offset_eq]; omega), h, hpart⟩
  have hslice : slice? text origin.offset (utf8Len there) = some (String.ofList part) := by
    rw [hat.offset_eq, hpart, String.utf8Len_append]
    exact slice?_part (by rw [hrest, hpart, List.append_assoc])
  have hfold := hat.foldl_advance part
  refine ⟨{ part.foldl Cursor.advance origin with offset := utf8Len there }, ?_,
    ⟨rest, hrest⟩, rfl, by rw [hpart]; exact hfold.1, by rw [hpart]; exact hfold.2⟩
  simp only [moveTo, lastBoundary_eq, fitting_min, hthere, Option.bind_eq_bind, Option.bind_some,
    horigin, hslice, String.toList_ofList]

theorem positions_eq {text : String} {front : List Char} {cursor : Cursor} (h : cursor.At text front)
    (targets : List Nat) :
    positions text cursor targets =
      some (targets.map fun target => Position.behind (fitting target text.toList)) := by
  induction targets generalizing front cursor with
  | nil => rfl
  | cons target targets ih =>
      obtain ⟨there, hthere, hat⟩ := at_moveTo h target
      simp only [positions, hthere, ih hat, Option.bind_eq_bind, Option.bind_some, List.map_cons,
        hat.position_eq]

/-- The map of a cut can be had, whatever the spans are. -/
theorem sourceMap_eq (source output sourceName : String) (removed : List Span) :
    sourceMap source output sourceName removed =
      some (SourceMap.ofCut source output sourceName removed) := by
  have hanchors : ∀ segment ∈ Segment.kept source.utf8ByteSize removed,
      anchors output segment = some (segment.anchors output) := fun segment _ =>
    anchors_eq output segment
  rw [sourceMap, keptFrom_eq, Option.bind_eq_bind, Option.bind_some, ← Segment.kept,
    mapM_eq_some hanchors]
  simp only [Option.bind_eq_bind, Option.bind_some, positions_eq (Cursor.at_start _)]
  rw [SourceMap.ofCut, Position.ofOffsets_eq, Position.ofOffsets_eq, SourceMap.anchors,
    List.flatMap_def]

end JsPrune.Guarded
