import JsPrune.Cut
import JsPrune.Proofs.Span.Union
import JsPrune.Proofs.Text.Utf8
/-!
# What a cut keeps

A cut along boundaries keeps whole characters: those whose offset no span covers.  Seen by bytes, the
offsets that no span covers say, in their order, where each byte of the output comes from.
-/

namespace JsPrune.Text

open String (utf8Len utf8EncodeChar)

/-- Canonical spans that start and stop at boundaries of a text. -/
structure Cuttable (source : String) (removed : List Span) : Prop where
  canonical : Span.Canonical removed
  boundary : ∀ r ∈ removed, isBoundary source r.start = true ∧ isBoundary source r.stop = true

/-- The characters, the first of which stands at `offset`, that no span covers. -/
def keep (removed : List Span) : Nat → List Char → List Char
  | _, [] => []
  | offset, c :: cs =>
    if Span.covers removed offset then keep removed (offset + c.utf8Size) cs
    else c :: keep removed (offset + c.utf8Size) cs

/-- The offsets of a text that no span covers. -/
def origins (source : String) (removed : List Span) : List Nat :=
  (List.range source.utf8ByteSize).filter fun i => !Span.covers removed i

/-! ## By characters -/

theorem keep_append (removed : List Span) (offset : Nat) (cs ds : List Char) :
    keep removed offset (cs ++ ds) =
      keep removed offset cs ++ keep removed (offset + utf8Len cs) ds := by
  induction cs generalizing offset with
  | nil => rfl
  | cons c cs ih =>
      have hoffset : offset + utf8Len (c :: cs) = offset + c.utf8Size + utf8Len cs := by
        rw [String.utf8Len_cons]
        omega
      rw [List.cons_append, keep, keep, ih, hoffset]
      split <;> rfl

theorem keep_eq_nil {removed : List Span} {offset : Nat} {cs : List Char}
    (h : ∀ i, offset ≤ i → i < offset + utf8Len cs → Span.covers removed i = true) :
    keep removed offset cs = [] := by
  induction cs generalizing offset with
  | nil => rfl
  | cons c cs ih =>
      have hpos := c.utf8Size_pos
      rw [String.utf8Len_cons] at h
      rw [keep, if_pos (h offset (Nat.le_refl _) (by omega))]
      exact ih fun i hi hlt => h i (by omega) (by omega)

theorem keep_eq_self {removed : List Span} {offset : Nat} {cs : List Char}
    (h : ∀ i, offset ≤ i → i < offset + utf8Len cs → Span.covers removed i = false) :
    keep removed offset cs = cs := by
  induction cs generalizing offset with
  | nil => rfl
  | cons c cs ih =>
      have hpos := c.utf8Size_pos
      rw [String.utf8Len_cons] at h
      rw [keep, if_neg (by simp [h offset (Nat.le_refl _) (by omega)])]
      exact congrArg (c :: ·) (ih fun i hi hlt => h i (by omega) (by omega))

theorem keep_congr {removed removed' : List Span} {offset : Nat} {cs : List Char}
    (h : ∀ i, offset ≤ i → Span.covers removed i = Span.covers removed' i) :
    keep removed offset cs = keep removed' offset cs := by
  induction cs generalizing offset with
  | nil => rfl
  | cons c cs ih =>
      rw [keep, keep, h offset (Nat.le_refl _), ih fun i hi => h i (by omega)]

theorem exists_of_keep_eq {removed : List Span} {offset : Nat} {cs front rest : List Char} {c : Char}
    (h : keep removed offset cs = front ++ c :: rest) :
    ∃ before after, cs = before ++ c :: after ∧ keep removed offset before = front ∧
      Span.covers removed (offset + utf8Len before) = false := by
  induction cs generalizing offset front with
  | nil => exact absurd h (by simp [keep])
  | cons d cs ih =>
      have hstep : ∀ front', keep removed (offset + d.utf8Size) cs = front' ++ c :: rest →
          ∃ before after, d :: cs = d :: before ++ c :: after ∧
            keep removed (offset + d.utf8Size) before = front' ∧
            Span.covers removed (offset + utf8Len (d :: before)) = false := by
        intro front' h'
        obtain ⟨before, after, rfl, hfront, hkept⟩ := ih h'
        refine ⟨before, after, rfl, hfront, ?_⟩
        rw [String.utf8Len_cons, Nat.add_comm (utf8Len before), ← Nat.add_assoc]
        exact hkept
      rw [keep] at h
      cases hd : Span.covers removed offset with
      | true =>
          rw [if_pos hd] at h
          obtain ⟨before, after, hcs, hfront, hkept⟩ := hstep front h
          exact ⟨d :: before, after, hcs, by rw [keep, if_pos hd, hfront], hkept⟩
      | false =>
          rw [if_neg (by rw [hd]; simp)] at h
          cases front with
          | nil =>
              obtain ⟨rfl, -⟩ := List.cons.inj h
              exact ⟨[], cs, rfl, rfl, hd⟩
          | cons e front =>
              obtain ⟨rfl, htail⟩ := List.cons.inj h
              obtain ⟨before, after, hcs, hfront, hkept⟩ := hstep front htail
              refine ⟨d :: before, after, hcs, ?_, hkept⟩
              rw [keep, if_neg (by rw [hd]; simp), hfront]

theorem Cuttable.tail {source : String} {r : Span} {removed : List Span}
    (h : Cuttable source (r :: removed)) : Cuttable source removed :=
  ⟨h.canonical.tail, fun s hs => h.boundary s (List.mem_cons_of_mem _ hs)⟩

theorem toList_cutFrom {source : String} {before rest : List Char} {removed : List Span}
    (hs : source.toList = before ++ rest) (h : Cuttable source removed)
    (hstart : ∀ r ∈ removed, utf8Len before ≤ r.start) :
    (cutFrom source (utf8Len before) removed).toList = keep removed (utf8Len before) rest := by
  induction removed generalizing before rest with
  | nil =>
      have hsize : source.utf8ByteSize = utf8Len before + utf8Len rest := by
        rw [← String.utf8Len_toList, hs, String.utf8Len_append]
      have hsplit : source.toList = before ++ rest ++ [] := by rw [hs, List.append_nil]
      rw [cutFrom, hsize, slice_eq hsplit, String.toList_ofList,
        keep_eq_self fun i _ _ => Span.covers_nil i]
  | cons r removed ih =>
      have hr := List.mem_cons_self (a := r) (l := removed)
      have hne := h.canonical.nonempty r hr
      obtain ⟨part, rest', rfl, hpart⟩ := exists_split hs (h.boundary r hr).1 (hstart r hr)
      rw [← List.append_assoc] at hs
      have hlen : utf8Len (before ++ part) = r.start := by rw [String.utf8Len_append, hpart]
      obtain ⟨gone, after, rfl, hgone⟩ := exists_split hs (h.boundary r hr).2 (by omega)
      have hs' : source.toList = before ++ part ++ gone ++ after := by
        rw [hs, List.append_assoc (before ++ part)]
      have hlen' : utf8Len (before ++ part ++ gone) = r.stop := by
        rw [String.utf8Len_append, hgone]
      -- Before the first span nothing is covered, ...
      have hkept : keep (r :: removed) (utf8Len before) part = part := by
        refine keep_eq_self fun i hi hlt => Span.covers_eq_false_iff.mpr fun s hs => ?_
        rcases List.mem_cons.mp hs with rfl | hs
        · omega
        · have := h.canonical.head_lt hs
          omega
      -- ... inside it everything is, ...
      have hnone : keep (r :: removed) r.start gone = [] :=
        keep_eq_nil fun i hi hlt => Span.covers_of_mem hr hi (by omega)
      -- ... and behind it only the other spans cover anything.
      have htail : keep (r :: removed) r.stop after = keep removed r.stop after := by
        refine keep_congr fun i hi => ?_
        rw [Span.covers_cons, decide_eq_false (p := i < r.stop) (by omega), Bool.and_false,
          Bool.false_or]
      have hrest := ih hs' h.tail fun s hs => by
        have := h.canonical.head_lt hs
        omega
      have hslice : slice source (utf8Len before) r.start = String.ofList part := by
        rw [← hpart]
        exact slice_eq hs
      rw [hlen'] at hrest
      rw [hlen] at hgone
      rw [cutFrom, hslice, String.toList_append, String.toList_ofList, hrest, keep_append,
        keep_append, hkept, hpart, hnone, hgone, htail, List.nil_append]

theorem toList_cut {source : String} {removed : List Span} (h : Cuttable source removed) :
    (cut source removed).toList = keep removed 0 source.toList :=
  toList_cutFrom (List.nil_append source.toList).symm h fun _ _ => Nat.zero_le _

theorem toList_cut_append {source : String} {removed : List Span} (h : Cuttable source removed)
    {before after : List Char} (hs : source.toList = before ++ after) :
    (cut source removed).toList =
      keep removed 0 before ++ keep removed (utf8Len before) after := by
  rw [toList_cut h, hs, keep_append, Nat.zero_add]

theorem size_cutFrom {source : String} {cursor : Nat} {removed : List Span}
    (h : Cuttable source removed) (hcursor : isBoundary source cursor = true)
    (hstart : ∀ r ∈ removed, cursor ≤ r.start) :
    cursor + (cutFrom source cursor removed).utf8ByteSize + Span.totalLength removed =
      source.utf8ByteSize := by
  induction removed generalizing cursor with
  | nil => exact size_slice hcursor (isBoundary_size source) (le_size_of_isBoundary hcursor)
  | cons r removed ih =>
      have hr := h.boundary r List.mem_cons_self
      have hne := h.canonical.nonempty r List.mem_cons_self
      have hslice := size_slice hcursor hr.1 (hstart r List.mem_cons_self)
      have hrest := ih h.tail hr.2 fun s hs => Nat.le_of_lt (h.canonical.head_lt hs)
      rw [cutFrom, String.utf8ByteSize_append, Span.totalLength_cons]
      omega

theorem size_cut_add {source : String} {removed : List Span} (h : Cuttable source removed) :
    (cut source removed).utf8ByteSize + Span.totalLength removed = source.utf8ByteSize := by
  have hsize := size_cutFrom h (isBoundary_zero source) fun _ _ => Nat.zero_le _
  rw [Nat.zero_add] at hsize
  exact hsize

/-! ## By bytes -/

/-- A span covers a character as a whole, or not at all. -/
theorem Cuttable.covers_char {source : String} {removed : List Span} (h : Cuttable source removed)
    {before after : List Char} {c : Char} (hs : source.toList = before ++ c :: after) {i : Nat}
    (hi : utf8Len before ≤ i) (hlt : i < utf8Len before + c.utf8Size) :
    Span.covers removed i = Span.covers removed (utf8Len before) := by
  -- A boundary behind the start of the character is behind the character.
  have hbehind : ∀ j, isBoundary source j = true → utf8Len before < j →
      utf8Len before + c.utf8Size ≤ j := by
    intro j hj hjlt
    obtain ⟨part, rest, hpart, rfl⟩ := exists_split hs hj (by omega)
    cases part with
    | nil => simp at hjlt
    | cons d part =>
        rw [List.cons_append] at hpart
        rw [String.utf8Len_cons, (List.cons.inj hpart).1]
        omega
  rw [Bool.eq_iff_iff, Span.covers_iff, Span.covers_iff]
  constructor
  · rintro ⟨r, hr, hstart, hstop⟩
    refine ⟨r, hr, ?_, by omega⟩
    by_contra hge
    have := hbehind r.start (h.boundary r hr).1 (by omega)
    omega
  · rintro ⟨r, hr, hstart, hstop⟩
    have := hbehind r.stop (h.boundary r hr).2 hstop
    exact ⟨r, hr, by omega, by omega⟩

theorem map_byte?_char {source : String} {before after : List Char} {c : Char}
    (hs : source.toList = before ++ c :: after) :
    (List.range' (utf8Len before) c.utf8Size).map (byte? source) =
      (utf8EncodeChar c).map some := by
  apply List.ext_getElem
  · simp
  · intro k hk hk'
    have hsize : k < c.utf8Size := by simpa using hk
    have hpart : source.toList = before ++ [c] ++ after := by
      rw [hs, List.append_assoc, List.singleton_append]
    have hbyte := byte?_add hpart (k := k) (by simpa using hsize)
    rw [List.getElem_map, List.getElem_map, List.getElem_range', Nat.one_mul, hbyte, encode_cons,
      encode_nil, List.append_nil, List.getElem?_eq_getElem (by simpa using hsize)]

theorem map_encode_keep {source : String} {before part after : List Char} {removed : List Span}
    (hs : source.toList = before ++ (part ++ after)) (h : Cuttable source removed) :
    (encode (keep removed (utf8Len before) part)).map some =
      ((List.range' (utf8Len before) (utf8Len part)).filter
        fun i => !Span.covers removed i).map (byte? source) := by
  induction part generalizing before with
  | nil => rfl
  | cons c part ih =>
      have hnext : source.toList = before ++ [c] ++ (part ++ after) := by
        rw [hs, List.append_assoc, List.singleton_append, List.cons_append]
      have hlen : utf8Len (before ++ [c]) = utf8Len before + c.utf8Size := by
        rw [String.utf8Len_append, String.utf8Len_cons, String.utf8Len_nil, Nat.zero_add]
      have hrest := ih hnext
      rw [hlen] at hrest
      have hchar : ∀ i ∈ List.range' (utf8Len before) c.utf8Size,
          Span.covers removed i = Span.covers removed (utf8Len before) := by
        intro i hi
        rw [List.mem_range'_1] at hi
        exact h.covers_char hs hi.1 hi.2
      rw [String.utf8Len_cons, Nat.add_comm, ← List.range'_append_1, List.filter_append,
        List.map_append, ← hrest, keep]
      cases hcovers : Span.covers removed (utf8Len before) with
      | true =>
          rw [List.filter_eq_nil_iff.mpr fun i hi => by rw [hchar i hi, hcovers]; simp]
          rfl
      | false =>
          rw [List.filter_eq_self.mpr fun i hi => by rw [hchar i hi, hcovers]; rfl,
            map_byte?_char hs, if_neg (by simp), encode_cons, List.map_append]

/-- Each byte of the output comes from the offset at its place in `origins`. -/
theorem map_bytes_cut {source : String} {removed : List Span} (h : Cuttable source removed) :
    (bytes (cut source removed)).map some = (origins source removed).map (byte? source) := by
  have hs : source.toList = [] ++ (source.toList ++ []) := by simp
  have hmap := map_encode_keep hs h
  rw [String.utf8Len_toList] at hmap
  rw [bytes, toList_cut h, origins, List.range_eq_range']
  exact hmap

theorem bytes_cut {source : String} {removed : List Span} (h : Cuttable source removed) :
    bytes (cut source removed) = (origins source removed).filterMap (byte? source) := by
  calc bytes (cut source removed)
    _ = ((bytes (cut source removed)).map some).filterMap id := by simp
    _ = ((origins source removed).map (byte? source)).filterMap id := by rw [map_bytes_cut h]
    _ = (origins source removed).filterMap (byte? source) := by
      rw [List.filterMap_map, Function.id_comp]

theorem byte?_cut {source : String} {removed : List Span} (h : Cuttable source removed) {k i : Nat}
    (hk : (origins source removed)[k]? = some i) :
    byte? (cut source removed) k = byte? source i := by
  have hmap := congrArg (·[k]?) (map_bytes_cut h)
  simp only [List.getElem?_map, hk, Option.map_some] at hmap
  rw [byte?_eq]
  cases hb : (bytes (cut source removed))[k]? with
  | none => rw [hb] at hmap; exact absurd hmap (by simp)
  | some b => rw [hb, Option.map_some, Option.some_inj] at hmap; exact hmap

theorem utf8Len_keep {source : String} {before after : List Char} {removed : List Span}
    (hs : source.toList = before ++ after) (h : Cuttable source removed) :
    utf8Len (keep removed 0 before) =
      ((List.range (utf8Len before)).filter fun i => !Span.covers removed i).length := by
  have hs' : source.toList = [] ++ (before ++ after) := hs
  have hlen := congrArg List.length (map_encode_keep hs' h)
  rw [List.length_map, List.length_map, length_encode, String.utf8Len_nil,
    ← List.range_eq_range'] at hlen
  exact hlen

/-! ## The offsets that are kept -/

theorem mem_origins {source : String} {removed : List Span} {i : Nat} :
    i ∈ origins source removed ↔
      i < source.utf8ByteSize ∧ Span.covers removed i = false := by
  simp [origins]

theorem pairwise_origins (source : String) (removed : List Span) :
    (origins source removed).Pairwise (· < ·) :=
  List.pairwise_lt_range.filter _

theorem origins_lt {source : String} {removed : List Span} {j k p q : Nat}
    (hp : (origins source removed)[j]? = some p) (hq : (origins source removed)[k]? = some q)
    (hjk : j < k) : p < q := by
  have hascend := List.pairwise_iff_getElem.mp (pairwise_origins source removed)
  obtain ⟨hj, rfl⟩ := List.getElem?_eq_some_iff.mp hp
  obtain ⟨hk, rfl⟩ := List.getElem?_eq_some_iff.mp hq
  exact hascend j k hj hk hjk

theorem origins_lt_iff {source : String} {removed : List Span} {j k p q : Nat}
    (hp : (origins source removed)[j]? = some p) (hq : (origins source removed)[k]? = some q) :
    j < k ↔ p < q := by
  refine ⟨origins_lt hp hq, fun hpq => ?_⟩
  rcases Nat.lt_trichotomy j k with hlt | rfl | hgt
  · exact hlt
  · rw [hp, Option.some_inj] at hq
    omega
  · have := origins_lt hq hp hgt
    omega

theorem exists_origin {source : String} {removed : List Span} {i : Nat}
    (hi : i < source.utf8ByteSize) (hkept : Span.covers removed i = false) :
    ∃ k : Nat, (origins source removed)[k]? = some i :=
  List.mem_iff_getElem?.mp (mem_origins.mpr ⟨hi, hkept⟩)

theorem kept_of_origins {source : String} {removed : List Span} {k i : Nat}
    (hk : (origins source removed)[k]? = some i) :
    i < source.utf8ByteSize ∧ Span.covers removed i = false :=
  mem_origins.mp (List.mem_of_getElem? hk)

/-- What stands between neighbours in the output is removed, ... -/
theorem covers_between_origins {source : String} {removed : List Span} {k p q : Nat}
    (hp : (origins source removed)[k]? = some p)
    (hq : (origins source removed)[k + 1]? = some q) {i : Nat} (hpi : p < i) (hiq : i < q) :
    Span.covers removed i = true := by
  by_contra hkept
  have hlt := (kept_of_origins hq).1
  obtain ⟨l, hl⟩ := exists_origin (Nat.lt_trans hiq hlt) (Bool.not_eq_true _ ▸ hkept)
  have hkl := (origins_lt_iff hp hl).mpr hpi
  have hlk := (origins_lt_iff hl hq).mpr hiq
  omega

/-- ... and where all between is removed, the two become neighbours. -/
theorem exists_adjacent_origins {source : String} {removed : List Span} {p q : Nat} (hpq : p < q)
    (hqlt : q < source.utf8ByteSize) (hp : Span.covers removed p = false)
    (hq : Span.covers removed q = false)
    (hall : ∀ i, p < i → i < q → Span.covers removed i = true) :
    ∃ k : Nat, (origins source removed)[k]? = some p ∧
      (origins source removed)[k + 1]? = some q := by
  obtain ⟨j, hj⟩ := exists_origin (Nat.lt_trans hpq hqlt) hp
  obtain ⟨k, hk⟩ := exists_origin hqlt hq
  have hjk := (origins_lt_iff hj hk).mpr hpq
  rcases Nat.eq_or_lt_of_le (Nat.succ_le_of_lt hjk) with heq | hlt
  · exact ⟨j, hj, by rw [← hk, ← heq]⟩
  · have hlen := (List.getElem?_eq_some_iff.mp hk).1
    have hnext := List.getElem?_eq_getElem (Nat.lt_trans hlt hlen)
    have hcovers := hall _ (origins_lt hj hnext (Nat.lt_succ_self j)) (origins_lt hnext hk hlt)
    rw [(kept_of_origins hnext).2] at hcovers
    exact absurd hcovers (by simp)

end JsPrune.Text
