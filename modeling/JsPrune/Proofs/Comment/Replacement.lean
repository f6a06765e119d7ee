import JsPrune.Proofs.Comment.Locality
import JsPrune.Proofs.Comment.WellFormed
import JsPrune.Proofs.Lexical.Steps
/-!
# The text of a comment

What a comment says has no influence on what else is a comment.  With the text of another comment of
its kind in its place, the script has the same comments, and those behind it stand as much later as
the new text is longer.
-/

namespace JsPrune

open String (utf8Len)
open Text

namespace Comment

/-- The comment, where what stood at offset `old` now stands at `new`. -/
def moved (old new : Nat) (c : Comment) : Comment :=
  { c with span := ⟨c.span.start + new - old, c.span.stop + new - old⟩ }

def withText (c : Comment) (text : String) : Comment :=
  { c with span := ⟨c.span.start, c.span.start + text.utf8ByteSize⟩, text }

namespace Kind.IsText

variable {kind : Kind} {text : List Char}

theorem head? (h : kind.IsText text) : text.head? = some '/' := by
  cases kind with
  | line =>
      obtain ⟨body, rfl, -⟩ := h
      rfl
  | block =>
      obtain ⟨body, rfl, -⟩ := h
      rfl

theorem ne_nil (h : kind.IsText text) : text ≠ [] := by
  rintro rfl
  exact absurd h.head? (by simp)

end Kind.IsText

end Comment

def Text.replace (source : String) (span : Span) (text : String) : String :=
  slice source 0 span.start ++ text ++ slice source span.stop source.utf8ByteSize

namespace Scanner

/-! ## Shifts -/

theorem scan_add (offset n : Nat) (st : State) (cs : List Char) :
    scan (offset + n) st cs = (scan offset st cs).map (Comment.moved 0 n) := by
  induction hlen : cs.length using Nat.strong_induction_on generalizing offset st cs with
  | _ len ih =>
      cases cs with
      | nil => rfl
      | cons c cs =>
          have hrest := length_rest_step st c cs
          rw [List.length_cons] at hlen
          have hlater := ih _ (by omega) (offset + utf8Len (step st c cs).taken) (step st c cs).next
            (step st c cs).rest rfl
          rw [scan_cons, scan_cons, Move.scan, Move.scan, List.map_append, ← hlater,
            Nat.add_right_comm offset n]
          congr 1
          unfold Move.found
          cases (step st c cs).comment with
          | none => rfl
          | some k => simp [Comment.moved, Nat.add_right_comm]

theorem scan_moved (old new : Nat) (st : State) (cs : List Char) :
    scan new st cs = (scan old st cs).map (Comment.moved old new) := by
  have hold := scan_add 0 old st cs
  have hnew := scan_add 0 new st cs
  rw [Nat.zero_add] at hold hnew
  rw [hold, hnew, List.map_map]
  refine List.map_congr_left fun c _ => ?_
  simp [Comment.moved]
  omega

/-! ## The comments around it -/

theorem Reached.le_start_of_mem {source : String} {offset : Nat} {st : State} {cs : List Char}
    (h : Reached source offset st cs) {d : Comment} (hd : d ∈ scan offset st cs) :
    offset ≤ d.span.start := by
  obtain ⟨before, hs, rfl⟩ := h.exists_before
  exact ((scanFrom_placed cs.length st hs).1 d hd).2

namespace Reached

variable {source : String}

/-- Up to a place that the scanner reaches it takes the same with anything else from there on that
starts alike. -/
theorem scan_ahead {stop : Nat} {st' : State} {rest rest' : List Char}
    (hstop : Reached source stop st' rest) (hne : rest ≠ [])
    (hhead : Alike rest'.head? rest.head?) {offset : Nat} {st : State} {front : List Char}
    (h : Reached source offset st (front ++ rest)) :
    ∃ before, scan offset st (front ++ rest) = before ++ scan stop st' rest ∧
      scan offset st (front ++ rest') = before ++ scan stop st' rest' ∧
      ∀ d ∈ before, d.span.stop ≤ stop := by
  have hsize := h.add_utf8Len
  have hsize' := hstop.add_utf8Len
  rw [String.utf8Len_append] at hsize
  induction hlen : front.length using Nat.strong_induction_on generalizing offset st front with
  | _ len ih =>
      cases front with
      | nil =>
          obtain rfl : offset = stop := by
            rw [String.utf8Len_nil] at hsize
            omega
          obtain ⟨rfl, -⟩ := h.unique hstop
          exact ⟨[], rfl, rfl, by simp⟩
      | cons ch front =>
          have hpos := ch.utf8Size_pos
          rw [String.utf8Len_cons] at hsize
          rw [List.cons_append] at h
          -- The next lexeme does not reach beyond the place, ...
          have hle := h.step_le hstop (by omega)
          -- ... and is therefore the same in front of anything else.
          obtain ⟨part, hfront, hpart, hstep⟩ := step_of_ahead st ch front hne hhead
            (by rw [String.utf8Len_cons]; omega)
          obtain ⟨taken, htaken⟩ := exists_taken_step st ch (front ++ rest)
          have hnext := h.step
          rw [hpart] at hnext
          have hshorter : part.length < len := by
            rw [← hlen, hfront, htaken, List.length_append, List.length_cons]
            omega
          have hsize'' := hnext.add_utf8Len
          rw [String.utf8Len_append] at hsize''
          obtain ⟨before, hscan, hscan', hbefore⟩ := ih _ hshorter hnext hsize'' rfl
          refine ⟨(Scanner.step st ch (front ++ rest)).found offset ++ before, ?_, ?_, ?_⟩
          · rw [List.cons_append, scan_cons, Move.scan, hpart, hscan, List.append_assoc]
          · rw [List.cons_append, scan_cons, hstep, Move.scan, List.append_assoc]
            exact congrArg _ hscan'
          · intro d hd
            rcases List.mem_append.mp hd with hd | hd
            · rw [(found_eq_singleton_iff.mp (found_of_mem hd)).2.2]
              exact hle
            · exact hbefore d hd

/-- A comment that a scan finds has been reached, and so have the characters behind its first ones. -/
theorem of_mem_scan {offset : Nat} {st : State} {cs front rest : List Char} {c : Comment}
    (h : Reached source offset st cs) (hc : c ∈ scan offset st cs)
    (hs : source.toList = front ++ rest) (hstart : c.span.start = utf8Len front) :
    ∃ st', Reached source c.span.start st' rest := by
  obtain ⟨offset', st', ch, cs', hreached, hfound⟩ := h.exists_of_mem_scan hc
  obtain rfl : c.span.start = offset' := by
    rw [(found_eq_singleton_iff.mp hfound).2.2]
  obtain ⟨before, hs', hlen⟩ := hreached.exists_before
  have hle : utf8Len front ≤ utf8Len before := by omega
  obtain ⟨part, hbefore, hrest⟩ := exists_append_of_utf8Len_le (hs.symm.trans hs') hle
  obtain rfl : part = [] := by
    rw [hbefore, String.utf8Len_append] at hlen
    exact String.utf8Len_eq_zero.mp (by omega)
  rw [List.nil_append] at hrest
  exact ⟨st', hrest ▸ hreached⟩

variable {c : Comment} {text : String} {rest : List Char}

/-- Up to a terminated comment the scan takes the same lexemes whatever the text of the comment is,
and behind it as well. -/
theorem scan_withText (hclosed : c.terminated = true) (hold : c.kind.IsText c.text.toList)
    (hnew : c.kind.IsText text.toList)
    (hrest : c.kind = .line → rest.head?.all isLineTerminator = true)
    (hstop : c.span.stop = c.span.start + c.text.utf8ByteSize) {offset : Nat} {st : State}
    {front : List Char} (hreached : Reached source offset st (front ++ (c.text.toList ++ rest)))
    (hstart : c.span.start = offset + utf8Len front)
    (hmem : c ∈ scan offset st (front ++ (c.text.toList ++ rest))) :
    ∃ before after, scan offset st (front ++ (c.text.toList ++ rest)) = before ++ c :: after ∧
      scan offset st (front ++ (text.toList ++ rest)) = before ++ c.withText text ::
        after.map (Comment.moved c.span.stop (c.span.start + text.utf8ByteSize)) := by
  have hne : c.text.toList ++ rest ≠ [] := by
    simp [hold.ne_nil]
  have hhead : Alike (text.toList ++ rest).head? (c.text.toList ++ rest).head? := by
    rw [List.head?_append, List.head?_append, hold.head?, hnew.head?]
  obtain ⟨behind, hs, hlen⟩ := hreached.exists_before
  rw [← List.append_assoc] at hs
  obtain ⟨st', hreached'⟩ := hreached.of_mem_scan hmem hs
    (by rw [String.utf8Len_append]; omega)
  obtain ⟨before, hscan, hscan', -⟩ := hreached'.scan_ahead hne hhead hreached
  refine ⟨before, scan c.span.stop st' rest, ?_, ?_⟩
  · rw [hscan, scan_text hold hrest, ← hstop, ← hclosed]
  · rw [hscan', scan_text hnew hrest, ← scan_moved, ← hclosed]
    rfl

end Reached

/-! ## The interpreter line before it -/

theorem ne_hashbang {front rest : List Char} (hfront : ∀ line, front ≠ '#' :: '!' :: line)
    (hhash : rest.head? ≠ some '#') (hbang : rest.head? ≠ some '!') (line : List Char) :
    front ++ rest ≠ '#' :: '!' :: line := by
  intro h
  match front with
  | [] =>
      rw [List.nil_append] at h
      exact hhash (congrArg List.head? h)
  | [_] => exact hbang (congrArg List.head? (List.cons.inj h).2)
  | a :: b :: front =>
      obtain ⟨ha, hb, -⟩ : a = '#' ∧ b = '!' ∧ _ := by simpa using h
      exact hfront front (by rw [ha, hb])

theorem splitHashbang_alike {part rest rest' : List Char} (front : List Char)
    (hhash : rest.head? ≠ some '#') (hbang : rest.head? ≠ some '!')
    (hhead : Alike rest'.head? rest.head?)
    (hpart : front = (splitHashbang (front ++ rest)).1 ++ part) :
    splitHashbang (front ++ rest') = ((splitHashbang (front ++ rest)).1, part ++ rest') := by
  by_cases hline : ∃ line, front = '#' :: '!' :: line
  · obtain ⟨line, rfl⟩ := hline
    have hline : line = (splitLine (line ++ rest)).1 ++ part := by
      simpa [splitHashbang, push] using hpart
    have hbehind : (splitLine (line ++ rest)).2 = part ++ rest := by
      apply List.append_cancel_left
      calc (splitLine (line ++ rest)).1 ++ (splitLine (line ++ rest)).2
          = line ++ rest := splitWhile_append _ _
        _ = (splitLine (line ++ rest)).1 ++ part ++ rest := congrArg (· ++ rest) hline
        _ = (splitLine (line ++ rest)).1 ++ (part ++ rest) := List.append_assoc _ _ _
    have hlocal : splitLine ((splitLine (line ++ rest)).1 ++ (part ++ rest')) =
        ((splitLine (line ++ rest)).1, part ++ rest') := by
      apply splitLine_local
      rw [hbehind]
      exact hhead.append part
    rw [← List.append_assoc, ← hline] at hlocal
    simp only [List.cons_append, splitHashbang]
    rw [hlocal]
    rfl
  · rw [not_exists] at hline
    have hhash' := (hhead.eq_some_iff (c := '#') rfl).not.mpr hhash
    have hbang' := (hhead.eq_some_iff (c := '!') rfl).not.mpr hbang
    rw [splitHashbang.eq_2 _ (ne_hashbang hline hhash hbang)] at hpart ⊢
    rw [splitHashbang.eq_2 _ (ne_hashbang hline hhash' hbang')]
    obtain rfl : front = part := hpart
    rfl

theorem splitHashbang_ahead {part rest rest' : List Char} (front : List Char)
    (hrest : rest.head? = some '/') (hrest' : rest'.head? = some '/')
    (hpart : front = (splitHashbang (front ++ rest)).1 ++ part) :
    splitHashbang (front ++ rest') = ((splitHashbang (front ++ rest)).1, part ++ rest') :=
  splitHashbang_alike front (by simp [hrest]) (by simp [hrest]) (by rw [hrest, hrest']) hpart

/-- Two scripts that are the same up to a place have the same comments up to it, if the scanner reaches
it and the scripts go on alike. -/
theorem Reached.all_ahead {source source' : String} {st : State} {front rest rest' : List Char}
    (h : Reached source (utf8Len front) st rest) (hs : source.toList = front ++ rest)
    (hs' : source'.toList = front ++ rest') (hne : rest ≠ [])
    (hhash : rest.head? ≠ some '#') (hbang : rest.head? ≠ some '!')
    (hhead : Alike rest'.head? rest.head?) :
    ∃ before, Comment.all source = before ++ scan (utf8Len front) st rest ∧
      Comment.all source' = before ++ scan (utf8Len front) st rest' ∧
      ∀ d ∈ before, d.span.stop ≤ utf8Len front := by
  have hstart : Reached source _ _ _ := Reached.start
  have hsplit := splitHashbang_append source.toList
  obtain ⟨part, hpart, hrest⟩ := exists_append_of_utf8Len_le (hsplit.trans hs) h.start_le
  rw [hrest] at hstart
  have hline := splitHashbang_alike front hhash hbang hhead (hs ▸ hpart)
  rw [← hs, ← hs'] at hline
  obtain ⟨before, hscan, hscan', hbefore⟩ := h.scan_ahead hne hhead hstart
  refine ⟨before, ?_, ?_, hbefore⟩
  · rw [Comment.all_eq_scan, hrest, hscan]
  · rw [Comment.all_eq_scan, hline, hscan']

end Scanner

namespace Text

theorem toList_replace {source : String} {front part rest : List Char} {span : Span}
    (hs : source.toList = front ++ (part ++ rest)) (hstart : span.start = utf8Len front)
    (hstop : span.stop = utf8Len front + utf8Len part) (text : String) :
    (replace source span text).toList = front ++ (text.toList ++ rest) := by
  have hfront : slice source 0 span.start = String.ofList front := by
    have hs' : source.toList = [] ++ front ++ (part ++ rest) := by
      rw [hs, List.nil_append]
    have hslice := slice_eq hs'
    rwa [String.utf8Len_nil, Nat.zero_add, ← hstart] at hslice
  have hrest : slice source span.stop source.utf8ByteSize = String.ofList rest := by
    have hs' : source.toList = front ++ part ++ rest ++ [] := by
      rw [hs, List.append_nil, List.append_assoc]
    have hsize : source.utf8ByteSize = utf8Len (front ++ part) + utf8Len rest := by
      rw [← String.utf8Len_append, ← String.utf8Len_toList, hs, List.append_assoc]
    rw [hstop, hsize, ← String.utf8Len_append, slice_eq hs']
  rw [replace, hfront, hrest, String.toList_append, String.toList_append, String.toList_ofList,
    String.toList_ofList, List.append_assoc]

end Text

namespace Comment

/-- With the text of another comment of its kind in the place of a terminated comment, a script has
the same comments: those before it as they were, then the comment with the new text, and then those
behind it, each moved by what the new text is longer or shorter. -/
theorem all_replace {source : String} {c : Comment} (hc : c ∈ all source)
    (hclosed : c.terminated = true) {text : String} (htext : c.kind.IsText text.toList) :
    ∃ before after, all source = before ++ c :: after ∧
      all (Text.replace source c.span text) = before ++ c.withText text ::
        after.map (moved c.span.stop (c.span.start + text.utf8ByteSize)) := by
  have hold := (text_of_mem hc).1 hclosed
  obtain ⟨front, rest, hs, hstart, hstop, hshape⟩ := standsIn_of_mem hc
  rw [List.append_assoc] at hs
  have hreached : Scanner.Reached source _ _ _ := Scanner.Reached.start
  have hmem := hc
  rw [all_eq_scan] at hmem
  -- The comment stands behind the interpreter line.
  have hle := hreached.le_start_of_mem hmem
  have hsplit := Scanner.splitHashbang_append source.toList
  obtain ⟨part, hpart, hrest⟩ := exists_append_of_utf8Len_le (hsplit.trans hs) (by omega)
  have hhead : (c.text.toList ++ rest).head? = some '/' := by
    rw [List.head?_append, hold.head?]
    rfl
  have hhead' : (text.toList ++ rest).head? = some '/' := by
    rw [List.head?_append, htext.head?]
    rfl
  have hhashbang := Scanner.splitHashbang_ahead front hhead hhead' (hs ▸ hpart)
  rw [← hs] at hhashbang
  rw [hrest] at hreached hmem
  rw [all_eq_scan, all_eq_scan, toList_replace hs hstart hstop, hhashbang, hrest]
  refine hreached.scan_withText hclosed hold htext hshape.head?_of_line ?_ ?_ hmem
  · rw [hstart, hstop, String.utf8Len_toList]
  · rw [hstart, hpart, String.utf8Len_append]

/-- In a substitution, by a text that would end the substitution, the template and a string. -/
theorem all_replace_in_template :
    (⟨⟨3, 8⟩, .block, "/*a*/", true⟩ : Comment) ∈ all "\x60$\x7b/*a*/b\x7d\x60// c" ∧
    ∃ before after, all "\x60$\x7b/*a*/b\x7d\x60// c" =
        before ++ ⟨⟨3, 8⟩, .block, "/*a*/", true⟩ :: after ∧
      all "\x60$\x7b/*\x7d\x60'//*/b\x7d\x60// c" =
        before ++ ⟨⟨3, 12⟩, .block, "/*\x7d\x60'//*/", true⟩ :: after.map (moved 8 12) := by
  have hmem : (⟨⟨3, 8⟩, .block, "/*a*/", true⟩ : Comment) ∈
      all "\x60$\x7b/*a*/b\x7d\x60// c" := by
    decide +kernel
  have htext : Kind.IsText .block "/*\x7d\x60'//*/".toList :=
    ⟨"\x7d\x60'//".toList, by decide +kernel, by decide +kernel⟩
  have hreplace : Text.replace "\x60$\x7b/*a*/b\x7d\x60// c" ⟨3, 8⟩ "/*\x7d\x60'//*/" =
      "\x60$\x7b/*\x7d\x60'//*/b\x7d\x60// c" := by
    decide +kernel
  have hall := all_replace hmem rfl htext
  rw [hreplace] at hall
  exact ⟨hmem, hall⟩

end Comment

end JsPrune
