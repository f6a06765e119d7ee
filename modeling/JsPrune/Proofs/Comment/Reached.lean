import JsPrune.Proofs.Comment.Scan
import Mathlib.Data.List.Infix
import Mathlib.Logic.Relation
/-!
# The run of the scanner

Between two lexemes the scanner stands at some offset of the script, with what it remembers and with
the characters that are left.  Every step takes it forward inside the script, so the run ends, and the
comments of the script are the lexemes of the run that are comments, in the order of the run.  There is
one run: what is reached at an offset is reached on the way to every later one.
-/

namespace JsPrune.Scanner

open String (utf8Len)

/-- Where the scanner of a script stands between two lexemes: the offset, what it remembers, and the
characters that are left. -/
inductive Reached (source : String) : Nat → State → List Char → Prop
  | start : Reached source (utf8Len (splitHashbang source.toList).1) .initial
      (splitHashbang source.toList).2
  | step {offset : Nat} {st : State} {c : Char} {cs : List Char}
      (h : Reached source offset st (c :: cs)) :
      Reached source (offset + utf8Len (step st c cs).taken) (step st c cs).next
        (step st c cs).rest

namespace Reached

variable {source : String} {offset : Nat} {st : State} {c : Char} {cs : List Char}

theorem exists_before (h : Reached source offset st cs) :
    ∃ before, source.toList = before ++ cs ∧ utf8Len before = offset := by
  induction h with
  | start => exact ⟨_, (splitHashbang_append source.toList).symm, rfl⟩
  | @step offset st c cs _ ih =>
      obtain ⟨before, hs, hoffset⟩ := ih
      refine ⟨before ++ (Scanner.step st c cs).taken, ?_, ?_⟩
      · rw [hs, ← chars_step st c cs, Move.chars, List.append_assoc]
      · rw [String.utf8Len_append, hoffset]

theorem add_utf8Len (h : Reached source offset st cs) :
    offset + utf8Len cs = source.utf8ByteSize := by
  obtain ⟨before, hs, rfl⟩ := h.exists_before
  rw [← String.utf8Len_toList, hs, String.utf8Len_append]

theorem lt_step (h : Reached source offset st (c :: cs)) :
    offset < offset + utf8Len (Scanner.step st c cs).taken ∧
      offset + utf8Len (Scanner.step st c cs).taken ≤ source.utf8ByteSize := by
  have hend := h.step.add_utf8Len
  have hpos := c.utf8Size_pos
  obtain ⟨taken, htaken⟩ := exists_taken_step st c cs
  rw [htaken, String.utf8Len_cons] at hend ⊢
  omega

theorem start_le (h : Reached source offset st cs) :
    utf8Len (splitHashbang source.toList).1 ≤ offset := by
  induction h with
  | start => exact Nat.le_refl _
  | step _ ih => exact Nat.le_trans ih (Nat.le_add_right _ _)

theorem exists_end (h : Reached source offset st cs) :
    ∃ st', Reached source source.utf8ByteSize st' [] := by
  induction hn : cs.length using Nat.strong_induction_on generalizing offset st cs with
  | _ n ih =>
      cases cs with
      | nil =>
          have hend := h.add_utf8Len
          rw [String.utf8Len_nil, Nat.add_zero] at hend
          exact ⟨st, hend ▸ h⟩
      | cons c cs =>
          have hrest := length_rest_step st c cs
          rw [List.length_cons] at hn
          exact ih _ (by omega) h.step rfl

theorem scan_suffix (h : Reached source offset st cs) :
    scan offset st cs <:+ Comment.all source := by
  induction h with
  | start => rw [← Comment.all_eq_scan]
  | @step offset st c cs _ ih =>
      rw [scan_cons, Move.scan] at ih
      exact (List.suffix_append _ _).trans ih

end Reached

theorem found_of_mem {move : Move} {offset : Nat} {d : Comment} (h : d ∈ move.found offset) :
    move.found offset = [d] := by
  unfold Move.found at h ⊢
  cases hcomment : move.comment with
  | none =>
      rw [hcomment] at h
      exact absurd h (by simp)
  | some k =>
      rw [hcomment] at h
      rw [Option.map_some, Option.toList_some, List.mem_singleton] at h
      rw [Option.map_some, Option.toList_some, h]

theorem found_eq_singleton_iff {move : Move} {offset : Nat} {d : Comment} :
    move.found offset = [d] ↔ move.comment = some (d.kind, d.terminated) ∧
      d.text = String.ofList move.taken ∧
      d.span = ⟨offset, offset + utf8Len move.taken⟩ := by
  obtain ⟨span, kind, text, terminated⟩ := d
  unfold Move.found
  cases move.comment with
  | none => simp
  | some k =>
      obtain ⟨kind', terminated'⟩ := k
      simp only [Option.map_some, Option.toList_some, List.cons.injEq, and_true,
        Comment.mk.injEq, Option.some.injEq, Prod.mk.injEq]
      grind

theorem Reached.exists_of_mem_scan {source : String} {offset : Nat} {st : State} {cs : List Char}
    (h : Reached source offset st cs) {d : Comment} (hd : d ∈ scan offset st cs) :
    ∃ offset' st' c cs', Reached source offset' st' (c :: cs') ∧
      (Scanner.step st' c cs').found offset' = [d] := by
  induction hn : cs.length using Nat.strong_induction_on generalizing offset st cs with
  | _ n ih =>
      cases cs with
      | nil => exact absurd hd (by simp)
      | cons c cs =>
          rw [scan_cons, Move.scan, List.mem_append] at hd
          rcases hd with hd | hd
          · exact ⟨offset, st, c, cs, h, found_of_mem hd⟩
          · have hrest := length_rest_step st c cs
            rw [List.length_cons] at hn
            exact ih _ (by omega) h.step hd rfl

/-- The comments of a script are the lexemes of the run that are comments. -/
theorem mem_all_iff {source : String} {d : Comment} :
    d ∈ Comment.all source ↔ ∃ offset st c cs, Reached source offset st (c :: cs) ∧
      (step st c cs).found offset = [d] := by
  constructor
  · intro hd
    rw [Comment.all_eq_scan] at hd
    exact Reached.start.exists_of_mem_scan hd
  · rintro ⟨offset, st, c, cs, h, hfound⟩
    refine h.scan_suffix.subset ?_
    rw [scan_cons, Move.scan, hfound]
    exact List.mem_cons_self

/-! ## There is one run -/

/-- From where the scanner stands to where it stands one lexeme later. -/
inductive Next : Nat × State × List Char → Nat × State × List Char → Prop
  | step (offset : Nat) (st : State) (c : Char) (cs : List Char) : Next (offset, st, c :: cs)
      (offset + utf8Len (step st c cs).taken, (step st c cs).next, (step st c cs).rest)

def walk : Nat → Nat × State × List Char → Nat × State × List Char
  | 0, p => p
  | _ + 1, (offset, st, []) => (offset, st, [])
  | n + 1, (offset, st, c :: cs) =>
    walk n (offset + utf8Len (step st c cs).taken, (step st c cs).next, (step st c cs).rest)

/-- From where the scanner stands to where it stands some lexemes later. -/
abbrev Run : Nat × State × List Char → Nat × State × List Char → Prop :=
  Relation.ReflTransGen Next

theorem Next.rightUnique : Relator.RightUnique Next := by
  rintro p q q' ⟨⟩ ⟨⟩
  rfl

theorem Next.lt {p q : Nat × State × List Char} (h : Next p q) : p.1 < q.1 := by
  obtain ⟨offset, st, c, cs⟩ := h
  obtain ⟨tail, htaken⟩ := exists_taken_step st c cs
  have hpos := c.utf8Size_pos
  rw [htaken, String.utf8Len_cons]
  dsimp only
  omega

theorem Run.eq_or_lt {p q : Nat × State × List Char} (h : Run p q) : p = q ∨ p.1 < q.1 := by
  induction h with
  | refl => exact Or.inl rfl
  | tail _ hnext ih =>
      have hlt := hnext.lt
      rcases ih with rfl | ih
      · exact Or.inr hlt
      · exact Or.inr (Nat.lt_trans ih hlt)

/-- A run takes characters one behind the other, and finds comments among them. -/
theorem Run.exists_taken {p q : Nat × State × List Char} (h : Run p q) :
    ∃ taken found, p.2.2 = taken ++ q.2.2 ∧ p.1 + utf8Len taken = q.1 ∧
      scan p.1 p.2.1 p.2.2 = found ++ scan q.1 q.2.1 q.2.2 ∧
      ∀ d ∈ found, p.1 ≤ d.span.start ∧ d.span.start < q.1 := by
  induction h using Relation.ReflTransGen.head_induction_on with
  | refl => exact ⟨[], [], rfl, rfl, rfl, by simp⟩
  | @head p m hnext hrun ih =>
      have hlt := hnext.lt
      have hle : m.1 ≤ q.1 := by
        rcases Run.eq_or_lt hrun with rfl | hlt'
        · exact Nat.le_refl _
        · exact Nat.le_of_lt hlt'
      obtain ⟨taken, found, hchars, hlen, hscan, hin⟩ := ih
      obtain ⟨offset, st, c, cs⟩ := hnext
      dsimp only at hchars hlen hscan hin hlt hle ⊢
      refine ⟨(step st c cs).taken ++ taken, (step st c cs).found offset ++ found, ?_, ?_, ?_, ?_⟩
      · rw [List.append_assoc, ← hchars]
        exact (chars_step st c cs).symm
      · rw [String.utf8Len_append]
        omega
      · rw [scan_cons, Move.scan, hscan, List.append_assoc]
      · intro d hd
        rcases List.mem_append.mp hd with hd | hd
        · have hspan := (found_eq_singleton_iff.mp (found_of_mem hd)).2.2
          rw [hspan]
          dsimp only
          omega
        · have := hin d hd
          omega

namespace Reached

variable {source : String} {offset offset' : Nat} {st st' : State} {c : Char} {cs cs' : List Char}

theorem run (h : Reached source offset st cs) :
    Run (utf8Len (splitHashbang source.toList).1, .initial, (splitHashbang source.toList).2)
      (offset, st, cs) := by
  induction h with
  | start => exact .refl
  | step _ ih => exact ih.tail (.step ..)

theorem leads (h : Reached source offset st cs) (h' : Reached source offset' st' cs')
    (hle : offset ≤ offset') : Run (offset, st, cs) (offset', st', cs') := by
  rcases Relation.ReflTransGen.total_of_right_unique Next.rightUnique h.run h'.run with hrun | hrun
  · exact hrun
  · rcases Run.eq_or_lt hrun with heq | hlt
    · rw [heq]
    · exact absurd hlt (by dsimp only; omega)

theorem walk (h : Reached source offset st cs) (n : Nat) :
    Reached source (walk n (offset, st, cs)).1 (walk n (offset, st, cs)).2.1
      (walk n (offset, st, cs)).2.2 := by
  induction n generalizing offset st cs with
  | zero => exact h
  | succ n ih =>
      cases cs with
      | nil => exact h
      | cons c cs => exact ih h.step

theorem of_walk (n : Nat) (h : Scanner.walk n (utf8Len (splitHashbang source.toList).1, .initial,
    (splitHashbang source.toList).2) = (offset, st, cs)) : Reached source offset st cs := by
  have hstart : Reached source _ _ _ := Reached.start
  have hwalk := hstart.walk n
  rw [h] at hwalk
  exact hwalk

theorem unique (h : Reached source offset st cs) (h' : Reached source offset st' cs') :
    st = st' ∧ cs = cs' := by
  rcases Run.eq_or_lt (h.leads h' (Nat.le_refl _)) with heq | hlt
  · simpa using heq
  · exact absurd hlt (Nat.lt_irrefl _)

/-- The scanner stands nowhere inside a lexeme. -/
theorem step_le (h : Reached source offset st (c :: cs)) (h' : Reached source offset' st' cs')
    (hlt : offset < offset') : offset + utf8Len (Scanner.step st c cs).taken ≤ offset' := by
  rcases (h.leads h' (Nat.le_of_lt hlt)).cases_head with heq | ⟨m, hnext, hrun⟩
  · exact absurd (congrArg Prod.fst heq) (by dsimp only; omega)
  · obtain ⟨⟩ := hnext
    rcases Run.eq_or_lt hrun with heq | hlt
    · exact Nat.le_of_eq (congrArg Prod.fst heq)
    · exact Nat.le_of_lt hlt

end Reached

/-! ## What the scanner takes -/

/-- Wherever the scanner stands with `st` before `taken` and `rest`, it comes to stand with `st'` before
`rest`. -/
def Takes (st : State) (taken rest : List Char) (st' : State) : Prop :=
  ∀ (source : String) (offset : Nat), Reached source offset st (taken ++ rest) →
    Reached source (offset + utf8Len taken) st' rest

theorem takes_nil (st : State) (rest : List Char) : Takes st [] rest st :=
  fun _ _ h => h

theorem takes_of_step {st st' : State} {c : Char} {taken rest : List Char}
    {comment : Option (Comment.Kind × Bool)}
    (hstep : step st c (taken ++ rest) = ⟨c :: taken, rest, st', comment⟩) :
    Takes st (c :: taken) rest st' := by
  intro source offset h
  rw [List.cons_append] at h
  have hnext := h.step
  rw [hstep] at hnext
  exact hnext

theorem Takes.append {st st' st'' : State} {cs ds rest : List Char}
    (h : Takes st cs (ds ++ rest) st') (h' : Takes st' ds rest st'') :
    Takes st (cs ++ ds) rest st'' := by
  intro source offset hreached
  rw [List.append_assoc] at hreached
  have hbehind := h' source _ (h source offset hreached)
  rwa [Nat.add_assoc, ← String.utf8Len_append] at hbehind

end JsPrune.Scanner
