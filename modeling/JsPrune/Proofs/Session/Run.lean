import JsPrune.Session
import JsPrune.Proofs.Comment.Placement
import JsPrune.Proofs.Padding.Widening
/-!
# Runs of a session

A session answers requests one after the other.  What it marks on the way is exactly what it granted:
one widened span for each construct that it accepted, and one for each comment that was chosen and
did not have to stay.
-/

namespace JsPrune

open Text

namespace Decision

theorem chosenAfter_sublist (decision : Decision) (asked : List String) (comments : List Comment) :
    (decision.chosenAfter asked comments).Sublist comments := by
  induction comments generalizing asked with
  | nil => exact List.Sublist.refl _
  | cons comment comments ih =>
      have hlater := ih (asked ++ [comment.text])
      unfold chosenAfter
      by_cases haccepts : decision.accepts asked comment.text = true
      · rw [if_pos haccepts]
        exact hlater.cons_cons comment
      · rw [if_neg haccepts]
        exact hlater.cons comment

theorem mem_of_mem_chosen {decision : Decision} {comments : List Comment} {c : Comment}
    (h : c ∈ decision.chosen comments) : c ∈ comments :=
  (decision.chosenAfter_sublist [] comments).mem h

theorem chosen_of_text (accepts : String → Bool) (comments : List Comment) :
    (accepts : Decision).chosen comments = comments.filter fun c => accepts c.text := by
  have hchosen : ∀ asked, (accepts : Decision).chosenAfter asked comments =
      comments.filter fun c => accepts c.text := by
    induction comments with
    | nil => exact fun _ => rfl
    | cons c comments ih =>
        intro asked
        rw [chosenAfter, ih, List.filter_cons]
  exact hchosen []

end Decision

theorem Span.bounds_of_ofBounds {source : String} {start stop : Nat} {span : Span}
    (h : Span.ofBounds source start stop = .ok span) :
    start < stop ∧ stop ≤ source.utf8ByteSize ∧ isBoundary source start = true ∧
      isBoundary source stop = true := by
  by_contra hinvalid
  rw [Span.ofBounds, if_neg hinvalid] at h
  exact absurd h (by simp)

/-- A removal that was granted, as it was asked for. -/
inductive Grant where
  | construct (span : Span) (kind : Construct) (placement : Placement)
  | comment (comment : Comment)
  deriving DecidableEq, Repr

namespace Grant

/-- Whether offset `i` holds the semicolon that ends the statement at `span`: the statement has none
of its own, and nothing but blanks stands between. -/
def endsStatement (source : String) (span : Span) (i : Nat) : Bool :=
  byte? source (span.stop - 1) != some 0x3B && byte? source i == some 0x3B &&
    decide (span.stop ≤ i) &&
    (List.range' span.stop (i - span.stop)).all fun k => (byte? source k).any isBlank

/-- Whether a grant names offset `i`: as a part of the construct or comment, or as the semicolon that
ends a whole statement. -/
def names (source : String) (i : Nat) : Grant → Bool
  | construct span kind placement =>
    (decide (span.start ≤ i) && decide (i < span.stop)) ||
      (Padding.isFullStatement kind placement && endsStatement source span i)
  | comment c => decide (c.span.start ≤ i) && decide (i < c.span.stop)

/-- What an answer to a request grants: the construct if it is marked, and the chosen comments that
do not have to stay. -/
def ofAnswer (source : String) : Request → Answer → List Grant
  | .markConstruct start stop kind placement, .marked => [construct ⟨start, stop⟩ kind placement]
  | .markComments decision, .report _ =>
    ((decision.chosen (Comment.all source)).filter fun c =>
      (Padding.comment source c).isSome).map comment
  | _, _ => []

def mark (source : String) : Grant → Option Span
  | construct span kind placement => some (Padding.construct source span kind placement)
  | comment c => Padding.comment source c

/-- What a session checks before it grants something. -/
def Sound (source : String) : Grant → Prop
  | construct span _ _ => Span.ofBounds source span.start span.stop = .ok span
  | comment c => c ∈ Comment.all source ∧ (Padding.comment source c).isSome = true

/-! ## The semicolon of a statement -/

theorem endsStatement_iff {source : String} {span : Span} {i : Nat} :
    endsStatement source span i = true ↔
      byte? source (span.stop - 1) ≠ some 0x3B ∧ byte? source i = some 0x3B ∧
        i = blankStop source span.stop := by
  unfold endsStatement
  rw [Bool.and_eq_true, Bool.and_eq_true, Bool.and_eq_true, bne_iff_ne, beq_iff_eq,
    decide_eq_true_eq, List.all_eq_true]
  constructor
  · rintro ⟨⟨⟨hown, hbyte⟩, hle⟩, hblank⟩
    refine ⟨hown, hbyte, (blankStop_eq hle (fun k hk hki => ?_) ?_).symm⟩
    · exact hblank k (List.mem_range'_1.mpr ⟨hk, by omega⟩)
    · rw [hbyte]
      decide
  · rintro ⟨hown, hbyte, rfl⟩
    have hle := le_blankStop source span.stop
    refine ⟨⟨⟨hown, hbyte⟩, hle⟩, fun k hk => ?_⟩
    have hk := List.mem_range'_1.mp hk
    exact blankRun_blankStop source span.stop k hk.1 (by omega)

theorem withSemicolon_cases (source : String) (span : Span) :
    (Padding.withSemicolon source span = span ∧ ∀ i, endsStatement source span i = false) ∨
      ∃ i, endsStatement source span i = true ∧
        Padding.withSemicolon source span = ⟨span.start, i + 1⟩ := by
  have hsemicolon : ';'.toNat.toUInt8 = 0x3B := rfl
  unfold Padding.withSemicolon
  rw [hsemicolon]
  by_cases hown : byte? source (span.stop - 1) = some 0x3B
  · rw [if_pos (beq_iff_eq.mpr hown)]
    refine Or.inl ⟨rfl, fun i => Bool.eq_false_iff.mpr fun h => ?_⟩
    exact (endsStatement_iff.mp h).1 hown
  · rw [if_neg (by simpa using hown)]
    by_cases hbyte : byte? source (blankStop source span.stop) = some 0x3B
    · refine Or.inr ⟨_, endsStatement_iff.mpr ⟨hown, hbyte, rfl⟩, ?_⟩
      dsimp only
      rw [if_pos (beq_iff_eq.mpr hbyte)]
    · dsimp only
      rw [if_neg (by simpa using hbyte)]
      refine Or.inl ⟨rfl, fun i => Bool.eq_false_iff.mpr fun h => ?_⟩
      obtain ⟨-, hi, rfl⟩ := endsStatement_iff.mp h
      exact hbyte hi

/-! ## What a grant removes -/

/-- A span holds all that a grant names, and beside it only spaces. -/
structure Fits (source : String) (grant : Grant) (wide : Span) : Prop where
  holds : ∀ i, grant.names source i = true → wide.start ≤ i ∧ i < wide.stop
  space : ∀ i, wide.start ≤ i → i < wide.stop → grant.names source i = false →
    (byte? source i).any isSpace = true
  boundary : isBoundary source wide.start = true ∧ isBoundary source wide.stop = true

theorem Fits.widen {source : String} {grant : Grant} {span wide : Span}
    (h : grant.Fits source span) (hwide : Padding.Widens source span wide) :
    grant.Fits source wide := by
  have hstart := hwide.start_le
  have hstop := hwide.le_stop
  refine ⟨fun i hi => ?_, fun i hi hlt hout => ?_, hwide.boundary h.boundary⟩
  · have := h.holds i hi
    omega
  · by_cases hin : span.start ≤ i ∧ i < span.stop
    · exact h.space i hin.1 hin.2 hout
    · exact hwide.space i hi hlt (by omega)

theorem fits_withSemicolon {source : String} {span : Span} {kind : Construct}
    {placement : Placement} (hfull : Padding.isFullStatement kind placement = true)
    (hb : isBoundary source span.start = true ∧ isBoundary source span.stop = true)
    (hle : span.start ≤ span.stop) :
    (construct span kind placement).Fits source (Padding.withSemicolon source span) := by
  rcases withSemicolon_cases source span with ⟨heq, hnone⟩ | ⟨j, hj, heq⟩
  · rw [heq]
    refine ⟨fun i hi => ?_, fun i hi hlt hout => ?_, hb⟩
    · simpa [names, hnone] using hi
    · simp [names, hi, hlt] at hout
  · obtain ⟨-, hbyte, hstop⟩ := endsStatement_iff.mp hj
    have hbehind := le_blankStop source span.stop
    rw [heq]
    refine ⟨fun i hi => ?_, fun i hi hlt hout => ?_, hb.1,
      isBoundary_succ_of_byte?_lt hbyte (by decide)⟩
    · simp only [names, hfull, Bool.true_and, Bool.or_eq_true, Bool.and_eq_true,
        decide_eq_true_eq] at hi
      rcases hi with hi | hi
      · exact ⟨hi.1, by dsimp only; omega⟩
      · have := (endsStatement_iff.mp hi).2.2
        exact ⟨by dsimp only; omega, by dsimp only; omega⟩
    · dsimp only at hi hlt
      have hne : i ≠ j := by
        rintro rfl
        simp [names, hfull, hj] at hout
      have hge : span.stop ≤ i := by
        by_contra hin
        simp [names, hi, show i < span.stop by omega] at hout
      exact Padding.any_isSpace_of_blank
        (blankRun_blankStop source span.stop i hge (by omega))

/-- The mark of a sound grant fits it. -/
theorem exists_fits {source : String} {grant : Grant} (h : grant.Sound source) :
    ∃ wide, grant.mark source = some wide ∧ grant.Fits source wide := by
  cases grant with
  | construct span kind placement =>
      have hvalid := Span.bounds_of_ofBounds h
      refine ⟨_, rfl, ?_⟩
      unfold Padding.construct
      by_cases hfull : Padding.isFullStatement kind placement = true
      · rw [if_pos hfull]
        exact (fits_withSemicolon hfull hvalid.2.2 (Nat.le_of_lt hvalid.1)).widen
          (Padding.widens_line source _)
      · rw [if_neg hfull]
        refine ⟨fun i hi => ?_, fun i hi hlt hout => ?_, hvalid.2.2⟩
        · simpa [names, hfull] using hi
        · simp [names, hi, hlt] at hout
  | comment c =>
      obtain ⟨hc, hsome⟩ := h
      obtain ⟨wide, hwide⟩ := Option.isSome_iff_exists.mp hsome
      have hfits : (comment c).Fits source c.span := by
        refine ⟨fun i hi => ?_, fun i hi hlt hout => ?_, (Comment.standsIn_of_mem hc).boundary⟩
        · simpa [names] using hi
        · simp [names, hi, hlt] at hout
      exact ⟨wide, hwide, hfits.widen (Padding.widens_comment hwide)⟩

end Grant

def Request.isResult : Request → Bool
  | .markConstruct .. => false
  | .markComments _ => false
  | .code => true
  | .removed => true
  | .sourceMap => true
  | .renderedMap => true

namespace Session

def granted (session : Session) (request : Request) : List Grant :=
  Grant.ofAnswer session.source request (session.answer request).1

def after (session : Session) (requests : List Request) : Session :=
  requests.foldl (fun session request => (session.answer request).2) session

def grants (session : Session) : List Request → List Grant
  | [] => []
  | request :: requests => session.granted request ++ grants (session.answer request).2 requests

/-! ## One request -/

theorem refused_of_closed {session : Session} (h : session.closed = true) {request : Request}
    (hmark : request.isResult = false) :
    session.answer request = (.refused .sessionClosed, session) := by
  cases request with
  | markConstruct start stop kind placement => simp only [answer, markConstruct, if_pos h]
  | markComments decision => simp only [answer, markComments, if_pos h]
  | code => exact absurd hmark (by simp [Request.isResult])
  | removed => exact absurd hmark (by simp [Request.isResult])
  | sourceMap => exact absurd hmark (by simp [Request.isResult])
  | renderedMap => exact absurd hmark (by simp [Request.isResult])

/-- An open session marks a construct if its offsets are a span between characters of the source, and
is left as it is if they are not. -/
theorem markConstruct_of_open {session : Session} (h : session.closed = false) (start stop : Nat)
    (kind : Construct) (placement : Placement) :
    session.answer (.markConstruct start stop kind placement) =
      if start < stop ∧ stop ≤ session.source.utf8ByteSize ∧
          isBoundary session.source start = true ∧ isBoundary session.source stop = true then
        (.marked, session.addMarks .construct
          [Padding.construct session.source ⟨start, stop⟩ kind placement])
      else (.refused (.invalidSpan start stop session.source.utf8ByteSize), session) := by
  have hopen : ¬ session.closed = true := by
    rw [h]
    simp
  unfold answer markConstruct
  dsimp only
  rw [if_neg hopen, Span.ofBounds]
  split_ifs <;> rfl

theorem markComments_of_open {session : Session} (h : session.closed = false)
    (decision : Decision) :
    ∃ report, session.answer (.markComments decision) =
      (.report report, session.addMarks .comment
        ((decision.chosen (Comment.all session.source)).filterMap
          (Padding.comment session.source))) := by
  have hopen : ¬ session.closed = true := by
    rw [h]
    simp
  unfold answer markComments
  dsimp only
  rw [if_neg hopen]
  exact ⟨_, rfl⟩

@[simp] theorem marks_addMarks (session : Session) (kind : Mark.Kind) (spans : List Span) :
    (session.addMarks kind spans).marks.map Mark.span = session.marks.map Mark.span ++ spans := by
  simp [addMarks, Function.comp_def]

theorem filterMap_filter_isSome {α β : Type} (f : α → Option β) (xs : List α) :
    (xs.filter fun x => (f x).isSome).filterMap f = xs.filterMap f := by
  rw [List.filterMap_filter]
  refine List.filterMap_congr fun x _ => ?_
  cases f x <;> rfl

/-- An answer grants sound removals, marks what it grants, and leaves the source alone. -/
theorem answer_spec (session : Session) (request : Request) :
    (session.answer request).2.source = session.source ∧
    (session.answer request).2.marks.map Mark.span = session.marks.map Mark.span ++
      (session.granted request).filterMap (Grant.mark session.source) ∧
    ∀ grant ∈ session.granted request, grant.Sound session.source := by
  cases request with
  | markConstruct start stop kind placement =>
      cases hclosed : session.closed with
      | true =>
          rw [granted, refused_of_closed hclosed rfl]
          simp [Grant.ofAnswer]
      | false =>
          rw [granted, markConstruct_of_open hclosed]
          split_ifs with hvalid
          · refine ⟨rfl, marks_addMarks .., ?_⟩
            intro grant hgrant
            rw [List.mem_singleton.mp hgrant]
            exact if_pos hvalid
          · simp [Grant.ofAnswer]
  | markComments decision =>
      cases hclosed : session.closed with
      | true =>
          rw [granted, refused_of_closed hclosed rfl]
          simp [Grant.ofAnswer]
      | false =>
          obtain ⟨report, hanswer⟩ := markComments_of_open hclosed decision
          rw [granted, hanswer]
          refine ⟨rfl, ?_, ?_⟩
          · rw [marks_addMarks, Grant.ofAnswer, List.filterMap_map]
            exact congrArg _ (filterMap_filter_isSome _ _).symm
          · intro grant hgrant
            obtain ⟨c, hc, rfl⟩ := List.mem_map.mp hgrant
            obtain ⟨hchosen, hsome⟩ := List.mem_filter.mp hc
            exact ⟨Decision.mem_of_mem_chosen hchosen, hsome⟩
  | code => simp [granted, Grant.ofAnswer, answer, close]
  | removed => simp [granted, Grant.ofAnswer, answer, close]
  | sourceMap => simp [granted, Grant.ofAnswer, answer, close]
  | renderedMap => simp [granted, Grant.ofAnswer, answer, close]

/-! ## All requests -/

theorem after_cons (session : Session) (request : Request) (requests : List Request) :
    session.after (request :: requests) = (session.answer request).2.after requests := rfl

theorem after_append (session : Session) (requests later : List Request) :
    session.after (requests ++ later) = (session.after requests).after later :=
  List.foldl_append

theorem grants_append (session : Session) (requests later : List Request) :
    session.grants (requests ++ later) =
      session.grants requests ++ (session.after requests).grants later := by
  induction requests generalizing session with
  | nil => rfl
  | cons request requests ih =>
      rw [List.cons_append, grants, grants, ih, after_cons, List.append_assoc]

theorem after_spec (session : Session) (requests : List Request) :
    (session.after requests).source = session.source ∧
    (session.after requests).marks.map Mark.span = session.marks.map Mark.span ++
      (session.grants requests).filterMap (Grant.mark session.source) ∧
    ∀ grant ∈ session.grants requests, grant.Sound session.source := by
  induction requests generalizing session with
  | nil => simp [after, grants]
  | cons request requests ih =>
      obtain ⟨hsource, hmarks, hsound⟩ := answer_spec session request
      obtain ⟨ihsource, ihmarks, ihsound⟩ := ih (session.answer request).2
      rw [hsource] at ihsource ihmarks ihsound
      rw [hmarks] at ihmarks
      rw [after_cons, grants]
      refine ⟨ihsource, ?_, ?_⟩
      · rw [ihmarks, List.filterMap_append, List.append_assoc]
      · intro grant hgrant
        rcases List.mem_append.mp hgrant with h | h
        · exact hsound grant h
        · exact ihsound grant h

end Session

end JsPrune
