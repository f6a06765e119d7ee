import JsPrune.Proofs.Marks
import JsPrune.Proofs.Session.Exactness
/-!
# The life of a session

A session is open until it is asked for its first result, and closed ever after.  Only an open session
takes marks, so every result, whenever and however often it is asked for, is that of the marks which
the session took before the first one.
-/

namespace JsPrune

open Text

def Request.opening (requests : List Request) : List Request :=
  requests.takeWhile fun request => !request.isResult

namespace Session

/-! ## One request -/

theorem snd_answer_of_result (session : Session) {request : Request}
    (h : request.isResult = true) : (session.answer request).2 = session.close := by
  cases request with
  | markConstruct => exact absurd h (by simp [Request.isResult])
  | markComments => exact absurd h (by simp [Request.isResult])
  | code => rfl
  | removed => rfl
  | sourceMap => rfl
  | renderedMap => rfl

/-- A request closes the session if it asks for a result, adds marks to an open session, or changes
nothing. -/
theorem answer_cases (session : Session) (request : Request) :
    (request.isResult = true ∧ (session.answer request).2 = session.close) ∨
      (request.isResult = false ∧ session.closed = false ∧
        ∃ kind spans, (session.answer request).2 = session.addMarks kind spans) ∨
      (request.isResult = false ∧ (session.answer request).2 = session) := by
  cases hclosed : session.closed with
  | true =>
      cases hresult : request.isResult with
      | true => exact Or.inl ⟨rfl, snd_answer_of_result session hresult⟩
      | false =>
          rw [refused_of_closed hclosed hresult]
          exact Or.inr (Or.inr ⟨rfl, rfl⟩)
  | false =>
      cases request with
      | markConstruct start stop kind placement =>
          right
          rw [markConstruct_of_open hclosed]
          split_ifs
          · exact Or.inl ⟨rfl, rfl, _, _, rfl⟩
          · exact Or.inr ⟨rfl, rfl⟩
      | markComments decision =>
          obtain ⟨report, hanswer⟩ := markComments_of_open hclosed decision
          rw [hanswer]
          exact Or.inr (Or.inl ⟨rfl, rfl, _, _, rfl⟩)
      | code => exact Or.inl ⟨rfl, rfl⟩
      | removed => exact Or.inl ⟨rfl, rfl⟩
      | sourceMap => exact Or.inl ⟨rfl, rfl⟩
      | renderedMap => exact Or.inl ⟨rfl, rfl⟩

theorem close_of_closed {session : Session} (h : session.closed = true) :
    session.close = session := by
  obtain ⟨source, sourceName, marks, finalized, agrees⟩ := session
  cases finalized with
  | none => exact absurd h (by simp [closed])
  | some result => rfl

/-- A closed session holds what its marks come down to. -/
theorem finalized_eq (session : Session) :
    session.finalized =
      if session.closed then some (Finalized.ofMarks session.source session.marks) else none := by
  unfold closed
  cases hslot : session.finalized with
  | none => rfl
  | some result => exact congrArg some (session.agrees result hslot)

theorem closed_answer (session : Session) (request : Request) :
    (session.answer request).2.closed = (session.closed || request.isResult) := by
  rcases answer_cases session request with ⟨hresult, heq⟩ | ⟨hmark, hopen, kind, spans, heq⟩ |
    ⟨hmark, heq⟩
  · rw [heq, hresult, Bool.or_true]
    rfl
  · rw [heq, hmark, hopen]
    rfl
  · rw [heq, hmark, Bool.or_false]

theorem sourceName_answer (session : Session) (request : Request) :
    (session.answer request).2.sourceName = session.sourceName := by
  rcases answer_cases session request with ⟨-, heq⟩ | ⟨-, -, kind, spans, heq⟩ | ⟨-, heq⟩
  · rw [heq]
    rfl
  · rw [heq]
    rfl
  · rw [heq]

theorem answer_of_closed {session : Session} (h : session.closed = true) (request : Request) :
    (session.answer request).2 = session := by
  rcases answer_cases session request with ⟨-, heq⟩ | ⟨-, hopen, -⟩ | ⟨-, heq⟩
  · rw [heq, close_of_closed h]
  · rw [h] at hopen
    exact absurd hopen (by simp)
  · exact heq

/-! ## All requests -/

theorem closed_after (session : Session) (requests : List Request) :
    (session.after requests).closed = (session.closed || requests.any Request.isResult) := by
  induction requests generalizing session with
  | nil => exact (Bool.or_false _).symm
  | cons request requests ih =>
      rw [after_cons, ih, closed_answer, List.any_cons, Bool.or_assoc]

theorem sourceName_after (session : Session) (requests : List Request) :
    (session.after requests).sourceName = session.sourceName := by
  induction requests generalizing session with
  | nil => rfl
  | cons request requests ih => rw [after_cons, ih, sourceName_answer]

theorem after_of_closed {session : Session} (h : session.closed = true)
    (requests : List Request) : session.after requests = session := by
  induction requests with
  | nil => rfl
  | cons request requests ih => rw [after_cons, answer_of_closed h, ih]

theorem marks_after (session : Session) (requests : List Request) :
    (session.after requests).marks = (session.after (Request.opening requests)).marks := by
  induction requests generalizing session with
  | nil => rfl
  | cons request requests ih =>
      unfold Request.opening at ih ⊢
      rw [after_cons, List.takeWhile_cons]
      cases hresult : request.isResult with
      | true =>
          -- The first result closes the session, so the requests behind it change nothing.
          rw [snd_answer_of_result session hresult, after_of_closed rfl]
          rfl
      | false =>
          rw [Bool.not_false, if_pos rfl, after_cons]
          exact ih _

/-! ## Whether the code changes -/

theorem mark_nonempty (source sourceName : String) (requests : List Request) {mark : Mark}
    (hmark : mark ∈ ((new source sourceName).after requests).marks) :
    mark.span.start < mark.span.stop := by
  have hspan := List.mem_map_of_mem (f := Mark.span) hmark
  rw [marks_after_new] at hspan
  obtain ⟨grant, hgrant, hwide⟩ := List.mem_filterMap.mp hspan
  have hsound := sound_grants_new source sourceName requests grant hgrant
  obtain ⟨wide, hwide', hfits⟩ := Grant.exists_fits hsound
  obtain rfl := Option.some.inj (hwide.symm.trans hwide')
  have hnames : ∃ i, grant.names source i = true := by
    cases grant with
    | construct span kind placement =>
        have hlt := (Span.bounds_of_ofBounds hsound).1
        exact ⟨span.start, by simp [Grant.names, hlt]⟩
    | comment c =>
        have htwo := (Comment.standsIn_of_mem hsound.1).start_add_two_le
        exact ⟨c.span.start, by simp [Grant.names]; omega⟩
  obtain ⟨i, hi⟩ := hnames
  have := hfits.holds i hi
  omega

theorem size_code_after (source sourceName : String) (requests : List Request) :
    ((new source sourceName).after requests).code.utf8ByteSize +
      Span.totalLength ((new source sourceName).after requests).removed =
        source.utf8ByteSize := by
  have hsize := size_cut_add (cuttable_after_new source sourceName requests)
  rw [code_eq, source_after_new]
  exact hsize

theorem code_of_unchanged {session : Session} (h : session.marks = []) :
    session.code = session.source := by
  have hnone : Cuttable session.source [] := ⟨Span.canonical_nil, by simp⟩
  have hcode : session.code = cut session.source [] := by
    rw [code_eq, removed_eq, h]
    rfl
  rw [hcode, ← String.toList_inj, toList_cut hnone]
  exact keep_eq_self fun i _ _ => Span.covers_nil i

theorem totalLength_pos_of_changed (source sourceName : String) (requests : List Request)
    (h : ((new source sourceName).after requests).hasChanged = true) :
    0 < Span.totalLength ((new source sourceName).after requests).removed := by
  unfold hasChanged at h
  cases hmarks : ((new source sourceName).after requests).marks with
  | nil =>
      rw [hmarks] at h
      exact absurd h (by simp)
  | cons mark marks =>
      have hmem : mark ∈ ((new source sourceName).after requests).marks := by
        rw [hmarks]
        exact List.mem_cons_self
      rw [removed_eq]
      apply Mark.totalLength_pos (Mark.canonical_removed _ _)
      exact Mark.removed_ne_nil hmem (mark_nonempty source sourceName requests hmem)

/-! ## Sessions from the start -/

def reached (source sourceName : String) (requests : List Request) : Session :=
  (new source sourceName).after requests

def taken (source sourceName : String) (requests : List Request) : List Mark :=
  ((new source sourceName).after (Request.opening requests)).marks

/-- What holds of a session on `source` after some requests. -/
structure Lifecycle (source sourceName : String) (requests : List Request) : Prop where
  /-- It is closed from the first result on. -/
  closed_iff : (reached source sourceName requests).closed = true ↔
    ∃ request ∈ requests, request.isResult = true
  marks_eq : (reached source sourceName requests).marks = taken source sourceName requests
  /-- The first result finds out what these marks come down to, and the later ones are taken from
  there. -/
  slot_eq : (reached source sourceName requests).finalized =
    if requests.any Request.isResult then
      some (Finalized.ofMarks source (taken source sourceName requests))
    else none
  /-- Closed, it turns every mark down, whatever is to be marked, and stays as it is. -/
  refuses : (reached source sourceName requests).closed = true →
    ∀ request : Request, request.isResult = false →
      (reached source sourceName requests).answer request =
        (.refused .sessionClosed, reached source sourceName requests)
  /-- Open, it turns a construct down exactly if its offsets are no span between characters, and then
  stays as it is. -/
  marks_construct : (reached source sourceName requests).closed = false →
    ∀ (start stop : Nat) (kind : Construct) (placement : Placement),
      (reached source sourceName requests).answer (.markConstruct start stop kind placement) =
        if start < stop ∧ stop ≤ source.utf8ByteSize ∧ isBoundary source start = true ∧
            isBoundary source stop = true then
          (.marked, (reached source sourceName requests).addMarks .construct
            [Padding.construct source ⟨start, stop⟩ kind placement])
        else (.refused (.invalidSpan start stop source.utf8ByteSize),
          reached source sourceName requests)
  /-- Open, it never turns a decision about comments down. -/
  marks_comments : (reached source sourceName requests).closed = false →
    ∀ decision : Decision, ∃ report,
      (reached source sourceName requests).answer (.markComments decision) =
        (.report report, (reached source sourceName requests).addMarks .comment
          ((decision.chosen (Comment.all source)).filterMap (Padding.comment source)))
  /-- Every result is that of the marks taken before the first one. -/
  removed_eq : ((reached source sourceName requests).answer .removed).1 =
    .removed (Mark.removed source (taken source sourceName requests))
  code_eq : ((reached source sourceName requests).answer .code).1 =
    .code (cut source (Mark.removed source (taken source sourceName requests)))
  sourceMap_eq : ((reached source sourceName requests).answer .sourceMap).1 =
    .sourceMap (.ofCut source (cut source (Mark.removed source (taken source sourceName requests)))
      sourceName (Mark.removed source (taken source sourceName requests)))
  renderedMap_eq : ((reached source sourceName requests).answer .renderedMap).1 =
    .renderedMap (SourceMap.ofCut source
      (cut source (Mark.removed source (taken source sourceName requests))) sourceName
      (Mark.removed source (taken source sourceName requests))).render
  /-- The code differs from the source exactly if there is a mark. -/
  changed_iff : (reached source sourceName requests).code ≠ source ↔
    (reached source sourceName requests).hasChanged = true
  size_code : (reached source sourceName requests).code.utf8ByteSize +
    Span.totalLength (reached source sourceName requests).removed = source.utf8ByteSize
  shorter : (reached source sourceName requests).hasChanged = true →
    (reached source sourceName requests).code.utf8ByteSize < source.utf8ByteSize

/-- Whatever a session was asked before, and in whatever order, it is closed from its first result on,
takes marks only while it is open, answers with the marks that it took until then, and gives back its
source or less, as there are marks or not. -/
theorem lifecycle (source sourceName : String) (requests : List Request) :
    Lifecycle source sourceName requests := by
  have hsource : (reached source sourceName requests).source = source :=
    source_after_new source sourceName requests
  have hname : (reached source sourceName requests).sourceName = sourceName :=
    sourceName_after (new source sourceName) requests
  have hmarks : (reached source sourceName requests).marks = taken source sourceName requests :=
    marks_after (new source sourceName) requests
  have hclosed : (reached source sourceName requests).closed =
      requests.any Request.isResult :=
    closed_after (new source sourceName) requests
  have hremoved : (reached source sourceName requests).removed =
      Mark.removed source (taken source sourceName requests) := by
    rw [removed_eq, hsource, hmarks]
  have hcode : (reached source sourceName requests).code =
      cut source (Mark.removed source (taken source sourceName requests)) := by
    rw [code_eq, hsource, hremoved]
  have hmap : (reached source sourceName requests).sourceMap =
      .ofCut source (cut source (Mark.removed source (taken source sourceName requests)))
        sourceName (Mark.removed source (taken source sourceName requests)) := by
    rw [sourceMap, hsource, hname, hcode, hremoved]
  have hsize := size_code_after source sourceName requests
  have hshorter := totalLength_pos_of_changed source sourceName requests
  have hchanged : (reached source sourceName requests).code ≠ source ↔
      (reached source sourceName requests).hasChanged = true := by
    constructor
    · intro hne
      by_contra hunchanged
      apply hne
      rw [hasChanged, Bool.not_eq_true, Bool.not_eq_false', List.isEmpty_iff] at hunchanged
      rw [code_of_unchanged hunchanged, hsource]
    · intro hchanged heq
      have hpos := hshorter hchanged
      unfold reached at heq
      rw [heq] at hsize
      omega
  have hslot := finalized_eq (reached source sourceName requests)
  rw [hclosed, hsource, hmarks] at hslot
  refine ⟨?_, hmarks, hslot, ?_, ?_, ?_, ?_, ?_, ?_, ?_, hchanged, hsize, ?_⟩
  · rw [hclosed, List.any_eq_true]
  · intro h request hmark
    exact refused_of_closed h hmark
  · intro h start stop kind placement
    rw [markConstruct_of_open h, hsource]
  · intro h decision
    obtain ⟨report, hanswer⟩ := markComments_of_open h decision
    rw [hsource] at hanswer
    exact ⟨report, hanswer⟩
  · rw [← hremoved]
    rfl
  · rw [← hcode]
    rfl
  · rw [← hmap]
    rfl
  · rw [← hmap]
    rfl
  · intro h
    have hpos := hshorter h
    change (reached source sourceName requests).code.utf8ByteSize + _ = _ at hsize
    omega

end Session

end JsPrune
