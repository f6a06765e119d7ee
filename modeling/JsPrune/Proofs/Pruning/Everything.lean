import JsPrune.Proofs.Pruning.Kept
import JsPrune.Proofs.Pruning.Seams
import JsPrune.Proofs.Pruning.Statements
/-!
# One pass and two

The pass over statements and comments at once removes the statements that the pass over statements
removes.  Of the comments, it judges each by what stands beside it in the script, where the pass over
comments, run behind the pass over statements, judges it by what the latter leaves.  The two routes
agree unless a comment is found in one of these texts only, or a statement that goes stands beside a
comment between code.
-/

namespace JsPrune

open Text Segment

namespace Text

def visible (s : String) : List UInt8 := (bytes s).filter fun b => !isSpace b

def visibleAt (s : String) (test : Nat → Bool) : List UInt8 :=
  (((List.range s.utf8ByteSize).filter test).filterMap (byte? s)).filter fun b => !isSpace b

end Text

namespace Policy

/-- The removals that the pass over statements marks. -/
def statementRemovals (parser : Parser) (policy : Policy) (source : String) : List Script.Removal :=
  if policy.removesStatements then
    match parser.tree source with
    | .error _ => []
    | .ok tree => Script.Finding.removals (Script.findings policy source .root tree)
  else []

/-- Whether offset `i` lies in a comment that goes: the policy removes it, and it need not stay. -/
def erases (policy : Policy) (source : String) (i : Nat) : Bool :=
  (Comment.all source).any fun c => policy.removesCommentText c.text &&
    (Padding.comment source c).isSome && decide (c.span.start ≤ i) && decide (i < c.span.stop)

end Policy

namespace Session

def withoutStatements (parser : Parser) (source sourceName : String) (policy : Policy) : Session :=
  (new source sourceName).after
    ((policy.statementRemovals parser source).map Script.Removal.request)

end Session

/-! ## What the passes mark -/

theorem Policy.markStatements_ok {parser : Parser} {policy : Policy} {source sourceName : String}
    {marked : Session}
    (hactive : policy.removesStatements = true)
    (h : (policy.markStatements parser (Session.new source sourceName)).1 = .ok marked) :
    marked = Session.withoutStatements parser source sourceName policy ∧
      (Session.new source sourceName).grants
        ((policy.statementRemovals parser source).map Script.Removal.request) =
          (policy.statementRemovals parser source).map Script.Removal.grant := by
  unfold Policy.markStatements at h
  have hsource : (Session.new source sourceName).source = source := rfl
  rw [hsource] at h
  cases hparse : parser.tree source with
  | error error =>
      rw [hparse] at h
      exact absurd h (by simp)
  | ok tree =>
      rw [hparse] at h
      have hremovals : policy.statementRemovals parser source =
          Script.Finding.removals (Script.findings policy source .root tree) := by
        rw [statementRemovals, if_pos hactive, hparse]
      rw [Session.withoutStatements, hremovals]
      exact Session.markRemovals_ok h

namespace Pass

/-- If the pass over statements succeeds, it has marked its removals, and the pass over everything
comes to the comments with the same marks. -/
theorem runStatements_eq_ok {parser : Parser} {policy : Policy} {source sourceName : String}
    {first : Option Pruned} (h : (runStatements parser policy source sourceName).result = .ok first) :
    first = (Session.withoutStatements parser source sourceName policy).finish ∧
      (Session.new source sourceName).grants
        ((policy.statementRemovals parser source).map Script.Removal.request) =
          (policy.statementRemovals parser source).map Script.Removal.grant ∧
      (runEverything parser policy source sourceName).result =
        (policy.markComments (Session.withoutStatements parser source sourceName policy)).map
          Session.finish := by
  unfold runStatements at h
  unfold runEverything
  cases hactive : policy.removesStatements with
  | false =>
      rw [hactive] at h
      have hnone : policy.statementRemovals parser source = [] := by
        rw [Policy.statementRemovals, hactive]
        rfl
      rw [Session.withoutStatements, hnone]
      exact ⟨(Except.ok.inj h).symm, rfl, rfl⟩
  | true =>
      rw [if_pos hactive] at h
      simp only [if_true]
      cases hmarked : (policy.markStatements parser (Session.new source sourceName)).1 with
      | error error =>
          dsimp only at h
          rw [hmarked] at h
          exact absurd h (by simp [Except.map])
      | ok marked =>
          dsimp only at h ⊢
          rw [hmarked] at h
          obtain ⟨rfl, hgrants⟩ := Policy.markStatements_ok hactive hmarked
          exact ⟨(Except.ok.inj h).symm, hgrants, rfl⟩

end Pass

namespace Policy

variable {parser : Parser} {policy : Policy} {source sourceName : String}

theorem closed_withoutStatements (parser : Parser) (source sourceName : String) (policy : Policy) :
    (Session.withoutStatements parser source sourceName policy).closed = false := by
  rw [Session.withoutStatements, Session.closed_after, List.any_map, List.any_eq_false.mpr]
  · rfl
  · exact fun r _ => by simp [Script.Removal.request, Request.isResult]

theorem markComments_of_open {session : Session} (h : session.closed = false) :
    policy.markComments session =
      .ok (session.answer (.markComments policy.removesCommentText)).2 := by
  unfold Policy.markComments Session.answer Session.markComments
  rw [h]
  rfl

theorem erases_iff {i : Nat} : policy.erases source i = true ↔
    ∃ c ∈ Comment.all source, policy.removesCommentText c.text = true ∧
      ¬ Padding.Held source c ∧ c.span.start ≤ i ∧ i < c.span.stop := by
  simp only [erases, List.any_eq_true, Bool.and_eq_true, decide_eq_true_eq, and_assoc,
    ← Padding.comment_eq_none_iff, ← Option.isSome_iff_ne_none]

theorem names_grants {session : Session} (hclosed : session.closed = false)
    (hsource : session.source = source) (i : Nat) :
    ((session.grants [.markComments policy.removesCommentText]).any fun grant =>
      grant.names source i) = policy.erases source i := by
  obtain ⟨report, hanswer⟩ := Session.markComments_of_open hclosed policy.removesCommentText
  rw [Session.grants, Session.grants, List.append_nil, Session.granted, hanswer, Grant.ofAnswer,
    hsource, Decision.chosen_of_text, List.any_map, List.filter_filter, List.any_filter, erases]
  refine congrArg (List.any _) (funext fun c => ?_)
  rw [Function.comp_apply, Grant.names, Bool.and_comm (Padding.comment source c).isSome,
    ← Bool.and_assoc]

end Policy

/-! ## What is left -/

namespace Session

/-- What a session leaves, apart from spaces, when what it grants is known. -/
theorem visible_code_after_new {source sourceName : String} {requests : List Request}
    {test : Nat → Bool} (h : ∀ i, (byte? source i).any isSpace = false →
      (((new source sourceName).grants requests).any fun grant => grant.names source i) = !test i) :
    visible ((new source sourceName).after requests).code = visibleAt source test := by
  rw [visible, bytes_code_after_new, origins]
  refine filter_not_isSpace_congr _ fun i hi => ?_
  rw [covers_removed_eq_names _ _ _ hi, h i hi, Bool.not_not]

theorem visible_withoutComments (policy : Policy) (source sourceName : String) :
    visible (withoutComments source sourceName policy.removesCommentText).code =
      visibleAt source fun i => !policy.erases source i := by
  have hafter : withoutComments source sourceName policy.removesCommentText =
      (new source sourceName).after [.markComments policy.removesCommentText] := rfl
  rw [hafter]
  refine visible_code_after_new fun i _ => ?_
  rw [Bool.not_not]
  exact Policy.names_grants rfl rfl i

theorem visible_everything (parser : Parser) (policy : Policy) (source sourceName : String) :
    visible ((withoutStatements parser source sourceName policy).answer
        (.markComments policy.removesCommentText)).2.code =
      visibleAt source fun i =>
        !Span.covers (withoutStatements parser source sourceName policy).removed i &&
          !policy.erases source i := by
  have hafter : ((withoutStatements parser source sourceName policy).answer
      (.markComments policy.removesCommentText)).2 = (new source sourceName).after
        ((policy.statementRemovals parser source).map Script.Removal.request ++
          [.markComments policy.removesCommentText]) := by
    rw [after_append]
    rfl
  have hclosed := Policy.closed_withoutStatements parser source sourceName policy
  rw [hafter]
  unfold withoutStatements at hclosed ⊢
  refine visible_code_after_new fun i hi => ?_
  rw [grants_append, List.any_append, ← covers_removed_eq_names _ _ _ hi,
    Policy.names_grants hclosed (source_after_new source sourceName _), Bool.not_and, Bool.not_not,
    Bool.not_not]

end Session

theorem visibleAt_cut {source : String} {removed : List Span} (h : Cuttable source removed)
    (test : Nat → Bool) :
    visibleAt (cut source removed) test =
      visibleAt source fun i => !Span.covers removed i && test (rank removed i) := by
  have hlen : (cut source removed).utf8ByteSize = (origins source removed).length := size_cut h
  have hbyte : ∀ i ∈ (origins source removed).filter (test ∘ rank removed),
      byte? (cut source removed) (rank removed i) = byte? source i := by
    intro i hi
    obtain ⟨hsize, hkept⟩ := mem_origins.mp (List.mem_filter.mp hi).1
    exact byte?_rank h hsize hkept
  unfold visibleAt
  calc ((((List.range (cut source removed).utf8ByteSize).filter test).filterMap
          (byte? (cut source removed))).filter fun b => !isSpace b)
    _ = ((((origins source removed).filter (test ∘ rank removed)).filterMap
          fun i => byte? (cut source removed) (rank removed i)).filter fun b => !isSpace b) := by
        rw [hlen, ← map_rank_origins, List.filter_map, List.filterMap_map]
        rfl
    _ = ((((origins source removed).filter (test ∘ rank removed)).filterMap
          (byte? source)).filter fun b => !isSpace b) := by
        rw [List.filterMap_congr hbyte]
    _ = ((((List.range source.utf8ByteSize).filter fun i =>
          !Span.covers removed i && test (rank removed i)).filterMap
          (byte? source)).filter fun b => !isSpace b) := by
        rw [origins, List.filter_filter]
        simp only [Function.comp_apply, Bool.and_comm]

/-! ## Where the two routes agree -/

namespace Policy

/-- Statements that go without a trace in the comments: what is left has the comments of the script
that are left, and a comment that the policy removes goes as a part of a statement, or is left in one
piece, with the same need to stay. -/
structure Undisturbed (policy : Policy) (source : String) (removed : List Span) : Prop where
  same : Comment.all (cut source removed) =
    ((Comment.all source).filter fun c => !Span.covers removed c.span.start).map
      (Comment.afterCut removed)
  beside : ∀ c ∈ Comment.all source, policy.removesCommentText c.text = true →
    (∀ i, c.span.start ≤ i → i < c.span.stop → Span.covers removed i = true) ∨
      (∀ r ∈ removed, r.Apart c.span) ∧ Padding.Unswayed source removed c

/-- The same, told from where the statements stand: the scanner does not notice that they go, and a
comment that the policy removes goes with one of them or has the same need to stay. -/
structure Unnoticed (policy : Policy) (source : String) (removed : List Span) : Prop where
  seams : ∀ r ∈ removed, Scanner.Seam source removed r
  line : (Scanner.splitHashbang (cut source removed).toList).1 =
    (Scanner.splitHashbang source.toList).1
  beside : ∀ c ∈ Comment.all source, policy.removesCommentText c.text = true →
    Span.covers removed c.span.start = true ∨ Padding.Unswayed source removed c

theorem Unnoticed.undisturbed {policy : Policy} {source : String} {removed : List Span}
    (hunnoticed : policy.Unnoticed source removed) (h : Cuttable source removed) :
    policy.Undisturbed source removed := by
  refine ⟨Comment.all_cut h hunnoticed.seams hunnoticed.line, fun c hc hremoves => ?_⟩
  have htwo := (Comment.standsIn_of_mem hc).start_add_two_le
  have hside := fun r hr => Comment.inside_or_apart (hunnoticed.seams r hr) hc
  cases hcovers : Span.covers removed c.span.start with
  | true =>
      left
      obtain ⟨r, hr, hle, hlt⟩ := Span.covers_iff.mp hcovers
      rcases hside r hr with hinside | hapart | hapart
      · exact fun i hi hic => Span.covers_of_mem hr (by omega) (by omega)
      · omega
      · omega
  | false =>
      right
      have hunswayed := (hunnoticed.beside c hc hremoves).resolve_left (by rw [hcovers]; simp)
      refine ⟨fun r hr => (hside r hr).resolve_left fun hinside => ?_, hunswayed⟩
      rw [Span.covers_of_mem hr hinside.1 (by omega)] at hcovers
      exact absurd hcovers (by simp)

theorem erases_afterCut {policy : Policy} {source : String} {removed : List Span}
    (h : Cuttable source removed) (hundisturbed : policy.Undisturbed source removed) {i : Nat}
    (hkept : Span.covers removed i = false) :
    policy.erases (cut source removed) (rank removed i) = policy.erases source i := by
  rw [Bool.eq_iff_iff, erases_iff, erases_iff]
  constructor
  · rintro ⟨c', hc', hremoves, hheld, hstart, hstop⟩
    rw [hundisturbed.same] at hc'
    obtain ⟨c, hc, rfl⟩ := List.mem_map.mp hc'
    obtain ⟨hmem, hout⟩ := List.mem_filter.mp hc
    have hstands := Comment.standsIn_of_mem hmem
    have htwo := hstands.start_add_two_le
    rcases hundisturbed.beside c hmem hremoves with hcovered | ⟨-, hunswayed⟩
    · rw [hcovered _ (Nat.le_refl _) (by omega)] at hout
      exact absurd hout (by simp)
    · refine ⟨c, hmem, hremoves, ?_, ?_, (rank_lt_iff hkept).mp hstop⟩
      · rwa [Padding.held_afterCut_iff h hstands hunswayed] at hheld
      · by_contra hlt
        have := rank_lt (Nat.lt_of_not_le hlt) hkept
        exact absurd hstart (by dsimp only [Comment.afterCut]; omega)
  · rintro ⟨c, hmem, hremoves, hheld, hstart, hstop⟩
    have hstands := Comment.standsIn_of_mem hmem
    rcases hundisturbed.beside c hmem hremoves with hcovered | ⟨hapart, hunswayed⟩
    · rw [hcovered i hstart hstop] at hkept
      exact absurd hkept (by simp)
    · refine ⟨c.afterCut removed, ?_, hremoves, ?_, rank_mono removed hstart,
        rank_lt hstop hkept⟩
      · rw [hundisturbed.same]
        refine List.mem_map_of_mem (List.mem_filter.mpr ⟨hmem, ?_⟩)
        rw [Span.covers_eq_false_of_apart hapart (Nat.le_refl _) (by omega)]
        rfl
      · rwa [Padding.held_afterCut_iff h hstands hunswayed]

theorem Undisturbed.visibleAt_eq {policy : Policy} {source : String} {removed : List Span}
    (hundisturbed : policy.Undisturbed source removed) (h : Cuttable source removed) :
    (visibleAt source fun i => !Span.covers removed i &&
        !policy.erases (cut source removed) (rank removed i)) =
      visibleAt source fun i => !Span.covers removed i && !policy.erases source i := by
  refine congrArg (visibleAt source) (funext fun i => ?_)
  cases hkept : Span.covers removed i with
  | true => rfl
  | false => rw [erases_afterCut h hundisturbed hkept]

end Policy

namespace Pass

variable {parser : Parser} {policy : Policy} {source sourceName : String} {first : Option Pruned}

theorem cuttable_withoutStatements (parser : Parser) (policy : Policy) (source sourceName : String) :
    Cuttable source (Session.withoutStatements parser source sourceName policy).removed :=
  Session.cuttable_after_new source sourceName _

theorem elim_runStatements (h : (runStatements parser policy source sourceName).result = .ok first) :
    first.elim source Pruned.code =
      cut source (Session.withoutStatements parser source sourceName policy).removed := by
  have hsource : (Session.withoutStatements parser source sourceName policy).source = source :=
    Session.source_after_new source sourceName _
  have helim := Session.elim_finish (Session.withoutStatements parser source sourceName policy)
  rw [hsource, ← (runStatements_eq_ok h).1, Session.code_eq, hsource] at helim
  exact helim

theorem covers_withoutStatements (h : (runStatements parser policy source sourceName).result = .ok first)
    {i : Nat} (hi : (byte? source i).any isSpace = false) :
    Span.covers (Session.withoutStatements parser source sourceName policy).removed i =
      (policy.statementRemovals parser source).any fun r => r.grant.names source i := by
  rw [Session.withoutStatements, Session.covers_removed_eq_names _ _ _ hi,
    (runStatements_eq_ok h).2.1, List.any_map]
  rfl

theorem visible_runComments (h : (runStatements parser policy source sourceName).result = .ok first) :
    ∃ second,
      (runComments policy (first.elim source Pruned.code) sourceName).result = .ok second ∧
      visible (second.elim (first.elim source Pruned.code) Pruned.code) =
        visibleAt source fun i =>
          !Span.covers (Session.withoutStatements parser source sourceName policy).removed i &&
            !policy.erases (first.elim source Pruned.code)
              (rank (Session.withoutStatements parser source sourceName policy).removed i) := by
  obtain ⟨second, hsecond, hcode⟩ :=
    runComments_ok policy (first.elim source Pruned.code) sourceName
  refine ⟨second, hsecond, ?_⟩
  rw [hcode, Session.visible_withoutComments, elim_runStatements h]
  exact visibleAt_cut (cuttable_withoutStatements parser policy source sourceName) _

theorem visible_runEverything (h : (runStatements parser policy source sourceName).result = .ok first) :
    ∃ third, (runEverything parser policy source sourceName).result = .ok third ∧
      visible (third.elim source Pruned.code) = visibleAt source fun i =>
        !Span.covers (Session.withoutStatements parser source sourceName policy).removed i &&
          !policy.erases source i := by
  have hsource : ((Session.withoutStatements parser source sourceName policy).answer
      (.markComments policy.removesCommentText)).2.source = source :=
    (Session.answer_spec _ _).1.trans (Session.source_after_new source sourceName _)
  have helim := Session.elim_finish ((Session.withoutStatements parser source sourceName policy).answer
    (.markComments policy.removesCommentText)).2
  rw [hsource] at helim
  have hresult : (runEverything parser policy source sourceName).result =
      .ok ((Session.withoutStatements parser source sourceName policy).answer
        (.markComments policy.removesCommentText)).2.finish := by
    rw [(runStatements_eq_ok h).2.2,
      Policy.markComments_of_open (Policy.closed_withoutStatements parser source sourceName policy)]
    rfl
  refine ⟨_, hresult, ?_⟩
  rw [helim]
  exact Session.visible_everything parser policy source sourceName

/-- If the pass over statements succeeds, so do the pass over comments behind it and the one pass over
everything.  Both routes remove the same statements.  Of the comments, one pass removes those that
go from the script, and two passes those that go from what the first one leaves.  If the statements
go without a trace in the comments, as they do if the scanner does not notice that they go, then what
the two routes leave differs in spaces at most. -/
theorem runEverything_spec {parser : Parser} {policy : Policy} {source sourceName : String}
    {first : Option Pruned}
    (h : (runStatements parser policy source sourceName).result = .ok first) :
    let removed := (Session.withoutStatements parser source sourceName policy).removed
    let between := first.elim source Pruned.code
    between = cut source removed ∧
    (∀ i, (byte? source i).any isSpace = false → Span.covers removed i =
      (policy.statementRemovals parser source).any fun r => r.grant.names source i) ∧
    ∃ second third, (runComments policy between sourceName).result = .ok second ∧
      (runEverything parser policy source sourceName).result = .ok third ∧
      visible (second.elim between Pruned.code) = visibleAt source (fun i =>
        !Span.covers removed i && !policy.erases between (rank removed i)) ∧
      visible (third.elim source Pruned.code) = visibleAt source (fun i =>
        !Span.covers removed i && !policy.erases source i) ∧
      (policy.Unnoticed source removed → policy.Undisturbed source removed) ∧
      (policy.Undisturbed source removed →
        visible (second.elim between Pruned.code) = visible (third.elim source Pruned.code)) := by
  intro removed between
  have hbetween := elim_runStatements h
  refine ⟨hbetween, fun i hi => covers_withoutStatements h hi, ?_⟩
  obtain ⟨second, hsecond, htwo⟩ := visible_runComments h
  obtain ⟨third, hthird, hone⟩ := visible_runEverything h
  have hagree : policy.Undisturbed source removed →
      visible (second.elim between Pruned.code) = visible (third.elim source Pruned.code) := by
    intro hundisturbed
    rw [hone, ← hundisturbed.visibleAt_eq (cuttable_withoutStatements parser policy source sourceName),
      ← hbetween]
    exact htwo
  exact ⟨second, third, hsecond, hthird, htwo, hone,
    fun hunnoticed => hunnoticed.undisturbed (cuttable_withoutStatements parser policy source sourceName),
    hagree⟩

def besideTree : Tree :=
  .node .script ⟨0, 46⟩ [
    .node .expressionStatement ⟨0, 4⟩ [
      .node .call ⟨0, 3⟩ [.node .identifier ⟨0, 1⟩ [], .node .arguments ⟨1, 3⟩ []]],
    .node .debuggerStatement ⟨5, 14⟩ [],
    .node .expressionStatement ⟨21, 30⟩ [
      .node .call ⟨21, 29⟩ [.node .identifier ⟨21, 22⟩ [], .node .arguments ⟨22, 29⟩ []]],
    .node .debuggerStatement ⟨31, 40⟩ []]

def besideParser : Parser :=
  ⟨fun source =>
    if source = "f();\ndebugger;\n/*c*/ g(/*d*/);\ndebugger; // e\n" then some besideTree else none,
    fun _ => false⟩

/-- A comment behind a line that goes, one between code, and one behind a statement that goes. -/
theorem runEverything_spec_beside :
    ∃ second third,
      (runComments (Policy.ofPreset none) "f();\n/*c*/ g(/*d*/);\n// e\n" "a.js").result =
        .ok second ∧
      (runEverything besideParser (Policy.ofPreset none)
        "f();\ndebugger;\n/*c*/ g(/*d*/);\ndebugger; // e\n" "a.js").result = .ok third ∧
      visible (second.elim "f();\n/*c*/ g(/*d*/);\n// e\n" Pruned.code) =
        visible (third.elim "f();\ndebugger;\n/*c*/ g(/*d*/);\ndebugger; // e\n" Pruned.code) := by
  have hfirst : (runStatements besideParser (Policy.ofPreset none)
      "f();\ndebugger;\n/*c*/ g(/*d*/);\ndebugger; // e\n" "a.js").result =
        .ok (some ⟨"f();\n/*c*/ g(/*d*/);\n// e\n",
          "\x7b\"version\":3,\"sources\":[\"a.js\"],\"names\":[],\"mappings\":\"AAAA;AAEA;AACU\"\x7d"⟩) := by
    decide +kernel
  have hremoved : (Session.withoutStatements besideParser
      "f();\ndebugger;\n/*c*/ g(/*d*/);\ndebugger; // e\n" "a.js" (Policy.ofPreset none)).removed =
        [⟨5, 15⟩, ⟨31, 41⟩] := by
    decide +kernel
  have hall : Comment.all "f();\ndebugger;\n/*c*/ g(/*d*/);\ndebugger; // e\n" =
      [⟨⟨15, 20⟩, .block, "/*c*/", true⟩, ⟨⟨23, 28⟩, .block, "/*d*/", true⟩,
        ⟨⟨41, 45⟩, .line, "// e", true⟩] := by
    decide +kernel
  -- Each statement goes with the blanks around it, behind the end of a line.
  have hfour : Scanner.Reached "f();\ndebugger;\n/*c*/ g(/*d*/);\ndebugger; // e\n" 4
      ⟨true, false, 0, []⟩ ('\n' :: "debugger;\n/*c*/ g(/*d*/);\ndebugger; // e\n".toList) :=
    Scanner.Reached.of_walk 4 (by decide +kernel)
  have hfifteen : Scanner.Reached "f();\ndebugger;\n/*c*/ g(/*d*/);\ndebugger; // e\n" 15
      ⟨true, false, 0, []⟩ "/*c*/ g(/*d*/);\ndebugger; // e\n".toList :=
    Scanner.Reached.of_walk 8 (by decide +kernel)
  have hthirty : Scanner.Reached "f();\ndebugger;\n/*c*/ g(/*d*/);\ndebugger; // e\n" 30
      ⟨true, false, 0, []⟩ ('\n' :: "debugger; // e\n".toList) :=
    Scanner.Reached.of_walk 15 (by decide +kernel)
  have hfortyone : Scanner.Reached "f();\ndebugger;\n/*c*/ g(/*d*/);\ndebugger; // e\n" 41
      ⟨true, false, 0, []⟩ "// e\n".toList :=
    Scanner.Reached.of_walk 19 (by decide +kernel)
  obtain ⟨-, -, second, third, hsecond, hthird, -, -, hunnoticed, hagree⟩ :=
    runEverything_spec hfirst
  refine ⟨second, third, hsecond, hthird, hagree (hunnoticed ?_)⟩
  rw [hremoved]
  refine ⟨fun r hr => ?_, by decide +kernel, fun c hc _ => Or.inr ?_⟩
  · simp only [List.mem_cons, List.not_mem_nil, or_false] at hr
    rcases hr with rfl | rfl
    · exact .of_space hfour rfl rfl hfifteen
    · exact .of_space hthirty rfl rfl hfortyone
  · rw [hall] at hc
    simp only [List.mem_cons, List.not_mem_nil, or_false] at hc
    rcases hc with rfl | rfl | rfl
    · exact .opens (by decide +kernel) (by decide +kernel)
    · exact .clear (by decide +kernel)
    · exact .closes (by decide +kernel) (by decide +kernel)

end Pass

end JsPrune
