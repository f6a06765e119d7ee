import JsPrune.Proofs.Comment.Reached
/-!
# The form of comments

Whatever a script looks like, its comments are well formed.  They ascend without overlap, the text of
each stands where its span says, a line comment stops at the end of its line, and a block comment at
the first closing delimiter or, without one, at the end of the script.
-/

namespace JsPrune

open String (utf8Len)
open Text

/-- The texts of the terminated comments of a kind, delimiters included. -/
def Comment.Kind.IsText : Comment.Kind → List Char → Prop
  | .line, cs => ∃ body, cs = '/' :: '/' :: body ∧ ∀ t ∈ body, isLineTerminator t = false
  | .block, cs => ∃ body, cs = '/' :: '*' :: body ++ ['*', '/'] ∧ ¬ ['*', '/'] <:+: body

namespace Scanner

theorem step_comment_cases {st : State} {c : Char} {cs : List Char} {k : Comment.Kind × Bool}
    (h : (step st c cs).comment = some k) :
    c = '/' ∧ ∃ tail, (cs = '/' :: tail ∧ k = (.line, true)) ∨
      (cs = '*' :: tail ∧ k = (.block, (splitBlock tail).2)) := by
  revert h
  refine step_cases st c cs ?slash ?string ?backtick ?openBrace ?closeBrace ?closer ?dot ?double
    ?number ?word ?space ?optional ?other
  case slash =>
    intro hc h
    refine ⟨hc, ?_⟩
    unfold slash at h
    split at h
    · exact ⟨_, Or.inl ⟨rfl, (Option.some.inj h).symm⟩⟩
    · exact ⟨_, Or.inr ⟨rfl, (Option.some.inj h).symm⟩⟩
    · split at h
      · exact absurd h (by simp [lexeme])
      · split at h <;> exact absurd h (by simp [lexeme])
  case closeBrace =>
    intro _ h
    rw [comment_closeBrace] at h
    exact absurd h (by simp)
  case dot =>
    intro _ h
    rw [comment_dot] at h
    exact absurd h (by simp)
  case double => exact fun _ _ h => absurd h (by simp [lexeme])
  case word => exact fun _ _ h => absurd h (by simp [word, lexeme])
  case optional => exact fun _ _ h => absurd h (by simp [lexeme])
  case other => exact fun _ _ h => absurd h (by simp [lexeme])
  case backtick => exact fun _ h => absurd h (by simp [template, lexeme])
  all_goals exact fun _ h => absurd h (by simp [lexeme])

theorem isText_of_step {st : State} {c : Char} {cs : List Char} {kind : Comment.Kind}
    (h : (step st c cs).comment = some (kind, true)) : kind.IsText (step st c cs).taken := by
  obtain ⟨rfl, tail, ⟨rfl, hk⟩ | ⟨rfl, hk⟩⟩ := step_comment_cases h
  · obtain ⟨rfl, -⟩ := Prod.mk.inj hk
    exact ⟨(splitLine tail).1, rfl, fun t ht => by simpa using splitWhile_fst _ _ t ht⟩
  · obtain ⟨rfl, hclosed⟩ := Prod.mk.inj hk
    obtain ⟨body, hbody, hfirst⟩ := splitBlock_closed tail hclosed.symm
    exact ⟨body, congrArg ('/' :: '*' :: ·) hbody, hfirst⟩

/-- A comment that is not terminated is a block comment and takes all that is left. -/
theorem open_of_step {st : State} {c : Char} {cs : List Char} {kind : Comment.Kind}
    (h : (step st c cs).comment = some (kind, false)) :
    kind = .block ∧ (step st c cs).rest = [] ∧
      ∃ body, (step st c cs).taken = '/' :: '*' :: body ∧ ¬ ['*', '/'] <:+: body := by
  obtain ⟨rfl, tail, ⟨rfl, hk⟩ | ⟨rfl, hk⟩⟩ := step_comment_cases h
  · exact absurd (Prod.mk.inj hk).2 (by simp)
  · obtain ⟨rfl, hopen⟩ := Prod.mk.inj hk
    have hall := splitBlock_append tail
    have hrest := splitBlock_open tail hopen.symm
    rw [hrest, List.append_nil] at hall
    refine ⟨rfl, hrest, tail, congrArg ('/' :: '*' :: ·) hall, splitBlock_none tail hopen.symm⟩

end Scanner

namespace Comment

/-- What a comment of a script looks like, where it stands and what stands behind it. -/
structure WellFormed (source : String) (c : Comment) : Prop where
  inside : c.span.start < c.span.stop ∧ c.span.stop ≤ source.utf8ByteSize
  boundary : isBoundary source c.span.start = true ∧ isBoundary source c.span.stop = true
  text_eq : c.text = slice source c.span.start c.span.stop
  line : c.kind = .line → c.terminated = true ∧ ['/', '/'] <+: c.text.toList ∧
    (∀ t ∈ c.text.toList, isLineTerminator t = false) ∧
    (slice source c.span.stop source.utf8ByteSize).toList.head?.all isLineTerminator = true
  block : c.kind = .block → ['/', '*'] <+: c.text.toList ∧
    (c.terminated = true ↔ 4 ≤ c.text.utf8ByteSize ∧ ['*', '/'] <:+ c.text.toList)
  /-- Between the opening delimiter and the last character there is no closing delimiter. -/
  first : c.kind = .block → c.terminated = true →
    ¬ ['*', '/'] <:+: (c.text.toList.drop 2).dropLast
  last : c.terminated = false →
    c.span.stop = source.utf8ByteSize ∧ (all source).getLast? = some c

variable {source : String} {c : Comment}

/-- A terminated comment has a text of its kind; one that is not is a block comment without a closing
delimiter, and the last comment of the script. -/
theorem text_of_mem (hc : c ∈ all source) :
    (c.terminated = true → c.kind.IsText c.text.toList) ∧
    (c.terminated = false → c.kind = .block ∧ c.span.stop = source.utf8ByteSize ∧
      (all source).getLast? = some c ∧
      ∃ body, c.text.toList = '/' :: '*' :: body ∧ ¬ ['*', '/'] <:+: body) := by
  obtain ⟨offset, st, ch, cs, hreached, hfound⟩ := Scanner.mem_all_iff.mp hc
  obtain ⟨hcomment, htext, hspan⟩ := Scanner.found_eq_singleton_iff.mp hfound
  rw [htext, String.toList_ofList]
  constructor
  · intro hclosed
    rw [hclosed] at hcomment
    exact Scanner.isText_of_step hcomment
  · intro hopen
    rw [hopen] at hcomment
    obtain ⟨hkind, hrest, hbody⟩ := Scanner.open_of_step hcomment
    have hend := hreached.step.add_utf8Len
    have hlast := hreached.scan_suffix
    rw [hrest, String.utf8Len_nil, Nat.add_zero] at hend
    rw [Scanner.scan_cons, Scanner.Move.scan, hfound, hrest, Scanner.scan_nil,
      List.append_nil] at hlast
    obtain ⟨front, hfront⟩ := hlast
    refine ⟨hkind, by rw [hspan, ← hend], ?_, hbody⟩
    rw [← hfront, List.getLast?_concat]

/-- A block comment that is not terminated ends with a closing delimiter only if that shares the
asterisk of the opening one. -/
theorem not_ends_of_open {body : List Char} (hbody : ¬ ['*', '/'] <:+: body)
    (hlen : 4 ≤ utf8Len ('/' :: '*' :: body)) : ¬ ['*', '/'] <:+ '/' :: '*' :: body := by
  rintro ⟨front, hfront⟩
  match front, hfront with
  | [], h => exact absurd (List.cons.inj h).1 (by decide)
  | ['/'], h =>
      obtain rfl : body = ['/'] := (List.cons.inj (List.cons.inj h).2).2.symm
      exact absurd hlen (by decide)
  | _ :: _ :: front, h => exact hbody ⟨front, [], by simpa using (List.cons.inj (List.cons.inj h).2).2⟩

theorem line_ends_of_mem (hc : c ∈ all source) (hkind : c.kind = .line) :
    (slice source c.span.stop source.utf8ByteSize).toList.head?.all isLineTerminator = true := by
  obtain ⟨before, after, hs, -, hstop, hshape⟩ := standsIn_of_mem hc
  have hs' : source.toList = (before ++ c.text.toList) ++ after ++ [] := by rw [List.append_nil, hs]
  have hsize : source.utf8ByteSize = utf8Len (before ++ c.text.toList) + utf8Len after := by
    rw [← String.utf8Len_toList, hs, String.utf8Len_append]
  rw [hstop, hsize, ← String.utf8Len_append, slice_eq hs', String.toList_ofList]
  exact hshape.head?_of_line hkind

theorem wellFormed_of_mem (hc : c ∈ all source) : c.WellFormed source := by
  obtain ⟨hclosed, hopen⟩ := text_of_mem hc
  have hboundary := (standsIn_of_mem hc).boundary
  have htwo := (standsIn_of_mem hc).start_add_two_le
  refine ⟨?inside, hboundary, ?text, ?line, ?block, ?first, ?last⟩
  case inside => exact ⟨by omega, le_size_of_isBoundary hboundary.2⟩
  case text =>
    obtain ⟨before, after, hs, hstart, hstop, -⟩ := standsIn_of_mem hc
    rw [hstart, hstop, slice_eq hs, String.ofList_toList]
  case line =>
    intro hkind
    have hterminated : c.terminated = true := by
      by_contra h
      have hblock := (hopen (Bool.not_eq_true _ ▸ h)).1
      rw [hkind] at hblock
      exact absurd hblock (by simp)
    have htext := hclosed hterminated
    rw [hkind] at htext
    obtain ⟨body, hbody, hplain⟩ := htext
    refine ⟨hterminated, ?_, ?_, line_ends_of_mem hc hkind⟩
    · rw [hbody]
      exact ⟨body, rfl⟩
    · rw [hbody]
      intro t ht
      rcases List.mem_cons.mp ht with rfl | ht
      · decide
      rcases List.mem_cons.mp ht with rfl | ht
      · decide
      · exact hplain t ht
  case block =>
    intro hkind
    cases hterminated : c.terminated with
    | true =>
        have htext := hclosed hterminated
        rw [hkind] at htext
        obtain ⟨body, hbody, -⟩ := htext
        rw [← String.utf8Len_toList, hbody]
        refine ⟨⟨body ++ ['*', '/'], rfl⟩, iff_of_true rfl ⟨?_, '/' :: '*' :: body, rfl⟩⟩
        have hopening : utf8Len ['/', '*'] = 2 := rfl
        have hclosing : utf8Len ['*', '/'] = 2 := rfl
        have hparts : '/' :: '*' :: body ++ ['*', '/'] = ['/', '*'] ++ body ++ ['*', '/'] := rfl
        rw [hparts, String.utf8Len_append, String.utf8Len_append, hopening, hclosing]
        omega
    | false =>
        obtain ⟨-, -, -, body, hbody, hnone⟩ := hopen hterminated
        rw [← String.utf8Len_toList, hbody]
        exact ⟨⟨body, rfl⟩, iff_of_false (by simp) fun h => not_ends_of_open hnone h.1 h.2⟩
  case first =>
    intro hkind hterminated
    have htext := hclosed hterminated
    rw [hkind] at htext
    obtain ⟨body, hbody, hfirst⟩ := htext
    have hdrop : (c.text.toList.drop 2).dropLast = body ++ ['*'] := by
      rw [hbody, List.cons_append, List.cons_append, List.drop_succ_cons, List.drop_succ_cons,
        List.drop_zero, List.dropLast_append_of_ne_nil (by simp)]
      rfl
    rw [hdrop]
    intro hinfix
    rcases List.infix_concat_iff.mp hinfix with ⟨front, hfront⟩ | hinfix
    · have hlast := congrArg List.getLast? hfront
      simp at hlast
    · exact hfirst hinfix
  case last => exact fun h => ⟨(hopen h).2.1, (hopen h).2.2.1⟩

theorem behind_hashbang {line rest : List Char} (hs : source.toList = '#' :: '!' :: line ++ rest)
    (hline : ∀ t ∈ line, isLineTerminator t = false) (hc : c ∈ all source) :
    utf8Len ('#' :: '!' :: line) ≤ c.span.start := by
  obtain ⟨offset, st, ch, cs, hreached, hfound⟩ := Scanner.mem_all_iff.mp hc
  have hstart := hreached.start_le
  have htaken : (Scanner.splitHashbang source.toList).1 =
      '#' :: '!' :: line ++ (Scanner.splitLine rest).1 := by
    rw [hs, List.cons_append, List.cons_append, Scanner.splitHashbang, Scanner.splitLine,
      Scanner.splitWhile_append_of_all fun t ht => by rw [hline t ht]; rfl]
    rfl
  rw [htaken, String.utf8Len_append] at hstart
  rw [(Scanner.found_eq_singleton_iff.mp hfound).2.2]
  exact Nat.le_trans (Nat.le_add_right _ _) hstart

theorem length_open_le_one (source : String) :
    ((all source).filter fun c => !c.terminated).length ≤ 1 := by
  have hascend := (all_placed source).2.filter fun c => !c.terminated
  have hend : ∀ c ∈ (all source).filter fun c => !c.terminated,
      c.span.start < source.utf8ByteSize ∧ c.span.stop = source.utf8ByteSize := by
    intro c hc
    obtain ⟨hmem, hopen⟩ := List.mem_filter.mp hc
    have hform := wellFormed_of_mem hmem
    have hlast := hform.last (Bool.not_eq_true' _ ▸ hopen)
    have hinside := hform.inside
    exact ⟨by omega, hlast.1⟩
  generalize ((all source).filter fun c => !c.terminated) = opens at hascend hend ⊢
  rcases opens with _ | ⟨c, _ | ⟨d, rest⟩⟩
  · exact Nat.zero_le _
  · exact Nat.le_refl _
  · -- Behind a comment that goes on to the end there is no room for another one.
    have hapart := (List.pairwise_cons.mp hascend).1 d List.mem_cons_self
    have hc := (hend c List.mem_cons_self).2
    have hd := (hend d (List.mem_cons_of_mem _ List.mem_cons_self)).1
    omega

/-- Whatever the script is, every step of the scanner goes forward in it, the scanner comes to its
end, and the comments that it finds on the way are well formed.  They ascend without overlap, at most
one of them is not terminated, and none starts in an interpreter line. -/
theorem all_wellFormed (source : String) :
    (∀ offset st c cs, Scanner.Reached source offset st (c :: cs) →
      offset < offset + utf8Len (Scanner.step st c cs).taken ∧
        offset + utf8Len (Scanner.step st c cs).taken ≤ source.utf8ByteSize) ∧
    (∃ st, Scanner.Reached source source.utf8ByteSize st []) ∧
    (∀ c, c ∈ all source ↔ ∃ offset st ch cs, Scanner.Reached source offset st (ch :: cs) ∧
      (Scanner.step st ch cs).found offset = [c]) ∧
    (∀ c ∈ all source, c.WellFormed source) ∧
    ((all source).Pairwise fun c d => c.span.stop ≤ d.span.start) ∧
    ((all source).filter fun c => !c.terminated).length ≤ 1 ∧
    ∀ line rest, source.toList = '#' :: '!' :: line ++ rest →
      (∀ t ∈ line, isLineTerminator t = false) →
      ∀ c ∈ all source, utf8Len ('#' :: '!' :: line) ≤ c.span.start := by
  refine ⟨?progress, Scanner.Reached.start.exists_end, fun c => Scanner.mem_all_iff, ?form,
    (all_placed source).2, length_open_le_one source, ?hashbang⟩
  case progress => exact fun offset st c cs h => h.lt_step
  case form => exact fun c hc => wellFormed_of_mem hc
  case hashbang => exact fun line rest hs hline c hc => behind_hashbang hs hline hc

theorem all_wellFormed_cut_off :
    (⟨⟨13, 16⟩, .block, "/*/", false⟩ : Comment) ∈ all "#!/*\n ;// b\\\n/*/" ∧
    WellFormed "#!/*\n ;// b\\\n/*/" ⟨⟨13, 16⟩, .block, "/*/", false⟩ ∧
    ∀ c ∈ all "#!/*\n ;// b\\\n/*/", utf8Len "#!/*".toList ≤ c.span.start := by
  have hmem : (⟨⟨13, 16⟩, .block, "/*/", false⟩ : Comment) ∈ all "#!/*\n ;// b\\\n/*/" := by
    decide +kernel
  obtain ⟨-, -, -, hform, -, -, hline⟩ := all_wellFormed "#!/*\n ;// b\\\n/*/"
  refine ⟨hmem, hform _ hmem, hline ['/', '*'] "\n ;// b\\\n/*/".toList ?_ ?_⟩
  · decide +kernel
  · simp [isLineTerminator]

end Comment

end JsPrune
