import JsPrune.Proofs.Comment.Reached
import Mathlib.Data.List.Infix
/-!
# Substitutions of templates

Braces and substitutions share one depth: a substitution is closed by the brace that finds as many braces
open as before it.  Stray closing braces cannot spoil that, since the depth never falls below what was
open before the innermost substitution, and inside of it no brace goes uncounted.  So a substitution is
closed where the braces that were read in it balance.
-/

namespace JsPrune.Scanner

open String (utf8Len)

/-- What lexemes do to the open braces and to the open substitutions. -/
inductive Delimiter where
  | openBrace
  | closeBrace
  /-- A dollar sign and a brace, from which the text of a template goes over to a substitution. -/
  | enter
  /-- The brace from which the text of the template goes on. -/
  | leave
  deriving DecidableEq, Repr

/-- From a closing brace the text of the template around the innermost substitution goes on. -/
def Returns (st : State) (cs : List Char) : Prop :=
  step st '}' cs = template { st with templates := st.templates.tail } '}' cs

instance (st : State) (cs : List Char) : Decidable (Returns st cs) :=
  inferInstanceAs (Decidable (_ = _))

def entering (cs : List Char) : List Delimiter :=
  if (splitTemplate cs).2 then [.enter] else []

def delimiters (st : State) (c : Char) (cs : List Char) : List Delimiter :=
  if c = '{' then [.openBrace]
  else if c = '\x60' then entering cs
  else if c = '}' then if Returns st cs then .leave :: entering cs else [.closeBrace]
  else []

/-- The scanner of a script stands somewhere, and has read delimiters on the way. -/
inductive Read (source : String) : List Delimiter → Nat → State → List Char → Prop
  | start : Read source [] (utf8Len (splitHashbang source.toList).1) .initial
      (splitHashbang source.toList).2
  | step {past : List Delimiter} {offset : Nat} {st : State} {c : Char} {cs : List Char}
      (h : Read source past offset st (c :: cs)) :
      Read source (past ++ delimiters st c cs) (offset + utf8Len (step st c cs).taken)
        (step st c cs).next (step st c cs).rest

inductive Nested : List Delimiter → Prop
  | nil : Nested []
  | brace {b : Delimiter} {more : List Delimiter} (hb : b = .openBrace ∨ b = .closeBrace)
      (hmore : Nested more) : Nested (b :: more)
  | substitution {inner more : List Delimiter} (hinner : Nested inner) (hmore : Nested more) :
      Nested (.enter :: (inner ++ .leave :: more))

/-- What was read since the innermost open substitution was entered. -/
def Inside (past since : List Delimiter) : Prop :=
  Nested since ∧ ∃ before, past = before ++ .enter :: since

/-! ## Nested delimiters -/

namespace Nested

variable {ds es : List Delimiter}

theorem append (h : Nested ds) (h' : Nested es) : Nested (ds ++ es) := by
  induction h with
  | nil => exact h'
  | brace hb _ ih => exact brace hb ih
  | @substitution inner more hinner _ _ ih =>
      rw [List.cons_append, List.append_assoc, List.cons_append]
      exact substitution hinner ih

theorem count_eq (h : Nested ds) : ds.count .enter = ds.count .leave := by
  induction h with
  | nil => rfl
  | brace hb _ ih => rcases hb with rfl | rfl <;> simpa using ih
  | substitution _ _ ih ih' =>
      rw [List.count_cons_self, List.count_cons_of_ne (by decide), List.count_append,
        List.count_append, List.count_cons_of_ne (by decide), List.count_cons_self]
      omega

theorem count_le (h : Nested ds) {es : List Delimiter} (hsuffix : es <:+ ds) :
    es.count .enter ≤ es.count .leave := by
  induction h generalizing es with
  | nil => simp [List.suffix_nil.mp hsuffix]
  | brace hb hmore ih =>
      rcases List.suffix_cons_iff.mp hsuffix with rfl | hsuffix
      · have hcount := hmore.count_eq
        rcases hb with rfl | rfl <;> simp [hcount]
      · exact ih hsuffix
  | @substitution inner more hinner hmore ih ih' =>
      rcases List.suffix_cons_iff.mp hsuffix with rfl | ⟨before, happend⟩
      · exact Nat.le_of_eq (substitution hinner hmore).count_eq
      · have heq := hmore.count_eq
        -- The suffix starts in the substitution, or not before the brace that leaves it.
        rcases List.append_eq_append_iff.mp happend with ⟨part, hpart, rfl⟩ | ⟨part, -, htail⟩
        · have hcount := ih ⟨before, hpart.symm⟩
          rw [List.count_append, List.count_append, List.count_cons_of_ne (by decide),
            List.count_cons_self]
          omega
        · rcases List.suffix_cons_iff.mp ⟨part, htail.symm⟩ with rfl | hsuffix
          · rw [List.count_cons_of_ne (by decide), List.count_cons_self, heq]
            exact Nat.le_succ _
          · exact ih' hsuffix

theorem not_suffix (h : Nested ds) (h' : Nested es) : ¬ .enter :: es <:+ ds := by
  intro hsuffix
  have hcount := h.count_le hsuffix
  have heq := h'.count_eq
  rw [List.count_cons_self, List.count_cons_of_ne (by decide)] at hcount
  omega

theorem eq_of_append {before before' : List Delimiter} (h : Nested ds) (h' : Nested es)
    (happend : before ++ .enter :: ds = before' ++ .enter :: es) : ds = es := by
  have hlonger {fs gs part : List Delimiter} (hf : Nested fs) (hg : Nested gs)
      (hpart : .enter :: fs = part ++ .enter :: gs) : fs = gs := by
    cases part with
    | nil => exact (List.cons.inj hpart).2
    | cons d part => exact absurd ⟨part, (List.cons.inj hpart).2.symm⟩ (hf.not_suffix hg)
  rcases List.append_eq_append_iff.mp happend with ⟨part, -, hpart⟩ | ⟨part, -, hpart⟩
  · exact hlonger h h' hpart
  · exact (hlonger h' h hpart).symm

end Nested

theorem Inside.unique {past since since' : List Delimiter} (h : Inside past since)
    (h' : Inside past since') : since = since' := by
  obtain ⟨hsince, before, hbefore⟩ := h
  obtain ⟨hsince', before', hbefore'⟩ := h'
  exact hsince.eq_of_append hsince' (hbefore.symm.trans hbefore')

/-! ## Steps -/

theorem splitTemplate_ne_nil {cs : List Char} (h : (splitTemplate cs).2 = true) :
    (splitTemplate cs).1.1 ≠ [] := by
  fun_cases splitTemplate cs with
  | case1 => exact absurd h (by simp [splitTemplate])
  | case2 => simp [push]
  | case3 => simp
  | case4 => simp
  | case5 => simp [push]

/-- A regular expression can follow the text of a template only where a substitution is entered. -/
theorem template_ne_lexeme (st st' : State) (c : Char) (cs : List Char) :
    template st c cs ≠ lexeme ([c], cs) (st'.after true) := by
  intro h
  have htaken : c :: (splitTemplate cs).1.1 = [c] := congrArg Move.taken h
  have hopens : (splitTemplate cs).2 = true := by
    have hregex := congrArg (fun move => move.next.regexAllowed) h
    simp only [template, lexeme] at hregex
    split at hregex <;> simpa [State.after] using hregex
  exact splitTemplate_ne_nil hopens (List.cons.inj htaken).2

theorem closeBrace_of_ne {st : State} (cs : List Char) (h : st.templates.head? ≠ some st.depth) :
    closeBrace st cs = lexeme (['}'], cs) { st.after true with depth := st.depth - 1 } := by
  unfold closeBrace
  split
  · rfl
  · next d outer htemplates =>
      rw [htemplates, List.head?_cons, ne_eq, Option.some_inj] at h
      rw [if_neg (by simpa using h)]

theorem closeBrace_of_eq {st : State} (cs : List Char) (h : st.templates.head? = some st.depth) :
    closeBrace st cs = template { st with templates := st.templates.tail } '}' cs := by
  unfold closeBrace
  split
  · next htemplates => simp [htemplates] at h
  · next d outer htemplates =>
      rw [htemplates, List.head?_cons, Option.some_inj] at h
      rw [if_pos (by simpa using h), htemplates, List.tail_cons]

theorem returns_iff {st : State} {cs : List Char} :
    Returns st cs ↔ st.templates.head? = some st.depth := by
  constructor
  · intro h
    by_contra hne
    have hclose : step st '}' cs = _ := closeBrace_of_ne cs hne
    exact template_ne_lexeme _ { st with depth := st.depth - 1 } _ _ (h.symm.trans hclose)
  · exact closeBrace_of_eq cs

theorem step_of_not_returns {st : State} {cs : List Char} (h : ¬ Returns st cs) :
    step st '}' cs = lexeme (['}'], cs) { st.after true with depth := st.depth - 1 } :=
  closeBrace_of_ne cs (mt returns_iff.mpr h)

/-! ## What the delimiters lead to -/

/-- Delimiters that lead to a depth, and to open substitutions with the depths before them.  In an open
substitution every brace counts; outside of them all a closing brace may close nothing. -/
inductive LeadsTo : List Delimiter → Nat → List Nat → Prop
  | outside {past : List Delimiter} {depth : Nat} (hpast : Nested past) : LeadsTo past depth []
  | inside {before since : List Delimiter} {d depth : Nat} {outer : List Nat}
      (hbefore : LeadsTo before d outer) (hsince : Nested since) (hle : d ≤ depth)
      (hcount : depth + since.count .closeBrace = d + since.count .openBrace) :
      LeadsTo (before ++ .enter :: since) depth (d :: outer)

namespace LeadsTo

variable {past since more : List Delimiter} {d depth depth' : Nat} {templates outer : List Nat}

theorem pairwise (h : LeadsTo past depth templates) : (depth :: templates).Pairwise (· ≥ ·) := by
  induction h with
  | outside => exact List.pairwise_singleton _ _
  | inside _ _ hle _ ih =>
      apply List.Pairwise.cons _ ih
      intro e he
      cases List.mem_cons.mp he with
      | inl heq => exact heq ▸ hle
      | inr he => exact Nat.le_trans (List.rel_of_pairwise_cons ih he) hle

theorem head_le (h : LeadsTo past depth templates) : ∀ d ∈ templates.head?, d ≤ depth :=
  fun _ hd => List.rel_of_pairwise_cons h.pairwise (List.mem_of_mem_head? hd)

theorem head_lt (h : LeadsTo past depth templates) (hne : templates.head? ≠ some depth) :
    ∀ d ∈ templates.head?, d < depth := by
  intro d hd
  have hd' : d ≠ depth := fun heq => hne (heq ▸ hd)
  exact Nat.lt_of_le_of_ne (h.head_le d hd) hd'

theorem append (h : LeadsTo past depth templates) (hmore : Nested more)
    (hinside : ∀ d ∈ templates.head?, d ≤ depth' ∧
      depth' + more.count .closeBrace = depth + more.count .openBrace) :
    LeadsTo (past ++ more) depth' templates := by
  cases h with
  | outside hpast => exact outside (hpast.append hmore)
  | @inside before since d _ outer hbefore hsince _ hcount =>
      obtain ⟨hle, hcount'⟩ := hinside d rfl
      rw [List.append_assoc, List.cons_append]
      refine inside hbefore (hsince.append hmore) hle ?_
      rw [List.count_append, List.count_append]
      omega

theorem openBrace (h : LeadsTo past depth templates) :
    LeadsTo (past ++ [.openBrace]) (depth + 1) templates := by
  apply h.append (.brace (Or.inl rfl) .nil)
  intro d hd
  exact ⟨Nat.le_succ_of_le (h.head_le d hd), rfl⟩

theorem closeBrace (h : LeadsTo past depth templates) (hne : templates.head? ≠ some depth) :
    LeadsTo (past ++ [.closeBrace]) (depth - 1) templates := by
  apply h.append (.brace (Or.inr rfl) .nil)
  intro d hd
  -- One brace at least is open in the substitution, so the depth goes down by one.
  have hlt := h.head_lt hne d hd
  exact ⟨Nat.le_sub_one_of_lt hlt, Nat.sub_add_cancel (Nat.zero_lt_of_lt hlt)⟩

theorem enter (h : LeadsTo past depth templates) :
    LeadsTo (past ++ [.enter]) depth (depth :: templates) :=
  inside h .nil (Nat.le_refl _) rfl

theorem leave (h : LeadsTo past depth (depth :: outer)) :
    LeadsTo (past ++ [.leave]) depth outer := by
  cases h with
  | @inside before since _ _ _ hbefore hsince _ hcount =>
      have hmore : Nested (.enter :: (since ++ [.leave])) := .substitution hsince .nil
      rw [List.append_assoc, List.cons_append]
      apply hbefore.append hmore
      intro d hd
      exact ⟨hbefore.head_le d hd, by simpa using hcount⟩

theorem template (st : State) (c : Char) (cs : List Char)
    (h : LeadsTo past st.depth st.templates) :
    LeadsTo (past ++ entering cs) (template st c cs).next.depth
      (template st c cs).next.templates := by
  have hnext : (Scanner.template st c cs).next = if (splitTemplate cs).2
      then { st.after true with templates := st.depth :: st.templates } else st.after false := by
    cases hopens : (splitTemplate cs).2 <;> simp [Scanner.template, lexeme, hopens]
  rw [hnext, entering]
  cases (splitTemplate cs).2 with
  | true => exact h.enter
  | false => rwa [if_neg Bool.false_ne_true, List.append_nil]

theorem ne_nil_iff (h : LeadsTo past depth templates) :
    templates ≠ [] ↔ ∃ since, Inside past since := by
  cases h with
  | outside hpast =>
      refine ⟨fun hne => absurd rfl hne, ?_⟩
      rintro ⟨since, hsince, before, rfl⟩
      exact absurd (List.suffix_append before _) (hpast.not_suffix hsince)
  | @inside before since _ _ _ _ hsince _ _ =>
      exact ⟨fun _ => ⟨since, hsince, before, rfl⟩, fun _ => List.cons_ne_nil _ _⟩

theorem count_of_inside (h : LeadsTo past depth (d :: outer)) (hsince : Inside past since) :
    depth + since.count .closeBrace = d + since.count .openBrace := by
  cases h with
  | @inside before since' _ _ _ _ hsince' _ hcount =>
      rwa [hsince.unique ⟨hsince', before, rfl⟩]

end LeadsTo

/-- A step from another character than a brace or a backtick keeps the braces and the substitutions. -/
theorem step_plain (st : State) {c : Char} (cs : List Char) (hopen : c ≠ '{')
    (hbacktick : c ≠ '\x60') (hclose : c ≠ '}') :
    (step st c cs).next.depth = st.depth ∧ (step st c cs).next.templates = st.templates := by
  refine step_cases st c cs ?slash ?string ?backtick ?openBrace ?closeBrace ?closer ?dot ?double
    ?number ?word ?space ?optional ?other
  case slash =>
    intro _
    unfold slash
    split
    · exact ⟨rfl, rfl⟩
    · exact ⟨rfl, rfl⟩
    · split
      · exact ⟨rfl, rfl⟩
      · split <;> exact ⟨rfl, rfl⟩
  case dot =>
    intro _
    unfold dot
    split <;> exact ⟨rfl, rfl⟩
  case backtick => exact fun h => absurd h hbacktick
  case openBrace => exact fun h => absurd h hopen
  case closeBrace => exact fun h => absurd h hclose
  case double => exact fun _ _ => ⟨rfl, rfl⟩
  case word => exact fun _ _ => ⟨rfl, rfl⟩
  case optional => exact fun _ _ => ⟨rfl, rfl⟩
  case other => exact fun _ _ => ⟨rfl, rfl⟩
  all_goals exact fun _ => ⟨rfl, rfl⟩

theorem LeadsTo.step {past : List Delimiter} {st : State}
    (h : LeadsTo past st.depth st.templates) (c : Char) (cs : List Char) :
    LeadsTo (past ++ delimiters st c cs) (Scanner.step st c cs).next.depth
      (Scanner.step st c cs).next.templates := by
  unfold delimiters
  by_cases hopen : c = '{'
  · subst hopen
    exact h.openBrace
  rw [if_neg hopen]
  by_cases hbacktick : c = '\x60'
  · subst hbacktick
    exact template st _ cs h
  rw [if_neg hbacktick]
  by_cases hclose : c = '}'
  · subst hclose
    rw [if_pos rfl]
    by_cases hreturns : Returns st cs
    · obtain ⟨outer, htemplates⟩ : ∃ outer, st.templates = st.depth :: outer :=
        List.head?_eq_some_iff.mp (returns_iff.mp hreturns)
      rw [htemplates] at h
      rw [if_pos hreturns, hreturns, htemplates, List.append_cons]
      exact template { st with templates := outer } '}' cs h.leave
    · rw [if_neg hreturns, step_of_not_returns hreturns]
      exact h.closeBrace (mt returns_iff.mpr hreturns)
  · obtain ⟨hdepth, htemplates⟩ := step_plain st cs hopen hbacktick hclose
    rwa [if_neg hclose, hdepth, htemplates, List.append_nil]

theorem Read.leadsTo {source : String} {past : List Delimiter} {offset : Nat} {st : State}
    {cs : List Char} (h : Read source past offset st cs) :
    LeadsTo past st.depth st.templates := by
  induction h with
  | start => exact .outside .nil
  | step _ ih => exact ih.step _ _

theorem Reached.exists_read {source : String} {offset : Nat} {st : State} {cs : List Char}
    (h : Reached source offset st cs) : ∃ past, Read source past offset st cs := by
  induction h with
  | start => exact ⟨_, .start⟩
  | step _ ih =>
      obtain ⟨past, hpast⟩ := ih
      exact ⟨_, hpast.step⟩

/-- No entry of the stack of substitutions is above the one before it or above the open braces.  So a
closing brace that does not go back to the text of a template has a brace to close, and one goes back
where the braces that were read in the innermost open substitution balance. -/
theorem Reached.substitutions_balance {source : String} {offset : Nat} {st : State} {cs : List Char}
    (h : Reached source offset st cs) :
    (st.depth :: st.templates).Pairwise (· ≥ ·) ∧
    (∃ past, Read source past offset st cs) ∧
    ∀ past, Read source past offset st cs →
      (st.templates ≠ [] ↔ ∃ since, Inside past since) ∧
      ∀ tail, cs = '}' :: tail →
        (Returns st tail → st.templates ≠ []) ∧
        (¬ Returns st tail → ∀ d ∈ st.templates.head?,
          d < st.depth ∧ (Scanner.step st '}' tail).next.depth + 1 = st.depth) ∧
        ∀ since, Inside past since →
          (Returns st tail ↔ since.count .openBrace = since.count .closeBrace) := by
  obtain ⟨past, hpast⟩ := h.exists_read
  refine ⟨hpast.leadsTo.pairwise, ⟨past, hpast⟩, fun past hpast => ?_⟩
  have hleads := hpast.leadsTo
  refine ⟨hleads.ne_nil_iff, fun tail _ => ⟨?returning, ?closing, ?balance⟩⟩
  case returning =>
    intro hreturns hnil
    rw [returns_iff, hnil] at hreturns
    exact absurd hreturns (by simp)
  case closing =>
    intro hreturns d hd
    have hlt := hleads.head_lt (mt returns_iff.mpr hreturns) d hd
    rw [step_of_not_returns hreturns]
    exact ⟨hlt, Nat.sub_add_cancel (Nat.zero_lt_of_lt hlt)⟩
  case balance =>
    intro since hsince
    have hopen := hleads.ne_nil_iff.mpr ⟨since, hsince⟩
    obtain ⟨d, outer, htemplates⟩ := List.exists_cons_of_ne_nil hopen
    rw [htemplates] at hleads
    have hcount := hleads.count_of_inside hsince
    rw [returns_iff, htemplates, List.head?_cons, Option.some_inj]
    omega

/-- Behind an object that is empty, a brace goes back to the text of the template around it. -/
theorem Reached.substitutions_balance_object :
    Reached "\x60$\x7b\x7b\x7d\x7d\x60" 5 ⟨true, false, 0, [0]⟩ ['}', '\x60'] ∧
      Returns ⟨true, false, 0, [0]⟩ ['\x60'] ∧
      ∃ past since, Read "\x60$\x7b\x7b\x7d\x7d\x60" past 5 ⟨true, false, 0, [0]⟩ ['}', '\x60'] ∧
        Inside past since ∧ since.count .openBrace = since.count .closeBrace := by
  have h : Reached "\x60$\x7b\x7b\x7d\x7d\x60" 5 ⟨true, false, 0, [0]⟩ ['}', '\x60'] :=
    .of_walk 3 (by decide +kernel)
  have hreturns : Returns ⟨true, false, 0, [0]⟩ ['\x60'] := by decide
  obtain ⟨-, ⟨past, hpast⟩, hbalance⟩ := h.substitutions_balance
  obtain ⟨hopen, hbrace⟩ := hbalance past hpast
  obtain ⟨since, hsince⟩ := hopen.mp (by simp)
  obtain ⟨-, -, hreturns_iff⟩ := hbrace ['\x60'] rfl
  exact ⟨h, hreturns, past, since, hpast, hsince, (hreturns_iff since hsince).mp hreturns⟩

end JsPrune.Scanner
