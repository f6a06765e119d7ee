import JsPrune.Proofs.Pruning.Statements
import Mathlib.Data.List.DropRight
/-!
# Options set one after the other

Settings can be made in any number and order, and a later one may overwrite what an earlier one has set.
Of two settings of one option the last one counts.  Those of comments are of two kinds: one answer for
all comments forgets the rules by category before it, and a rule for a category forgets that answer, also
for the other categories.  What no setting speaks of, the preset decides.
-/

namespace JsPrune

inductive Setting where
  | preset (preset : Preset)
  | comments (remove : Bool)
  | licenses (rule : CommentRule)
  | docs (rule : CommentRule)
  | annotations (remove : Bool)
  | console (option : ConsoleOption)
  | debugger (remove : Bool)

namespace Setting

def apply (options : Options) : Setting → Options
  | .preset p => options.withPreset p
  | .comments remove => options.withComments remove
  | .licenses rule => options.withLicenses rule
  | .docs rule => options.withDocs rule
  | .annotations remove => options.withAnnotations remove
  | .console option => options.withConsole option
  | .debugger remove => options.withDebugger remove

def preset? : Setting → Option Preset
  | .preset p => some p
  | _ => none

def comments? : Setting → Option Bool
  | .comments remove => some remove
  | _ => none

def licenses? : Setting → Option CommentRule
  | .licenses rule => some rule
  | _ => none

def docs? : Setting → Option CommentRule
  | .docs rule => some rule
  | _ => none

def annotations? : Setting → Option Bool
  | .annotations remove => some remove
  | _ => none

def console? : Setting → Option ConsoleOption
  | .console option => some option
  | _ => none

def debugger? : Setting → Option Bool
  | .debugger remove => some remove
  | _ => none

def isOfCategory (s : Setting) : Bool :=
  s.licenses?.isSome || s.docs?.isSome || s.annotations?.isSome

def lastOf {α : Type} (read : Setting → Option α) (settings : List Setting) : Option α :=
  (settings.filterMap read).getLast?

/-- The settings behind the last answer for all comments, or all of them if there is none. -/
def recent (settings : List Setting) : List Setting :=
  settings.rtakeWhile fun s => s.comments?.isNone

/-- The last answer for all comments, unless a setting of a category follows it. -/
def blanket? (settings : List Setting) : Option Bool :=
  if (recent settings).any isOfCategory then none else lastOf comments? settings

def fallback (settings : List Setting) : Policy :=
  Policy.ofPreset (lastOf preset? settings)

end Setting

def Options.ofSettings (settings : List Setting) : Options :=
  settings.foldl Setting.apply .empty

namespace Setting

theorem lastOf_concat {α : Type} (read : Setting → Option α) (settings : List Setting)
    (s : Setting) : lastOf read (settings ++ [s]) = (read s).or (lastOf read settings) := by
  have hlast : [s].filterMap read = (read s).toList := by
    cases hs : read s <;> simp [hs]
  rw [lastOf, List.filterMap_append, List.getLast?_append, hlast, lastOf]
  cases read s <;> rfl

theorem eq_comments_of_some {s : Setting} {remove : Bool} (hs : s.comments? = some remove) :
    s = .comments remove := by
  cases s with
  | comments b => rw [Option.some.inj hs]
  | _ => exact absurd hs (by simp [comments?])

theorem recent_comments (settings : List Setting) (remove : Bool) :
    recent (settings ++ [.comments remove]) = [] := by
  rw [recent, List.rtakeWhile_concat]
  rfl

theorem recent_concat (settings : List Setting) {s : Setting} (hs : s.comments? = none) :
    recent (settings ++ [s]) = recent settings ++ [s] := by
  rw [recent, List.rtakeWhile_concat, hs, Option.isNone_none, if_pos rfl, recent]

theorem rules_apply (options : Options) {s : Setting} (hs : s.comments? = none) :
    (s.apply options).rules = ⟨s.licenses?.or options.rules.licenses,
      s.docs?.or options.rules.docs, s.annotations?.or options.rules.annotations⟩ := by
  cases s with
  | comments remove => exact absurd hs (by simp [comments?])
  | _ => rfl

theorem comments_apply (options : Options) {s : Setting} (hs : s.comments? = none) :
    (s.apply options).comments =
      if s.isOfCategory then some (.byCategory (s.apply options).rules) else options.comments := by
  cases s with
  | comments remove => exact absurd hs (by simp [comments?])
  | _ => rfl

end Setting

namespace Options

open Setting

theorem ofSettings_concat (settings : List Setting) (s : Setting) :
    ofSettings (settings ++ [s]) = s.apply (ofSettings settings) :=
  List.foldl_concat ..

theorem ofSettings_eq_lastOf {α : Type} {option : Options → Option α} {read : Setting → Option α}
    (hempty : option .empty = none)
    (hstep : ∀ options s, option (s.apply options) = (read s).or (option options))
    (settings : List Setting) : option (ofSettings settings) = lastOf read settings := by
  induction settings using List.reverseRecOn with
  | nil => exact hempty
  | append_singleton settings s ih => rw [ofSettings_concat, hstep, ih, lastOf_concat]

theorem preset_ofSettings (settings : List Setting) :
    (ofSettings settings).preset = lastOf preset? settings := by
  apply ofSettings_eq_lastOf rfl
  intro options s
  cases s <;> rfl

theorem console_ofSettings (settings : List Setting) :
    (ofSettings settings).console = lastOf console? settings := by
  apply ofSettings_eq_lastOf rfl
  intro options s
  cases s <;> rfl

theorem debugger_ofSettings (settings : List Setting) :
    (ofSettings settings).debugger = lastOf debugger? settings := by
  apply ofSettings_eq_lastOf rfl
  intro options s
  cases s <;> rfl

/-- An answer for all comments leaves no rules by category, so that these are the recent ones. -/
theorem rules_ofSettings (settings : List Setting) :
    (ofSettings settings).rules = ⟨lastOf licenses? (recent settings),
      lastOf docs? (recent settings), lastOf annotations? (recent settings)⟩ := by
  induction settings using List.reverseRecOn with
  | nil => rfl
  | append_singleton settings s ih =>
      rw [ofSettings_concat]
      cases hs : s.comments? with
      | none =>
          rw [rules_apply _ hs, recent_concat settings hs, ih, lastOf_concat, lastOf_concat,
            lastOf_concat]
      | some remove =>
          rw [eq_comments_of_some hs, recent_comments]
          rfl

theorem comments_ofSettings (settings : List Setting) :
    (ofSettings settings).comments =
      if (recent settings).any isOfCategory then some (.byCategory (ofSettings settings).rules)
      else (lastOf comments? settings).map .all := by
  induction settings using List.reverseRecOn with
  | nil => rfl
  | append_singleton settings s ih =>
      rw [ofSettings_concat, lastOf_concat]
      cases hs : s.comments? with
      | none =>
          rw [comments_apply _ hs, recent_concat settings hs, List.any_append, List.any_cons,
            List.any_nil, Bool.or_false, Option.none_or]
          cases hcategory : s.isOfCategory with
          | true => rw [Bool.or_true]; rfl
          | false =>
              simp only [isOfCategory, Bool.or_eq_false_iff, Option.isSome_eq_false_iff,
                Option.isNone_iff_eq_none] at hcategory
              rw [if_neg Bool.false_ne_true, Bool.or_false, ih, rules_apply _ hs, hcategory.1.1,
                hcategory.1.2, hcategory.2]
              rfl
      | some remove =>
          rw [eq_comments_of_some hs, recent_comments]
          rfl

theorem comments_eq_all_iff {settings : List Setting} {remove : Bool} :
    (ofSettings settings).comments = some (.all remove) ↔ blanket? settings = some remove := by
  rw [comments_ofSettings, blanket?]
  cases (recent settings).any isOfCategory <;> simp

end Options

/-! ## Policies -/

theorem CallRule.removes_of_inactive {rule : CallRule} (h : rule.isActive = false)
    (method text : String) : rule.removes method text = false := by
  cases rule with
  | all remove => exact h
  | _ => exact absurd h (by simp [isActive])

namespace Policy

open Setting

variable (options : Options)

theorem console_ofOptions : (ofOptions options).console =
    callRule (ofPreset options.preset).console options.console := by
  unfold ofOptions
  cases options.comments with
  | none => rfl
  | some comments => cases comments <;> rfl

theorem debugger_ofOptions : (ofOptions options).debugger =
    options.debugger.getD (ofPreset options.preset).debugger := by
  unfold ofOptions
  cases options.comments with
  | none => rfl
  | some comments => cases comments <;> rfl

theorem removesComment_of_all {remove : Bool} (h : options.comments = some (.all remove))
    {category : Category} (hcategory : category ≠ .meaningless) (text : String) :
    (ofOptions options).removesComment category text = remove := by
  unfold ofOptions
  rw [h]
  cases category with
  | meaningless => exact absurd rfl hcategory
  | _ => rfl

theorem removesComment_of_rules (h : ∀ remove, options.comments ≠ some (.all remove))
    (text : String) :
    (ofOptions options).removesComment .license text =
        (options.rules.licenses.getD (ofPreset options.preset).licenses).removes text ∧
      (ofOptions options).removesComment .documentation text =
        (options.rules.docs.getD (ofPreset options.preset).docs).removes text ∧
      (ofOptions options).removesComment .hint text =
        options.rules.annotations.getD (ofPreset options.preset).annotations := by
  unfold ofOptions Options.rules
  cases hcomments : options.comments with
  | none => exact ⟨rfl, rfl, rfl⟩
  | some comments =>
      cases comments with
      | all remove => exact absurd hcomments (h remove)
      | byCategory rules => exact ⟨rfl, rfl, rfl⟩

theorem removesComment_ofSettings {settings : List Setting} (h : blanket? settings = none)
    (text : String) :
    (ofOptions (.ofSettings settings)).removesComment .license text =
        ((lastOf licenses? (recent settings)).getD (fallback settings).licenses).removes text ∧
      (ofOptions (.ofSettings settings)).removesComment .documentation text =
        ((lastOf docs? (recent settings)).getD (fallback settings).docs).removes text ∧
      (ofOptions (.ofSettings settings)).removesComment .hint text =
        (lastOf annotations? (recent settings)).getD (fallback settings).annotations := by
  have hnot : ∀ remove, (Options.ofSettings settings).comments ≠ some (.all remove) := by
    intro remove hremove
    rw [Options.comments_eq_all_iff, h] at hremove
    exact absurd hremove (by simp)
  have hrules := removesComment_of_rules _ hnot text
  rwa [Options.rules_ofSettings, Options.preset_ofSettings] at hrules

/-- A policy that removes no statements removes no node of any tree. -/
theorem removal?_eq_none {policy : Policy} (h : policy.removesStatements = false) (source : String)
    (place : Script.Surrounding × Tree) : Script.removal? policy source place = none := by
  rw [removesStatements, Bool.or_eq_false_iff] at h
  unfold Script.removal?
  cases place.2.kind
  case debuggerStatement => simp [h.1]
  case call => simp [CallRule.removes_of_inactive h.2]
  all_goals rfl

theorem removals_eq_nil {policy : Policy} (h : policy.removesStatements = false) (source : String)
    (around : Script.Surrounding) (tree : Tree) :
    Script.Finding.removals (Script.findings policy source around tree) = [] := by
  apply List.eq_nil_iff_forall_not_mem.mpr
  intro r hr
  obtain ⟨place, -, hplace⟩ := Script.place_of_mem_findings tree (Script.mem_removals.mp hr)
  rw [removal?_eq_none h] at hplace
  exact absurd hplace (by simp)

/-- What a policy decides if the last setting that speaks of something decides it. -/
structure Follows (policy : Policy) (settings : List Setting) : Prop where
  /-- An answer for all comments holds for every category if no setting of a category follows it. -/
  blanket : ∀ remove, blanket? settings = some remove → ∀ category text,
    category ≠ .meaningless → policy.removesComment category text = remove
  /-- Else it is forgotten, and each category has its own last rule behind it, or that of the preset. -/
  license : blanket? settings = none → ∀ text, policy.removesComment .license text =
    ((lastOf licenses? (recent settings)).getD (fallback settings).licenses).removes text
  documentation : blanket? settings = none → ∀ text, policy.removesComment .documentation text =
    ((lastOf docs? (recent settings)).getD (fallback settings).docs).removes text
  hint : blanket? settings = none → ∀ text, policy.removesComment .hint text =
    (lastOf annotations? (recent settings)).getD (fallback settings).annotations
  meaningless : ∀ text, policy.removesComment .meaningless text = true
  consoleOpen : lastOf console? settings = none → ∀ method text,
    policy.console.removes method text = (fallback settings).console.removes method text
  consoleAll : ∀ remove, lastOf console? settings = some (.all remove) → ∀ method text,
    policy.console.removes method text = remove
  consoleFilter : ∀ accepts, lastOf console? settings = some (.filter accepts) → ∀ method text,
    policy.console.removes method text = accepts method text
  consoleMethods : ∀ included excluded,
    lastOf console? settings = some (.methods included excluded) → ∀ method text,
      (policy.console.removes method text = true ↔
        method ∈ included.getD consoleMethods ∧ method ∉ excluded.getD [])
  debugger : policy.debugger = (lastOf debugger? settings).getD (fallback settings).debugger
  /-- Without a preset everything goes that no setting speaks of. -/
  unset : lastOf preset? settings = none →
    (∀ category text, (fallback settings).removesComment category text = true) ∧
    (∀ method text, (fallback settings).console.removes method text = true) ∧
    (fallback settings).debugger = true
  /-- Where no script is looked at for statements, none would be removed. -/
  idle : policy.removesStatements = false →
    (∀ method text, policy.console.removes method text = false) ∧ policy.debugger = false ∧
    ∀ source around tree,
      Script.Finding.removals (Script.findings policy source around tree) = []

theorem ofSettings_follows (settings : List Setting) :
    (ofOptions (.ofSettings settings)).Follows settings where
  blanket remove hremove category text hcategory := by
    apply removesComment_of_all _ _ hcategory
    exact Options.comments_eq_all_iff.mpr hremove
  license hnone text := (removesComment_ofSettings hnone text).1
  documentation hnone text := (removesComment_ofSettings hnone text).2.1
  hint hnone text := (removesComment_ofSettings hnone text).2.2
  meaningless _ := rfl
  consoleOpen hnone method text := by
    rw [console_ofOptions, Options.console_ofSettings, hnone, Options.preset_ofSettings]
    rfl
  consoleAll remove hall method text := by
    rw [console_ofOptions, Options.console_ofSettings, hall]
    rfl
  consoleFilter accepts hfilter method text := by
    rw [console_ofOptions, Options.console_ofSettings, hfilter]
    rfl
  consoleMethods included excluded hmethods method text := by
    rw [console_ofOptions, Options.console_ofSettings, hmethods]
    simp [callRule, CallRule.removes]
  debugger := by
    rw [debugger_ofOptions, Options.debugger_ofSettings, Options.preset_ofSettings]
    rfl
  unset hnone := by
    rw [fallback, hnone]
    refine ⟨fun category text => ?_, fun _ _ => rfl, rfl⟩
    cases category <;> rfl
  idle h := by
    have hparts := h
    rw [removesStatements, Bool.or_eq_false_iff] at hparts
    exact ⟨CallRule.removes_of_inactive hparts.2, hparts.1, removals_eq_nil h⟩

-- A rule for documentation revives what the preset says of licenses.
example :
    (ofOptions (.ofSettings [.preset .library, .comments true])).removesComment .license "" = true ∧
    (ofOptions (.ofSettings [.preset .library, .comments true, .docs (.all true)])).removesComment
      .license "" = false := by
  decide

end Policy

end JsPrune
