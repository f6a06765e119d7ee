import JsPrune.Proofs.Options.Faults
/-!
# What a JSON value says of options

Members that are on the path of no option are passed over.  Options without filters have a JSON form,
from which they are read back.
-/

namespace JsPrune

namespace Options

variable (value : Json)

/-! ## Members on no path -/

def isOnPath (path : List String) : Bool :=
  OptionName.inOrder.any fun name => path.isPrefixOf name.path

def known (path : List String) : Json → Json
  | .object members => .object (members.filter fun m => isOnPath (path ++ [m.1]))
  | value => value

def withoutUnknown : Json → Json
  | .object members => .object ((members.filter fun m => isOnPath [m.1]).map fun m =>
      (m.1, if m.1 = "preset" then m.2 else known [m.1] m.2))
  | value => value

theorem member?_cons_of_ne {key other : String} (h : key ≠ other) (value : Json)
    (members : List (String × Json)) :
    member? key ((other, value) :: members) = member? key members := by
  rw [member?, List.lookup_cons, beq_false_of_ne h]
  rfl

theorem member?_filter (p : String → Bool) {key : String} (hkey : p key = true)
    (members : List (String × Json)) :
    member? key (members.filter fun m => p m.1) = member? key members := by
  induction members with
  | nil => rfl
  | cons m members ih =>
      obtain ⟨other, value⟩ := m
      by_cases hother : key = other
      · subst hother
        rw [List.filter_cons_of_pos (by exact hkey), member?, List.lookup_cons_self, member?,
          List.lookup_cons_self]
      · rw [member?_cons_of_ne hother, List.filter_cons]
        split
        · rw [member?_cons_of_ne hother, ih]
        · exact ih

theorem member?_map (f : String → Json → Json) (key : String) (members : List (String × Json)) :
    member? key (members.map fun m => (m.1, f m.1 m.2)) = (member? key members).map (f key) := by
  induction members with
  | nil => rfl
  | cons m members ih =>
      obtain ⟨other, value⟩ := m
      rw [List.map_cons]
      by_cases hother : key = other
      · subst hother
        rw [member?, List.lookup_cons_self, member?, List.lookup_cons_self, Option.map_some]
      · rw [member?_cons_of_ne hother, member?_cons_of_ne hother, ih]

theorem member?_onPath {path : List String} {key : String} (hkey : isOnPath (path ++ [key]) = true)
    (members : List (String × Json)) :
    member? key (members.filter fun m => isOnPath (path ++ [m.1])) = member? key members :=
  member?_filter (fun key => isOnPath (path ++ [key])) hkey members

theorem readComments_known (item : Option Json) :
    readComments (item.map (known ["comments"])) = readComments item := by
  cases item with
  | none => rfl
  | some item =>
      cases item with
      | object members =>
          have hlicenses : isOnPath (["comments"] ++ ["licenses"]) = true := by decide
          have hdocs : isOnPath (["comments"] ++ ["docs"]) = true := by decide
          have hannotations : isOnPath (["comments"] ++ ["annotations"]) = true := by decide
          simp only [Option.map_some, known, readComments, readRules, member?_onPath hlicenses,
            member?_onPath hdocs, member?_onPath hannotations]
      | _ => rfl

theorem readConsole_known (item : Option Json) :
    readConsole (item.map (known ["console"])) = readConsole item := by
  cases item with
  | none => rfl
  | some item =>
      cases item with
      | object members =>
          have hinclude : isOnPath (["console"] ++ ["include"]) = true := by decide
          have hexclude : isOnPath (["console"] ++ ["exclude"]) = true := by decide
          simp only [Option.map_some, known, readConsole, member?_onPath hinclude,
            member?_onPath hexclude]
      | _ => rfl

theorem readFlag_known (name : OptionName) (path : List String) (item : Option Json) :
    readFlag name (item.map (known path)) = readFlag name item := by
  cases item with
  | none => rfl
  | some item => cases item <;> rfl

theorem ofJson_withoutUnknown : ofJson (withoutUnknown value) = ofJson value := by
  cases value with
  | object members =>
      have hmember (key : String) (hkey : isOnPath ([] ++ [key]) = true) :
          member? key ((members.filter fun m => isOnPath [m.1]).map fun m =>
            (m.1, if m.1 = "preset" then m.2 else known [m.1] m.2)) =
            (member? key members).map fun item =>
              if key = "preset" then item else known [key] item := by
        rw [member?_map fun key item => if key = "preset" then item else known [key] item]
        exact congrArg _ (member?_onPath hkey members)
      simp only [withoutUnknown, ofJson, hmember "preset" (by decide), hmember "comments" (by decide),
        hmember "console" (by decide), hmember "debugger" (by decide)]
      simp only [reduceIte, String.reduceEq, Option.map_id_fun', id_eq]
      rw [readComments_known, readConsole_known, readFlag_known]
  | _ => rfl

end Options

/-! ## The JSON form of options -/

namespace Json

def present (fields : List (String × Option Json)) : List (String × Json) :=
  fields.filterMap fun field => field.2.map fun value => (field.1, value)

def ofStrings (strings : List String) : Json :=
  .array (strings.map .string)

end Json

def Preset.name : Preset → String
  | .library => "library"
  | .application => "application"

namespace CommentRule

def isFilter : CommentRule → Bool
  | .all _ => false
  | .filter _ => true

def toJson? : CommentRule → Option Json
  | .all remove => some (.bool remove)
  | .filter _ => none

end CommentRule

def CommentOption.toJson : CommentOption → Json
  | .all remove => .bool remove
  | .byCategory rules => .object <| Json.present
    [("licenses", rules.licenses.bind CommentRule.toJson?),
     ("docs", rules.docs.bind CommentRule.toJson?), ("annotations", rules.annotations.map .bool)]

namespace ConsoleOption

def isFilter : ConsoleOption → Bool
  | .filter _ => true
  | _ => false

def toJson? : ConsoleOption → Option Json
  | .all remove => some (.bool remove)
  | .filter _ => none
  | .methods included excluded => some <| .object <| Json.present
    [("include", included.map .ofStrings), ("exclude", excluded.map .ofStrings)]

end ConsoleOption

namespace Options

def isFilterFree (options : Options) : Bool :=
  !options.rules.licenses.any CommentRule.isFilter && !options.rules.docs.any CommentRule.isFilter &&
    !options.console.any ConsoleOption.isFilter

/-- The JSON form of options.  What is open has no member, nor has a filter. -/
def toJson (options : Options) : Json :=
  .object <| Json.present
    [("preset", options.preset.map fun preset => .string preset.name),
     ("comments", options.comments.map CommentOption.toJson),
     ("console", options.console.bind ConsoleOption.toJson?),
     ("debugger", options.debugger.map .bool)]

@[simp] theorem member?_present_nil (key : String) : member? key (Json.present []) = none := rfl

@[simp] theorem member?_present_cons (key other : String) (value : Option Json)
    (fields : List (String × Option Json)) :
    member? key (Json.present ((other, value) :: fields)) =
      if key = other then value.or (member? key (Json.present fields))
      else member? key (Json.present fields) := by
  cases value with
  | none => simp [Json.present]
  | some value =>
      by_cases hother : key = other
      · rw [if_pos hother, hother]
        exact List.lookup_cons_self
      · rw [if_neg hother]
        exact member?_cons_of_ne hother value _

theorem readFlag_toJson (name : OptionName) (flag : Option Bool) :
    readFlag name (flag.map .bool) = .ok flag := by
  cases flag <;> rfl

theorem exists_readFlag_toJson? (name : OptionName) {rule : Option CommentRule}
    (h : rule.any CommentRule.isFilter = false) :
    ∃ flag, readFlag name (rule.bind CommentRule.toJson?) = .ok flag ∧
      flag.map CommentRule.all = rule := by
  cases rule with
  | none => exact ⟨none, rfl, rfl⟩
  | some rule =>
      cases rule with
      | all remove => exact ⟨some remove, rfl, rfl⟩
      | filter accepts => exact absurd h (by simp [CommentRule.isFilter])

theorem strings?_ofStrings (strings : List String) :
    (Json.ofStrings strings).strings? = some strings := by
  induction strings with
  | nil => rfl
  | cons s strings ih =>
      rw [Json.ofStrings] at ih ⊢
      rw [List.map_cons, strings?_string_cons, ih, Option.map_some]

theorem readMethods_toJson (name : OptionName) (methods : Option (List String)) :
    readMethods name (methods.map .ofStrings) = .ok methods := by
  cases methods with
  | none => rfl
  | some methods => simp only [Option.map_some, readMethods, strings?_ofStrings]

theorem readPreset_toJson (preset : Option Preset) :
    readPreset (preset.map fun preset => .string preset.name) = .ok preset := by
  cases preset with
  | none => rfl
  | some preset => cases preset <;> rfl

theorem readRules_toJson {rules : CommentRules}
    (hlicenses : rules.licenses.any CommentRule.isFilter = false)
    (hdocs : rules.docs.any CommentRule.isFilter = false) :
    readRules (Json.present
      [("licenses", rules.licenses.bind CommentRule.toJson?),
       ("docs", rules.docs.bind CommentRule.toJson?),
       ("annotations", rules.annotations.map .bool)]) = .ok rules := by
  obtain ⟨licenses, hlicenses, hl⟩ := exists_readFlag_toJson? .licenses hlicenses
  obtain ⟨docs, hdocs, hd⟩ := exists_readFlag_toJson? .docs hdocs
  have hannotations := readFlag_toJson .annotations rules.annotations
  unfold readRules
  simp only [member?_present_cons, member?_present_nil, String.reduceEq, reduceIte, Option.or_none,
    hlicenses, hdocs, hannotations]
  calc _
    _ = Except.ok (⟨licenses.map .all, docs.map .all, rules.annotations⟩ : CommentRules) := rfl
    _ = .ok rules := by rw [hl, hd]

theorem readComments_toJson {options : Options} (h : options.isFilterFree = true) :
    readComments (options.comments.map CommentOption.toJson) = .ok options.comments := by
  simp only [isFilterFree, Bool.and_eq_true, Bool.not_eq_true'] at h
  obtain ⟨⟨hlicenses, hdocs⟩, -⟩ := h
  unfold Options.rules at hlicenses hdocs
  cases hcomments : options.comments with
  | none => rfl
  | some comments =>
      rw [hcomments] at hlicenses hdocs
      cases comments with
      | all remove => rfl
      | byCategory rules =>
          rw [Option.map_some, CommentOption.toJson, readComments, readRules_toJson hlicenses hdocs]
          rfl

theorem readConsole_toJson {console : Option ConsoleOption}
    (h : console.any ConsoleOption.isFilter = false) :
    readConsole (console.bind ConsoleOption.toJson?) = .ok console := by
  cases console with
  | none => rfl
  | some console =>
      cases console with
      | all remove => rfl
      | filter accepts => exact absurd h (by simp [ConsoleOption.isFilter])
      | methods included excluded =>
          simp only [Option.bind_some, ConsoleOption.toJson?, readConsole, member?_present_cons,
            member?_present_nil, String.reduceEq, reduceIte, Option.or_none, readMethods_toJson]
          rfl

theorem ofJson_toJson {options : Options} (h : options.isFilterFree = true) :
    ofJson options.toJson = .ok options := by
  have hcomments := readComments_toJson h
  simp only [isFilterFree, Bool.and_eq_true, Bool.not_eq_true'] at h
  simp only [toJson, ofJson, member?_present_cons, member?_present_nil, String.reduceEq, reduceIte,
    Option.or_none, readPreset_toJson, hcomments, readConsole_toJson h.2, readFlag_toJson]
  rfl

/-- A JSON value gives options exactly if everything at the path of an option has the shape of the
option.  Otherwise the first option in order is named whose path leads to something else.  Members on no
path never change the result, and options without filters are read back from their JSON form. -/
theorem ofJson_spec (value : Json) :
    ((∃ options, ofJson value = .ok options) ↔
      ∀ name item, value.at? name.path = some item → allows name item = true) ∧
    (∀ name, ofJson value = .error name ↔ OptionName.inOrder.find? (offends value) = some name) ∧
    OptionName.inOrder.map OptionName.text =
      ["options", "preset", "comments", "comments.licenses", "comments.docs", "comments.annotations",
       "console", "console.include", "console.exclude", "debugger"] ∧
    ofJson (withoutUnknown value) = ofJson value ∧
    ∀ options : Options, options.isFilterFree = true → ofJson options.toJson = .ok options := by
  refine ⟨?_, ?_, rfl, ofJson_withoutUnknown value, fun options => ofJson_toJson⟩
  · rw [← fault?_eq_none_iff, fault?_ofJson, List.find?_eq_none]
    constructor
    · intro h name item hitem
      have hname := h name (OptionName.mem_inOrder name)
      rw [offends, hitem] at hname
      simpa using hname
    · intro h name _
      rw [offends]
      cases hitem : value.at? name.path with
      | none => exact Bool.false_ne_true
      | some item => simp [h name item hitem]
  · intro name
    rw [← fault?_eq_some_iff, fault?_ofJson]

/-- Of two faults the one in the comments is named, though it is written behind the other one. -/
theorem ofJson_spec_two_faults :
    ofJson (.object [("debugger", .null), ("comments", .object [("x", .null), ("docs", .null)])]) =
      .error .docs ∧
    (∃ options, ofJson (.object [("preset", .object [("library", .null)])]) = .ok options) ∧
    ofJson (toJson ⟨some .application, some (.byCategory ⟨some (.all true), none, some false⟩),
        some (.methods (some ["log"]) none), none⟩) =
      .ok ⟨some .application, some (.byCategory ⟨some (.all true), none, some false⟩),
        some (.methods (some ["log"]) none), none⟩ := by
  have hfault := (ofJson_spec
    (.object [("debugger", .null), ("comments", .object [("x", .null), ("docs", .null)])])).2.1
  have hshape := (ofJson_spec (.object [("preset", .object [("library", .null)])])).1
  have hread := (ofJson_spec .null).2.2.2.2
  have hallowed : ∀ name ∈ OptionName.inOrder,
      ((Json.object [("preset", .object [("library", .null)])]).at? name.path).all (allows name) =
        true := by
    decide
  refine ⟨(hfault .docs).mpr (by decide), hshape.mpr ?_, hread _ rfl⟩
  intro name item hitem
  have hname := hallowed name (OptionName.mem_inOrder name)
  rwa [hitem] at hname

end Options

end JsPrune
