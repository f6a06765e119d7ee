import JsPrune.Options.Document
import Mathlib.Data.Option.Basic
/-!
# Which JSON values give options

A JSON value gives options if everything at the path of an option has the shape that the option allows.
Of several wrong shapes the first one is named, in the order of the readers: each of them complains of
the first fault in its own part of the value, and what is read first is complained of first.
-/

namespace JsPrune

/-! ## Paths and shapes -/

namespace Json

def isBool : Json → Bool
  | .bool _ => true
  | _ => false

def isObject : Json → Bool
  | .object _ => true
  | _ => false

def isString : Json → Bool
  | .string _ => true
  | _ => false

def isStrings : Json → Bool
  | .array items => items.all isString
  | _ => false

def get? : Json → String → Option Json
  | .object members, key => members.lookup key
  | _, _ => none

def at? (value : Json) (path : List String) : Option Json :=
  path.foldlM get? value

theorem at?_concat (value : Json) (path : List String) (key : String) :
    value.at? (path ++ [key]) = (value.at? path).bind fun item => item.get? key := by
  simp [at?, List.foldlM_append]

end Json

namespace OptionName

def path : OptionName → List String
  | .options => []
  | .preset => ["preset"]
  | .comments => ["comments"]
  | .licenses => ["comments", "licenses"]
  | .docs => ["comments", "docs"]
  | .annotations => ["comments", "annotations"]
  | .console => ["console"]
  | .consoleInclude => ["console", "include"]
  | .consoleExclude => ["console", "exclude"]
  | .debugger => ["debugger"]

def inOrder : List OptionName :=
  [.options, .preset, .comments, .licenses, .docs, .annotations, .console, .consoleInclude,
   .consoleExclude, .debugger]

theorem mem_inOrder (name : OptionName) : name ∈ inOrder := by
  cases name <;> decide

end OptionName

namespace Options

def presetNames : List String := ["library", "application"]

/-- The name of a preset, or an object whose only member has such a name and the value null. -/
def isPreset : Json → Bool
  | .string name => presetNames.contains name
  | .object [(name, .null)] => presetNames.contains name
  | _ => false

def allows : OptionName → Json → Bool
  | .options => Json.isObject
  | .preset => isPreset
  | .comments => fun value => value.isBool || value.isObject
  | .licenses => Json.isBool
  | .docs => Json.isBool
  | .annotations => Json.isBool
  | .console => fun value => value.isBool || value.isObject
  | .consoleInclude => Json.isStrings
  | .consoleExclude => Json.isStrings
  | .debugger => Json.isBool

/-- Whether something of a wrong shape stands at the path of an option. -/
def offends (value : Json) (name : OptionName) : Bool :=
  (value.at? name.path).any fun item => !allows name item

/-! ## The first fault -/

def fault? {α : Type} : Except OptionName α → Option OptionName
  | .ok _ => none
  | .error name => some name

section

variable {α β : Type}

theorem fault?_eq_some_iff {result : Except OptionName α} {name : OptionName} :
    fault? result = some name ↔ result = .error name := by
  cases result <;> simp [fault?]

theorem fault?_eq_none_iff {result : Except OptionName α} :
    fault? result = none ↔ ∃ a, result = .ok a := by
  cases result <;> simp [fault?]

/-- What is read first is complained of first. -/
theorem fault?_bind {result : Except OptionName α} {next : α → Except OptionName β}
    {later : Option OptionName} (h : ∀ a, fault? (next a) = later) :
    fault? (result >>= next) = (fault? result).or later := by
  cases result with
  | error name => rfl
  | ok a => exact h a

end

variable (value : Json)

theorem at?_member {outer name : OptionName} {members : List (String × Json)} {key : String}
    (hmembers : value.at? outer.path = some (.object members))
    (hpath : name.path = outer.path ++ [key]) : value.at? name.path = member? key members := by
  rw [hpath, Json.at?_concat, hmembers]
  rfl

theorem find?_offends_singleton {name : OptionName} {item : Option Json}
    (hitem : value.at? name.path = item) :
    [name].find? (offends value) =
      if item.any fun item => !allows name item then some name else none := by
  rw [List.find?_singleton, offends, hitem]

theorem fault?_readFlag {name : OptionName} {item : Option Json} (hname : allows name = Json.isBool)
    (hitem : value.at? name.path = item) :
    fault? (readFlag name item) = [name].find? (offends value) := by
  rw [find?_offends_singleton value hitem, hname]
  cases item with
  | none => rfl
  | some item => cases item <;> rfl

theorem strings?_string_cons (s : String) (items : List Json) :
    (Json.array (.string s :: items)).strings? = (Json.array items).strings?.map (s :: ·) := by
  simp only [Json.strings?, List.mapM_cons, Option.bind_eq_bind, Option.bind_some, Option.pure_def,
    Option.map_eq_bind]
  rfl

theorem strings?_cons {item : Json} (hitem : item.isString = false) (items : List Json) :
    (Json.array (item :: items)).strings? = none := by
  simp only [Json.strings?, List.mapM_cons]
  cases item with
  | string s => exact absurd hitem (by simp [Json.isString])
  | _ => rfl

theorem isSome_strings? (item : Json) : item.strings?.isSome = item.isStrings := by
  cases item with
  | array items =>
      induction items with
      | nil => rfl
      | cons item items ih =>
          rw [Json.isStrings] at ih ⊢
          rw [List.all_cons, ← ih]
          cases hstring : item.isString with
          | false =>
              rw [strings?_cons hstring]
              rfl
          | true =>
              cases item with
              | string s => rw [strings?_string_cons, Option.isSome_map, Bool.true_and]
              | _ => exact absurd hstring (by simp [Json.isString])
  | _ => rfl

theorem fault?_readMethods {name : OptionName} {item : Option Json}
    (hname : allows name = Json.isStrings) (hitem : value.at? name.path = item) :
    fault? (readMethods name item) = [name].find? (offends value) := by
  rw [find?_offends_singleton value hitem, hname]
  cases item with
  | none => rfl
  | some item =>
      rw [Option.any_some, ← isSome_strings?, readMethods]
      cases item.strings? <;> rfl

theorem fault?_map_ofName (name : String) :
    fault? ((Preset.ofName name).map some) =
      if !presetNames.contains name then some .preset else none := by
  unfold Preset.ofName
  by_cases hlibrary : name = "library"
  · rw [if_pos hlibrary, hlibrary]
    rfl
  by_cases happlication : name = "application"
  · rw [if_neg hlibrary, if_pos happlication, happlication]
    rfl
  · simp [hlibrary, happlication, presetNames, fault?, Except.map]

theorem fault?_readPreset {item : Option Json} (hitem : value.at? OptionName.preset.path = item) :
    fault? (readPreset item) = [OptionName.preset].find? (offends value) := by
  rw [find?_offends_singleton value hitem, allows]
  fun_cases readPreset item with
  | case1 => rfl
  | case2 name => exact fault?_map_ofName name
  | case3 name => exact fault?_map_ofName name
  | case4 item hstring hobject =>
      have hnot : isPreset item = false := by
        unfold isPreset
        split
        · exact absurd rfl (hstring _)
        · exact absurd rfl (hobject _)
        · rfl
      rw [Option.any_some, hnot]
      rfl

theorem fault?_readRules {members : List (String × Json)}
    (hmembers : value.at? OptionName.comments.path = some (.object members)) :
    fault? (readRules members) =
      [OptionName.licenses, .docs, .annotations].find? (offends value) := by
  calc fault? (readRules members)
    _ = (fault? (readFlag .licenses (member? "licenses" members))).or
        ((fault? (readFlag .docs (member? "docs" members))).or
          ((fault? (readFlag .annotations (member? "annotations" members))).or none)) := by
      apply fault?_bind
      intro licenses
      apply fault?_bind
      intro docs
      apply fault?_bind
      intro annotations
      rfl
    _ = ([OptionName.licenses] ++ ([OptionName.docs] ++ [OptionName.annotations])).find?
        (offends value) := by
      rw [fault?_readFlag value rfl (at?_member value hmembers rfl),
        fault?_readFlag value rfl (at?_member value hmembers rfl),
        fault?_readFlag value rfl (at?_member value hmembers rfl), Option.or_none, List.find?_append,
        List.find?_append]

theorem find?_offends_cons {name : OptionName} {inside : List OptionName}
    (hname : allows name = fun value => value.isBool || value.isObject)
    (hinside : ∀ other ∈ inside, ∃ key, other.path = name.path ++ [key]) {item : Option Json}
    (hitem : value.at? name.path = item) :
    (name :: inside).find? (offends value) =
      if item.any Json.isObject then inside.find? (offends value)
      else if item.any fun item => !item.isBool then some name else none := by
  have hnone (h : ∀ key, item.bind (fun item => item.get? key) = none) :
      inside.find? (offends value) = none := by
    apply List.find?_eq_none.mpr
    intro other hother
    obtain ⟨key, hpath⟩ := hinside other hother
    rw [offends, hpath, Json.at?_concat, hitem, h key]
    exact Bool.false_ne_true
  rw [List.find?_cons, offends, hname, hitem]
  cases item with
  | none => exact hnone fun _ => rfl
  | some item =>
      cases item with
      | object members => rfl
      | bool b => exact hnone fun _ => rfl
      | _ => rfl

theorem fault?_readComments {item : Option Json}
    (hitem : value.at? OptionName.comments.path = item) :
    fault? (readComments item) =
      [OptionName.comments, .licenses, .docs, .annotations].find? (offends value) := by
  have hinside : ∀ other ∈ [OptionName.licenses, .docs, .annotations],
      ∃ key, other.path = OptionName.comments.path ++ [key] := by
    simp [OptionName.path]
  rw [find?_offends_cons value rfl hinside hitem]
  fun_cases readComments item with
  | case1 => rfl
  | case2 b => rfl
  | case3 members =>
      calc fault? (readRules members >>= fun rules => .ok (some (CommentOption.byCategory rules)))
        _ = (fault? (readRules members)).or none := fault?_bind fun _ => rfl
        _ = [OptionName.licenses, .docs, .annotations].find? (offends value) := by
          rw [Option.or_none, fault?_readRules value hitem]
  | case4 item hbool hobject =>
      cases item with
      | bool b => exact absurd rfl (hbool b)
      | object members => exact absurd rfl (hobject members)
      | _ => rfl

theorem fault?_readConsole {item : Option Json} (hitem : value.at? OptionName.console.path = item) :
    fault? (readConsole item) =
      [OptionName.console, .consoleInclude, .consoleExclude].find? (offends value) := by
  have hinside : ∀ other ∈ [OptionName.consoleInclude, .consoleExclude],
      ∃ key, other.path = OptionName.console.path ++ [key] := by
    simp [OptionName.path]
  rw [find?_offends_cons value rfl hinside hitem]
  fun_cases readConsole item with
  | case1 => rfl
  | case2 b => rfl
  | case3 members =>
      calc _
        _ = (fault? (readMethods .consoleInclude (member? "include" members))).or
            ((fault? (readMethods .consoleExclude (member? "exclude" members))).or none) := by
          apply fault?_bind
          intro included
          apply fault?_bind
          intro excluded
          rfl
        _ = ([OptionName.consoleInclude] ++ [OptionName.consoleExclude]).find? (offends value) := by
          rw [fault?_readMethods value rfl (at?_member value hitem rfl),
            fault?_readMethods value rfl (at?_member value hitem rfl), Option.or_none,
            List.find?_append]
  | case4 item hbool hobject =>
      cases item with
      | bool b => exact absurd rfl (hbool b)
      | object members => exact absurd rfl (hobject members)
      | _ => rfl

/-- A reader of options complains of the first one of a wrong shape. -/
theorem fault?_ofJson : fault? (ofJson value) = OptionName.inOrder.find? (offends value) := by
  cases value with
  | object members =>
      have hroot : (Json.object members).at? OptionName.options.path = some (.object members) := rfl
      calc fault? (ofJson (.object members))
        _ = (fault? (readPreset (member? "preset" members))).or
            ((fault? (readComments (member? "comments" members))).or
              ((fault? (readConsole (member? "console" members))).or
                ((fault? (readFlag .debugger (member? "debugger" members))).or none))) := by
          apply fault?_bind
          intro preset
          apply fault?_bind
          intro comments
          apply fault?_bind
          intro console
          apply fault?_bind
          intro debugger
          rfl
        _ = ([OptionName.preset] ++ ([OptionName.comments, .licenses, .docs, .annotations] ++
            ([OptionName.console, .consoleInclude, .consoleExclude] ++ [OptionName.debugger]))).find?
              (offends (.object members)) := by
          rw [fault?_readPreset _ (at?_member _ hroot rfl),
            fault?_readComments _ (at?_member _ hroot rfl),
            fault?_readConsole _ (at?_member _ hroot rfl),
            fault?_readFlag _ rfl (at?_member _ hroot rfl), Option.or_none, List.find?_append,
            List.find?_append, List.find?_append]
  | _ => rfl

end Options

end JsPrune
