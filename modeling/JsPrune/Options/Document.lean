import JsPrune.Json.Reader
import JsPrune.Options.Basic
/-!
# Options as a JSON document

The options of a document are the members of an object.  A missing member leaves its option open, an
unknown one is passed over, and the first one of the wrong shape is named.
-/

namespace JsPrune.Options

def member? (name : String) (members : List (String × Json)) : Option Json :=
  members.lookup name

def readFlag (name : OptionName) : Option Json → Except OptionName (Option Bool)
  | none => .ok none
  | some (.bool b) => .ok (some b)
  | some _ => .error name

def readMethods (name : OptionName) : Option Json → Except OptionName (Option (List String))
  | none => .ok none
  | some value =>
    match value.strings? with
    | some methods => .ok (some methods)
    | none => .error name

/-- A preset is given by its name, or by an object whose only member has this name and the value
null. -/
def readPreset : Option Json → Except OptionName (Option Preset)
  | none => .ok none
  | some (.string name) => (Preset.ofName name).map some
  | some (.object [(name, .null)]) => (Preset.ofName name).map some
  | some _ => .error .preset

def readRules (members : List (String × Json)) : Except OptionName CommentRules := do
  let licenses ← readFlag .licenses (member? "licenses" members)
  let docs ← readFlag .docs (member? "docs" members)
  let annotations ← readFlag .annotations (member? "annotations" members)
  .ok ⟨licenses.map .all, docs.map .all, annotations⟩

def readComments : Option Json → Except OptionName (Option CommentOption)
  | none => .ok none
  | some (.bool b) => .ok (some (.all b))
  | some (.object members) => do
    let rules ← readRules members
    .ok (some (.byCategory rules))
  | some _ => .error .comments

def readConsole : Option Json → Except OptionName (Option ConsoleOption)
  | none => .ok none
  | some (.bool b) => .ok (some (.all b))
  | some (.object members) => do
    let included ← readMethods .consoleInclude (member? "include" members)
    let excluded ← readMethods .consoleExclude (member? "exclude" members)
    .ok (some (.methods included excluded))
  | some _ => .error .console

def ofJson : Json → Except OptionName Options
  | .object members => do
    let preset ← readPreset (member? "preset" members)
    let comments ← readComments (member? "comments" members)
    let console ← readConsole (member? "console" members)
    let debugger ← readFlag .debugger (member? "debugger" members)
    .ok ⟨preset, comments, console, debugger⟩
  | _ => .error .options

inductive Fault where
  /-- It is no JSON document. -/
  | unreadable (fault : Json.Fault)
  /-- An option has the wrong shape. -/
  | invalid (name : OptionName)
  deriving DecidableEq, Repr

def ofText (text : String) : Except Fault Options :=
  match Json.ofText text with
  | .error fault => .error (.unreadable fault)
  | .ok value => (ofJson value).mapError .invalid

/-- The options at the front of a document.  They are looked at before the text behind them. -/
def ofLeadingText (text : String) : Except Fault Options := do
  let (value, rest) ← (Json.leading text).mapError .unreadable
  let options ← (ofJson value).mapError .invalid
  (Json.finish rest).mapError .unreadable
  .ok options

end JsPrune.Options
