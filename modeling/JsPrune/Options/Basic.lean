/-!
# Options

What a user asks to have removed.  Every option may be left open; a preset then decides, and without
a preset everything goes.
-/

namespace JsPrune

inductive Preset where
  /-- Keeps licenses, documentation and annotations. -/
  | library
  /-- Keeps licenses and the console methods that report to users. -/
  | application
  deriving DecidableEq, Repr

/-- The options that can be wrong, by their path in a document. -/
inductive OptionName where
  | options
  | preset
  | comments
  | licenses
  | docs
  | annotations
  | console
  | consoleInclude
  | consoleExclude
  | debugger
  deriving DecidableEq, Repr

def OptionName.text : OptionName → String
  | .options => "options"
  | .preset => "preset"
  | .comments => "comments"
  | .licenses => "comments.licenses"
  | .docs => "comments.docs"
  | .annotations => "comments.annotations"
  | .console => "console"
  | .consoleInclude => "console.include"
  | .consoleExclude => "console.exclude"
  | .debugger => "debugger"

def OptionName.message (name : OptionName) : String :=
  "Invalid value for \"" ++ name.text ++ "\" option."

def Preset.ofName (name : String) : Except OptionName Preset :=
  if name = "library" then .ok .library
  else if name = "application" then .ok .application
  else .error .preset

inductive CommentRule where
  | all (remove : Bool)
  /-- Removes those whose text the filter accepts. -/
  | filter (accepts : String → Bool)

structure CommentRules where
  licenses : Option CommentRule
  docs : Option CommentRule
  annotations : Option Bool

inductive CommentOption where
  | all (remove : Bool)
  | byCategory (rules : CommentRules)

inductive ConsoleOption where
  | all (remove : Bool)
  /-- Removes the calls whose method and text the filter accepts. -/
  | filter (accepts : String → String → Bool)
  /-- Removes the calls of the included methods, all known ones by default, less the excluded
  ones. -/
  | methods (included excluded : Option (List String))

structure Options where
  preset : Option Preset
  comments : Option CommentOption
  console : Option ConsoleOption
  debugger : Option Bool

namespace Options

def empty : Options := ⟨none, none, none, none⟩

def withPreset (options : Options) (preset : Preset) : Options :=
  { options with preset := some preset }

def withComments (options : Options) (remove : Bool) : Options :=
  { options with comments := some (.all remove) }

/-- The rules by category so far.  One answer for all comments leaves no rules. -/
def rules (options : Options) : CommentRules :=
  match options.comments with
  | some (.byCategory rules) => rules
  | _ => ⟨none, none, none⟩

def withLicenses (options : Options) (rule : CommentRule) : Options :=
  { options with comments := some (.byCategory { options.rules with licenses := some rule }) }

def withDocs (options : Options) (rule : CommentRule) : Options :=
  { options with comments := some (.byCategory { options.rules with docs := some rule }) }

def withAnnotations (options : Options) (remove : Bool) : Options :=
  { options with comments := some (.byCategory { options.rules with annotations := some remove }) }

def withConsole (options : Options) (console : ConsoleOption) : Options :=
  { options with console := some console }

def withDebugger (options : Options) (remove : Bool) : Options :=
  { options with debugger := some remove }

end Options

end JsPrune
