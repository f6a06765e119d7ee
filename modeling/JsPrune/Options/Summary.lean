import JsPrune.Policy
/-!
# Summaries of options and policies

One line of text that shows every option, as it is set or left open, and one that shows which parts
of a policy are active.  Filters have no text of their own.
-/

namespace JsPrune.Summary

def flag (b : Bool) : String := if b then "true" else "false"

def optional {α : Type} (show? : α → String) : Option α → String
  | none => "None"
  | some a => "Some(" ++ show? a ++ ")"

def record (name : String) (settings : List (String × String)) : String :=
  name ++ " \x7b " ++
    String.intercalate ", " (settings.map fun (label, text) => label ++ ": " ++ text) ++ " \x7d"

/-- A string in quotes, with quotes, backslashes and line breaks escaped. -/
def quoted (s : String) : String :=
  let escape (c : Char) : List Char :=
    if c == '"' || c == '\\' then ['\\', c]
    else if c == '\n' then ['\\', 'n']
    else if c == '\r' then ['\\', 'r']
    else if c == '\t' then ['\\', 't']
    else if c == '\x00' then ['\\', '0']
    else [c]
  String.ofList ('"' :: s.toList.flatMap escape ++ ['"'])

def strings (items : List String) : String :=
  "[" ++ String.intercalate ", " (items.map quoted) ++ "]"

def preset : Preset → String
  | .library => "Library"
  | .application => "Application"

def commentRule : CommentRule → String
  | .all remove => "Remove(" ++ flag remove ++ ")"
  | .filter _ => "Filter(..)"

def comments : CommentOption → String
  | .all remove => "All(" ++ flag remove ++ ")"
  | .byCategory rules =>
    "Select(" ++ record "CommentSelection"
      [("licenses", optional commentRule rules.licenses),
       ("docs", optional commentRule rules.docs),
       ("annotations", optional flag rules.annotations)] ++ ")"

def console : ConsoleOption → String
  | .all remove => "All(" ++ flag remove ++ ")"
  | .filter _ => "Filter(..)"
  | .methods included excluded =>
    record "Methods"
      [("include", optional strings included), ("exclude", optional strings excluded)]

def options (o : Options) : String :=
  record "Options"
    [("preset", optional preset o.preset), ("comments", optional comments o.comments),
     ("console", optional console o.console), ("debugger", optional flag o.debugger)]

def policy (p : Policy) : String :=
  record "Config"
    [("licenses", flag p.licenses.isActive), ("docs", flag p.docs.isActive),
     ("annotations", flag p.annotations), ("console", flag p.console.isActive),
     ("debugger", flag p.debugger)]

end JsPrune.Summary
