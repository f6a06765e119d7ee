/-!
# JSON values

The values of a JSON document.  A number keeps its written form only, for no option is a number.
-/

namespace JsPrune

/-- A JSON value.  The members of an object stand in order and have different names. -/
inductive Json where
  | null
  | bool (value : Bool)
  | number (written : String)
  | string (value : String)
  | array (items : List Json)
  | object (members : List (String × Json))

namespace Json

def setMember (name : String) (value : Json) : List (String × Json) → List (String × Json)
  | [] => [(name, value)]
  | (other, old) :: rest =>
    if other = name then (name, value) :: rest else (other, old) :: setMember name value rest

def strings? : Json → Option (List String)
  | .array items => items.mapM fun
    | .string s => some s
    | _ => none
  | _ => none

end Json

end JsPrune
