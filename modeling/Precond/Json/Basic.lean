import Precond.Table

/-! JSON values. Whole numbers and numbers with a fraction or exponent are kept apart, since data
checks treat them differently, and the fields of an object keep their order. -/

namespace Precond

inductive Json
  | null
  | bool (b : Bool)
  | int (i : Int)
  | float (x : Float)
  | str (s : String)
  | arr (items : List Json)
  | obj (fields : List (String × Json))
  deriving Inhabited

namespace Json

def field? (key : String) : Json → Option Json
  | .obj fields => fields.lookup key
  | _ => none

def str? : Json → Option String
  | .str s => some s
  | _ => none

def int? : Json → Option Int
  | .int i => some i
  | _ => none

def bool? : Json → Option Bool
  | .bool b => some b
  | _ => none

def arr? : Json → Option (List Json)
  | .arr items => some items
  | _ => none

def obj? : Json → Option (List (String × Json))
  | .obj fields => some fields
  | _ => none

/-- Whether a value counts as no value at all: null, false, a zero or something empty. -/
def isVoid : Json → Bool
  | .null | .bool false | .str "" | .arr [] | .obj [] => true
  | .int i => i == 0
  | .float x => x == 0.0
  | _ => false

end Json

end Precond
