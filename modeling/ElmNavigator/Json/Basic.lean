/-!
# JSON values

Settings, manifests and protocol messages are JSON.  A number written without fraction and exponent
that fits 64 bits is an integer; every other number is a real, kept as a decimal.  The distinction
matters because counts and positions accept integers only.
-/

namespace ElmNavigator

/-- A JSON value.  The fields of an object are in the order of their text and may repeat. -/
inductive Json where
  | null
  | bool (b : Bool)
  | integer (i : Int)
  /-- The number `digits * 10 ^ exponent`. -/
  | real (digits : Int) (exponent : Int)
  | string (s : String)
  | array (items : List Json)
  | object (fields : List (String × Json))
deriving Repr

namespace Json

/-- The value of a field; of a repeated field the last value counts. -/
def lookup? (fields : List (String × Json)) (name : String) : Option Json :=
  (fields.reverse.find? fun field => field.1 == name).map (·.2)

def field? (name : String) : Json -> Option Json
  | .object fields => lookup? fields name
  | _ => none

def string? : Json -> Option String
  | .string s => some s
  | _ => none

def array? : Json -> Option (List Json)
  | .array items => some items
  | _ => none

def natural? : Json -> Option Nat
  | .integer (.ofNat n) => some n
  | _ => none

def strings? (value : Json) : Option (List String) := do
  let items ← value.array?
  items.mapM (·.string?)

end Json
end ElmNavigator
