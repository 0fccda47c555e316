import ElmNavigator.Json.Basic

/-!
# Shapes of values

Protocol messages are decoded by shape.  A record is an object whose extra fields are ignored, or an
array that gives all fields by position.
-/

namespace ElmNavigator
namespace Json

def record? (names : List String) : Json -> Option (List (Option Json))
  | .object fields => some (names.map (lookup? fields))
  | .array items => if items.length = names.length then some (items.map some) else none
  | _ => none

def required {α : Type} (shape : Json -> Option α) : Option Json -> Option α
  | none => none
  | some value => shape value

def maybe {α : Type} (shape : Json -> Option α) : Option Json -> Option (Option α)
  | none => some none
  | some .null => some none
  | some value => (shape value).map some

def unsigned32? : Json -> Option Nat
  | .integer (.ofNat n) => if n < 0x100000000 then some n else none
  | _ => none

def signed32? : Json -> Option Int
  | .integer i => if -0x80000000 ≤ i ∧ i < 0x80000000 then some i else none
  | _ => none

def list? {α : Type} (shape : Json -> Option α) : Json -> Option (List α)
  | .array items => items.mapM shape
  | _ => none

def object? : Json -> Option (List (String × Json))
  | .object fields => some fields
  | _ => none

end Json
end ElmNavigator
