import ElmNavigator.Json.Shape

/-!
# Forms

A form says which values are acceptable where the value itself is not used.  Records are objects,
whose extra fields are ignored, or arrays that give the fields by position.  An array may end early
only before fields that may be left out altogether.
-/

namespace ElmNavigator
namespace Json

abbrev Form := Json -> Bool

inductive Presence where
  | required
  /-- The field may be missing from an object, or be null. -/
  | optional
  /-- The field may be missing from an object and from the end of an array. -/
  | omissible
deriving Repr, DecidableEq

structure Field where
  name : String
  presence : Presence
  form : Form

namespace Form

def any : Form :=
  fun _ => true

def flag : Form
  | .bool _ => true
  | _ => false

def text : Form
  | .string _ => true
  | _ => false

def code : Form :=
  fun value => value.signed32?.isSome

def count : Form :=
  fun value => value.unsigned32?.isSome

def orNull (form : Form) : Form
  | .null => true
  | value => form value

def listOf (form : Form) : Form
  | .array items => items.all form
  | _ => false

/-- One of several names: a string, or an object with the name as its one field and null in it. -/
def oneOf (names : List String) : Form
  | .string name => names.contains name
  | .object [(name, .null)] => names.contains name
  | _ => false

def byPosition : List Field -> List Json -> Bool
  | fields, [] => fields.all fun field => field.presence == .omissible
  | [], _ :: _ => false
  | field :: fields, value :: values => field.form value && byPosition fields values

def inField (field : Field) : Option Json -> Bool
  | some value => field.form value
  | none => field.presence != .required

def record (fields : List Field) : Form
  | .object values => fields.all fun field => inField field (lookup? values field.name)
  | .array values => byPosition fields values
  | _ => false

end Form

namespace Field

def must (name : String) (form : Form) : Field :=
  { name, presence := .required, form }

def may (name : String) (form : Form) : Field :=
  { name, presence := .optional, form := form.orNull }

def mayEnd (name : String) (form : Form) : Field :=
  { name, presence := .omissible, form := form.orNull }

end Field
end Json
end ElmNavigator
