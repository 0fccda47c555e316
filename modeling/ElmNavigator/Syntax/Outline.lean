import ElmNavigator.Text.Lines

/-!
# Outlines of modules

Navigation needs a module's header, its imports and the names of its top-level types, functions and
ports; expressions are never looked at.  An outline holds these.  It is parametric in what says where
a name stands: byte spans while a text is being read, positions afterwards, or nothing at all when
two outlines are compared up to layout.
-/

namespace ElmNavigator
namespace Syntax

structure Named (ℓ : Type) where
  name : String
  location : ℓ
deriving Repr, DecidableEq

inductive ModuleKind where
  | plain
  | port
  | effect
deriving Repr, DecidableEq

inductive Exposed (ℓ : Type) where
  | all (location : ℓ)
  | value (name : String) (location : ℓ)
  /-- A type; an open one brings all of its constructors. -/
  | type (name : String) (isOpen : Bool) (location : ℓ)
  | constructor (name : String) (typeName : String) (location : ℓ)
deriving Repr, DecidableEq

structure Import (ℓ : Type) where
  module : String
  asName : Option String
  exposing : List (Exposed ℓ)
  location : ℓ
deriving Repr, DecidableEq

inductive TypeDecl (ℓ : Type) where
  | custom (name : String) (constructors : List (Named ℓ)) (location : ℓ)
  | synonym (name : String) (location : ℓ)
deriving Repr, DecidableEq

structure Outline (ℓ : Type) where
  name : String
  kind : ModuleKind
  exposing : List (Exposed ℓ)
  imports : List (Import ℓ)
  types : List (TypeDecl ℓ)
  functions : List (Named ℓ)
  ports : List (Named ℓ)
  location : ℓ
deriving Repr, DecidableEq

variable {ℓ κ : Type}

def Named.map (f : ℓ -> κ) (n : Named ℓ) : Named κ :=
  { name := n.name, location := f n.location }

namespace Exposed

def map (f : ℓ -> κ) : Exposed ℓ -> Exposed κ
  | .all l => .all (f l)
  | .value name l => .value name (f l)
  | .type name isOpen l => .type name isOpen (f l)
  | .constructor name typeName l => .constructor name typeName (f l)

def isAll : Exposed ℓ -> Bool
  | .all _ => true
  | _ => false

/-- Whether an entry lists a name itself; a wildcard lists none. -/
def lists (name : String) : Exposed ℓ -> Bool
  | .all _ => false
  | .value exposed _ => exposed == name
  | .type exposed _ _ => exposed == name
  | .constructor exposed _ _ => exposed == name

def openType? : Exposed ℓ -> Option String
  | .type name true _ => some name
  | _ => none

end Exposed

namespace Import

def map (f : ℓ -> κ) (i : Import ℓ) : Import κ :=
  { module := i.module, asName := i.asName, exposing := i.exposing.map (·.map f),
    location := f i.location }

def exposesAll (i : Import ℓ) : Bool :=
  i.exposing.any (·.isAll)

/-- Whether the exposing list names something explicitly.  Constructors behind `Type(..)` do not
count: only the imported module knows them. -/
def exposesName (i : Import ℓ) (name : String) : Bool :=
  i.exposing.any (·.lists name)

def openTypes (i : Import ℓ) : List String :=
  i.exposing.filterMap (·.openType?)

end Import

namespace TypeDecl

def map (f : ℓ -> κ) : TypeDecl ℓ -> TypeDecl κ
  | .custom name constructors l => .custom name (constructors.map (·.map f)) (f l)
  | .synonym name l => .synonym name (f l)

def name : TypeDecl ℓ -> String
  | .custom name _ _ => name
  | .synonym name _ => name

def constructorsOf (typeName : String) : TypeDecl ℓ -> List (Named ℓ)
  | .custom name constructors _ => if name = typeName then constructors else []
  | .synonym _ _ => []

end TypeDecl

namespace Outline

def map (f : ℓ -> κ) (m : Outline ℓ) : Outline κ :=
  { name := m.name, kind := m.kind, exposing := m.exposing.map (·.map f),
    imports := m.imports.map (·.map f), types := m.types.map (·.map f),
    functions := m.functions.map (·.map f), ports := m.ports.map (·.map f),
    location := f m.location }

def constructorsOf (m : Outline ℓ) (typeName : String) : List (Named ℓ) :=
  m.types.flatMap (·.constructorsOf typeName)

end Outline

end Syntax
end ElmNavigator
