import ElmNavigator.Place.FileUri
import ElmNavigator.Syntax.Parse
import ElmNavigator.Workspace.Overlay

/-!
# Symbols

Every declaration of an outline is a symbol, with the document and the place of its name.
-/

namespace ElmNavigator

open Text Syntax

inductive SymbolKind where
  | module
  | type
  | constructor
  | function
  | port
deriving Repr, DecidableEq

namespace SymbolKind

/-- Preference among several definitions of one name; higher wins. -/
def rank : SymbolKind -> Nat
  | .constructor => 4
  | .type => 3
  | .port => 2
  | .function => 1
  | .module => 0

def label : SymbolKind -> String
  | .module => "Module"
  | .type => "Class"
  | .constructor => "Constructor"
  | .function => "Variable"
  | .port => "Interface"

def code : SymbolKind -> Nat
  | .module => 2
  | .type => 5
  | .constructor => 9
  | .port => 11
  | .function => 13

end SymbolKind

structure Symbol where
  name : String
  kind : SymbolKind
  container : String
  uri : Uri
  range : Range
deriving Repr, DecidableEq

namespace Symbol

/-- A location counted from zero. -/
def rangeOf (l : Location) : Range where
  startLine := l.start.line - 1
  startColumn := l.start.column - 1
  endLine := l.stop.line - 1
  endColumn := l.stop.column - 1

def ofNamed (container : String) (uri : Uri) (kind : SymbolKind) (n : Named Location) : Symbol :=
  { name := n.name, kind, container, uri, range := rangeOf n.location }

def typeSymbols (container : String) (uri : Uri) : TypeDecl Location -> List Symbol
  | .custom name constructors l =>
      ofNamed container uri .type { name, location := l } ::
        constructors.map (ofNamed container uri .constructor)
  | .synonym name l => [ofNamed container uri .type { name, location := l }]

def ofOutline (m : Outline Location) (uri : Uri) : List Symbol :=
  m.types.flatMap (typeSymbols m.name uri) ++ m.functions.map (ofNamed m.name uri .function) ++
    m.ports.map (ofNamed m.name uri .port) ++
    [ofNamed m.name uri .module { name := m.name, location := m.location }]

/-- The symbols of a document; none if it is not a module. -/
def ofText (uri : Uri) (text : String) : List Symbol :=
  match parse text with
  | .ok m => ofOutline m uri
  | .error _ => []

end Symbol
end ElmNavigator
