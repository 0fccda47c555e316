import ElmNavigator.Text.Basic

/-!
# Symbol queries

A query is `Module:name`, for an exact name in one module, or anything else, for a search in the
whole workspace.
-/

namespace ElmNavigator

open Text

inductive SymbolQuery where
  | qualified (module name : String)
  | bare (text : String)
deriving Repr, DecidableEq

namespace SymbolQuery

def isNamePart (part : List Char) : Bool :=
  part.head?.any isUpper && part.all fun c => isAlphanumeric c || c == '_'

def isModuleName (text : List Char) : Bool :=
  (splitOn '.' text).all isNamePart

/-- Reads a query.  Only a module name before the first colon makes it a qualified one. -/
def parse (text : String) : SymbolQuery :=
  match splitAtFirst? ':' text.toList with
  | some (module, name) =>
      if isModuleName module then .qualified (String.ofList module) (String.ofList name)
      else .bare text
  | none => .bare text

def textOf (module name : String) : String :=
  module ++ ":" ++ name

end SymbolQuery
end ElmNavigator
