import ElmNavigator.CommandLine
import ElmNavigator.Proofs.Place.AcceptedUris
import ElmNavigator.Proofs.Place.LexicalPaths
import ElmNavigator.Proofs.Workspace.Exclusion

/-!
# Printed answers do not depend on the order of the records

A bare query collects the symbols of all records, and nothing is said about the order
of the records in a table.  The symbols are sorted before they are printed, by
document and line.  Many symbols may share a line, but then they are of one record:
different records are of different files, and different files have different URIs
if their paths are UTF-8.  The sort keeps symbols that tie in the order of their
record, so the order of the records cannot be seen in what is printed.  Files with
other paths may share a URI, and then it can.
-/

namespace ElmNavigator

open Disk

/-!
## Stable sorting
-/

section Sorting

variable {α : Type} {le : α -> α -> Bool}

variable (htotal : forall a b, (le a b || le b a) = true)
include htotal

variable (htrans : forall a b c, le a b = true -> le b c = true -> le a c = true)
include htrans

end Sorting

namespace CommandLine

end CommandLine

namespace SymbolIndex

open CommandLine

/-- Two records have no symbols in one document. -/
def Apart (r other : ModuleSymbols) : Prop :=
  forall s t, s ∈ r.symbols -> t ∈ other.symbols -> s.uri ≠ t.uri

end SymbolIndex

namespace CommandLine

open SymbolIndex

end CommandLine
end ElmNavigator
