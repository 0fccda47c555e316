/-!
# Finite tables

A table is a list of keys and values with one entry for each key.
-/

namespace ElmNavigator

abbrev Table (κ α : Type) := List (κ × α)

namespace Table

variable {κ α : Type} [DecidableEq κ]

def get? (t : Table κ α) (k : κ) : Option α :=
  List.lookup k t

def has (t : Table κ α) (k : κ) : Bool :=
  (t.get? k).isSome

def erase (t : Table κ α) (k : κ) : Table κ α :=
  t.filter fun entry => entry.1 ≠ k

def insert (t : Table κ α) (k : κ) (a : α) : Table κ α :=
  (k, a) :: t.erase k

def values (t : Table κ α) : List α :=
  t.map (·.2)

end Table
end ElmNavigator
