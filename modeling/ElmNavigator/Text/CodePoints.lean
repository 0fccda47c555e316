/-!
# Sets of code points

A character property is a finite table of runs.  A run holds every code point from a first one to a
last one in steps of a fixed stride, so that scripts whose capital and small letters alternate need
one entry instead of dozens.  Tables list code points above the ASCII range only; the classes built
on them treat ASCII by its own rules.
-/

namespace ElmNavigator
namespace Text

/-- Code points `first`, `first + stride`, … up to `last`. -/
structure Run where
  first : Nat
  last : Nat
  stride : Nat
deriving Repr, DecidableEq

def Run.contains (r : Run) (code : Nat) : Bool :=
  r.first ≤ code && code ≤ r.last && (code - r.first) % r.stride == 0

abbrev CodePoints := List Run

def CodePoints.contains (set : CodePoints) (code : Nat) : Bool :=
  set.any (·.contains code)

end Text
end ElmNavigator
