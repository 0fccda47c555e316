import ElmNavigator.Text.Utf8

/-!
# File paths

A path is made of components between slashes.  Repeated slashes, a trailing slash and `.` inside a
path say nothing; two paths with the same components name the same place, although they may be
spelled differently.  The spelling is kept as given because it is shown to users.

The names of files are bytes, and so are paths.  Most are the UTF-8 of some text, but none has to be:
showing a path replaces what is not UTF-8, and two paths may look the same.
-/

namespace ElmNavigator

open Text

structure Path where
  bytes : List UInt8
deriving Repr, DecidableEq

inductive Component where
  | root
  /-- A `.` at the start of a relative path. -/
  | here
  | parent
  | name (text : List UInt8)
deriving Repr, DecidableEq

namespace Path

def ofChars (cs : List Char) : Path :=
  { bytes := utf8 cs }

def ofString (s : String) : Path :=
  ofChars s.toList

/-- The path as it is shown. -/
def chars (p : Path) : List Char :=
  decodeLossy p.bytes

def toString (p : Path) : String :=
  String.ofList p.chars

def isAbsolute (p : Path) : Bool :=
  p.bytes.head? == some slash

def pieceComponent? (piece : List UInt8) : Option Component :=
  if piece = [] || piece = [dot] then none
  else if piece = [dot, dot] then some .parent
  else some (.name piece)

def firstComponent? (piece : List UInt8) : Option Component :=
  if piece = [dot] then some .here else pieceComponent? piece

def components (p : Path) : List Component :=
  match splitOn slash p.bytes with
  | [] => []
  | first :: others =>
      let start := if p.isAbsolute then some .root else firstComponent? first
      start.toList ++ others.filterMap pieceComponent?

def componentText : Component -> List UInt8
  | .root => [slash]
  | .here => [dot]
  | .parent => [dot, dot]
  | .name text => text

/-- Puts a path behind another one.  An absolute path replaces what it is put behind. -/
def join (base other : Path) : Path :=
  if other.isAbsolute then other
  else if base.bytes = [] || base.bytes.getLast? = some slash then
    { bytes := base.bytes ++ other.bytes }
  else { bytes := base.bytes ++ slash :: other.bytes }

def ofComponents (cs : List Component) : Path :=
  cs.foldl (fun p c => p.join { bytes := componentText c }) { bytes := [] }

/-- Whether a path built from these components, last one first, has a parent: the root and the empty
path have none. -/
def hasParent : List Component -> Bool
  | [] => false
  | [.root] => false
  | _ => true

/-- One step of resolving dots, on the resolved components in reverse. -/
def resolveStep (resolved : List Component) : Component -> List Component
  | .here => resolved
  | .parent => if hasParent resolved then resolved.tail else .parent :: resolved
  | c => c :: resolved

def resolvedComponents (p : Path) : List Component :=
  (p.components.foldl resolveStep []).reverse

/-- Resolves `.` and `..` without looking at the disk. -/
def normalize (p : Path) : Path :=
  ofComponents p.resolvedComponents

/-- Two slashes at the start of a path, and no third one. -/
def startsWithTwoSlashes (p : Path) : Bool :=
  p.bytes.take 2 = [slash, slash] && p.bytes.take 3 ≠ [slash, slash, slash]

/-- Makes a path absolute against a directory.  `.` goes away and `..` stays, and so do two slashes
at the start and a slash at the end, which may carry a meaning of their own. -/
def absolute (base p : Path) : Path :=
  let (start, cs) :=
    if p.startsWithTwoSlashes then ({ bytes := [slash, slash] }, p.components.tail)
    else if p.isAbsolute then ({ bytes := [] }, p.components)
    else (base, p.components.filter (· ≠ .here))
  let joined := cs.foldl (fun p c => p.join { bytes := componentText c }) start
  if p.bytes.getLast? = some slash then joined.join { bytes := [] } else joined

/-- Path of a module relative to a source directory: `A.B` is at `A/B.elm`. -/
def ofModuleName (name : String) : Path :=
  let parts := splitOn '.' name.toList
  let joined := parts.foldl (fun p part => p.join (ofChars part)) { bytes := [] }
  match trimEnd (· == slash) joined.bytes with
  | [] => joined
  | b :: bs => { bytes := b :: bs ++ utf8 ".elm".toList }

end Path
end ElmNavigator
