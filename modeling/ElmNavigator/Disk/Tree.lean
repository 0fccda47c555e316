import ElmNavigator.Place.Path

/-!
# File trees

The disk is a value: a list of entries, each at a place given by the names from the root down to it.
The list is sorted by place, and places compare name by name, so a directory comes right before what
it holds and its entries follow each other in the order of their names.

Paths are looked up the way the operating system does it: `..` leads to the directory above the one
that has been reached, links are followed, and everything in front of a slash has to be a directory.
-/

namespace ElmNavigator
namespace Disk

open Text

/-- What a file holds: a text, or bytes that are not UTF-8. -/
inductive Content where
  | text (s : String)
  | binary
deriving Repr, DecidableEq

inductive Node where
  | directory
  | file (content : Content)
  | link (target : Path)
deriving Repr, DecidableEq

abbrev Place := List (List UInt8)

/-- The entries of a disk, sorted by place, and the directory that relative paths start from.  The
root is always there and has no entry. -/
structure Tree where
  entries : List (Place × Node)
  workingDir : Place
deriving Repr, DecidableEq

inductive AccessError where
  | notFound
  | notADirectory
  | isADirectory
  | permissionDenied
  | tooManyLinks
  | nameTooLong
  /-- A path with a NUL byte. -/
  | invalidPath
  | notUtf8
deriving Repr, DecidableEq

def AccessError.message : AccessError -> String
  | .notFound => "No such file or directory (os error 2)"
  | .notADirectory => "Not a directory (os error 20)"
  | .isADirectory => "Is a directory (os error 21)"
  | .permissionDenied => "Permission denied (os error 13)"
  | .tooManyLinks => "Too many levels of symbolic links (os error 40)"
  | .nameTooLong => "File name too long (os error 36)"
  | .invalidPath => "file name contained an unexpected NUL byte"
  | .notUtf8 => "stream did not contain valid UTF-8"

namespace Tree

def empty : Tree :=
  { entries := [], workingDir := [] }

def node? (t : Tree) (place : Place) : Option Node :=
  if place = [] then some .directory else t.entries.lookup place

def insertEntry (place : Place) (node : Node) : List (Place × Node) -> List (Place × Node)
  | [] => [(place, node)]
  | (other, old) :: rest =>
      if place = other then (place, node) :: rest
      else if place < other then (place, node) :: (other, old) :: rest
      else (other, old) :: insertEntry place node rest

def put (t : Tree) (place : Place) (node : Node) : Tree :=
  { t with entries := insertEntry place node t.entries }

def remove (t : Tree) (place : Place) : Tree :=
  { t with entries := t.entries.filter fun entry => !place.isPrefixOf entry.1 }

def pieces (p : Path) : List (List UInt8) :=
  (if p.isAbsolute then List.tail else id) (splitOn slash p.bytes)

/-- Pieces that name no entry of a directory. -/
def isDots (piece : List UInt8) : Bool :=
  piece = [] || piece = [dot] || piece = [dot, dot]

def startOf (here : Place) (p : Path) : Place :=
  if p.isAbsolute then [] else here

def nameLimit : Nat := 255

def pathLimit : Nat := 4095

def isTooLong (p : Path) : Bool :=
  pathLimit < p.bytes.length

def linkLimit : Nat := 40

/-- Looks up pieces from a directory on.  Behind a link, looking up is left to `follow`. -/
def walk (t : Tree) (follow : Place -> List (List UInt8) -> Except AccessError Place)
    (here : Place) : List (List UInt8) -> Except AccessError Place
  | [] => .ok here
  | piece :: rest =>
      if t.node? here ≠ some .directory then .error .notADirectory
      else if piece = [] || piece = [dot] then t.walk follow here rest
      else if piece = [dot, dot] then t.walk follow here.dropLast rest
      else if nameLimit < piece.length then .error .nameTooLong
      else
        match t.node? (here ++ [piece]) with
        | none => .error .notFound
        | some (.link target) => follow (startOf here target) (pieces target ++ rest)
        | some _ => t.walk follow (here ++ [piece]) rest

def resolveFrom (t : Tree) : Nat -> Place -> List (List UInt8) -> Except AccessError Place
  | 0 => t.walk fun _ _ => .error .tooManyLinks
  | links + 1 => t.walk (t.resolveFrom links)

def checkPath (p : Path) : Except AccessError Unit :=
  if p.bytes.contains 0 then .error .invalidPath
  else if isTooLong p then .error .nameTooLong
  else if p.bytes = [] then .error .notFound
  else .ok ()

def resolve (t : Tree) (p : Path) : Except AccessError Place := do
  checkPath p
  t.resolveFrom linkLimit (startOf t.workingDir p) (pieces p)

/-- The place of a path itself, which may be a link, instead of the place it leads to. -/
def resolveSelf (t : Tree) (p : Path) : Except AccessError Place := do
  checkPath p
  match (pieces p).getLast? with
  | none => return startOf t.workingDir p
  | some last =>
      if isDots last then t.resolve p
      else
        let above ← t.resolveFrom linkLimit (startOf t.workingDir p) (pieces p).dropLast
        if t.node? above ≠ some .directory then .error .notADirectory
        else if nameLimit < last.length then .error .nameTooLong
        else if (t.node? (above ++ [last])).isNone then .error .notFound
        else return above ++ [last]

def pathOf (place : Place) : Path :=
  { bytes := slash :: [slash].intercalate place }

def realPath (t : Tree) (p : Path) : Except AccessError Path :=
  (t.resolve p).map pathOf

def read (t : Tree) (p : Path) : Except AccessError String := do
  let place ← t.resolve p
  match t.node? place with
  | some (.file (.text s)) => return s
  | some (.file .binary) => .error .notUtf8
  | some .directory => .error .isADirectory
  | _ => .error .notFound

def makeDirectories (t : Tree) (here : Place) : List (List UInt8) -> Tree × Place
  | [] => (t, here)
  | piece :: rest =>
      if piece = [] || piece = [dot] then t.makeDirectories here rest
      else if piece = [dot, dot] then t.makeDirectories here.dropLast rest
      else
        let next := here ++ [piece]
        match t.node? next with
        | none => (t.put next .directory).makeDirectories next rest
        | some (.link _) =>
            match t.resolveFrom linkLimit here [piece] with
            | .ok place => t.makeDirectories place rest
            | .error _ => t.makeDirectories next rest
        | some _ => t.makeDirectories next rest

/-- Where a file written at a place ends up: behind the links that start there, following at most a
number of them.  What the last link names need not be there yet. -/
def targetOf (t : Tree) : Nat -> Place -> Place
  | 0, place => place
  | links + 1, place =>
      match t.node? place with
      | some (.link target) =>
          let names := pieces target
          match names.getLast?, t.resolveFrom links (startOf place.dropLast target) names.dropLast with
          | some last, .ok above => if isDots last then place else t.targetOf links (above ++ [last])
          | _, _ => place
      | _ => place

/-- Puts a file at a place, behind links; other entries are put at the place itself. -/
def putBehindLinks (t : Tree) (place : Place) (node : Node) : Tree :=
  match node with
  | .file _ => t.put (t.targetOf linkLimit place) node
  | _ => t.put place node

def write (t : Tree) (p : Path) (node : Node) : Tree :=
  let (t, above) := t.makeDirectories (startOf t.workingDir p) (pieces p).dropLast
  match (pieces p).getLast? with
  | none => t
  | some last => if isDots last then t else t.putBehindLinks (above ++ [last]) node

/-- Deletes a file, a link or a directory with all it holds; a path that is not there is fine. -/
def delete (t : Tree) (p : Path) : Tree :=
  match t.resolveSelf p with
  | .ok place => t.remove place
  | .error _ => t

end Tree
end Disk
end ElmNavigator
