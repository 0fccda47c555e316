import ElmNavigator.Disk.Tree
import ElmNavigator.Glob.Matching

/-!
# Listing files

The files below a directory are listed depth first, each directory's entries in the order of their
names.  Links are neither files nor directories.  A directory is left out with all it holds if the
excluding glob matches an arbitrary name in it.
-/

namespace ElmNavigator
namespace Disk

open Text

inductive FindError where
  | pattern (text : String) (error : Glob.PatternError)
  | walk (path : Path) (error : AccessError)
  | access (error : AccessError)
deriving Repr, DecidableEq

def FindError.message : FindError -> String
  | .pattern text error =>
      "invalid glob pattern: error parsing glob '" ++ text ++ "': " ++ error.message
  | .walk path error =>
      "directory walk failed: IO error for operation on " ++ path.toString ++ ": " ++ error.message
  | .access error => "I/O error: " ++ error.message

def relativeText (names : Place) : List UInt8 :=
  [slash].intercalate names

def excludesFile (exclude : Option Glob) (names : Place) : Bool :=
  exclude.any (·.isMatch (relativeText names))

/-- Stands for every name in a directory. -/
def anyName : List UInt8 :=
  utf8 ['_']

def excludesDirectory (exclude : Option Glob) (names : Place) : Bool :=
  exclude.any (·.isMatch (relativeText (names ++ [anyName])))

def isPruned (exclude : Option Glob) (names : Place) : Bool :=
  (List.range names.length).any fun n => n > 0 && excludesDirectory exclude (names.take n)

def isListed (wanted : Glob) (exclude : Option Glob) (names : Place) : Bool :=
  !isPruned exclude names && !excludesFile exclude names && wanted.isMatch (relativeText names)

def pathBelow (root : Path) (names : Place) : Path :=
  names.foldl (fun p name => p.join { bytes := name }) root

def readPattern (text : String) : Except FindError Glob :=
  match Glob.parse text with
  | .ok glob => .ok glob
  | .error e => .error (.pattern text e)

def readExclude : Option String -> Except FindError (Option Glob)
  | none => .ok none
  | some text => (readPattern text).map some

inductive Item where
  | file (names : Place)
  /-- A directory that cannot be opened. -/
  | closed (names : Place) (error : AccessError)
deriving Repr, DecidableEq

/-- The first `limit` files among items that belong to the listing.  A directory that cannot be
opened is an error, unless it is left out or there are enough files before it. -/
def collect (root : Path) (wanted : Glob) (exclude : Option Glob) :
    Nat -> List Item -> Except FindError (List Path)
  | 0, _ => .ok []
  | _, [] => .ok []
  | limit + 1, .closed names error :: items =>
      if isPruned exclude (names ++ [anyName]) then collect root wanted exclude (limit + 1) items
      else .error (.walk (pathBelow root names) error)
  | limit + 1, .file names :: items =>
      if isListed wanted exclude names then
        (collect root wanted exclude limit items).map (pathBelow root names :: ·)
      else collect root wanted exclude (limit + 1) items

/-- The first `limit` files under `root` whose relative path matches `pattern` and not `exclude`,
given a way to go through everything under a path in order.  Both patterns are read before the disk
is looked at, and the disk is not looked at if no file is asked for. -/
def findWith {m : Type -> Type} [Monad m] (itemsUnder : Path -> m (Except AccessError (List Item)))
    (root : Path) (pattern : String) (exclude : Option String) (limit : Nat) :
    m (Except FindError (List Path)) :=
  match readPattern pattern, readExclude exclude with
  | .error e, _ => return .error e
  | _, .error e => return .error e
  | .ok wanted, .ok exclude =>
      if limit = 0 then return .ok []
      else do
        match ← itemsUnder root with
        | .error e => return .error (.walk root e)
        | .ok items => return collect root wanted exclude limit items

namespace Tree

/-- What an entry is on the way through a path, by its names below the path.  A directory whose path
is too long cannot be opened, so nothing in it is met. -/
def item? (root : Path) (names : Place) : Node -> Option Item
  | .file _ => if isTooLong (pathBelow root names.dropLast) then none else some (.file names)
  | .directory =>
      if isTooLong (pathBelow root names.dropLast) then none
      else if isTooLong (pathBelow root names) then some (.closed names .nameTooLong)
      else none
  | .link _ => none

def itemsBelow (t : Tree) (root : Path) (place : Place) : List Item :=
  t.entries.filterMap fun entry =>
    match place.isPrefixOf? entry.1 with
    | some (name :: names) => item? root (name :: names) entry.2
    | _ => none

/-- What is met under a path, which may itself be a file.  A link is followed only to a directory. -/
def itemsUnder (t : Tree) (root : Path) : Except AccessError (List Item) := do
  let self ← t.resolveSelf root
  match t.node? self with
  | some (.file _) => return [.file []]
  | some (.link _) =>
      let place ← t.resolve root
      return if t.node? place = some .directory then t.itemsBelow root place else []
  | _ => return t.itemsBelow root self

def find (t : Tree) (root : Path) (pattern : String) (exclude : Option String) (limit : Nat) :
    Except FindError (List Path) :=
  findWith (m := Id) t.itemsUnder root pattern exclude limit

end Tree
end Disk
end ElmNavigator
