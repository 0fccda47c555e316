import ElmNavigator.Disk.Listing

/-!
# Access to files

Everything above the disk reads and lists files through these two operations.  They run in a monad
of the caller's choice: a file tree answers them purely, a real disk by input and output, and a test
may count them.
-/

namespace ElmNavigator

open Disk

structure Files (m : Type -> Type) where
  read : Path -> m (Except AccessError String)
  /-- The first files under a root that match a pattern and not an excluding one. -/
  find : Path -> String -> Option String -> Nat -> m (Except FindError (List Path))

def Disk.Tree.files (t : Tree) : Files Id where
  read := t.read
  find := t.find

end ElmNavigator
