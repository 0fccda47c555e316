import ElmNavigator.Syntax.Parse
import ElmNavigator.Workspace.SourceDirs
import ElmNavigator.Workspace.Table

/-!
# Looking up modules

A module is looked up by the path of its file, or by its name in the source directories.  Outlines
are kept by normalized path until they are invalidated.  Whatever fails, a file that cannot be read
or a text that is not a module, the module counts as not there.
-/

namespace ElmNavigator

open Text Syntax

structure ModuleLookup where
  root : Path
  settings : Settings
  /-- The source directories, once they have been needed. -/
  sourceDirs : Option (List Path)
  /-- Outlines by normalized path. -/
  cache : Table Path (Outline Location)
deriving Repr, DecidableEq

namespace ModuleLookup

def new (root : Path) (settings : Settings) : ModuleLookup :=
  { root, settings, sourceDirs := none, cache := [] }

def invalidate (l : ModuleLookup) (p : Path) : ModuleLookup :=
  { l with cache := l.cache.erase p.normalize }

/-- Applies new settings.  The source directories are found anew when they are next needed. -/
def reconfigure (l : ModuleLookup) (settings : Settings) : ModuleLookup :=
  { l with settings, sourceDirs := none }

def remember (l : ModuleLookup) (p : Path) (outline : Outline Location) : ModuleLookup :=
  { l with cache := l.cache.insert p outline }

variable {m : Type -> Type} [Monad m]

def atPath (files : Files m) (p : Path) (l : ModuleLookup) :
    m (Option (Outline Location) × ModuleLookup) :=
  let key := p.normalize
  match l.cache.get? key with
  | some outline => return (some outline, l)
  | none => do
      match ← files.read key with
      | .error _ => return (none, l)
      | .ok text =>
          match parse text with
          | .error _ => return (none, l)
          | .ok outline => return (some outline, l.remember key outline)

def firstOf (files : Files m) : List Path -> ModuleLookup ->
    m (Option (Outline Location) × ModuleLookup)
  | [], l => return (none, l)
  | p :: ps, l => do
      let (found, l) ← l.atPath files p
      match found with
      | some outline => return (some outline, l)
      | none => firstOf files ps l

def dirs (files : Files m) (l : ModuleLookup) : m (List Path × ModuleLookup) :=
  match l.sourceDirs with
  | some dirs => return (dirs, l)
  | none => do
      let dirs ← SourceDirs.discover files l.root l.settings
      return (dirs, { l with sourceDirs := some dirs })

def candidates (files : Files m) (name : String) (l : ModuleLookup) :
    m (List Path × ModuleLookup) := do
  let (dirs, l) ← l.dirs files
  return (dirs.map fun dir => dir.join (Path.ofModuleName name), l)

def byName (files : Files m) (name : String) (l : ModuleLookup) :
    m (Option (Outline Location) × ModuleLookup) := do
  let (paths, l) ← l.candidates files name
  firstOf files paths l

/-- Forgets every outline that could answer a lookup of a name. -/
def invalidateName (files : Files m) (name : String) (l : ModuleLookup) : m ModuleLookup := do
  let (paths, l) ← l.candidates files name
  let l := paths.foldl invalidate l
  return { l with cache := l.cache.filter fun entry => entry.2.name ≠ name }

end ModuleLookup
end ElmNavigator
