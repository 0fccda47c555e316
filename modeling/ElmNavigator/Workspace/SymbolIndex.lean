import ElmNavigator.Workspace.Settings
import ElmNavigator.Workspace.Symbol
import ElmNavigator.Workspace.SymbolQuery
import ElmNavigator.Workspace.Table

/-!
# The symbol index

The index keeps the symbols of each file in a record, and finds a record by the file's path or by
the module's name.  Indexing a file first takes its old record out, so a module that has been renamed
does not linger under its old name.

Files get into the index on demand.  A qualified query looks for the one file of its module, a bare
query scans the workspace once.
-/

namespace ElmNavigator

open Disk Syntax

structure ModuleSymbols where
  path : Path
  module : String
  symbols : List Symbol
deriving Repr, DecidableEq

structure SymbolIndex where
  root : Path
  maxFiles : Nat
  exclude : Option String
  byModule : Table String ModuleSymbols
  /-- Records by normalized path. -/
  byPath : Table Path ModuleSymbols
  /-- Modules without a single file, as long as the workspace does not change. -/
  missing : List String
  scanned : Bool
deriving Repr, DecidableEq

namespace SymbolIndex

def new (root : Path) (settings : Settings) : SymbolIndex :=
  { root, maxFiles := settings.maxFiles, exclude := settings.exclude?, byModule := [],
    byPath := [], missing := [], scanned := false }

/-- Applies new settings.  If they change what a scan finds, everything indexed is dropped. -/
def reconfigure (ix : SymbolIndex) (settings : Settings) : SymbolIndex :=
  if settings.maxFiles = ix.maxFiles ∧ settings.exclude? = ix.exclude then ix
  else new ix.root settings

def clearMissing (ix : SymbolIndex) : SymbolIndex :=
  { ix with missing := [] }

def record? (ix : SymbolIndex) (p : Path) : Option ModuleSymbols :=
  ix.byPath.get? p.normalize

def containsPath (ix : SymbolIndex) (p : Path) : Bool :=
  (ix.record? p).isSome

def module? (ix : SymbolIndex) (name : String) : Option ModuleSymbols :=
  ix.byModule.get? name

/-- Takes the name of a record out, unless another file has claimed the name since. -/
def releaseName (names : Table String ModuleSymbols) (old : ModuleSymbols) :
    Table String ModuleSymbols :=
  match names.get? old.module with
  | some current => if current.path = old.path then names.erase old.module else names
  | none => names

def remove (ix : SymbolIndex) (p : Path) : SymbolIndex :=
  let ix := ix.clearMissing
  match ix.record? p with
  | none => ix
  | some old =>
      { ix with byPath := ix.byPath.erase p.normalize, byModule := releaseName ix.byModule old }

def recordOf? (p : Path) (text : String) : Option ModuleSymbols :=
  match parse text with
  | .ok outline =>
      let symbols := Symbol.ofOutline outline (FileUri.ofPath p)
      some { path := p, module := outline.name, symbols }
  | .error _ => none

def add (ix : SymbolIndex) (r : ModuleSymbols) : SymbolIndex :=
  { ix with byModule := ix.byModule.insert r.module r, byPath := ix.byPath.insert r.path r }

/-- Indexes a file anew from a text.  A text that is no module leaves the file without symbols. -/
def update (ix : SymbolIndex) (p : Path) (text : String) : SymbolIndex :=
  let ix := ix.remove p.normalize
  match recordOf? p.normalize text with
  | none => ix
  | some r => ix.add r

def named (ix : SymbolIndex) (module name : String) : List Symbol :=
  match ix.module? module with
  | some r => r.symbols.filter (·.name = name)
  | none => []

/-- The symbols of records whose name a text starts with. -/
def matching (records : List ModuleSymbols) (text : String) : List Symbol :=
  (records.flatMap (·.symbols)).filter fun s => s.name.toList.isPrefixOf text.toList

def startingWith (ix : SymbolIndex) (text : String) : List Symbol :=
  matching ix.byPath.values text

def filePattern (name : String) : String :=
  let relative := (Path.ofModuleName name).chars.map fun c => if c = '\\' then '/' else c
  String.ofList ("**/".toList ++ relative)

def allFiles : String := "**/*.elm"

variable {m : Type -> Type} [Monad m]

/-- Reads and indexes a file.  Tells whether it could be read. -/
def indexPath (files : Files m) (p : Path) (ix : SymbolIndex) : m (Bool × SymbolIndex) := do
  match ← files.read p with
  | .ok text => return (true, ix.update p text)
  | .error _ => return (false, ix)

def addMissing (ix : SymbolIndex) (name : String) : SymbolIndex :=
  if ix.missing.contains name then ix else { ix with missing := name :: ix.missing }

/-- Looks for the one file of a module and indexes it.  No file and several files both count as not
found. -/
def indexModule (files : Files m) (name : String) (ix : SymbolIndex) : m (Bool × SymbolIndex) := do
  match ← files.find ix.root (filePattern name) ix.exclude 2 with
  | .error _ => return (false, ix)
  | .ok [p] =>
      let (indexed, ix) ← ix.indexPath files p
      return (indexed, if indexed then ix else ix.addMissing name)
  | .ok _ => return (false, ix.addMissing name)

/-- Indexes files one after the other.  A file that is not UTF-8 is forgotten; any other failure
ends the scan. -/
def scanFiles (files : Files m) : List Path -> SymbolIndex -> m SymbolIndex
  | [], ix => return ix
  | p :: ps, ix => do
      match ← files.read p with
      | .ok text => scanFiles files ps (ix.update p text)
      | .error .notUtf8 => scanFiles files ps (ix.remove p)
      | .error _ => return ix

/-- Indexes every module file of the workspace, as far as it gets.  The scan counts as done in any
case. -/
def fullScan (files : Files m) (ix : SymbolIndex) : m SymbolIndex := do
  let ix := { ix with scanned := true }
  match ← files.find ix.root allFiles ix.exclude ix.maxFiles with
  | .error _ => return ix
  | .ok paths => scanFiles files paths ix

/-- Looks for the file of a module that is not indexed and has not been looked for. -/
def ensureModule (files : Files m) (name : String) (ix : SymbolIndex) : m SymbolIndex :=
  if ix.byModule.has name || ix.missing.contains name then return ix
  else do
    let (_, ix) ← ix.indexModule files name
    return ix

def ensureScanned (files : Files m) (ix : SymbolIndex) : m SymbolIndex :=
  if ix.scanned then return ix else ix.fullScan files

def query (files : Files m) (text : String) (ix : SymbolIndex) : m (List Symbol × SymbolIndex) :=
  match SymbolQuery.parse text with
  | .qualified module name => do
      let ix ← ix.ensureModule files module
      return (ix.named module name, ix)
  | .bare text => do
      let ix ← ix.ensureScanned files
      return (ix.startingWith text, ix)

end SymbolIndex
end ElmNavigator
