import ElmNavigator.Workspace.Definition

/-!
# Sessions

A session is one editor's view of one workspace: the open documents, the modules looked up and the
symbol index.  Its operations keep them consistent while documents are opened, edited and saved and
files change on disk.
-/

namespace ElmNavigator

open Text

structure Session where
  overlay : Overlay
  lookup : ModuleLookup
  index : SymbolIndex
  settings : Settings
deriving Repr, DecidableEq

inductive FileChange where
  | created
  | changed
  | deleted
deriving Repr, DecidableEq

structure FileEvent where
  uri : Uri
  change : FileChange
deriving Repr, DecidableEq

namespace Session

def new (root : Path) (settings : Settings) : Session :=
  { overlay := .empty, lookup := .new root settings, index := .new root settings, settings }

def root (s : Session) : Path :=
  s.lookup.root

def invalidate (s : Session) (p : Path) : Session :=
  { s with lookup := s.lookup.invalidate p }

/-- Opens a document.  A document that is not a file is ignored. -/
def openDocument (s : Session) (uri : Uri) (text : String) : Session :=
  match FileUri.toPath? uri with
  | none => s
  | some p => { s.invalidate p with overlay := s.overlay.open_ p text }

/-- Edits a document.  The first edit that fails drops the ones behind it. -/
def changeDocument (s : Session) (uri : Uri) (changes : List Change) : Session :=
  match FileUri.toPath? uri with
  | none => s
  | some p => { s.invalidate p with overlay := s.overlay.changeAll p changes }

def closeDocument (s : Session) (uri : Uri) : Session :=
  match FileUri.toPath? uri with
  | none => s
  | some p => { s.invalidate p with overlay := s.overlay.close p }

def reconfigure (s : Session) (settings : Settings) : Session :=
  { s with
    index := s.index.reconfigure settings
    lookup := s.lookup.reconfigure settings
    settings }

variable {m : Type -> Type} [Monad m]

def files (s : Session) (disk : Files m) : Files m :=
  s.overlay.view disk

/-- Indexes a saved document, from the text that was saved or else from its file. -/
def saveDocument (disk : Files m) (uri : Uri) (text : Option String) (s : Session) : m Session :=
  match FileUri.toPath? uri with
  | none => return s
  | some p =>
      let s := s.invalidate p
      match text with
      | some text => return { s with index := s.index.update p text }
      | none => do
          let (_, index) ← s.index.indexPath (s.files disk) p
          return { s with index }

def documentText (disk : Files m) (uri : Uri) (s : Session) : m (Option String) :=
  match FileUri.toPath? uri with
  | none => return none
  | some p => do
      match ← (s.files disk).read p with
      | .ok text => return some text
      | .error _ => return none

def documentSymbols (disk : Files m) (uri : Uri) (s : Session) : m (List Symbol) := do
  match ← s.documentText disk uri with
  | some text => return Symbol.ofText uri text
  | none => return []

def workspaceSymbols (disk : Files m) (query : String) (s : Session) :
    m (List Symbol × Session) := do
  let (symbols, index) ← s.index.query (s.files disk) query
  return (symbols, { s with index })

def definition (disk : Files m) (uri : Uri) (line column : Nat) (s : Session) :
    m (Option Symbol × Session) :=
  match FileUri.toPath? uri with
  | none => return (none, s)
  | some p => do
      match ← s.documentText disk uri with
      | none => return (none, s)
      | some text =>
          let (found, lookup, index) ←
            Definition.atPosition (s.files disk) p text line column s.lookup s.index
          return (found, { s with lookup, index })

/-- Takes note of one changed file.  The editor's copy of an open document wins until it is
saved. -/
def fileChanged (disk : Files m) (event : FileEvent) (s : Session) : m Session :=
  match FileUri.toPath? event.uri with
  | none => return s
  | some p =>
      let s := s.invalidate p
      if event.change = .deleted then return { s with index := s.index.remove p }
      else if (s.index.containsPath p || s.index.scanned) && !s.overlay.isOpen p then do
        let (_, index) ← s.index.indexPath (s.files disk) p
        return { s with index }
      else return s

def eachFileChanged (disk : Files m) : List FileEvent -> Session -> m Session
  | [], s => return s
  | event :: events, s => do
      let s ← s.fileChanged disk event
      eachFileChanged disk events s

def filesChanged (disk : Files m) (events : List FileEvent) (s : Session) : m Session :=
  eachFileChanged disk events { s with index := s.index.clearMissing }

end Session
end ElmNavigator
