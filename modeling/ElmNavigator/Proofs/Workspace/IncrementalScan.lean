import ElmNavigator.Proofs.Place.UriRoundTrip
import ElmNavigator.Proofs.Workspace.CacheCoherence
import ElmNavigator.Proofs.Workspace.TrackedIndex

/-!
# Following a workspace without scanning it again

A session that has scanned its workspace is told of each module file that is
written or deleted.  Its index then has the records that a scan would find, so a
search gives the same symbols as in a new session.  Requests in between may index
single modules, but only ones that a scan would find as well.

The session is told of a file by its URI.  If the path of the file is not UTF-8,
the URI names another file, and the index is left with what it had.
-/

namespace ElmNavigator

open Disk

/-!
## Steps
-/

inductive WatchStep where
  | write (p : Path) (text : String) (change : FileChange)
  | delete (p : Path)
  | query (text : String)
  | definition (uri : Uri) (line column : Nat)
deriving Repr, DecidableEq

namespace WatchStep

def disk (t : Tree) : WatchStep -> Tree
  | .write p text _ => t.write p (.file (.text text))
  | .delete p => t.delete p
  | _ => t

def session (t : Tree) (s : Session) : WatchStep -> Session
  | .write p _ change => s.filesChanged t.files [{ uri := FileUri.ofPath p, change }]
  | .delete p => s.filesChanged t.files [{ uri := FileUri.ofPath p, change := .deleted }]
  | .query text => (s.workspaceSymbols t.files text).2
  | .definition uri line column => (s.definition t.files uri line column).2

/-- Only files that a scan finds are written, where the disk takes a file, or deleted. -/
def Permitted (root : Path) (base : Place) (exclude : Option String) (t : Tree) :
    WatchStep -> Prop
  | .write p text change =>
      change ≠ .deleted ∧ (exists names, p = pathBelow root names ∧ t.Accepts root base names) ∧
        p ∈ (t.write p (.file (.text text))).listing root exclude
  | .delete p => p ∈ t.listing root exclude
  | _ => True

/-- The path of a file that is written or deleted is UTF-8. -/
def IsText : WatchStep -> Prop
  | .write p _ _ => p.IsText
  | .delete p => p.IsText
  | _ => True

instance : (step : WatchStep) -> Decidable step.IsText
  | .write p _ _ => inferInstanceAs (Decidable p.IsText)
  | .delete p => inferInstanceAs (Decidable p.IsText)
  | .query _ => .isTrue trivial
  | .definition _ _ _ => .isTrue trivial

end WatchStep

/-- A disk and a session that follows it. -/
structure Watch where
  tree : Tree
  session : Session

namespace Watch

def start (t : Tree) (root : Path) (settings : Settings) : Watch :=
  { tree := t, session := .new root settings }

def step (w : Watch) (next : WatchStep) : Watch :=
  { tree := next.disk w.tree, session := next.session (next.disk w.tree) w.session }

def run (w : Watch) (steps : List WatchStep) : Watch :=
  steps.foldl step w

def search (w : Watch) (text : String) : List Symbol :=
  (w.session.workspaceSymbols w.tree.files text).1

end Watch

/-- Steps that are permitted one after the other, on disks that are small enough to scan. -/
def PermittedSteps (root : Path) (base : Place) (settings : Settings) :
    Tree -> List WatchStep -> Prop
  | t, [] => (t.listing root settings.exclude?).length ≤ settings.maxFiles
  | t, step :: steps =>
      (t.listing root settings.exclude?).length ≤ settings.maxFiles ∧
        step.Permitted root base settings.exclude? t ∧
        PermittedSteps root base settings (step.disk t) steps

/-!
## Definitions

Going to a definition changes the index by queries alone.
-/

namespace Definition

variable {P : SymbolIndex -> Prop} {files : Files Id}
  (hquery : forall ix text, P ix -> P (ix.query files text).2)

include hquery

theorem inModules_keeps (name : String) (modules : List String) {ix : SymbolIndex}
    (h : P ix) : P (inModules files name modules ix).2 := by
  induction modules generalizing ix with
  | nil =>
      exact h
  | cons module modules ih =>
      exact ih (hquery ix (SymbolQuery.textOf module name) h)

omit hquery in
theorem inFirstOf_cons (name module : String) (modules : List String)
    (ix : SymbolIndex) :
    inFirstOf files name (module :: modules) ix =
      let found := ix.query files (SymbolQuery.textOf module name)
      match bestMatch found.1 with
      | some best => (some best, found.2)
      | none => inFirstOf files name modules found.2 :=
  rfl

theorem inFirstOf_keeps (name : String) (modules : List String) {ix : SymbolIndex}
    (h : P ix) : P (inFirstOf files name modules ix).2 := by
  induction modules generalizing ix with
  | nil =>
      exact h
  | cons module modules ih =>
      have hnext := hquery ix (SymbolQuery.textOf module name) h
      simp only [inFirstOf_cons]
      split
      · exact hnext
      · exact ih hnext

theorem atPosition_keeps (p : Path) (text : String) (line column : Nat)
    (l : ModuleLookup) {ix : SymbolIndex} (h : P ix) :
    P (atPosition files p text line column l ix).2.2 := by
  rw [atPosition_eq]
  cases wordAt? text line column with
  | none =>
      exact h
  | some word =>
      simp only
      cases (l.atPath files p).1 with
      | none =>
          exact h
      | some current =>
          simp only [ofReference_eq]
          split
          · exact inModules_keeps hquery _ _ h
          · split
            · exact inModules_keeps hquery _ _ h
            · exact inFirstOf_keeps hquery _ _ (inModules_keeps hquery _ _ h)

end Definition

/-!
## One step
-/

namespace Session

theorem files_of_empty {s : Session} (h : s.overlay = .empty) (disk : Files Id) :
    s.files disk = disk := by
  unfold files
  rw [h]
  rfl

theorem filesChanged_deleted (disk : Files Id) {p : Path} (hp : p.isAbsolute = true)
    (htext : p.IsText) (s : Session) :
    (s.filesChanged disk [{ uri := FileUri.ofPath p, change := .deleted }]).index =
      s.index.clearMissing.remove p := by
  show (fileChanged disk { uri := FileUri.ofPath p, change := .deleted }
    { s with index := s.index.clearMissing }).index = _
  unfold fileChanged
  simp only [FileUri.toPath?_ofPath_of_isText hp htext]
  rfl

theorem filesChanged_written {disk : Files Id} {s : Session} (hopen : s.overlay = .empty)
    (hscanned : s.index.scanned = true) {p : Path} (hp : p.isAbsolute = true)
    (hname : p.IsText) {text : String} (hread : disk.read p = .ok text) {change : FileChange}
    (hchange : change ≠ .deleted) :
    (s.filesChanged disk [{ uri := FileUri.ofPath p, change }]).index =
      s.index.clearMissing.update p text := by
  let cleared : Session := { s with index := s.index.clearMissing }
  have hfiles : (cleared.invalidate p).files disk = disk := files_of_empty hopen disk
  have hclosed : (cleared.invalidate p).overlay.isOpen p = false := by
    show s.overlay.isOpen p = false
    rw [hopen]
    rfl
  have hindex : (cleared.invalidate p).index.scanned = true := hscanned
  show (fileChanged disk { uri := FileUri.ofPath p, change } cleared).index = _
  unfold fileChanged
  simp only [FileUri.toPath?_ofPath_of_isText hp hname, hchange, if_false, hindex, hclosed, hfiles,
    Bool.or_true, Bool.not_false, Bool.and_true, if_true]
  show (SymbolIndex.indexPath disk p s.index.clearMissing).2 = _
  rw [SymbolIndex.indexPath_eq, hread]

theorem filesChanged_overlay (disk : Files Id) (events : List FileEvent) (s : Session) :
    (s.filesChanged disk events).overlay = s.overlay :=
  (eachFileChanged_keeps disk events _).left

end Session

namespace Watch

/-- The session shows the disk, and its index has the records that a scan would find. -/
structure Current (w : Watch) (root : Path) (base : Place) (exclude : Option String) :
    Prop where
  workspace : w.tree.Workspace root base
  closed : w.session.overlay = .empty
  tracks : w.session.index.Tracks w.tree root exclude

section Steps

variable {w : Watch} {root : Path} {base : Place} {exclude : Option String}

theorem Current.write (h : w.Current root base exclude) {p : Path} {text : String}
    {change : FileChange}
    (hp : (WatchStep.write p text change).Permitted root base exclude w.tree)
    (hname : p.IsText) : (w.step (.write p text change)).Current root base exclude := by
  rcases hp with ⟨hchange, ⟨names, hnames, haccepts⟩, hlisted⟩
  subst hnames
  have hnext := h.workspace.write haccepts (.text text)
  have hnode := (h.workspace.file_write_iff haccepts (.text text) names (.text text)).mpr
    (by rw [if_pos rfl])
  constructor
  case workspace => exact hnext
  case closed =>
    exact (Session.filesChanged_overlay _ _ _).trans h.closed
  case tracks =>
    have hread : (w.tree.write (pathBelow root names) (.file (.text text))).files.read
        (pathBelow root names) = .ok text := hnext.read_pathBelow hnode
    have hindex := Session.filesChanged_written h.closed h.tracks.scanned
      (hnext.isAbsolute_of_mem_listing hlisted) hname hread hchange
    have htracks := h.tracks.clearMissing.update
      (hnext.normalize_of_mem_listing hlisted)
      (SymbolIndex.recordAt_write h.workspace haccepts hlisted)
      (fun q hq => SymbolIndex.recordAt_write_other h.workspace haccepts _ hq)
    rw [← hindex] at htracks
    exact htracks

theorem Current.delete (h : w.Current root base exclude) {p : Path}
    (hp : p ∈ w.tree.listing root exclude) (hname : p.IsText) :
    (w.step (.delete p)).Current root base exclude := by
  have habsolute := h.workspace.isAbsolute_of_mem_listing hp
  have hnormal := h.workspace.normalize_of_mem_listing hp
  rcases h.workspace.exists_file_of_mem_listing hp with
    ⟨names, content, hempty, hnode, hpath⟩
  subst hpath
  constructor
  case workspace => exact h.workspace.delete hempty hnode
  case closed =>
    exact (Session.filesChanged_overlay _ _ _).trans h.closed
  case tracks =>
    have htracks := h.tracks.clearMissing.remove hnormal
      (SymbolIndex.recordAt_delete h.workspace hempty hnode)
      (fun q hq => SymbolIndex.recordAt_delete_other h.workspace hempty hnode hq)
    rw [← Session.filesChanged_deleted (w.tree.delete (pathBelow root names)).files
      habsolute hname w.session] at htracks
    exact htracks

theorem Current.query (h : w.Current root base exclude) (text : String) :
    (w.step (.query text)).Current root base exclude := by
  constructor
  case workspace => exact h.workspace
  case closed => exact h.closed
  case tracks =>
    show ((w.session.index.query (w.session.files w.tree.files) text).2).Tracks w.tree root
      exclude
    rw [Session.files_of_empty h.closed]
    exact h.tracks.query h.workspace text

theorem Current.definition (h : w.Current root base exclude) (uri : Uri)
    (line column : Nat) :
    (w.step (.definition uri line column)).Current root base exclude := by
  constructor
  case workspace => exact h.workspace
  case closed =>
    exact (Session.definition_grows w.tree.files uri line column w.session).left.trans
      h.closed
  case tracks =>
    show (w.session.definition w.tree.files uri line column).2.index.Tracks w.tree root
      exclude
    rw [Session.definition_eq, Session.files_of_empty h.closed]
    cases FileUri.toPath? uri with
    | none =>
        exact h.tracks
    | some p =>
        simp only
        cases w.session.documentText w.tree.files uri with
        | none =>
            exact h.tracks
        | some text =>
            show (Definition.atPosition w.tree.files p text line column w.session.lookup
              w.session.index).2.2.Tracks w.tree root exclude
            apply Definition.atPosition_keeps
              (P := fun ix => SymbolIndex.Tracks ix w.tree root exclude)
            · intro ix text hix
              exact hix.query h.workspace text
            · exact h.tracks

theorem Current.step (h : w.Current root base exclude) {next : WatchStep}
    (hnext : next.Permitted root base exclude w.tree) (hname : next.IsText) :
    (w.step next).Current root base exclude := by
  cases next with
  | write p text change => exact h.write hnext hname
  | delete p => exact h.delete hnext hname
  | query text => exact h.query text
  | definition uri line column => exact h.definition uri line column

end Steps

/-!
## Runs
-/

theorem Current.run {w : Watch} {root : Path} {base : Place} {settings : Settings}
    {steps : List WatchStep} (h : w.Current root base settings.exclude?)
    (hsteps : PermittedSteps root base settings w.tree steps)
    (hnames : forall step, step ∈ steps -> step.IsText) :
    (w.run steps).Current root base settings.exclude? ∧
      ((w.run steps).tree.listing root settings.exclude?).length ≤ settings.maxFiles := by
  induction steps generalizing w with
  | nil =>
      exact ⟨h, hsteps⟩
  | cons next steps ih =>
      rcases hsteps with ⟨_, hnext, hrest⟩
      rcases List.forall_mem_cons.mp hnames with ⟨hname, hnames⟩
      exact ih (h.step hnext hname) hrest hnames

theorem current_start {t : Tree} {root : Path} {base : Place} {settings : Settings}
    {text : String} (h : t.Workspace root base)
    (htext : SymbolQuery.parse text = .bare text)
    (hlimit : (t.listing root settings.exclude?).length ≤ settings.maxFiles) :
    ((start t root settings).step (.query text)).Current root base settings.exclude? := by
  constructor
  case workspace => exact h
  case closed => rfl
  case tracks =>
    show (((SymbolIndex.new root settings).query t.files text).2).Tracks t root
      settings.exclude?
    rw [SymbolIndex.query_eq, htext]
    exact SymbolIndex.fullScan_new_tracks h hlimit

theorem Current.search_eq {w : Watch} {root : Path} {base : Place}
    {exclude : Option String} (h : w.Current root base exclude) {text : String}
    (htext : SymbolQuery.parse text = .bare text) :
    w.search text = w.session.index.startingWith text := by
  show (w.session.index.query (w.session.files w.tree.files) text).1 = _
  rw [SymbolIndex.query_eq, htext]
  simp only [h.tracks.scanned, if_true]

theorem search_start (t : Tree) (root : Path) (settings : Settings) {text : String}
    (htext : SymbolQuery.parse text = .bare text) :
    (start t root settings).search text =
      ((SymbolIndex.new root settings).fullScan t.files).startingWith text := by
  show ((SymbolIndex.new root settings).query t.files text).1 = _
  rw [SymbolIndex.query_eq, htext]
  rfl

/-- After a first search and any permitted steps on files with UTF-8 paths, a search gives the same
symbols, each as often, as in a new session on the disk as it is then. -/
theorem search_run_perm {t : Tree} {root : Path} {base : Place} {settings : Settings}
    {first text : String} {steps : List WatchStep} (hworkspace : t.Workspace root base)
    (hfirst : SymbolQuery.parse first = .bare first)
    (hsteps : PermittedSteps root base settings t steps)
    (hnames : forall step, step ∈ steps -> step.IsText)
    (htext : SymbolQuery.parse text = .bare text) :
    let w := (start t root settings).run (.query first :: steps)
    (w.search text).Perm ((start w.tree root settings).search text) := by
  intro w
  have hlimit : (t.listing root settings.exclude?).length ≤ settings.maxFiles := by
    cases steps with
    | nil => exact hsteps
    | cons next steps => exact hsteps.left
  have hrun : w.Current root base settings.exclude? ∧
      (w.tree.listing root settings.exclude?).length ≤ settings.maxFiles :=
    (current_start hworkspace hfirst hlimit).run hsteps hnames
  rcases hrun with ⟨hcurrent, hlast⟩
  have hfresh := SymbolIndex.fullScan_new_tracks hcurrent.workspace hlast
  rw [search_start w.tree root settings htext, hcurrent.search_eq htext]
  exact hcurrent.tracks.startingWith_perm hfresh text

theorem workspace_empty : Tree.empty.Workspace (Path.ofString "/") [] := by
  have honly : forall place node, Tree.empty.node? place = some node ->
      place = [] ∧ node = .directory := by
    intro place node hnode
    rw [Tree.node?] at hnode
    split at hnode
    · rename_i hplace
      injection hnode with hnode
      exact ⟨hplace, hnode.symm⟩
    · cases hnode
  constructor
  case wellFormed =>
    constructor
    case sorted => exact List.Pairwise.nil
    case named =>
      intro place node hnode name hname
      rw [(honly place node hnode).left] at hname
      cases hname
    case nested =>
      intro place name node hnode
      simpa using (honly _ node hnode).left
  case absolute => decide
  case normal => decide
  case reached => decide +kernel
  case directory => rfl
  case plain =>
    intro names node hnode
    rcases honly names node hnode with ⟨hnames, hdirectory⟩
    rw [hnames, hdirectory]
    constructor
    · intro target htarget
      cases htarget
    · decide +kernel

/-- Two files hold one module.  One of them, in a directory that had to be made, stops being a
module and is deleted, and the other is asked for in between. -/
theorem search_run_perm_two_files :
    let root := Path.ofString "/"
    let a := Path.ofString "/A.elm"
    let b := Path.ofString "/src/B.elm"
    let steps := [
      .write a "module A exposing (..)\nx = 1\n" .created,
      .write b "module A exposing (..)\ny = 2\n" .created,
      .query "A:x",
      .write b "module" .changed,
      .definition (FileUri.ofPath a) 1 0,
      .delete b]
    let w := (start Tree.empty root .default).run (.query "" :: steps)
    (forall step, step ∈ steps -> step.IsText) ∧ w.search "xy" ≠ [] ∧
      (w.search "xy").Perm ((start w.tree root .default).search "xy") := by
  intro root a b steps w
  let one := Tree.empty.write a (.file (.text "module A exposing (..)\nx = 1\n"))
  let two := one.write b (.file (.text "module A exposing (..)\ny = 2\n"))
  let broken := two.write b (.file (.text "module"))
  have ha : a = pathBelow root (Place.ofNames ["A.elm"]) := by decide
  have hb : b = pathBelow root (Place.ofNames ["src", "B.elm"]) := by decide
  have hempty : (Tree.empty.listing root Settings.default.exclude?).length ≤
      Settings.default.maxFiles := by
    decide +kernel
  have hone : (one.listing root Settings.default.exclude?).length ≤
      Settings.default.maxFiles := by
    decide +kernel
  have htwo : (two.listing root Settings.default.exclude?).length ≤
      Settings.default.maxFiles := by
    decide +kernel
  have hbroken : (broken.listing root Settings.default.exclude?).length ≤
      Settings.default.maxFiles := by
    decide +kernel
  have hlast : ((broken.delete b).listing root Settings.default.exclude?).length ≤
      Settings.default.maxFiles := by
    decide +kernel
  have hcreateA : (WatchStep.write a "module A exposing (..)\nx = 1\n" .created).Permitted root []
      Settings.default.exclude? Tree.empty :=
    ⟨by decide, ⟨_, ha, by decide +kernel⟩, by decide +kernel⟩
  have hcreateB : (WatchStep.write b "module A exposing (..)\ny = 2\n" .created).Permitted root []
      Settings.default.exclude? one :=
    ⟨by decide, ⟨_, hb, by decide +kernel⟩, by decide +kernel⟩
  have hbreakB : (WatchStep.write b "module" .changed).Permitted root []
      Settings.default.exclude? two :=
    ⟨by decide, ⟨_, hb, by decide +kernel⟩, by decide +kernel⟩
  have hdeleteB : b ∈ broken.listing root Settings.default.exclude? := by decide +kernel
  have hsteps : PermittedSteps root [] .default Tree.empty steps :=
    ⟨hempty, hcreateA, hone, hcreateB, htwo, trivial, htwo, hbreakB, hbroken, trivial, hbroken,
      hdeleteB, hlast⟩
  have hnames : forall step, step ∈ steps -> step.IsText := by
    decide +kernel
  exact ⟨hnames, by decide +kernel,
    search_run_perm workspace_empty (by decide) hsteps hnames (by decide)⟩

/-- A file with a path that is not UTF-8 is made and deleted again.  Its URI is that of another file,
whose symbols are forgotten although it is still there. -/
theorem search_forgets_shown_alike :
    let root := Path.ofString "/"
    let kept := Path.ofString "/\uFFFD.elm"
    let odd : Path := { bytes := [0x2F, 0xFF, 0x2E, 0x65, 0x6C, 0x6D] }
    let t := Tree.empty.write kept (.file (.text "module A exposing (..)\nx = 1\n"))
    let steps := [.write odd "module B exposing (..)\ny = 2\n" .created, .delete odd]
    let w := (start t root .default).run (.query "x" :: steps)
    t.Workspace root [] ∧ PermittedSteps root [] .default t steps ∧ odd ≠ kept ∧
      FileUri.ofPath odd = FileUri.ofPath kept ∧ w.tree = t ∧
      ¬ (w.search "x").Perm ((start w.tree root .default).search "x") := by
  intro root kept odd t steps w
  let both := t.write odd (.file (.text "module B exposing (..)\ny = 2\n"))
  have hkept : kept = pathBelow root (Place.ofNames ["\uFFFD.elm"]) := by decide +kernel
  have hodd : odd = pathBelow root [[0xFF, 0x2E, 0x65, 0x6C, 0x6D]] := by decide +kernel
  have haccepts : Tree.empty.Accepts root [] (Place.ofNames ["\uFFFD.elm"]) := by
    decide +kernel
  have hworkspace : t.Workspace root [] := by
    have hwritten := workspace_empty.write haccepts (.text "module A exposing (..)\nx = 1\n")
    rw [← hkept] at hwritten
    exact hwritten
  have hfirst : (t.listing root Settings.default.exclude?).length ≤
      Settings.default.maxFiles := by
    decide +kernel
  have hboth : (both.listing root Settings.default.exclude?).length ≤
      Settings.default.maxFiles := by
    decide +kernel
  have hlast : ((both.delete odd).listing root Settings.default.exclude?).length ≤
      Settings.default.maxFiles := by
    decide +kernel
  have hcreate : (WatchStep.write odd "module B exposing (..)\ny = 2\n" .created).Permitted root []
      Settings.default.exclude? t :=
    ⟨by decide, ⟨_, hodd, by decide +kernel⟩, by decide +kernel⟩
  have hdelete : odd ∈ both.listing root Settings.default.exclude? := by decide +kernel
  have hsteps : PermittedSteps root [] .default t steps :=
    ⟨hfirst, hcreate, hboth, hdelete, hlast⟩
  exact ⟨hworkspace, hsteps, by decide +kernel, by decide +kernel, by decide +kernel,
    by decide +kernel⟩

end Watch
end ElmNavigator
