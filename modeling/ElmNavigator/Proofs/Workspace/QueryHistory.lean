import ElmNavigator.Proofs.Disk.PrunedListing
import ElmNavigator.Proofs.Workspace.IndexSources

/-!
# Queries for a name in a module, and what was asked before them

A query for a name in a module looks for the only file of the module, unless the
module is indexed.  A bare query indexes what a scan finds, where another file may
hold the module, or several may.  So what was asked before can decide the answer,
but not for a module whose files are all the one that is looked for.
-/

namespace ElmNavigator

open Disk Syntax Text

namespace SymbolIndex

def hitsIn (record : Option ModuleSymbols) (name : String) : List Symbol :=
  record.elim [] fun r => r.symbols.filter (·.name = name)

theorem named_eq (ix : SymbolIndex) (module name : String) :
    ix.named module name = hitsIn (ix.module? module) name := by
  unfold named
  cases ix.module? module with
  | none => rfl
  | some r => rfl

/-!
## What an index knows of the files
-/

/-- The records of an index are those of files that are offered or told of, as the files are
read, and the modules that it misses cannot be found by a search. -/
structure Reflects (files : Files Id) (told : Path -> Prop) (ix : SymbolIndex) : Prop where
  consistent : ix.Consistent
  sources : forall p r, ix.byPath.get? p = some r ->
    exists q, (Offers files ix.root ix.exclude q ∨ told q) ∧
      recordIn? q.normalize (files.read q) = some r
  missing : forall n, n ∈ ix.missing -> searched files ix.root ix.exclude n = none

theorem new_reflects (files : Files Id) (told : Path -> Prop) (root : Path)
    (settings : Settings) : (new root settings).Reflects files told := by
  refine ⟨new_consistent root settings, ?_, ?_⟩
  · intro p r hr
    cases hr
  · intro n hn
    cases hn

theorem missing_remove (ix : SymbolIndex) (p : Path) : (ix.remove p).missing = [] := by
  simp only [remove]
  cases ix.clearMissing.record? p with
  | none => rfl
  | some old => rfl

theorem missing_update (ix : SymbolIndex) (p : Path) (text : String) :
    (ix.update p text).missing = [] := by
  have hremove := ix.missing_remove p.normalize
  simp only [update]
  cases recordOf? p.normalize text with
  | none => exact hremove
  | some r => exact hremove

section Reflects

variable {files : Files Id} {told : Path -> Prop} {inAnyCase : Bool} {ix next : SymbolIndex}

theorem Reflects.update (h : ix.Reflects files told) {p : Path} {text : String}
    (hsource : Offers files ix.root ix.exclude p ∨ told p) (hread : files.read p = .ok text) :
    (ix.update p text).Reflects files told := by
  have hsetup := ix.update_setup p text
  refine ⟨h.consistent.update p text, ?_, ?_⟩
  · intro other r hr
    rw [hsetup.1, hsetup.2.1]
    rw [get?_byPath_update] at hr
    split at hr
    · refine ⟨p, hsource, ?_⟩
      rw [hread]
      exact hr
    · exact h.sources other r hr
  · intro n hn
    rw [missing_update] at hn
    cases hn

theorem Reflects.change (h : ix.Reflects files told)
    (hchange : GroundedChange files told inAnyCase ix next) : next.Reflects files told := by
  cases hchange with
  | listed hoffers hread => exact h.update (Or.inl hoffers) hread
  | told htold _ hread => exact h.update (Or.inr htold) hread
  | forgotten p =>
      have hsetup := ix.remove_setup p
      refine ⟨h.consistent.remove p, ?_, ?_⟩
      · intro other r hr
        rw [hsetup.1, hsetup.2.1]
        rw [get?_byPath_remove] at hr
        split at hr
        · cases hr
        · exact h.sources other r hr
      · intro n hn
        rw [missing_remove] at hn
        cases hn
  | cleared =>
      refine ⟨h.consistent.changes (.clearMissing ix), h.sources, ?_⟩
      intro n hn
      cases hn
  | @missed name hnone =>
      have hconsistent := h.consistent.changes (.addMissing ix name)
      unfold addMissing at hconsistent ⊢
      split
      · exact h
      · rename_i hnew
        rw [if_neg hnew] at hconsistent
        refine ⟨hconsistent, h.sources, ?_⟩
        intro n hn
        rcases List.mem_cons.mp hn with hname | hold
        · rw [hname]
          exact hnone
        · exact h.missing n hold
  | scanned => exact ⟨h.consistent.changes (.scanned ix), h.sources, h.missing⟩

theorem Reflects.grounded (h : ix.Reflects files told)
    (hchanges : Grounded files told inAnyCase ix next) : next.Reflects files told := by
  induction hchanges with
  | refl => exact h
  | tail _ hchange ih => exact ih.change hchange

theorem Reflects.reconfigure (h : ix.Reflects files told) (settings : Settings) :
    (ix.reconfigure settings).Reflects files told := by
  rcases reconfigure_cases ix settings with ⟨hsame, _⟩ | hnew
  · rw [hsame]
    exact h
  · rw [hnew]
    exact new_reflects files told ix.root settings

theorem Consistent.module?_update_of_none (h : ix.Consistent) {name : String}
    (hnone : ix.module? name = none) (p : Path) (text : String) :
    (ix.update p text).module? name =
      (recordOf? p.normalize text).filter (·.module = name) := by
  apply Option.ext
  intro r
  have happly := h.get?_byModule_apply (.update p text) (n := name) (r := r)
  have hno : ix.byModule.get? name ≠ some r := by
    intro hr
    have hnone' : ix.byModule.get? name = none := hnone
    rw [hnone'] at hr
    cases hr
  rw [Option.filter_eq_some_iff, decide_eq_true_iff]
  constructor
  · intro hr
    rcases happly.mp hr with hclaimed | ⟨_, hold, _⟩
    · exact hclaimed
    · exact absurd hold hno
  · intro hr
    exact happly.mpr (Or.inl hr)

/-- After a query for a name in a module, the module has the record that it had, or else the one
that a search gives it. -/
theorem Reflects.module?_query (h : ix.Reflects files told) {text module name : String}
    (hparse : SymbolQuery.parse text = .qualified module name) :
    (ix.query files text).2.module? module =
      (ix.module? module).or (searched files ix.root ix.exclude module) := by
  rw [query_eq, hparse]
  simp only
  cases hmodule : ix.module? module with
  | some r =>
      have hhas : (ix.byModule.has module || ix.missing.contains module) = true := by
        have hsome : ix.byModule.has module = true := by
          unfold Table.has
          rw [show ix.byModule.get? module = some r from hmodule]
          rfl
        simp [hsome]
      rw [if_pos hhas, hmodule]
      rfl
  | none =>
      have hmissed (name : String) : (ix.addMissing name).module? module = none := by
        unfold addMissing
        split
        · exact hmodule
        · exact hmodule
      rw [Option.none_or]
      split
      · rename_i hknown
        have hhas : ix.byModule.has module = false := by
          unfold Table.has
          rw [show ix.byModule.get? module = none from hmodule]
          rfl
        rw [hhas, Bool.false_or, List.contains_iff_mem] at hknown
        rw [hmodule, h.missing module hknown]
      · rw [indexModule_eq]
        split
        · rename_i e hfind
          rw [hmodule, searched_of_not_single]
          intro p hp
          rw [hfind] at hp
          cases hp
        · rename_i p hfind
          rw [searched_of_single hfind, indexPath_eq]
          cases hread : files.read p with
          | ok text => exact h.consistent.module?_update_of_none hmodule p text
          | error e => exact hmissed module
        · rename_i paths hsingle hfind
          rw [searched_of_not_single]
          · exact hmissed module
          · intro p hp
            rw [hfind] at hp
            injection hp with hp
            exact hsingle p hp

theorem Reflects.query (h : ix.Reflects files told) {text module name : String}
    (hparse : SymbolQuery.parse text = .qualified module name) :
    (ix.query files text).1 =
      hitsIn ((ix.module? module).or (searched files ix.root ix.exclude module)) name := by
  rw [← h.module?_query hparse, ← named_eq, query_eq, hparse]

/-- Every file that holds a module is the one that a search for the module finds. -/
def SingleFile (files : Files Id) (told : Path -> Prop) (root : Path) (exclude : Option String)
    (module : String) : Prop :=
  forall q r, (Offers files root exclude q ∨ told q) ->
    recordIn? q.normalize (files.read q) = some r -> r.module = module ->
    searched files root exclude module = some r

theorem Reflects.query_of_singleFile (h : ix.Reflects files told) {text module name : String}
    (hparse : SymbolQuery.parse text = .qualified module name)
    (hsingle : SingleFile files told ix.root ix.exclude module) :
    (ix.query files text).1 = hitsIn (searched files ix.root ix.exclude module) name := by
  rw [h.query hparse]
  cases hmodule : ix.module? module with
  | none => rfl
  | some r =>
      rcases h.sources r.path r (h.consistent.reachable module r hmodule) with
        ⟨q, hsource, hrecord⟩
      rw [hsingle q r hsource hrecord (h.consistent.named module r hmodule)]
      rfl

end Reflects

/-!
## Scans
-/

/-- The edits that a bare query makes. -/
def pendingScan (files : Files Id) (ix : SymbolIndex) : List Edit :=
  if ix.scanned then []
  else
    match files.find ix.root allFiles ix.exclude ix.maxFiles with
    | .ok paths => scanLog files paths
    | .error _ => []

theorem query_bare {text bare : String} (hparse : SymbolQuery.parse text = .bare bare)
    (files : Files Id) (ix : SymbolIndex) :
    (ix.query files text).2 = { ix with scanned := true }.replay (ix.pendingScan files) := by
  rw [query_eq, hparse]
  unfold pendingScan
  simp only
  cases hscanned : ix.scanned with
  | true =>
      rw [if_pos rfl, if_pos rfl, ← hscanned]
      rfl
  | false =>
      rw [if_neg Bool.false_ne_true, if_neg Bool.false_ne_true, fullScan_eq]
      cases files.find ix.root allFiles ix.exclude ix.maxFiles with
      | error e => rfl
      | ok paths => exact scanFiles_eq_replay files paths { ix with scanned := true }

end SymbolIndex

/-!
## Histories
-/

/-- An event that opens no document and changes no file. -/
structure Event.LeavesFiles (disk : Files Id) (event : Event) : Prop where
  saves : event.SavesShown disk
  not_opened : forall uri text, event ≠ .opened uri text
  not_changed : forall next, event ≠ .diskChanged next

/-- Queries that are not for a name in a module. -/
def Event.isBareQuery : Event -> Bool
  | .workspaceSymbols text =>
      match SymbolQuery.parse text with
      | .bare _ => true
      | .qualified _ _ => false
  | _ => false

namespace Overlay

theorem changeAll_empty (p : Path) (changes : List Change) :
    empty.changeAll p changes = empty := by
  cases changes with
  | nil => rfl
  | cons change changes => rfl

end Overlay

namespace Workbench

open SymbolIndex

/-- A session on the files of a disk, with nothing open, whose index reflects them. -/
structure OnFiles (w : Workbench) (disk : Files Id) (root : Path) (told : Path -> Prop) : Prop where
  disk_eq : w.disk = disk
  closed : w.session.overlay = .empty
  aligned : w.Aligned root
  reflects : w.session.index.Reflects disk told

section Runs

variable {w : Workbench} {disk : Files Id} {root : Path} {told : Path -> Prop}

theorem start_onFiles (disk : Files Id) (root : Path) (settings : Settings)
    (told : Path -> Prop) : (start disk root settings).OnFiles disk root told :=
  ⟨rfl, rfl, start_aligned disk root settings, new_reflects disk told root settings⟩

theorem OnFiles.files (h : w.OnFiles disk root told) : w.session.files w.disk = disk := by
  rw [Session.files_of_empty h.closed, h.disk_eq]

theorem step_overlay_empty {event : Event} (hopened : forall uri text, event ≠ .opened uri text)
    (h : w.session.overlay = .empty) : (w.step event).session.overlay = .empty := by
  cases event with
  | opened uri text => exact absurd rfl (hopened uri text)
  | edited uri changes =>
      simp only [step, Session.changeDocument]
      cases FileUri.toPath? uri with
      | none => exact h
      | some p =>
          show w.session.overlay.changeAll p changes = .empty
          rw [h, Overlay.changeAll_empty]
  | closed uri =>
      simp only [step, Session.closeDocument]
      cases FileUri.toPath? uri with
      | none => exact h
      | some p =>
          show w.session.overlay.close p = .empty
          rw [h]
          rfl
  | saved uri text =>
      simp only [step, Session.saveDocument]
      cases FileUri.toPath? uri with
      | none => exact h
      | some p =>
          cases text with
          | none => exact h
          | some text => exact h
  | documentSymbols uri => exact h
  | workspaceSymbols query => exact h
  | definition uri line column =>
      exact (Session.definition_grows w.disk uri line column w.session).1.trans h
  | reconfigured settings => exact h
  | filesChanged events => exact (Session.filesChanged_overlay w.disk events w.session).trans h
  | diskChanged next => exact h

theorem OnFiles.step (h : w.OnFiles disk root told) {event : Event}
    (hevent : event.LeavesFiles disk) (htold : forall p, event.Tells p -> told p) :
    (w.step event).OnFiles disk root told := by
  have hsaves : event.SavesShown (w.session.files w.disk) := by
    rw [h.files]
    exact hevent.saves
  constructor
  · have hdisk : (w.step event).disk = w.disk := by
      cases event with
      | diskChanged next => exact absurd rfl (hevent.not_changed next)
      | _ => rfl
    exact hdisk.trans h.disk_eq
  · exact step_overlay_empty hevent.not_opened h.closed
  · exact h.aligned.step hsaves
  · rcases event.reconfigured_or with ⟨settings, hreconfigured⟩ | hother
    · subst hreconfigured
      exact h.reflects.reconfigure settings
    · have hgrounded := step_grounded hsaves hother
      rw [h.files] at hgrounded
      exact h.reflects.grounded (hgrounded.mono htold)

theorem OnFiles.run (h : w.OnFiles disk root told) {events : List Event}
    (hevents : forall event, event ∈ events -> event.LeavesFiles disk)
    (htold : forall event, event ∈ events -> forall p, event.Tells p -> told p) :
    (w.run events).OnFiles disk root told := by
  induction events generalizing w with
  | nil =>
      exact h
  | cons event events ih =>
      apply ih
      · exact h.step (hevents event List.mem_cons_self) (htold event List.mem_cons_self)
      · exact fun later hlater => hevents later (List.mem_cons_of_mem event hlater)
      · exact fun later hlater => htold later (List.mem_cons_of_mem event hlater)

theorem OnFiles.answer (h : w.OnFiles disk root told) {query module name : String}
    (hparse : SymbolQuery.parse query = .qualified module name) :
    (w.session.workspaceSymbols w.disk query).1 =
      hitsIn ((w.session.index.module? module).or
        (searched disk root w.session.settings.exclude? module)) name := by
  rw [← h.aligned.root_eq, ← h.aligned.exclude_eq, ← h.reflects.query hparse, ← h.files]
  rfl

theorem OnFiles.answer_of_singleFile (h : w.OnFiles disk root told)
    {query module name : String} (hparse : SymbolQuery.parse query = .qualified module name)
    (hsingle : SingleFile disk told root w.session.settings.exclude? module) :
    (w.session.workspaceSymbols w.disk query).1 =
      hitsIn (searched disk root w.session.settings.exclude? module) name := by
  rw [← h.aligned.root_eq, ← h.aligned.exclude_eq] at hsingle ⊢
  rw [← h.reflects.query_of_singleFile hparse hsingle, ← h.files]
  rfl

end Runs

theorem settings_run_filter {w other : Workbench}
    (h : w.session.settings = other.session.settings) (events : List Event) :
    (w.run (events.filter fun event => !event.isBareQuery)).session.settings =
      (other.run events).session.settings := by
  induction events generalizing w other with
  | nil =>
      exact h
  | cons event events ih =>
      cases hbare : event.isBareQuery with
      | true =>
          have hkept : (other.step event).session.settings = other.session.settings := by
            apply step_settings
            intro settings hevent
            rw [hevent] at hbare
            cases hbare
          rw [List.filter_cons_of_neg (by simp [hbare])]
          exact ih (h.trans hkept.symm)
      | false =>
          rw [List.filter_cons_of_pos (by simp [hbare])]
          apply ih
          rcases event.reconfigured_or with ⟨settings, hevent⟩ | hother
          · subst hevent
            rfl
          · rw [step_settings hother, step_settings hother, h]

theorem leavesFiles_of_isBareQuery {event : Event} (h : event.isBareQuery = true)
    (disk : Files Id) : event.LeavesFiles disk := by
  cases event with
  | workspaceSymbols text => exact ⟨trivial, by simp, by simp⟩
  | _ => cases h

theorem index_of_isBareQuery {event : Event} (h : event.isBareQuery = true) (w : Workbench) :
    (w.step event).session.index = { w.session.index with scanned := true }.replay
      (w.session.index.pendingScan (w.session.files w.disk)) := by
  cases event with
  | workspaceSymbols text =>
      cases hparse : SymbolQuery.parse text with
      | bare asked => exact query_bare hparse (w.session.files w.disk) w.session.index
      | qualified module name =>
          simp only [Event.isBareQuery, hparse] at h
          cases h
  | _ => cases h

/-- On files that stay as they are, with nothing open, an answer about a name in a module is from
the record that the module has, or else from the one that a search gives it.  If every file that
holds the module is the one that a search finds, bare queries before make no difference.  In any
case a bare query makes the answer that of the last file from which its scan takes the module. -/
theorem qualified_answer {disk : Files Id} (root : Path) (settings : Settings)
    {events : List Event} (hevents : forall event, event ∈ events -> event.LeavesFiles disk)
    {query module name : String}
    (hparse : SymbolQuery.parse query = .qualified module name) :
    let base := start disk root settings
    let w := base.run events
    let answer (v : Workbench) := (v.session.workspaceSymbols v.disk query).1
    let found := searched disk root w.session.settings.exclude? module
    let told (p : Path) := exists event, event ∈ events ∧ event.Tells p
    (SingleFile disk told root w.session.settings.exclude? module ->
      answer w = answer (base.run (events.filter fun event => !event.isBareQuery)) ∧
        answer w = hitsIn found name) ∧
    answer w = hitsIn ((w.session.index.module? module).or found) name ∧
    forall bare edit after r, bare.isBareQuery = true ->
      edit :: after <:+ w.session.index.pendingScan disk ->
      edit.record? = some r -> r.module = module ->
      (forall later, later ∈ after -> ¬ later.Claims module ∧ later.path ≠ edit.path) ->
      answer (w.step bare) = hitsIn (some r) name := by
  intro base w answer found told
  have hbase : base.OnFiles disk root told := start_onFiles disk root settings told
  have hw : w.OnFiles disk root told :=
    hbase.run hevents fun event hevent p hp => ⟨event, hevent, hp⟩
  refine ⟨?_, hw.answer hparse, ?_⟩
  · intro hsingle
    have hfound : answer w = hitsIn found name := hw.answer_of_singleFile hparse hsingle
    refine ⟨?_, hfound⟩
    have hquiet : (base.run (events.filter fun event => !event.isBareQuery)).OnFiles
        disk root told := by
      apply hbase.run
      · exact fun event hevent => hevents event (List.mem_of_mem_filter hevent)
      · exact fun event hevent p hp => ⟨event, List.mem_of_mem_filter hevent, hp⟩
    have hsettings := settings_run_filter (rfl : base.session.settings = _) events
    rw [hfound]
    symm
    have hquietly := hquiet.answer_of_singleFile hparse (hsettings.symm ▸ hsingle)
    rw [hsettings] at hquietly
    exact hquietly
  · intro bare edit after r hbare hlast hrecord hmodule hlater
    have hnone : forall p, bare.Tells p -> told p := by
      intro p htells
      cases bare with
      | workspaceSymbols text => exact htells.elim
      | _ => cases hbare
    have hstep : (w.step bare).OnFiles disk root told :=
      hw.step (leavesFiles_of_isBareQuery hbare disk) hnone
    have hconsistent := hw.reflects.consistent.changes (.scanned w.session.index)
    have hscanned : (w.step bare).session.index.module? module = some r := by
      rw [index_of_isBareQuery hbare, hw.files]
      exact hconsistent.get?_byModule_of_last hlast hrecord hmodule hlater
    have hanswer := hstep.answer hparse
    rw [hscanned] at hanswer
    exact hanswer

def twoModules : Tree :=
  { entries := [(Place.ofNames ["w"], .directory),
      (Place.ofNames ["w", "A.elm"], .file (.text "module A exposing (..)\n\nfoo = 1\n")),
      (Place.ofNames ["w", "B.elm"], .file (.text "module B exposing (..)\n\nfoo = 2\n"))],
    workingDir := [] }

theorem mem_of_offers_twoModules {exclude : Option String} {p : Path}
    (h : Offers twoModules.files (Path.ofString "/w") exclude p) :
    p ∈ [Path.ofString "/w/A.elm", Path.ofString "/w/B.elm"] := by
  rcases h with ⟨pattern, limit, paths, _, hfind, hp⟩
  rcases Tree.exists_item_of_find hfind hp with
    ⟨_, _, items, names, _, _, hitems, hitem, _, hbelow⟩
  have hall : twoModules.itemsUnder (Path.ofString "/w") =
      .ok [.file (Place.ofNames ["A.elm"]), .file (Place.ofNames ["B.elm"])] := by
    decide +kernel
  rw [hall] at hitems
  rw [← Except.ok.inj hitems] at hitem
  rw [← hbelow]
  rcases List.mem_cons.mp hitem with hfirst | hrest
  · injection hfirst with hnames
    rw [hnames]
    decide
  · injection List.mem_singleton.mp hrest with hnames
    rw [hnames]
    decide

theorem singleFile_twoModules {told : Path -> Prop}
    (htold : forall p, told p -> p ∈ [Path.ofString "/w/A.elm", Path.ofString "/w/B.elm"]) :
    SingleFile twoModules.files told (Path.ofString "/w") Settings.default.exclude? "A" := by
  intro q r hsource hrecord hmodule
  have hq : q ∈ [Path.ofString "/w/A.elm", Path.ofString "/w/B.elm"] := by
    rcases hsource with hoffers | htells
    · exact mem_of_offers_twoModules hoffers
    · exact htold q htells
  rcases List.mem_cons.mp hq with hfirst | hrest
  · rw [hfirst] at hrecord
    rw [← hrecord]
    decide +kernel
  · have hother : (recordIn? (Path.ofString "/w/B.elm").normalize
        (twoModules.files.read (Path.ofString "/w/B.elm"))).map (·.module) = some "B" := by
      decide +kernel
    rw [← List.mem_singleton.mp hrest, hrecord, Option.map_some, hmodule] at hother
    simp at hother

/-- The workspace is scanned, and the session is told of a file and asked about the other module,
before the query. -/
theorem qualified_answer_twoModules :
    let p := Path.ofString "/w/A.elm"
    let base := start twoModules.files (Path.ofString "/w") .default
    let events := [.workspaceSymbols "foo", .filesChanged [⟨FileUri.ofPath p, .changed⟩],
      .workspaceSymbols "B:foo"]
    let w := base.run events
    let quiet := base.run (events.filter fun event => !event.isBareQuery)
    (w.session.workspaceSymbols w.disk "A:foo").1 ≠ [] ∧ w.session.index ≠ quiet.session.index ∧
      (w.session.workspaceSymbols w.disk "A:foo").1 =
        (quiet.session.workspaceSymbols quiet.disk "A:foo").1 := by
  intro p base events w quiet
  have hparse : SymbolQuery.parse "A:foo" = .qualified "A" "foo" := by
    decide
  have hevents : forall event, event ∈ events -> event.LeavesFiles twoModules.files ∧
      forall q, event.Tells q -> q = p := by
    intro event hevent
    simp only [events, List.mem_cons, List.not_mem_nil, or_false] at hevent
    rcases hevent with hevent | hevent | hevent
    · subst hevent
      exact ⟨⟨trivial, by simp, by simp⟩, fun q htells => htells.elim⟩
    · subst hevent
      refine ⟨⟨trivial, by simp, by simp⟩, ?_⟩
      intro q htells
      rcases htells with ⟨e, he, _, hpath⟩
      have huri : FileUri.toPath? (FileUri.ofPath p) = some p := by
        decide +kernel
      rw [List.mem_singleton.mp he, huri] at hpath
      exact (Option.some.inj hpath).symm
    · subst hevent
      exact ⟨⟨trivial, by simp, by simp⟩, fun q htells => htells.elim⟩
  have hdefault : w.session.settings.exclude? = Settings.default.exclude? := by
    decide +kernel
  refine ⟨by decide +kernel, by decide +kernel, ?_⟩
  apply ((qualified_answer (Path.ofString "/w") .default
    (fun event hevent => (hevents event hevent).1) hparse).1 ?_).1
  show SingleFile _ _ _ w.session.settings.exclude? "A"
  rw [hdefault]
  apply singleFile_twoModules
  intro q htells
  rcases htells with ⟨event, hevent, htells⟩
  rw [(hevents event hevent).2 q htells]
  exact List.mem_cons_self

/-- With two files for a module a query for a name in it finds nothing, but after a bare query it
finds the name in the file that was scanned last. -/
theorem qualified_answer_changed :
    let text := "module A exposing (..)\n\nfoo = 1\n"
    let disk := ((Tree.empty.write (Path.ofString "/w/one/A.elm") (.file (.text text))).write
      (Path.ofString "/w/two/A.elm") (.file (.text text))).files
    let base := start disk (Path.ofString "/w") .default
    let w := base.run [.workspaceSymbols "foo"]
    SymbolQuery.parse "A:foo" = .qualified "A" "foo" ∧
      (base.session.workspaceSymbols base.disk "A:foo").1 = [] ∧
      ((w.session.workspaceSymbols w.disk "A:foo").1.map (·.uri)) =
        [FileUri.ofPath (Path.ofString "/w/two/A.elm")] := by
  decide +kernel

end Workbench
end ElmNavigator
