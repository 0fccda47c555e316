import ElmNavigator.Proofs.Workspace.IndexSources
import ElmNavigator.Proofs.Workspace.QueryHistory
import ElmNavigator.Proofs.Workspace.UnsavedEdits

/-!
# The order of file events

Every event of a batch is handled in the session that the events before it have left.
As long as no two of them are about the same file, each leaves the record that it would
have left on its own, so their order does not matter to the records.  It can matter to
the names of modules: of two files with the same module, the later one gets the name.
-/

namespace ElmNavigator

open Disk

def DistinctFiles (events : List FileEvent) : Prop :=
  (events.filterMap fun event => (FileUri.toPath? event.uri).map Path.normalize).Nodup

instance (events : List FileEvent) : Decidable (DistinctFiles events) :=
  inferInstanceAs (Decidable (List.Nodup _))

theorem DistinctFiles.perm {events events' : List FileEvent} (h : DistinctFiles events)
    (hperm : events.Perm events') : DistinctFiles events' :=
  (hperm.filterMap _).nodup_iff.mp h

theorem DistinctFiles.tail {event : FileEvent} {events : List FileEvent}
    (h : DistinctFiles (event :: events)) : DistinctFiles events := by
  unfold DistinctFiles at h ⊢
  rw [List.filterMap_cons] at h
  cases hpath : (FileUri.toPath? event.uri).map Path.normalize with
  | none =>
      rw [hpath] at h
      exact h
  | some key =>
      rw [hpath] at h
      exact (List.nodup_cons.mp h).right

theorem DistinctFiles.not_names {event later : FileEvent} {events : List FileEvent} {p : Path}
    (h : DistinctFiles (event :: events)) (hevent : event.uri.Names p) (hlater : later ∈ events) :
    ¬ later.uri.Names p := by
  rintro ⟨q, hq, hnormal⟩
  rcases hevent with ⟨first, hfirst, hfirstNormal⟩
  unfold DistinctFiles at h
  rw [List.filterMap_cons, hfirst] at h
  apply (List.nodup_cons.mp h).left
  rw [List.mem_filterMap]
  refine ⟨later, hlater, ?_⟩
  rw [hq, Option.map_some, hnormal, hfirstNormal]

/-!
## Outlines
-/

namespace ModuleLookup

theorem invalidate_comm (l : ModuleLookup) (p q : Path) :
    (l.invalidate p).invalidate q = (l.invalidate q).invalidate p := by
  unfold invalidate Table.erase
  simp only
  rw [List.filter_comm]

theorem invalidateUri_comm (l : ModuleLookup) (uri other : Uri) :
    (l.invalidateUri uri).invalidateUri other = (l.invalidateUri other).invalidateUri uri := by
  unfold invalidateUri
  cases FileUri.toPath? uri with
  | none => rfl
  | some p =>
      cases FileUri.toPath? other with
      | none => rfl
      | some q => exact l.invalidate_comm p q

theorem invalidateEach_perm {events events' : List FileEvent} (h : events.Perm events')
    (l : ModuleLookup) : l.invalidateEach events = l.invalidateEach events' :=
  h.foldl_eq' (fun first _ second _ l => l.invalidateUri_comm first.uri second.uri) l

end ModuleLookup

namespace Session

open SymbolIndex

/-!
## One event
-/

/-- The record that a file has after an event about it.  A file is read anew if it was indexed or
the workspace has been scanned, but not while it is open. -/
def recordAfter (disk : Files Id) (s : Session) (change : FileChange) (p : Path) :
    Option ModuleSymbols :=
  if change = .deleted then none
  else if (s.index.containsPath p || s.index.scanned) && !s.overlay.isOpen p then
    match disk.read p with
    | .ok text => recordOf? p.normalize text
    | .error _ => s.index.record? p
  else s.index.record? p

variable (disk : Files Id)

theorem recordAfter_congr {s t : Session} {p : Path} (hoverlay : s.overlay = t.overlay)
    (hscanned : s.index.scanned = t.index.scanned)
    (hrecord : s.index.record? p = t.index.record? p) (change : FileChange) :
    s.recordAfter disk change p = t.recordAfter disk change p := by
  unfold recordAfter containsPath
  rw [hoverlay, hscanned, hrecord]

theorem read_files_of_not_isOpen {s : Session} {p : Path} (h : s.overlay.isOpen p = false) :
    (s.files disk).read p = disk.read p := by
  have hclosed : s.overlay.text? p = none := by
    simpa [Overlay.isOpen] using h
  unfold files Overlay.view
  simp only
  rw [hclosed]

theorem get?_fileChanged {event : FileEvent} {p : Path} (h : FileUri.toPath? event.uri = some p)
    (s : Session) (k : Path) :
    (s.fileChanged disk event).index.byPath.get? k =
      if k = p.normalize then s.recordAfter disk event.change p else s.index.byPath.get? k := by
  have hown : (if k = p.normalize then s.index.record? p else s.index.byPath.get? k) =
      s.index.byPath.get? k := by
    split
    · next hk => rw [hk, record?]
    · rfl
  rw [fileChanged_eq, h]
  unfold recordAfter
  simp only
  split
  · exact get?_byPath_remove s.index p k
  · split
    · next hread =>
        have hclosed : s.overlay.isOpen p = false := by simp_all
        show (s.index.indexPath (s.files disk) p).2.byPath.get? k = _
        rw [indexPath_eq, read_files_of_not_isOpen disk hclosed]
        cases disk.read p with
        | ok text => exact get?_byPath_update s.index p text k
        | error e => exact hown.symm
    · exact hown.symm

theorem get?_fileChanged_of_not_names {event : FileEvent} {k : Path} (h : ¬ event.uri.Names k)
    (s : Session) : (s.fileChanged disk event).index.byPath.get? k = s.index.byPath.get? k := by
  cases hpath : FileUri.toPath? event.uri with
  | none =>
      rw [fileChanged_eq, hpath]
  | some p =>
      have hother : k ≠ p.normalize := by
        intro hk
        exact h ⟨p, hpath, hk.symm⟩
      rw [get?_fileChanged disk hpath, if_neg hother]

theorem fileChanged_missing {s : Session} (h : s.index.missing = []) (event : FileEvent) :
    (s.fileChanged disk event).index.missing = [] := by
  rw [fileChanged_eq]
  cases FileUri.toPath? event.uri with
  | none =>
      exact h
  | some p =>
      simp only
      split
      · exact s.index.missing_remove p
      · split
        · rw [indexPath_eq]
          cases (s.files disk).read p with
          | ok text => exact s.index.missing_update p text
          | error e => exact h
        · exact h

theorem fileChanged_of_isOpen {event : FileEvent} {p : Path} {s : Session}
    (hpath : FileUri.toPath? event.uri = some p) (hchange : event.change ≠ .deleted)
    (hopen : s.overlay.isOpen p = true) : s.fileChanged disk event = s.invalidate p := by
  rw [fileChanged_eq, hpath]
  simp only
  rw [if_neg hchange, if_neg (by simp [hopen])]

/-!
## Batches
-/

theorem eachFileChanged_scanned (events : List FileEvent) (s : Session) :
    (s.eachFileChanged disk events).index.scanned = s.index.scanned := by
  induction events generalizing s with
  | nil =>
      rfl
  | cons event events ih =>
      exact (ih (s.fileChanged disk event)).trans (fileChanged_scanned disk event s)

theorem eachFileChanged_missing {s : Session} (h : s.index.missing = [])
    (events : List FileEvent) : (s.eachFileChanged disk events).index.missing = [] := by
  induction events generalizing s with
  | nil =>
      exact h
  | cons event events ih =>
      exact ih (fileChanged_missing disk h event)

theorem eachFileChanged_append (before after : List FileEvent) (s : Session) :
    s.eachFileChanged disk (before ++ after) =
      (s.eachFileChanged disk before).eachFileChanged disk after := by
  induction before generalizing s with
  | nil =>
      rfl
  | cons event before ih =>
      exact ih (s.fileChanged disk event)

theorem get?_eachFileChanged_of_not_names {events : List FileEvent} {k : Path}
    (h : forall event, event ∈ events -> ¬ event.uri.Names k) (s : Session) :
    (s.eachFileChanged disk events).index.byPath.get? k = s.index.byPath.get? k := by
  induction events generalizing s with
  | nil =>
      rfl
  | cons event events ih =>
      rcases List.forall_mem_cons.mp h with ⟨hevent, hevents⟩
      exact (ih hevents (s.fileChanged disk event)).trans
        (get?_fileChanged_of_not_names disk hevent s)

theorem record?_eachFileChanged_of_mem {events : List FileEvent} {event : FileEvent} {p : Path}
    (hdistinct : DistinctFiles events) (hevent : event ∈ events)
    (hpath : FileUri.toPath? event.uri = some p) (s : Session) :
    (s.eachFileChanged disk events).index.record? p = s.recordAfter disk event.change p := by
  have hnames : event.uri.Names p.normalize := ⟨p, hpath, rfl⟩
  induction events generalizing s with
  | nil =>
      cases hevent
  | cons first events ih =>
      rcases List.mem_cons.mp hevent with hfirst | hlater
      · -- No later event is about the same file.
        subst hfirst
        have hlater := get?_eachFileChanged_of_not_names disk
          (fun later hlater => hdistinct.not_names hnames hlater) (s.fileChanged disk event)
        rw [get?_fileChanged disk hpath, if_pos rfl] at hlater
        exact hlater
      · -- The first event leaves the record of the file as it was.
        have hother : ¬ first.uri.Names p.normalize := by
          intro hfirst
          exact hdistinct.not_names hfirst hlater hnames
        have hkept : (s.fileChanged disk first).index.record? p = s.index.record? p :=
          get?_fileChanged_of_not_names disk hother s
        exact (ih hdistinct.tail hlater (s.fileChanged disk first)).trans
          (recordAfter_congr disk (fileChanged_keeps disk first s).left
            (fileChanged_scanned disk first s) hkept event.change)

/-- An event that does not delete an open file might as well not have come, as far as the index is
concerned. -/
theorem eachFileChanged_ignores {before after : List FileEvent} {event : FileEvent} {p : Path}
    {s : Session} (hpath : FileUri.toPath? event.uri = some p) (hchange : event.change ≠ .deleted)
    (hopen : s.overlay.isOpen p = true) :
    (s.eachFileChanged disk (before ++ event :: after)).index =
      (s.eachFileChanged disk (before ++ after)).index := by
  have hstill : (s.eachFileChanged disk before).overlay.isOpen p = true := by
    rw [(eachFileChanged_keeps disk before s).left]
    exact hopen
  have hmatches : Matches ((s.eachFileChanged disk before).fileChanged disk event)
      (s.eachFileChanged disk before) := by
    rw [fileChanged_of_isOpen disk hpath hchange hstill]
    exact ⟨fun _ => rfl, rfl, rfl⟩
  rw [eachFileChanged_append, eachFileChanged_append]
  exact (hmatches.eachFileChanged disk after).index

/-- Two sessions have the same records of files, the same outlines, and have looked for and scanned
the same. -/
structure SameRecords (s t : Session) : Prop where
  records : forall k, s.index.byPath.get? k = t.index.byPath.get? k
  lookup : s.lookup = t.lookup
  missing : s.index.missing = t.index.missing
  scanned : s.index.scanned = t.index.scanned

theorem get?_eachFileChanged_perm {events events' : List FileEvent}
    (hdistinct : DistinctFiles events) (hperm : events.Perm events') (s : Session) (k : Path) :
    (s.eachFileChanged disk events).index.byPath.get? k =
      (s.eachFileChanged disk events').index.byPath.get? k := by
  by_cases hnamed : exists event, event ∈ events ∧ event.uri.Names k
  · rcases hnamed with ⟨event, hevent, p, hpath, hnormal⟩
    subst hnormal
    have hevent' : event ∈ events' := hperm.mem_iff.mp hevent
    exact (record?_eachFileChanged_of_mem disk hdistinct hevent hpath s).trans
      (record?_eachFileChanged_of_mem disk (hdistinct.perm hperm) hevent' hpath s).symm
  · have hothers : forall event, event ∈ events -> ¬ event.uri.Names k := by
      intro event hevent hnames
      exact hnamed ⟨event, hevent, hnames⟩
    have hothers' : forall event, event ∈ events' -> ¬ event.uri.Names k := by
      intro event hevent
      exact hothers event (hperm.mem_iff.mpr hevent)
    exact (get?_eachFileChanged_of_not_names disk hothers s).trans
      (get?_eachFileChanged_of_not_names disk hothers' s).symm

theorem filesChanged_perm {events events' : List FileEvent} (hdistinct : DistinctFiles events)
    (hperm : events.Perm events') (s : Session) :
    SameRecords (s.filesChanged disk events) (s.filesChanged disk events') := by
  constructor
  · exact get?_eachFileChanged_perm disk hdistinct hperm _
  · unfold filesChanged
    rw [(eachFileChanged_keeps disk events _).right, (eachFileChanged_keeps disk events' _).right]
    exact ModuleLookup.invalidateEach_perm hperm _
  · exact (eachFileChanged_missing disk rfl events).trans
      (eachFileChanged_missing disk rfl events').symm
  · exact (eachFileChanged_scanned disk events _).trans
      (eachFileChanged_scanned disk events' _).symm

/-- What comes of a batch of file events does not depend on their order. -/
structure OrderFree (disk : Files Id) (s : Session) : Prop where
  permuted : forall events events', DistinctFiles events -> events.Perm events' ->
    SameRecords (s.filesChanged disk events) (s.filesChanged disk events')
  /-- An event leaves the record that it would leave on its own. -/
  named : forall events event p, DistinctFiles events -> event ∈ events ->
    FileUri.toPath? event.uri = some p ->
      (s.filesChanged disk events).index.record? p = s.recordAfter disk event.change p
  unnamed : forall events k, (forall event, event ∈ events -> ¬ event.uri.Names k) ->
    (s.filesChanged disk events).index.byPath.get? k = s.index.byPath.get? k
  /-- The index does not follow an open file. -/
  openFile : forall event p, FileUri.toPath? event.uri = some p -> event.change ≠ .deleted ->
    s.overlay.isOpen p = true ->
      (s.filesChanged disk [event]).index.byPath = s.index.byPath ∧
        (s.filesChanged disk [event]).index.byModule = s.index.byModule ∧
        forall before after, (s.filesChanged disk (before ++ event :: after)).index =
          (s.filesChanged disk (before ++ after)).index

theorem filesChanged_orderFree (disk : Files Id) (s : Session) : OrderFree disk s := by
  constructor
  · intro events events' hdistinct hperm
    exact filesChanged_perm disk hdistinct hperm s
  · intro events event p hdistinct hevent hpath
    exact record?_eachFileChanged_of_mem disk hdistinct hevent hpath _
  · intro events k hothers
    exact get?_eachFileChanged_of_not_names disk hothers _
  · intro event p hpath hchange hopen
    have hignored (before after : List FileEvent) :
        (s.filesChanged disk (before ++ event :: after)).index =
          (s.filesChanged disk (before ++ after)).index :=
      eachFileChanged_ignores disk hpath hchange hopen
    refine ⟨?_, ?_, hignored⟩
    · exact congrArg (·.byPath) (hignored [] [])
    · exact congrArg (·.byModule) (hignored [] [])

/-- Two files turn up that hold the same module.  Both have their records in any case, but the
module is the one of the file that was named last. -/
theorem filesChanged_orderFree_same_module :
    let module := Node.file (.text "module A exposing (..)\nx = y\n")
    let disk := ((Tree.empty.write (Path.ofString "/w/A.elm") module).write
      (Path.ofString "/w/B.elm") module).files
    let s := ((Session.new (Path.ofString "/w") .default).workspaceSymbols Tree.empty.files "x").2
    let first := FileEvent.mk (Uri.mk "file:///w/A.elm") .created
    let second := FileEvent.mk (Uri.mk "file:///w/B.elm") .created
    let forth := s.filesChanged disk [first, second]
    let back := s.filesChanged disk [second, first]
    DistinctFiles [first, second] ∧ SameRecords forth back ∧
      (forth.index.record? (Path.ofString "/w/A.elm")).isSome ∧
      (forth.index.module? "A").map (·.path) = some (Path.ofString "/w/B.elm") ∧
      (back.index.module? "A").map (·.path) = some (Path.ofString "/w/A.elm") := by
  intro module disk s first second forth back
  have hdistinct : DistinctFiles [first, second] := by decide +kernel
  have hsame := (filesChanged_orderFree disk s).permuted [first, second] [second, first] hdistinct
    (List.Perm.swap second first [])
  exact ⟨hdistinct, hsame, by decide +kernel⟩

end Session
end ElmNavigator
