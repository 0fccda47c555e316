import ElmNavigator.Proofs.Workspace.EditLog

/-!
# How far a scan gets

A scan reads the files of a listing one after the other.  A file that is not UTF-8
loses its record.  Any other file that cannot be read ends the scan, and what has been
done up to there is kept.

Files may answer differently from one time to the next.  What a scan does is an edit
for each answer that lets it go on, so it comes down to the log of these edits.
-/

namespace ElmNavigator
namespace SymbolIndex

open Disk

def goesOn : Except AccessError String -> Bool
  | .ok _ => true
  | .error e => e = .notUtf8

/-- The files that a scan gets through: those in front of the first that ends it. -/
def gotThrough (readings : List (Path × Except AccessError String)) :
    List (Path × Except AccessError String) :=
  readings.takeWhile fun reading => goesOn reading.2

/-- What a scan does with a file that has given an answer. -/
def Edit.ofReading (p : Path) : Except AccessError String -> Edit
  | .ok text => .update p text
  | .error _ => .remove p

theorem Edit.path_ofReading (p : Path) (answer : Except AccessError String) :
    (Edit.ofReading p answer).path = p.normalize := by
  cases answer with
  | ok text => rfl
  | error e => rfl

theorem Edit.record?_ofReading (p : Path) (answer : Except AccessError String) :
    (Edit.ofReading p answer).record? = recordIn? p.normalize answer := by
  cases answer with
  | ok text => rfl
  | error e => rfl

/-!
## Edits of different files
-/

section Edits

variable {log : List Edit} {p : Path}

theorem get?_byPath_replay_of_untouched (h : forall edit, edit ∈ log -> edit.path ≠ p)
    (ix : SymbolIndex) : (ix.replay log).byPath.get? p = ix.byPath.get? p := by
  have hnone : log.filter (fun edit => edit.path = p) = [] := by
    rw [List.filter_eq_nil_iff]
    intro edit hedit
    simpa using h edit hedit
  rw [get?_byPath_replay_filter, hnone]
  rfl

theorem get?_byPath_replay_of_mem (h : (log.map Edit.path).Nodup) {edit : Edit}
    (hedit : edit ∈ log) (ix : SymbolIndex) :
    (ix.replay log).byPath.get? edit.path = edit.record? := by
  induction log generalizing ix with
  | nil =>
      cases hedit
  | cons first log ih =>
      rcases List.nodup_cons.mp h with ⟨hfresh, hrest⟩
      rcases List.mem_cons.mp hedit with hfirst | hlater
      · -- No later edit is about the same file.
        have huntouched : forall later, later ∈ log -> later.path ≠ edit.path := by
          intro later hlater heq
          apply hfresh
          rw [← hfirst, ← heq]
          exact List.mem_map_of_mem hlater
        have hreplay := get?_byPath_replay_of_untouched huntouched (first.apply ix)
        rw [get?_byPath_apply, ← hfirst, if_pos rfl] at hreplay
        rw [hfirst] at hreplay ⊢
        exact hreplay
      · exact ih hrest hlater (first.apply ix)

theorem replay_setup (ix : SymbolIndex) (log : List Edit) : SameSetup ix (ix.replay log) := by
  induction log generalizing ix with
  | nil =>
      exact ⟨rfl, rfl, rfl⟩
  | cons edit log ih =>
      have hfirst : SameSetup ix (edit.apply ix) := by
        cases edit with
        | update p text => exact ix.update_setup p text
        | remove p => exact ix.remove_setup p
      exact hfirst.trans (ih (edit.apply ix))

end Edits

/-!
## Scans
-/

section Scans

variable {World : Type} (files : Files (StateM World))

theorem scanFiles_run_cons (p : Path) (ps : List Path) (ix : SymbolIndex) (world : World) :
    (scanFiles files (p :: ps) ix).run world =
      if goesOn ((files.read p).run world).1 then
        (scanFiles files ps ((Edit.ofReading p ((files.read p).run world).1).apply ix)).run
          ((files.read p).run world).2
      else (ix, ((files.read p).run world).2) := by
  rw [scanFiles, StateT.run_bind]
  rcases hread : (files.read p).run world with ⟨answer, after⟩
  cases answer with
  | ok text => rfl
  | error e => cases e <;> rfl

theorem mapM_read_cons (p : Path) (ps : List Path) (world : World) :
    (((p :: ps).mapM files.read).run world).1 =
      ((files.read p).run world).1 ::
        ((ps.mapM files.read).run ((files.read p).run world).2).1 := by
  rw [List.mapM_cons]
  rfl

theorem length_mapM_read (paths : List Path) (world : World) :
    ((paths.mapM files.read).run world).1.length = paths.length := by
  induction paths generalizing world with
  | nil => rfl
  | cons p ps ih => rw [mapM_read_cons, List.length_cons, List.length_cons, ih]

theorem scanFiles_run (paths : List Path) (ix : SymbolIndex) (world : World) :
    ((scanFiles files paths ix).run world).1 =
      ix.replay ((gotThrough (paths.zip ((paths.mapM files.read).run world).1)).map
        fun reading => Edit.ofReading reading.1 reading.2) := by
  induction paths generalizing ix world with
  | nil =>
      rfl
  | cons p ps ih =>
      rw [scanFiles_run_cons, mapM_read_cons, List.zip_cons_cons, gotThrough,
        List.takeWhile_cons]
      split
      · exact ih _ _
      · rfl

theorem scanFiles_progress {paths : List Path} (h : (paths.map Path.normalize).Nodup)
    (ix : SymbolIndex) (world : World) :
    let next := ((scanFiles files paths ix).run world).1
    let done := gotThrough (paths.zip ((paths.mapM files.read).run world).1)
    (forall p answer, (p, answer) ∈ done ->
      next.byPath.get? p.normalize = recordIn? p.normalize answer) ∧
    forall q, (forall p answer, (p, answer) ∈ done -> p.normalize ≠ q) ->
      next.byPath.get? q = ix.byPath.get? q := by
  intro next done
  let log := done.map fun reading => Edit.ofReading reading.1 reading.2
  have hnext : next = ix.replay log := scanFiles_run files paths ix world
  have hpaths : log.map Edit.path = done.map fun reading => reading.1.normalize := by
    rw [List.map_map]
    exact List.map_congr_left fun reading _ => Edit.path_ofReading reading.1 reading.2
  have hdistinct : (log.map Edit.path).Nodup := by
    have hfirst : (paths.zip ((paths.mapM files.read).run world).1).map Prod.fst = paths :=
      List.map_fst_zip (length_mapM_read files paths world).ge
    have hnormal : done.map (fun reading => reading.1.normalize) =
        (done.map Prod.fst).map Path.normalize := by
      rw [List.map_map]
      rfl
    rw [hpaths, hnormal]
    rw [← hfirst] at h
    exact h.sublist (((List.takeWhile_sublist _).map _).map _)
  rw [hnext]
  constructor
  · intro p answer hmem
    have hedit : Edit.ofReading p answer ∈ log :=
      List.mem_map_of_mem (f := fun reading => Edit.ofReading reading.1 reading.2) hmem
    have hrecord := get?_byPath_replay_of_mem hdistinct hedit ix
    rw [Edit.path_ofReading, Edit.record?_ofReading] at hrecord
    exact hrecord
  · intro q hq
    apply get?_byPath_replay_of_untouched
    intro edit hedit
    rcases List.mem_map.mp hedit with ⟨⟨p, answer⟩, hmem, hreading⟩
    rw [← hreading, Edit.path_ofReading]
    exact hq p answer hmem

theorem fullScan_run (ix : SymbolIndex) (world : World) :
    (ix.fullScan files).run world =
      match (files.find ix.root allFiles ix.exclude ix.maxFiles).run world with
      | (.error _, after) => ({ ix with scanned := true }, after)
      | (.ok paths, after) => (scanFiles files paths { ix with scanned := true }).run after := by
  rw [fullScan, StateT.run_bind]
  rcases (files.find ix.root allFiles ix.exclude ix.maxFiles).run world with ⟨answer, after⟩
  cases answer with
  | error e => rfl
  | ok paths => rfl

/-- A scan counts as done in any case.  Without a listing it changes nothing.  Otherwise each file
in front of the first that ends the scan has the record of what was read, and every other path has
the record that it had.  The `answers` of the files are those of reading them in this order; from
the first that ends the scan on they play no part. -/
theorem fullScan_progress (ix : SymbolIndex) (world : World) :
    let listing := (files.find ix.root allFiles ix.exclude ix.maxFiles).run world
    let next := ((ix.fullScan files).run world).1
    next.scanned = true ∧
    (forall e, listing.1 = .error e ->
      next.byPath = ix.byPath ∧ next.byModule = ix.byModule) ∧
    forall paths, listing.1 = .ok paths -> (paths.map Path.normalize).Nodup ->
      let answers := ((paths.mapM files.read).run listing.2).1
      (forall p answer, (p, answer) ∈ gotThrough (paths.zip answers) ->
        next.byPath.get? p.normalize = recordIn? p.normalize answer) ∧
      forall q, (forall p answer, (p, answer) ∈ gotThrough (paths.zip answers) ->
          p.normalize ≠ q) ->
        next.byPath.get? q = ix.byPath.get? q := by
  intro listing next
  have hnext : next = ((ix.fullScan files).run world).1 := rfl
  rw [fullScan_run] at hnext
  have hlisting : (files.find ix.root allFiles ix.exclude ix.maxFiles).run world = listing := rfl
  rw [hlisting] at hnext
  rcases listing with ⟨answer, after⟩
  cases answer with
  | error e =>
      rw [hnext]
      refine ⟨rfl, fun _ _ => ⟨rfl, rfl⟩, ?_⟩
      intro paths hpaths
      cases hpaths
  | ok paths =>
      rw [hnext]
      refine ⟨?_, ?_, ?_⟩
      · simp only [scanFiles_run]
        exact (replay_setup _ _).2.2
      · intro e he
        cases he
      · intro others hothers hdistinct
        injection hothers with hothers
        subst hothers
        exact scanFiles_progress files hdistinct { ix with scanned := true } after

end Scans

/-- A disk with four module files, of which the second is not UTF-8. -/
def fourFiles : Tree :=
  { entries := [(Place.ofNames ["w"], .directory),
      (Place.ofNames ["w", "A.elm"], .file (.text "module A exposing (..)\nx = 1\n")),
      (Place.ofNames ["w", "B.elm"], .file .binary),
      (Place.ofNames ["w", "C.elm"], .file (.text "module C exposing (..)\nx = 1\n")),
      (Place.ofNames ["w", "D.elm"], .file (.text "module D exposing (..)\nx = 1\n"))],
    workingDir := [] }

/-- The same files, of which the third may not be read. -/
def guardedFiles : Files (StateM Unit) where
  read p := pure <|
    if p = Path.ofString "/w/C.elm" then .error .permissionDenied else fourFiles.read p
  find root pattern exclude limit := pure (fourFiles.find root pattern exclude limit)

/-- The second file loses its record, and the last one keeps the record that it had. -/
theorem fullScan_progress_guarded :
    let first := Path.ofString "/w/A.elm"
    let second := Path.ofString "/w/B.elm"
    let last := Path.ofString "/w/D.elm"
    let ix := (new (Path.ofString "/w") .default).replay
      [.update second "module B exposing (..)\n", .update last "module E exposing (..)\n"]
    let next := ((ix.fullScan guardedFiles).run ()).1
    next.scanned = true ∧
      next.byPath.get? first = recordOf? first "module A exposing (..)\nx = 1\n" ∧
      ix.byPath.get? second ≠ none ∧ next.byPath.get? second = none ∧
      ix.byPath.get? last ≠ none ∧ next.byPath.get? last = ix.byPath.get? last := by
  intro first second last ix next
  have hlisting : ((guardedFiles.find ix.root allFiles ix.exclude ix.maxFiles).run ()).1 =
      .ok [first, second, Path.ofString "/w/C.elm", last] := by
    decide +kernel
  rcases fullScan_progress guardedFiles ix () with ⟨hscanned, _, hlisted⟩
  rcases hlisted _ hlisting (by decide) with ⟨hdone, hothers⟩
  generalize hthrough : gotThrough _ = done at hdone hothers
  have hread : done = [(first, .ok "module A exposing (..)\nx = 1\n"),
      (second, .error .notUtf8)] := by
    rw [← hthrough]
    decide +kernel
  subst hread
  refine ⟨hscanned, ?_, by decide +kernel, ?_, by decide +kernel, ?_⟩
  · exact hdone first (.ok "module A exposing (..)\nx = 1\n") List.mem_cons_self
  · exact hdone second (.error .notUtf8) (List.mem_cons_of_mem _ List.mem_cons_self)
  · apply hothers
    intro p answer hmem
    rcases List.mem_cons.mp hmem with hfirst | hrest
    · injection hfirst with hp
      rw [hp]
      decide
    · injection List.mem_singleton.mp hrest with hp
      rw [hp]
      decide

end SymbolIndex
end ElmNavigator
