import ElmNavigator.Proofs.Workspace.QueryHistory

/-!
# Modules that are remembered as missing

An index notes each module for which it has looked in vain, and does not look for it
again until something changes.  As long as the files stay as they are, this cannot be
seen in its answers: the search that is left out would be in vain again.

The index is compared with one that remembers nothing.  The two go through the same
tables, since a module that is noted has no single file that can be read, under the
root and the exclusion of the index at that time.
-/

namespace ElmNavigator
namespace SymbolIndex

open Disk

variable {files : Files Id} {ix : SymbolIndex}

/-!
## An index that remembers nothing
-/

/-- Answers a query without a memory: a module that is not indexed is looked for each time. -/
def queryAfresh (files : Files Id) (text : String) (ix : SymbolIndex) :
    List Symbol × SymbolIndex :=
  match SymbolQuery.parse text with
  | .qualified module name =>
      let next := if ix.byModule.has module then ix else (ix.indexModule files module).2
      (next.named module name, next)
  | .bare _ => ix.query files text

def Operation.runAfresh (files : Files Id) (ix : SymbolIndex) : Operation -> SymbolIndex
  | .query text => (ix.queryAfresh files text).2.clearMissing
  | operation => SymbolIndex.clearMissing (operation.run files ix)

def runAllAfresh (files : Files Id) (operations : List Operation) (ix : SymbolIndex) :
    SymbolIndex :=
  operations.foldl (Operation.runAfresh files) ix

/-!
## What the memory has no part in
-/

theorem clearMissing_addMissing (ix : SymbolIndex) (name : String) :
    (ix.addMissing name).clearMissing = ix.clearMissing := by
  unfold addMissing
  split
  · rfl
  · rfl

theorem clearMissing_indexPath (files : Files Id) (p : Path) (ix : SymbolIndex) :
    (ix.clearMissing.indexPath files p).2.clearMissing =
      (ix.indexPath files p).2.clearMissing := by
  rw [indexPath_eq, indexPath_eq]
  cases files.read p with
  | ok text => rfl
  | error e => rfl

theorem clearMissing_indexModule (files : Files Id) (name : String) (ix : SymbolIndex) :
    (ix.clearMissing.indexModule files name).2.clearMissing =
      (ix.indexModule files name).2.clearMissing := by
  have hfind : files.find ix.clearMissing.root (filePattern name) ix.clearMissing.exclude 2 =
      files.find ix.root (filePattern name) ix.exclude 2 := rfl
  have hmissed : (ix.clearMissing.addMissing name).clearMissing =
      (ix.addMissing name).clearMissing := by
    rw [clearMissing_addMissing, clearMissing_addMissing]
    rfl
  rw [indexModule_eq, indexModule_eq, hfind]
  split
  · rfl
  · rw [indexPath_eq, indexPath_eq]
    split
    · rfl
    · exact hmissed
  · exact hmissed

theorem clearMissing_replay (ix : SymbolIndex) (log : List Edit) :
    (ix.clearMissing.replay log).clearMissing = (ix.replay log).clearMissing := by
  cases log with
  | nil => rfl
  | cons edit log =>
      -- The first edit clears the memory itself.
      have hfirst : edit.apply ix.clearMissing = edit.apply ix := by
        cases edit with
        | update p text => rfl
        | remove p => rfl
      show ((edit.apply ix.clearMissing).replay log).clearMissing = _
      rw [hfirst]
      rfl

theorem clearMissing_fullScan (files : Files Id) (ix : SymbolIndex) :
    SymbolIndex.clearMissing (ix.clearMissing.fullScan files) =
      SymbolIndex.clearMissing (ix.fullScan files) := by
  have hfind : files.find ix.clearMissing.root allFiles ix.clearMissing.exclude
      ix.clearMissing.maxFiles = files.find ix.root allFiles ix.exclude ix.maxFiles := rfl
  rw [fullScan_eq, fullScan_eq, hfind]
  split
  · rfl
  · rw [scanFiles_eq_replay, scanFiles_eq_replay]
    exact clearMissing_replay { ix with scanned := true } _

theorem clearMissing_reconfigure (ix : SymbolIndex) (settings : Settings) :
    (ix.clearMissing.reconfigure settings).clearMissing =
      (ix.reconfigure settings).clearMissing := by
  have hcleared : ix.clearMissing.reconfigure settings =
      if settings.maxFiles = ix.maxFiles ∧ settings.exclude? = ix.exclude then ix.clearMissing
      else new ix.root settings := rfl
  rw [hcleared, reconfigure]
  split
  · rfl
  · rfl

/-!
## What the memory holds
-/

/-- There is no single file for a module, or it cannot be read. -/
def Unfindable (files : Files Id) (root : Path) (exclude : Option String) (name : String) :
    Prop :=
  forall p text, files.find root (filePattern name) exclude 2 = .ok [p] ->
    files.read p ≠ .ok text

/-- The modules that an index has noted would be looked for in vain. -/
def RecallsMisses (files : Files Id) (ix : SymbolIndex) : Prop :=
  forall name, name ∈ ix.missing -> Unfindable files ix.root ix.exclude name

theorem Unfindable.indexModule {name : String}
    (h : Unfindable files ix.root ix.exclude name) :
    (ix.indexModule files name).2.clearMissing = ix.clearMissing := by
  rw [indexModule_eq]
  split
  · rfl
  · rename_i p hfind
    rw [indexPath_eq]
    cases hread : files.read p with
    | ok text => exact absurd hread (h p text hfind)
    | error e => exact clearMissing_addMissing ix name
  · exact clearMissing_addMissing ix name

theorem recallsMisses_of_nil (h : ix.missing = []) : ix.RecallsMisses files := by
  intro name hname
  rw [h] at hname
  cases hname

theorem RecallsMisses.addMissing (h : ix.RecallsMisses files) {name : String}
    (hname : Unfindable files ix.root ix.exclude name) :
    (ix.addMissing name).RecallsMisses files := by
  unfold SymbolIndex.addMissing
  split
  · exact h
  · intro other hother
    rcases List.mem_cons.mp hother with hhead | htail
    · rw [hhead]
      exact hname
    · exact h other htail

theorem RecallsMisses.indexPath (h : ix.RecallsMisses files) (p : Path) :
    (ix.indexPath files p).2.RecallsMisses files := by
  rw [indexPath_eq]
  split
  · exact recallsMisses_of_nil (ix.missing_update p _)
  · exact h

theorem RecallsMisses.indexModule (h : ix.RecallsMisses files) (name : String) :
    (ix.indexModule files name).2.RecallsMisses files := by
  rw [indexModule_eq]
  split
  · exact h
  · rename_i p hfind
    rw [indexPath_eq]
    cases hread : files.read p with
    | ok text => exact recallsMisses_of_nil (ix.missing_update p text)
    | error e =>
        apply h.addMissing
        intro q text hq hok
        rw [hfind] at hq
        injection hq with hq
        injection hq with hq
        rw [← hq, hread] at hok
        cases hok
  · rename_i paths hsingle hfind
    apply h.addMissing
    intro p text hp
    rw [hfind] at hp
    injection hp with hp
    exact absurd hp (hsingle p)

theorem RecallsMisses.replay (h : ix.RecallsMisses files) (log : List Edit) :
    (ix.replay log).RecallsMisses files := by
  induction log generalizing ix with
  | nil => exact h
  | cons edit log ih =>
      apply ih
      cases edit with
      | update p text => exact recallsMisses_of_nil (ix.missing_update p text)
      | remove p => exact recallsMisses_of_nil (ix.missing_remove p)

theorem RecallsMisses.fullScan (h : ix.RecallsMisses files) :
    SymbolIndex.RecallsMisses files (ix.fullScan files) := by
  rw [fullScan_eq]
  split
  · exact h
  · have hscanned : RecallsMisses files { ix with scanned := true } := h
    rw [scanFiles_eq_replay]
    exact hscanned.replay _

theorem RecallsMisses.query (h : ix.RecallsMisses files) (text : String) :
    (ix.query files text).2.RecallsMisses files := by
  rw [query_eq]
  cases SymbolQuery.parse text with
  | qualified module name =>
      simp only
      split
      · exact h
      · exact h.indexModule module
  | bare text =>
      simp only
      split
      · exact h
      · exact h.fullScan

/-!
## Runs side by side
-/

theorem RecallsMisses.run (h : ix.RecallsMisses files) (operation : Operation) :
    SymbolIndex.RecallsMisses files (operation.run files ix) := by
  cases operation with
  | update p text => exact recallsMisses_of_nil (ix.missing_update p text)
  | indexPath p => exact h.indexPath p
  | indexModule name => exact h.indexModule name
  | fullScan => exact h.fullScan
  | remove p => exact recallsMisses_of_nil (ix.missing_remove p)
  | query text => exact h.query text
  | clearMissing => exact recallsMisses_of_nil rfl
  | reconfigure settings =>
      rcases reconfigure_cases ix settings with ⟨hsame, _⟩ | hnew
      · show (ix.reconfigure settings).RecallsMisses files
        rw [hsame]
        exact h
      · show (ix.reconfigure settings).RecallsMisses files
        rw [hnew]
        exact recallsMisses_of_nil rfl

theorem RecallsMisses.ensured (h : ix.RecallsMisses files) (module : String) :
    (if ix.clearMissing.byModule.has module then ix.clearMissing
      else (ix.clearMissing.indexModule files module).2).clearMissing =
    (if ix.byModule.has module || ix.missing.contains module then ix
      else (ix.indexModule files module).2).clearMissing := by
  have hsame : ix.clearMissing.byModule = ix.byModule := rfl
  rw [hsame]
  cases ix.byModule.has module with
  | true => rfl
  | false =>
      rw [if_neg Bool.false_ne_true, Bool.false_or]
      show (ix.clearMissing.indexModule files module).2.clearMissing = _
      rw [clearMissing_indexModule]
      split
      · -- The module is noted, so the search that is left out changes nothing.
        rename_i hnoted
        exact (h module (List.contains_iff_mem.mp hnoted)).indexModule
      · rfl

theorem RecallsMisses.queryAfresh (h : ix.RecallsMisses files) (text : String) :
    (ix.clearMissing.queryAfresh files text).1 = (ix.query files text).1 ∧
      (ix.clearMissing.queryAfresh files text).2.clearMissing =
        (ix.query files text).2.clearMissing := by
  unfold SymbolIndex.queryAfresh
  cases hparse : SymbolQuery.parse text with
  | qualified module name =>
      have htables := h.ensured module
      simp only [query_eq, hparse]
      exact ⟨congrArg (fun next => next.named module name) htables, htables⟩
  | bare asked =>
      have htables : SymbolIndex.clearMissing (if ix.clearMissing.scanned then ix.clearMissing
            else ix.clearMissing.fullScan files) =
          SymbolIndex.clearMissing (if ix.scanned then ix else ix.fullScan files) := by
        show SymbolIndex.clearMissing (if ix.scanned then ix.clearMissing
            else ix.clearMissing.fullScan files) = _
        split
        · rfl
        · exact clearMissing_fullScan files ix
      simp only [query_eq, hparse]
      exact ⟨congrArg (fun next => next.startingWith asked) htables, htables⟩

theorem RecallsMisses.runAfresh (h : ix.RecallsMisses files) (operation : Operation) :
    operation.runAfresh files ix.clearMissing =
      SymbolIndex.clearMissing (operation.run files ix) := by
  cases operation with
  | update p text => rfl
  | indexPath p => exact clearMissing_indexPath files p ix
  | indexModule name => exact clearMissing_indexModule files name ix
  | fullScan => exact clearMissing_fullScan files ix
  | remove p => rfl
  | query text => exact (h.queryAfresh text).2
  | clearMissing => rfl
  | reconfigure settings => exact clearMissing_reconfigure ix settings

theorem RecallsMisses.runAll (h : ix.RecallsMisses files) (operations : List Operation) :
    SymbolIndex.RecallsMisses files (runAll files operations ix) ∧
      runAllAfresh files operations ix.clearMissing =
        SymbolIndex.clearMissing (SymbolIndex.runAll files operations ix) := by
  induction operations generalizing ix with
  | nil => exact ⟨h, rfl⟩
  | cons operation operations ih =>
      have hrest := ih (h.run operation)
      refine ⟨hrest.1, ?_⟩
      show runAllAfresh files operations (operation.runAfresh files ix.clearMissing) = _
      rw [h.runAfresh operation]
      exact hrest.2

/-- On files that stay as they are, an index that notes missing modules answers every query of
every run like one that remembers nothing, and has the same tables. -/
theorem query_eq_queryAfresh (files : Files Id) (root : Path) (settings : Settings)
    (operations : List Operation) (text : String) :
    let ix := runAll files operations (new root settings)
    let forgetful := runAllAfresh files operations (new root settings)
    (SymbolIndex.query files text ix).1 = (forgetful.queryAfresh files text).1 ∧
      forgetful = SymbolIndex.clearMissing ix := by
  intro ix forgetful
  have hnew : (new root settings).RecallsMisses files := recallsMisses_of_nil rfl
  rcases hnew.runAll operations with ⟨hrecalls, hsame⟩
  have hforgetful : forgetful = SymbolIndex.clearMissing ix := hsame
  refine ⟨?_, hforgetful⟩
  rw [hforgetful]
  exact (hrecalls.queryAfresh text).1.symm

end SymbolIndex
end ElmNavigator
