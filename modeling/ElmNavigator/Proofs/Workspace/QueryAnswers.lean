import ElmNavigator.Proofs.Workspace.Exclusion
import ElmNavigator.Proofs.Workspace.ListingLog
import ElmNavigator.Proofs.Workspace.QueryHistory
import ElmNavigator.Proofs.Workspace.ScanProgress

/-!
# Answers to queries, however the files answer

A query for a name in a module is answered from the record that the name of the module
leads to, and from nothing else.  A bare query is answered from the records of all
files.  Before the first one the workspace is scanned, and not again until the
settings change, whatever became of the scan.

Nothing is assumed of the files.  They may fail, and they may answer differently each
time, as a world decides that every answer can change.
-/

namespace ElmNavigator

open Text

/-!
## The two kinds of queries
-/

namespace SymbolQuery

theorem eq_append_of_splitAtFirst? {sep : Char} {text before after : List Char}
    (h : splitAtFirst? sep text = some (before, after)) : text = before ++ sep :: after := by
  induction text generalizing before after with
  | nil =>
      cases h
  | cons c cs ih =>
      rw [splitAtFirst?] at h
      split at h
      · rename_i hc
        injection h with h
        injection h with hbefore hafter
        rw [← hbefore, ← hafter, hc]
        rfl
      · rcases Option.map_eq_some_iff.mp h with ⟨⟨front, back⟩, hsplit, heq⟩
        injection heq with hbefore hafter
        rw [← hbefore, ← hafter, ih hsplit]
        rfl

theorem colon_not_mem_of_isModuleName {module : List Char} (h : isModuleName module = true) :
    ':' ∉ module := by
  intro hmem
  rcases Path.exists_mem_splitOn (by decide : ':' ≠ '.') hmem with ⟨part, hpart, hcolon⟩
  have hnamed := List.all_eq_true.mp h part hpart
  exact absurd (Glob.isOrdinary_of_isNamePart hnamed hcolon) (by decide)

theorem parse_eq_qualified_iff {text module name : String} :
    parse text = .qualified module name ↔
      isModuleName module.toList = true ∧ text = textOf module name := by
  have hchars : (textOf module name).toList = module.toList ++ ':' :: name.toList := by
    simp [textOf]
  unfold parse
  constructor
  · intro h
    split at h
    · rename_i before after hsplit
      split at h
      · rename_i hname
        injection h with hmodule hrest
        subst hmodule hrest
        refine ⟨by rw [String.toList_ofList]; exact hname, ?_⟩
        apply String.toList_inj.mp
        rw [hchars, String.toList_ofList, String.toList_ofList]
        exact eq_append_of_splitAtFirst? hsplit
      · cases h
    · cases h
  · rintro ⟨hname, htext⟩
    rw [htext, hchars, Syntax.splitAtFirst?_append (colon_not_mem_of_isModuleName hname)]
    simp [hname]

theorem parse_eq_bare {text : String}
    (h : forall module name, isModuleName module.toList = true -> text ≠ textOf module name) :
    parse text = .bare text := by
  cases hparse : parse text with
  | qualified module name =>
      rcases parse_eq_qualified_iff.mp hparse with ⟨hname, htext⟩
      exact absurd htext (h module name hname)
  | bare bare =>
      unfold parse at hparse
      split at hparse
      · split at hparse
        · cases hparse
        · rw [hparse]
      · rw [hparse]

end SymbolQuery

namespace SymbolIndex

open SymbolQuery

section Answers

variable {World : Type} (files : Files (StateM World))

theorem evolves_runAll_query (operations : List Operation) (text : String) (ix : SymbolIndex)
    (world : World) :
    let reached := (runAll files operations ix).run world
    Evolves ix ((reached.1.query files text).run reached.2).1.2 := by
  intro reached
  have hreached : Evolves ix reached.1 :=
    runAll_evolves (canReturn_run (runAll files operations ix) world)
  exact hreached.trans (query_evolves (canReturn_run (reached.1.query files text) reached.2))

/-!
## Queries for a name in a module
-/

theorem query_answer_qualified {text module name : String}
    (hparse : parse text = .qualified module name) (ix : SymbolIndex) (world : World) :
    ((ix.query files text).run world).1.1 =
      ((ix.query files text).run world).1.2.named module name := by
  unfold query
  rw [hparse]
  rfl

/-- After every run, a query for a name in a module gives the symbols of this name in the record
that the module has then, in their order, and nothing if it has none.  They are of this module and
of the one file of the record.  The query asks for no scan. -/
theorem qualified_query_exact (operations : List Operation) (root : Path) (settings : Settings)
    (world : World) {module : String} (hmodule : isModuleName module.toList = true)
    (name : String) :
    let reached := (runAll files operations (new root settings)).run world
    let answered := (reached.1.query files (textOf module name)).run reached.2
    let answer := answered.1.1
    let next := answered.1.2
    (next.byModule.get? module = none -> answer = []) ∧
    (forall r, next.byModule.get? module = some r ->
      answer = r.symbols.filter (·.name = name) ∧
        forall s, s ∈ answer ->
          s.name = name ∧ s.container = module ∧ s.uri = FileUri.ofPath r.path) ∧
    next.scanned = reached.1.scanned ∧
    exists listed, allFiles ∉ listed ∧
      ((reached.1.query files.logged (textOf module name)).run []).run reached.2 =
        ((answered.1, listed), answered.2) := by
  intro reached answered answer next
  have hparse : parse (textOf module name) = .qualified module name :=
    parse_eq_qualified_iff.mpr ⟨hmodule, rfl⟩
  have hanswer : answer = next.named module name :=
    query_answer_qualified files hparse reached.1 reached.2
  have hconsistent : next.Consistent :=
    (new_consistent root settings).evolves
      (evolves_runAll_query files operations (textOf module name) (new root settings) world)
  rcases query_logs_qualified files hparse reached.1 [] reached.2 with
    ⟨listed, ⟨hlisted, hplan⟩, hlog⟩
  refine ⟨?_, ?_, hplan.setup.2.2, listed, hlisted, hlog⟩
  · intro hnone
    rw [hanswer, named_eq, module?, hnone]
    rfl
  · intro r hr
    have hfilter : next.named module name = r.symbols.filter (·.name = name) := by
      rw [named_eq, module?, hr]
      rfl
    rw [hanswer]
    refine ⟨hfilter, ?_⟩
    intro s hs
    rcases hconsistent.mem_named hs with ⟨hname, hcontainer⟩
    rw [hfilter] at hs
    have hrecord := hconsistent.describes r.path r (hconsistent.reachable module r hr)
    exact ⟨hname, hcontainer, hrecord.uri s (List.mem_of_mem_filter hs)⟩

/-- A module is looked for after another one has been indexed. -/
theorem qualified_query_exact_guarded :
    let reached := (runAll guardedFiles [.indexModule "A"]
      (new (Path.ofString "/w") .default)).run ()
    let answered := (reached.1.query guardedFiles (textOf "D" "x")).run reached.2
    exists r, answered.1.2.byModule.get? "D" = some r ∧
      answered.1.1 = r.symbols.filter (·.name = "x") ∧ answered.1.1 ≠ [] ∧
      answered.1.2.scanned = false := by
  intro reached answered
  have hfound : (answered.1.2.byModule.get? "D").isSome = true := by
    decide +kernel
  have hnonempty : answered.1.1 ≠ [] := by
    decide +kernel
  have hunscanned : reached.1.scanned = false := by
    decide +kernel
  have hexact := qualified_query_exact guardedFiles [.indexModule "A"] (Path.ofString "/w")
    .default () (by decide : isModuleName "D".toList = true) "x"
  extract_lets answer next at hexact
  rcases hexact with ⟨_, hrecord, hscanned, _⟩
  rcases Option.isSome_iff_exists.mp hfound with ⟨r, hr⟩
  -- From here on the run is not to be evaluated.
  clear_value answered
  exact ⟨r, hr, (hrecord r hr).1, hnonempty, hscanned.trans hunscanned⟩

/-!
## Bare queries
-/

/-- The symbols of the file at a path whose name a text starts with. -/
def matchesAt (ix : SymbolIndex) (text : String) (p : Path) : List Symbol :=
  (ix.byPath.get? p).elim [] fun r =>
    r.symbols.filter fun s => s.name.toList <+: text.toList

theorem startingWith_eq_flatMap {ix : SymbolIndex} (h : Table.Distinct ix.byPath)
    (text : String) :
    ix.startingWith text = (ix.byPath.map Prod.fst).flatMap (ix.matchesAt text) := by
  unfold startingWith matching Table.values
  rw [List.filter_flatMap, List.flatMap_map, List.flatMap_map]
  apply List.flatMap_congr
  rintro ⟨p, r⟩ hentry
  rw [matchesAt, h.mem_iff.mp hentry, Option.elim_some]
  apply List.filter_congr
  intro s _
  rw [Bool.eq_iff_iff, List.isPrefixOf_iff_prefix, decide_eq_true_iff]

theorem query_run_bare {text bare : String} (hparse : parse text = .bare bare)
    (ix : SymbolIndex) (world : World) :
    (ix.query files text).run world =
      let scan := if ix.scanned then (ix, world) else (ix.fullScan files).run world
      ((scan.1.startingWith bare, scan.1), scan.2) := by
  unfold query ensureScanned
  rw [hparse]
  cases ix.scanned with
  | true => rfl
  | false => rfl

/-- After every run, a bare query gives the symbols of all files in the index whose name it starts
with, once the workspace has been scanned.  From there on, as long as new settings fit, queries
ask for one scan at most. -/
theorem bare_query_exact (before : List Operation) (root : Path) (settings : Settings)
    (world : World) :
    let reached := (runAll files before (new root settings)).run world
    let ix := reached.1
    (forall text, (forall module name, isModuleName module.toList = true ->
        text ≠ textOf module name) ->
      let scan := if ix.scanned then reached else (ix.fullScan files).run reached.2
      exists (answer : List Symbol) (paths : List Path),
        (ix.query files text).run reached.2 = ((answer, scan.1), scan.2) ∧
        paths.Nodup ∧ (forall p, p ∈ paths ↔ exists r, scan.1.byPath.get? p = some r) ∧
        answer.Perm (paths.flatMap (scan.1.matchesAt text))) ∧
    forall operations,
      (forall settings, .reconfigure settings ∈ operations -> ix.Fits settings) ->
      exists listed, listed.count allFiles ≤ 1 ∧
        (runLogged files operations ix).run reached.2 =
          ((((runAll files operations ix).run reached.2).1, listed),
            ((runAll files operations ix).run reached.2).2) := by
  intro reached ix
  constructor
  · intro text htext scan
    have hrun := query_run_bare files (parse_eq_bare htext) ix reached.2
    have hdistinct : Table.Distinct scan.1.byPath := by
      have hnew : Table.Distinct (new root settings).byPath := List.nodup_nil
      have hevolves := evolves_runAll_query files before text (new root settings) world
      have hnext : ((ix.query files text).run reached.2).1.2 = scan.1 :=
        congrArg (fun answered => answered.1.2) hrun
      exact hnext ▸ distinct_evolves hnew hevolves
    have hanswer := startingWith_eq_flatMap hdistinct text
    exact ⟨_, scan.1.byPath.map Prod.fst, hrun, hdistinct, fun p => hdistinct.mem_keys,
      List.Perm.of_eq hanswer⟩
  · intro operations hfits
    rcases runLogged_run files hfits reached.2 with ⟨listed, hcount, hrun⟩
    refine ⟨listed, hcount.trans ?_, hrun⟩
    unfold pendingScans
    split
    · exact Nat.zero_le 1
    · exact Nat.le_refl 1

/-- The first query scans the workspace up to a file that may not be read, and the later ones do
not scan it again. -/
theorem bare_query_exact_guarded :
    let reached := (runAll guardedFiles [.indexModule "D"]
      (new (Path.ofString "/w") .default)).run ()
    let ix := reached.1
    let scan := if ix.scanned then reached else (ix.fullScan guardedFiles).run reached.2
    let operations := [.query "xyz", .remove (Path.ofString "/w/A.elm"), .reconfigure .default,
      .query "A", .query "A:x"]
    let listed := ((runLogged guardedFiles operations ix).run reached.2).1.2
    (exists (answer : List Symbol) (paths : List Path),
      (ix.query guardedFiles "xyz").run reached.2 = ((answer, scan.1), scan.2) ∧
        answer.length = 2 ∧ paths.Nodup ∧
        answer.Perm (paths.flatMap (scan.1.matchesAt "xyz"))) ∧
    allFiles ∈ listed ∧ listed.count allFiles ≤ 1 := by
  intro reached ix scan operations listed
  have hlength : ((ix.query guardedFiles "xyz").run reached.2).1.1.length = 2 := by
    decide +kernel
  have hlisted : allFiles ∈ listed := by
    decide +kernel
  have hfits : ix.Fits .default := by
    decide +kernel
  have hexact := bare_query_exact guardedFiles [.indexModule "D"] (Path.ofString "/w") .default ()
  extract_lets at hexact
  rcases hexact with ⟨hbare, honce⟩
  -- From here on the run is not to be evaluated.
  clear_value ix
  constructor
  · have hcolon : forall module name, isModuleName module.toList = true ->
        "xyz" ≠ textOf module name := by
      intro module name _ heq
      have hmem : ':' ∈ (textOf module name).toList := by
        simp [textOf]
      rw [← heq] at hmem
      exact absurd hmem (by decide)
    rcases hbare "xyz" hcolon with ⟨answer, paths, hrun, hdistinct, _, hperm⟩
    rw [hrun] at hlength
    exact ⟨answer, paths, hrun, hlength, hdistinct, hperm⟩
  · refine ⟨hlisted, ?_⟩
    have hsettings : forall settings, .reconfigure settings ∈ operations -> ix.Fits settings := by
      intro settings hmem
      have hdefault : settings = .default := by
        simpa [operations] using hmem
      rw [hdefault]
      exact hfits
    rcases honce operations hsettings with ⟨patterns, hcount, hrun⟩
    have hpatterns : listed = patterns := congrArg (fun r => r.1.2) hrun
    rw [hpatterns]
    exact hcount

end Answers

end SymbolIndex
end ElmNavigator
