import ElmNavigator.Proofs.Disk.ListedFiles
import ElmNavigator.Proofs.Workspace.TrackedIndex

/-!
# The search for the one file of a module

A module is found by a search for two files.  That is enough to tell a module with a
single file from one with several, without going through the rest of the workspace.
-/

namespace ElmNavigator
namespace SymbolIndex

open Disk

theorem filePattern_eq {name : String} (h : SymbolQuery.isModuleName name.toList = true) :
    filePattern name = String.ofList ("**/".toList ++ (Path.ofModuleName name).chars) := by
  rcases Glob.exists_ofModuleName h with ⟨front, hpath, hordinary⟩
  have hplain : (Path.ofModuleName name).chars.map (fun c => if c = '\\' then '/' else c) =
      (Path.ofModuleName name).chars := by
    have hkept : forall c, c ∈ (Path.ofModuleName name).chars ->
        (if c = '\\' then '/' else c) = id c := by
      intro c hc
      rw [hpath, Path.chars_ofChars] at hc
      have hbackslash : c ≠ '\\' := by
        rintro rfl
        rcases List.mem_append.mp hc with hfront | hending
        · exact absurd (hordinary _ hfront) (by decide)
        · exact absurd hending (by decide)
      rw [if_neg hbackslash, id]
    rw [List.map_congr_left hkept, List.map_id]
  unfold filePattern
  simp only
  rw [hplain]

theorem indexModule_iff (files : Files Id) (name : String) (ix : SymbolIndex) :
    (ix.indexModule files name).1 = true ↔
      exists p text, files.find ix.root (filePattern name) ix.exclude 2 = .ok [p] ∧
        files.read p = .ok text ∧ (ix.indexModule files name).2 = ix.update p text := by
  rw [indexModule_eq]
  constructor
  · split
    · intro h
      cases h
    · next p hfind =>
        rw [indexPath_eq]
        cases hread : files.read p with
        | ok text => exact fun _ => ⟨p, text, hfind, hread, rfl⟩
        | error e => exact fun h => nomatch h
    · intro h
      cases h
  · rintro ⟨p, text, hfind, hread, _⟩
    rw [hfind]
    simp only
    rw [indexPath_eq, hread]

theorem indexModule_of_false {files : Files Id} {name : String} {ix : SymbolIndex}
    (h : (ix.indexModule files name).1 = false) :
    (ix.indexModule files name).2.byPath = ix.byPath ∧
      (ix.indexModule files name).2.byModule = ix.byModule := by
  have hmissing : (ix.addMissing name).byPath = ix.byPath ∧
      (ix.addMissing name).byModule = ix.byModule := by
    unfold addMissing
    split
    · exact ⟨rfl, rfl⟩
    · exact ⟨rfl, rfl⟩
  rw [indexModule_eq] at h ⊢
  split
  · exact ⟨rfl, rfl⟩
  · next p hfind =>
      rw [hfind] at h
      simp only at h ⊢
      rw [h]
      rw [indexPath_eq] at h ⊢
      cases hread : files.read p with
      | ok text =>
          rw [hread] at h
          cases h
      | error e => exact hmissing
  · exact hmissing

/-- A listing with a limit tells what the whole listing starts with, and a search for two files
whether the whole listing is a single file. -/
structure SearchDecides (t : Tree) : Prop where
  limited : forall root pattern exclude k n, k ≤ n ->
    (forall p cause, t.find root pattern exclude n ≠ .error (.walk p cause)) ->
      t.find root pattern exclude k = (t.find root pattern exclude n).map (List.take k)
  /-- Where every directory on the way can be opened or is left out, all files that belong to the
  listing are found. -/
  complete : forall root pattern exclude wanted unwanted items,
    readPattern pattern = .ok wanted -> readExclude exclude = .ok unwanted ->
      t.itemsUnder root = .ok items ->
      (forall names error, .closed names error ∈ items ->
        isPruned unwanted (names ++ [anyName]) = true) ->
      t.FindsAll root pattern exclude
        (((filesOf items).filter (isListed wanted unwanted)).map (pathBelow root))
  decided : forall (o : Overlay) (ix : SymbolIndex) (name : String),
    SymbolQuery.isModuleName name.toList = true ->
      ((ix.indexModule (o.view t.files) name).1 = true ↔
        exists p text,
          t.FindsAll ix.root (String.ofList ("**/".toList ++ (Path.ofModuleName name).chars))
            ix.exclude [p] ∧
          (o.view t.files).read p = .ok text ∧
          (ix.indexModule (o.view t.files) name).2 = ix.update p text)
  undecided : forall (o : Overlay) (ix : SymbolIndex) (name : String),
    (ix.indexModule (o.view t.files) name).1 = false ->
      (ix.indexModule (o.view t.files) name).2.byPath = ix.byPath ∧
        (ix.indexModule (o.view t.files) name).2.byModule = ix.byModule

theorem indexModule_searchDecides (t : Tree) : SearchDecides t := by
  constructor
  · intro root pattern exclude k n hle hwalk
    exact Tree.find_limited hle hwalk
  · intro root pattern exclude wanted unwanted items hpattern hexclude hitems hopen
    exact Tree.findsAll_of_open hpattern hexclude hitems hopen
  · intro o ix name hname
    have hfind : (o.view t.files).find = t.find := rfl
    rw [← filePattern_eq hname, indexModule_iff, hfind]
    simp only [Tree.findsAll_singleton_iff]
  · intro o ix name h
    exact indexModule_of_false h

def twoForOne : Tree :=
  let node := Node.file (.text "module A exposing (..)\n")
  ((Tree.empty.write (Path.ofString "/w/a/A.elm") node).write (Path.ofString "/w/b/A.elm")
    node).write (Path.ofString "/w/B.elm") node

/-- A search for one file would show only the first of the two. -/
theorem indexModule_searchDecides_two_files :
    let ix := SymbolIndex.new (Path.ofString "/w") .default
    let shown := Overlay.empty.view twoForOne.files
    twoForOne.find ix.root "**/A.elm" ix.exclude 1 = .ok [Path.ofString "/w/a/A.elm"] ∧
      (ix.indexModule shown "A").1 = false ∧
      (ix.indexModule shown "A").2.byPath = ix.byPath ∧
      (ix.indexModule shown "B").1 = true ∧
      exists p text,
        twoForOne.FindsAll ix.root
          (String.ofList ("**/".toList ++ (Path.ofModuleName "B").chars)) ix.exclude [p] ∧
        shown.read p = .ok text ∧ (ix.indexModule shown "B").2 = ix.update p text := by
  have hsearch := indexModule_searchDecides twoForOne
  have hfound : twoForOne.find (Path.ofString "/w") "**/A.elm" Settings.default.exclude? 2 =
      .ok [Path.ofString "/w/a/A.elm", Path.ofString "/w/b/A.elm"] := by
    decide +kernel
  have hlimited := hsearch.limited (Path.ofString "/w") "**/A.elm" Settings.default.exclude? 1 2
    (by decide) (by simp [hfound])
  have hambiguous : ((SymbolIndex.new (Path.ofString "/w") .default).indexModule
      (Overlay.empty.view twoForOne.files) "A").1 = false := by
    decide +kernel
  have hsingle : ((SymbolIndex.new (Path.ofString "/w") .default).indexModule
      (Overlay.empty.view twoForOne.files) "B").1 = true := by
    decide +kernel
  have hname : SymbolQuery.isModuleName "B".toList = true := by decide +kernel
  rw [hfound] at hlimited
  exact ⟨hlimited, hambiguous, (hsearch.undecided _ _ _ hambiguous).left, hsingle,
    (hsearch.decided _ _ _ hname).mp hsingle⟩

end SymbolIndex
end ElmNavigator
