import ElmNavigator.Proofs.Workspace.LookupAnswers
import Mathlib.Data.List.DropRight

/-!
# Invalidating the module of a name

When the module of a name is invalidated, all is forgotten that could answer the
next lookup of the name, and nothing else.  So the lookup finds what is in the
files, in the source directories that are known.  Once they have been needed they
are known until the next change of settings, whatever becomes of the manifests.
-/

namespace ElmNavigator

open Disk Syntax Text

namespace SourceDirs

/-- The directories that a manifest declares, if it can be read and declares any. -/
def ofFile? (files : Files Id) (root : Path) (field manifest : String) : Option (List Path) :=
  match files.read (root.join (Path.ofString manifest)) with
  | .error _ => none
  | .ok text =>
      (ofManifest? text field).map fun dirs =>
        dirs.map fun dir => (root.join (Path.ofString dir)).normalize

/-- The directories of the first manifest that declares any, and otherwise the root. -/
def inFiles (files : Files Id) (root : Path) (settings : Settings) : List Path :=
  (settings.manifestFiles.findSome?
    (ofFile? files root settings.sourceDirectoriesField)).getD [root]

theorem ofManifests_cons (files : Files Id) (root : Path) (field manifest : String)
    (others : List String) :
    ofManifests files root field (manifest :: others) =
      match files.read (root.join (Path.ofString manifest)) with
      | .error _ => ofManifests files root field others
      | .ok text =>
          match ofManifest? text field with
          | none => ofManifests files root field others
          | some dirs => dirs.map fun dir => (root.join (Path.ofString dir)).normalize :=
  rfl

theorem ofManifests_eq (files : Files Id) (root : Path) (field : String)
    (manifests : List String) :
    ofManifests files root field manifests =
      (manifests.findSome? (ofFile? files root field)).getD [root] := by
  induction manifests with
  | nil => rfl
  | cons manifest others ih =>
      rw [ofManifests_cons, List.findSome?_cons, ofFile?, ih]
      cases files.read (root.join (Path.ofString manifest)) with
      | error e => rfl
      | ok text =>
          simp only
          cases ofManifest? text field with
          | none => rfl
          | some dirs => rfl

theorem discover_eq (files : Files Id) (root : Path) (settings : Settings) :
    discover files root settings = inFiles files root settings :=
  ofManifests_eq files root settings.sourceDirectoriesField settings.manifestFiles

end SourceDirs

namespace ModuleLookup

def fileIn (name : String) (dir : Path) : Path :=
  (dir.join (Path.ofModuleName name)).normalize

/-- The module of a name in the first directory in which there is one, without a cache. -/
def inFiles? (files : Files Id) (dirs : List Path) (name : String) :
    Option (Outline Location) :=
  dirs.findSome? fun dir => outlineIn? (files.read (fileIn name dir))

/-- The source directories that are known, or else those that the files declare. -/
def knownDirs (files : Files Id) (l : ModuleLookup) : List Path :=
  l.sourceDirs.getD (SourceDirs.inFiles files l.root l.settings)

theorem dirs_eq_knownDirs (files : Files Id) (l : ModuleLookup) :
    (l.dirs files).1 = l.knownDirs files := by
  rw [dirs_eq, knownDirs]
  cases l.sourceDirs with
  | some dirs => rfl
  | none => exact SourceDirs.discover_eq files l.root l.settings

section Lookups

variable {files : Files Id}

/-- Files of which no outline is kept are read one after the other.  One without a module leaves
the lookup as it is, so the induction can go on with the same cache. -/
theorem firstOf_uncached {l : ModuleLookup} {paths : List Path}
    (h : forall p, p ∈ paths -> l.cache.get? p.normalize = none) :
    (l.firstOf files paths).1 =
      paths.findSome? fun p => outlineIn? (files.read p.normalize) := by
  induction paths with
  | nil => rfl
  | cons p ps ih =>
      rw [firstOf_cons, atPath_eq, h p List.mem_cons_self, List.findSome?_cons]
      simp only
      cases outlineIn? (files.read p.normalize) with
      | some outline => rfl
      | none => exact ih fun q hq => h q (List.mem_cons_of_mem p hq)

/-!
## What is forgotten
-/

theorem mem_foldl_invalidate {entry : Path × Outline Location} (paths : List Path)
    (l : ModuleLookup) :
    entry ∈ (paths.foldl invalidate l).cache ↔
      entry ∈ l.cache ∧ entry.1 ∉ paths.map Path.normalize := by
  induction paths generalizing l with
  | nil => simp
  | cons p ps ih =>
      rw [List.foldl_cons, ih]
      simp [invalidate, Table.erase, and_assoc]

theorem foldl_invalidate_setup (paths : List Path) (l : ModuleLookup) :
    (paths.foldl invalidate l).setup = l.setup := by
  induction paths generalizing l with
  | nil => rfl
  | cons p ps ih => exact ih (l.invalidate p)

theorem invalidateName_eq (name : String) (l : ModuleLookup) :
    l.invalidateName files name =
      let forgetful := ((l.dirs files).1.map fun dir =>
        dir.join (Path.ofModuleName name)).foldl invalidate (l.dirs files).2
      { forgetful with
          cache := forgetful.cache.filter fun entry => entry.2.name ≠ name } :=
  rfl

/-- What is kept lies in none of the files of the name and declares another module. -/
theorem mem_invalidateName {p : Path} {outline : Outline Location} (name : String)
    (l : ModuleLookup) :
    (p, outline) ∈ (l.invalidateName files name).cache ↔
      (p, outline) ∈ l.cache ∧ p ∉ (l.knownDirs files).map (fileIn name) ∧
        outline.name ≠ name := by
  rw [invalidateName_eq]
  simp only [List.mem_filter, mem_foldl_invalidate, dirs_cache, dirs_eq_knownDirs, List.map_map,
    decide_eq_true_eq, and_assoc]
  rfl

theorem invalidateName_setup (name : String) (l : ModuleLookup) :
    (l.invalidateName files name).setup = (l.root, l.settings, some (l.knownDirs files)) := by
  rw [← dirs_eq_knownDirs, ← dirs_setup]
  exact foldl_invalidate_setup _ _

theorem byName_invalidateName (name : String) (l : ModuleLookup) :
    ((l.invalidateName files name).byName files name).1 =
      inFiles? files (l.knownDirs files) name := by
  have hknown : (l.invalidateName files name).sourceDirs = some (l.knownDirs files) :=
    congrArg (fun setup => setup.2.2) (invalidateName_setup name l)
  have hbyName : ((l.invalidateName files name).byName files name).1 =
      ((l.invalidateName files name).firstOf files
        ((l.knownDirs files).map fun dir => dir.join (Path.ofModuleName name))).1 := by
    simp only [byName, candidates, dirs, hknown]
    rfl
  rw [hbyName, firstOf_uncached, List.findSome?_map]
  · rfl
  · intro p hp
    rcases List.mem_map.mp hp with ⟨dir, hdir, rfl⟩
    apply Table.get?_eq_none
    rintro ⟨_, outline⟩ hentry rfl
    exact ((mem_invalidateName name l).mp hentry).right.left (List.mem_map_of_mem hdir)

end Lookups

/-!
## Source directories that are known
-/

inductive Use where
  | path (p : Path)
  | name (name : String)
  | dirs
  | forgotten (p : Path)
  | nameForgotten (name : String)
  | reconfigured (settings : Settings)

def Use.needsDirs : Use -> Bool
  | .name _ => true
  | .dirs => true
  | .nameForgotten _ => true
  | _ => false

def Use.reconfigures : Use -> Bool
  | .reconfigured _ => true
  | _ => false

def step (l : ModuleLookup) (files : Files Id) : Use -> ModuleLookup
  | .path p => (l.atPath files p).2
  | .name name => (l.byName files name).2
  | .dirs => (l.dirs files).2
  | .forgotten p => l.invalidate p
  | .nameForgotten name => l.invalidateName files name
  | .reconfigured settings => l.reconfigure settings

def run (l : ModuleLookup) (uses : List (Files Id × Use)) : ModuleLookup :=
  uses.foldl (fun l use => l.step use.1 use.2) l

theorem step_setup {use : Use} (h : use.reconfigures = false) (l : ModuleLookup)
    (files : Files Id) :
    (l.step files use).setup =
      (l.root, l.settings, if use.needsDirs then some (l.knownDirs files) else l.sourceDirs) := by
  cases use with
  | path p => exact atPath_setup p l
  | name name =>
      rw [← dirs_eq_knownDirs]
      exact byName_setup name l
  | dirs =>
      rw [← dirs_eq_knownDirs]
      exact dirs_setup l
  | forgotten p => rfl
  | nameForgotten name => exact invalidateName_setup name l
  | reconfigured settings => cases h

/-- The first use since the last change of settings for which the source directories had to be
known, with the files as they were then. -/
def settlingUse? (uses : List (Files Id × Use)) : Option (Files Id × Use) :=
  (uses.rtakeWhile fun use => !use.2.reconfigures).find? fun use => use.2.needsDirs

theorem settlingUse?_concat (uses : List (Files Id × Use)) (use : Files Id × Use) :
    settlingUse? (uses ++ [use]) =
      if use.2.reconfigures then none
      else (settlingUse? uses).or (if use.2.needsDirs then some use else none) := by
  unfold settlingUse?
  rw [List.rtakeWhile_concat]
  cases use.2.reconfigures with
  | true => rfl
  | false => simp [List.find?_append, List.find?_singleton]

theorem run_concat (l : ModuleLookup) (uses : List (Files Id × Use)) (use : Files Id × Use) :
    l.run (uses ++ [use]) = (l.run uses).step use.1 use.2 := by
  simp [run]

/-- The induction is on the last use of a history. -/
theorem run_settled (root : Path) (settings : Settings) (uses : List (Files Id × Use)) :
    ((new root settings).run uses).root = root ∧
      ((new root settings).run uses).sourceDirs =
        (settlingUse? uses).map fun use =>
          SourceDirs.inFiles use.1 root ((new root settings).run uses).settings := by
  induction uses using List.reverseRecOn with
  | nil => exact ⟨rfl, rfl⟩
  | append_singleton uses use ih =>
      rcases use with ⟨files, use⟩
      rw [run_concat, settlingUse?_concat]
      generalize (new root settings).run uses = l at ih
      rcases ih with ⟨hroot, hdirs⟩
      cases hkept : use.reconfigures with
      | true =>
          cases use with
          | reconfigured settings => exact ⟨hroot, rfl⟩
          | _ => cases hkept
      | false =>
          have hsetup := step_setup hkept l files
          injection hsetup with hstepRoot hsetup
          injection hsetup with hstepSettings hstepDirs
          refine ⟨hstepRoot.trans hroot, ?_⟩
          rw [hstepDirs, hstepSettings, knownDirs, hdirs, hroot]
          cases settlingUse? uses with
          | some first => simp
          | none => cases use.needsDirs <;> rfl

/-!
## Invalidation by name
-/

/-- Directly behind an invalidation, the module of a name is the one in the files, in the first of
the known source directories that has one.  Only outlines are forgotten that lie in a file of the
name or declare it.  In a lookup with a history, the known directories are those that the manifests
declared when they were first needed under the present settings. -/
theorem invalidateName_complete (files : Files Id) (name : String) (l : ModuleLookup) :
    let dirs := l.sourceDirs.getD (SourceDirs.inFiles files l.root l.settings)
    let next := l.invalidateName files name
    (next.byName files name).1 = inFiles? files dirs name ∧
      (forall p outline, (p, outline) ∈ next.cache ↔
        (p, outline) ∈ l.cache ∧ p ∉ dirs.map (fileIn name) ∧ outline.name ≠ name) ∧
      (forall root settings uses, l = (new root settings).run uses ->
        l.sourceDirs = (settlingUse? uses).map fun use =>
          SourceDirs.inFiles use.1 l.root l.settings) := by
  refine ⟨byName_invalidateName name l, fun p outline => mem_invalidateName name l, ?_⟩
  rintro root settings uses rfl
  rcases run_settled root settings uses with ⟨hroot, hdirs⟩
  rw [hdirs, hroot]

def unmanaged : Files Id :=
  ((Tree.empty.write (Path.ofString "/w/A.elm")
    (.file (.text "module A exposing (..)\nx = y\n"))).write (Path.ofString "/w/B.elm")
      (.file (.text "module B exposing (..)\n"))).files

/-- The workspace after the file of a module has changed and a manifest has been written, which
leads to another one. -/
def managed : Files Id :=
  (((Tree.empty.write (Path.ofString "/w/A.elm")
    (.file (.text "module A exposing (..)\nz = y\n"))).write (Path.ofString "/w/src/A.elm")
      (.file (.text "module A exposing (..)\n"))).write (Path.ofString "/w/elm.json")
        (.file (.text "\x7b\"source-directories\": [\"src\"]\x7d"))).files

def firstUses : List (Files Id × Use) :=
  [(unmanaged, .name "A"), (unmanaged, .name "B")]

/-- The new text of the file is found in the directory that was known, and the outline of the other
module is kept. -/
theorem invalidateName_complete_changed :
    let l := (new (Path.ofString "/w") .default).run firstUses
    let next := l.invalidateName managed "A"
    (next.byName managed "A").1 = (parse "module A exposing (..)\nz = y\n").toOption ∧
      (forall p outline, (p, outline) ∈ next.cache ↔
        (p, outline) ∈ l.cache ∧ p ∉ [Path.ofString "/w/A.elm"] ∧ outline.name ≠ "A") ∧
      l.sourceDirs = some [Path.ofString "/w"] := by
  intro l next
  rcases invalidateName_complete managed "A" l with ⟨hfound, hkept, hsettled⟩
  have hdirs : l.sourceDirs = some [Path.ofString "/w"] :=
    (hsettled (Path.ofString "/w") .default firstUses rfl).trans (by decide +kernel)
  rw [hdirs] at hfound hkept
  exact ⟨hfound.trans (by decide +kernel), hkept, hdirs⟩

/-- The manifest is not asked, and the module that it leads to is not found. -/
theorem byName_not_in_declared :
    let l := (new (Path.ofString "/w") .default).run firstUses
    let next := l.invalidateName managed "A"
    (next.byName managed "A").1 ≠
      inFiles? managed (SourceDirs.inFiles managed l.root l.settings) "A" := by
  decide +kernel

end ModuleLookup
end ElmNavigator
