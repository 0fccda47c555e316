import ElmNavigator.Proofs.Workspace.OutlineCache

/-!
# Answers of module lookups

A lookup remembers outlines and source directories, but over the same files this
changes no answer.  So the imports that a name refers to can be found one by one
in the lookup as it was at the start, and two lookups that differ in what they
remember lead to the same imports as long as they answer alike.
-/

namespace ElmNavigator

open Syntax Text

namespace ModuleLookup

/-- Two lookups give the same answers, as far as a view of outlines shows. -/
structure Alike {α : Type} (view : Outline Location -> α) (files : Files Id)
    (l other : ModuleLookup) : Prop where
  outline : forall p, (l.atPath files p).1.map view = (other.atPath files p).1.map view
  dirs : (l.dirs files).1 = (other.dirs files).1

section Answers

variable {α : Type} {view : Outline Location -> α} {files : Files Id}

theorem Alike.refl (l : ModuleLookup) : Alike view files l l :=
  ⟨fun _ => rfl, rfl⟩

theorem Alike.symm {l other : ModuleLookup} (h : Alike view files l other) :
    Alike view files other l :=
  ⟨fun p => (h.outline p).symm, h.dirs.symm⟩

theorem Alike.trans {l next last : ModuleLookup} (h : Alike view files l next)
    (hlast : Alike view files next last) : Alike view files l last :=
  ⟨fun p => (h.outline p).trans (hlast.outline p), h.dirs.trans hlast.dirs⟩

theorem dirs_eq (files : Files Id) (l : ModuleLookup) :
    (l.dirs files).1 =
      match l.sourceDirs with
      | some dirs => dirs
      | none => SourceDirs.discover files l.root l.settings := by
  unfold dirs
  cases l.sourceDirs with
  | some dirs => rfl
  | none => rfl

/-!
## Looking up changes no answer
-/

theorem atPath_alike (p : Path) (l : ModuleLookup) :
    Alike view files l (l.atPath files p).2 := by
  rw [atPath_eq]
  cases hcache : l.cache.get? p.normalize with
  | some outline =>
      exact Alike.refl l
  | none =>
      simp only
      cases hread : outlineIn? (files.read p.normalize) with
      | none =>
          exact Alike.refl l
      | some outline =>
          constructor
          · intro q
            have hget : (l.remember p.normalize outline).cache.get? q.normalize =
                if q.normalize = p.normalize then some outline
                else l.cache.get? q.normalize :=
              Table.get?_insert l.cache p.normalize outline q.normalize
            rw [atPath_outline, atPath_outline, hget]
            split
            · rename_i hq
              rw [hq, hcache, hread]
              rfl
            · rfl
          · rw [dirs_eq, dirs_eq]
            rfl

theorem dirs_alike (l : ModuleLookup) : Alike view files l (l.dirs files).2 := by
  unfold dirs
  cases hdirs : l.sourceDirs with
  | some dirs =>
      exact Alike.refl l
  | none =>
      constructor
      · intro p
        rw [atPath_outline, atPath_outline]
        rfl
      · rw [dirs_eq, hdirs]
        rfl

theorem firstOf_alike (paths : List Path) (l : ModuleLookup) :
    Alike view files l (l.firstOf files paths).2 := by
  induction paths generalizing l with
  | nil =>
      exact Alike.refl l
  | cons p ps ih =>
      have hp : Alike view files l (l.atPath files p).2 := atPath_alike p l
      rw [firstOf_cons]
      cases (l.atPath files p).1 with
      | some outline => exact hp
      | none => exact hp.trans (ih _)

theorem byName_alike (name : String) (l : ModuleLookup) :
    Alike view files l (l.byName files name).2 :=
  (dirs_alike l).trans (firstOf_alike _ _)

/-!
## Lookups that answer alike
-/

theorem Alike.firstOf {l other : ModuleLookup} (h : Alike view files l other)
    (paths : List Path) :
    (l.firstOf files paths).1.map view = (other.firstOf files paths).1.map view := by
  induction paths generalizing l other with
  | nil => rfl
  | cons p ps ih =>
      have hp := h.outline p
      have hnext := (atPath_alike p l).symm.trans (h.trans (atPath_alike p other))
      rw [firstOf_cons, firstOf_cons]
      cases hl : (l.atPath files p).1 with
      | none =>
          cases hother : (other.atPath files p).1 with
          | none =>
              exact ih hnext
          | some outline =>
              rw [hl, hother] at hp
              cases hp
      | some outline =>
          cases hother : (other.atPath files p).1 with
          | none =>
              rw [hl, hother] at hp
              cases hp
          | some outline' =>
              rw [hl, hother] at hp
              exact hp

theorem Alike.byName {l other : ModuleLookup} (h : Alike view files l other)
    (name : String) :
    (l.byName files name).1.map view = (other.byName files name).1.map view := by
  have hnext := (dirs_alike l).symm.trans (h.trans (dirs_alike other))
  have hpaths := hnext.firstOf
    ((l.dirs files).1.map fun dir => dir.join (Path.ofModuleName name))
  rw [h.dirs] at hpaths
  show ((l.dirs files).2.firstOf files
    ((l.dirs files).1.map fun dir => dir.join (Path.ofModuleName name))).1.map view = _
  rw [h.dirs]
  exact hpaths

/-!
## Where a lookup looks
-/

/-- Where a lookup looks for modules. -/
def setup (l : ModuleLookup) : Path × Settings × Option (List Path) :=
  (l.root, l.settings, l.sourceDirs)

theorem dirs_of_setup {l other : ModuleLookup} (h : l.setup = other.setup) :
    (l.dirs files).1 = (other.dirs files).1 := by
  injection h with hroot h
  injection h with hsettings hdirs
  rw [dirs_eq, dirs_eq, hroot, hsettings, hdirs]

theorem atPath_setup (p : Path) (l : ModuleLookup) :
    (l.atPath files p).2.setup = l.setup := by
  rw [atPath_eq]
  cases l.cache.get? p.normalize with
  | some outline => rfl
  | none =>
      cases outlineIn? (files.read p.normalize) with
      | some outline => rfl
      | none => rfl

theorem firstOf_setup (paths : List Path) (l : ModuleLookup) :
    (l.firstOf files paths).2.setup = l.setup := by
  induction paths generalizing l with
  | nil => rfl
  | cons p ps ih =>
      rw [firstOf_cons]
      cases (l.atPath files p).1 with
      | some outline => exact atPath_setup p l
      | none => exact (ih _).trans (atPath_setup p l)

theorem dirs_setup (l : ModuleLookup) :
    (l.dirs files).2.setup = (l.root, l.settings, some (l.dirs files).1) := by
  unfold dirs setup
  cases hknown : l.sourceDirs with
  | some dirs => exact congrArg (fun known => (l.root, l.settings, known)) hknown
  | none => rfl

theorem byName_setup (name : String) (l : ModuleLookup) :
    (l.byName files name).2.setup = (l.root, l.settings, some (l.dirs files).1) :=
  (firstOf_setup _ _).trans (dirs_setup l)

def place (l : ModuleLookup) : Path × Settings :=
  (l.root, l.settings)

theorem atPath_place (p : Path) (l : ModuleLookup) :
    (l.atPath files p).2.place = l.place :=
  congrArg (fun setup => (setup.1, setup.2.1)) (atPath_setup p l)

theorem byName_place (name : String) (l : ModuleLookup) :
    (l.byName files name).2.place = l.place :=
  congrArg (fun setup => (setup.1, setup.2.1)) (byName_setup name l)

theorem setup_of_place {l other : ModuleLookup} (hplace : l.place = other.place)
    (hdirs : l.sourceDirs = other.sourceDirs) : l.setup = other.setup := by
  injection hplace with hroot hsettings
  unfold setup
  rw [hroot, hsettings, hdirs]

theorem byName_of_setup {l other : ModuleLookup} (h : l.setup = other.setup)
    (name : String) :
    (l.byName files name).2.setup = (other.byName files name).2.setup := by
  rw [byName_setup, byName_setup, dirs_of_setup h]
  injection h with hroot h
  injection h with hsettings _
  rw [hroot, hsettings]

end Answers
end ModuleLookup

/-!
## Imports that a reference names
-/

namespace Definition

open ModuleLookup

variable {α : Type} {view : Outline Location -> α} {files : Files Id}

theorem isNamedBy_alike (ref : Reference) (i : Import Location) (l : ModuleLookup) :
    Alike view files l (isNamedBy files ref i l).2 :=
  isNamedBy_keeps (fun next name h => h.trans (byName_alike name next)) ref i (Alike.refl l)

theorem types_of_id (m other : Outline Location) (h : id m = id other) :
    m.types = other.types :=
  congrArg Outline.types h

section SameTypes

variable (hview : forall m other : Outline Location, view m = view other ->
  m.types = other.types)

include hview

theorem exposesConstructor_of_alike {l other : ModuleLookup}
    (h : Alike view files l other) (name : String) (i : Import Location) :
    (exposesConstructor files name i l).1 = (exposesConstructor files name i other).1 := by
  have hname := h.byName i.module
  rw [exposesConstructor_eq, exposesConstructor_eq]
  split
  · rfl
  · cases hl : (l.byName files i.module).1 with
    | none =>
        rw [hl] at hname
        rw [Option.map_eq_none_iff.mp hname.symm]
    | some module =>
        rw [hl] at hname
        rcases Option.map_eq_some_iff.mp hname.symm with ⟨module', hother, hsame⟩
        rw [hother]
        show hasConstructor module i.openTypes name = hasConstructor module' i.openTypes name
        unfold hasConstructor Outline.constructorsOf
        rw [hview module' module hsame]

theorem isNamedBy_of_alike {l other : ModuleLookup} (h : Alike view files l other)
    (ref : Reference) (i : Import Location) :
    (isNamedBy files ref i l).1 = (isNamedBy files ref i other).1 := by
  unfold isNamedBy
  split
  · rfl
  · split
    · rfl
    · exact exposesConstructor_of_alike hview h ref.name i

end SameTypes

theorem namedModules_eq (ref : Reference) (imports : List (Import Location))
    (l : ModuleLookup) :
    (namedModules files ref imports l).1 =
      (imports.filter fun i => (isNamedBy files ref i l).1).map (·.module) := by
  induction imports generalizing l with
  | nil => rfl
  | cons i is ih =>
      have hsame : forall j, (isNamedBy files ref j (isNamedBy files ref i l).2).1 =
          (isNamedBy files ref j l).1 :=
        isNamedBy_of_alike types_of_id (isNamedBy_alike ref i l).symm ref
      have hrest := ih (isNamedBy files ref i l).2
      simp only [hsame] at hrest
      show (if (isNamedBy files ref i l).1 then
        i.module :: (namedModules files ref is (isNamedBy files ref i l).2).1
        else (namedModules files ref is (isNamedBy files ref i l).2).1) = _
      rw [hrest, List.filter_cons]
      split
      · rfl
      · rfl

/-!
## Definitions
-/

theorem exposesConstructor_of_setup {l other : ModuleLookup} (h : l.setup = other.setup)
    (name : String) (i : Import Location) :
    (exposesConstructor files name i l).2.setup =
      (exposesConstructor files name i other).2.setup := by
  rw [exposesConstructor_eq, exposesConstructor_eq]
  split
  · exact h
  · have hname : (l.byName files i.module).2.setup =
        (other.byName files i.module).2.setup :=
      byName_of_setup h i.module
    cases (l.byName files i.module).1 with
    | none =>
        cases (other.byName files i.module).1 with
        | none => exact hname
        | some module => exact hname
    | some module =>
        cases (other.byName files i.module).1 with
        | none => exact hname
        | some module => exact hname

theorem isNamedBy_of_setup {l other : ModuleLookup} (h : l.setup = other.setup)
    (ref : Reference) (i : Import Location) :
    (isNamedBy files ref i l).2.setup = (isNamedBy files ref i other).2.setup := by
  unfold isNamedBy
  split
  · exact h
  · split
    · exact h
    · exact exposesConstructor_of_setup h ref.name i

theorem namedModules_of_setup {l other : ModuleLookup} (h : l.setup = other.setup)
    (ref : Reference) (imports : List (Import Location)) :
    (namedModules files ref imports l).2.setup =
      (namedModules files ref imports other).2.setup := by
  induction imports generalizing l other with
  | nil => exact h
  | cons i is ih => exact ih (isNamedBy_of_setup h ref i)

theorem atPosition_of_alike {l other : ModuleLookup} (h : Alike id files l other)
    (hsetup : l.setup = other.setup) (p : Path) (text : String) (line column : Nat)
    (ix : SymbolIndex) :
    (atPosition files p text line column l ix).1 =
        (atPosition files p text line column other ix).1 ∧
      (atPosition files p text line column l ix).2.2 =
        (atPosition files p text line column other ix).2.2 ∧
      (atPosition files p text line column l ix).2.1.setup =
        (atPosition files p text line column other ix).2.1.setup := by
  have houtline : (l.atPath files p).1 = (other.atPath files p).1 := by
    simpa using h.outline p
  have hpath : (l.atPath files p).2.setup = (other.atPath files p).2.setup := by
    rw [atPath_setup, atPath_setup, hsetup]
  rw [atPosition_eq, atPosition_eq, houtline]
  cases wordAt? text line column with
  | none =>
      exact ⟨rfl, rfl, hsetup⟩
  | some word =>
      simp only
      cases (other.atPath files p).1 with
      | none =>
          exact ⟨rfl, rfl, hpath⟩
      | some current =>
          have hnext : Alike id files (l.atPath files p).2 (other.atPath files p).2 :=
            (atPath_alike p l).symm.trans (h.trans (atPath_alike p other))
          have hnamed : (namedModules files (Reference.ofWord word) current.imports
                (l.atPath files p).2).1 =
              (namedModules files (Reference.ofWord word) current.imports
                (other.atPath files p).2).1 := by
            rw [namedModules_eq, namedModules_eq]
            simp only [isNamedBy_of_alike types_of_id hnext]
          have hlast : (namedModules files (Reference.ofWord word) current.imports
                (l.atPath files p).2).2.setup =
              (namedModules files (Reference.ofWord word) current.imports
                (other.atPath files p).2).2.setup :=
            namedModules_of_setup hpath (Reference.ofWord word) current.imports
          simp only [ofReference_eq, hnamed]
          split
          · exact ⟨rfl, rfl, hlast⟩
          · split
            · exact ⟨rfl, rfl, hlast⟩
            · exact ⟨rfl, rfl, hlast⟩

end Definition
end ElmNavigator
