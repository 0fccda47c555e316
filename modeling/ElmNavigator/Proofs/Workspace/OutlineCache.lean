import ElmNavigator.Proofs.Workspace.Tables
import ElmNavigator.Workspace.Definition

/-!
# The cache of outlines

Looking up modules fills the cache.  Whatever a lookup adds is the outline of a
file as it is read at that time, and a lookup drops nothing.
-/

namespace ElmNavigator

open Disk Syntax Text

def outlineIn? : Except AccessError String -> Option (Outline Location)
  | .ok text => (parse text).toOption
  | .error _ => none

namespace ModuleLookup

theorem atPath_of_uncached {p : Path} {l : ModuleLookup}
    (h : l.cache.get? p.normalize = none) (files : Files Id) :
    l.atPath files p =
      match files.read p.normalize with
      | .error _ => (none, l)
      | .ok text =>
          match parse text with
          | .error _ => (none, l)
          | .ok outline => (some outline, l.remember p.normalize outline) := by
  simp only [atPath, h]
  rfl

theorem atPath_eq (files : Files Id) (p : Path) (l : ModuleLookup) :
    l.atPath files p =
      match l.cache.get? p.normalize with
      | some outline => (some outline, l)
      | none =>
          match outlineIn? (files.read p.normalize) with
          | some outline => (some outline, l.remember p.normalize outline)
          | none => (none, l) := by
  cases hcache : l.cache.get? p.normalize with
  | some outline =>
      simp only [atPath, hcache]
      rfl
  | none =>
      rw [atPath_of_uncached hcache]
      cases files.read p.normalize with
      | error e =>
          rfl
      | ok text =>
          simp only [outlineIn?]
          cases parse text with
          | error e => rfl
          | ok outline => rfl

theorem atPath_outline (files : Files Id) (p : Path) (l : ModuleLookup) :
    (l.atPath files p).1 =
      (l.cache.get? p.normalize).or (outlineIn? (files.read p.normalize)) := by
  rw [atPath_eq]
  cases l.cache.get? p.normalize with
  | some outline =>
      rfl
  | none =>
      simp only [Option.none_or]
      cases outlineIn? (files.read p.normalize) with
      | some outline => rfl
      | none => rfl

/-!
## What a lookup adds
-/

/-- What a lookup adds is in the files. -/
def Grows (files : Files Id) (l next : ModuleLookup) : Prop :=
  forall p outline, next.cache.get? p = some outline ->
    l.cache.get? p = some outline ∨ outlineIn? (files.read p) = some outline

theorem Grows.refl (files : Files Id) (l : ModuleLookup) : Grows files l l := by
  intro p outline h
  exact Or.inl h

theorem Grows.trans {files : Files Id} {l next last : ModuleLookup}
    (h : Grows files l next) (hnext : Grows files next last) :
    Grows files l last := by
  intro p outline hlast
  rcases hnext p outline hlast with hold | hread
  · exact h p outline hold
  · exact Or.inr hread

theorem Grows.remember {files : Files Id} {p : Path} {outline : Outline Location}
    (h : outlineIn? (files.read p) = some outline) (l : ModuleLookup) :
    Grows files l (l.remember p outline) := by
  intro q other hother
  have hget : (l.remember p outline).cache.get? q =
      if q = p then some outline else l.cache.get? q :=
    Table.get?_insert l.cache p outline q
  rw [hget] at hother
  split at hother
  · rename_i hq
    right
    rw [hq, h]
    exact hother
  · exact Or.inl hother

section Lookups

variable (files : Files Id)

theorem atPath_grows (p : Path) (l : ModuleLookup) :
    Grows files l (l.atPath files p).2 := by
  rw [atPath_eq]
  cases l.cache.get? p.normalize with
  | some outline =>
      exact Grows.refl files l
  | none =>
      simp only
      cases hread : outlineIn? (files.read p.normalize) with
      | some outline => exact Grows.remember hread l
      | none => exact Grows.refl files l

theorem firstOf_cons (p : Path) (ps : List Path) (l : ModuleLookup) :
    l.firstOf files (p :: ps) =
      match (l.atPath files p).1 with
      | some outline => (some outline, (l.atPath files p).2)
      | none => firstOf files ps (l.atPath files p).2 :=
  rfl

theorem firstOf_grows (paths : List Path) (l : ModuleLookup) :
    Grows files l (l.firstOf files paths).2 := by
  induction paths generalizing l with
  | nil =>
      exact Grows.refl files l
  | cons p ps ih =>
      have hp := atPath_grows files p l
      rw [firstOf_cons]
      cases (l.atPath files p).1 with
      | some outline => exact hp
      | none => exact hp.trans (ih (l.atPath files p).2)

theorem dirs_cache (l : ModuleLookup) : (l.dirs files).2.cache = l.cache := by
  unfold dirs
  cases l.sourceDirs with
  | some dirs => rfl
  | none => rfl

theorem byName_grows (name : String) (l : ModuleLookup) :
    Grows files l (l.byName files name).2 := by
  have hcandidates : Grows files l (l.candidates files name).2 := by
    intro p outline h
    left
    rw [← dirs_cache files]
    exact h
  exact hcandidates.trans (firstOf_grows files _ _)

end Lookups
end ModuleLookup

namespace Definition

open ModuleLookup

variable (files : Files Id)

theorem exposesConstructor_eq (name : String) (i : Import Location) (l : ModuleLookup) :
    exposesConstructor files name i l =
      if !name.toList.head?.any isUpper || i.openTypes.isEmpty then (false, l)
      else
        match (l.byName files i.module).1 with
        | none => (false, (l.byName files i.module).2)
        | some module =>
            (hasConstructor module i.openTypes name, (l.byName files i.module).2) :=
  rfl

theorem ofReference_eq (current : Outline Location) (ref : Reference)
    (l : ModuleLookup) (ix : SymbolIndex) :
    ofReference files current ref l ix =
      let named := namedModules files ref current.imports l
      let modules := if named.1.isEmpty then [current.name] else named.1
      let found := inModules files ref.name modules ix
      match bestMatch found.1 with
      | some best => (some best, named.2, found.2)
      | none =>
          if ref.qualifier ≠ "" then (none, named.2, found.2)
          else
            let last := inFirstOf files ref.name (wildcardModules current.imports) found.2
            (last.1, named.2, last.2) :=
  rfl

theorem atPosition_eq (p : Path) (text : String) (line column : Nat)
    (l : ModuleLookup) (ix : SymbolIndex) :
    atPosition files p text line column l ix =
      match wordAt? text line column with
      | none => (none, l, ix)
      | some word =>
          match (l.atPath files p).1 with
          | none => (none, (l.atPath files p).2, ix)
          | some current =>
              ofReference files current (Reference.ofWord word) (l.atPath files p).2 ix :=
  rfl

/-!
## What the steps of a definition keep
-/

section Keeps

variable {files : Files Id} {P : ModuleLookup -> Prop}
  (hname : forall l name, P l -> P (l.byName files name).2)

include hname

theorem exposesConstructor_keeps (name : String) (i : Import Location) {l : ModuleLookup}
    (h : P l) : P (exposesConstructor files name i l).2 := by
  rw [exposesConstructor_eq]
  split
  · exact h
  · cases (l.byName files i.module).1 with
    | none => exact hname l i.module h
    | some module => exact hname l i.module h

theorem isNamedBy_keeps (ref : Reference) (i : Import Location) {l : ModuleLookup}
    (h : P l) : P (isNamedBy files ref i l).2 := by
  unfold isNamedBy
  split
  · exact h
  · split
    · exact h
    · exact exposesConstructor_keeps hname ref.name i h

theorem namedModules_keeps (ref : Reference) (imports : List (Import Location))
    {l : ModuleLookup} (h : P l) : P (namedModules files ref imports l).2 := by
  induction imports generalizing l with
  | nil =>
      exact h
  | cons i is ih =>
      exact ih (isNamedBy_keeps hname ref i h)

theorem atPosition_keeps_lookup (hpath : forall l p, P l -> P (l.atPath files p).2)
    (p : Path) (text : String) (line column : Nat) (ix : SymbolIndex) {l : ModuleLookup}
    (h : P l) : P (atPosition files p text line column l ix).2.1 := by
  rw [atPosition_eq]
  cases wordAt? text line column with
  | none =>
      exact h
  | some word =>
      simp only
      cases (l.atPath files p).1 with
      | none =>
          exact hpath l p h
      | some current =>
          have hnamed := namedModules_keeps hname (Reference.ofWord word) current.imports
            (hpath l p h)
          simp only [ofReference_eq]
          split
          · exact hnamed
          · split
            · exact hnamed
            · exact hnamed

end Keeps

theorem atPosition_grows (p : Path) (text : String) (line column : Nat)
    (l : ModuleLookup) (ix : SymbolIndex) :
    Grows files l (atPosition files p text line column l ix).2.1 := by
  apply atPosition_keeps_lookup (P := Grows files l)
  · intro next name h
    exact h.trans (byName_grows files name next)
  · intro next q h
    exact h.trans (atPath_grows files q next)
  · exact Grows.refl files l

end Definition
end ElmNavigator
