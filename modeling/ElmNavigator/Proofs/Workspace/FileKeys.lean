import ElmNavigator.Proofs.Place.NormalPaths
import ElmNavigator.Workspace.ModuleLookup
import ElmNavigator.Workspace.SymbolIndex

/-!
# The keys of files

The index and the cache know a file by its normal path.  Resolving dots reads a path
from left to right and needs no more of a directory than its resolved components, so
a file below a directory has one key, whether the directory is given as it was
written or in its normal form.
-/

namespace ElmNavigator

open Text

namespace Path

/-!
## Joined paths
-/

def innerComponents (p : Path) : List Component :=
  (splitOn slash p.bytes).filterMap pieceComponent?

theorem foldl_components_relative {p : Path} (h : p.isAbsolute = false) :
    p.components.foldl resolveStep [] = p.innerComponents.foldl resolveStep [] := by
  unfold components innerComponents
  cases hpieces : splitOn slash p.bytes with
  | nil => rfl
  | cons first others =>
      simp only [h, Bool.false_eq_true, if_false, firstComponent?]
      by_cases hdot : first = [dot]
      · rw [if_pos hdot, hdot]
        rfl
      · rw [if_neg hdot, List.filterMap_cons]
        cases pieceComponent? first with
        | none => rfl
        | some c => rfl

theorem foldl_components_join (p : Path) {other : Path} (h : other.isAbsolute = false) :
    (p.join other).components.foldl resolveStep [] =
      other.innerComponents.foldl resolveStep (p.components.foldl resolveStep []) := by
  by_cases hempty : p.bytes = []
  · have hp : p = { bytes := [] } := congrArg Path.mk hempty
    have hjoin : join { bytes := [] } other = other := by
      simp [join, h]
    rw [hp, hjoin]
    exact foldl_components_relative h
  · rw [components_join hempty h, List.foldl_append]
    rfl

theorem foldl_components_normalize (p : Path) :
    p.normalize.components.foldl resolveStep [] = p.components.foldl resolveStep [] := by
  rw [components_normalize]
  exact foldl_resolveStep_reverse (resolved_foldl_components p)

theorem normalize_join (p : Path) {other : Path} (h : other.isAbsolute = false) :
    (p.normalize.join other).normalize = (p.join other).normalize := by
  have hresolved : (p.normalize.join other).resolvedComponents =
      (p.join other).resolvedComponents := by
    unfold resolvedComponents
    rw [foldl_components_join p.normalize h, foldl_components_join p h,
      foldl_components_normalize]
  unfold normalize
  exact congrArg ofComponents hresolved

end Path

/-!
## What is known of a file
-/

section SameKey

variable {p q : Path} (h : p.normalize = q.normalize)
include h

theorem SymbolIndex.record?_of_sameKey (ix : SymbolIndex) : ix.record? p = ix.record? q := by
  unfold record?
  rw [h]

theorem SymbolIndex.remove_of_sameKey (ix : SymbolIndex) : ix.remove p = ix.remove q := by
  simp only [remove, record?_of_sameKey h, h]

theorem SymbolIndex.update_of_sameKey (ix : SymbolIndex) (text : String) :
    ix.update p text = ix.update q text := by
  unfold update
  rw [h]

theorem ModuleLookup.invalidate_of_sameKey (l : ModuleLookup) :
    l.invalidate p = l.invalidate q := by
  unfold invalidate
  rw [h]

theorem ModuleLookup.atPath_of_sameKey (files : Files Id) (l : ModuleLookup) :
    l.atPath files p = l.atPath files q := by
  unfold atPath
  rw [h]

end SameKey

namespace Path

/-- Normal paths are their own keys, and a file below a directory has the same key below the normal
form of the directory: the index and the cache find, replace and forget the same for both. -/
theorem key_below_normal (dir : Path) {rest : Path} (h : rest.isAbsolute = false) :
    dir.normalize.normalize = dir.normalize ∧
      (dir.normalize.join rest).normalize = (dir.join rest).normalize ∧
      (forall ix : SymbolIndex,
        ix.record? (dir.normalize.join rest) = ix.record? (dir.join rest) ∧
        ix.remove (dir.normalize.join rest) = ix.remove (dir.join rest) ∧
        forall text, ix.update (dir.normalize.join rest) text = ix.update (dir.join rest) text) ∧
      forall l : ModuleLookup,
        l.invalidate (dir.normalize.join rest) = l.invalidate (dir.join rest) ∧
        forall files : Files Id,
          l.atPath files (dir.normalize.join rest) = l.atPath files (dir.join rest) := by
  have hkey := normalize_join dir h
  refine ⟨normalize_normalize dir, hkey, ?_, ?_⟩
  · intro ix
    exact ⟨ix.record?_of_sameKey hkey, ix.remove_of_sameKey hkey, ix.update_of_sameKey hkey⟩
  · intro l
    exact ⟨l.invalidate_of_sameKey hkey, fun files => l.atPath_of_sameKey hkey files⟩

/-- A directory above everything, and a file that leads out of it again. -/
theorem key_below_normal_climbing :
    let dir := ofString "src/../../.."
    let rest := ofString "./../lib//A.elm"
    dir.normalize = ofString "" ∧ rest.isAbsolute = false ∧
      (dir.normalize.join rest).normalize = ofString "../lib/A.elm" ∧
      (dir.normalize.join rest).normalize = (dir.join rest).normalize := by
  intro dir rest
  have hrest : rest.isAbsolute = false := by decide
  exact ⟨by decide, hrest, by decide, (key_below_normal dir hrest).2.1⟩

end Path
end ElmNavigator
