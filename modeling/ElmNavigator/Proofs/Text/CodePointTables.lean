import ElmNavigator.Text.CodePoints
import Mathlib.Data.List.Chain
import Mathlib.Data.List.TakeWhile

/-!
# Comparing tables of code points

The tables hold too many code points to look up each of them, so runs are
compared with runs.  Tables are in ascending order, and both are gone through
side by side.
-/

namespace ElmNavigator
namespace Text

/-!
## Runs
-/

/-- Runs that are equal, or the second one is without holes and reaches over the first one. -/
def Run.isWithin (r s : Run) : Bool :=
  r == s || (s.stride == 1 && s.first.ble r.first && r.last.ble s.last)

/-- Runs without a common code point: one ends before the other starts, they alternate, or the
second one is a single code point that the first one leaves out. -/
def Run.isApart (r s : Run) : Bool :=
  r.last.blt s.first || s.last.blt r.first ||
    (r.stride == 2 && s.stride == 2 && (r.first + s.first) % 2 == 1) ||
    (s.first == s.last && !r.contains s.first)

theorem Run.contains_iff {r : Run} {code : Nat} :
    r.contains code = true ↔
      r.first ≤ code ∧ code ≤ r.last ∧ (code - r.first) % r.stride = 0 := by
  simp [Run.contains, and_assoc]

theorem Run.contains_of_isWithin {r s : Run} (h : r.isWithin s = true) {code : Nat}
    (hcode : r.contains code = true) : s.contains code = true := by
  rcases Bool.or_eq_true_iff.mp h with hsame | hwide
  · rw [← eq_of_beq hsame]
    exact hcode
  · simp only [Bool.and_eq_true, beq_iff_eq, Nat.ble_eq] at hwide
    rcases hwide with ⟨⟨hstride, hfirst⟩, hlast⟩
    rcases Run.contains_iff.mp hcode with ⟨hle, hge, _⟩
    refine Run.contains_iff.mpr ⟨Nat.le_trans hfirst hle, Nat.le_trans hge hlast, ?_⟩
    rw [hstride, Nat.mod_one]

theorem Run.not_contains_of_isApart {r s : Run} (h : r.isApart s = true) {code : Nat}
    (hr : r.contains code = true) : ¬ s.contains code = true := by
  intro hs
  rcases Run.contains_iff.mp hr with ⟨hfirst, hlast, hmod⟩
  rcases Run.contains_iff.mp hs with ⟨hfirst', hlast', hmod'⟩
  simp only [Run.isApart, Bool.or_eq_true, Bool.and_eq_true, beq_iff_eq, Nat.blt_eq] at h
  rcases h with ((hbefore | hbehind) | ⟨⟨hstride, hstride'⟩, hodd⟩) | ⟨hsingle, hout⟩
  · omega
  · omega
  · rw [hstride] at hmod
    rw [hstride'] at hmod'
    omega
  · have hcode : code = s.first := by omega
    rw [hcode] at hr
    simp [hr] at hout

namespace CodePoints

/-!
## Tables
-/

theorem contains_iff {set : CodePoints} {code : Nat} :
    set.contains code = true ↔ exists r, r ∈ set ∧ r.contains code = true :=
  List.any_eq_true

/-- Each run of an ascending table lies within a run of another ascending table. -/
def isWithin : CodePoints -> CodePoints -> Bool
  | [], _ => true
  | r :: narrow, wide =>
      match wide.dropWhile (fun s => s.last.blt r.first) with
      | [] => false
      | s :: wide => r.isWithin s && isWithin narrow (s :: wide)

theorem contains_of_isWithin {narrow wide : CodePoints} (h : narrow.isWithin wide = true)
    {code : Nat} (hcode : narrow.contains code = true) : wide.contains code = true := by
  induction narrow generalizing wide with
  | nil => cases hcode
  | cons r narrow ih =>
      rw [isWithin] at h
      split at h
      · cases h
      · rename_i s rest hrest
        have hsublist : (s :: rest).Sublist wide := by
          rw [← hrest]
          exact List.dropWhile_sublist _
        rcases Bool.and_eq_true_iff.mp h with ⟨hrun, hothers⟩
        rcases contains_iff.mp hcode with ⟨r', hmem, hcontains⟩
        rcases List.mem_cons.mp hmem with hfirst | hother
        · rw [hfirst] at hcontains
          exact contains_iff.mpr ⟨s, hsublist.mem List.mem_cons_self,
            Run.contains_of_isWithin hrun hcontains⟩
        · rcases contains_iff.mp (ih hothers (contains_iff.mpr ⟨r', hother, hcontains⟩)) with
            ⟨s', hs', hcode'⟩
          exact contains_iff.mpr ⟨s', hsublist.mem hs', hcode'⟩

/-- Runs start in ascending order. -/
def Ascending (set : CodePoints) : Prop :=
  set.IsChain fun r s => r.first ≤ s.first

instance (set : CodePoints) : Decidable set.Ascending :=
  inferInstanceAs (Decidable (set.IsChain fun r s => r.first ≤ s.first))

theorem Ascending.pairwise {set : CodePoints} (h : set.Ascending) :
    set.Pairwise fun r s => r.first ≤ s.first := by
  have : IsTrans Run fun r s => r.first ≤ s.first := ⟨fun _ _ _ => Nat.le_trans⟩
  exact List.isChain_iff_pairwise.mp h

theorem Ascending.first_le {r : Run} {set : CodePoints} (h : Ascending (r :: set)) {code : Nat}
    (hcode : contains (r :: set) code = true) : r.first ≤ code := by
  rcases contains_iff.mp hcode with ⟨s, hs, hcontains⟩
  have hle := (Run.contains_iff.mp hcontains).left
  rcases List.mem_cons.mp hs with hsame | hother
  · rw [← hsame]
    exact hle
  · exact Nat.le_trans (List.rel_of_pairwise_cons h.pairwise hother) hle

theorem Ascending.lt_first {set : CodePoints} (h : set.Ascending) {code : Nat} {s : Run}
    (hs : s ∈ set.dropWhile fun s => s.first.ble code) : code < s.first := by
  cases hdrop : set.dropWhile (fun s => s.first.ble code) with
  | nil =>
      rw [hdrop] at hs
      cases hs
  | cons t rest =>
      have hpairwise := h.pairwise.sublist (List.dropWhile_sublist fun s => s.first.ble code)
      rw [hdrop] at hpairwise hs
      have ht : code < t.first := by
        have hne : set.dropWhile (fun s => s.first.ble code) ≠ [] := by simp [hdrop]
        have hhead := List.head_dropWhile_not _ hne
        simp only [hdrop, List.head_cons] at hhead
        exact Nat.lt_of_not_le fun hle => by simp [Nat.ble_eq_true_of_le hle] at hhead
      rcases List.mem_cons.mp hs with hsame | hother
      · rw [hsame]
        exact ht
      · exact Nat.lt_of_lt_of_le ht (List.rel_of_pairwise_cons hpairwise hother)

theorem mem_takeWhile_or_dropWhile {set : CodePoints} {s : Run} (hs : s ∈ set)
    (q : Run -> Bool) : s ∈ set.takeWhile q ∨ s ∈ set.dropWhile q := by
  rw [← List.mem_append, List.takeWhile_append_dropWhile]
  exact hs

/-- Ascending tables without a common code point.  Runs that end before the next run of the first
table are dropped for good. -/
def isApart : CodePoints -> CodePoints -> Bool
  | [], _ => true
  | r :: narrow, wide =>
      let ahead := wide.dropWhile fun s => s.last.blt r.first
      (ahead.takeWhile fun s => s.first.ble r.last).all r.isApart && isApart narrow ahead

theorem not_contains_of_isApart {narrow wide : CodePoints} (hnarrow : narrow.Ascending)
    (hwide : wide.Ascending) (h : narrow.isApart wide = true) {code : Nat}
    (hcode : narrow.contains code = true) : wide.contains code = false := by
  induction narrow generalizing wide with
  | nil => cases hcode
  | cons r narrow ih =>
      have hfirst := hnarrow.first_le hcode
      rcases Bool.and_eq_true_iff.mp h with ⟨hrun, hothers⟩
      have hahead : Ascending (wide.dropWhile fun s => s.last.blt r.first) :=
        hwide.suffix (List.dropWhile_suffix _)
      apply Bool.eq_false_iff.mpr
      intro hcontains
      rcases contains_iff.mp hcontains with ⟨s, hs, hscode⟩
      rcases Run.contains_iff.mp hscode with ⟨hsfirst, hslast, _⟩
      -- The run is not dropped, because it goes on behind the start of `r`.
      have hmem : s ∈ wide.dropWhile fun s => s.last.blt r.first := by
        rcases mem_takeWhile_or_dropWhile hs (fun s => s.last.blt r.first) with htaken | hleft
        · have htest := List.mem_takeWhile_imp htaken
          have hbefore : s.last < r.first := Nat.blt_eq.mp htest
          omega
        · exact hleft
      rcases contains_iff.mp hcode with ⟨r', hr', hrcode⟩
      rcases List.mem_cons.mp hr' with hsame | hother
      · rw [hsame] at hrcode
        rcases mem_takeWhile_or_dropWhile hmem (fun s => s.first.ble r.last) with hnear | hfar
        · exact Run.not_contains_of_isApart (List.all_eq_true.mp hrun s hnear) hrcode hscode
        · have hbehind := hahead.lt_first hfar
          have hlast := (Run.contains_iff.mp hrcode).right.left
          omega
      · have hnot := ih hnarrow.of_cons hahead hothers (contains_iff.mpr ⟨r', hother, hrcode⟩)
        rw [contains_iff.mpr ⟨s, hmem, hscode⟩] at hnot
        cases hnot

/-- Ascending tables that the comparison finds no common code point in. -/
def Apart (a b : CodePoints) : Prop :=
  a.Ascending ∧ b.Ascending ∧ a.isApart b = true

instance (a b : CodePoints) : Decidable (a.Apart b) :=
  inferInstanceAs (Decidable (a.Ascending ∧ b.Ascending ∧ a.isApart b = true))

theorem Apart.not_contains {a b : CodePoints} (h : a.Apart b) {code : Nat}
    (hcode : a.contains code = true) : b.contains code = false :=
  not_contains_of_isApart h.left h.right.left h.right.right hcode

end CodePoints
end Text
end ElmNavigator
