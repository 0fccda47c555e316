import ElmNavigator.Workspace.Table
import Mathlib.Data.List.Nodup
import Mathlib.Logic.Basic

/-!
# Tables through their look-ups

What a change does to a table is said by what can be looked up afterwards.  A
table that is built by the operations has one entry for each key, so two tables
with the same look-ups hold the same entries.
-/

namespace ElmNavigator
namespace Table

variable {κ α : Type} [DecidableEq κ]

theorem lookup_eq_get? [BEq κ] [LawfulBEq κ] (t : Table κ α) (k : κ) :
    List.lookup k t = get? t k := by
  unfold get?
  congr
  exact lawful_beq_subsingleton _ _

theorem get?_nil (k : κ) : get? ([] : Table κ α) k = none := rfl

theorem get?_cons (entry : κ × α) (t : Table κ α) (k : κ) :
    get? (entry :: t) k = if k = entry.1 then some entry.2 else get? t k := by
  rcases entry with ⟨key, a⟩
  unfold get?
  by_cases hk : k = key
  · simp [hk]
  · have hbeq : (k == key) = false := beq_eq_false_iff_ne.mpr hk
    simp [List.lookup_cons, hk, hbeq]

theorem get?_eq_none {t : Table κ α} {k : κ} (h : forall entry, entry ∈ t -> entry.1 ≠ k) :
    get? t k = none := by
  unfold get?
  rw [List.lookup_eq_none_iff]
  intro entry hentry
  exact bne_iff_ne.mpr (h entry hentry).symm

theorem get?_filter (keep : κ -> Bool) (t : Table κ α) (k : κ) :
    get? (t.filter fun entry => keep entry.1) k =
      if keep k then get? t k else none := by
  induction t with
  | nil =>
      rw [List.filter_nil, get?_nil]
      split <;> rfl
  | cons entry t ih =>
      rw [List.filter_cons, get?_cons]
      cases hkeep : keep entry.1 with
      | true =>
          rw [if_pos rfl, get?_cons]
          by_cases hk : k = entry.1
          · simp [hk, hkeep]
          · simp [hk, ih]
      | false =>
          rw [if_neg Bool.false_ne_true, ih]
          by_cases hk : k = entry.1
          · simp [hk, hkeep]
          · simp [hk]

theorem get?_erase (t : Table κ α) (k other : κ) :
    get? (erase t k) other = if other = k then none else get? t other := by
  unfold erase
  rw [get?_filter fun key => decide (key ≠ k)]
  by_cases hother : other = k
  · simp [hother]
  · simp [hother]

theorem get?_insert (t : Table κ α) (k : κ) (a : α) (other : κ) :
    get? (insert t k a) other = if other = k then some a else get? t other := by
  unfold insert
  rw [get?_cons, get?_erase]
  by_cases hother : other = k
  · simp [hother]
  · simp [hother]

theorem insert_erase_insert (t : Table κ α) (k : κ) (a : α) :
    ((t.insert k a).erase k).insert k a = t.insert k a := by
  simp [insert, erase]

/-!
## One entry for each key
-/

/-- No key has two entries. -/
def Distinct (t : Table κ α) : Prop :=
  (t.map Prod.fst).Nodup

theorem Distinct.erase {t : Table κ α} (h : Distinct t) (k : κ) : Distinct (erase t k) :=
  h.sublist (List.Sublist.map Prod.fst List.filter_sublist)

theorem Distinct.insert {t : Table κ α} (h : Distinct t) (k : κ) (a : α) :
    Distinct (insert t k a) := by
  unfold Table.insert Distinct
  rw [List.map_cons, List.nodup_cons]
  refine ⟨?_, h.erase k⟩
  intro hmem
  rcases List.mem_map.mp hmem with ⟨entry, hentry, hkey⟩
  have hne := (List.mem_filter.mp hentry).right
  simp [hkey] at hne

theorem Distinct.mem_iff {t : Table κ α} (h : Distinct t) {k : κ} {a : α} :
    (k, a) ∈ t ↔ get? t k = some a := by
  induction t with
  | nil =>
      simp [get?_nil]
  | cons entry t ih =>
      rcases List.nodup_cons.mp h with ⟨hfresh, hrest⟩
      rw [List.mem_cons, get?_cons, ih hrest]
      by_cases hk : k = entry.1
      · have hnone : get? t k ≠ some a := by
          intro hsome
          apply hfresh
          rw [← hk]
          exact List.mem_map_of_mem ((ih hrest).mpr hsome)
        rw [if_pos hk]
        constructor
        · rintro (hhead | htail)
          · rw [← hhead]
          · exact absurd htail hnone
        · intro hsome
          left
          rw [hk, ← Option.some.inj hsome]
      · rw [if_neg hk]
        constructor
        · rintro (hhead | htail)
          · exact absurd (congrArg Prod.fst hhead) hk
          · exact htail
        · exact Or.inr

theorem Distinct.mem_keys {t : Table κ α} (h : Distinct t) {k : κ} :
    k ∈ t.map Prod.fst ↔ exists a, get? t k = some a := by
  rw [List.mem_map]
  constructor
  · rintro ⟨⟨key, a⟩, hentry, hkey⟩
    subst hkey
    exact ⟨a, h.mem_iff.mp hentry⟩
  · rintro ⟨a, ha⟩
    exact ⟨(k, a), h.mem_iff.mpr ha, rfl⟩

theorem Distinct.perm {t other : Table κ α} (h : Distinct t) (hother : Distinct other)
    (hsame : forall k, get? t k = get? other k) : t.Perm other := by
  rw [List.perm_ext_iff_of_nodup (List.Nodup.of_map Prod.fst h)
    (List.Nodup.of_map Prod.fst hother)]
  rintro ⟨k, a⟩
  rw [h.mem_iff, hother.mem_iff, hsame]

end Table
end ElmNavigator
