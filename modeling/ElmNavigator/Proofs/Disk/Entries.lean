import ElmNavigator.Disk.Tree
import ElmNavigator.Proofs.Place.NormalPaths
import ElmNavigator.Proofs.Workspace.Tables
import Mathlib.Data.List.Induction

/-!
# Entries of a file tree

A tree is well formed if its entries are in order, their places are made of
names, and everything is in a directory.  What putting and removing an entry do
is said by what is at each place afterwards.
-/

namespace ElmNavigator
namespace Disk

def Place.ofNames (names : List String) : Place :=
  names.map fun name => Text.utf8 name.toList

namespace Tree

open ElmNavigator.Path

theorem node?_root (t : Tree) : t.node? [] = some .directory := rfl

theorem node?_eq_get? (t : Tree) {place : Place} (h : place ≠ []) :
    t.node? place = Table.get? t.entries place := by
  unfold node?
  rw [if_neg h]
  exact Table.lookup_eq_get? t.entries place

/-!
## Putting and removing
-/

theorem get?_insertEntry (place : Place) (node : Node) (entries : List (Place × Node))
    (other : Place) :
    Table.get? (insertEntry place node entries) other =
      if other = place then some node else Table.get? entries other := by
  induction entries with
  | nil =>
      exact Table.get?_cons (place, node) [] other
  | cons entry entries ih =>
      rcases entry with ⟨first, old⟩
      simp only [insertEntry]
      split
      · rename_i hfirst
        rw [Table.get?_cons, Table.get?_cons]
        by_cases hother : other = place
        · simp [hother]
        · have hne : other ≠ first := fun heq => hother (heq.trans hfirst.symm)
          simp [hother, hne]
      · split
        · rw [Table.get?_cons]
        · rename_i hfirst _
          rw [Table.get?_cons, Table.get?_cons, ih]
          by_cases hother : other = first
          · have hne : first ≠ place := fun heq => hfirst heq.symm
            simp [hother, hne]
          · simp [hother]

theorem node?_put (t : Tree) {place : Place} (h : place ≠ []) (node : Node)
    (other : Place) :
    (t.put place node).node? other =
      if other = place then some node else t.node? other := by
  by_cases hother : other = []
  · have hne : [] ≠ place := fun heq => h heq.symm
    rw [hother, node?_root, node?_root, if_neg hne]
  · rw [node?_eq_get? _ hother, node?_eq_get? _ hother]
    exact get?_insertEntry place node t.entries other

theorem node?_remove (t : Tree) {place : Place} (h : place ≠ []) (other : Place) :
    (t.remove place).node? other =
      if place.isPrefixOf other then none else t.node? other := by
  by_cases hother : other = []
  · have hbegins : place.isPrefixOf [] = false := by
      cases place with
      | nil => exact absurd rfl h
      | cons name names => rfl
    rw [hother, node?_root, node?_root, hbegins]
    rfl
  · rw [node?_eq_get? _ hother, node?_eq_get? _ hother]
    unfold remove
    rw [Table.get?_filter fun key => !place.isPrefixOf key]
    cases place.isPrefixOf other with
    | true => rfl
    | false => rfl

/-!
## Order
-/

def Sorted (t : Tree) : Prop :=
  t.entries.Pairwise fun a b => a.1 < b.1

theorem mem_insertEntry {place : Place} {node : Node} {entry : Place × Node}
    {entries : List (Place × Node)} (h : entry ∈ insertEntry place node entries) :
    entry = (place, node) ∨ entry ∈ entries := by
  induction entries with
  | nil =>
      exact Or.inl (List.mem_singleton.mp h)
  | cons first entries ih =>
      rcases first with ⟨other, old⟩
      simp only [insertEntry] at h
      split at h
      · rcases List.mem_cons.mp h with hhead | htail
        · exact Or.inl hhead
        · exact Or.inr (List.mem_cons_of_mem _ htail)
      · split at h
        · exact List.mem_cons.mp h
        · rcases List.mem_cons.mp h with hhead | htail
          · exact Or.inr (hhead ▸ List.mem_cons_self)
          · rcases ih htail with hnew | hold
            · exact Or.inl hnew
            · exact Or.inr (List.mem_cons_of_mem _ hold)

theorem pairwise_insertEntry {place : Place} {node : Node}
    {entries : List (Place × Node)}
    (h : entries.Pairwise fun a b => a.1 < b.1) :
    (insertEntry place node entries).Pairwise fun a b => a.1 < b.1 := by
  induction entries with
  | nil =>
      exact List.pairwise_singleton _ _
  | cons first entries ih =>
      rcases first with ⟨other, old⟩
      rcases List.pairwise_cons.mp h with ⟨hfirst, hrest⟩
      simp only [insertEntry]
      split
      · rename_i heq
        exact List.pairwise_cons.mpr ⟨fun entry hentry => heq ▸ hfirst entry hentry, hrest⟩
      · split
        · rename_i hlt
          apply List.pairwise_cons.mpr
          refine ⟨?_, h⟩
          intro entry hentry
          rcases List.mem_cons.mp hentry with hhead | htail
          · rw [hhead]
            exact hlt
          · exact List.lt_trans hlt (hfirst entry htail)
        · rename_i hne hlt
          apply List.pairwise_cons.mpr
          refine ⟨?_, ih hrest⟩
          intro entry hentry
          rcases mem_insertEntry hentry with hnew | hold
          · rw [hnew]
            exact Std.lt_of_le_of_ne (List.not_lt.mp hlt) (Ne.symm hne)
          · exact hfirst entry hold

theorem Sorted.put {t : Tree} (h : t.Sorted) (place : Place) (node : Node) :
    (t.put place node).Sorted :=
  pairwise_insertEntry h

theorem Sorted.remove {t : Tree} (h : t.Sorted) (place : Place) :
    (t.remove place).Sorted :=
  h.filter _

theorem Sorted.mem_iff {t : Tree} (h : t.Sorted) {place : Place} (hplace : place ≠ [])
    {node : Node} : (place, node) ∈ t.entries ↔ t.node? place = some node := by
  rw [node?_eq_get? t hplace]
  unfold Sorted at h
  generalize t.entries = entries at h
  induction entries with
  | nil =>
      simp [Table.get?_nil]
  | cons entry entries ih =>
      rcases List.pairwise_cons.mp h with ⟨hfirst, hrest⟩
      rw [Table.get?_cons, List.mem_cons]
      by_cases hentry : place = entry.1
      · rw [if_pos hentry]
        constructor
        · intro hmem
          rcases hmem with hhead | htail
          · rw [← hhead]
          · have hlt := hfirst _ htail
            rw [← hentry] at hlt
            exact absurd hlt (List.lt_irrefl place)
        · intro hnode
          injection hnode with hnode
          left
          rw [hentry, ← hnode]
      · rw [if_neg hentry, ← ih hrest]
        constructor
        · intro hmem
          rcases hmem with hhead | htail
          · exact absurd (congrArg Prod.fst hhead) hentry
          · exact htail
        · exact Or.inr

/-!
## Well-formed trees
-/

structure WellFormed (t : Tree) : Prop where
  sorted : t.Sorted
  named : forall place node, t.node? place = some node ->
    forall name, name ∈ place -> IsName name
  nested : forall place name node, t.node? (place ++ [name]) = some node ->
    t.node? place = some .directory

theorem WellFormed.directory {t : Tree} (h : t.WellFormed) {place more : Place}
    {node : Node} (hmore : more ≠ []) (hnode : t.node? (place ++ more) = some node) :
    t.node? place = some .directory := by
  induction more using List.reverseRecOn generalizing node with
  | nil =>
      exact absurd rfl hmore
  | append_singleton more name ih =>
      rw [← List.append_assoc] at hnode
      have hparent := h.nested (place ++ more) name node hnode
      by_cases hempty : more = []
      · rw [hempty, List.append_nil] at hparent
        exact hparent
      · exact ih hempty hparent

/-- Well-formedness is a matter of the entries alone, so it can be checked. -/
theorem wellFormed_iff {t : Tree} :
    t.WellFormed ↔ t.Sorted ∧ forall entry, entry ∈ t.entries -> entry.1 ≠ [] ->
      (forall name, name ∈ entry.1 -> IsName name) ∧
        t.node? entry.1.dropLast = some .directory := by
  constructor
  · intro h
    refine ⟨h.sorted, ?_⟩
    rintro ⟨place, node⟩ hentry hne
    have hnode := (h.sorted.mem_iff hne).mp hentry
    refine ⟨h.named place node hnode, ?_⟩
    rw [← List.dropLast_append_getLast hne] at hnode
    exact h.nested _ _ _ hnode
  · rintro ⟨hsorted, hentries⟩
    constructor
    case sorted => exact hsorted
    case named =>
      intro place node hnode name hname
      have hne := List.ne_nil_of_mem hname
      exact (hentries _ ((hsorted.mem_iff hne).mpr hnode) hne).left name hname
    case nested =>
      intro place name node hnode
      have hne : place ++ [name] ≠ [] := by simp
      have habove := (hentries _ ((hsorted.mem_iff hne).mpr hnode) hne).right
      rwa [List.dropLast_concat] at habove

instance (t : Tree) : Decidable t.Sorted :=
  inferInstanceAs (Decidable (List.Pairwise _ _))

instance (t : Tree) : Decidable t.WellFormed :=
  decidable_of_iff _ wellFormed_iff.symm

end Tree
end Disk
end ElmNavigator
