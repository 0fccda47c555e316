import ElmNavigator.Disk.Listing
import ElmNavigator.Proofs.Place.NormalPaths
import ElmNavigator.Proofs.Text.Measures
import Mathlib.Data.List.Basic

/-!
# Paths of files below a directory

A file is listed under the path of a directory with its names behind it.  Such a
path is normal if the directory's is, tells the names apart, and is looked up by
the pieces of the directory's path and then the names.
-/

namespace ElmNavigator
namespace Disk

open Text ElmNavigator.Path

theorem pathBelow_nil (p : Path) : pathBelow p [] = p := rfl

theorem pathBelow_cons (p : Path) (name : List UInt8) (names : Place) :
    pathBelow p (name :: names) = pathBelow (p.join { bytes := name }) names := rfl

theorem pathBelow_append (p : Path) (names more : Place) :
    pathBelow p (names ++ more) = pathBelow (pathBelow p names) more := by
  unfold pathBelow
  exact List.foldl_append

/-!
## Texts
-/

theorem exists_bytes_join {name : List UInt8} (h : IsName name) (p : Path) :
    exists more, (p.join { bytes := name }).bytes = p.bytes ++ more ∧ more ≠ [] := by
  have hne : name ≠ [] := h.left
  unfold join
  rw [h.not_absolute]
  simp only [Bool.false_eq_true, if_false]
  split
  · exact ⟨name, rfl, hne⟩
  · exact ⟨slash :: name, rfl, by simp⟩

theorem exists_bytes_pathBelow {names : Place}
    (h : forall name, name ∈ names -> IsName name) (p : Path) :
    exists more, (pathBelow p names).bytes = p.bytes ++ more := by
  induction names generalizing p with
  | nil =>
      exact ⟨[], (List.append_nil p.bytes).symm⟩
  | cons name names ih =>
      rcases exists_bytes_join (h name List.mem_cons_self) p with ⟨first, hfirst, _hne⟩
      rcases ih (fun other hother => h other (List.mem_cons_of_mem name hother))
        (p.join { bytes := name }) with ⟨more, hmore⟩
      refine ⟨first ++ more, ?_⟩
      rw [pathBelow_cons, hmore, hfirst, List.append_assoc]

theorem isAbsolute_pathBelow {p : Path} (hp : p.isAbsolute = true) (names : Place) :
    (pathBelow p names).isAbsolute = true :=
  isAbsolute_foldl_join (fun name => { bytes := name }) hp names

theorem bytes_ne_nil {p : Path} (h : p.isAbsolute = true) : p.bytes ≠ [] := by
  intro hempty
  unfold isAbsolute at h
  rw [hempty] at h
  cases h

theorem checkPath_of_pathBelow {p : Path} {names more : Place}
    (hmore : forall name, name ∈ more -> IsName name)
    (hp : (pathBelow p names).bytes ≠ [])
    (h : Tree.checkPath (pathBelow p (names ++ more)) = .ok ()) :
    Tree.checkPath (pathBelow p names) = .ok () := by
  rw [pathBelow_append] at h
  rcases exists_bytes_pathBelow hmore (pathBelow p names) with ⟨rest, hrest⟩
  unfold Tree.checkPath Tree.isTooLong at h ⊢
  rw [hrest] at h
  split at h
  · cases h
  · rename_i hnul
    split at h
    · cases h
    · rename_i hlong
      have hnul' : ¬ (pathBelow p names).bytes.contains 0 = true := by
        intro hmem
        apply hnul
        simp only [List.contains_eq_mem, decide_eq_true_eq] at hmem ⊢
        exact List.mem_append_left rest hmem
      have hlong' : ¬ decide (Tree.pathLimit < (pathBelow p names).bytes.length) = true := by
        intro hlt
        apply hlong
        rw [List.length_append]
        simp only [decide_eq_true_eq] at hlt ⊢
        omega
      rw [if_neg hnul', if_neg hlong', if_neg hp]

/-!
## Components and normal forms
-/

theorem components_join_name {p : Path} {name : List UInt8} (hp : p.bytes ≠ [])
    (hname : IsName name) :
    (p.join { bytes := name }).components = p.components ++ [.name name] := by
  rw [components_join hp hname.not_absolute,
    splitOn_of_not_mem hname.right.right.right]
  simp [hname.pieceComponent]

theorem join_ne_nil {p : Path} {name : List UInt8} (hname : IsName name) :
    (p.join { bytes := name }).bytes ≠ [] := by
  rcases exists_bytes_join hname p with ⟨more, hmore, hne⟩
  rw [hmore]
  simp [hne]

theorem components_pathBelow {p : Path} {names : Place} (hp : p.bytes ≠ [])
    (h : forall name, name ∈ names -> IsName name) :
    (pathBelow p names).components = p.components ++ names.map .name := by
  induction names generalizing p with
  | nil =>
      rw [pathBelow_nil, List.map_nil, List.append_nil]
  | cons name names ih =>
      have hname := h name List.mem_cons_self
      rw [pathBelow_cons, ih (join_ne_nil hname) fun other hother =>
        h other (List.mem_cons_of_mem name hother), components_join_name hp hname]
      simp

theorem pathBelow_injective {p : Path} {names others : Place} (hp : p.bytes ≠ [])
    (hnames : forall name, name ∈ names -> IsName name)
    (hothers : forall name, name ∈ others -> IsName name)
    (h : pathBelow p names = pathBelow p others) : names = others := by
  have hcomponents : p.components ++ names.map Component.name =
      p.components ++ others.map Component.name := by
    rw [← components_pathBelow hp hnames, ← components_pathBelow hp hothers, h]
  have hinjective : Function.Injective Component.name := by
    intro a b hab
    injection hab
  exact List.map_injective_iff.mpr hinjective (List.append_cancel_left hcomponents)

theorem normalize_join_name {p : Path} {name : List UInt8} (hp : p.bytes ≠ [])
    (hname : IsName name) :
    (p.join { bytes := name }).normalize = p.normalize.join { bytes := name } := by
  unfold Path.normalize Path.resolvedComponents
  rw [components_join_name hp hname, List.foldl_append]
  simp [resolveStep, ofComponents_append_singleton, componentText]

theorem normalize_pathBelow {p : Path} {names : Place} (hp : p.bytes ≠ [])
    (hnormal : p.normalize = p) (h : forall name, name ∈ names -> IsName name) :
    (pathBelow p names).normalize = pathBelow p names := by
  induction names generalizing p with
  | nil =>
      exact hnormal
  | cons name names ih =>
      have hname := h name List.mem_cons_self
      rw [pathBelow_cons]
      apply ih (join_ne_nil hname)
      · rw [normalize_join_name hp hname, hnormal]
      · exact fun other hother => h other (List.mem_cons_of_mem name hother)

theorem resolvedComponents_pathBelow {p : Path} {names : Place} (hp : p.bytes ≠ [])
    (h : forall name, name ∈ names -> IsName name) :
    (pathBelow p names).resolvedComponents = p.resolvedComponents ++ names.map .name := by
  have hsteps (cs : List Component) (names : Place) :
      (names.map Component.name).foldl resolveStep cs =
        (names.map Component.name).reverse ++ cs := by
    induction names generalizing cs with
    | nil => rfl
    | cons name names ih => simp [ih, resolveStep]
  unfold resolvedComponents
  rw [components_pathBelow hp h, List.foldl_append, hsteps, List.reverse_append,
    List.reverse_reverse]

theorem normalize_pathBelow_injective {p : Path} {names others : Place} (hp : p.bytes ≠ [])
    (hnames : forall name, name ∈ names -> IsName name)
    (hothers : forall name, name ∈ others -> IsName name)
    (h : (pathBelow p names).normalize = (pathBelow p others).normalize) : names = others := by
  have hcomponents (q : Path) : q.normalize.components = q.resolvedComponents :=
    components_ofComponents (resolved_foldl_components q)
  have hresolved := congrArg Path.components h
  rw [hcomponents, hcomponents, resolvedComponents_pathBelow hp hnames,
    resolvedComponents_pathBelow hp hothers] at hresolved
  have hinjective : Function.Injective Component.name := by
    intro a b hab
    injection hab
  exact List.map_injective_iff.mpr hinjective (List.append_cancel_left hresolved)

/-!
## Pieces
-/

theorem pieces_absolute {p : Path} (h : p.isAbsolute = true) :
    Tree.pieces p = (splitOn slash p.bytes).tail := by
  unfold Tree.pieces
  rw [if_pos h]

theorem pieces_ne_nil {p : Path} (h : p.isAbsolute = true) : Tree.pieces p ≠ [] := by
  rw [pieces_absolute h]
  unfold isAbsolute at h
  cases hbytes : p.bytes with
  | nil =>
      rw [hbytes] at h
      cases h
  | cons c cs =>
      rw [hbytes] at h
      have hc : c = slash := by simpa using h
      simp only [splitOn, hc, if_true]
      exact splitOn_ne_nil slash cs

theorem pieces_slash {bytes name : List UInt8} (hname : IsName name)
    (h : isAbsolute { bytes := bytes ++ slash :: name } = true) :
    Tree.pieces { bytes := bytes ++ slash :: name } =
      (splitOn slash bytes).tail ++ [name] := by
  rw [pieces_absolute h]
  show (splitOn slash (bytes ++ slash :: name)).tail = _
  rw [splitOn_append_sep, splitOn_of_not_mem hname.right.right.right]
  cases hsplit : splitOn slash bytes with
  | nil => exact absurd hsplit (splitOn_ne_nil slash bytes)
  | cons first others => rfl

theorem getLast?_join {name : List UInt8} (h : IsName name) (p : Path) :
    (p.join { bytes := name }).bytes.getLast? ≠ some slash := by
  have hlast (front : List UInt8) : (front ++ name).getLast? ≠ some slash := by
    rw [List.getLast?_append_of_ne_nil front h.left]
    intro hslash
    exact h.right.right.right (List.mem_of_getLast? hslash)
  unfold join
  rw [h.not_absolute]
  simp only [Bool.false_eq_true, if_false]
  split
  · exact hlast p.bytes
  · have happend : p.bytes ++ slash :: name = (p.bytes ++ [slash]) ++ name := by simp
    rw [happend]
    exact hlast (p.bytes ++ [slash])

theorem pieces_join {p : Path} {name : List UInt8} (hp : p.isAbsolute = true)
    (hslash : p.bytes.getLast? ≠ some slash) (hname : IsName name) :
    Tree.pieces (p.join { bytes := name }) = Tree.pieces p ++ [name] := by
  have hjoin : p.join { bytes := name } = { bytes := p.bytes ++ slash :: name } := by
    simp [join, hname.not_absolute, bytes_ne_nil hp, hslash]
  have habsolute : isAbsolute { bytes := p.bytes ++ slash :: name } = true := by
    rw [← hjoin]
    exact isAbsolute_join hp { bytes := name }
  rw [hjoin, pieces_slash hname habsolute, pieces_absolute hp]

theorem pieces_pathBelow_of_not_slash {p : Path} {names : Place}
    (hp : p.isAbsolute = true) (hslash : p.bytes.getLast? ≠ some slash)
    (h : forall name, name ∈ names -> IsName name) :
    Tree.pieces (pathBelow p names) = Tree.pieces p ++ names := by
  induction names generalizing p with
  | nil =>
      rw [pathBelow_nil, List.append_nil]
  | cons name names ih =>
      have hname := h name List.mem_cons_self
      rw [pathBelow_cons, ih (isAbsolute_join hp _) (getLast?_join hname p) fun other hother =>
        h other (List.mem_cons_of_mem name hother), pieces_join hp hslash hname]
      simp

/-- The names come behind the pieces of the directory's path, less an empty one at its end. -/
theorem exists_pieces_pathBelow {p : Path} (hp : p.isAbsolute = true) :
    exists front, (Tree.pieces p = front ∨ Tree.pieces p = front ++ [[]]) ∧
      forall names, names ≠ [] -> (forall name, name ∈ names -> IsName name) ->
        Tree.pieces (pathBelow p names) = front ++ names := by
  by_cases hslash : p.bytes.getLast? = some slash
  · rcases List.getLast?_eq_some_iff.mp hslash with ⟨front, hfront⟩
    refine ⟨(splitOn slash front).tail, Or.inr ?_, ?_⟩
    · rw [pieces_absolute hp, hfront, splitOn_append_sep]
      cases hsplit : splitOn slash front with
      | nil => exact absurd hsplit (splitOn_ne_nil slash front)
      | cons first others => rfl
    · intro names hne h
      cases names with
      | nil => exact absurd rfl hne
      | cons name names =>
          have hname := h name List.mem_cons_self
          have hjoin : p.join { bytes := name } = { bytes := front ++ slash :: name } := by
            simp [join, hname.not_absolute, hfront]
          have habsolute := isAbsolute_join hp { bytes := name }
          rw [pathBelow_cons, pieces_pathBelow_of_not_slash habsolute (getLast?_join hname p)
            fun other hother => h other (List.mem_cons_of_mem name hother)]
          rw [hjoin] at habsolute ⊢
          rw [pieces_slash hname habsolute]
          simp
  · refine ⟨Tree.pieces p, Or.inl rfl, ?_⟩
    intro names _hne h
    exact pieces_pathBelow_of_not_slash hp hslash h

end Disk
end ElmNavigator
