import ElmNavigator.Proofs.Place.NormalPaths

/-!
# Paths resolved by their text

Resolving a path by its text drops `.` and lets each `..` cancel the nearest name in
front of it that has not been cancelled yet.  A `..` that finds no name is dropped at
the root, and is kept in front of the names of a relative path.

Normalizing keeps such a `..` in any case, but the next one that finds no name takes
it away again.  So only their parity is left: one `..` of an odd number, also at the
root, and none of an even number.
-/

namespace ElmNavigator
namespace Path

/-!
## Resolution by the text
-/

/-- What is left of components when `.` is dropped and each `..` cancels the nearest name in front
of it that has not been cancelled: how many `..` find no name, and the names that are kept. -/
def leftover : List Component -> Nat × List (List UInt8)
  | [] => (0, [])
  | .parent :: cs => ((leftover cs).1 + 1, (leftover cs).2)
  | .name text :: cs =>
      match leftover cs with
      | (0, names) => (0, text :: names)
      -- The first `..` that finds no name behind this one finds this one.
      | (climbs + 1, names) => (climbs, names)
  | _ :: cs => leftover cs

/-- How many `..` of a path find no name to cancel. -/
def climbs (p : Path) : Nat :=
  (leftover p.components).1

/-- The names of a path that no `..` cancels. -/
def keptNames (p : Path) : List (List UInt8) :=
  (leftover p.components).2

def base (p : Path) : List Component :=
  if p.isAbsolute then [.root] else []

def rebuilt (p : Path) (ups : Nat) : Path :=
  ofComponents (p.base ++ (List.replicate ups .parent ++ p.keptNames.map .name))

/-- The path resolved by its text: a `..` that finds no name is dropped at the root, and is kept in
front of the names of a relative path. -/
def lexical (p : Path) : Path :=
  p.rebuilt (if p.isAbsolute then 0 else p.climbs)

/-!
## Components that are left
-/

theorem mem_of_mem_leftover {cs : List Component} {text : List UInt8}
    (h : text ∈ (leftover cs).2) : .name text ∈ cs := by
  induction cs with
  | nil => cases h
  | cons c cs ih =>
      cases c with
      | root => exact List.mem_cons_of_mem _ (ih h)
      | here => exact List.mem_cons_of_mem _ (ih h)
      | parent => exact List.mem_cons_of_mem _ (ih h)
      | name other =>
          rw [leftover] at h
          split at h
          · rename_i names hrest
            rw [hrest] at ih
            rcases List.mem_cons.mp h with hhead | htail
            · rw [hhead]
              exact List.mem_cons_self
            · exact List.mem_cons_of_mem _ (ih htail)
          · rename_i climbs names hrest
            rw [hrest] at ih
            exact List.mem_cons_of_mem _ (ih h)

theorem isName_of_mem_keptNames {p : Path} {text : List UInt8} (h : text ∈ p.keptNames) :
    IsName text := by
  have hmem := mem_of_mem_leftover h
  cases habsolute : p.isAbsolute with
  | true =>
      rcases components_of_absolute habsolute with ⟨inner, hcomponents, hinner⟩
      rw [hcomponents] at hmem
      rcases List.mem_cons.mp hmem with hroot | hname
      · cases hroot
      · exact hinner _ hname
  | false =>
      rcases components_of_relative habsolute hmem with hhere | hname
      · cases hhere
      · exact hname

theorem components_rebuilt (p : Path) (ups : Nat) :
    (p.rebuilt ups).components =
      p.base ++ (List.replicate ups .parent ++ p.keptNames.map .name) := by
  apply components_ofComponents_append
  · unfold base
    split
    · exact Or.inr rfl
    · exact Or.inl rfl
  · intro c hc
    rcases List.mem_append.mp hc with hparent | hname
    · rw [List.eq_of_mem_replicate hparent]
      trivial
    · rcases List.mem_map.mp hname with ⟨text, htext, heq⟩
      rw [← heq]
      exact isName_of_mem_keptNames htext

theorem rebuilt_inj {p : Path} {m n : Nat} : p.rebuilt m = p.rebuilt n ↔ m = n := by
  constructor
  · intro h
    have hlength := congrArg (fun q : Path => q.components.length) h
    simp only [components_rebuilt, List.length_append, List.length_replicate] at hlength
    omega
  · intro h
    rw [h]

/-!
## What normalizing leaves
-/

/-- Resolved components, last one first, after so many `..` have found no name. -/
def climbed (start : List Component) (climbs : Nat) : List Component :=
  List.replicate (climbs % 2) .parent ++ start

theorem resolveStep_climbed {start : List Component} (hstart : hasParent start = false)
    (climbs : Nat) : resolveStep (climbed start climbs) .parent = climbed start (climbs + 1) := by
  rcases Nat.mod_two_eq_zero_or_one climbs with heven | hodd
  · have hnext : (climbs + 1) % 2 = 1 := by omega
    simp [climbed, resolveStep, heven, hnext, hstart]
  · have hnext : (climbs + 1) % 2 = 0 := by omega
    simp [climbed, resolveStep, hodd, hnext, hasParent]

/-- The names in front of some components, last one first, are cancelled by the `..` among these
that find no name there.  If the names do not suffice, the rest of the `..` climb. -/
theorem foldl_resolveStep_leftover {start : List Component} (hstart : hasParent start = false)
    {cs : List Component} (hcs : .root ∉ cs) (climbs : Nat) (names : List (List UInt8)) :
    cs.foldl resolveStep (names.map .name ++ climbed start climbs) =
      ((leftover cs).2.map .name).reverse ++ ((names.drop (leftover cs).1).map .name ++
        climbed start (climbs + ((leftover cs).1 - names.length))) := by
  induction cs generalizing climbs names with
  | nil => simp [leftover]
  | cons c cs ih =>
      have hrest : .root ∉ cs := fun hmem => hcs (List.mem_cons_of_mem c hmem)
      rw [List.foldl_cons]
      cases c with
      | root => exact absurd List.mem_cons_self hcs
      | here => exact ih hrest climbs names
      | parent =>
          cases names with
          | nil =>
              have hstep := resolveStep_climbed hstart climbs
              rw [List.map_nil, List.nil_append, hstep]
              have hclimbed := ih hrest (climbs + 1) []
              rw [List.map_nil, List.nil_append] at hclimbed
              rw [hclimbed]
              simp [leftover, Nat.add_assoc, Nat.add_comm 1]
          | cons text names =>
              have hstep : resolveStep (.name text :: (names.map .name ++ climbed start climbs))
                  .parent = names.map .name ++ climbed start climbs := rfl
              rw [List.map_cons, List.cons_append, hstep, ih hrest climbs names]
              simp [leftover]
      | name text =>
          have hstep : resolveStep (names.map .name ++ climbed start climbs) (.name text) =
              (text :: names).map .name ++ climbed start climbs := rfl
          rw [hstep, ih hrest climbs (text :: names), leftover]
          split
          · rename_i kept hleft
            simp [hleft]
          · rename_i ups kept hleft
            simp [hleft]

theorem normalize_eq_rebuilt (p : Path) : p.normalize = p.rebuilt (p.climbs % 2) := by
  have hresolved : p.components.foldl resolveStep [] =
      (p.base ++ (List.replicate (p.climbs % 2) Component.parent ++
        p.keptNames.map Component.name)).reverse := by
    unfold base climbs keptNames
    cases habsolute : p.isAbsolute with
    | true =>
        rcases components_of_absolute habsolute with ⟨inner, hcomponents, hinner⟩
        have hroot : .root ∉ inner := fun hmem => hinner .root hmem
        have hstart : hasParent [.root] = false := rfl
        have hfold := foldl_resolveStep_leftover hstart hroot 0 []
        have hleft : leftover (.root :: inner) = leftover inner := rfl
        rw [hcomponents, hleft]
        show inner.foldl resolveStep [.root] = _
        simpa [climbed] using hfold
    | false =>
        have hroot : .root ∉ p.components := by
          intro hmem
          rcases components_of_relative habsolute hmem with hhere | hinner
          · cases hhere
          · exact hinner
        have hstart : hasParent [] = false := rfl
        have hfold := foldl_resolveStep_leftover hstart hroot 0 []
        simpa [climbed] using hfold
  unfold normalize resolvedComponents
  rw [hresolved, List.reverse_reverse]
  rfl

/-- Normalizing leaves one `..` of an odd number that find no name, and none of an even number.  It
resolves a path by its text exactly if the path is absolute and their number is even, or if it is
relative and there is at most one. -/
theorem normalize_eq_lexical_iff (p : Path) :
    p.normalize = p.rebuilt (p.climbs % 2) ∧
      (p.normalize = p.lexical ↔ if p.isAbsolute then p.climbs % 2 = 0 else p.climbs ≤ 1) := by
  have hnormal := normalize_eq_rebuilt p
  refine ⟨hnormal, ?_⟩
  rw [hnormal, lexical, rebuilt_inj]
  split
  · exact Iff.rfl
  · omega

/-- Two `..` in front of everything cancel each other, and one at the root stays. -/
theorem normalize_lost_parents :
    let twice := ofString "../.."
    let above := ofString "/.."
    twice.lexical = ofString "../.." ∧ twice.normalize = ofString "" ∧
      twice.normalize ≠ twice.lexical ∧
      above.lexical = ofString "/" ∧ above.normalize = ofString "/.." := by
  decide

end Path
end ElmNavigator
