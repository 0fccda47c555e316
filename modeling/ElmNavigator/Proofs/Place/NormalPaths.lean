import ElmNavigator.Place.Path
import Mathlib.Data.List.Induction

/-!
# Normal forms of paths

Resolving the dots of a path leaves a root or none, at most one `..` and then
names.  Such a list of components is the list of components of the path that is
built from it, and resolving it once more changes nothing.  So a normalized path
is a key: normalizing it again gives the same path.
-/

namespace ElmNavigator

open Text

namespace Path

/-!
## Splitting at slashes
-/

section Splitting

variable {alpha : Type} [DecidableEq alpha]

theorem splitOn_ne_nil (sep : alpha) (cs : List alpha) : splitOn sep cs ≠ [] := by
  cases cs with
  | nil =>
      simp [splitOn]
  | cons c cs =>
      simp only [splitOn]
      split
      · simp
      · cases splitOn sep cs <;> simp

theorem splitOn_append_sep (sep : alpha) (a b : List alpha) :
    splitOn sep (a ++ sep :: b) = splitOn sep a ++ splitOn sep b := by
  induction a with
  | nil =>
      simp [splitOn]
  | cons c cs ih =>
      by_cases hc : c = sep
      · simp [splitOn, hc, ih]
      · simp only [List.cons_append, splitOn, hc, if_false, ih]
        cases hpieces : splitOn sep cs with
        | nil =>
            exact absurd hpieces (splitOn_ne_nil sep cs)
        | cons piece pieces =>
            rfl

theorem splitOn_of_not_mem {sep : alpha} {cs : List alpha} (h : sep ∉ cs) :
    splitOn sep cs = [cs] := by
  induction cs with
  | nil => rfl
  | cons c cs ih =>
      have hc : c ≠ sep := fun heq => h (heq ▸ List.mem_cons_self)
      have hcs : sep ∉ cs := fun hmem => h (List.mem_cons_of_mem c hmem)
      simp [splitOn, hc, ih hcs]

theorem not_mem_of_mem_splitOn {sep : alpha} {cs piece : List alpha}
    (h : piece ∈ splitOn sep cs) : sep ∉ piece := by
  induction cs generalizing piece with
  | nil =>
      rw [List.mem_singleton.mp h]
      simp
  | cons c cs ih =>
      by_cases hc : c = sep
      · simp only [splitOn, hc, if_true] at h
        rcases List.mem_cons.mp h with hhead | htail
        · rw [hhead]
          simp
        · exact ih htail
      · simp only [splitOn, hc, if_false] at h
        cases hpieces : splitOn sep cs with
        | nil =>
            exact absurd hpieces (splitOn_ne_nil sep cs)
        | cons first pieces =>
            rw [hpieces] at h ih
            rcases List.mem_cons.mp h with hhead | htail
            · rw [hhead]
              intro hmem
              rcases List.mem_cons.mp hmem with hsep | hfirst
              · exact hc hsep.symm
              · exact ih List.mem_cons_self hfirst
            · exact ih (List.mem_cons_of_mem first htail)

theorem mem_of_mem_splitOn {sep c : alpha} {cs piece : List alpha}
    (hpiece : piece ∈ splitOn sep cs) (hc : c ∈ piece) : c ∈ cs := by
  induction cs generalizing piece with
  | nil =>
      rw [List.mem_singleton.mp hpiece] at hc
      exact hc
  | cons d cs ih =>
      by_cases hd : d = sep
      · simp only [splitOn, hd, if_true] at hpiece
        rcases List.mem_cons.mp hpiece with hhead | htail
        · rw [hhead] at hc
          cases hc
        · exact List.mem_cons_of_mem d (ih htail hc)
      · simp only [splitOn, hd, if_false] at hpiece
        cases hpieces : splitOn sep cs with
        | nil =>
            exact absurd hpieces (splitOn_ne_nil sep cs)
        | cons first pieces =>
            rw [hpieces] at hpiece ih
            rcases List.mem_cons.mp hpiece with hhead | htail
            · rw [hhead] at hc
              rcases List.mem_cons.mp hc with heq | hfirst
              · rw [heq]
                exact List.mem_cons_self
              · exact List.mem_cons_of_mem d (ih List.mem_cons_self hfirst)
            · exact List.mem_cons_of_mem d (ih (List.mem_cons_of_mem first htail) hc)

theorem exists_mem_splitOn {sep c : alpha} {cs : List alpha} (hsep : c ≠ sep) (hc : c ∈ cs) :
    exists piece, piece ∈ splitOn sep cs ∧ c ∈ piece := by
  rcases List.append_of_mem hc with ⟨before, after, hcs⟩
  induction before generalizing cs with
  | nil =>
      subst hcs
      simp only [List.nil_append, splitOn, if_neg hsep]
      cases splitOn sep after with
      | nil => exact ⟨[c], List.mem_cons_self, List.mem_cons_self⟩
      | cons first pieces => exact ⟨c :: first, List.mem_cons_self, List.mem_cons_self⟩
  | cons d before ih =>
      subst hcs
      rcases ih (by simp) rfl with ⟨piece, hpiece, hmem⟩
      simp only [List.cons_append, splitOn]
      split
      · exact ⟨piece, List.mem_cons_of_mem [] hpiece, hmem⟩
      · cases hpieces : splitOn sep (before ++ c :: after) with
        | nil =>
            exact absurd hpieces (splitOn_ne_nil sep (before ++ c :: after))
        | cons first pieces =>
            rw [hpieces] at hpiece
            rcases List.mem_cons.mp hpiece with hhead | htail
            · exact ⟨d :: first, List.mem_cons_self, List.mem_cons_of_mem d (hhead ▸ hmem)⟩
            · exact ⟨piece, List.mem_cons_of_mem (d :: first) htail, hmem⟩

end Splitting

/-!
## Components of joined paths
-/

theorem components_slash (a b : List UInt8) (h : a ≠ []) :
    components { bytes := a ++ slash :: b } =
      components { bytes := a } ++
        (splitOn slash b).filterMap pieceComponent? := by
  have habsolute : isAbsolute { bytes := a ++ slash :: b } =
      isAbsolute { bytes := a } := by
    cases a with
    | nil => exact absurd rfl h
    | cons c cs => rfl
  simp only [components, splitOn_append_sep, habsolute]
  cases hpieces : splitOn slash a with
  | nil =>
      exact absurd hpieces (splitOn_ne_nil slash a)
  | cons first others =>
      simp

theorem components_root (b : List UInt8) :
    components { bytes := slash :: b } =
      .root :: (splitOn slash b).filterMap pieceComponent? := by
  simp [components, splitOn, isAbsolute]

theorem components_join {p other : Path} (hp : p.bytes ≠ [])
    (hother : other.isAbsolute = false) :
    (p.join other).components =
      p.components ++ (splitOn slash other.bytes).filterMap pieceComponent? := by
  rcases p with ⟨bytes⟩
  have hempty : bytes ≠ [] := hp
  by_cases hslash : bytes.getLast? = some slash
  · rcases List.getLast?_eq_some_iff.mp hslash with ⟨front, hfront⟩
    have hjoin : join { bytes } other =
        { bytes := front ++ slash :: other.bytes } := by
      simp [join, hother, hfront]
    rw [hjoin, hfront]
    cases front with
    | nil =>
        rw [List.nil_append, List.nil_append, components_root,
          components_root]
        rfl
    | cons c cs =>
        have hne : c :: cs ≠ [] := by simp
        rw [components_slash (c :: cs) other.bytes hne,
          components_slash (c :: cs) [] hne]
        simp [splitOn, pieceComponent?]
  · have hjoin : join { bytes } other =
        { bytes := bytes ++ slash :: other.bytes } := by
      simp [join, hother, hempty, hslash]
    rw [hjoin, components_slash bytes other.bytes hempty]

theorem isAbsolute_of_bytes {p other : Path} {more : List UInt8}
    (h : other.bytes = p.bytes ++ more) (hp : p.isAbsolute = true) :
    other.isAbsolute = true := by
  unfold isAbsolute at hp ⊢
  rw [h]
  cases hbytes : p.bytes with
  | nil =>
      rw [hbytes] at hp
      cases hp
  | cons c cs =>
      rw [hbytes] at hp
      exact hp

theorem isAbsolute_join {p : Path} (hp : p.isAbsolute = true) (other : Path) :
    (p.join other).isAbsolute = true := by
  unfold join
  split
  · rename_i hother
    exact hother
  · split
    · exact isAbsolute_of_bytes rfl hp
    · exact isAbsolute_of_bytes rfl hp

theorem isAbsolute_foldl_join {α : Type} (f : α -> Path) {p : Path} (hp : p.isAbsolute = true)
    (xs : List α) : (xs.foldl (fun p x => p.join (f x)) p).isAbsolute = true := by
  induction xs generalizing p with
  | nil => exact hp
  | cons x xs ih => exact ih (isAbsolute_join hp (f x))

/-!
## Resolved components
-/

def IsName (text : List UInt8) : Prop :=
  text ≠ [] ∧ text ≠ [dot] ∧ text ≠ [dot, dot] ∧ slash ∉ text

instance (text : List UInt8) : Decidable (IsName text) :=
  inferInstanceAs (Decidable (_ ∧ _))

theorem IsName.pieceComponent {text : List UInt8} (h : IsName text) :
    pieceComponent? text = some (.name text) := by
  rcases h with ⟨hne, hdot, hdots, _hslash⟩
  simp [pieceComponent?, hne, hdot, hdots]

theorem IsName.not_absolute {text : List UInt8} (h : IsName text) :
    isAbsolute { bytes := text } = false := by
  rcases h with ⟨hne, _hdot, _hdots, hslash⟩
  cases text with
  | nil => rfl
  | cons c cs =>
      have hc : c ≠ slash := fun heq => hslash (heq ▸ List.mem_cons_self)
      simp [isAbsolute, hc]

/-- Components, last one first, that resolving dots leaves. -/
inductive Resolved : List Component -> Prop where
  | empty : Resolved []
  | root : Resolved [.root]
  | up : Resolved [.parent]
  | rootUp : Resolved [.parent, .root]
  | name {cs : List Component} {text : List UInt8} :
      Resolved cs -> IsName text -> Resolved (.name text :: cs)

/-- Components behind the first one: `..` and names. -/
def IsInner : Component -> Prop
  | .parent => True
  | .name text => IsName text
  | _ => False

theorem Resolved.step {cs : List Component} {c : Component}
    (h : Resolved cs) (hc : IsInner c) : Resolved (resolveStep cs c) := by
  cases c with
  | root => cases hc
  | here => cases hc
  | name text => exact Resolved.name h hc
  | parent =>
      cases h with
      | empty => exact Resolved.up
      | root => exact Resolved.rootUp
      | up => exact Resolved.empty
      | rootUp => exact Resolved.root
      | name hrest htext => exact hrest

theorem Resolved.steps {cs : List Component} (h : Resolved cs)
    {more : List Component} (hmore : forall c, c ∈ more -> c = .here ∨ IsInner c) :
    Resolved (more.foldl resolveStep cs) := by
  induction more generalizing cs with
  | nil => exact h
  | cons c more ih =>
      have hrest : forall d, d ∈ more -> d = .here ∨ IsInner d := fun d hd =>
        hmore d (List.mem_cons_of_mem c hd)
      rcases hmore c List.mem_cons_self with hhere | hinner
      · rw [hhere]
        exact ih h hrest
      · exact ih (h.step hinner) hrest

theorem isInner_of_pieceComponent {piece : List UInt8} {c : Component}
    (hslash : slash ∉ piece) (h : pieceComponent? piece = some c) :
    IsInner c := by
  unfold pieceComponent? at h
  split at h
  · cases h
  · rename_i hblank
    split at h
    · injection h with hc
      rw [← hc]
      trivial
    · rename_i hdots
      injection h with hc
      rw [← hc]
      simp only [Bool.or_eq_true, decide_eq_true_eq, not_or] at hblank
      exact ⟨hblank.left, hblank.right, hdots, hslash⟩

theorem isInner_of_mem_filterMap {pieces : List (List UInt8)} {c : Component}
    (hslash : forall piece, piece ∈ pieces -> slash ∉ piece)
    (h : c ∈ pieces.filterMap pieceComponent?) : IsInner c := by
  rcases List.mem_filterMap.mp h with ⟨piece, hpiece, hc⟩
  exact isInner_of_pieceComponent (hslash piece hpiece) hc

theorem components_of_absolute {p : Path} (h : p.isAbsolute = true) :
    exists inner, p.components = .root :: inner ∧ forall c, c ∈ inner -> IsInner c := by
  unfold components
  cases hpieces : splitOn slash p.bytes with
  | nil => exact absurd hpieces (splitOn_ne_nil slash p.bytes)
  | cons first others =>
      refine ⟨others.filterMap pieceComponent?, by simp [h], ?_⟩
      intro c hc
      apply isInner_of_mem_filterMap _ hc
      intro piece hpiece
      apply not_mem_of_mem_splitOn
      rw [hpieces]
      exact List.mem_cons_of_mem first hpiece

theorem components_of_relative {p : Path} (h : p.isAbsolute = false) {c : Component}
    (hc : c ∈ p.components) : c = .here ∨ IsInner c := by
  unfold components at hc
  cases hpieces : splitOn slash p.bytes with
  | nil => exact absurd hpieces (splitOn_ne_nil slash p.bytes)
  | cons first others =>
      have hslash : forall piece, piece ∈ first :: others -> slash ∉ piece := by
        intro piece hpiece
        rw [← hpieces] at hpiece
        exact not_mem_of_mem_splitOn hpiece
      simp only [hpieces, h, Bool.false_eq_true, if_false] at hc
      rcases List.mem_append.mp hc with hfirst | hother
      · rw [Option.mem_toList, firstComponent?] at hfirst
        split at hfirst
        · left
          exact (Option.some.inj hfirst).symm
        · right
          exact isInner_of_pieceComponent (hslash first List.mem_cons_self) hfirst
      · right
        exact isInner_of_mem_filterMap
          (fun piece hpiece => hslash piece (List.mem_cons_of_mem first hpiece)) hother

theorem resolved_foldl_components (p : Path) :
    Resolved (p.components.foldl resolveStep []) := by
  cases habsolute : p.isAbsolute with
  | true =>
      rcases components_of_absolute habsolute with ⟨inner, hcomponents, hinner⟩
      rw [hcomponents]
      exact Resolved.root.steps fun c hc => Or.inr (hinner c hc)
  | false =>
      exact Resolved.empty.steps fun c hc => components_of_relative habsolute hc

/-!
## Paths built from resolved components
-/

theorem ofComponents_append_singleton (cs : List Component) (c : Component) :
    ofComponents (cs ++ [c]) = (ofComponents cs).join { bytes := componentText c } := by
  simp [ofComponents]

theorem IsInner.pieceComponent {c : Component} (h : IsInner c) :
    pieceComponent? (componentText c) = some c := by
  cases c with
  | root => cases h
  | here => cases h
  | parent => rfl
  | name text => exact IsName.pieceComponent h

theorem IsInner.slash_not_mem {c : Component} (h : IsInner c) : slash ∉ componentText c := by
  cases c with
  | root => cases h
  | here => cases h
  | parent => decide
  | name text => exact h.right.right.right

theorem IsInner.not_absolute {c : Component} (h : IsInner c) :
    isAbsolute { bytes := componentText c } = false := by
  cases c with
  | root => cases h
  | here => cases h
  | parent => rfl
  | name text => exact IsName.not_absolute h

theorem components_of_inner {c : Component} (h : IsInner c) :
    components { bytes := componentText c } = [c] := by
  have hdot : componentText c ≠ [dot] := by
    intro heq
    have hpiece := h.pieceComponent
    rw [heq] at hpiece
    cases hpiece
  simp [components, splitOn_of_not_mem h.slash_not_mem, h.not_absolute, firstComponent?, hdot,
    h.pieceComponent]

theorem components_ofComponents_append {start inner : List Component}
    (hstart : start = [] ∨ start = [.root]) (h : forall c, c ∈ inner -> IsInner c) :
    (ofComponents (start ++ inner)).components = start ++ inner := by
  induction inner using List.reverseRecOn with
  | nil =>
      rcases hstart with hempty | hroot
      · rw [hempty]
        rfl
      · rw [hroot]
        rfl
  | append_singleton inner c ih =>
      have hc : IsInner c := h c (by simp)
      have hbefore := ih fun d hd => h d (List.mem_append_left [c] hd)
      rw [← List.append_assoc, ofComponents_append_singleton]
      by_cases hempty : (ofComponents (start ++ inner)).bytes = []
      · -- Nothing stands in front of the component.
        have hpath : ofComponents (start ++ inner) = { bytes := [] } :=
          congrArg Path.mk hempty
        have hnone : start ++ inner = [] := by
          rw [← hbefore, hpath]
          rfl
        have hjoin : join { bytes := [] } { bytes := componentText c } =
            { bytes := componentText c } := by
          simp [join, hc.not_absolute]
        rw [hpath, hnone, hjoin]
        exact components_of_inner hc
      · rw [components_join hempty hc.not_absolute, hbefore,
          splitOn_of_not_mem hc.slash_not_mem]
        simp [hc.pieceComponent]

theorem Resolved.exists_inner {cs : List Component} (h : Resolved cs) :
    exists start inner, cs.reverse = start ++ inner ∧ (start = [] ∨ start = [.root]) ∧
      forall c, c ∈ inner -> IsInner c := by
  have hparent : forall c, c ∈ [Component.parent] -> IsInner c := by
    intro c hc
    rw [List.mem_singleton.mp hc]
    trivial
  induction h with
  | empty => exact ⟨[], [], rfl, Or.inl rfl, List.forall_mem_nil IsInner⟩
  | root => exact ⟨[.root], [], rfl, Or.inr rfl, List.forall_mem_nil IsInner⟩
  | up => exact ⟨[], [.parent], rfl, Or.inl rfl, hparent⟩
  | rootUp => exact ⟨[.root], [.parent], rfl, Or.inr rfl, hparent⟩
  | name hrest htext ih =>
      rename_i cs text
      rcases ih with ⟨start, inner, hcs, hstart, hinner⟩
      refine ⟨start, inner ++ [.name text], ?_, hstart, ?_⟩
      · rw [List.reverse_cons, hcs, List.append_assoc]
      · intro c hc
        rcases List.mem_append.mp hc with hfront | hlast
        · exact hinner c hfront
        · rw [List.mem_singleton.mp hlast]
          exact htext

theorem components_ofComponents {cs : List Component} (h : Resolved cs) :
    (ofComponents cs.reverse).components = cs.reverse := by
  rcases h.exists_inner with ⟨start, inner, hcs, hstart, hinner⟩
  rw [hcs]
  exact components_ofComponents_append hstart hinner

theorem foldl_resolveStep_reverse {cs : List Component} (h : Resolved cs) :
    cs.reverse.foldl resolveStep [] = cs := by
  induction h with
  | empty => rfl
  | root => rfl
  | up => rfl
  | rootUp => rfl
  | name hrest htext ih =>
      rw [List.reverse_cons, List.foldl_append, ih]
      rfl

theorem normalize_ofComponents {cs : List Component} (h : Resolved cs) :
    (ofComponents cs.reverse).normalize = ofComponents cs.reverse := by
  unfold normalize resolvedComponents
  rw [components_ofComponents h, foldl_resolveStep_reverse h]

theorem normalize_normalize (p : Path) : p.normalize.normalize = p.normalize :=
  normalize_ofComponents (resolved_foldl_components p)

/-!
## Paths that keep their components
-/

theorem components_normalize (p : Path) : p.normalize.components = p.resolvedComponents :=
  components_ofComponents (resolved_foldl_components p)

theorem Resolved.parent_not_mem {cs : List Component} (h : Resolved cs) :
    Component.parent ∉ cs.reverse.drop 2 := by
  induction h with
  | empty => decide
  | root => decide
  | up => decide
  | rootUp => decide
  | name hrest htext ih =>
      rw [List.reverse_cons, List.drop_append]
      intro hmem
      rcases List.mem_append.mp hmem with hfront | hlast
      · exact ih hfront
      · cases List.mem_singleton.mp (List.mem_of_mem_drop hlast)

theorem foldl_resolveStep_of_no_parent {cs : List Component}
    (hinner : forall c, c ∈ cs -> IsInner c) (h : Component.parent ∉ cs)
    (resolved : List Component) : cs.foldl resolveStep resolved = cs.reverse ++ resolved := by
  induction cs generalizing resolved with
  | nil => rfl
  | cons c cs ih =>
      have hstep : resolveStep resolved c = c :: resolved := by
        cases c with
        | root => rfl
        | here => cases hinner .here List.mem_cons_self
        | parent => exact absurd List.mem_cons_self h
        | name text => rfl
      rw [List.foldl_cons, hstep,
        ih (fun d hd => hinner d (List.mem_cons_of_mem c hd))
          (fun hmem => h (List.mem_cons_of_mem c hmem)),
        List.reverse_cons, List.append_assoc]
      rfl

/-- Normalizing an absolute path keeps its components exactly if every `..` of it stands right
behind the root. -/
theorem components_normalize_eq_iff {p : Path} (h : p.isAbsolute = true) :
    p.normalize.components = p.components ↔ Component.parent ∉ p.components.drop 2 := by
  rw [components_normalize]
  constructor
  · intro hsame
    rw [← hsame]
    exact (resolved_foldl_components p).parent_not_mem
  · intro hback
    unfold resolvedComponents
    rcases components_of_absolute h with ⟨inner, hcomponents, hinner⟩
    rw [hcomponents] at hback ⊢
    cases inner with
    | nil => rfl
    | cons c inner =>
        have hrest := foldl_resolveStep_of_no_parent
          (fun d hd => hinner d (List.mem_cons_of_mem c hd)) hback
        have hfirst : resolveStep [.root] c = [c, .root] := by
          cases c with
          | root => rfl
          | here => cases hinner .here List.mem_cons_self
          | parent => rfl
          | name text => rfl
        show ((inner.foldl resolveStep (resolveStep [.root] c)).reverse : List Component) = _
        rw [hfirst, hrest]
        simp

end Path
end ElmNavigator
