import ElmNavigator.Disk.Listing
import ElmNavigator.Proofs.Glob.Rests

/-!
# Patterns for whole directories

What a part of a pattern takes off the front of a text does not depend on what
follows.  So a pattern that ends in two stars and matches one name in a directory
matches everything in it.
-/

namespace ElmNavigator
namespace Glob

open Text

/-!
## What parts take
-/

/-- A part can take a front off every text that has it. -/
def Part.Takes (part : Part) (front : List UInt8) : Prop :=
  forall rest, rest ∈ part.rests (front ++ rest)

theorem exists_front_suffixes {text rest : List UInt8} (h : rest ∈ suffixes text) :
    exists front, text = front ++ rest := by
  induction text with
  | nil =>
      exact ⟨[], (List.mem_singleton.mp h).symm⟩
  | cons b text ih =>
      rcases List.mem_cons.mp h with hwhole | hlater
      · exact ⟨[], hwhole.symm⟩
      · rcases ih hlater with ⟨front, hfront⟩
        exact ⟨b :: front, by rw [hfront]; rfl⟩

theorem mem_suffixes (front rest : List UInt8) : rest ∈ suffixes (front ++ rest) := by
  induction front with
  | nil =>
      cases rest with
      | nil => exact List.mem_singleton_self _
      | cons b rest => exact List.mem_cons_self
  | cons b front ih =>
      exact List.mem_cons_of_mem _ ih

theorem exists_front_restsInComponent {text rest : List UInt8}
    (h : rest ∈ restsInComponent text) :
    exists front, text = front ++ rest ∧ slash ∉ front := by
  induction text with
  | nil =>
      exact ⟨[], (List.mem_singleton.mp h).symm, List.not_mem_nil⟩
  | cons b text ih =>
      rw [restsInComponent] at h
      rcases List.mem_cons.mp h with hwhole | hlater
      · exact ⟨[], hwhole.symm, List.not_mem_nil⟩
      · split at hlater
        · cases hlater
        · rename_i hb
          rcases ih hlater with ⟨front, hfront, hslash⟩
          refine ⟨b :: front, by rw [hfront]; rfl, ?_⟩
          intro hmem
          rcases List.mem_cons.mp hmem with hhead | htail
          · exact hb hhead.symm
          · exact hslash htail

mutual

theorem exists_taken (part : Part) {text rest : List UInt8} (h : rest ∈ part.rests text) :
    exists front, text = front ++ rest ∧ part.Takes front := by
  cases part with
  | literal c =>
      exact ⟨_, mem_rests_literal.mp h, fun _ => mem_rests_literal.mpr rfl⟩
  | any =>
      cases text with
      | nil => cases h
      | cons b text =>
          rw [Part.rests] at h
          split at h
          · cases h
          · rename_i hb
            refine ⟨[b], by rw [List.mem_singleton.mp h]; rfl, ?_⟩
            intro other
            rw [List.singleton_append, Part.rests, if_neg hb]
            exact List.mem_singleton_self other
  | star =>
      rw [Part.rests] at h
      rcases exists_front_restsInComponent h with ⟨front, hfront, hslash⟩
      refine ⟨front, hfront, ?_⟩
      intro other
      rw [Part.rests]
      exact mem_restsInComponent hslash
  | anyPrefix =>
      rcases mem_rests_anyPrefix.mp h with hwhole | ⟨front, hfront⟩
      · exact ⟨[], hwhole.symm, fun _ => mem_rests_anyPrefix.mpr (Or.inl rfl)⟩
      · refine ⟨front ++ [slash], by rw [hfront]; simp, ?_⟩
        intro other
        exact mem_rests_anyPrefix.mpr (Or.inr ⟨front, by simp⟩)
  | anySuffix =>
      cases text with
      | nil => cases h
      | cons b text =>
          rw [Part.rests] at h
          split at h
          · rename_i hb
            rcases exists_front_suffixes h with ⟨front, hfront⟩
            refine ⟨b :: front, by rw [hfront]; rfl, ?_⟩
            intro other
            rw [List.cons_append, Part.rests, if_pos hb]
            exact mem_suffixes front other
          · cases h
  | anyMiddle =>
      cases text with
      | nil => cases h
      | cons b text =>
          rw [Part.rests] at h
          split at h
          · rename_i hb
            rcases List.mem_cons.mp h with hwhole | hlater
            · refine ⟨[b], by rw [hwhole]; rfl, ?_⟩
              intro other
              rw [List.singleton_append, Part.rests, if_pos hb]
              exact List.mem_cons_self
            · rcases mem_restsBehindSlash.mp hlater with ⟨front, hfront⟩
              refine ⟨b :: (front ++ [slash]), by rw [hfront]; simp, ?_⟩
              intro other
              rw [List.cons_append, Part.rests, if_pos hb]
              exact List.mem_cons_of_mem _ (mem_restsBehindSlash.mpr ⟨front, by simp⟩)
          · cases h
  | charClass negated ranges =>
      cases text with
      | nil => cases h
      | cons b text =>
          rw [Part.rests] at h
          split at h
          · rename_i hb
            refine ⟨[b], by rw [List.mem_singleton.mp h]; rfl, ?_⟩
            intro other
            rw [List.singleton_append, Part.rests, if_pos hb]
            exact List.mem_singleton_self other
          · cases h
  | alternatives branches =>
      rw [Part.rests] at h
      split at h
      · rename_i hvoid
        refine ⟨[], (List.mem_singleton.mp h).symm, ?_⟩
        intro other
        rw [Part.rests, if_pos hvoid]
        exact List.mem_singleton_self other
      · rename_i hvoid
        rcases exists_taken_branches branches h with ⟨front, hfront, htakes⟩
        refine ⟨front, hfront, ?_⟩
        intro other
        rw [Part.rests, if_neg hvoid]
        exact htakes other

theorem exists_taken_parts (parts : List Part) {text rest : List UInt8}
    (h : Leaves parts text rest) :
    exists front, text = front ++ rest ∧ forall other, Leaves parts (front ++ other) other := by
  cases parts with
  | nil =>
      exact ⟨[], h, fun _ => rfl⟩
  | cons part parts =>
      rcases h with ⟨middle, hmiddle, hleaves⟩
      rcases exists_taken part hmiddle with ⟨first, hfirst, htakes⟩
      rcases exists_taken_parts parts hleaves with ⟨second, hsecond, hothers⟩
      refine ⟨first ++ second, by rw [hfirst, hsecond, List.append_assoc], ?_⟩
      intro other
      refine ⟨second ++ other, ?_, hothers other⟩
      rw [List.append_assoc]
      exact htakes (second ++ other)

theorem exists_taken_branches (branches : List (List Part)) {text rest : List UInt8}
    (h : rest ∈ branchRests branches text) :
    exists front, text = front ++ rest ∧
      forall other, other ∈ branchRests branches (front ++ other) := by
  cases branches with
  | nil => cases h
  | cons branch branches =>
      rw [branchRests] at h
      rcases List.mem_append.mp h with hfirst | hlater
      · split at hfirst
        · cases hfirst
        · rename_i hvoid
          rcases mem_partsRests.mp hfirst with ⟨whole, hwhole, hleaves⟩
          rw [List.mem_singleton.mp hwhole] at hleaves
          rcases exists_taken_parts branch hleaves with ⟨front, hfront, hothers⟩
          refine ⟨front, hfront, ?_⟩
          intro other
          rw [branchRests, if_neg hvoid]
          exact List.mem_append_left _
            (mem_partsRests.mpr ⟨_, List.mem_singleton_self _, hothers other⟩)
      · rcases exists_taken_branches branches hlater with ⟨front, hfront, hothers⟩
        refine ⟨front, hfront, ?_⟩
        intro other
        rw [branchRests]
        exact List.mem_append_right _ (hothers other)

end

/-!
## Everything in a directory
-/

theorem leaves_append {front back : List Part} {text rest : List UInt8} :
    Leaves (front ++ back) text rest ↔
      exists middle, Leaves front text middle ∧ Leaves back middle rest := by
  induction front generalizing text with
  | nil =>
      simp [Leaves]
  | cons part front ih =>
      simp only [List.cons_append, Leaves, ih]
      constructor
      · rintro ⟨next, hnext, middle, hfront, hback⟩
        exact ⟨middle, ⟨next, hnext, hfront⟩, hback⟩
      · rintro ⟨middle, ⟨next, hnext, hfront⟩, hback⟩
        exact ⟨next, hnext, middle, hfront, hback⟩

theorem leaves_anySuffix {text : List UInt8} :
    Leaves [.anySuffix] text [] ↔ exists rest, text = slash :: rest := by
  have hend (rest : List UInt8) : [] ∈ suffixes rest := by
    simpa using mem_suffixes rest []
  cases text with
  | nil =>
      simp [Leaves, Part.rests]
  | cons b text =>
      by_cases hb : b = slash
      · simp [Leaves, Part.rests, hb, hend]
      · simp [Leaves, Part.rests, hb]

/-- Patterns that end in a slash and two stars. -/
def EndsBelow (glob : Glob) : Prop :=
  exists front, glob.parts = front ++ [.anySuffix]

theorem EndsBelow.isMatch_iff {glob : Glob} {front : List Part}
    (h : glob.parts = front ++ [.anySuffix]) (text : List UInt8) :
    glob.isMatch text = true ↔ exists rest, Leaves front text (slash :: rest) := by
  have hmatch : glob.isMatch text =
      (partsRests (front ++ [.anySuffix]) [text]).any List.isEmpty := by
    unfold isMatch
    rw [h]
    split
    · rename_i heq
      cases front with
      | nil => cases heq
      | cons part front => simp at heq
    · rfl
  rw [hmatch, List.any_eq_true]
  constructor
  · rintro ⟨last, hlast, hempty⟩
    rcases mem_partsRests.mp hlast with ⟨whole, hwhole, hleaves⟩
    rw [List.mem_singleton.mp hwhole, List.isEmpty_iff.mp hempty] at hleaves
    rcases leaves_append.mp hleaves with ⟨middle, hfront, hsuffix⟩
    rcases leaves_anySuffix.mp hsuffix with ⟨rest, hrest⟩
    exact ⟨rest, hrest ▸ hfront⟩
  · rintro ⟨rest, hfront⟩
    have hleaves : Leaves (front ++ [.anySuffix]) text [] :=
      leaves_append.mpr ⟨slash :: rest, hfront, leaves_anySuffix.mpr ⟨rest, rfl⟩⟩
    exact ⟨[], mem_partsRests.mpr ⟨text, List.mem_singleton_self _, hleaves⟩, rfl⟩

/-- A text that is cut at a slash is cut at this slash or at an earlier one, if no slash follows. -/
theorem exists_cut {directory name front rest : List UInt8} (hname : slash ∉ name)
    (h : directory ++ slash :: name = front ++ slash :: rest) (other : List UInt8) :
    exists more, directory ++ slash :: other = front ++ slash :: more := by
  rcases List.append_eq_append_iff.mp h with ⟨between, hfront, hcut⟩ | ⟨between, hdirectory, hcut⟩
  · cases between with
    | nil =>
        rw [List.append_nil] at hfront
        exact ⟨other, by rw [hfront]⟩
    | cons b between =>
        injection hcut with _ hcut
        exact absurd (hcut ▸ List.mem_append_right between List.mem_cons_self) hname
  · cases between with
    | nil =>
        rw [List.append_nil] at hdirectory
        exact ⟨other, by rw [hdirectory]⟩
    | cons b between =>
        injection hcut with hb _
        refine ⟨between ++ slash :: other, ?_⟩
        rw [hdirectory, ← hb]
        simp

theorem EndsBelow.isMatch_below {glob : Glob} (h : glob.EndsBelow)
    {directory name : List UInt8} (hname : slash ∉ name)
    (hmatch : glob.isMatch (directory ++ slash :: name) = true) (other : List UInt8) :
    glob.isMatch (directory ++ slash :: other) = true := by
  rcases h with ⟨parts, hparts⟩
  rcases (isMatch_iff hparts _).mp hmatch with ⟨rest, hleaves⟩
  rcases exists_taken_parts parts hleaves with ⟨front, hfront, hothers⟩
  rcases exists_cut hname hfront other with ⟨more, hmore⟩
  apply (isMatch_iff hparts _).mpr
  rw [hmore]
  exact ⟨more, hothers (slash :: more)⟩

end Glob

/-!
## Pruning
-/

namespace Disk

open Text

theorem relativeText_append {directory names : Place} (hdirectory : directory ≠ [])
    (hnames : names ≠ []) :
    relativeText (directory ++ names) =
      relativeText directory ++ slash :: relativeText names := by
  unfold relativeText
  induction directory with
  | nil =>
      exact absurd rfl hdirectory
  | cons first directory ih =>
      cases directory with
      | nil =>
          cases names with
          | nil => exact absurd rfl hnames
          | cons name names => simp
      | cons second directory =>
          have hrest := ih (List.cons_ne_nil second directory)
          rw [List.cons_append] at hrest
          rw [List.cons_append, List.cons_append, List.intercalate_cons_cons, hrest,
            List.intercalate_cons_cons]
          simp

theorem isPruned_iff {exclude : Option Glob} {names : Place} :
    isPruned exclude names = true ↔
      exists directory more, names = directory ++ more ∧ directory ≠ [] ∧ more ≠ [] ∧
        excludesDirectory exclude directory = true := by
  unfold isPruned
  simp only [List.any_eq_true, List.mem_range, Bool.and_eq_true, decide_eq_true_eq]
  constructor
  · rintro ⟨count, hcount, hpos, hexcludes⟩
    refine ⟨names.take count, names.drop count, (List.take_append_drop count names).symm,
      ?_, ?_, hexcludes⟩
    · intro hempty
      have hlength := congrArg List.length hempty
      rw [List.length_take, List.length_nil] at hlength
      omega
    · intro hempty
      have hlength := congrArg List.length hempty
      rw [List.length_drop, List.length_nil] at hlength
      omega
  · rintro ⟨directory, more, hnames, hdirectory, hmore, hexcludes⟩
    have hpos := List.length_pos_iff.mpr hdirectory
    have hlonger := List.length_pos_iff.mpr hmore
    refine ⟨directory.length, ?_, hpos, ?_⟩
    · rw [hnames, List.length_append]
      omega
    · rw [hnames, List.take_left]
      exact hexcludes

theorem excludesFile_of_isPruned {glob : Glob} (h : glob.EndsBelow) {names : Place}
    (hpruned : isPruned (some glob) names = true) :
    excludesFile (some glob) names = true := by
  rcases isPruned_iff.mp hpruned with ⟨directory, more, hnames, hdirectory, hmore, hexcludes⟩
  have hname : slash ∉ anyName := by
    decide
  have hmatch : glob.isMatch (relativeText directory ++ slash :: anyName) = true := by
    have hprobe := relativeText_append hdirectory (List.cons_ne_nil anyName [])
    rw [← show relativeText [anyName] = anyName from rfl, ← hprobe]
    exact hexcludes
  show glob.isMatch (relativeText names) = true
  rw [hnames, relativeText_append hdirectory hmore]
  exact h.isMatch_below hname hmatch (relativeText more)

end Disk
end ElmNavigator
