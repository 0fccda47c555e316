import ElmNavigator.Glob.Matching
import Mathlib.Data.List.Basic

/-!
# What a glob leaves

A glob matches a text if its parts in turn can leave nothing.  The rests that a
part can leave are described by how the text splits.
-/

namespace ElmNavigator
namespace Glob

open Text

/-- Parts in turn lead from a text to a rest of it. -/
def Leaves : List Part -> List UInt8 -> List UInt8 -> Prop
  | [], text, rest => text = rest
  | part :: parts, text, rest =>
      exists middle, middle ∈ part.rests text ∧ Leaves parts middle rest

theorem mem_partsRests {parts : List Part} {texts : List (List UInt8)}
    {rest : List UInt8} :
    rest ∈ partsRests parts texts ↔ exists text, text ∈ texts ∧ Leaves parts text rest := by
  induction parts generalizing texts with
  | nil =>
      simp [partsRests, Leaves]
  | cons part parts ih =>
      rw [partsRests, ih]
      constructor
      · rintro ⟨middle, hmiddle, hleaves⟩
        rw [List.mem_eraseDups, List.mem_flatMap] at hmiddle
        rcases hmiddle with ⟨text, htext, hrests⟩
        exact ⟨text, htext, middle, hrests, hleaves⟩
      · rintro ⟨text, htext, middle, hrests, hleaves⟩
        refine ⟨middle, ?_, hleaves⟩
        rw [List.mem_eraseDups, List.mem_flatMap]
        exact ⟨text, htext, hrests⟩

theorem isMatch_iff {part : Part} {parts : List Part} (hparts : parts ≠ [])
    (text : List UInt8) :
    isMatch { parts := part :: parts } text = true ↔ Leaves (part :: parts) text [] := by
  have hmatch : isMatch { parts := part :: parts } text =
      (partsRests (part :: parts) [text]).any List.isEmpty := by
    unfold isMatch
    split
    · rename_i heq
      injection heq with _hpart htail
      exact absurd htail hparts
    · rfl
  rw [hmatch, List.any_eq_true]
  constructor
  · rintro ⟨rest, hrest, hempty⟩
    rcases mem_partsRests.mp hrest with ⟨whole, hwhole, hleaves⟩
    rw [List.mem_singleton.mp hwhole, List.isEmpty_iff.mp hempty] at hleaves
    exact hleaves
  · intro hleaves
    exact ⟨[], mem_partsRests.mpr ⟨text, List.mem_singleton_self _, hleaves⟩, rfl⟩

/-!
## Single parts
-/

theorem mem_rests_literal {c : Char} {text rest : List UInt8} :
    rest ∈ (Part.literal c).rests text ↔ text = String.utf8EncodeChar c ++ rest := by
  rw [Part.rests, Option.mem_toList, List.isPrefixOf?_eq_some_iff_append_eq, eq_comm]

theorem mem_restsBehindSlash {text rest : List UInt8} :
    rest ∈ restsBehindSlash text ↔ exists front, text = front ++ slash :: rest := by
  induction text with
  | nil =>
      simp [restsBehindSlash]
  | cons b text ih =>
      rw [restsBehindSlash]
      constructor
      · intro hrest
        split at hrest
        · rename_i hb
          rcases List.mem_cons.mp hrest with hhead | htail
          · exact ⟨[], by rw [hb, hhead]; rfl⟩
          · rcases ih.mp htail with ⟨front, hfront⟩
            exact ⟨b :: front, by rw [hfront]; rfl⟩
        · rcases ih.mp hrest with ⟨front, hfront⟩
          exact ⟨b :: front, by rw [hfront]; rfl⟩
      · rintro ⟨front, hfront⟩
        cases front with
        | nil =>
            injection hfront with hb hrest
            rw [if_pos hb, hrest]
            exact List.mem_cons_self
        | cons first front =>
            injection hfront with hb hrest
            have hmem : rest ∈ restsBehindSlash text := ih.mpr ⟨front, hrest⟩
            split
            · exact List.mem_cons_of_mem text hmem
            · exact hmem

theorem mem_rests_anyPrefix {text rest : List UInt8} :
    rest ∈ Part.anyPrefix.rests text ↔
      rest = text ∨ exists front, text = front ++ slash :: rest := by
  rw [Part.rests, List.mem_cons, mem_restsBehindSlash]

theorem mem_restsInComponent {front rest : List UInt8} (h : slash ∉ front) :
    rest ∈ restsInComponent (front ++ rest) := by
  induction front with
  | nil =>
      cases rest with
      | nil => exact List.mem_singleton_self _
      | cons b rest => exact List.mem_cons_self
  | cons b front ih =>
      have hb : b ≠ slash := fun heq => h (heq ▸ List.mem_cons_self)
      have hfront : slash ∉ front := fun hmem => h (List.mem_cons_of_mem b hmem)
      rw [List.cons_append, restsInComponent, if_neg hb]
      exact List.mem_cons_of_mem _ (ih hfront)

theorem leaves_literals {cs : List Char} {text rest : List UInt8} :
    Leaves (cs.map .literal) text rest ↔ text = utf8 cs ++ rest := by
  induction cs generalizing text with
  | nil =>
      exact Iff.rfl
  | cons c cs ih =>
      have hutf8 : utf8 (c :: cs) = String.utf8EncodeChar c ++ utf8 cs := rfl
      rw [List.map_cons, Leaves, hutf8]
      constructor
      · rintro ⟨middle, hmiddle, hleaves⟩
        rw [mem_rests_literal.mp hmiddle, ih.mp hleaves, List.append_assoc]
      · intro htext
        refine ⟨utf8 cs ++ rest, ?_, ih.mpr rfl⟩
        rw [mem_rests_literal, htext, List.append_assoc]

end Glob
end ElmNavigator
