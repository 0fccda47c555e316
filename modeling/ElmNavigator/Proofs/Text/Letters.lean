import ElmNavigator.Proofs.Text.CodePointTables
import ElmNavigator.Text.CharClass

/-!
# Capital and small letters

Capital and small letters are letters, and none is both.  ASCII characters are
tried one by one, and for the others these are facts about the tables.
-/

namespace ElmNavigator
namespace Text

/-- A fact about all characters that holds for each ASCII character and for all others. -/
theorem forall_char {p : Char -> Prop} (hascii : forall code, code < 128 -> p (Char.ofNat code))
    (hother : forall c, isAscii c = false -> p c) (c : Char) : p c := by
  cases hc : isAscii c with
  | true =>
      have hcode : c.toNat < 128 := by
        simpa [isAscii] using hc
      have hclass := hascii c.toNat hcode
      rwa [Char.ofNat_toNat] at hclass
  | false => exact hother c hc

-- The classes of ASCII characters are compared at once, and so are the tables: each comparison
-- is an evaluation by the kernel.
theorem ascii_classes :
    forall code, code < 128 ->
      (isUpper (Char.ofNat code) = true ->
        isAlphanumeric (Char.ofNat code) = true ∧ isLower (Char.ofNat code) = false) ∧
      (isLower (Char.ofNat code) = true -> isAlphanumeric (Char.ofNat code) = true) ∧
      (isIdentChar (Char.ofNat code) = true -> isBlank (Char.ofNat code) = false) := by
  decide +kernel

theorem letter_tables :
    uppercasePoints.isWithin alphabeticPoints = true ∧
      lowercasePoints.isWithin alphabeticPoints = true ∧
      uppercasePoints.Apart lowercasePoints := by
  decide +kernel

theorem isAlphanumeric_of_isUpper {c : Char} (h : isUpper c = true) :
    isAlphanumeric c = true := by
  refine forall_char (p := fun c => isUpper c = true -> isAlphanumeric c = true) ?_ ?_ c h
  · intro code hcode hupper
    exact ((ascii_classes code hcode).left hupper).left
  · intro c hascii hupper
    simp only [isUpper, isAlphanumeric, hascii] at hupper ⊢
    simp [CodePoints.contains_of_isWithin letter_tables.left hupper]

theorem isAlphanumeric_of_isLower {c : Char} (h : isLower c = true) :
    isAlphanumeric c = true := by
  refine forall_char (p := fun c => isLower c = true -> isAlphanumeric c = true) ?_ ?_ c h
  · intro code hcode
    exact (ascii_classes code hcode).right.left
  · intro c hascii hlower
    simp only [isLower, isAlphanumeric, hascii] at hlower ⊢
    simp [CodePoints.contains_of_isWithin letter_tables.right.left hlower]

theorem isLower_of_isUpper {c : Char} (h : isUpper c = true) : isLower c = false := by
  refine forall_char (p := fun c => isUpper c = true -> isLower c = false) ?_ ?_ c h
  · intro code hcode hupper
    exact ((ascii_classes code hcode).left hupper).right
  · intro c hascii hupper
    simp only [isUpper, isLower, hascii] at hupper ⊢
    exact letter_tables.right.right.not_contains hupper

end Text
end ElmNavigator
