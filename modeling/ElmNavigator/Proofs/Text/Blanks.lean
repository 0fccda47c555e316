import ElmNavigator.Proofs.Text.Letters

/-!
# Blanks and names

No character is both a blank and part of a name.  Outside ASCII this is a fact
about the tables of code points.
-/

namespace ElmNavigator
namespace Text

theorem blank_tables :
    blankPoints.Apart alphabeticPoints ∧ blankPoints.Apart numericPoints := by
  decide +kernel

theorem isBlank_of_isIdentChar {c : Char} (h : isIdentChar c = true) :
    isBlank c = false := by
  refine forall_char (p := fun c => isIdentChar c = true -> isBlank c = false) ?_ ?_ c h
  · intro code hcode
    exact (ascii_classes code hcode).right.right
  · intro c hascii hident
    apply Bool.eq_false_iff.mpr
    intro hblank
    have hpoint : blankPoints.contains c.toNat = true := by
      simpa [isBlank, hascii] using hblank
    have hunderscore : c ≠ '_' := fun heq => by simp [heq, isAscii] at hascii
    have hprime : c ≠ '\'' := fun heq => by simp [heq, isAscii] at hascii
    simp [isIdentChar, isAlphanumeric, hascii, blank_tables.left.not_contains hpoint,
      blank_tables.right.not_contains hpoint, hunderscore, hprime] at hident

theorem isBlank_of_isUpper {c : Char} (h : isUpper c = true) : isBlank c = false :=
  isBlank_of_isIdentChar (by simp [isIdentChar, isAlphanumeric_of_isUpper h])

theorem isBlank_of_isLower {c : Char} (h : isLower c = true) : isBlank c = false :=
  isBlank_of_isIdentChar (by simp [isIdentChar, isAlphanumeric_of_isLower h])

/-!
## Texts made of blanks
-/

/-- Texts without anything but blanks. -/
def AllBlank (text : List Char) : Prop :=
  forall c, c ∈ text -> isBlank c = true

instance (text : List Char) : Decidable (AllBlank text) :=
  decidable_of_iff (text.all isBlank = true) List.all_eq_true

theorem ne_of_class {p : Char -> Bool} {c d : Char} (hc : p c = true) (hd : p d = false) :
    c ≠ d := by
  intro heq
  rw [heq, hd] at hc
  cases hc

theorem ne_of_isBlank {c d : Char} (hc : isBlank c = true) (hd : isBlank d = false) :
    c ≠ d :=
  ne_of_class hc hd

theorem eq_false_of_isBlank {q : Char -> Bool} (hq : forall c, q c = true -> isBlank c = false)
    {c : Char} (hc : isBlank c = true) : q c = false := by
  apply Bool.eq_false_iff.mpr
  intro hqc
  exact ne_of_isBlank hc (hq c hqc) rfl

end Text
end ElmNavigator
