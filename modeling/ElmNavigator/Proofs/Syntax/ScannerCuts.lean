import ElmNavigator.Proofs.Syntax.ScannerRuns

/-!
# The scanner at a cut

The scanner looks ahead, so between two characters its state depends on both
sides of the cut.  A text that is cut anywhere is masked in two parts: the part
behind the cut is masked from the state that the scanner has reached there.
-/

namespace ElmNavigator
namespace Syntax

open Text

namespace Scanner

/-!
## One step
-/

/-- The next character is code, or opens a literal or a comment. -/
def AtCode (s : Scanner) : Prop :=
  s.region = .code ∧ s.pending = 0

instance (s : Scanner) : Decidable s.AtCode :=
  inferInstanceAs (Decidable (_ ∧ _))

theorem AtCode.eq_inCode {s : Scanner} (h : s.AtCode) : s = inCode s.previous := by
  cases s with
  | mk region previous pending =>
      rcases h with ⟨hregion, hpending⟩
      simp only at hregion hpending
      rw [hregion, hpending]
      rfl

theorem step_of_atCode {s : Scanner} (h : s.AtCode) (c : Char) (ahead : List Char) :
    s.step c ahead = s.stepCode c ahead := by
  simp [step, h.left, h.right]

/-- Outside code everything is blanked and nothing new is remembered.  A character literal lasts
until code comes. -/
structure StaysOutside (s next : Scanner) : Prop where
  previous : next.previous = s.previous
  region : next.AtCode ∨ (next.region = .character ↔ s.region = .character)

theorem staysOutside_stepBlock {s : Scanner} {depth : Nat}
    (hregion : s.region = .blockComment depth) (c : Char) (ahead : List Char) :
    s.StaysOutside (s.stepBlock depth c ahead) := by
  unfold stepBlock
  split
  · exact ⟨rfl, Or.inr (by simp [hregion])⟩
  · split
    · exact ⟨rfl, Or.inr (by simp only [hregion]; split <;> simp)⟩
    · exact ⟨rfl, Or.inr Iff.rfl⟩

theorem staysOutside_stepTriple {s : Scanner} (hregion : s.region = .tripleString) (c : Char)
    (ahead : List Char) : s.StaysOutside (s.stepTriple c ahead) := by
  unfold stepTriple
  split
  · exact ⟨rfl, Or.inr (by simp [hregion])⟩
  · split
    · exact ⟨rfl, Or.inr Iff.rfl⟩
    · exact ⟨rfl, Or.inr Iff.rfl⟩

theorem staysOutside_stepLiteral {s : Scanner} (hidle : s.pending = 0) (quote c : Char) :
    s.StaysOutside (s.stepLiteral quote c) := by
  unfold stepLiteral
  split
  · exact ⟨rfl, Or.inr Iff.rfl⟩
  · split
    · exact ⟨rfl, Or.inl ⟨rfl, hidle⟩⟩
    · exact ⟨rfl, Or.inr Iff.rfl⟩

theorem step_outside {s : Scanner} (h : ¬ s.AtCode) (c : Char) (ahead : List Char) :
    (s.step c ahead).2 = false ∧ s.StaysOutside (s.step c ahead).1 := by
  unfold step
  split
  · exact ⟨rfl, rfl, Or.inr Iff.rfl⟩
  · rename_i hpending
    have hidle : s.pending = 0 := Nat.eq_zero_of_not_pos hpending
    split
    case h_1 hregion => exact absurd ⟨hregion, hidle⟩ h
    case h_2 =>
      refine ⟨rfl, ?_⟩
      simp only
      split
      · exact ⟨rfl, Or.inl ⟨rfl, hidle⟩⟩
      · exact ⟨rfl, Or.inr Iff.rfl⟩
    case h_3 hregion => exact ⟨rfl, staysOutside_stepBlock hregion c ahead⟩
    case h_4 => exact ⟨rfl, staysOutside_stepLiteral hidle _ c⟩
    case h_5 hregion => exact ⟨rfl, staysOutside_stepTriple hregion c ahead⟩
    case h_6 => exact ⟨rfl, staysOutside_stepLiteral hidle _ c⟩

theorem StaysOutside.afterIdentifier {s next : Scanner} (h : s.StaysOutside next) :
    next.afterIdentifier = s.afterIdentifier := by
  unfold Scanner.afterIdentifier
  rw [h.previous]

/-!
## Runs
-/

def reach (s : Scanner) : List Char -> List Char -> Scanner
  | [], _ => s
  | c :: cs, ahead => (s.step c (cs ++ ahead)).1.reach cs ahead

theorem reach_append (s : Scanner) (a b ahead : List Char) :
    s.reach (a ++ b) ahead = (s.reach a (b ++ ahead)).reach b ahead := by
  induction a generalizing s with
  | nil => rfl
  | cons c a ih =>
      simp only [List.cons_append, reach, List.append_assoc]
      exact ih _

end Scanner

theorem maskFrom_cons (s : Scanner) (c : Char) (cs : List Char) :
    maskFrom s (c :: cs) =
      (if (s.step c cs).2 then [c] else blank c) ++ maskFrom (s.step c cs).1 cs := rfl

theorem maskFrom_cut (s : Scanner) (text ahead : List Char) :
    exists masked, byteLength masked = byteLength text ∧
      maskFrom s (text ++ ahead) = masked ++ maskFrom (s.reach text ahead) ahead := by
  induction text generalizing s with
  | nil => exact ⟨[], rfl, rfl⟩
  | cons c cs ih =>
      rcases ih (s.step c (cs ++ ahead)).1 with ⟨masked, hlength, hmask⟩
      rw [List.cons_append, maskFrom_cons, Scanner.reach, hmask]
      split
      · exact ⟨c :: masked, by rw [byteLength_cons, byteLength_cons, hlength], rfl⟩
      · refine ⟨blank c ++ masked, ?_, (List.append_assoc ..).symm⟩
        rw [byteLength_append, byteLength_blank, byteLength_cons, hlength]

def scanTo (front rest : List Char) : Scanner :=
  Scanner.start.reach (unmarked front) rest

theorem mask_eq_maskFrom {source : List Char} (h : source.head? ≠ some byteOrderMark) :
    mask source = maskFrom Scanner.start source := by
  cases source with
  | nil => rfl
  | cons c cs =>
      have hc : c ≠ byteOrderMark := fun heq => h (by rw [heq]; rfl)
      simp only [mask, hc, if_false]

theorem mask_cut {front rest : List Char} (h : front = [] -> rest.head? ≠ some byteOrderMark) :
    exists masked, byteLength masked = byteLength front ∧
      mask (front ++ rest) = masked ++ maskFrom (scanTo front rest) rest := by
  cases front with
  | nil => exact ⟨[], rfl, mask_eq_maskFrom (h rfl)⟩
  | cons c cs =>
      by_cases hmark : c = byteOrderMark
      · rcases maskFrom_cut Scanner.start cs rest with ⟨masked, hlength, hmask⟩
        have hfront : unmarked (c :: cs) = cs := by simp [unmarked, hmark]
        refine ⟨blank c ++ masked, ?_, ?_⟩
        · rw [byteLength_append, byteLength_blank, byteLength_cons, hlength]
        · rw [scanTo, hfront, List.append_assoc, ← hmask, List.cons_append, mask, if_pos hmark]
      · have hfront : unmarked (c :: cs) = c :: cs := by simp [unmarked, hmark]
        rw [scanTo, hfront, mask_eq_maskFrom (by simpa using hmark)]
        exact maskFrom_cut Scanner.start (c :: cs) rest

end Syntax
end ElmNavigator
