import ElmNavigator.Proofs.Syntax.MaskedText
import ElmNavigator.Proofs.Text.Blanks
import Mathlib.Data.List.Chain

/-!
# Nothing opens in a masked text

What survives masking was code: no quote is left, and no two characters that
begin a comment stand side by side.  Blanks begin nothing, so two such characters
would both have been kept, and would have stood side by side in the source; there
the scanner would have seen the second one ahead of the first.
-/

namespace ElmNavigator
namespace Syntax

open Text

/-- Two characters that begin a line comment or a block comment. -/
def BeginComment (c d : Char) : Prop :=
  (c = '-' ∨ c = '{') ∧ d = '-'

/-!
## One step
-/

namespace Scanner

theorem step_keeps {s : Scanner} {c : Char} {ahead : List Char}
    (h : (s.step c ahead).2 = true) :
    c ≠ '"' ∧ ((c = '-' ∨ c = '{') -> ahead.head? ≠ some '-') := by
  unfold step at h
  split at h
  · cases h
  · split at h
    case h_1 =>
      unfold stepCode at h
      simp only at h
      split at h
      · cases h
      · rename_i hline
        split at h
        · cases h
        · rename_i hblock
          split at h
          · cases h
          · split at h
            · cases h
            · rename_i hquote
              refine ⟨hquote, ?_⟩
              rintro (hdash | hbrace) hahead
              · exact hline (by simp [hdash, hahead])
              · exact hblock (by simp [hbrace, hahead])
    all_goals cases h

end Scanner

theorem ne_of_mem_blank {c d e : Char} (h : d ∈ blank c) (he : isBlank e = false) : d ≠ e :=
  ne_of_isBlank (isBlank_of_mem_blank h) he

theorem not_beginComment_of_mem_blank {c d : Char} (h : d ∈ blank c) (e : Char) :
    ¬ BeginComment d e := by
  rintro ⟨hdash | hbrace, _⟩
  · exact ne_of_mem_blank h (by decide) hdash
  · exact ne_of_mem_blank h (by decide) hbrace

theorem head?_of_maskFrom {s : Scanner} {text : List Char}
    (h : (maskFrom s text).head? = some '-') : text.head? = some '-' := by
  cases text with
  | nil => cases h
  | cons c cs =>
      simp only [maskFrom] at h
      split at h
      · exact h
      · have hmem : '-' ∈ blank c := by
          cases hblank : blank c with
          | nil =>
              have hlength := byteLength_blank c
              rw [hblank] at hlength
              exact absurd hlength.symm c.utf8Size_pos.ne'
          | cons d ds =>
              rw [hblank] at h
              injection h with h
              rw [h]
              exact List.mem_cons_self
        exact absurd rfl (ne_of_mem_blank hmem (by decide))

/-!
## Masked texts
-/

/-- Texts in which neither a literal nor a comment begins. -/
structure OpensNothing (text : List Char) : Prop where
  quotes : '"' ∉ text
  comments : text.IsChain fun c d => ¬ BeginComment c d

theorem OpensNothing.blank_append {text : List Char} (h : OpensNothing text) (c : Char) :
    OpensNothing (blank c ++ text) where
  quotes := by
    simp only [List.mem_append, not_or]
    exact ⟨fun hmem => ne_of_mem_blank hmem (by decide) rfl, h.quotes⟩
  comments := by
    refine List.IsChain.append ?_ h.comments ?_
    · refine (List.pairwise_of_forall_mem_list ?_).isChain
      exact fun d hd e _ => not_beginComment_of_mem_blank hd e
    · exact fun d hd e _ => not_beginComment_of_mem_blank (List.mem_of_getLast? hd) e

/-- The induction is on the text, for all states of the scanner at once. -/
theorem maskFrom_opensNothing (s : Scanner) (text : List Char) :
    OpensNothing (maskFrom s text) := by
  induction text generalizing s with
  | nil => exact ⟨List.not_mem_nil, List.isChain_nil⟩
  | cons c cs ih =>
      have hrest := ih (s.step c cs).1
      simp only [maskFrom]
      split
      · rename_i hkeep
        rcases Scanner.step_keeps hkeep with ⟨hquote, hahead⟩
        constructor
        · simp only [List.singleton_append, List.mem_cons, not_or]
          exact ⟨hquote.symm, hrest.quotes⟩
        · refine List.isChain_cons.mpr ⟨?_, hrest.comments⟩
          rintro d hd ⟨hopens, rfl⟩
          exact hahead hopens (head?_of_maskFrom hd)
      · exact hrest.blank_append c

theorem mask_opensNothing (source : List Char) : OpensNothing (mask source) := by
  cases source with
  | nil => exact maskFrom_opensNothing Scanner.start []
  | cons c cs =>
      by_cases hmark : c = byteOrderMark
      · simp only [mask, hmark, if_true]
        exact (maskFrom_opensNothing Scanner.start cs).blank_append byteOrderMark
      · simp only [mask, hmark, if_false]
        exact maskFrom_opensNothing Scanner.start (c :: cs)

theorem OpensNothing.not_infix {text : List Char} (h : OpensNothing text) {c d : Char}
    (hbegin : BeginComment c d) : ¬ [c, d] <:+: text := by
  rintro ⟨front, back, htext⟩
  have htext' : text = front ++ c :: d :: back := by
    rw [← htext]
    simp
  exact List.isChain_iff_forall_rel_of_append_cons_cons.mp h.comments htext' hbegin

/-- A masked text has no double quote in it, no two dashes side by side, and no brace with a dash
behind it, whatever the source is. -/
theorem mask_leaves_no_opener (source : List Char) :
    '"' ∉ mask source ∧ ¬ ['-', '-'] <:+: mask source ∧ ¬ ['{', '-'] <:+: mask source := by
  have hmask := mask_opensNothing source
  exact ⟨hmask.quotes, hmask.not_infix ⟨Or.inl rfl, rfl⟩, hmask.not_infix ⟨Or.inr rfl, rfl⟩⟩

end Syntax
end ElmNavigator
