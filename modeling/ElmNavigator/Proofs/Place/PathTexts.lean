import ElmNavigator.Proofs.Place.NormalPaths
import ElmNavigator.Proofs.Text.Measures
import ElmNavigator.Proofs.Text.Utf8Decoding

/-!
# Paths that are texts

A path that is the UTF-8 of a text is shown as this text and can be told from
every other such path by it.  The slashes and dots of a path are bytes that no
other character contains, so what is joined, split or resolved of texts is made
of texts again.
-/

namespace ElmNavigator
namespace Path

open Text

/-- Paths that are the UTF-8 of the text that they are shown as. -/
def IsText (p : Path) : Prop :=
  ofChars p.chars = p

instance (p : Path) : Decidable p.IsText :=
  inferInstanceAs (Decidable (_ = _))

@[simp] theorem chars_ofChars (cs : List Char) : (ofChars cs).chars = cs :=
  decodeLossy_utf8 cs

theorem isText_ofChars (cs : List Char) : (ofChars cs).IsText :=
  congrArg ofChars (chars_ofChars cs)

theorem isText_iff {p : Path} : p.IsText ↔ exists cs, p = ofChars cs := by
  constructor
  · intro h
    exact ⟨p.chars, h.symm⟩
  · intro h
    rcases h with ⟨cs, rfl⟩
    exact isText_ofChars cs

theorem isAbsolute_ofChars (cs : List Char) :
    (ofChars cs).isAbsolute = (cs.head? == some '/') := by
  cases cs with
  | nil => rfl
  | cons c cs =>
      by_cases hc : c = '/'
      · rw [hc]
        rfl
      · have hcons : utf8 (c :: cs) = String.utf8EncodeChar c ++ utf8 cs := rfl
        have hslash := slash_not_mem_utf8EncodeChar hc
        have hsize := String.length_utf8EncodeChar c
        have hpos := c.utf8Size_pos
        unfold isAbsolute ofChars
        rw [hcons]
        cases hbytes : String.utf8EncodeChar c with
        | nil =>
            rw [hbytes, List.length_nil] at hsize
            omega
        | cons b bytes =>
            rw [hbytes, List.mem_cons, not_or] at hslash
            simp [Ne.symm hslash.left, hc]

/-!
## Joining
-/

theorem join_ofChars {part : List Char} (h : (ofChars part).isAbsolute = false) (cs : List Char) :
    exists gap, (gap = [] ∨ gap = ['/']) ∧
      (ofChars cs).join (ofChars part) = ofChars (cs ++ gap ++ part) := by
  unfold join
  rw [if_neg (by simp [h])]
  split
  · exact ⟨[], Or.inl rfl, by simp [ofChars]⟩
  · exact ⟨['/'], Or.inr rfl, by simp [ofChars]; rfl⟩

theorem IsText.join {p other : Path} (hp : p.IsText) (hother : other.IsText) :
    (p.join other).IsText := by
  rcases isText_iff.mp hp with ⟨cs, rfl⟩
  rcases isText_iff.mp hother with ⟨part, rfl⟩
  cases habsolute : (ofChars part).isAbsolute with
  | true =>
      have hjoin : (ofChars cs).join (ofChars part) = ofChars part := by
        simp [Path.join, habsolute]
      rw [hjoin]
      exact isText_ofChars part
  | false =>
      rcases join_ofChars habsolute cs with ⟨gap, _, hjoin⟩
      rw [hjoin]
      exact isText_ofChars _

theorem isText_ofComponents {cs : List Component}
    (h : forall c, c ∈ cs -> IsText { bytes := componentText c }) : (ofComponents cs).IsText := by
  induction cs using List.reverseRecOn with
  | nil => exact isText_ofChars []
  | append_singleton cs c ih =>
      rw [ofComponents_append_singleton]
      apply IsText.join
      · exact ih fun d hd => h d (List.mem_append_left [c] hd)
      · exact h c (by simp)

/-!
## Splitting and resolving
-/

theorem splitOn_append_of_not_mem {alpha : Type} [DecidableEq alpha] {sep : alpha}
    {a : List alpha} (h : sep ∉ a) (b : List alpha) :
    splitOn sep (a ++ b) = (splitOn sep b).modifyHead (a ++ ·) := by
  induction a with
  | nil =>
      rw [List.nil_append]
      cases splitOn sep b <;> rfl
  | cons c a ih =>
      have hc : c ≠ sep := fun heq => h (heq ▸ List.mem_cons_self)
      have hrest := ih fun hmem => h (List.mem_cons_of_mem c hmem)
      rw [List.cons_append, splitOn, if_neg hc, hrest]
      cases hpieces : splitOn sep b with
      | nil => exact absurd hpieces (splitOn_ne_nil sep b)
      | cons piece pieces => rfl

theorem splitOn_utf8 (cs : List Char) :
    splitOn slash (utf8 cs) = (splitOn '/' cs).map utf8 := by
  induction cs with
  | nil => rfl
  | cons c cs ih =>
      by_cases hc : c = '/'
      · have hcons : utf8 ('/' :: cs) = slash :: utf8 cs := rfl
        rw [hc, hcons, splitOn, if_pos rfl, ih, splitOn, if_pos rfl]
        rfl
      · have hcons : utf8 (c :: cs) = String.utf8EncodeChar c ++ utf8 cs := rfl
        rw [hcons, splitOn_append_of_not_mem (slash_not_mem_utf8EncodeChar hc), ih, splitOn,
          if_neg hc]
        cases hpieces : splitOn '/' cs with
        | nil => exact absurd hpieces (splitOn_ne_nil '/' cs)
        | cons piece pieces => rfl

theorem isText_of_mem_splitOn {p : Path} (h : p.IsText) {piece : List UInt8}
    (hmem : piece ∈ splitOn slash p.bytes) : IsText { bytes := piece } := by
  rw [← h, ofChars, splitOn_utf8] at hmem
  rcases List.mem_map.mp hmem with ⟨part, _, hpart⟩
  rw [← hpart]
  exact isText_ofChars part

theorem isText_of_pieceComponent? {piece : List UInt8} (h : IsText { bytes := piece })
    {c : Component} (hc : pieceComponent? piece = some c) :
    IsText { bytes := componentText c } := by
  unfold pieceComponent? at hc
  split at hc
  · cases hc
  · split at hc
    · rw [← Option.some.inj hc]
      exact isText_ofChars ['.', '.']
    · rw [← Option.some.inj hc]
      exact h

theorem isText_of_mem_components {p : Path} (h : p.IsText) {c : Component}
    (hc : c ∈ p.components) : IsText { bytes := componentText c } := by
  unfold components at hc
  split at hc
  · cases hc
  · rename_i first others hpieces
    simp only at hc
    rcases List.mem_append.mp hc with hstart | hother
    · split at hstart
      · rw [Option.mem_toList] at hstart
        rw [← Option.some.inj hstart]
        exact isText_ofChars ['/']
      · rw [Option.mem_toList, firstComponent?] at hstart
        split at hstart
        · rw [← Option.some.inj hstart]
          exact isText_ofChars ['.']
        · have hfirst := isText_of_mem_splitOn h (hpieces ▸ List.mem_cons_self)
          exact isText_of_pieceComponent? hfirst hstart
    · rcases List.mem_filterMap.mp hother with ⟨piece, hmem, hcomponent⟩
      have hpiece := isText_of_mem_splitOn h (hpieces ▸ List.mem_cons_of_mem first hmem)
      exact isText_of_pieceComponent? hpiece hcomponent

theorem mem_resolveStep {resolved : List Component} {c d : Component}
    (h : c ∈ resolveStep resolved d) : c = d ∨ c ∈ resolved := by
  cases d with
  | root => exact List.mem_cons.mp h
  | here => exact Or.inr h
  | name text => exact List.mem_cons.mp h
  | parent =>
      simp only [resolveStep] at h
      split at h
      · exact Or.inr (List.mem_of_mem_tail h)
      · exact List.mem_cons.mp h

theorem mem_foldl_resolveStep {cs resolved : List Component} {c : Component}
    (h : c ∈ cs.foldl resolveStep resolved) : c ∈ cs ∨ c ∈ resolved := by
  induction cs generalizing resolved with
  | nil => exact Or.inr h
  | cons d cs ih =>
      rcases ih h with hlater | hstep
      · exact Or.inl (List.mem_cons_of_mem d hlater)
      · rcases mem_resolveStep hstep with heq | hresolved
        · exact Or.inl (heq ▸ List.mem_cons_self)
        · exact Or.inr hresolved

theorem IsText.normalize {p : Path} (h : p.IsText) : p.normalize.IsText := by
  apply isText_ofComponents
  intro c hc
  rcases mem_foldl_resolveStep (List.mem_reverse.mp hc) with hmem | hnone
  · exact isText_of_mem_components h hmem
  · cases hnone

end Path
end ElmNavigator
