import ElmNavigator.Proofs.Text.Measures
import ElmNavigator.Syntax.Parse

/-!
# Masked texts

Masking decides character by character, and the scanner's decisions do not
matter for where things stand: a masked text is any text in which some
characters of the source have become blanks of the same size.  A word of the
masked text, which has no blank in it, is therefore a word of the source at the
same offset.
-/

namespace ElmNavigator
namespace Syntax

open Text

/-- A text and the same text with some of its characters blanked. -/
inductive MaskOf : List Char -> List Char -> Prop where
  | nil : MaskOf [] []
  | kept {source masked : List Char} (c : Char) :
      MaskOf source masked ->
      MaskOf (c :: source) (c :: masked)
  | blanked {source masked : List Char} (c : Char) :
      MaskOf source masked ->
      MaskOf (c :: source) (blank c ++ masked)

/-!
## The scanner's output
-/

theorem maskFrom_maskOf (s : Scanner) (source : List Char) :
    MaskOf source (maskFrom s source) := by
  induction source generalizing s with
  | nil =>
      exact MaskOf.nil
  | cons c cs ih =>
      have htail := ih (s.step c cs).1
      simp only [maskFrom]
      cases (s.step c cs).2 with
      | true =>
          exact MaskOf.kept c htail
      | false =>
          exact MaskOf.blanked c htail

theorem mask_maskOf (source : List Char) : MaskOf source (mask source) := by
  cases source with
  | nil =>
      exact MaskOf.nil
  | cons c cs =>
      by_cases hmark : c = byteOrderMark
      · simp only [mask, hmark, if_true]
        exact MaskOf.blanked byteOrderMark (maskFrom_maskOf Scanner.start cs)
      · simp only [mask, hmark, if_false]
        exact maskFrom_maskOf Scanner.start (c :: cs)

/-!
## Sizes

A blanked character keeps its size, because a space and both line breaks have
one byte.
-/

theorem byteLength_replicate_space (n : Nat) :
    byteLength (List.replicate n ' ') = n := by
  induction n with
  | zero => rfl
  | succ n ih =>
      have hspace : ' '.utf8Size = 1 := by decide
      rw [List.replicate_succ, byteLength_cons, ih, hspace, Nat.add_comm]

theorem byteLength_blank (c : Char) : byteLength (blank c) = c.utf8Size := by
  unfold blank
  split
  · simp
  · exact byteLength_replicate_space c.utf8Size

theorem byteLength_of_maskOf {source masked : List Char} (h : MaskOf source masked) :
    byteLength masked = byteLength source := by
  induction h with
  | nil => rfl
  | kept c _ ih => rw [byteLength_cons, byteLength_cons, ih]
  | blanked c _ ih => rw [byteLength_append, byteLength_cons, byteLength_blank, ih]

theorem isBlank_of_mem_blank {c d : Char} (h : d ∈ blank c) :
    isBlank d = true := by
  unfold blank at h
  split at h
  · rename_i hbreak
    rw [List.mem_singleton.mp h]
    simp only [Bool.or_eq_true, decide_eq_true_eq] at hbreak
    rcases hbreak with hfeed | hreturn
    · rw [hfeed]
      decide
    · rw [hreturn]
      decide
  · rw [(List.mem_replicate.mp h).right]
    decide

/-!
## Words of a masked text
-/

theorem MaskOf.cases_cons {c : Char} {source masked : List Char}
    (h : MaskOf (c :: source) masked) :
    exists rest, MaskOf source rest ∧
      (masked = c :: rest ∨
        (c ≠ '\n' ∧ c ≠ '\r' ∧ masked = List.replicate c.utf8Size ' ' ++ rest)) := by
  cases h with
  | kept _ hrest => exact ⟨_, hrest, Or.inl rfl⟩
  | @blanked _ rest _ hrest =>
      refine ⟨rest, hrest, ?_⟩
      unfold blank
      split
      · exact Or.inl rfl
      · rename_i hbreak
        simp only [Bool.or_eq_true, decide_eq_true_eq, not_or] at hbreak
        exact Or.inr ⟨hbreak.left, hbreak.right, rfl⟩

theorem append_cons_eq_replicate_append {c d : Char} (hne : c ≠ d) {n : Nat}
    {before rest text : List Char}
    (h : before ++ c :: rest = List.replicate n d ++ text) :
    exists before', before = List.replicate n d ++ before' ∧ before' ++ c :: rest = text := by
  rcases List.append_eq_append_iff.mp h with ⟨more, hrepeated, hrest⟩ | ⟨before', hbefore, htext⟩
  · cases more with
    | nil => exact ⟨[], by simpa using hrepeated.symm, hrest⟩
    | cons e more =>
        injection hrest with he _
        have hmem : c ∈ List.replicate n d := by
          rw [hrepeated, he]
          simp
        exact absurd (List.mem_replicate.mp hmem).right hne
  · exact ⟨before', hbefore, htext.symm⟩

/-- What stands in a masked text at a character other than a space stands in the source as
well. -/
theorem MaskOf.split {source before rest : List Char} {c : Char}
    (h : MaskOf source (before ++ c :: rest)) (hc : c ≠ ' ') :
    exists start tail,
      source = start ++ c :: tail ∧
        byteLength start = byteLength before ∧
        MaskOf tail rest := by
  induction source generalizing before with
  | nil =>
      generalize hmasked : before ++ c :: rest = masked at h
      cases h
      simp at hmasked
  | cons d source ih =>
      rcases h.cases_cons with ⟨masked, hrest, hkept | ⟨_, _, hspaces⟩⟩
      · cases before with
        | nil =>
            injection hkept with hhead htail
            subst hhead htail
            exact ⟨[], source, rfl, rfl, hrest⟩
        | cons b before =>
            injection hkept with hhead htail
            subst hhead htail
            rcases ih hrest with ⟨start, tail, hsource, hlength, htail⟩
            refine ⟨b :: start, tail, ?_, ?_, htail⟩
            · rw [hsource]
              rfl
            · rw [byteLength_cons, byteLength_cons, hlength]
      · rcases append_cons_eq_replicate_append hc hspaces with ⟨before', hbefore, hmasked⟩
        rw [← hmasked] at hrest
        rcases ih hrest with ⟨start, tail, hsource, hlength, htail⟩
        refine ⟨d :: start, tail, ?_, ?_, htail⟩
        · rw [hsource]
          rfl
        · rw [byteLength_cons, hlength, hbefore, byteLength_append, byteLength_replicate_space]

def IsWord (text : List Char) : Prop :=
  text ≠ [] ∧ forall c, c ∈ text -> isBlank c = false

theorem MaskOf.word {source before word rest : List Char}
    (h : MaskOf source (before ++ word ++ rest)) (hword : IsWord word) :
    exists start tail,
      source = start ++ word ++ tail ∧
        byteLength start = byteLength before := by
  have hmore : exists start tail,
      source = start ++ word ++ tail ∧
        byteLength start = byteLength before ∧ MaskOf tail rest := by
    rcases hword with ⟨hne, hblank⟩
    induction word generalizing source before with
    | nil =>
        exact absurd rfl hne
    | cons c word ih =>
        have hc : c ≠ ' ' := by
          rintro rfl
          have hspace := hblank ' ' List.mem_cons_self
          revert hspace
          decide
        have hsplit : MaskOf source (before ++ c :: (word ++ rest)) := by
          simpa using h
        rcases hsplit.split hc with ⟨start, tail, hsource, hlength, hmask⟩
        by_cases hword : word = []
        · subst hword
          exact ⟨start, tail, by simpa using hsource, hlength, hmask⟩
        · -- What follows the first character stands at the start of the rest.
          have hrest : MaskOf tail ([] ++ word ++ rest) := hmask
          rcases ih hrest hword (fun d hd => hblank d (List.mem_cons_of_mem c hd)) with
            ⟨start', tail', htailEq, hlength', hmask'⟩
          have hstart : start' = [] := byteLength_eq_zero hlength'
          subst hstart
          refine ⟨start, tail', ?_, hlength, hmask'⟩
          rw [hsource, htailEq]
          simp
  rcases hmore with ⟨start, tail, hsource, hlength, _hmask⟩
  exact ⟨start, tail, hsource, hlength⟩

end Syntax
end ElmNavigator
