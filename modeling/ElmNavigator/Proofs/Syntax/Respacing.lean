import ElmNavigator.Proofs.Syntax.AlignedGrammar
import ElmNavigator.Proofs.Syntax.Chunks

/-!
# Texts with other blanks

Two texts differ in their blanks only if each run of blanks of the one stands
where there is a run of blanks in the other.  The grammar asks whether there is a
blank, never which one or how many, so it reads both texts alike.
-/

namespace ElmNavigator
namespace Syntax

open Text Rule

/-- Texts that differ in their blanks only. -/
inductive Respaced : List Char -> List Char -> Prop where
  | nil : Respaced [] []
  | same {s t : List Char} (c : Char) : Respaced s t -> Respaced (c :: s) (c :: t)
  | gap {s t : List Char} {b c : Char} {bs cs : List Char} :
      AllBlank (b :: bs) -> AllBlank (c :: cs) -> Respaced s t ->
      Respaced (b :: bs ++ s) (c :: cs ++ t)

namespace Respaced

theorem refl (s : List Char) : Respaced s s := by
  induction s with
  | nil => exact .nil
  | cons c s ih => exact .same c ih

theorem append_left {s t : List Char} (front : List Char) (h : Respaced s t) :
    Respaced (front ++ s) (front ++ t) := by
  induction front with
  | nil => exact h
  | cons c front ih => exact .same c ih

theorem eq_nil_iff {s t : List Char} (h : Respaced s t) : s = [] ↔ t = [] := by
  cases h with
  | nil => exact Iff.rfl
  | same c h => simp
  | gap hb hc h => simp

theorem filter_eq {s t : List Char} (h : Respaced s t) :
    s.filter (fun c => !isBlank c) = t.filter (fun c => !isBlank c) := by
  have hgap {v : List Char} (hv : AllBlank v) : v.filter (fun c => !isBlank c) = [] := by
    apply List.filter_eq_nil_iff.mpr
    intro c hc
    simp [hv c hc]
  induction h with
  | nil => rfl
  | same c _ ih => rw [List.filter_cons, List.filter_cons, ih]
  | gap hb hc _ ih => rw [List.filter_append, List.filter_append, hgap hb, hgap hc, ih]

theorem dropWhile {s t : List Char} (h : Respaced s t) {q : Char -> Bool} (hq : BlankBlind q) :
    Respaced (s.dropWhile q) (t.dropWhile q) := by
  induction h with
  | nil => exact .nil
  | @same s t c h ih =>
      rw [List.dropWhile_cons, List.dropWhile_cons]
      split
      · exact ih
      · exact .same c h
  | @gap s t b c bs cs hb hc h ih =>
      cases hq with
      | accepts haccepts =>
          have hskip {v : List Char} (hv : AllBlank v) (rest : List Char) :
              (v ++ rest).dropWhile q = rest.dropWhile q :=
            List.dropWhile_append_of_pos fun d hd => haccepts d (hv d hd)
          rw [hskip hb, hskip hc]
          exact ih
      | rejects hrejects =>
          have hfirst := eq_false_of_isBlank hrejects (hb b List.mem_cons_self)
          have hother := eq_false_of_isBlank hrejects (hc c List.mem_cons_self)
          rw [List.cons_append, List.cons_append, List.dropWhile_cons_of_neg (by simp [hfirst]),
            List.dropWhile_cons_of_neg (by simp [hother])]
          exact .gap hb hc h

theorem isPrefixOf? {w s t : List Char} (h : Respaced s t) (hw : Unbroken w) :
    Option.Rel Respaced (w.isPrefixOf? s) (w.isPrefixOf? t) := by
  induction w generalizing s t with
  | nil => exact Option.Rel.some h
  | cons d w ih =>
      have hd := hw d List.mem_cons_self
      have hrest : Unbroken w := fun e he => hw e (List.mem_cons_of_mem d he)
      cases h with
      | nil => exact Option.Rel.none
      | same c h =>
          rw [List.isPrefixOf?, List.isPrefixOf?]
          split
          · exact ih h hrest
          · exact Option.Rel.none
      | @gap s t b c bs cs hb hc h =>
          have hne {e : Char} (he : isBlank e = true) : (d == e) = false :=
            beq_eq_false_iff_ne.mpr (ne_of_isBlank he hd).symm
          rw [List.cons_append, List.cons_append, List.isPrefixOf?, List.isPrefixOf?,
            hne (hb b List.mem_cons_self), hne (hc c List.mem_cons_self)]
          exact Option.Rel.none

theorem splitAtBar_of_allBlank {v : List Char} (hv : AllBlank v) (depth : Nat)
    (rest : List Char) :
    (Syntax.splitAtBar depth (v ++ rest)).2 = (Syntax.splitAtBar depth rest).2 := by
  induction v with
  | nil => rfl
  | cons c v ih =>
      have hne {d : Char} (hd : isBlank d = false) : c ≠ d :=
        ne_of_isBlank (hv c List.mem_cons_self) hd
      have hdepth : bracketDepth depth c = depth := by
        unfold bracketDepth
        simp [hne (d := '(') (by decide), hne (d := '[') (by decide), hne (d := '{') (by decide),
          hne (d := ')') (by decide), hne (d := ']') (by decide), hne (d := '}') (by decide)]
      rw [List.cons_append, Syntax.splitAtBar, hdepth]
      simp only [hne (d := '|') (by decide), decide_false, Bool.false_and, Bool.false_eq_true,
        if_false]
      exact ih fun d hd => hv d (List.mem_cons_of_mem c hd)

theorem splitAtBar {s t : List Char} (h : Respaced s t) (depth : Nat) :
    Respaced (splitAtBar depth s).2 (splitAtBar depth t).2 := by
  induction h generalizing depth with
  | nil => exact .nil
  | same c h ih =>
      rw [Syntax.splitAtBar, Syntax.splitAtBar]
      split
      · exact .same c h
      · exact ih (bracketDepth depth c)
  | gap hb hc h ih =>
      rw [splitAtBar_of_allBlank hb, splitAtBar_of_allBlank hc]
      exact ih depth

theorem trimEnd {s t : List Char} (h : Respaced s t) :
    Respaced (trimEnd isBlank s) (trimEnd isBlank t) := by
  induction h with
  | nil => exact .nil
  | same c h ih =>
      rw [trimEnd_cons, trimEnd_cons]
      simp only [ih.eq_nil_iff]
      split
      · exact .nil
      · exact .same c ih
  | gap hb hc h ih =>
      rw [trimEnd_of_allBlank hb, trimEnd_of_allBlank hc]
      simp only [ih.eq_nil_iff]
      split
      · exact .nil
      · exact .gap hb hc ih

end Respaced

/-!
## The grammar does not see it
-/

/-- The same text with other blanks; places are not compared. -/
def respacing : Alignment Unit where
  cursors c d := Respaced c.rest d.rest
  stops _ _ := True
  left _ := ()
  right _ := ()

theorem respacing_skipWhile {q : Char -> Bool} (hq : BlankBlind q) :
    respacing.Agree (skipWhile q) (skipWhile q) anyValues :=
  fun _ _ h => Outcome.Aligned.ok (h.dropWhile hq) trivial

theorem blanks1_of_isBlank {c : Char} (h : isBlank c = true) (offset : Nat) (cs : List Char) :
    exists last, blanks1 { offset, rest := c :: cs } =
      .ok () { offset := last, rest := (c :: cs).dropWhile isBlank } := by
  refine ⟨offset + c.utf8Size + byteLength (cs.takeWhile isBlank), ?_⟩
  change andThen (satisfy isBlank) (fun _ => skipWhile isBlank) _ = _
  simp [andThen, satisfy, skipWhile, h]

theorem blanks1_of_not_isBlank {c : Char} (h : isBlank c = false) (offset : Nat)
    (cs : List Char) :
    blanks1 { offset, rest := c :: cs } = .stopped { offset, rest := c :: cs } := by
  change andThen (satisfy isBlank) (fun _ => skipWhile isBlank) _ = _
  simp [andThen, satisfy, h]

theorem respacing_blanks1 : respacing.Agree blanks1 blanks1 anyValues := by
  intro ⟨offset, rest⟩ ⟨other, restRight⟩ h
  change Respaced rest restRight at h
  have hskip := h.dropWhile (.accepts fun _ hc => hc)
  cases h with
  | nil => exact Outcome.Aligned.stopped trivial
  | @same s t c h =>
      cases hc : isBlank c with
      | true =>
          rcases blanks1_of_isBlank hc offset s with ⟨last, hleft⟩
          rcases blanks1_of_isBlank hc other t with ⟨lastRight, hright⟩
          rw [hleft, hright]
          exact Outcome.Aligned.ok hskip trivial
      | false =>
          rw [blanks1_of_not_isBlank hc, blanks1_of_not_isBlank hc]
          exact Outcome.Aligned.stopped trivial
  | @gap s t b c bs cs hb hc h =>
      rcases blanks1_of_isBlank (hb b List.mem_cons_self) offset (bs ++ s) with ⟨last, hleft⟩
      rcases blanks1_of_isBlank (hc c List.mem_cons_self) other (cs ++ t) with
        ⟨lastRight, hright⟩
      rw [List.cons_append, List.cons_append, hleft, hright]
      exact Outcome.Aligned.ok hskip trivial

theorem respacing_lawful : respacing.Lawful where
  satisfy := by
    intro q hq ⟨offset, rest⟩ ⟨other, restRight⟩ h
    change Respaced rest restRight at h
    cases h with
    | nil => exact Outcome.Aligned.stopped trivial
    | same c h =>
        simp only [satisfy]
        split
        · exact Outcome.Aligned.ok h trivial
        · exact Outcome.Aligned.stopped trivial
    | @gap s t b c bs cs hb hc h =>
        have hfirst := eq_false_of_isBlank hq (hb b List.mem_cons_self)
        have hother := eq_false_of_isBlank hq (hc c List.mem_cons_self)
        simp only [satisfy, List.cons_append, hfirst, hother]
        exact Outcome.Aligned.stopped trivial
  skipWhile := respacing_skipWhile
  blanks1 := respacing_blanks1
  word := by
    intro w hw c d h
    have hrest := Respaced.isPrefixOf? h hw
    unfold word
    generalize w.toList.isPrefixOf? c.rest = left, w.toList.isPrefixOf? d.rest = right at hrest
    cases hrest with
    | none => exact Outcome.Aligned.stopped trivial
    | some hbehind => exact Outcome.Aligned.ok hbehind trivial
  atEnd := by
    intro ⟨offset, rest⟩ ⟨other, restRight⟩ h
    change Respaced rest restRight at h
    cases h with
    | nil => exact Outcome.Aligned.ok Respaced.nil trivial
    | same c h => exact Outcome.Aligned.stopped trivial
    | gap hb hc h => exact Outcome.Aligned.stopped trivial
  constructorArgs := fun _ _ h => Outcome.Aligned.ok (h.splitAtBar 0) trivial
  unbroken := by
    intro c d next nextRight read readRight h hnext hsteps hstepsRight hread hreadRight
    refine ⟨?_, rfl⟩
    have hkeep {v : List Char} (hv : Unbroken v) : v.filter (fun c => !isBlank c) = v := by
      apply List.filter_eq_self.mpr
      intro e he
      simp [hv e he]
    have hfilter := Respaced.filter_eq h
    rw [hsteps.left, hstepsRight.left, List.filter_append, List.filter_append, hkeep hread,
      hkeep hreadRight, Respaced.filter_eq hnext] at hfilter
    exact (List.append_left_inj _).mp hfilter

end Syntax
end ElmNavigator
