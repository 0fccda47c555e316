import ElmNavigator.Proofs.Text.LineOffsets
import ElmNavigator.Workspace.Overlay

/-!
# Positions of edits

Source texts have lines that end at line feeds, while a document under edit has
lines that end at any break.  The two ways to count lines agree up to the first
stray break, one that ends a line of the document only.  A position behind the
character that follows a stray break leads an edit to another place, so the
positions of a text lead back to where they came from exactly if no character
follows a stray break.
-/

namespace ElmNavigator

open Text

/-!
## Stray breaks
-/

/-- A character that ends a line of a document in front of a rest, but no line of a source text,
not even together with the rest. -/
def IsStrayBreak (c : Char) (rest : List Char) : Prop :=
  c ∈ ['\x0b', '\x0c', '\u0085', '\u2028', '\u2029'] ∨ (c = '\r' ∧ rest.head? ≠ some '\n')

instance (c : Char) (rest : List Char) : Decidable (IsStrayBreak c rest) :=
  inferInstanceAs (Decidable (_ ∨ _))

/-- Only the very last character of a text may be a stray break. -/
def OrdinaryBreaks (text : List Char) : Prop :=
  forall before c after, text = before ++ c :: after -> IsStrayBreak c after -> after = []

/-- A text has no stray break in front of a rest. -/
def Unstrayed : List Char -> List Char -> Prop
  | [], _ => True
  | c :: cs, rest => ¬ IsStrayBreak c (cs ++ rest) ∧ Unstrayed cs rest

theorem isLineBreak_iff (c : Char) :
    isLineBreak c = true ↔
      c = '\n' ∨ c = '\r' ∨ c ∈ ['\x0b', '\x0c', '\u0085', '\u2028', '\u2029'] := by
  simp only [isLineBreak, Bool.or_eq_true, Bool.and_eq_true, decide_eq_true_eq, beq_iff_eq,
    List.mem_cons, List.not_mem_nil, or_false, ← Char.toNat_inj]
  show _ ↔ c.toNat = 10 ∨ c.toNat = 13 ∨ c.toNat = 11 ∨ c.toNat = 12 ∨ c.toNat = 0x85 ∨
    c.toNat = 0x2028 ∨ c.toNat = 0x2029
  omega

theorem IsStrayBreak.ne_feed {c : Char} {rest : List Char} (h : IsStrayBreak c rest) :
    c ≠ '\n' := by
  rintro rfl
  rcases h with hmem | ⟨hreturn, _⟩
  · revert hmem
    decide
  · cases hreturn

theorem IsStrayBreak.isLineBreak {c : Char} {rest : List Char} (h : IsStrayBreak c rest) :
    isLineBreak c = true := by
  rw [isLineBreak_iff]
  rcases h with hmem | ⟨hreturn, _⟩
  · exact Or.inr (Or.inr hmem)
  · exact Or.inr (Or.inl hreturn)

theorem cases_of_not_stray {c : Char} {rest : List Char} (hfeed : c ≠ '\n')
    (h : ¬ IsStrayBreak c rest) :
    isLineBreak c = false ∨ (c = '\r' ∧ exists others, rest = '\n' :: others) := by
  cases hbreak : isLineBreak c with
  | false => exact Or.inl rfl
  | true =>
      right
      rcases (isLineBreak_iff c).mp hbreak with heq | hreturn | hmem
      · exact absurd heq hfeed
      · refine ⟨hreturn, List.head?_eq_some_iff.mp ?_⟩
        by_contra hhead
        exact h (Or.inr ⟨hreturn, hhead⟩)
      · exact absurd (Or.inl hmem) h

/-!
## Lines of documents
-/

theorem documentLines_ne_nil (cs : List Char) : documentLines cs ≠ [] := by
  fun_induction documentLines cs with
  | case1 => simp
  | case2 cs ih => simp
  | case3 c cs _ hbreak ih => simp
  | case4 c cs _ hbreak hnil ih => simp
  | case5 c cs _ hbreak line lines hlines ih => simp

theorem documentLines_feed (cs : List Char) :
    documentLines ('\n' :: cs) = ['\n'] :: documentLines cs := by
  rw [documentLines, if_pos (by decide)]
  intro _ hreturn
  cases hreturn

theorem documentLines_return_feed (cs : List Char) :
    documentLines ('\r' :: '\n' :: cs) = ['\r', '\n'] :: documentLines cs := by
  rw [documentLines]

theorem documentLines_stray {c : Char} {cs : List Char} (h : IsStrayBreak c cs) :
    documentLines (c :: cs) = [c] :: documentLines cs := by
  rw [documentLines, if_pos h.isLineBreak]
  intro others hreturn hcs
  rcases h with hmem | ⟨_, hhead⟩
  · rw [hreturn] at hmem
    revert hmem
    decide
  · exact hhead (by rw [hcs]; rfl)

theorem documentLines_of_not_break {c : Char} (h : isLineBreak c = false) {cs : List Char}
    {line : List Char} {others : List (List Char)} (hcs : documentLines cs = line :: others) :
    documentLines (c :: cs) = (c :: line) :: others := by
  rw [documentLines, if_neg (by rw [h]; exact Bool.false_ne_true), hcs]
  rintro _ rfl
  cases h

theorem eq_nil_of_feed {row rest others : List Char} (hfeed : '\n' ∉ row)
    (h : row ++ rest = '\n' :: others) : row = [] := by
  cases row with
  | nil => rfl
  | cons c row =>
      injection h with hc _
      exact absurd (hc ▸ List.mem_cons_self) hfeed

theorem documentLines_row {row : List Char} (hfeed : '\n' ∉ row) {rest : List Char}
    (h : Unstrayed row ('\n' :: rest)) :
    documentLines (row ++ '\n' :: rest) = (row ++ ['\n']) :: documentLines rest := by
  induction row with
  | nil => exact documentLines_feed rest
  | cons c row ih =>
      rcases List.ne_and_not_mem_of_not_mem_cons hfeed with ⟨hc, hrow⟩
      rcases cases_of_not_stray hc.symm h.1 with hplain | ⟨hreturn, others, hothers⟩
      · exact documentLines_of_not_break hplain (ih hrow h.2)
      · rw [eq_nil_of_feed hrow hothers, hreturn]
        exact documentLines_return_feed rest

theorem documentLines_row_stray {row : List Char} (hfeed : '\n' ∉ row) {c : Char}
    {rest : List Char} (h : Unstrayed row (c :: rest)) (hc : IsStrayBreak c rest) :
    documentLines (row ++ c :: rest) = (row ++ [c]) :: documentLines rest := by
  induction row with
  | nil => exact documentLines_stray hc
  | cons d row ih =>
      rcases List.ne_and_not_mem_of_not_mem_cons hfeed with ⟨hd, hrow⟩
      rcases cases_of_not_stray hd.symm h.1 with hplain | ⟨_, others, hothers⟩
      · exact documentLines_of_not_break hplain (ih hrow h.2)
      · rw [eq_nil_of_feed hrow hothers] at hothers
        injection hothers with heq _
        exact absurd heq hc.ne_feed

theorem unstrayed_append (a b rest : List Char) :
    Unstrayed (a ++ b) rest ↔ Unstrayed a (b ++ rest) ∧ Unstrayed b rest := by
  induction a with
  | nil => simp [Unstrayed]
  | cons c a ih =>
      simp only [List.cons_append, Unstrayed, ih, List.append_assoc, and_assoc]

theorem documentLines_wholeLines {rows : List (List Char)}
    (hrows : forall row, row ∈ rows -> '\n' ∉ row) {rest : List Char}
    (h : Unstrayed (wholeLines rows) rest) :
    documentLines (wholeLines rows ++ rest) =
      rows.map (fun row => row ++ ['\n']) ++ documentLines rest := by
  induction rows with
  | nil => rfl
  | cons row rows ih =>
      rw [wholeLines_cons] at h
      rcases (unstrayed_append _ _ _).mp h with ⟨hrow, hothers⟩
      rw [List.cons_append] at hrow
      rw [wholeLines_cons, List.append_assoc, List.cons_append,
        documentLines_row (hrows row List.mem_cons_self) hrow,
        ih (fun other hmem => hrows other (List.mem_cons_of_mem row hmem)) hothers.2]
      rfl

/-!
## Offsets in lines
-/

theorem takeColumn_append (a b : List Char) : takeColumn (a ++ b) (unitLength a) = a := by
  induction a with
  | nil =>
      cases b with
      | nil => rfl
      | cons c cs =>
          have hpos : 0 < unitSize c := by
            unfold unitSize
            split <;> omega
          exact if_pos hpos
  | cons c a ih =>
      have hle : ¬ unitSize c + unitLength a < unitSize c := by omega
      show (if unitSize c + unitLength a < unitSize c then []
        else c :: takeColumn (a ++ b) (unitSize c + unitLength a - unitSize c)) = _
      rw [if_neg hle, Nat.add_sub_cancel_left, ih]

theorem byteLength_takeColumn_le (line : List Char) (column : Nat) :
    byteLength (takeColumn line column) ≤ byteLength line := by
  fun_induction takeColumn line column with
  | case1 column => exact Nat.le_refl 0
  | case2 column c cs hlt => exact Nat.zero_le _
  | case3 column c cs hle ih => exact Nat.add_le_add_left ih _

theorem dropLineFeed_append {a : List Char} (h : '\n' ∉ a) (b : List Char) :
    exists rest, dropLineFeed (a ++ b) = a ++ rest := by
  unfold dropLineFeed
  split
  · rename_i hlast
    cases b with
    | nil =>
        rw [List.append_nil] at hlast
        exact absurd (List.mem_of_getLast? hlast) h
    | cons c cs => exact ⟨(c :: cs).dropLast, List.dropLast_append_of_ne_nil (by simp)⟩
  · exact ⟨b, rfl⟩

theorem byteLength_dropLineFeed_le (line : List Char) :
    byteLength (dropLineFeed line) ≤ byteLength line := by
  unfold dropLineFeed
  split
  · rename_i hlast
    rcases List.getLast?_eq_some_iff.mp hlast with ⟨front, hfront⟩
    rw [hfront, List.dropLast_concat, byteLength_append]
    exact Nat.le_add_right _ _
  · exact Nat.le_refl _

theorem documentOffset?_line {text : List Char} {front others : List (List Char)}
    {line : List Char} (h : documentLines text = front ++ line :: others) (column : Nat) :
    documentOffset? text front.length column =
      some (byteLength front.flatten + byteLength (takeColumn (dropLineFeed line) column)) := by
  simp [documentOffset?, h]

theorem flatten_whole (rows : List (List Char)) :
    (rows.map fun row => row ++ ['\n']).flatten = wholeLines rows :=
  (List.flatMap_def ..).symm

/-!
## Positions of a text with ordinary breaks
-/

theorem OrdinaryBreaks.tail {c : Char} {cs : List Char} (h : OrdinaryBreaks (c :: cs)) :
    OrdinaryBreaks cs := by
  intro before d after hcs hstray
  exact h (c :: before) d after (by rw [hcs]; rfl) hstray

theorem OrdinaryBreaks.head {c : Char} {cs : List Char} (h : OrdinaryBreaks (c :: cs))
    (hcs : cs ≠ []) : ¬ IsStrayBreak c cs :=
  fun hstray => hcs (h [] c cs rfl hstray)

theorem OrdinaryBreaks.unstrayed {front rest : List Char} (h : OrdinaryBreaks (front ++ rest))
    (hrest : rest ≠ []) : Unstrayed front rest := by
  induction front with
  | nil => trivial
  | cons c front ih => exact ⟨h.head (by simp [hrest]), ih h.tail⟩

theorem OrdinaryBreaks.of_append {front rest : List Char} (h : OrdinaryBreaks (front ++ rest)) :
    OrdinaryBreaks rest := by
  induction front with
  | nil => exact h
  | cons c front ih => exact ih h.tail

theorem OrdinaryBreaks.wholeLines {rows : List (List Char)} {rest : List Char}
    (h : OrdinaryBreaks (wholeLines rows ++ rest)) : Unstrayed (Text.wholeLines rows) rest := by
  induction rows with
  | nil => trivial
  | cons row rows ih =>
      rw [wholeLines_cons, List.append_assoc] at h
      rw [wholeLines_cons, unstrayed_append]
      have hfeed : ¬ IsStrayBreak '\n' (Text.wholeLines rows ++ rest) :=
        fun hstray => hstray.ne_feed rfl
      exact ⟨h.unstrayed (by simp), hfeed, ih h.of_append.tail⟩

theorem documentLines_beginning {row : List Char} (hfeed : '\n' ∉ row) {rest : List Char}
    (h : OrdinaryBreaks (row ++ rest)) :
    exists more others, documentLines (row ++ rest) = (row ++ more) :: others := by
  induction row with
  | nil => exact List.exists_cons_of_ne_nil (documentLines_ne_nil rest)
  | cons c row ih =>
      rcases List.ne_and_not_mem_of_not_mem_cons hfeed with ⟨hc, hrow⟩
      by_cases hstray : IsStrayBreak c (row ++ rest)
      · -- A stray break can only be the last character.
        have hend := List.append_eq_nil_iff.mp (h [] c (row ++ rest) rfl hstray)
        rw [List.cons_append, documentLines_stray hstray, hend.1]
        exact ⟨[], _, rfl⟩
      · rcases cases_of_not_stray hc.symm hstray with hplain | ⟨hreturn, others, hothers⟩
        · rcases ih hrow h.tail with ⟨more, others, hlines⟩
          exact ⟨more, others, documentLines_of_not_break hplain hlines⟩
        · rw [List.cons_append, hothers, eq_nil_of_feed hrow hothers, hreturn,
            documentLines_return_feed]
          exact ⟨['\n'], _, rfl⟩

theorem OrdinaryBreaks.documentOffset? {before after : List Char}
    (h : OrdinaryBreaks (before ++ after)) :
    documentOffset? (before ++ after) (lineCol (before ++ after) (byteLength before)).1
      (lineCol (before ++ after) (byteLength before)).2 = some (byteLength before) := by
  rcases exists_wholeLines before with ⟨rows, row, hbefore, hrows, hrow⟩
  subst hbefore
  rw [lineCol_wholeLines hrows hrow]
  rw [List.append_assoc] at h ⊢
  rcases documentLines_beginning hrow h.of_append with ⟨more, others, hline⟩
  have hlines := documentLines_wholeLines hrows h.wholeLines
  rw [hline] at hlines
  have hoffset := documentOffset?_line hlines (unitLength row)
  rcases dropLineFeed_append hrow more with ⟨kept, hkept⟩
  rw [List.length_map, flatten_whole, hkept, takeColumn_append] at hoffset
  rw [hoffset, byteLength_append]

/-!
## The position behind a stray break
-/

theorem exists_first_stray {text : List Char} (h : ¬ OrdinaryBreaks text) :
    exists before c d after, text = before ++ c :: d :: after ∧
      Unstrayed before (c :: d :: after) ∧ IsStrayBreak c (d :: after) := by
  induction text with
  | nil => exact absurd (fun before c after hnil => by simp at hnil) h
  | cons c cs ih =>
      by_cases hstray : IsStrayBreak c cs ∧ cs ≠ []
      · rcases List.exists_cons_of_ne_nil hstray.2 with ⟨d, after, hcs⟩
        rw [hcs] at hstray ⊢
        exact ⟨[], c, d, after, rfl, trivial, hstray.1⟩
      · have hcs : ¬ OrdinaryBreaks cs := by
          intro hordinary
          apply h
          intro before d after heq hd
          cases before with
          | nil =>
              injection heq with hc hafter
              rw [← hc, ← hafter] at hd
              by_contra hne
              exact hstray ⟨hd, hafter ▸ hne⟩
          | cons e before =>
              injection heq with _ hrest
              exact hordinary before d after hrest hd
        rcases ih hcs with ⟨before, d, e, after, heq, hbefore, hd⟩
        refine ⟨c :: before, d, e, after, by rw [heq]; rfl, ⟨?_, hbefore⟩, hd⟩
        intro hc
        rw [← heq] at hc
        exact hstray ⟨hc, by simp [heq]⟩

section FirstStray

variable {rows : List (List Char)} {row : List Char} {c d : Char} {after : List Char}
  (hrows : forall row, row ∈ rows -> '\n' ∉ row) (hrow : '\n' ∉ row)
  (hfront : Unstrayed (wholeLines rows ++ row) (c :: d :: after))
  (hc : IsStrayBreak c (d :: after))

include hrows hrow hfront hc

theorem documentLines_first_stray :
    documentLines (wholeLines rows ++ row ++ c :: d :: after) =
      rows.map (fun row => row ++ ['\n']) ++ (row ++ [c]) :: documentLines (d :: after) := by
  rw [unstrayed_append] at hfront
  rw [List.append_assoc, documentLines_wholeLines hrows hfront.1,
    documentLines_row_stray hrow hfront.2 hc]

/-- A line feed behind a stray break ends the line of the source text, but one line more of the
document. -/
theorem documentOffset?_feed_behind_stray (hd : d = '\n') :
    let text := wholeLines rows ++ row ++ c :: d :: after
    let offset := byteLength (wholeLines rows ++ row ++ [c, d])
    documentOffset? text (lineCol text offset).1 (lineCol text offset).2 ≠ some offset := by
  subst hd
  intro text offset
  have hposition : lineCol text offset = (rows.length + 1, 0) := by
    have hall : forall other, other ∈ rows ++ [row ++ [c]] -> '\n' ∉ other := by
      intro other hother
      rcases List.mem_append.mp hother with hearlier | hlast
      · exact hrows other hearlier
      · rw [List.mem_singleton.mp hlast]
        simp [hrow, hc.ne_feed.symm]
    have hcut := lineCol_wholeLines hall List.not_mem_nil after
    simpa [wholeLines, unitLength, text, offset, Nat.add_assoc] using hcut
  have hlines : documentLines text =
      (rows.map (fun row => row ++ ['\n']) ++ [row ++ [c]]) ++ ['\n'] :: documentLines after := by
    rw [documentLines_first_stray hrows hrow hfront hc, documentLines_feed]
    simp
  have hoffset := documentOffset?_line hlines 0
  have hempty : takeColumn (dropLineFeed ['\n']) 0 = [] := rfl
  rw [List.length_append, List.length_map, List.length_singleton, List.flatten_append,
    flatten_whole, hempty] at hoffset
  rw [hposition, hoffset]
  intro hback
  injection hback with hback
  have hpos := Char.utf8Size_pos '\n'
  simp only [offset, List.flatten_singleton, byteLength_append, byteLength_cons,
    byteLength_nil] at hback
  omega

/-- On the line that a stray break ends there is no position behind the next character. -/
theorem documentOffset?_character_behind_stray (hd : d ≠ '\n') :
    let text := wholeLines rows ++ row ++ c :: d :: after
    let offset := byteLength (wholeLines rows ++ row ++ [c, d])
    documentOffset? text (lineCol text offset).1 (lineCol text offset).2 ≠ some offset := by
  intro text offset
  have hfeed : '\n' ∉ row ++ [c, d] := by simp [hrow, hc.ne_feed.symm, hd.symm]
  have hposition : lineCol text offset = (rows.length, unitLength (row ++ [c, d])) := by
    have hcut := lineCol_wholeLines hrows hfeed after
    simpa [text, offset, Nat.add_assoc] using hcut
  have hoffset := documentOffset?_line (documentLines_first_stray hrows hrow hfront hc)
    (unitLength (row ++ [c, d]))
  rw [List.length_map, flatten_whole] at hoffset
  rw [hposition, hoffset]
  intro hback
  injection hback with hback
  have htaken := byteLength_takeColumn_le (dropLineFeed (row ++ [c]))
    (unitLength (row ++ [c, d]))
  have hline := byteLength_dropLineFeed_le (row ++ [c])
  have hpos := d.utf8Size_pos
  simp only [offset, byteLength_append, byteLength_cons, byteLength_nil] at hback htaken hline
  omega

end FirstStray

/-- The line and column of every offset between characters lead an edit back to that offset
exactly if no character of the text stands behind a stray break. -/
theorem documentOffset?_lineCol_iff (text : List Char) :
    (forall offset, IsBoundary text offset ->
      documentOffset? text (lineCol text offset).1 (lineCol text offset).2 = some offset) ↔
      OrdinaryBreaks text := by
  constructor
  · intro h
    by_contra hstray
    rcases exists_first_stray hstray with ⟨before, c, d, after, htext, hbefore, hc⟩
    have hboundary : IsBoundary text (byteLength (before ++ [c, d])) :=
      ⟨before ++ [c, d], after, by rw [htext]; simp, rfl⟩
    have hback := h _ hboundary
    rcases exists_wholeLines before with ⟨rows, row, hfront, hrows, hrow⟩
    rw [htext, hfront] at hback
    rw [hfront] at hbefore
    by_cases hd : d = '\n'
    · exact documentOffset?_feed_behind_stray hrows hrow hbefore hc hd hback
    · exact documentOffset?_character_behind_stray hrows hrow hbefore hc hd hback
  · rintro h offset ⟨before, after, htext, hoffset⟩
    subst htext hoffset
    exact h.documentOffset?

-- The end of a text with a vertical tab in it leads back to the tab.
example : documentOffset? ['a', '\x0b', 'b'] (lineCol ['a', '\x0b', 'b'] 3).1
    (lineCol ['a', '\x0b', 'b'] 3).2 = some 2 := by
  decide

end ElmNavigator
