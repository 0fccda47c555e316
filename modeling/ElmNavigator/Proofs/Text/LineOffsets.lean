import ElmNavigator.Proofs.Place.NormalPaths
import ElmNavigator.Proofs.Text.Measures
import Mathlib.Data.Prod.Lex

/-!
# From lines and columns back to offsets

A cut in a text has whole lines in front of it and then the beginning of its own
line.  The number of the lines and the units of the beginning are the line and
column of the cut, and both can be counted back in bytes.
-/

namespace ElmNavigator
namespace Text

/-!
## Whole lines
-/

def wholeLines (rows : List (List Char)) : List Char :=
  rows.flatMap fun row => row ++ ['\n']

theorem wholeLines_cons (row : List Char) (rows : List (List Char)) :
    wholeLines (row :: rows) = row ++ '\n' :: wholeLines rows := by
  simp [wholeLines]

theorem exists_wholeLines (cs : List Char) :
    exists rows tail, cs = wholeLines rows ++ tail ∧
      (forall row, row ∈ rows -> '\n' ∉ row) ∧ '\n' ∉ tail := by
  induction cs with
  | nil =>
      exact ⟨[], [], rfl, by simp, by simp⟩
  | cons c cs ih =>
      rcases ih with ⟨rows, tail, hcs, hrows, htail⟩
      by_cases hc : c = '\n'
      · exists [] :: rows, tail
        constructor
        · rw [wholeLines_cons, hcs, hc]
          rfl
        · exact ⟨by simpa using hrows, htail⟩
      · -- The character goes in front of the first row, or of the last line if there is no row.
        cases rows with
        | nil =>
            exists [], c :: tail
            exact ⟨by rw [hcs]; rfl, by simp, by simpa [Ne.symm hc] using htail⟩
        | cons row rows =>
            exists (c :: row) :: rows, tail
            constructor
            · rw [hcs, wholeLines_cons, wholeLines_cons]
              rfl
            · constructor
              · simpa [Ne.symm hc] using hrows
              · exact htail

theorem lines_of_no_feed {tail : List Char} (h : '\n' ∉ tail) (rest : List Char) :
    exists others, lines (tail ++ rest) =
      (tail ++ rest.takeWhile (· != '\n')) :: others := by
  induction tail with
  | nil =>
      unfold lines
      induction rest with
      | nil =>
          exact ⟨[], rfl⟩
      | cons c cs ih =>
          rcases ih with ⟨others, hothers⟩
          by_cases hc : c = '\n'
          · exact ⟨splitOn '\n' cs, by simp [splitOn, hc]⟩
          · rw [List.nil_append, List.nil_append] at hothers
            exact ⟨others, by simp [splitOn, hc, hothers]⟩
  | cons c tail ih =>
      have hc : c ≠ '\n' := fun heq => h (heq ▸ List.mem_cons_self)
      rcases ih fun hmem => h (List.mem_cons_of_mem c hmem) with ⟨others, hothers⟩
      unfold lines at hothers ⊢
      exact ⟨others, by simp [splitOn, hc, hothers]⟩

section Rows

variable {rows : List (List Char)} (hrows : forall row, row ∈ rows -> '\n' ∉ row)

include hrows

theorem lines_wholeLines (rest : List Char) :
    lines (wholeLines rows ++ rest) = rows ++ lines rest := by
  induction rows with
  | nil => rfl
  | cons row rows ih =>
      have hrow := Path.splitOn_of_not_mem (hrows row List.mem_cons_self)
      have hrest := ih fun other hmem => hrows other (List.mem_cons_of_mem row hmem)
      rw [wholeLines_cons, List.append_assoc]
      unfold lines at hrest ⊢
      rw [List.cons_append, Path.splitOn_append_sep, hrow, hrest]
      rfl

theorem lineStart_wholeLines (rest : List Char) :
    lineStart (wholeLines rows ++ rest) rows.length = byteLength (wholeLines rows) := by
  unfold lineStart
  rw [lines_wholeLines hrows, List.take_left]
  rfl

theorem offset?_wholeLines {tail : List Char} (htail : '\n' ∉ tail) (rest : List Char)
    (column : Nat) :
    offset? (wholeLines rows ++ (tail ++ rest)) rows.length column =
      some (byteLength (wholeLines rows) +
        bytesToColumn (stripReturns (tail ++ rest.takeWhile (· != '\n'))) column) := by
  rcases lines_of_no_feed htail rest with ⟨others, hothers⟩
  unfold offset? lineText?
  rw [lineStart_wholeLines hrows, lines_wholeLines hrows, hothers]
  simp

omit hrows in
theorem advanceAll_of_no_feed {tail : List Char} (h : '\n' ∉ tail) (line column : Nat) :
    advanceAll tail line column = (line, column + unitLength tail) := by
  induction tail generalizing column with
  | nil => rfl
  | cons c tail ih =>
      have hc : c ≠ '\n' := fun heq => h (heq ▸ List.mem_cons_self)
      have hstep : advanceAll (c :: tail) line column =
          advanceAll tail line (column + unitSize c) := by
        simp [advanceAll, advance, hc]
      rw [hstep, ih fun hmem => h (List.mem_cons_of_mem c hmem), Nat.add_assoc]
      rfl

theorem advanceAll_wholeLines (line : Nat) :
    advanceAll (wholeLines rows) line 0 = (line + rows.length, 0) := by
  induction rows generalizing line with
  | nil => rfl
  | cons row rows ih =>
      have hrow := advanceAll_of_no_feed (hrows row List.mem_cons_self) line 0
      have hfeed : advanceAll ['\n'] line (0 + unitLength row) = (line + 1, 0) := rfl
      rw [wholeLines_cons, ← List.singleton_append, advanceAll_append, hrow,
        advanceAll_append, hfeed,
        ih fun other hmem => hrows other (List.mem_cons_of_mem row hmem),
        List.length_cons, Nat.add_right_comm, Nat.add_assoc]

theorem lineCol_wholeLines {tail : List Char} (htail : '\n' ∉ tail) (rest : List Char) :
    lineCol (wholeLines rows ++ tail ++ rest) (byteLength (wholeLines rows ++ tail)) =
      (rows.length, unitLength tail) := by
  unfold lineCol
  rw [lineColFrom_append, advanceAll_append, advanceAll_wholeLines hrows,
    advanceAll_of_no_feed htail, Nat.zero_add, Nat.zero_add]

end Rows

/-!
## Words
-/

theorem bytesToColumn_append (a b : List Char) :
    bytesToColumn (a ++ b) (unitLength a) = byteLength a := by
  induction a with
  | nil =>
      cases b with
      | nil => rfl
      | cons c cs => rfl
  | cons c cs ih =>
      have hpos : unitSize c + unitLength cs ≠ 0 := by
        unfold unitSize
        split <;> omega
      show (if unitSize c + unitLength cs = 0 then 0
        else c.utf8Size + bytesToColumn (cs ++ b)
          (unitSize c + unitLength cs - unitSize c)) = _
      rw [if_neg hpos, Nat.add_sub_cancel_left, ih]
      rfl

theorem stripReturns_append {text : List Char} {c : Char} (hc : c ≠ '\r')
    (rest : List Char) :
    stripReturns (text ++ [c] ++ rest) = text ++ [c] ++ stripReturns rest := by
  unfold stripReturns
  induction text with
  | nil =>
      show trimEnd (· == '\r') (c :: rest) = c :: trimEnd (· == '\r') rest
      cases hrest : trimEnd (· == '\r') rest with
      | nil => simp [trimEnd, hrest, hc]
      | cons d ds => simp [trimEnd, hrest]
  | cons d text ih =>
      simp only [List.cons_append, trimEnd]
      rw [ih]
      cases text with
      | nil => rfl
      | cons e text => rfl

theorem offset?_lineCol_word {source before word after : List Char}
    (hsource : source = before ++ word ++ after) (hfeed : '\n' ∉ word)
    (hlast : exists front c, word = front ++ [c] ∧ c ≠ '\r') :
    offset? source (lineCol source (byteLength before)).1
        (lineCol source (byteLength before)).2 = some (byteLength before) ∧
      offset? source (lineCol source (byteLength (before ++ word))).1
        (lineCol source (byteLength (before ++ word))).2 =
          some (byteLength (before ++ word)) := by
  rcases exists_wholeLines before with ⟨rows, tail, hbefore, hrows, htail⟩
  have hlines : source = wholeLines rows ++ (tail ++ word ++ after) := by
    rw [hsource, hbefore]
    simp
  have hword : '\n' ∉ tail ++ word := by
    rw [List.mem_append]
    exact fun h => h.elim htail hfeed
  have hline (column : Nat) :
      offset? source rows.length column = some (byteLength (wholeLines rows) +
        bytesToColumn (tail ++ word ++ stripReturns (after.takeWhile (· != '\n'))) column) := by
    rcases hlast with ⟨front, c, hc, hreturn⟩
    rw [hlines, offset?_wholeLines hrows hword, hc, ← List.append_assoc tail front [c],
      stripReturns_append hreturn]
  constructor
  · have hstart : lineCol source (byteLength before) = (rows.length, unitLength tail) := by
      rw [hbefore, hlines, List.append_assoc tail, ← List.append_assoc]
      exact lineCol_wholeLines hrows htail (word ++ after)
    rw [hstart, hline, List.append_assoc tail, bytesToColumn_append, hbefore,
      byteLength_append]
  · have hstop : lineCol source (byteLength (before ++ word)) =
        (rows.length, unitLength (tail ++ word)) := by
      rw [hbefore, hlines, ← List.append_assoc, List.append_assoc (wholeLines rows) tail]
      exact lineCol_wholeLines hrows hword after
    rw [hstop, hline, bytesToColumn_append, hbefore, List.append_assoc,
      byteLength_append (wholeLines rows)]

/-!
## Later offsets have later positions
-/

theorem le_advance (c : Char) (line column : Nat) :
    toLex (line, column) ≤ toLex (advance c line column) := by
  rw [Prod.Lex.toLex_le_toLex]
  unfold advance
  split
  · exact Or.inl (Nat.lt_succ_self line)
  · exact Or.inr ⟨rfl, Nat.le_add_right column (unitSize c)⟩

theorem le_lineColFrom (cs : List Char) (offset line column : Nat) :
    toLex (line, column) ≤ toLex (lineColFrom cs offset line column) := by
  induction cs generalizing offset line column with
  | nil =>
      exact le_refl _
  | cons c cs ih =>
      simp only [lineColFrom]
      split
      · exact le_refl _
      · exact (le_advance c line column).trans (ih _ _ _)

theorem lineColFrom_mono (cs : List Char) {offset later : Nat} (h : offset ≤ later)
    (line column : Nat) :
    toLex (lineColFrom cs offset line column) ≤
      toLex (lineColFrom cs later line column) := by
  induction cs generalizing offset later line column with
  | nil =>
      exact le_refl _
  | cons c cs ih =>
      by_cases hsize : offset < c.utf8Size
      · have hstay : lineColFrom (c :: cs) offset line column = (line, column) := by
          simp only [lineColFrom, hsize, if_true]
        rw [hstay]
        exact le_lineColFrom (c :: cs) later line column
      · have hlater : ¬ later < c.utf8Size := by omega
        simp only [lineColFrom, hsize, hlater, if_false]
        exact ih (Nat.sub_le_sub_right h c.utf8Size) _ _

end Text
end ElmNavigator
