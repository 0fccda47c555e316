import ElmNavigator.Proofs.Syntax.Chunks
import ElmNavigator.Proofs.Text.LineOffsets
import Mathlib.Order.Bounds.Basic

/-!
# Positions that are clamped

Offsets and positions lead to each other as far as they can.  A position past the
text of its line leads to the end of that text, where its carriage returns are not
counted, and a column inside a character to the end of the character.  From every
other position the way back leads to where it came from.
-/

namespace ElmNavigator
namespace Text

/-!
## Columns of a line
-/

/-- The columns in front of the characters of a text, and the one at its end. -/
def IsColumn (text : List Char) (column : Nat) : Prop :=
  exists front back, text = front ++ back ∧ unitLength front = column

/-- The first column of a text from a given one on, or else its last column. -/
def RoundsUp (text : List Char) (column rounded : Nat) : Prop :=
  IsLeast (fun other => IsColumn text other ∧ column ≤ other) rounded ∨
    ((forall other, IsColumn text other -> other < column) ∧ rounded = unitLength text)

theorem isColumn_zero (text : List Char) : IsColumn text 0 :=
  ⟨[], text, rfl, rfl⟩

theorem isColumn_nil_iff (column : Nat) : IsColumn [] column ↔ column = 0 := by
  constructor
  · rintro ⟨front, back, htext, hcolumn⟩
    rw [(List.append_eq_nil_iff.mp htext.symm).left] at hcolumn
    exact hcolumn.symm
  · rintro rfl
    exact isColumn_zero []

theorem isColumn_cons_iff (c : Char) (cs : List Char) (column : Nat) :
    IsColumn (c :: cs) column ↔
      column = 0 ∨ exists other, IsColumn cs other ∧ column = unitSize c + other := by
  constructor
  · rintro ⟨front, back, htext, hcolumn⟩
    cases front with
    | nil => exact Or.inl hcolumn.symm
    | cons d front =>
        simp only [List.cons_append, List.cons.injEq] at htext
        rw [← htext.left] at hcolumn
        exact Or.inr ⟨unitLength front, ⟨front, back, htext.right, rfl⟩, hcolumn.symm⟩
  · rintro (rfl | ⟨other, ⟨front, back, hcs, hother⟩, rfl⟩)
    · exact isColumn_zero (c :: cs)
    · exact ⟨c :: front, back, by rw [hcs]; rfl, by rw [← hother]; rfl⟩

theorem roundsUp_zero (text : List Char) : RoundsUp text 0 0 :=
  Or.inl ⟨⟨isColumn_zero text, Nat.le_refl 0⟩, fun _ _ => Nat.zero_le _⟩

theorem roundsUp_nil (column : Nat) : RoundsUp [] column 0 := by
  rcases Nat.eq_zero_or_pos column with rfl | hpos
  · exact roundsUp_zero []
  · refine Or.inr ⟨?_, rfl⟩
    intro other hother
    rwa [(isColumn_nil_iff other).mp hother]

theorem RoundsUp.cons {c : Char} {cs : List Char} {column rounded : Nat} (hpos : 0 < column)
    (h : RoundsUp cs (column - unitSize c) rounded) :
    RoundsUp (c :: cs) column (unitSize c + rounded) := by
  rcases h with ⟨⟨hcolumn, hle⟩, hleast⟩ | ⟨hpast, hend⟩
  · refine Or.inl ⟨⟨?_, Nat.sub_le_iff_le_add'.mp hle⟩, ?_⟩
    · exact (isColumn_cons_iff c cs _).mpr (Or.inr ⟨rounded, hcolumn, rfl⟩)
    · rintro other ⟨hother, hfrom⟩
      rcases (isColumn_cons_iff c cs other).mp hother with rfl | ⟨rest, hrest, rfl⟩
      · omega
      · exact Nat.add_le_add_left (hleast ⟨hrest, Nat.sub_le_iff_le_add'.mpr hfrom⟩) _
  · refine Or.inr ⟨?_, by rw [hend]; rfl⟩
    intro other hother
    rcases (isColumn_cons_iff c cs other).mp hother with rfl | ⟨rest, hrest, rfl⟩
    · exact hpos
    · have hless := hpast rest hrest
      omega

theorem bytesToColumn_roundsUp (text : List Char) (column : Nat) :
    exists front back, text = front ++ back ∧ bytesToColumn text column = byteLength front ∧
      RoundsUp text column (unitLength front) := by
  fun_induction bytesToColumn text column with
  | case1 column => exact ⟨[], [], rfl, rfl, roundsUp_nil column⟩
  | case2 c cs => exact ⟨[], c :: cs, rfl, rfl, roundsUp_zero (c :: cs)⟩
  | case3 c cs column hcolumn ih =>
      rcases ih with ⟨front, back, hcs, hbytes, hrounds⟩
      refine ⟨c :: front, back, by rw [hcs]; rfl, by rw [hbytes]; rfl, ?_⟩
      exact hrounds.cons (Nat.pos_of_ne_zero hcolumn)

theorem bytesToColumn_past (text more : List Char) :
    bytesToColumn text (unitLength (text ++ more)) = byteLength text := by
  induction text with
  | nil => rfl
  | cons c cs ih =>
      have hpos : unitSize c + unitLength (cs ++ more) ≠ 0 := by
        unfold unitSize
        split <;> omega
      show (if unitSize c + unitLength (cs ++ more) = 0 then 0
        else c.utf8Size + bytesToColumn cs
          (unitSize c + unitLength (cs ++ more) - unitSize c)) = _
      rw [if_neg hpos, Nat.add_sub_cancel_left, ih]
      rfl

theorem exists_returns (row : List Char) : exists returns, row = stripReturns row ++ returns := by
  rcases Syntax.trimEnd_append (· == '\r') row with ⟨returns, hreturns, _⟩
  exact ⟨returns, hreturns⟩

/-- The end of a beginning of a row leads back to itself, or to the end of the row's text. -/
theorem bytesToColumn_stripReturns {row tail more : List Char} (hrow : row = tail ++ more) :
    bytesToColumn (stripReturns row) (unitLength tail) =
      min (byteLength tail) (byteLength (stripReturns row)) := by
  rcases exists_returns row with ⟨returns, hreturns⟩
  have htext : stripReturns row <+: row := ⟨returns, hreturns.symm⟩
  have htail : tail <+: row := ⟨more, hrow.symm⟩
  rcases List.prefix_or_prefix_of_prefix htail htext with ⟨rest, hrest⟩ | ⟨rest, hrest⟩
  · rw [← hrest, bytesToColumn_append, byteLength_append, Nat.min_eq_left (Nat.le_add_right _ _)]
  · rw [← hrest, bytesToColumn_past, byteLength_append, Nat.min_eq_right (Nat.le_add_right _ _)]

/-!
## Lines of a source
-/

theorem wholeLines_append (rows others : List (List Char)) :
    wholeLines (rows ++ others) = wholeLines rows ++ wholeLines others :=
  List.flatMap_append

theorem lineText?_wholeLines {rows : List (List Char)}
    (hrows : forall row, row ∈ rows -> '\n' ∉ row) {tail : List Char} (htail : '\n' ∉ tail)
    (rest : List Char) :
    lineText? (wholeLines rows ++ (tail ++ rest)) rows.length =
      some (stripReturns (tail ++ rest.takeWhile (· != '\n'))) := by
  rcases lines_of_no_feed htail rest with ⟨others, hothers⟩
  unfold lineText?
  rw [lines_wholeLines hrows, hothers]
  simp

theorem exists_line {source : List Char} {line : Nat} (h : line < (lines source).length) :
    exists rows row rest, source = wholeLines rows ++ (row ++ rest) ∧ rows.length = line ∧
      (forall other, other ∈ rows -> '\n' ∉ other) ∧ '\n' ∉ row ∧
      rest.takeWhile (· != '\n') = [] := by
  rcases exists_wholeLines source with ⟨rows, tail, hsource, hrows, htail⟩
  subst hsource
  have hlast : lines tail = [tail] := Path.splitOn_of_not_mem htail
  rw [lines_wholeLines hrows, hlast, List.length_append, List.length_singleton] at h
  rcases Nat.lt_succ_iff_lt_or_eq.mp h with hinner | hend
  · have hsplit : rows = rows.take line ++ rows[line] :: rows.drop (line + 1) := by
      rw [← List.drop_eq_getElem_cons hinner, List.take_append_drop]
    have hsource : wholeLines rows = wholeLines (rows.take line) ++
        (rows[line] ++ '\n' :: wholeLines (rows.drop (line + 1))) := by
      rw [← wholeLines_cons, ← wholeLines_append, ← hsplit]
    refine ⟨rows.take line, rows[line], '\n' :: (wholeLines (rows.drop (line + 1)) ++ tail),
      ?_, List.length_take_of_le hinner.le, ?_, hrows _ (List.getElem_mem hinner), by simp⟩
    · simp only [hsource, List.append_assoc, List.cons_append]
    · exact fun other hother => hrows other (List.mem_of_mem_take hother)
  · exact ⟨rows, tail, [], by rw [List.append_nil], hend.symm, hrows, htail, rfl⟩

/-!
## There and back
-/

theorem offset?_roundsUp {rows : List (List Char)}
    (hrows : forall row, row ∈ rows -> '\n' ∉ row) {row rest : List Char} (hrow : '\n' ∉ row)
    (hrest : rest.takeWhile (· != '\n') = []) (column : Nat) :
    exists front back, stripReturns row = front ++ back ∧
      offset? (wholeLines rows ++ (row ++ rest)) rows.length column =
        some (byteLength (wholeLines rows ++ front)) ∧
      lineCol (wholeLines rows ++ (row ++ rest)) (byteLength (wholeLines rows ++ front)) =
        (rows.length, unitLength front) ∧
      RoundsUp (stripReturns row) column (unitLength front) := by
  rcases exists_returns row with ⟨returns, hreturns⟩
  rcases bytesToColumn_roundsUp (stripReturns row) column with
    ⟨front, back, hfront, hbytes, hrounds⟩
  refine ⟨front, back, hfront, ?_, ?_, hrounds⟩
  · rw [offset?_wholeLines hrows hrow, hrest, List.append_nil, hbytes, byteLength_append]
  · have hline : row = front ++ (back ++ returns) := by
      rw [← List.append_assoc, ← hfront]
      exact hreturns
    have hfeed : '\n' ∉ front := by
      rw [hline, List.mem_append, not_or] at hrow
      exact hrow.left
    rw [hline, List.append_assoc, ← List.append_assoc]
    exact lineCol_wholeLines hrows hfeed _

/-- Offsets and positions of a source lead to each other, up to clamping. -/
structure ClampedInverse (source : List Char) : Prop where
  offsets : forall offset, IsBoundary source offset ->
    exists text, lineText? source (lineCol source offset).1 = some text ∧
      offset? source (lineCol source offset).1 (lineCol source offset).2 =
        some (min offset (lineStart source (lineCol source offset).1 + byteLength text))
  positions : forall line, line < (lines source).length ->
    exists before text after, source = before ++ text ++ after ∧
      lineStart source line = byteLength before ∧ lineText? source line = some text ∧
      forall column, exists front back, text = front ++ back ∧
        offset? source line column = some (byteLength (before ++ front)) ∧
        lineCol source (byteLength (before ++ front)) = (line, unitLength front) ∧
        RoundsUp text column (unitLength front)
  noPositions : forall line column, (lines source).length ≤ line ->
    offset? source line column = none

/-- The position of an offset leads back to the offset, or to the end of the text of its line.
Every column of a line leads to a cut in the text of that line, whose position is on the line and at
the column to which the given one is rounded up.  Other lines lead nowhere. -/
theorem lineCol_offset?_clampedInverse (source : List Char) : ClampedInverse source := by
  constructor
  case offsets =>
    rintro offset ⟨before, rest, hsource, hoffset⟩
    rcases exists_wholeLines before with ⟨rows, tail, hbefore, hrows, htail⟩
    subst hsource hoffset hbefore
    rw [lineCol_wholeLines hrows htail, List.append_assoc]
    refine ⟨_, lineText?_wholeLines hrows htail rest, ?_⟩
    rw [offset?_wholeLines hrows htail, lineStart_wholeLines hrows, bytesToColumn_stripReturns rfl,
      byteLength_append, Nat.add_min_add_left]
  case positions =>
    intro line hline
    rcases exists_line hline with ⟨rows, row, rest, hsource, hlength, hrows, hrow, hrest⟩
    subst hsource hlength
    rcases exists_returns row with ⟨returns, hreturns⟩
    have htext := lineText?_wholeLines hrows hrow rest
    rw [hrest, List.append_nil] at htext
    refine ⟨wholeLines rows, stripReturns row, returns ++ rest, ?_,
      lineStart_wholeLines hrows _, htext, offset?_roundsUp hrows hrow hrest⟩
    rw [List.append_assoc, ← List.append_assoc (stripReturns row), ← hreturns]
  case noPositions =>
    intro line column hline
    unfold offset? lineText?
    rw [List.getElem?_eq_none hline]
    rfl

-- Between a carriage return and its line feed, the way back ends in front of the return.
example : lineCol ['a', '\r', '\n'] 2 = (0, 2) ∧ offset? ['a', '\r', '\n'] 0 2 = some 1 := by
  decide

end Text
end ElmNavigator
