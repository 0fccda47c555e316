import ElmNavigator.Proofs.Text.ClampedPositions
import ElmNavigator.Proofs.Workspace.CacheCoherence
import ElmNavigator.Proofs.Workspace.DocumentSymbols
import ElmNavigator.Proofs.Workspace.EditPositions

/-!
# Edits of a stretch

An edit of a stretch puts its text in the place of the stretch and touches nothing
else, or it does nothing at all.  Both ends of the stretch are cuts in the text of
the document, on the lines that the edit names, so what is cut out and what stays
are whole characters.
-/

namespace ElmNavigator

open Text

/-!
## Lines of a document
-/

/-- A line break, where a carriage return takes a line feed behind it along. -/
def IsBreak (text rest : List Char) : Prop :=
  text = ['\r', '\n'] ∨
    exists c, text = [c] ∧ isLineBreak c = true ∧ ¬ (c = '\r' ∧ rest.head? = some '\n')

/-- The lines of a text, each with its break; there is none in the last line. -/
inductive BrokenInto : List Char -> List (List Char) -> Prop where
  | last {line : List Char} :
      (forall c, c ∈ line -> isLineBreak c = false) -> BrokenInto line [line]
  | line {content ending rest : List Char} {lines : List (List Char)} :
      (forall c, c ∈ content -> isLineBreak c = false) -> IsBreak ending rest ->
      BrokenInto rest lines ->
      BrokenInto (content ++ ending ++ rest) ((content ++ ending) :: lines)

theorem BrokenInto.flatten {text : List Char} {lines : List (List Char)}
    (h : BrokenInto text lines) : lines.flatten = text := by
  induction h with
  | last _ => simp
  | line _ _ _ ih => rw [List.flatten_cons, ih]

theorem BrokenInto.emptyLine {ending rest : List Char} {lines : List (List Char)}
    (hending : IsBreak ending rest) (hrest : BrokenInto rest lines) :
    BrokenInto (ending ++ rest) (ending :: lines) :=
  @BrokenInto.line [] ending rest lines (by simp) hending hrest

theorem BrokenInto.cons {c : Char} (hc : isLineBreak c = false) {text line : List Char}
    {lines : List (List Char)} (h : BrokenInto text (line :: lines)) :
    BrokenInto (c :: text) ((c :: line) :: lines) := by
  cases h with
  | last hline => exact BrokenInto.last (List.forall_mem_cons.mpr ⟨hc, hline⟩)
  | @line content ending rest _ hcontent hending hrest =>
      have hlonger : forall d, d ∈ c :: content -> isLineBreak d = false :=
        List.forall_mem_cons.mpr ⟨hc, hcontent⟩
      exact BrokenInto.line hlonger hending hrest

theorem brokenInto_documentLines (text : List Char) : BrokenInto text (documentLines text) := by
  fun_induction documentLines text with
  | case1 => exact BrokenInto.last (by simp)
  | case2 cs ih => exact BrokenInto.emptyLine (Or.inl rfl) ih
  | case3 c cs hreturn hbreak ih =>
      refine BrokenInto.emptyLine (Or.inr ⟨c, rfl, hbreak, ?_⟩) ih
      rintro ⟨hc, hhead⟩
      rcases List.head?_eq_some_iff.mp hhead with ⟨others, hcs⟩
      exact hreturn others hc hcs
  | case4 c cs hreturn hbreak hnil ih => exact absurd hnil (documentLines_ne_nil cs)
  | case5 c cs hreturn hbreak line lines hlines ih =>
      rw [hlines] at ih
      exact ih.cons (Bool.eq_false_iff.mpr hbreak)

/-!
## Places in a document
-/

/-- The last column of a text up to a given one. -/
def RoundsDown (text : List Char) (column rounded : Nat) : Prop :=
  IsGreatest (fun other => IsColumn text other ∧ other ≤ column) rounded

theorem takeColumn_roundsDown (line : List Char) (column : Nat) :
    exists back, line = takeColumn line column ++ back ∧
      RoundsDown line column (unitLength (takeColumn line column)) := by
  fun_induction takeColumn line column with
  | case1 column =>
      refine ⟨[], rfl, ⟨isColumn_zero [], Nat.zero_le column⟩, ?_⟩
      rintro other ⟨hother, _⟩
      exact ((isColumn_nil_iff other).mp hother).le
  | case2 c cs column hless =>
      refine ⟨c :: cs, rfl, ⟨isColumn_zero (c :: cs), Nat.zero_le column⟩, ?_⟩
      rintro other ⟨hother, hle⟩
      rcases (isColumn_cons_iff c cs other).mp hother with hzero | ⟨rest, _, hrest⟩
      · exact hzero.le
      · omega
  | case3 c cs column hreached ih =>
      rcases ih with ⟨back, hcs, ⟨hcolumn, hle⟩, hgreatest⟩
      refine ⟨back, congrArg (c :: ·) hcs, ⟨?_, ?_⟩, ?_⟩
      · exact (isColumn_cons_iff c cs _).mpr (Or.inr ⟨_, hcolumn, rfl⟩)
      · show unitSize c + unitLength (takeColumn cs (column - unitSize c)) ≤ column
        omega
      · rintro other ⟨hother, hupto⟩
        rcases (isColumn_cons_iff c cs other).mp hother with rfl | ⟨rest, hrest, rfl⟩
        · exact Nat.zero_le _
        · exact Nat.add_le_add_left (hgreatest ⟨hrest, Nat.le_sub_of_add_le' hupto⟩) _

/-- The place of a line and column: on that line, in front of its line feed, at the last column up
to the given one. -/
def IsPlace (text : List Char) (line column offset : Nat) : Prop :=
  exists rows row others front back, BrokenInto text (rows ++ row :: others) ∧
    rows.length = line ∧ dropLineFeed row = front ++ back ∧
    byteLength (rows.flatten ++ front) = offset ∧
    RoundsDown (dropLineFeed row) column (unitLength front)

theorem documentOffset?_isPlace {text : List Char} {line : Nat}
    (h : line < (documentLines text).length) (column : Nat) :
    exists offset, documentOffset? text line column = some offset ∧
      IsPlace text line column offset := by
  have hlines : documentLines text = (documentLines text).take line ++
      (documentLines text)[line] :: (documentLines text).drop (line + 1) := by
    rw [← List.drop_eq_getElem_cons h, List.take_append_drop]
  have hlength : ((documentLines text).take line).length = line := List.length_take_of_le h.le
  have hbroken := brokenInto_documentLines text
  have hoffset := documentOffset?_line hlines column
  rw [hlines] at hbroken
  rw [hlength, ← byteLength_append] at hoffset
  rcases takeColumn_roundsDown (dropLineFeed (documentLines text)[line]) column with
    ⟨back, hback, hrounds⟩
  exact ⟨_, hoffset, _, _, _, _, back, hbroken, hlength, hback, rfl, hrounds⟩

-- The column between the two units of a character is rounded down.
example : documentOffset? ['a', '😀', 'b'] 0 2 = some 1 := by
  decide

theorem documentOffset?_none {text : List Char} {line : Nat}
    (h : (documentLines text).length ≤ line) (column : Nat) :
    documentOffset? text line column = none := by
  simp [documentOffset?, List.getElem?_eq_none h]

theorem exists_dropLineFeed_append (line : List Char) :
    exists feed, line = dropLineFeed line ++ feed := by
  unfold dropLineFeed
  split
  · rename_i hlast
    rcases List.getLast?_eq_some_iff.mp hlast with ⟨front, hfront⟩
    exact ⟨['\n'], by rw [hfront, List.dropLast_concat]⟩
  · exact ⟨[], (List.append_nil line).symm⟩

theorem IsPlace.isBoundary {text : List Char} {line column offset : Nat}
    (h : IsPlace text line column offset) : IsBoundary text offset := by
  rcases h with ⟨rows, row, others, front, back, hbroken, _, hrow, hoffset, _⟩
  rcases exists_dropLineFeed_append row with ⟨feed, hfeed⟩
  refine ⟨rows.flatten ++ front, back ++ feed ++ others.flatten, ?_, hoffset⟩
  rw [← hbroken.flatten, List.flatten_append, List.flatten_cons, hfeed, hrow]
  simp only [List.append_assoc]

/-!
## Edits
-/

theorem exists_between {text : List Char} {a b : Nat} (ha : IsBoundary text a)
    (hb : IsBoundary text b) (h : a ≤ b) :
    exists front middle back, text = front ++ middle ++ back ∧ byteLength front = a ∧
      byteLength (front ++ middle) = b := by
  rcases ha with ⟨front, afterFront, hfront, rfl⟩
  rcases hb with ⟨longer, back, hlonger, rfl⟩
  rcases List.append_eq_append_iff.mp (hfront.symm.trans hlonger) with
    ⟨middle, hmiddle, _⟩ | ⟨more, hmore, _⟩
  · exact ⟨front, middle, back, by rw [hlonger, hmiddle], rfl, by rw [hmiddle]⟩
  · -- Then the cuts are the same.
    have hnil : more = [] := by
      apply byteLength_eq_zero
      rw [hmore, byteLength_append] at h
      omega
    rw [hnil, List.append_nil] at hmore
    exact ⟨front, [], back, by rw [hlonger, hmore, List.append_nil], rfl,
      by rw [List.append_nil, hmore]⟩

namespace Overlay

/-- An edit that fails leaves all documents as they are. -/
def Refuses (o : Overlay) (p : Path) (change : Change) : Prop :=
  o.change? p change = none ∧ o.changeAll p [change] = o

/-- An edit that replaces what stands between two offsets of a document. -/
def Splices (o : Overlay) (p : Path) (change : Change) (text : String) (a b : Nat) : Prop :=
  exists front middle back, text.toList = front ++ middle ++ back ∧
    byteLength front = a ∧ byteLength (front ++ middle) = b ∧
    (o.change? p change).isSome = true ∧
    (o.changeAll p [change]).text? p =
      some (String.ofList (front ++ change.text.toList ++ back))

/-- What an edit of a stretch does to the documents. -/
structure EditsStretch (o : Overlay) (p : Path) (range : Range) (change : Change) : Prop where
  inside : forall text, o.text? p = some text ->
    range.startLine < (documentLines text.toList).length ->
    range.endLine < (documentLines text.toList).length ->
    exists a b, IsPlace text.toList range.startLine range.startColumn a ∧
      IsPlace text.toList range.endLine range.endColumn b ∧
      documentOffset? text.toList range.startLine range.startColumn = some a ∧
      documentOffset? text.toList range.endLine range.endColumn = some b ∧
      (a ≤ b -> o.Splices p change text a b) ∧ (b < a -> o.Refuses p change)
  outside : forall text, o.text? p = some text ->
    (documentLines text.toList).length ≤ range.startLine ∨
      (documentLines text.toList).length ≤ range.endLine -> o.Refuses p change
  closed : o.text? p = none -> o.Refuses p change
  others : forall q : Path, q.components ≠ p.components ->
    (o.changeAll p [change]).text? q = o.text? q

theorem changeAll_singleton (o : Overlay) (p : Path) (change : Change) :
    o.changeAll p [change] = (o.change? p change).getD o := by
  rw [changeAll]
  cases o.change? p change with
  | none => rfl
  | some next => rfl

theorem refuses_of_none {o : Overlay} {p : Path} {change : Change}
    (h : o.change? p change = none) : o.Refuses p change :=
  ⟨h, by rw [changeAll_singleton, h]; rfl⟩

section Ranges

variable {o : Overlay} {p : Path} {range : Range} {replacement text : String}
  (htext : o.text? p = some text)

include htext

theorem change?_range (range : Range) (replacement : String) :
    o.change? p { range := some range, text := replacement } =
      (splice? text.toList range replacement.toList).map
        fun edited => o.open_ p (String.ofList edited) := by
  simp only [change?, htext, Change.apply?, Option.bind_eq_bind, Option.bind_some]
  cases splice? text.toList range replacement.toList with
  | none => rfl
  | some edited => rfl

variable {a b : Nat}
  (ha : documentOffset? text.toList range.startLine range.startColumn = some a)
  (hb : documentOffset? text.toList range.endLine range.endColumn = some b)

include ha hb

theorem splices_range (hplaceA : IsBoundary text.toList a) (hplaceB : IsBoundary text.toList b)
    (h : a ≤ b) : o.Splices p { range := some range, text := replacement } text a b := by
  rcases exists_between hplaceA hplaceB h with ⟨front, middle, back, hparts, hfront, hmiddle⟩
  have hsplice : splice? text.toList range replacement.toList =
      some (front ++ replacement.toList ++ back) := by
    have htake : takeBytes a text.toList = front := by
      rw [hparts, ← hfront, List.append_assoc, takeBytes_append]
    have hdrop : dropBytes b text.toList = back := by
      rw [hparts, ← hmiddle, dropBytes_append]
    simp only [splice?, ha, hb, Option.bind_eq_bind, Option.bind_some, h, if_true, htake, hdrop]
    rfl
  have hchange := change?_range htext range replacement
  rw [hsplice, Option.map_some] at hchange
  refine ⟨front, middle, back, hparts, hfront, hmiddle, by rw [hchange]; rfl, ?_⟩
  rw [changeAll_singleton, hchange, Option.getD_some, text?_open, if_pos rfl]

theorem refuses_range (h : b < a) :
    o.Refuses p { range := some range, text := replacement } := by
  apply refuses_of_none
  rw [change?_range htext]
  simp [splice?, ha, hb, h]

end Ranges

/-- An edit of a stretch of a document succeeds exactly if the document is open, has both lines, and
the stretch does not end before it starts.  Then it replaces what stands between the places of its
ends, and no other document changes.  Otherwise nothing changes at all. -/
theorem change?_editsStretch (o : Overlay) (p : Path) (range : Range) (replacement : String) :
    o.EditsStretch p range { range := some range, text := replacement } := by
  constructor
  case inside =>
    intro text htext hstart hend
    rcases documentOffset?_isPlace hstart range.startColumn with ⟨a, ha, hplaceA⟩
    rcases documentOffset?_isPlace hend range.endColumn with ⟨b, hb, hplaceB⟩
    exact ⟨a, b, hplaceA, hplaceB, ha, hb,
      splices_range htext ha hb hplaceA.isBoundary hplaceB.isBoundary, refuses_range htext ha hb⟩
  case outside =>
    intro text htext hlines
    apply refuses_of_none
    rw [change?_range htext]
    rcases hlines with hstart | hend
    · simp [splice?, documentOffset?_none hstart]
    · simp [splice?, documentOffset?_none hend]
  case closed =>
    intro htext
    exact refuses_of_none (by simp [change?, htext])
  case others =>
    intro q hq
    exact text?_changeAll hq _ o

end Overlay
end ElmNavigator
