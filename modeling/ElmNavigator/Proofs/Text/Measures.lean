import ElmNavigator.Text.Lines
import ElmNavigator.Text.Utf8

/-!
# Byte offsets of a text

Offsets are lengths of beginnings of a text.  A text that is cut in two is
therefore measured by adding, and every view of it by offsets (bytes, lines and
columns) can be computed from the two halves.
-/

namespace ElmNavigator
namespace Text

/-!
## Lengths
-/

@[simp] theorem byteLength_nil : byteLength [] = 0 := rfl

@[simp] theorem byteLength_cons (c : Char) (cs : List Char) :
    byteLength (c :: cs) = c.utf8Size + byteLength cs := rfl

@[simp] theorem byteLength_append (a b : List Char) :
    byteLength (a ++ b) = byteLength a + byteLength b := by
  induction a with
  | nil =>
      simp
  | cons c cs ih =>
      simp [ih, Nat.add_assoc]

theorem byteLength_eq_zero {cs : List Char} (h : byteLength cs = 0) :
    cs = [] := by
  cases cs with
  | nil => rfl
  | cons c cs =>
      have hpos := c.utf8Size_pos
      simp only [byteLength_cons] at h
      omega

theorem byteLength_pos {cs : List Char} (h : cs ≠ []) : 0 < byteLength cs := by
  rcases Nat.eq_zero_or_pos (byteLength cs) with hzero | hpos
  · exact absurd (byteLength_eq_zero hzero) h
  · exact hpos

@[simp] theorem utf8_append (a b : List Char) :
    utf8 (a ++ b) = utf8 a ++ utf8 b := by
  simp [utf8]

@[simp] theorem length_utf8 (cs : List Char) :
    (utf8 cs).length = byteLength cs := by
  induction cs with
  | nil => rfl
  | cons c cs ih =>
      have hcons : utf8 (c :: cs) = String.utf8EncodeChar c ++ utf8 cs := rfl
      rw [hcons, List.length_append, ih, String.length_utf8EncodeChar]
      rfl

/-!
## Cutting at an offset
-/

@[simp] theorem dropBytes_zero (cs : List Char) : dropBytes 0 cs = cs := by
  cases cs <;> simp [dropBytes]

theorem dropBytes_append (a b : List Char) :
    dropBytes (byteLength a) (a ++ b) = b := by
  induction a with
  | nil =>
      simp
  | cons c cs ih =>
      have hpos := c.utf8Size_pos
      have hne : c.utf8Size + byteLength cs ≠ 0 := by omega
      simp only [List.cons_append, dropBytes, byteLength_cons, hne, if_false,
        Nat.add_sub_cancel_left]
      exact ih

theorem takeBytes_append (a b : List Char) : takeBytes (byteLength a) (a ++ b) = a := by
  induction a with
  | nil =>
      cases b with
      | nil => rfl
      | cons c cs => rfl
  | cons c cs ih =>
      have hpos := c.utf8Size_pos
      have hne : c.utf8Size + byteLength cs ≠ 0 := by omega
      simp only [List.cons_append, takeBytes, byteLength_cons, hne, if_false,
        Nat.add_sub_cancel_left, ih]

theorem extract_append (before text after : List Char) :
    extract (before ++ text ++ after) (byteLength before) (byteLength (before ++ text)) =
      text := by
  unfold extract
  rw [List.append_assoc, dropBytes_append, byteLength_append, Nat.add_sub_cancel_left,
    takeBytes_append]

theorem exists_between {a b c d : List Char} (h : a ++ b = c ++ d)
    (hle : byteLength a ≤ byteLength c) : exists between, c = a ++ between ∧ b = between ++ d := by
  rcases List.append_eq_append_iff.mp h with hfront | ⟨more, ha, hd⟩
  · exact hfront
  · rw [ha, byteLength_append] at hle
    have hmore : more = [] := byteLength_eq_zero (by omega)
    subst hmore
    exact ⟨[], by simp [ha], by simp [hd]⟩

theorem append_inj_of_byteLength {a b c d : List Char} (h : a ++ b = c ++ d)
    (hlength : byteLength a = byteLength c) : a = c ∧ b = d := by
  rcases exists_between h (Nat.le_of_eq hlength) with ⟨between, hc, hb⟩
  rw [hc, byteLength_append] at hlength
  have hnil : between = [] := byteLength_eq_zero (by omega)
  subst hnil
  exact ⟨by simp [hc], hb⟩

/-- Offsets between two characters, at the start or at the end of a text. -/
def IsBoundary (source : List Char) (offset : Nat) : Prop :=
  exists before after, source = before ++ after ∧ byteLength before = offset

theorem utf8_between (before text after : List Char) :
    ((utf8 (before ++ text ++ after)).drop (byteLength before)).take
        (byteLength (before ++ text) - byteLength before) =
      utf8 text := by
  have hlength : byteLength (before ++ text) - byteLength before =
      (utf8 text).length := by
    simp
  rw [hlength, utf8_append, utf8_append, List.append_assoc,
    ← length_utf8 before, List.drop_left, List.take_left]

/-!
## Lines and columns
-/

/-- Line and column behind a text, from those in front of it. -/
def advanceAll (cs : List Char) (line column : Nat) : Nat × Nat :=
  cs.foldl (fun at_ c => advance c at_.1 at_.2) (line, column)

theorem lineColFrom_zero (cs : List Char) (line column : Nat) :
    lineColFrom cs 0 line column = (line, column) := by
  cases cs with
  | nil => rfl
  | cons c cs =>
      have hpos := c.utf8Size_pos
      simp [lineColFrom, hpos]

theorem lineColFrom_append (a b : List Char) (line column : Nat) :
    lineColFrom (a ++ b) (byteLength a) line column =
      advanceAll a line column := by
  induction a generalizing line column with
  | nil =>
      exact lineColFrom_zero b line column
  | cons c cs ih =>
      have hle : ¬ c.utf8Size + byteLength cs < c.utf8Size := by omega
      simp only [List.cons_append, lineColFrom, byteLength_cons, hle,
        if_false, Nat.add_sub_cancel_left]
      rw [ih]
      rfl

theorem advanceAll_append (a b : List Char) (line column : Nat) :
    advanceAll (a ++ b) line column =
      advanceAll b (advanceAll a line column).1
        (advanceAll a line column).2 := by
  simp [advanceAll, List.foldl_append]

theorem advanceAll_line {cs : List Char} (h : '\n' ∉ cs) (line column : Nat) :
    (advanceAll cs line column).1 = line := by
  induction cs generalizing line column with
  | nil => rfl
  | cons c cs ih =>
      have hc : c ≠ '\n' := fun heq => h (heq ▸ List.mem_cons_self)
      have hcs : '\n' ∉ cs := fun hmem => h (List.mem_cons_of_mem c hmem)
      have hstep : advanceAll (c :: cs) line column =
          advanceAll cs line (column + unitSize c) := by
        simp [advanceAll, advance, hc]
      rw [hstep]
      exact ih hcs line (column + unitSize c)

theorem lineCol_line_append (before : List Char) {text : List Char}
    (after : List Char) (h : '\n' ∉ text) :
    (lineCol (before ++ text ++ after) (byteLength before)).1 =
      (lineCol (before ++ text ++ after) (byteLength (before ++ text))).1 := by
  have hstart : lineCol (before ++ text ++ after) (byteLength before) =
      advanceAll before 0 0 := by
    rw [List.append_assoc]
    exact lineColFrom_append before (text ++ after) 0 0
  have hstop : lineCol (before ++ text ++ after) (byteLength (before ++ text)) =
      advanceAll (before ++ text) 0 0 :=
    lineColFrom_append (before ++ text) after 0 0
  rw [hstart, hstop, advanceAll_append, advanceAll_line h]

end Text
end ElmNavigator
