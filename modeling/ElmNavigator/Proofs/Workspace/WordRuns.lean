import ElmNavigator.Proofs.Syntax.MaskGeometry
import ElmNavigator.Proofs.Syntax.NestedComments
import ElmNavigator.Proofs.Syntax.RepeatedMasking
import ElmNavigator.Proofs.Text.ClampedPositions
import ElmNavigator.Proofs.Text.Utf8Decoding
import ElmNavigator.Workspace.Word

/-!
# Words and the runs they are cut from

The word at a position depends on one run of word characters only, the longest one
on the line that the cursor stands in or touches.  The two searches from the cursor
meet in this run whatever their start, and a run that the mask leaves alone lies in
code from end to end.
-/

namespace ElmNavigator

open Text Syntax

/-!
## Trimmed texts
-/

namespace Text

/-- A text without the characters of a class at its ends. -/
def Trims (p : Char -> Bool) (text trimmed : List Char) : Prop :=
  exists lead trail, text = lead ++ trimmed ++ trail ∧
    (forall c, c ∈ lead ++ trail -> p c = true) ∧
    (forall c, trimmed.head? = some c -> p c = false) ∧
    (forall c, trimmed.getLast? = some c -> p c = false)

theorem trim_trims (p : Char -> Bool) (text : List Char) : Trims p text (trim p text) := by
  rcases trimEnd_append p (text.dropWhile p) with ⟨trail, htrail, hclass⟩
  refine ⟨text.takeWhile p, trail, ?_, ?_, ?_, fun c => last_of_trimEnd⟩
  · rw [List.append_assoc]
    show text = text.takeWhile p ++ (trimEnd p (text.dropWhile p) ++ trail)
    rw [← htrail, List.takeWhile_append_dropWhile]
  · intro c hc
    rcases List.mem_append.mp hc with hlead | hend
    · exact List.mem_takeWhile_imp hlead
    · exact hclass c hend
  · intro c hc
    rcases List.head?_eq_some_iff.mp hc with ⟨rest, hrest⟩
    have hfirst := List.head?_dropWhile_not p text
    rw [htrail, show trimEnd p (text.dropWhile p) = c :: rest from hrest] at hfirst
    exact hfirst

theorem trimEnd_eq_nil {p : Char -> Bool} {cs : List Char} (h : forall c, c ∈ cs -> p c = true) :
    trimEnd p cs = [] := by
  induction cs with
  | nil => rfl
  | cons c cs ih =>
      rw [trimEnd_cons, ih fun d hd => h d (List.mem_cons_of_mem c hd)]
      exact if_pos ⟨rfl, h c List.mem_cons_self⟩

theorem trim_eq_iff {p : Char -> Bool} {text trimmed : List Char} :
    trim p text = trimmed ↔ Trims p text trimmed := by
  constructor
  · rintro rfl
    exact trim_trims p text
  · rintro ⟨lead, trail, htext, hclass, hhead, hlast⟩
    have hlead : forall c, c ∈ lead -> p c = true :=
      fun c hc => hclass c (List.mem_append_left trail hc)
    have htrail : trimEnd p trail = [] :=
      trimEnd_eq_nil fun c hc => hclass c (List.mem_append_right lead hc)
    unfold trim
    rw [htext, List.append_assoc, List.dropWhile_append_of_pos hlead]
    rcases List.eq_nil_or_concat trimmed with hnil | ⟨front, d, hd⟩
    · have hall : forall c, c ∈ trail -> p c = true :=
        fun c hc => hclass c (List.mem_append_right lead hc)
      rw [hnil, List.nil_append, List.dropWhile_eq_nil_iff.mpr hall]
      rfl
    · have hfirst : (trimmed ++ trail).dropWhile p = trimmed ++ trail := by
        cases trimmed with
        | nil => simp at hd
        | cons c cs => exact List.dropWhile_cons_of_neg (by simp [hhead c rfl])
      rw [List.concat_eq_append] at hd
      have hlast : p d = false := hlast d (by rw [hd, List.getLast?_concat])
      rw [hfirst, hd, List.append_assoc]
      exact (trimEnd_append_cons hlast front trail).trans (by rw [htrail])

end Text

/-!
## Runs on a line
-/

/-- A longest run of word characters on a line, and what stands around it on the line. -/
structure LineRun (source : List Char) (line : Nat) (front run back : List Char) : Prop where
  text : lineText? source line = some (front ++ run ++ back)
  word : forall c, c ∈ run -> isWordChar c = true
  before : forall c, front.getLast? = some c -> isWordChar c = false
  after : forall c, back.head? = some c -> isWordChar c = false

/-- A cursor stands in a run of its line or touches it. -/
def Touches (source : List Char) (line column : Nat) (front run : List Char) : Prop :=
  exists cursor, offset? source line column = some cursor ∧
    lineStart source line + byteLength front ≤ cursor ∧
    cursor ≤ lineStart source line + byteLength (front ++ run)

theorem takeWhile_eq_nil {p : Char -> Bool} {cs : List Char}
    (h : forall c, cs.head? = some c -> p c = false) : cs.takeWhile p = [] := by
  cases cs with
  | nil => rfl
  | cons c cs => exact List.takeWhile_cons_of_neg (by simp [h c rfl])

theorem byteLength_reverse (cs : List Char) : byteLength cs.reverse = byteLength cs := by
  induction cs with
  | nil => rfl
  | cons c cs ih => simp [ih, Nat.add_comm]

theorem runBefore_append {front inside : List Char}
    (hinside : forall c, c ∈ inside -> isWordChar c = true)
    (hfront : forall c, front.getLast? = some c -> isWordChar c = false) :
    runBefore (front ++ inside) = byteLength inside := by
  have hword : forall c, c ∈ inside.reverse -> isWordChar c = true :=
    fun c hc => hinside c (List.mem_reverse.mp hc)
  unfold runBefore
  rw [List.reverse_append, List.takeWhile_append_of_pos hword, takeWhile_eq_nil, List.append_nil,
    byteLength_reverse]
  intro c hc
  exact hfront c (by rwa [← List.head?_reverse])

theorem runAfter_append {rest back : List Char}
    (hrest : forall c, c ∈ rest -> isWordChar c = true)
    (hback : forall c, back.head? = some c -> isWordChar c = false) :
    runAfter (rest ++ back) = byteLength rest := by
  unfold runAfter
  rw [List.takeWhile_append_of_pos hrest, takeWhile_eq_nil hback, List.append_nil]

theorem exists_lineRun {source left right : List Char} {line : Nat}
    (htext : lineText? source line = some (left ++ right)) :
    exists front inside rest back, left = front ++ inside ∧ right = rest ++ back ∧
      LineRun source line front (inside ++ rest) back := by
  have hleft : left = (left.reverse.dropWhile isWordChar).reverse ++
      (left.reverse.takeWhile isWordChar).reverse := by
    rw [← List.reverse_append, List.takeWhile_append_dropWhile, List.reverse_reverse]
  have hright : right = right.takeWhile isWordChar ++ right.dropWhile isWordChar :=
    List.takeWhile_append_dropWhile.symm
  refine ⟨_, _, _, _, hleft, hright, ?_⟩
  constructor
  case text =>
    rw [htext, List.append_assoc, List.append_assoc, ← hright, ← List.append_assoc, ← hleft]
  case word =>
    intro c hc
    rcases List.mem_append.mp hc with hinside | hrest
    · exact List.mem_takeWhile_imp (List.mem_reverse.mp hinside)
    · exact List.mem_takeWhile_imp hrest
  case before =>
    intro c hc
    rw [List.getLast?_reverse] at hc
    have hfirst := List.head?_dropWhile_not isWordChar left.reverse
    rw [hc] at hfirst
    exact hfirst
  case after =>
    intro c hc
    have hfirst := List.head?_dropWhile_not isWordChar right
    rw [hc] at hfirst
    exact hfirst

theorem exists_run_at_column {source content : List Char} {line : Nat}
    (hcontent : lineText? source line = some content) (column : Nat) :
    exists front inside rest back, content = front ++ (inside ++ rest) ++ back ∧
      bytesToColumn content column = byteLength (front ++ inside) ∧
      LineRun source line front (inside ++ rest) back := by
  rcases bytesToColumn_roundsUp content column with ⟨left, right, hcut, hbytes, _⟩
  rw [hcut] at hcontent
  rcases exists_lineRun hcontent with ⟨front, inside, rest, back, hleft, hright, hrun⟩
  refine ⟨front, inside, rest, back, ?_, by rw [hbytes, hleft], hrun⟩
  rw [hcut, hleft, hright]
  simp

theorem exists_cut {front run back left right : List Char}
    (hcut : front ++ run ++ back = left ++ right) (hstart : byteLength front ≤ byteLength left)
    (hstop : byteLength left ≤ byteLength (front ++ run)) :
    exists inside rest, run = inside ++ rest ∧ left = front ++ inside ∧ right = rest ++ back := by
  rcases exists_between hcut.symm hstop with ⟨rest, hrun, hright⟩
  rw [List.append_assoc] at hcut
  rcases exists_between hcut hstart with ⟨inside, hleft, _⟩
  refine ⟨inside, rest, ?_, hleft, hright⟩
  rw [hleft, List.append_assoc] at hrun
  exact List.append_cancel_left hrun

theorem exists_place_of_lineText? {source text : List Char} {line : Nat}
    (h : lineText? source line = some text) :
    exists before after, source = before ++ (text ++ after) ∧
      lineStart source line = byteLength before := by
  have hline : line < (lines source).length := by
    rcases Option.map_eq_some_iff.mp h with ⟨row, hrow, _⟩
    exact (List.getElem?_eq_some_iff.mp hrow).choose
  rcases exists_line hline with ⟨rows, row, rest, hsource, hlength, hrows, hrow, hrest⟩
  subst hsource hlength
  have htext := lineText?_wholeLines hrows hrow rest
  rw [hrest, List.append_nil, h] at htext
  rcases exists_returns row with ⟨returns, hreturns⟩
  refine ⟨wholeLines rows, returns ++ rest, ?_, lineStart_wholeLines hrows _⟩
  rw [Option.some.inj htext, ← List.append_assoc (stripReturns row), ← hreturns]

section Run

variable {source front run back : List Char} {line : Nat}

theorem LineRun.exists_place (h : LineRun source line front run back) :
    exists before after, source = before ++ (run ++ after) ∧
      byteLength before = lineStart source line + byteLength front ∧
      byteLength (before ++ run) = lineStart source line + byteLength (front ++ run) := by
  rcases exists_place_of_lineText? h.text with ⟨before, after, hsource, hstart⟩
  refine ⟨before ++ front, back ++ after, ?_, ?_, ?_⟩
  · rw [hsource]
    simp
  · rw [hstart, byteLength_append]
  · rw [hstart, List.append_assoc, byteLength_append]

theorem Touches.exists_cut {column : Nat} (h : Touches source line column front run)
    (hrun : LineRun source line front run back) :
    exists inside rest, run = inside ++ rest ∧
      bytesToColumn (front ++ run ++ back) column = byteLength (front ++ inside) := by
  rcases h with ⟨cursor, hcursor, hstart, hstop⟩
  rcases bytesToColumn_roundsUp (front ++ run ++ back) column with ⟨left, right, hcut, hbytes, _⟩
  unfold offset? at hcursor
  rw [hrun.text, Option.map_some, hbytes] at hcursor
  rw [← Option.some.inj hcursor] at hstart hstop
  rcases ElmNavigator.exists_cut hcut (Nat.le_of_add_le_add_left hstart)
    (Nat.le_of_add_le_add_left hstop) with ⟨inside, rest, hparts, hleft, _⟩
  exact ⟨inside, rest, hparts, hbytes.trans (by rw [hleft])⟩

end Run

/-!
## The mask of a run
-/

/-- Two texts have the same bytes between two offsets. -/
def SameBytes (source other : List Char) (start stop : Nat) : Prop :=
  ((utf8 other).drop start).take (stop - start) = ((utf8 source).drop start).take (stop - start)

theorem utf8_injective : Function.Injective utf8 := by
  intro a b h
  rw [← decodeLossy_utf8 a, h, decodeLossy_utf8]

theorem exists_masked (before run after : List Char) :
    exists front stretch back, mask (before ++ (run ++ after)) = front ++ stretch ++ back ∧
      byteLength front = byteLength before ∧ byteLength stretch = byteLength run := by
  rcases (mask_maskOf (before ++ (run ++ after))).cut with ⟨front, others, hmask, hfront, hothers⟩
  rcases hothers.cut with ⟨stretch, back, hsplit, hstretch, _⟩
  refine ⟨front, stretch, back, ?_, byteLength_of_maskOf hfront, byteLength_of_maskOf hstretch⟩
  rw [hmask, hsplit, List.append_assoc]

/-- The mask has the same bytes as the source at a piece exactly if it has the same characters. -/
theorem extract_mask_eq_iff (before run after : List Char) :
    extract (mask (before ++ (run ++ after))) (byteLength before) (byteLength (before ++ run)) =
        run ↔
      SameBytes (before ++ (run ++ after)) (mask (before ++ (run ++ after))) (byteLength before)
        (byteLength (before ++ run)) := by
  rcases exists_masked before run after with ⟨front, stretch, back, hmask, hfront, hstretch⟩
  have hstop : byteLength (before ++ run) = byteLength (front ++ stretch) := by
    rw [byteLength_append, byteLength_append, hfront, hstretch]
  have hsource := utf8_between before run after
  have hmasked := utf8_between front stretch back
  rw [List.append_assoc] at hsource
  unfold SameBytes
  rw [hsource, hmask, hstop, ← hfront, hmasked, extract_append, utf8_injective.eq_iff]

/-!
## Runs in code
-/

theorem isBlank_of_isWordChar {c : Char} (h : isWordChar c = true) : isBlank c = false := by
  rcases Bool.or_eq_true_iff.mp h with hident | hdot
  · exact isBlank_of_isIdentChar hident
  · rw [eq_of_beq hdot]
    decide

theorem kept_of_maskFrom {s : Scanner} {c : Char} {cs masked : List Char}
    (hc : isBlank c = false) (h : maskFrom s (c :: cs) = c :: masked) :
    (s.step c cs).2 = true ∧ maskFrom (s.step c cs).1 cs = masked := by
  rw [maskFrom_cons] at h
  cases hkept : (s.step c cs).2 with
  | true =>
      rw [hkept] at h
      exact ⟨rfl, (List.cons.inj h).right⟩
  | false =>
      rw [hkept] at h
      have hhead : (blank c ++ maskFrom (s.step c cs).1 cs).head? = some c := by
        simpa using congrArg List.head? h
      rw [List.head?_append_of_ne_nil _ (blank_ne_nil c)] at hhead
      have hblank := isBlank_of_mem_blank (List.mem_of_mem_head? hhead)
      rw [hc] at hblank
      cases hblank

namespace Syntax.Scanner

theorem atCode_of_kept {s : Scanner} {c : Char} {ahead : List Char}
    (h : (s.step c ahead).2 = true) : s.AtCode ∧ (s.step c ahead).1.AtCode := by
  by_cases hcode : s.AtCode
  · refine ⟨hcode, ?_⟩
    rw [step_of_atCode hcode] at h ⊢
    rcases stepCode_cases s c ahead with ⟨hstep, _⟩ | ⟨region, pending, hstep, _, _⟩
    · rw [hstep]
      exact hcode
    · rw [hstep] at h
      cases h
  · rw [(step_outside hcode c ahead).left] at h
    cases h

theorem atCode_of_shown {run : List Char} (hrun : forall c, c ∈ run -> isBlank c = false)
    {s : Scanner} (hs : s.AtCode) {after masked : List Char}
    (h : maskFrom s (run ++ after) = run ++ masked) {part more : List Char}
    (hparts : run = part ++ more) : (s.reach part (more ++ after)).AtCode := by
  induction part generalizing s run with
  | nil => exact hs
  | cons c part ih =>
      subst hparts
      rcases kept_of_maskFrom (hrun c List.mem_cons_self) h with ⟨hkept, hrest⟩
      rw [reach, ← List.append_assoc]
      have hothers : forall d, d ∈ part ++ more -> isBlank d = false :=
        fun d hd => hrun d (List.mem_cons_of_mem c hd)
      exact ih hothers (atCode_of_kept hkept).right hrest rfl

end Syntax.Scanner

theorem takeBytes_prefix (n : Nat) (cs : List Char) : exists more, cs = takeBytes n cs ++ more := by
  fun_induction takeBytes n cs with
  | case1 n => exact ⟨[], rfl⟩
  | case2 c cs => exact ⟨c :: cs, rfl⟩
  | case3 n c cs hn ih =>
      rcases ih with ⟨more, hmore⟩
      exact ⟨more, congrArg (c :: ·) hmore⟩

theorem head?_ne_mark {run part more : List Char} (hrun : forall c, c ∈ run -> isWordChar c = true)
    (hparts : run = part ++ more) : part.head? ≠ some byteOrderMark := by
  intro hhead
  have hmark := hrun byteOrderMark (by
    rw [hparts]
    exact List.mem_append_left more (List.mem_of_mem_head? hhead))
  revert hmark
  decide +kernel

theorem atCode_of_extract {before run after : List Char} (hne : run ≠ [])
    (hrun : forall c, c ∈ run -> isWordChar c = true)
    (h : extract (mask (before ++ (run ++ after))) (byteLength before)
      (byteLength (before ++ run)) = run) {part more : List Char} (hparts : run = part ++ more) :
    (scanTo (before ++ part) (more ++ after)).AtCode := by
  have hblank : forall c, c ∈ run -> isBlank c = false :=
    fun c hc => isBlank_of_isWordChar (hrun c hc)
  have hhead : (run ++ after).head? ≠ some byteOrderMark := by
    rw [List.head?_append_of_ne_nil _ hne]
    exact head?_ne_mark hrun (List.append_nil run).symm
  rcases mask_cut fun _ : before = [] => hhead with ⟨masked, hlength, hmask⟩
  rw [hmask, ← hlength] at h
  unfold extract at h
  rw [dropBytes_append] at h
  rcases takeBytes_prefix (byteLength (before ++ run) - byteLength masked)
    (maskFrom (scanTo before (run ++ after)) (run ++ after)) with ⟨rest, hrest⟩
  rw [h] at hrest
  have hcode : (scanTo before (run ++ after)).AtCode := by
    cases run with
    | nil => exact absurd rfl hne
    | cons c cs =>
        have hkept := (kept_of_maskFrom (hblank c List.mem_cons_self) hrest).left
        exact (Scanner.atCode_of_kept hkept).left
  rw [scanTo_append (head?_ne_mark hrun hparts), ← List.append_assoc, ← hparts]
  exact Scanner.atCode_of_shown hblank hcode hrest hparts

/-!
## The word at a position
-/

section Answer

variable {source front run back : List Char} {line column : Nat}

theorem LineRun.searches (h : LineRun source line front run back) {inside rest : List Char}
    (hparts : run = inside ++ rest) :
    runBefore (takeBytes (byteLength (front ++ inside)) (front ++ run ++ back)) =
        byteLength inside ∧
      runAfter (dropBytes (byteLength (front ++ inside)) (front ++ run ++ back)) =
        byteLength rest := by
  have hword := h.word
  rw [hparts] at hword
  have hcut : front ++ run ++ back = (front ++ inside) ++ (rest ++ back) := by
    rw [hparts]
    simp
  rw [hcut, takeBytes_append, dropBytes_append]
  constructor
  · exact runBefore_append (fun c hc => hword c (List.mem_append_left rest hc)) h.before
  · exact runAfter_append (fun c hc => hword c (List.mem_append_right inside hc)) h.after

/-- What is cut out for a cursor lies in the line, in the source and in the mask, between whole
characters. -/
structure CutsInRange (source content : List Char) (start cursor : Nat) : Prop where
  cursorCut : IsBoundary content cursor
  backward : runBefore (takeBytes cursor content) ≤ cursor
  lineCuts : IsBoundary content (cursor - runBefore (takeBytes cursor content)) ∧
    IsBoundary content (cursor + runAfter (dropBytes cursor content))
  sourceCuts : forall text, text = source ∨ text = mask source ->
    IsBoundary text (start + cursor - runBefore (takeBytes cursor content)) ∧
      IsBoundary text (start + cursor + runAfter (dropBytes cursor content))

theorem LineRun.cutsInRange (h : LineRun source line front run back) {inside rest : List Char}
    (hparts : run = inside ++ rest) :
    CutsInRange source (front ++ run ++ back) (lineStart source line)
      (byteLength (front ++ inside)) := by
  rcases h.searches hparts with ⟨hbefore, hafter⟩
  rcases h.exists_place with ⟨before, after, hsource, hstart, hstop⟩
  have hfirst : lineStart source line + byteLength (front ++ inside) - byteLength inside =
      byteLength before := by
    rw [hstart, byteLength_append]
    omega
  have hlast : lineStart source line + byteLength (front ++ inside) + byteLength rest =
      byteLength (before ++ run) := by
    rw [hstop, hparts]
    simp only [byteLength_append]
    omega
  have hfirstCut : IsBoundary source (byteLength before) := ⟨before, run ++ after, hsource, rfl⟩
  have hlastCut : IsBoundary source (byteLength (before ++ run)) :=
    ⟨before ++ run, after, by rw [hsource, List.append_assoc], rfl⟩
  constructor
  case cursorCut =>
    exact ⟨front ++ inside, rest ++ back, by rw [hparts]; simp, rfl⟩
  case backward =>
    rw [hbefore, byteLength_append]
    exact Nat.le_add_left _ _
  case lineCuts =>
    rw [hbefore, hafter]
    refine ⟨⟨front, run ++ back, by simp, ?_⟩, ⟨front ++ run, back, rfl, ?_⟩⟩
    · rw [byteLength_append, Nat.add_sub_cancel]
    · rw [hparts]
      simp only [byteLength_append]
      omega
  case sourceCuts =>
    rw [hbefore, hafter, hfirst, hlast]
    rintro text (rfl | rfl)
    · exact ⟨hfirstCut, hlastCut⟩
    · exact ⟨(mask_maskOf source).isBoundary hfirstCut, (mask_maskOf source).isBoundary hlastCut⟩

end Answer

section Text

variable {text : String} {front run back : List Char} {line column : Nat}

theorem wordAt?_of_run (hrun : LineRun text.toList line front run back)
    (htouch : Touches text.toList line column front run) :
    wordAt? text line column =
      if extract (mask text.toList) (lineStart text.toList line + byteLength front)
          (lineStart text.toList line + byteLength (front ++ run)) ≠ run then none
      else if (trim (· == '.') run).isEmpty || isNumber (trim (· == '.') run) then none
      else some (String.ofList (trim (· == '.') run)) := by
  rcases htouch.exists_cut hrun with ⟨inside, rest, hparts, hcursor⟩
  rcases hrun.searches hparts with ⟨hbefore, hafter⟩
  rcases hrun.exists_place with ⟨before, after, hsource, hstart, hstop⟩
  have hfirst : lineStart text.toList line + byteLength (front ++ inside) - byteLength inside =
      lineStart text.toList line + byteLength front := by
    rw [byteLength_append]
    omega
  have hlast : lineStart text.toList line + byteLength (front ++ inside) + byteLength rest =
      lineStart text.toList line + byteLength (front ++ run) := by
    rw [hparts]
    simp only [byteLength_append]
    omega
  have hextract : extract text.toList (lineStart text.toList line + byteLength front)
      (lineStart text.toList line + byteLength (front ++ run)) = run := by
    rw [← hstart, ← hstop, hsource, ← List.append_assoc, extract_append]
  unfold wordAt?
  simp only [hrun.text, hcursor, hbefore, hafter, hfirst, hlast, hextract, bind, Option.bind, pure]

/-- The word at a cursor is the run that it touches, if the mask leaves the run alone, without the
dots at its ends, if something is left that is no number. -/
theorem wordAt?_eq_some_iff (hrun : LineRun text.toList line front run back)
    (htouch : Touches text.toList line column front run) (word : String) :
    wordAt? text line column = some word ↔
      SameBytes text.toList (mask text.toList) (lineStart text.toList line + byteLength front)
          (lineStart text.toList line + byteLength (front ++ run)) ∧
        Trims (· == '.') run word.toList ∧ word ≠ "" ∧
        ¬ forall c, c ∈ word.toList -> c.isDigit = true ∨ c = '.' := by
  rcases hrun.exists_place with ⟨before, after, hsource, hstart, hstop⟩
  have hsame := extract_mask_eq_iff before run after
  rw [← hsource, hstart, hstop] at hsame
  rw [wordAt?_of_run hrun htouch, ← hsame, ← trim_eq_iff]
  have hnumber (word : List Char) : isNumber word = true ↔
      forall c, c ∈ word -> c.isDigit = true ∨ c = '.' := by
    simp [isNumber]
  have hempty : word ≠ "" ↔ word.toList ≠ [] := by
    simp
  rw [hempty, ← hnumber]
  by_cases hkept : extract (mask text.toList) (lineStart text.toList line + byteLength front)
      (lineStart text.toList line + byteLength (front ++ run)) = run
  · simp only [hkept, ne_eq, not_true_eq_false, if_false, true_and]
    constructor
    · intro h
      split at h
      · cases h
      · rename_i hword
        rw [← Option.some.inj h, String.toList_ofList]
        simpa using hword
    · rintro ⟨htrim, hne, hnot⟩
      rw [htrim, if_neg (by simp [hne, hnot]), String.ofList_toList]
  · rw [if_pos hkept]
    exact iff_of_false (by simp) fun h => hkept h.left

theorem atCode_of_wordAt? (hrun : LineRun text.toList line front run back)
    (htouch : Touches text.toList line column front run) {word : String}
    (hword : wordAt? text line column = some word) :
    exists before after, text.toList = before ++ (run ++ after) ∧
      byteLength before = lineStart text.toList line + byteLength front ∧
      forall part more, run = part ++ more ->
        (scanTo (before ++ part) (more ++ after)).AtCode := by
  rcases hrun.exists_place with ⟨before, after, hsource, hstart, hstop⟩
  rcases (wordAt?_eq_some_iff hrun htouch word).mp hword with ⟨hsame, htrims, hne, _⟩
  have hrunNe : run ≠ [] := by
    rintro rfl
    rcases htrims with ⟨lead, trail, hparts, _⟩
    simp [hne] at hparts
  have hshown := (extract_mask_eq_iff before run after).mpr (by
    rw [← hsource, hstart, hstop]
    exact hsame)
  refine ⟨before, after, hsource, hstart, ?_⟩
  intro part more hparts
  exact atCode_of_extract hrunNe hrun.word hshown hparts

end Text

theorem exists_touched_run {source : List Char} {line : Nat}
    (hline : line < (lines source).length) (column : Nat) :
    exists front run back, LineRun source line front run back ∧
      Touches source line column front run := by
  have hcontent : lineText? source line = some (stripReturns (lines source)[line]) := by
    unfold lineText?
    rw [List.getElem?_eq_getElem hline, Option.map_some]
  rcases exists_run_at_column hcontent column with
    ⟨front, inside, rest, back, _, hbytes, hrun⟩
  refine ⟨front, inside ++ rest, back, hrun, ?_⟩
  refine ⟨lineStart source line + byteLength (front ++ inside), ?_, ?_, ?_⟩
  · unfold offset?
    rw [hcontent, Option.map_some, hbytes]
  · rw [byteLength_append]
    omega
  · rw [← List.append_assoc, byteLength_append (front ++ inside)]
    omega

theorem LineRun.unique {source front run back front' run' back' : List Char} {line column : Nat}
    (h : LineRun source line front run back) (htouch : Touches source line column front run)
    (h' : LineRun source line front' run' back')
    (htouch' : Touches source line column front' run') :
    front = front' ∧ run = run' ∧ back = back' := by
  have htext : front ++ run ++ back = front' ++ run' ++ back' :=
    Option.some.inj (h.text.symm.trans h'.text)
  rcases htouch.exists_cut h with ⟨inside, rest, hparts, hcursor⟩
  rcases htouch'.exists_cut h' with ⟨inside', rest', hparts', hcursor'⟩
  have hlength : byteLength (front ++ inside) = byteLength (front' ++ inside') := by
    rw [← hcursor, ← hcursor', htext]
  rcases h.searches hparts with ⟨hbefore, hafter⟩
  rcases h'.searches hparts' with ⟨hbefore', hafter'⟩
  rw [htext, hlength] at hbefore hafter
  have hinside : byteLength inside = byteLength inside' := hbefore.symm.trans hbefore'
  have hrest : byteLength rest = byteLength rest' := hafter.symm.trans hafter'
  have hfront : byteLength front = byteLength front' := by
    simp only [byteLength_append] at hlength
    omega
  rw [List.append_assoc, List.append_assoc] at htext
  rcases append_inj_of_byteLength htext hfront with ⟨hsameFront, hbehind⟩
  rcases append_inj_of_byteLength hbehind (by simp [hparts, hparts', hinside, hrest]) with
    ⟨hsameRun, hsameBack⟩
  exact ⟨hsameFront, hsameRun, hsameBack⟩

theorem bytesToColumn_mono (content : List Char) {column later : Nat} (h : column ≤ later) :
    bytesToColumn content column ≤ bytesToColumn content later := by
  induction content generalizing column later with
  | nil => exact Nat.le_refl 0
  | cons c cs ih =>
      unfold bytesToColumn
      split
      · exact Nat.zero_le _
      · rw [if_neg (by omega)]
        exact Nat.add_le_add_left (ih (Nat.sub_le_sub_right h _)) _

theorem LineRun.touches {source front run back : List Char} {line column : Nat}
    (h : LineRun source line front run back) (hstart : unitLength front ≤ column)
    (hstop : column ≤ unitLength (front ++ run)) : Touches source line column front run := by
  refine ⟨lineStart source line + bytesToColumn (front ++ run ++ back) column, ?_, ?_, ?_⟩
  · unfold offset?
    rw [h.text, Option.map_some]
  · have hfirst := bytesToColumn_mono (front ++ run ++ back) hstart
    rw [List.append_assoc, bytesToColumn_append, ← List.append_assoc] at hfirst
    exact Nat.add_le_add_left hfirst _
  · have hlast := bytesToColumn_mono (front ++ run ++ back) hstop
    rw [bytesToColumn_append] at hlast
    exact Nat.add_le_add_left hlast _

/-- The words of a text, position by position, as they follow from the runs on its lines. -/
structure WordsOfRuns (text : String) : Prop where
  noLine : forall line column, (lines text.toList).length ≤ line ->
    wordAt? text line column = none
  inRange : forall line column content, lineText? text.toList line = some content ->
    CutsInRange text.toList content (lineStart text.toList line) (bytesToColumn content column)
  touched : forall line column, line < (lines text.toList).length ->
    exists front run back, LineRun text.toList line front run back ∧
      Touches text.toList line column front run ∧
      forall front' run' back', LineRun text.toList line front' run' back' ->
        Touches text.toList line column front' run' ->
          front = front' ∧ run = run' ∧ back = back'
  answer : forall line column front run back, LineRun text.toList line front run back ->
    Touches text.toList line column front run -> forall word,
      wordAt? text line column = some word ↔
        SameBytes text.toList (mask text.toList) (lineStart text.toList line + byteLength front)
            (lineStart text.toList line + byteLength (front ++ run)) ∧
          Trims (· == '.') run word.toList ∧ word ≠ "" ∧
          ¬ forall c, c ∈ word.toList -> c.isDigit = true ∨ c = '.'
  sameRun : forall line front run back, LineRun text.toList line front run back ->
    forall column other, unitLength front ≤ column -> column ≤ unitLength (front ++ run) ->
      unitLength front ≤ other -> other ≤ unitLength (front ++ run) ->
        wordAt? text line column = wordAt? text line other
  inCode : forall line column front run back word, LineRun text.toList line front run back ->
    Touches text.toList line column front run -> wordAt? text line column = some word ->
      exists before after, text.toList = before ++ (run ++ after) ∧
        byteLength before = lineStart text.toList line + byteLength front ∧
        forall part more, run = part ++ more -> (scanTo (before ++ part) (more ++ after)).AtCode

/-- On a line that is not there no word is found.  Elsewhere every cursor touches exactly one run
of word characters, nothing is cut out of range on the way to it, and the run alone decides: it is
the word, without the dots at its ends, if the mask leaves all its bytes and more than dots and
digits are left.  So all cursors at one run find the same, and what they find is in code from end to
end. -/
theorem wordAt?_wordsOfRuns (text : String) : WordsOfRuns text := by
  constructor
  case noLine =>
    intro line column hline
    have htext : lineText? text.toList line = none := by
      unfold lineText?
      rw [List.getElem?_eq_none hline, Option.map_none]
    unfold wordAt?
    simp only [htext, bind, Option.bind]
  case inRange =>
    intro line column content hcontent
    rcases exists_run_at_column hcontent column with
      ⟨front, inside, rest, back, hparts, hbytes, hrun⟩
    rw [hbytes, hparts]
    exact hrun.cutsInRange rfl
  case touched =>
    intro line column hline
    rcases exists_touched_run hline column with ⟨front, run, back, hrun, htouch⟩
    exact ⟨front, run, back, hrun, htouch, fun _ _ _ => hrun.unique htouch⟩
  case answer =>
    intro line column front run back hrun htouch
    exact wordAt?_eq_some_iff hrun htouch
  case sameRun =>
    intro line front run back hrun column other hfrom hto hotherFrom hotherTo
    rw [wordAt?_of_run hrun (hrun.touches hfrom hto),
      wordAt?_of_run hrun (hrun.touches hotherFrom hotherTo)]
  case inCode =>
    intro line column front run back word hrun htouch hword
    exact atCode_of_wordAt? hrun htouch hword

-- A cursor just behind a run finds it, without the dot at its end.
example : wordAt? "a = Foo." 0 8 = some "Foo" := by
  decide +kernel

end ElmNavigator
