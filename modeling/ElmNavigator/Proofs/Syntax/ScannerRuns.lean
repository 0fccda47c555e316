import ElmNavigator.Proofs.Syntax.MaskedText

/-!
# Runs of the scanner

The scanner looks ahead, but never past a line feed.  A text that ends a line can
therefore be masked on its own: what follows is masked from the state in which
the scanner leaves it.
-/

namespace ElmNavigator
namespace Syntax

open Text

/-!
## Whole lines
-/

/-- Texts at whose end a line starts. -/
def EndsLine (text : List Char) : Prop :=
  text = [] ∨ exists front, text = front ++ ['\n']

theorem EndsLine.of_cons {c : Char} {cs : List Char} (h : EndsLine (c :: cs)) :
    EndsLine cs ∧ (cs = [] -> c = '\n') := by
  rcases h with hnil | ⟨front, hfront⟩
  · cases hnil
  · cases front with
    | nil =>
        injection hfront with hc hcs
        subst hcs
        exact ⟨Or.inl rfl, fun _ => hc⟩
    | cons d front =>
        injection hfront with _ hcs
        refine ⟨Or.inr ⟨front, hcs⟩, ?_⟩
        intro hnil
        rw [hnil] at hcs
        simp at hcs

instance (text : List Char) : Decidable (EndsLine text) :=
  decidable_of_iff (text = [] ∨ text.getLast? = some '\n') (by
    unfold EndsLine
    rw [List.getLast?_eq_some_iff])

namespace Scanner

/-!
## States
-/

def inCode (previous : Option Char) : Scanner :=
  { region := .code, previous, pending := 0 }

def run (s : Scanner) : List Char -> Scanner
  | [] => s
  | c :: cs => (s.step c cs).1.run cs

theorem step_append {c : Char} {cs : List Char} (h : EndsLine (c :: cs)) (s : Scanner)
    (rest : List Char) : s.step c (cs ++ rest) = s.step c cs := by
  cases cs with
  | nil =>
      rw [h.of_cons.right rfl]
      unfold step stepCode stepBlock stepTriple stepLiteral
      simp
  | cons d ds =>
      have hhead : (d :: ds ++ rest).head? = (d :: ds).head? := rfl
      have htake : (d :: ds ++ rest).take 2 = ['"', '"'] ↔
          (d :: ds).take 2 = ['"', '"'] := by
        cases ds with
        | cons e es => rfl
        | nil =>
            have hd : d = '\n' := h.of_cons.left.of_cons.right rfl
            simp [hd]
      unfold step stepCode stepBlock stepTriple
      simp only [hhead, htake]

/-- In code, only characters that are there are blanked in advance. -/
def Settled (s : Scanner) (ahead : List Char) : Prop :=
  s.region = .code -> s.pending ≤ ahead.length

section Settled

variable {region : Region} {previous : Option Char} {pending : Nat}

theorem settled_of_idle (h : pending = 0) (ahead : List Char) :
    Settled { region, previous, pending } ahead := by
  intro _
  rw [h]
  exact Nat.zero_le _

theorem settled_of_region (h : region ≠ .code) (ahead : List Char) :
    Settled { region, previous, pending } ahead :=
  fun hcode => absurd hcode h

end Settled

section Steps

variable {s : Scanner} (hidle : s.pending = 0) (c : Char) (cs : List Char)

include hidle

theorem settled_stepCode : (s.stepCode c cs).1.Settled cs := by
  unfold stepCode
  simp only
  split
  · exact settled_of_idle hidle cs
  · split
    · exact settled_of_region (by simp) cs
    · split
      · exact settled_of_region (by simp) cs
      · split
        · exact settled_of_idle hidle cs
        · split
          · exact settled_of_idle hidle cs
          · exact settled_of_idle hidle cs

theorem settled_stepBlock (depth : Nat) : (s.stepBlock depth c cs).Settled cs := by
  unfold stepBlock
  split
  · exact settled_of_region (by simp) cs
  · split
    · rename_i hclose
      intro _
      cases cs with
      | nil => simp at hclose
      | cons d ds => simp
    · exact settled_of_idle hidle cs

theorem settled_stepTriple (hregion : s.region ≠ .code) : (s.stepTriple c cs).Settled cs := by
  unfold stepTriple
  split
  · rename_i hclose
    intro _
    cases cs with
    | nil => simp at hclose
    | cons d ds =>
        cases ds with
        | nil => simp at hclose
        | cons e es => simp
  · split
    · exact settled_of_region hregion cs
    · exact settled_of_idle hidle cs

theorem settled_stepLiteral (hregion : s.region ≠ .code) (quote : Char) :
    (s.stepLiteral quote c).Settled cs := by
  unfold stepLiteral
  split
  · exact settled_of_region hregion cs
  · split
    · exact settled_of_idle hidle cs
    · exact settled_of_idle hidle cs

end Steps

theorem Settled.step {s : Scanner} {c : Char} {cs : List Char}
    (h : s.Settled (c :: cs)) : (s.step c cs).1.Settled cs := by
  unfold Scanner.step
  split
  · intro hcode
    exact Nat.sub_le_of_le_add (h hcode)
  · rename_i hpending
    have hidle : s.pending = 0 := Nat.eq_zero_of_not_pos hpending
    split
    · exact settled_stepCode hidle c cs
    · simp only
      split
      · exact settled_of_idle hidle cs
      · exact settled_of_idle hidle cs
    · exact settled_stepBlock hidle c cs _
    · rename_i hregion
      exact settled_stepLiteral hidle c cs (by simp [hregion]) _
    · rename_i hregion
      exact settled_stepTriple hidle c cs (by simp [hregion])
    · rename_i hregion
      exact settled_stepLiteral hidle c cs (by simp [hregion]) _

theorem Settled.run {s : Scanner} {text : List Char} (h : s.Settled text) :
    (s.run text).Settled [] := by
  induction text generalizing s with
  | nil => exact h
  | cons c cs ih => exact ih h.step

theorem run_eq_inCode {text : List Char} (h : (start.run text).region = .code) :
    exists previous, start.run text = inCode previous := by
  have hsettled : start.Settled text := fun _ => Nat.zero_le text.length
  have hpending := Nat.le_zero.mp (hsettled.run h)
  refine ⟨(start.run text).previous, ?_⟩
  cases hrun : start.run text with
  | mk region previous pending =>
      rw [hrun] at h hpending
      simp only at h hpending
      rw [h, hpending]
      rfl

end Scanner

/-!
## Masks of texts put together
-/

open Scanner

theorem maskFrom_append {text : List Char} (h : EndsLine text) (s : Scanner)
    (rest : List Char) :
    maskFrom s (text ++ rest) = maskFrom s text ++ maskFrom (s.run text) rest := by
  induction text generalizing s with
  | nil => rfl
  | cons c cs ih =>
      simp only [List.cons_append, maskFrom, Scanner.run]
      rw [step_append h, ih h.of_cons.left, List.append_assoc]

theorem byteLength_maskFrom (s : Scanner) (text : List Char) :
    byteLength (maskFrom s text) = byteLength text :=
  byteLength_of_maskOf (maskFrom_maskOf s text)

theorem EndsLine.maskFrom {text : List Char} (h : EndsLine text) (s : Scanner) :
    EndsLine (maskFrom s text) := by
  induction text generalizing s with
  | nil => exact Or.inl rfl
  | cons c cs ih =>
      have hrest := ih h.of_cons.left (s.step c cs).1
      simp only [Syntax.maskFrom]
      cases cs with
      | nil =>
          have hc := h.of_cons.right rfl
          refine Or.inr ⟨[], ?_⟩
          rw [hc]
          split
          · rfl
          · rfl
      | cons d ds =>
          rcases hrest with hnil | ⟨front, hfront⟩
          · have hlength := byteLength_maskFrom (s.step c (d :: ds)).1 (d :: ds)
            rw [hnil] at hlength
            have hpos := byteLength_pos (List.cons_ne_nil d ds)
            rw [← hlength] at hpos
            cases hpos
          · exact Or.inr ⟨_ ++ front, by rw [hfront, List.append_assoc]⟩

/-- The first character of a text in code is treated alike whatever comes before it, unless it is
an apostrophe. -/
theorem maskFrom_inCode {text : List Char} (h : text.head? ≠ some '\'')
    (previous other : Option Char) :
    maskFrom (inCode previous) text = maskFrom (inCode other) text := by
  cases text with
  | nil => rfl
  | cons c cs =>
      have hc : c ≠ '\'' := fun heq => h (by rw [heq]; rfl)
      have hstep : (inCode previous).step c cs = (inCode other).step c cs := by
        unfold step stepCode inCode
        simp [hc]
      simp only [maskFrom, hstep]

/-!
## The byte order mark
-/

/-- A source text behind its byte order mark. -/
def unmarked (source : List Char) : List Char :=
  if source.head? = some byteOrderMark then source.tail else source

/-- Number of bytes of the byte order mark of a source text. -/
def markLength (source : List Char) : Nat :=
  if source.head? = some byteOrderMark then byteOrderMark.utf8Size else 0

def scan (source : List Char) : Scanner :=
  Scanner.start.run (unmarked source)

theorem markLength_add (source : List Char) :
    markLength source + byteLength (unmarked source) = byteLength source := by
  unfold markLength unmarked
  split
  · rename_i hmark
    cases source with
    | nil => cases hmark
    | cons c cs =>
        injection hmark with hc
        rw [hc]
        rfl
  · rw [Nat.zero_add]

theorem unmarked_append {source : List Char} (h : source ≠ []) (rest : List Char) :
    unmarked (source ++ rest) = unmarked source ++ rest := by
  cases source with
  | nil => exact absurd rfl h
  | cons c cs =>
      unfold unmarked
      by_cases hmark : c = byteOrderMark
      · simp [hmark]
      · simp [hmark]

theorem markLength_append {source : List Char} (h : source ≠ []) (rest : List Char) :
    markLength (source ++ rest) = markLength source := by
  cases source with
  | nil => exact absurd rfl h
  | cons c cs => rfl

theorem EndsLine.unmarked {source : List Char} (h : EndsLine source) :
    EndsLine (unmarked source) := by
  unfold Syntax.unmarked
  split
  · cases source with
    | nil => exact h
    | cons c cs => exact h.of_cons.left
  · exact h

theorem sourceChunks_eq (source : List Char) :
    sourceChunks source =
      chunksFrom (markLength source) (maskFrom Scanner.start (unmarked source)) := by
  cases source with
  | nil => rfl
  | cons c cs =>
      simp only [sourceChunks, markLength, unmarked, List.head?_cons, List.tail_cons,
        Option.some.injEq]
      split
      · rename_i hmark
        have hmasked : mask (c :: cs) = blank c ++ maskFrom Scanner.start cs := by
          simp only [mask, hmark, if_true]
        rw [hmasked, ← byteLength_blank c, dropBytes_append, byteLength_blank, hmark]
      · rename_i hmark
        simp only [mask, hmark, if_false]

end Syntax
end ElmNavigator
