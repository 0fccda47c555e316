import ElmNavigator.Proofs.Syntax.MaskedOpeners
import ElmNavigator.Proofs.Syntax.ScannerCuts

/-!
# Masking a masked text

No string and no comment opens in a masked text, so masking it again can only
find character literals, at apostrophes with no identifier in front of them.  The
scanner leaves such an apostrophe at one place only: behind a character literal
it still remembers the quote that opened the literal, and takes the next
apostrophe for a prime of it.
-/

namespace ElmNavigator
namespace Syntax

open Text

/-!
## Primes
-/

/-- Every apostrophe follows a character of an identifier.  The flag tells whether one stands in
front of the text. -/
def PrimesFollow : Bool -> List Char -> Prop
  | _, [] => True
  | after, c :: cs => (c = '\'' -> after = true) ∧ PrimesFollow (isIdentChar c) cs

theorem primesFollow_blanks {blanks : List Char} (hne : blanks ≠ []) (hblanks : AllBlank blanks)
    (after : Bool) (text : List Char) :
    PrimesFollow after (blanks ++ text) ↔ PrimesFollow false text := by
  induction blanks generalizing after with
  | nil => exact absurd rfl hne
  | cons c blanks ih =>
      have hc := hblanks c List.mem_cons_self
      have hquote : c ≠ '\'' := ne_of_isBlank hc (by decide)
      have hident : isIdentChar c = false :=
        eq_false_of_isBlank (fun _ => isBlank_of_isIdentChar) hc
      simp only [List.cons_append, PrimesFollow, hquote, false_implies, true_and, hident]
      cases blanks with
      | nil => rfl
      | cons d blanks =>
          exact ih (List.cons_ne_nil d blanks)
            (fun e he => hblanks e (List.mem_cons_of_mem c he)) false

theorem blank_ne_nil (c : Char) : blank c ≠ [] := by
  intro hnil
  have hlength := byteLength_blank c
  rw [hnil] at hlength
  exact absurd hlength.symm c.utf8Size_pos.ne'

theorem primesFollow_blank (c : Char) (after : Bool) (text : List Char) :
    PrimesFollow after (blank c ++ text) ↔ PrimesFollow false text :=
  primesFollow_blanks (blank_ne_nil c) (fun _ => isBlank_of_mem_blank) after text

/-!
## What the scanner remembers
-/

namespace Scanner

/-- Outside code, the scanner remembers a character of an identifier only in character literals,
whose quote it takes for one. -/
def Remembers (s : Scanner) : Prop :=
  s.AtCode ∨ (s.afterIdentifier = true ↔ s.region = .character)

/-- In code a character is kept, and an apostrophe only as a prime; or it opens a region, which is
a character literal exactly if the character may stand in an identifier. -/
theorem stepCode_cases (s : Scanner) (c : Char) (ahead : List Char) :
    (s.stepCode c ahead = ({ s with previous := some c }, true) ∧
        (c = '\'' -> s.afterIdentifier = true)) ∨
      exists region pending,
        s.stepCode c ahead = ({ region, previous := some c, pending }, false) ∧
          region ≠ .code ∧ (isIdentChar c = true ↔ region = .character) := by
  unfold stepCode
  simp only
  split
  · rename_i hline
    simp only [Bool.and_eq_true, decide_eq_true_eq] at hline
    exact Or.inr ⟨_, _, rfl, by simp, by rw [hline.left]; decide⟩
  · split
    · rename_i hblock
      simp only [Bool.and_eq_true, decide_eq_true_eq] at hblock
      exact Or.inr ⟨_, _, rfl, by simp, by rw [hblock.left]; decide⟩
    · split
      · rename_i htriple
        simp only [Bool.and_eq_true, decide_eq_true_eq] at htriple
        exact Or.inr ⟨_, _, rfl, by simp, by rw [htriple.left]; decide⟩
      · split
        · rename_i hstring
          exact Or.inr ⟨_, _, rfl, by simp, by rw [hstring]; decide⟩
        · split
          · rename_i hquote
            simp only [Bool.and_eq_true, decide_eq_true_eq] at hquote
            exact Or.inr ⟨_, _, rfl, by simp, by rw [hquote.left]; decide⟩
          · rename_i hprime
            refine Or.inl ⟨rfl, ?_⟩
            intro hc
            simpa [hc] using hprime

theorem Remembers.step {s : Scanner} (h : s.Remembers) (c : Char) (ahead : List Char) :
    (s.step c ahead).1.Remembers := by
  by_cases hcode : s.AtCode
  · rw [step_of_atCode hcode]
    rcases stepCode_cases s c ahead with ⟨hstep, _⟩ | ⟨region, pending, hstep, _, hident⟩
    · rw [hstep]
      exact Or.inl hcode
    · rw [hstep]
      exact Or.inr hident
  · have hout := (step_outside hcode c ahead).right
    rcases hout.region with hback | hregion
    · exact Or.inl hback
    · exact Or.inr (by rw [hout.afterIdentifier, hregion]; exact h.resolve_left hcode)

theorem step_prime {s : Scanner} (hcode : s.AtCode) (hafter : s.afterIdentifier = true)
    (ahead : List Char) : (s.step '\'' ahead).2 = true := by
  simp [step, stepCode, hcode.left, hcode.right, hafter]

/-- In a text, an apostrophe stands directly behind a character literal. -/
def QuoteBehindLiteral (s : Scanner) (text : List Char) : Prop :=
  exists front c rest, text = front ++ c :: '\'' :: rest ∧
    (s.reach front (c :: '\'' :: rest)).region = .character ∧
    (s.reach (front ++ [c]) ('\'' :: rest)).region = .code

theorem quoteBehindLiteral_cons (s : Scanner) (c : Char) (cs : List Char) :
    s.QuoteBehindLiteral (c :: cs) ↔
      (cs.head? = some '\'' ∧ s.region = .character ∧ (s.step c cs).1.region = .code) ∨
        (s.step c cs).1.QuoteBehindLiteral cs := by
  constructor
  · rintro ⟨front, d, rest, htext, hliteral, hcode⟩
    cases front with
    | nil =>
        injection htext with hd hcs
        subst hd hcs
        exact Or.inl ⟨rfl, hliteral, hcode⟩
    | cons e front =>
        injection htext with he hcs
        subst he hcs
        simp only [List.cons_append, reach, List.append_assoc] at hliteral hcode
        exact Or.inr ⟨front, d, rest, rfl, hliteral, hcode⟩
  · rintro (⟨hhead, hliteral, hcode⟩ | ⟨front, d, rest, hcs, hliteral, hcode⟩)
    · rcases List.head?_eq_some_iff.mp hhead with ⟨rest, hcs⟩
      subst hcs
      exact ⟨[], c, rest, rfl, hliteral, hcode⟩
    · subst hcs
      refine ⟨c :: front, d, rest, rfl, ?_, ?_⟩
      · exact hliteral
      · simpa [reach] using hcode

end Scanner

/-!
## Primes in a masked text
-/

open Scanner

/-- The induction is on the text.  In front of an apostrophe in code the flag agrees with what the
scanner remembers; only behind a character literal would they differ. -/
theorem primesFollow_maskFrom_iff {s : Scanner} (hs : s.Remembers) {after : Bool}
    {text : List Char}
    (hafter : s.AtCode -> text.head? = some '\'' -> s.afterIdentifier = after) :
    PrimesFollow after (maskFrom s text) ↔ ¬ s.QuoteBehindLiteral text := by
  induction text generalizing s after with
  | nil =>
      refine iff_of_true trivial ?_
      rintro ⟨front, c, rest, htext, _⟩
      simp at htext
  | cons c cs ih =>
      have hnext := hs.step c cs
      rw [quoteBehindLiteral_cons, maskFrom_cons]
      by_cases hcode : s.AtCode
      · have hregion : s.region ≠ .character := by simp [hcode.left]
        simp only [hregion, false_and, and_false, false_or]
        rw [step_of_atCode hcode] at hnext ⊢
        rcases stepCode_cases s c cs with ⟨hstep, hprime⟩ | ⟨region, pending, hstep, hopen, _⟩
        · rw [hstep] at hnext ⊢
          simp only [if_true, List.singleton_append, PrimesFollow]
          have hrest := @ih _ hnext (isIdentChar c) fun _ _ => rfl
          rw [hrest, and_iff_right]
          intro hc
          rw [← hafter hcode (by rw [hc]; rfl), hprime hc]
        · rw [hstep] at hnext ⊢
          simp only [Bool.false_eq_true, if_false, primesFollow_blank]
          exact ih hnext fun hback => absurd hback.left hopen
      · rcases step_outside hcode c cs with ⟨hblanked, hout⟩
        simp only [hblanked, Bool.false_eq_true, if_false, primesFollow_blank]
        by_cases hquote : cs.head? = some '\'' ∧ s.region = .character ∧
            (s.step c cs).1.region = .code
        · -- The quote that opened the literal makes the apostrophe behind it a prime.
          refine iff_of_false ?_ (not_not_intro (Or.inl hquote))
          rcases hquote with ⟨hhead, hliteral, hback⟩
          have hatCode : (s.step c cs).1.AtCode :=
            hout.region.resolve_right fun hiff => by simp [hiff.mpr hliteral] at hback
          have hremembered : (s.step c cs).1.afterIdentifier = true := by
            rw [hout.afterIdentifier]
            exact (hs.resolve_left hcode).mpr hliteral
          rcases List.head?_eq_some_iff.mp hhead with ⟨rest, hcs⟩
          subst hcs
          rw [maskFrom_cons, step_prime hatCode hremembered]
          exact fun hprimes => Bool.false_ne_true (hprimes.left rfl)
        · rw [or_iff_right hquote]
          refine ih hnext fun hback hhead => ?_
          rw [hout.afterIdentifier, Bool.eq_false_iff]
          intro hremembered
          exact hquote ⟨hhead, (hs.resolve_left hcode).mp hremembered, hback.left⟩

/-!
## Masking again
-/

theorem OpensNothing.tail {c : Char} {cs : List Char} (h : OpensNothing (c :: cs)) :
    OpensNothing cs where
  quotes := fun hmem => h.quotes (List.mem_cons_of_mem c hmem)
  comments := h.comments.tail

theorem OpensNothing.stepCode {c : Char} {cs : List Char} (h : OpensNothing (c :: cs))
    (s : Scanner) :
    s.stepCode c cs =
      if c = '\'' ∧ s.afterIdentifier = false then
        ({ s with previous := some c, region := .character }, false)
      else ({ s with previous := some c }, true) := by
  have hquote : c ≠ '"' := fun heq => h.quotes (heq ▸ List.mem_cons_self)
  have hopens : ¬ ((c = '-' ∨ c = '{') ∧ cs.head? = some '-') := by
    rintro ⟨hbegin, hhead⟩
    exact (List.isChain_cons.mp h.comments).left '-' hhead ⟨hbegin, rfl⟩
  have hcomments : (c = '-' ∧ cs.head? = some '-') = False ∧
      (c = '{' ∧ cs.head? = some '-') = False := by
    constructor
    · exact eq_false fun hline => hopens ⟨Or.inl hline.left, hline.right⟩
    · exact eq_false fun hblock => hopens ⟨Or.inr hblock.left, hblock.right⟩
  unfold Scanner.stepCode
  simp [hcomments, hquote]

/-- A text in which nothing opens is its own mask exactly if every apostrophe in it is a prime. -/
theorem maskFrom_eq_self_iff {text : List Char} (h : OpensNothing text) (previous : Option Char) :
    maskFrom (inCode previous) text = text ↔
      PrimesFollow (inCode previous).afterIdentifier text := by
  induction text generalizing previous with
  | nil => exact iff_of_true rfl trivial
  | cons c cs ih =>
      rw [maskFrom_cons, step_of_atCode ⟨rfl, rfl⟩, h.stepCode]
      by_cases hquote : c = '\'' ∧ (inCode previous).afterIdentifier = false
      · rw [if_pos hquote]
        refine iff_of_false ?_ ?_
        · rw [hquote.left]
          intro hsame
          injection hsame with hspace _
          revert hspace
          decide
        · intro hprimes
          have hafter := hprimes.left hquote.left
          rw [hquote.right] at hafter
          cases hafter
      · rw [if_neg hquote]
        have hrest := ih h.tail (some c)
        have hprime : c = '\'' -> (inCode previous).afterIdentifier = true :=
          fun hc => Bool.not_eq_false _ ▸ fun hafter => hquote ⟨hc, hafter⟩
        show c :: maskFrom (inCode (some c)) cs = c :: cs ↔ _
        rw [List.cons_inj_right, hrest]
        exact (and_iff_right hprime).symm

theorem head?_blank_ne (c : Char) (text : List Char) :
    (blank c ++ text).head? ≠ some byteOrderMark := by
  rw [List.head?_append_of_ne_nil _ (blank_ne_nil c)]
  intro hhead
  exact ne_of_mem_blank (List.mem_of_mem_head? hhead) (by decide) rfl

theorem head?_mask_ne (source : List Char) : (mask source).head? ≠ some byteOrderMark := by
  cases source with
  | nil => simp [mask]
  | cons c cs =>
      by_cases hmark : c = byteOrderMark
      · rw [mask, if_pos hmark]
        exact head?_blank_ne c _
      · rw [mask, if_neg hmark, maskFrom_cons]
        split
        · simpa using hmark
        · exact head?_blank_ne c _

/-- An apostrophe stands directly behind a character literal of a source text, where the literal
may also be ended by a line feed. -/
def QuoteBehindLiteral (source : List Char) : Prop :=
  exists front c rest, source = front ++ c :: '\'' :: rest ∧
    (scanTo front (c :: '\'' :: rest)).region = .character ∧
    (scanTo (front ++ [c]) ('\'' :: rest)).region = .code

theorem unmarked_mark (cs : List Char) : unmarked (byteOrderMark :: cs) = cs := by
  simp [unmarked]

theorem unmarked_of_head {source : List Char} (h : source.head? ≠ some byteOrderMark) :
    unmarked source = source :=
  if_neg h

theorem quoteBehindLiteral_mark (cs : List Char) :
    QuoteBehindLiteral (byteOrderMark :: cs) ↔ Scanner.start.QuoteBehindLiteral cs := by
  constructor
  · rintro ⟨front, c, rest, hsource, hliteral, hcode⟩
    cases front with
    | nil => cases hliteral
    | cons d front =>
        injection hsource with hd hcs
        subst hd
        rw [scanTo, unmarked_mark] at hliteral
        rw [scanTo, List.cons_append, unmarked_mark] at hcode
        exact ⟨front, c, rest, hcs, hliteral, hcode⟩
  · rintro ⟨front, c, rest, hcs, hliteral, hcode⟩
    refine ⟨byteOrderMark :: front, c, rest, by rw [hcs]; rfl, ?_, ?_⟩
    · rwa [scanTo, unmarked_mark]
    · rwa [scanTo, List.cons_append, unmarked_mark]

theorem quoteBehindLiteral_unmarked {source : List Char}
    (h : source.head? ≠ some byteOrderMark) :
    QuoteBehindLiteral source ↔ Scanner.start.QuoteBehindLiteral source := by
  have hfront {front rest : List Char} (hsource : source = front ++ rest) :
      unmarked front = front := by
    cases front with
    | nil => rfl
    | cons c front =>
        rw [hsource] at h
        exact unmarked_of_head h
  unfold QuoteBehindLiteral Scanner.QuoteBehindLiteral scanTo
  refine exists_congr fun front => exists_congr fun c => exists_congr fun rest => ?_
  refine and_congr_right fun hsource => ?_
  have hnext : source = front ++ [c] ++ '\'' :: rest := by rw [hsource]; simp
  rw [hfront hsource, hfront hnext]

/-- Masking a masked text again changes it exactly if the source has an apostrophe directly behind
a character literal. -/
theorem mask_mask_iff (source : List Char) :
    mask (mask source) = mask source ↔ ¬ QuoteBehindLiteral source := by
  rw [mask_eq_maskFrom (head?_mask_ne source)]
  have hself := maskFrom_eq_self_iff (mask_opensNothing source) none
  refine hself.trans ?_
  have hstart : Scanner.start.Remembers := Or.inl ⟨rfl, rfl⟩
  have hprimes (text : List Char) :
      PrimesFollow false (maskFrom Scanner.start text) ↔
        ¬ Scanner.start.QuoteBehindLiteral text :=
    primesFollow_maskFrom_iff hstart fun _ _ => rfl
  by_cases hmark : source.head? = some byteOrderMark
  · rcases List.head?_eq_some_iff.mp hmark with ⟨cs, hsource⟩
    subst hsource
    rw [quoteBehindLiteral_mark, mask, if_pos rfl, primesFollow_blank]
    exact hprimes cs
  · rw [quoteBehindLiteral_unmarked hmark, mask_eq_maskFrom hmark]
    exact hprimes source

/-- Of two character literals that touch, the second one is only found in the mask. -/
theorem mask_mask_adjacent_literals :
    mask (mask ['\'', 'a', '\'', '\'', 'b', '\'']) ≠ mask ['\'', 'a', '\'', '\'', 'b', '\''] := by
  decide

end Syntax
end ElmNavigator
