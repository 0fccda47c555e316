import ElmNavigator.Proofs.Syntax.InvisibleComments
import ElmNavigator.Proofs.Syntax.ScannerCuts
import Mathlib.Data.List.Infix

/-!
# Where a block comment ends

A block comment is read in tokens: `{-` and `-}` wherever they fit, and single
characters.  The scanner counts how many comments are open, and the count is the
surplus of the openings.  It is back in code behind the shortest beginning of the
tokens in which nothing is left open, and at the end of the text if there is none.
-/

namespace ElmNavigator
namespace Syntax

open Text

/-!
## Tokens
-/

/-- What a text in a block comment is made of. -/
inductive CommentToken where
  | opening
  | closing
  | other (c : Char)
deriving Repr, DecidableEq

def CommentToken.spelling : CommentToken -> List Char
  | opening => ['{', '-']
  | closing => ['-', '}']
  | other c => [c]

def spell (tokens : List CommentToken) : List Char :=
  tokens.flatMap CommentToken.spelling

/-- The tokens of a text, from left to right. -/
def commentTokens : List Char -> List CommentToken
  | [] => []
  | '{' :: '-' :: cs => .opening :: commentTokens cs
  | '-' :: '}' :: cs => .closing :: commentTokens cs
  | c :: cs => .other c :: commentTokens cs

theorem spell_cons (token : CommentToken) (tokens : List CommentToken) :
    spell (token :: tokens) = token.spelling ++ spell tokens := rfl

theorem spell_append (a b : List CommentToken) : spell (a ++ b) = spell a ++ spell b :=
  List.flatMap_append

theorem spell_commentTokens (text : List Char) : spell (commentTokens text) = text := by
  fun_induction commentTokens text with
  | case1 => rfl
  | case2 cs ih => rw [spell_cons, ih]; rfl
  | case3 cs ih => rw [spell_cons, ih]; rfl
  | case4 c cs _ _ ih => rw [spell_cons, ih]; rfl

theorem commentTokens_other {c : Char} {cs : List Char} {tokens : List CommentToken}
    (h : commentTokens (c :: cs) = .other c :: tokens) :
    ¬ (c = '{' ∧ cs.head? = some '-') ∧ ¬ (c = '-' ∧ cs.head? = some '}') ∧
      commentTokens cs = tokens := by
  generalize htext : c :: cs = text at h
  fun_cases commentTokens text with
  | case1 => cases htext
  | case2 rest => cases h
  | case3 rest => cases h
  | case4 d rest hopening hclosing =>
      injection htext with hc hcs
      subst hc hcs
      rw [commentTokens] at h
      · injection h with _ htokens
        refine ⟨?_, ?_, htokens⟩
        · rintro ⟨hc, hhead⟩
          rcases List.head?_eq_some_iff.mp hhead with ⟨others, hcs⟩
          exact hopening others hc hcs
        · rintro ⟨hc, hhead⟩
          rcases List.head?_eq_some_iff.mp hhead with ⟨others, hcs⟩
          exact hclosing others hc hcs
      · exact hopening
      · exact hclosing

/-!
## Balance
-/

/-- As many comments close as open. -/
def Balanced (tokens : List CommentToken) : Prop :=
  tokens.count .opening = tokens.count .closing

instance (tokens : List CommentToken) : Decidable (Balanced tokens) :=
  inferInstanceAs (Decidable (_ = _))

/-- No shorter beginning but the empty one is balanced. -/
def ShortestBalanced (tokens : List CommentToken) : Prop :=
  tokens ≠ [] ∧ Balanced tokens ∧
    forall n, n < tokens.length -> 0 < n -> ¬ Balanced (tokens.take n)

instance (tokens : List CommentToken) : Decidable (ShortestBalanced tokens) :=
  inferInstanceAs (Decidable (_ ∧ _ ∧ _))

/-- Number of comments that are open behind some tokens. -/
def depthBehind (depth : Nat) (tokens : List CommentToken) : Nat :=
  depth + tokens.count .opening - tokens.count .closing

/-- From a depth on, some comment is open everywhere in a list of tokens and behind it. -/
def StaysOpen (depth : Nat) (tokens : List CommentToken) : Prop :=
  forall part more, tokens = part ++ more ->
    part.count .closing < depth + part.count .opening

theorem count_cons_token (kind token : CommentToken) (tokens : List CommentToken) :
    (token :: tokens).count kind = [token].count kind + tokens.count kind := by
  rw [← List.singleton_append, List.count_append]

theorem balanced_opening_iff (tokens : List CommentToken) :
    Balanced (.opening :: tokens) ↔ tokens.count .closing = 1 + tokens.count .opening := by
  simp [Balanced, Nat.add_comm 1, eq_comm]

section Cons

variable {depth : Nat} {token : CommentToken} {tokens : List CommentToken}

theorem StaysOpen.tail (h : StaysOpen depth (token :: tokens)) :
    StaysOpen (depthBehind depth [token]) tokens := by
  intro part more htokens
  have hpart := h (token :: part) more (by rw [htokens]; rfl)
  rw [count_cons_token .closing token part, count_cons_token .opening token part] at hpart
  unfold depthBehind
  omega

theorem StaysOpen.depthBehind_cons (h : StaysOpen depth (token :: tokens)) :
    depthBehind depth (token :: tokens) = depthBehind (depthBehind depth [token]) tokens := by
  have hfirst := h [token] tokens rfl
  unfold depthBehind
  rw [count_cons_token .closing token tokens, count_cons_token .opening token tokens]
  omega

/-- The surplus of the openings changes by one at a time, so it stays positive as long as it is
never zero. -/
theorem staysOpen_of_ne (hdepth : 0 < depth)
    (h : forall part more, tokens = part ++ more ->
      part.count .closing ≠ depth + part.count .opening) : StaysOpen depth tokens := by
  induction tokens generalizing depth with
  | nil =>
      intro part more htokens
      rw [(List.append_eq_nil_iff.mp htokens.symm).left]
      exact hdepth
  | cons token tokens ih =>
      have hclosing : [token].count .closing ≤ 1 := List.count_le_length
      have hfirst := h [token] tokens rfl
      have hrest : StaysOpen (depthBehind depth [token]) tokens := by
        refine ih (by unfold depthBehind; omega) ?_
        intro part more htokens
        have hpart := h (token :: part) more (by rw [htokens]; rfl)
        rw [count_cons_token .closing token part, count_cons_token .opening token part] at hpart
        unfold depthBehind
        omega
      intro part more htokens
      cases part with
      | nil => exact hdepth
      | cons first part =>
          simp only [List.cons_append, List.cons.injEq] at htokens
          have hpart := hrest part more htokens.right
          unfold depthBehind at hpart
          rw [← htokens.left, count_cons_token .closing token part,
            count_cons_token .opening token part]
          omega

end Cons

/-!
## The scanner in a comment
-/

namespace Scanner

/-- From one state to another the scanner blanks a text in front of another, and it does not come
to code before the end of the text. -/
structure Blanks (s : Scanner) (text ahead : List Char) (s' : Scanner) : Prop where
  reaches : s.reach text ahead = s'
  masked : maskFrom s (text ++ ahead) = text.flatMap blank ++ maskFrom s' ahead
  outside : forall part more, text = part ++ more -> more ≠ [] ->
    ¬ (s.reach part (more ++ ahead)).AtCode

theorem Blanks.nil (s : Scanner) (ahead : List Char) : s.Blanks [] ahead s where
  reaches := rfl
  masked := rfl
  outside := by
    intro part more htext hmore
    exact absurd (List.append_eq_nil_iff.mp htext.symm).right hmore

theorem Blanks.cons {s next s' : Scanner} {c : Char} {text ahead : List Char}
    (hcode : ¬ s.AtCode) (hstep : (s.step c (text ++ ahead)).1 = next)
    (h : next.Blanks text ahead s') : s.Blanks (c :: text) ahead s' where
  reaches := by
    rw [reach, hstep]
    exact h.reaches
  masked := by
    rw [List.cons_append, maskFrom_cons, (step_outside hcode c _).left, hstep, h.masked,
      List.flatMap_cons, List.append_assoc]
    rfl
  outside := by
    intro part more htext hmore
    cases part with
    | nil => exact hcode
    | cons d part =>
        simp only [List.cons_append, List.cons.injEq] at htext
        rw [htext.right, List.append_assoc] at hstep
        rw [← htext.left, reach, hstep]
        exact h.outside part more htext.right hmore

theorem not_atCode_blockComment (depth : Nat) (previous : Option Char) :
    ¬ (inComment (.blockComment depth) previous).AtCode :=
  fun hcode => Region.noConfusion hcode.left

theorem not_atCode_inBracket (region : Region) (previous : Option Char) :
    ¬ (inBracket region previous).AtCode :=
  fun hcode => absurd hcode.right (by simp [inBracket])

theorem step_other {c : Char} {ahead : List Char}
    (hopening : ¬ (c = '{' ∧ ahead.head? = some '-'))
    (hclosing : ¬ (c = '-' ∧ ahead.head? = some '}')) (depth : Nat) (previous : Option Char) :
    (inComment (.blockComment depth) previous).step c ahead =
      (inComment (.blockComment depth) previous, false) := by
  simp [step, stepBlock, inComment, hopening, hclosing]

/-- While a comment is open, the depth of the scanner is the surplus of the openings.  The
induction is on the tokens, in front of any text that is blanked from the last depth. -/
theorem blanks_open {depth : Nat} {tokens others : List CommentToken} (h : StaysOpen depth tokens)
    {text ahead : List Char}
    (htokens : commentTokens (spell tokens ++ (text ++ ahead)) = tokens ++ others)
    {previous : Option Char} {s' : Scanner}
    (hnext : (inComment (.blockComment (depthBehind depth tokens)) previous).Blanks text ahead s') :
    (inComment (.blockComment depth) previous).Blanks (spell tokens ++ text) ahead s' := by
  induction tokens generalizing depth with
  | nil => exact hnext
  | cons token tokens ih =>
      have hcode := not_atCode_blockComment depth previous
      have hfirst := h [token] tokens rfl
      rw [h.depthBehind_cons] at hnext
      cases token with
      | opening =>
          have hrest := ih h.tail (List.cons.inj htokens).right hnext
          exact Blanks.cons hcode rfl (Blanks.cons (not_atCode_inBracket _ _) rfl hrest)
      | closing =>
          have hrest := ih h.tail (List.cons.inj htokens).right hnext
          have hdepth : depth ≠ 1 := by
            rintro rfl
            exact absurd hfirst (by decide)
          refine Blanks.cons hcode ?_ (Blanks.cons (not_atCode_inBracket _ _) rfl hrest)
          simp [step, stepBlock, inComment, inBracket, depthBehind, hdepth]
      | other c =>
          have hspell : spell (.other c :: tokens) = c :: spell tokens := rfl
          have hdepth : depthBehind depth [.other c] = depth := by simp [depthBehind]
          rw [hspell, List.cons_append] at htokens ⊢
          rcases commentTokens_other htokens with ⟨hopening, hclosing, hrest⟩
          refine Blanks.cons hcode ?_ (ih h.tail hrest hnext)
          rw [List.append_assoc, hdepth, step_other hopening hclosing]

theorem blanks_closing (previous : Option Char) (ahead : List Char) :
    (inComment (.blockComment 1) previous).Blanks ['-', '}'] ahead (inCode previous) := by
  have hcode := not_atCode_blockComment 1 previous
  exact Blanks.cons hcode rfl (Blanks.cons (not_atCode_inBracket _ _) rfl (Blanks.nil _ ahead))

end Scanner

/-!
## Comments in a source text
-/

open Scanner

theorem commentTokens_opening (rest : List Char) :
    commentTokens ('{' :: '-' :: rest) = .opening :: commentTokens rest := by
  rw [commentTokens]

/-- The tokens of a comment: all comments inside are closed, and then the comment itself is. -/
theorem ShortestBalanced.exists_body {rest : List Char} {inside outside : List CommentToken}
    (h : ShortestBalanced inside)
    (htokens : commentTokens ('{' :: '-' :: rest) = inside ++ outside) :
    exists body, inside = .opening :: (body ++ [.closing]) ∧ StaysOpen 1 body ∧
      depthBehind 1 body = 1 := by
  rcases h with ⟨hne, hbalanced, hshortest⟩
  rw [commentTokens_opening] at htokens
  cases inside with
  | nil => exact absurd rfl hne
  | cons token tail =>
      simp only [List.cons_append, List.cons.injEq] at htokens
      rw [← htokens.left] at hbalanced hshortest ⊢
      rcases List.eq_nil_or_concat tail with hnil | ⟨body, last, hlast⟩
      · rw [hnil] at hbalanced
        exact absurd hbalanced (by decide)
      · rw [List.concat_eq_append] at hlast
        subst hlast
        have hbody : StaysOpen 1 body := by
          refine staysOpen_of_ne Nat.one_pos ?_
          intro part more hpart hequal
          apply hshortest (part.length + 1) (by simp [hpart]) (Nat.succ_pos _)
          have htake : (CommentToken.opening :: (body ++ [last])).take (part.length + 1) =
              .opening :: part := by simp [hpart]
          rw [htake]
          exact (balanced_opening_iff part).mpr hequal
        have hopen := hbody body [] (List.append_nil body).symm
        have hends := (balanced_opening_iff _).mp hbalanced
        rw [List.count_append, List.count_append] at hends
        have hlast : last = .closing := by
          have hcount : 0 < [last].count .closing := by omega
          exact (List.mem_singleton.mp (List.count_pos_iff.mp hcount)).symm
        subst hlast
        refine ⟨body, rfl, hbody, ?_⟩
        have hone : [CommentToken.closing].count .closing = 1 := rfl
        unfold depthBehind
        omega

/-- A comment in a source text: from its first character on and up to its end the scanner is not
in code, all that is left of it are blanks, and what follows is masked for itself. -/
structure SpansComment (front comment rest : List Char) : Prop where
  outside : forall part more, comment = part ++ more -> part ≠ [] -> more ≠ [] ->
    ¬ (scanTo (front ++ part) (more ++ rest)).AtCode
  masked : exists masked, byteLength masked = byteLength front ∧
    mask (front ++ (comment ++ rest)) = masked ++ (comment.flatMap blank ++
      maskFrom (scanTo (front ++ comment) rest) rest)

theorem scanTo_append {front part : List Char} (h : part.head? ≠ some byteOrderMark)
    (rest : List Char) :
    scanTo (front ++ part) rest = (scanTo front (part ++ rest)).reach part rest := by
  unfold scanTo
  rw [unmarked_append_of_head fun _ => h, reach_append]

theorem spansComment_of_blanks {front tail rest : List Char} {s' : Scanner}
    (hcode : (scanTo front ('{' :: (tail ++ rest))).AtCode)
    (htail : (tail ++ rest).head? = some '-')
    (h : (inBracket (.blockComment 1) (some '{')).Blanks tail rest s') :
    SpansComment front ('{' :: tail) rest ∧ scanTo (front ++ '{' :: tail) rest = s' := by
  have hstep : (scanTo front ('{' :: (tail ++ rest))).step '{' (tail ++ rest) =
      (inBracket (.blockComment 1) (some '{'), false) := by
    rw [step_of_atCode hcode, hcode.eq_inCode]
    simp only [stepCode, htail]
    rfl
  have hreach : forall part more, tail = part ++ more ->
      scanTo (front ++ '{' :: part) (more ++ rest) =
        (inBracket (.blockComment 1) (some '{')).reach part (more ++ rest) := by
    intro part more htail
    have hcut : tail ++ rest = part ++ (more ++ rest) := by rw [htail, List.append_assoc]
    rw [hcut] at hstep
    rw [scanTo_append (by simp [byteOrderMark]), List.cons_append, reach, hstep]
  have hbehind : scanTo (front ++ '{' :: tail) rest = s' := by
    have hend := hreach tail [] (List.append_nil tail).symm
    rw [List.nil_append, h.reaches] at hend
    exact hend
  refine ⟨⟨?_, ?_⟩, hbehind⟩
  · intro part more hcomment hpart hmore
    cases part with
    | nil => exact absurd rfl hpart
    | cons c part =>
        simp only [List.cons_append, List.cons.injEq] at hcomment
        rw [← hcomment.left, hreach part more hcomment.right]
        exact h.outside part more hcomment.right hmore
  · have hmark : front = [] -> ('{' :: (tail ++ rest)).head? ≠ some byteOrderMark := by
      simp [byteOrderMark]
    rcases mask_cut hmark with ⟨masked, hlength, hmask⟩
    refine ⟨masked, hlength, ?_⟩
    rw [List.cons_append, hmask, maskFrom_cons, hstep, hbehind, h.masked, List.flatMap_cons,
      List.append_assoc]
    rfl

section Spans

variable {front rest : List Char} (hcode : (scanTo front ('{' :: '-' :: rest)).AtCode)

include hcode

theorem spansComment_closed {inside outside : List CommentToken}
    (htokens : commentTokens ('{' :: '-' :: rest) = inside ++ outside)
    (hshortest : ShortestBalanced inside) :
    SpansComment front (spell inside) (spell outside) ∧
      (scanTo (front ++ spell inside) (spell outside)).AtCode := by
  rcases hshortest.exists_body htokens with ⟨body, hinside, hbody, hdepth⟩
  subst hinside
  have hrest : commentTokens rest = body ++ .closing :: outside := by
    simpa [commentTokens_opening] using htokens
  have htext : rest = spell body ++ (['-', '}'] ++ spell outside) := by
    rw [← spell_commentTokens rest, hrest, spell_append]
    rfl
  rw [htext] at hrest hcode
  have hlast := blanks_closing (some '{') (spell outside)
  rw [← hdepth] at hlast
  have hblanks := blanks_open hbody hrest hlast
  have hcomment := Blanks.cons (c := '-') (not_atCode_inBracket _ _) rfl hblanks
  rw [← List.append_assoc] at hcode
  have hspans := spansComment_of_blanks hcode rfl hcomment
  have hspell : spell (.opening :: (body ++ [.closing])) =
      '{' :: '-' :: (spell body ++ ['-', '}']) := by
    rw [spell_cons, spell_append]
    rfl
  rw [hspell, hspans.right]
  exact ⟨hspans.left, rfl, rfl⟩

theorem spansComment_unclosed
    (hunbalanced : forall inside outside,
      commentTokens ('{' :: '-' :: rest) = inside ++ outside -> inside ≠ [] -> ¬ Balanced inside) :
    SpansComment front ('{' :: '-' :: rest) [] ∧
      ¬ (scanTo (front ++ '{' :: '-' :: rest) []).AtCode := by
  have hopen : StaysOpen 1 (commentTokens rest) := by
    refine staysOpen_of_ne Nat.one_pos ?_
    intro part more hpart hequal
    refine hunbalanced (.opening :: part) more ?_ (List.cons_ne_nil _ _) ?_
    · rw [commentTokens_opening, hpart]
      rfl
    · exact (balanced_opening_iff part).mpr hequal
  have htext : spell (commentTokens rest) ++ [] = rest := by
    rw [List.append_nil, spell_commentTokens]
  have htokens : commentTokens (spell (commentTokens rest) ++ ([] ++ [])) =
      commentTokens rest ++ [] := by
    rw [List.append_nil, htext, List.append_nil]
  have hblanks := blanks_open hopen htokens (Blanks.nil (inComment _ (some '{')) [])
  rw [htext] at hblanks
  have hcomment := Blanks.cons (c := '-') (not_atCode_inBracket _ _) rfl hblanks
  have hspans := spansComment_of_blanks (by rwa [List.append_nil]) rfl hcomment
  rw [hspans.right]
  exact ⟨hspans.left, not_atCode_blockComment _ _⟩

end Spans

/-- A block comment that the scanner meets in code ends behind the shortest balanced beginning of
its tokens, and at the end of the text if no beginning is balanced. -/
theorem comment_ends_balanced {front rest : List Char}
    (hcode : (scanTo front ('{' :: '-' :: rest)).AtCode) :
    (forall inside outside, commentTokens ('{' :: '-' :: rest) = inside ++ outside ->
      ShortestBalanced inside ->
        SpansComment front (spell inside) (spell outside) ∧
          (scanTo (front ++ spell inside) (spell outside)).AtCode) ∧
      ((forall inside outside, commentTokens ('{' :: '-' :: rest) = inside ++ outside ->
        inside ≠ [] -> ¬ Balanced inside) ->
          SpansComment front ('{' :: '-' :: rest) [] ∧
            ¬ (scanTo (front ++ '{' :: '-' :: rest) []).AtCode) :=
  ⟨fun _ _ => spansComment_closed hcode, spansComment_unclosed hcode⟩

/-- Behind `{-`, a nested comment whose brackets overlap with other ones, and then code. -/
def overlappingBrackets : List Char :=
  ['{', '-', '}', '-', '}', '-', '-', '}', 'y']

/-- Its first closing bracket closes the nested comment, and nothing closes the outer one. -/
def unclosedBrackets : List Char :=
  ['{', '-', '-', '}', '{', '}', '\n', 'y']

theorem comment_ends_balanced_overlapping :
    (scanTo ['x', '='] ('{' :: '-' :: overlappingBrackets)).AtCode ∧
      SpansComment ['x', '='] ['{', '-', '{', '-', '}', '-', '}', '-', '-', '}'] ['y'] ∧
      (scanTo ['x', '=', '{', '-', '{', '-', '}', '-', '}', '-', '-', '}'] ['y']).AtCode ∧
      (scanTo ['x', '='] ('{' :: '-' :: unclosedBrackets)).AtCode ∧
      SpansComment ['x', '='] ('{' :: '-' :: unclosedBrackets) [] ∧
      ¬ (scanTo ('x' :: '=' :: '{' :: '-' :: unclosedBrackets) []).AtCode := by
  have hcode : (scanTo ['x', '='] ('{' :: '-' :: overlappingBrackets)).AtCode := by decide
  have htokens : commentTokens ('{' :: '-' :: overlappingBrackets) =
      [.opening, .opening, .other '}', .closing, .other '-', .closing] ++ [.other 'y'] := by decide
  have hclosed := (comment_ends_balanced hcode).left _ _ htokens (by decide)
  have hother : (scanTo ['x', '='] ('{' :: '-' :: unclosedBrackets)).AtCode := by decide
  have hunbalanced : forall inside,
      inside ∈ (commentTokens ('{' :: '-' :: unclosedBrackets)).inits ->
        inside ≠ [] -> ¬ Balanced inside := by decide
  have hunclosed := (comment_ends_balanced hother).right fun inside outside htokens =>
    hunbalanced inside ((List.mem_inits _ _).mpr ⟨outside, htokens.symm⟩)
  exact ⟨hcode, hclosed.left, hclosed.right, hother, hunclosed⟩

end Syntax
end ElmNavigator
