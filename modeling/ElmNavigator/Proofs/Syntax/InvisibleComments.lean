import ElmNavigator.Proofs.Syntax.ChunkSeams
import ElmNavigator.Proofs.Syntax.Respacing

/-!
# Comments between lines

Blanks and comments that are put between two lines of a module leave its outline
as it is.  The scanner comes back to code behind them and leaves nothing but
blanks, and these lengthen a run of blanks in the chunk that they fall into.
-/

namespace ElmNavigator
namespace Syntax

open Text

/-!
## Comments
-/

/-- Texts that close a number of block comments, and go no further.  A comment opens with `{-` and
closes with `-}`, whichever comes first. -/
inductive Closes : Nat -> List Char -> Prop where
  | last : Closes 1 ['-', '}']
  | inner {n : Nat} {text : List Char} :
      Closes (n + 1) text -> Closes (n + 2) ('-' :: '}' :: text)
  | nested {n : Nat} {text : List Char} :
      Closes (n + 1) text -> Closes n ('{' :: '-' :: text)
  | other {n : Nat} {c : Char} {text : List Char} :
      ¬ (c = '{' ∧ text.head? = some '-') -> ¬ (c = '-' ∧ text.head? = some '}') ->
      Closes n text -> Closes n (c :: text)

/-- Texts made of blanks, line comments with their line feeds, and closed block comments. -/
inductive Gap : List Char -> Prop where
  | nil : Gap []
  | blank {c : Char} {rest : List Char} : isBlank c = true -> Gap rest -> Gap (c :: rest)
  | line {text rest : List Char} :
      '\n' ∉ text -> Gap rest -> Gap ('-' :: '-' :: (text ++ '\n' :: rest))
  | block {text rest : List Char} :
      Closes 1 text -> Gap rest -> Gap ('{' :: '-' :: (text ++ rest))

theorem Closes.ne_nil {n : Nat} {text : List Char} (h : Closes n text) : text ≠ [] := by
  cases h with
  | last => simp
  | inner h => simp
  | nested h => simp
  | other _ _ h => simp

/-!
## What the scanner makes of them
-/

namespace Scanner

/-- From one state to another the scanner leaves nothing but blanks of a text, whatever follows. -/
def Skips (s : Scanner) (text : List Char) (s' : Scanner) : Prop :=
  forall rest, s.run (text ++ rest) = s'.run rest ∧
    exists blanks, AllBlank blanks ∧ maskFrom s (text ++ rest) = blanks ++ maskFrom s' rest

theorem Skips.nil (s : Scanner) : s.Skips [] s := by
  refine fun rest => ⟨rfl, [], ?_, rfl⟩
  intro c hc
  cases hc

theorem Skips.cons {s next s' : Scanner} {c : Char} {text : List Char} (keep : Bool)
    (hkeep : keep = true -> isBlank c = true)
    (hstep : forall rest, s.step c (text ++ rest) = (next, keep))
    (h : next.Skips text s') : s.Skips (c :: text) s' := by
  intro rest
  rcases h rest with ⟨hrun, blanks, hblanks, hmask⟩
  constructor
  · rw [List.cons_append, run, hstep]
    exact hrun
  · refine ⟨(if keep then [c] else blank c) ++ blanks, ?_, ?_⟩
    · intro d hd
      rcases List.mem_append.mp hd with hfirst | hrest
      · split at hfirst
        · rename_i htrue
          rw [List.mem_singleton.mp hfirst]
          exact hkeep htrue
        · exact isBlank_of_mem_blank hfirst
      · exact hblanks d hrest
    · rw [List.cons_append, maskFrom, hstep, List.append_assoc, ← hmask]

theorem Skips.blanked {s next s' : Scanner} {c : Char} {text : List Char}
    (hstep : forall rest, s.step c (text ++ rest) = (next, false))
    (h : next.Skips text s') : s.Skips (c :: text) s' :=
  Skips.cons false (fun hkeep => Bool.noConfusion hkeep) hstep h

theorem Skips.append {s next s' : Scanner} {front text : List Char}
    (hfront : s.Skips front next) (htext : next.Skips text s') :
    s.Skips (front ++ text) s' := by
  intro rest
  rcases hfront (text ++ rest) with ⟨hrun, blanks, hblanks, hmask⟩
  rcases htext rest with ⟨hrunRest, blanksRest, hblanksRest, hmaskRest⟩
  rw [List.append_assoc]
  refine ⟨hrun.trans hrunRest, blanks ++ blanksRest, ?_, ?_⟩
  · intro d hd
    rcases List.mem_append.mp hd with hleft | hright
    · exact hblanks d hleft
    · exact hblanksRest d hright
  · rw [hmask, hmaskRest, List.append_assoc]

theorem skips_blank {c : Char} (h : isBlank c = true) (previous : Option Char) :
    (inCode previous).Skips [c] (inCode (some c)) := by
  have hne {d : Char} (hd : isBlank d = false) : c ≠ d :=
    ne_of_isBlank h hd
  refine Skips.cons true (fun _ => h) ?_ (Skips.nil _)
  intro rest
  simp [step, stepCode, inCode, hne (d := '-') (by decide), hne (d := '{') (by decide),
    hne (d := '"') (by decide), hne (d := '\'') (by decide)]

def inComment (region : Region) (previous : Option Char) : Scanner :=
  { region, previous, pending := 0 }

def inBracket (region : Region) (previous : Option Char) : Scanner :=
  { region, previous, pending := 1 }

theorem skips_bracket {s' : Scanner} {region : Region} {previous : Option Char} (c : Char)
    {text : List Char} (h : (inComment region previous).Skips text s') :
    (inBracket region previous).Skips (c :: text) s' :=
  Skips.blanked (fun _ => rfl) h

theorem skips_line {text : List Char} (h : '\n' ∉ text) (previous : Option Char) :
    (inComment .lineComment previous).Skips (text ++ ['\n']) (inCode previous) := by
  induction text with
  | nil => exact Skips.blanked (fun _ => rfl) (Skips.nil _)
  | cons c text ih =>
      have hc : c ≠ '\n' := fun heq => h (heq ▸ List.mem_cons_self)
      refine Skips.blanked (fun rest => ?_) (ih fun hmem => h (List.mem_cons_of_mem c hmem))
      simp [step, inComment, hc]

theorem skips_block {n : Nat} {text : List Char} (h : Closes n text)
    (previous : Option Char) :
    (inComment (.blockComment n) previous).Skips text (inCode previous) := by
  induction h with
  | last =>
      have hcode : (inComment .code previous).Skips [] (inCode previous) := Skips.nil _
      exact Skips.blanked (fun _ => rfl) (skips_bracket '}' hcode)
  | @inner n text h ih =>
      refine Skips.blanked (fun rest => ?_) (skips_bracket '}' ih)
      simp [step, stepBlock, inComment, inBracket]
  | nested h ih =>
      exact Skips.blanked (fun _ => rfl) (skips_bracket '-' ih)
  | @other n c text hopen hclose h ih =>
      refine Skips.blanked (fun rest => ?_) ih
      have hhead : (text ++ rest).head? = text.head? := by
        cases text with
        | nil => exact absurd rfl h.ne_nil
        | cons d text => rfl
      simp only [step, inComment, stepBlock, hhead]
      simp [hopen, hclose]

theorem skips_gap {text : List Char} (h : Gap text) (previous : Option Char) :
    exists last, (inCode previous).Skips text (inCode last) := by
  induction h generalizing previous with
  | nil => exact ⟨previous, Skips.nil _⟩
  | @blank c rest hc h ih =>
      rcases ih (some c) with ⟨last, hrest⟩
      exact ⟨last, (skips_blank hc previous).append hrest⟩
  | @line text rest htext h ih =>
      rcases ih (some '-') with ⟨last, hrest⟩
      have hline : '\n' ∉ '-' :: text := by
        simp [htext]
      have hcomment := (skips_line hline (some '-')).append hrest
      rw [List.append_assoc] at hcomment
      exact ⟨last, Skips.blanked (fun _ => rfl) hcomment⟩
  | @block text rest htext h ih =>
      rcases ih (some '{') with ⟨last, hrest⟩
      have hcomment := (skips_block htext (some '{')).append hrest
      exact ⟨last, Skips.blanked (fun _ => rfl) (skips_bracket '-' hcomment)⟩

end Scanner

/-!
## Chunks around a gap
-/

theorem exists_line_feed {text : List Char} (h : EndsLine text) :
    forall line, line ∈ rawLines text -> exists front, line = front ++ ['\n'] := by
  induction text with
  | nil =>
      intro line hline
      cases hline
  | cons c cs ih =>
      have hrest := ih h.of_cons.left
      intro line hline
      rw [rawLines] at hline
      split at hline
      · rename_i hc
        rcases List.mem_cons.mp hline with hfirst | hother
        · exact ⟨[], by rw [hfirst, hc]; rfl⟩
        · exact hrest line hother
      · rename_i hc
        cases cs with
        | nil => exact absurd (h.of_cons.right rfl) hc
        | cons d ds =>
            rcases exists_rawLines_cons d ds with ⟨first, others, hlines⟩
            rw [hlines] at hline hrest
            simp only at hline
            rcases List.mem_cons.mp hline with hfirst | hother
            · rcases hrest (d :: first) List.mem_cons_self with ⟨front, hfront⟩
              exact ⟨c :: front, by rw [hfirst, hfront]; rfl⟩
            · exact hrest line (List.mem_cons_of_mem _ hother)

/-- Lines that are read alike: their chunks differ in blanks only, and so does what comes in front
of the first chunk, read as the end of a line and what follows. -/
structure AlikeLines (r r' : List Char × List Chunk) : Prop where
  before : Respaced ('\n' :: r.1) ('\n' :: r'.1)
  chunks : List.Forall₂ respacing.SameChunk r.2 r'.2

theorem AlikeLines.cons {line : List Char} {lines others : List (List Char)}
    (hline : exists front, line = front ++ ['\n'])
    (h : forall offset other, AlikeLines (collectChunks offset lines) (collectChunks other others))
    (offset other : Nat) :
    AlikeLines (collectChunks offset (line :: lines)) (collectChunks other (line :: others)) := by
  have hlines := h (offset + byteLength line) (other + byteLength line)
  have htext : Respaced (line ++ (collectChunks (offset + byteLength line) lines).1)
      (line ++ (collectChunks (other + byteLength line) others).1) := by
    rcases hline with ⟨front, hfront⟩
    rw [hfront, List.append_assoc, List.append_assoc]
    exact (hfront ▸ hlines.before).append_left front
  rw [collectChunks_cons, collectChunks_cons]
  split
  · exact ⟨Respaced.refl _, List.Forall₂.cons htext.trimEnd hlines.chunks⟩
  · exact ⟨Respaced.same '\n' htext, hlines.chunks⟩

theorem AlikeLines.append {front lines others : List (List Char)}
    (hfront : forall line, line ∈ front -> exists text, line = text ++ ['\n'])
    (h : forall offset other, AlikeLines (collectChunks offset lines) (collectChunks other others))
    (offset other : Nat) :
    AlikeLines (collectChunks offset (front ++ lines)) (collectChunks other (front ++ others)) := by
  induction front generalizing offset other with
  | nil => exact h offset other
  | cons line front ih =>
      exact AlikeLines.cons (hfront line List.mem_cons_self)
        (ih fun text htext => hfront text (List.mem_cons_of_mem line htext)) offset other

theorem sameChunk_moves (chunks : List Chunk) (m n : Nat) :
    List.Forall₂ respacing.SameChunk (chunks.map (Chunk.moveBy m))
      (chunks.map (Chunk.moveBy n)) := by
  induction chunks with
  | nil => exact List.Forall₂.nil
  | cons chunk chunks ih => exact List.Forall₂.cons (Respaced.refl chunk.text) ih

theorem sameChunk_gap {front blanks : List Char} (hfront : EndsLine front)
    (hlines : EndsLine blanks) (hblanks : AllBlank blanks) (rest : List Char)
    (offset other : Nat) :
    List.Forall₂ respacing.SameChunk (chunksFrom offset (front ++ rest))
      (chunksFrom other (front ++ (blanks ++ rest))) := by
  have hfeed : AllBlank ['\n'] := by
    intro c hc
    rw [List.mem_singleton.mp hc]
    decide
  have hlonger : AllBlank ('\n' :: blanks) := by
    intro c hc
    rcases List.mem_cons.mp hc with hfirst | hrest
    · exact hfeed c (hfirst ▸ List.mem_cons_self)
    · exact hblanks c hrest
  have hbase : forall offset other, AlikeLines (collectChunks offset (rawLines rest))
      (collectChunks other (rawLines blanks ++ rawLines rest)) := by
    intro offset other
    have hleft := collectChunks_moveBy offset 0 (rawLines rest)
    have hright := collectChunks_moveBy (other + byteLength blanks) 0 (rawLines rest)
    rw [Nat.zero_add] at hleft hright
    rw [collectChunks_of_blank (fun _ => startsChunk_of_allBlank hblanks), flatten_rawLines,
      hleft, hright]
    exact ⟨Respaced.gap hfeed hlonger (Respaced.refl _), sameChunk_moves _ _ _⟩
  unfold chunksFrom
  rw [rawLines_append hfront, rawLines_append hfront, rawLines_append hlines]
  exact (AlikeLines.append (exists_line_feed hfront) hbase offset other).chunks

theorem Gap.head?_ne {text : List Char} (h : Gap text) : text.head? ≠ some byteOrderMark := by
  cases h with
  | nil => simp
  | @blank c rest hc _ =>
      intro hmark
      injection hmark with hmark
      rw [hmark] at hc
      revert hc
      decide
  | line _ _ => simp [byteOrderMark]
  | block _ _ => simp [byteOrderMark]

theorem unmarked_append_of_head {source rest : List Char}
    (h : source = [] -> rest.head? ≠ some byteOrderMark) :
    unmarked (source ++ rest) = unmarked source ++ rest := by
  cases source with
  | nil => simp [unmarked, h rfl]
  | cons c cs => exact unmarked_append (List.cons_ne_nil c cs) rest

theorem sourceChunks_gap {a b c : List Char} (ha : EndsLine (unmarked a))
    (hcode : (scan a).region = .code) (hquote : b.head? ≠ some '\'')
    (hmark : b.head? = some byteOrderMark -> a ≠ []) (hgap : Gap c) (hline : EndsLine c) :
    List.Forall₂ respacing.SameChunk (sourceChunks (a ++ b)) (sourceChunks (a ++ (c ++ b))) := by
  rcases Scanner.run_eq_inCode hcode with ⟨previous, hscan⟩
  rcases Scanner.skips_gap hgap previous with ⟨last, hskips⟩
  have hblanks : AllBlank (maskFrom (Scanner.inCode previous) c) := by
    rcases hskips [] with ⟨_, blanks, hblanks, hmask⟩
    rw [List.append_nil] at hmask
    rw [hmask]
    simpa [maskFrom] using hblanks
  have hrun : (Scanner.inCode previous).run c = Scanner.inCode last := by
    have hrun := (hskips []).left
    rwa [List.append_nil] at hrun
  have hgapMark : a = [] -> (c ++ b).head? ≠ some byteOrderMark := by
    intro hnil
    cases c with
    | nil => exact fun hb => hmark hb hnil
    | cons d ds => exact hgap.head?_ne
  rw [sourceChunks_eq, sourceChunks_eq, unmarked_append_of_head fun hnil hb => hmark hb hnil,
    unmarked_append_of_head hgapMark, maskFrom_append ha, maskFrom_append ha, hscan,
    maskFrom_append hline, hrun, maskFrom_inCode hquote previous last]
  exact sameChunk_gap (ha.maskFrom _) (hline.maskFrom _) hblanks _ _ _

/-!
## The outline does not change
-/

def withoutPlaces {ℓ : Type} :
    Except ParseError (Outline ℓ) -> Except ParseFailure (Outline Unit)
  | .ok m => .ok (m.map fun _ => ())
  | .error e => .error e.failure

theorem withoutPlaces_parse (source : String) :
    withoutPlaces (parse source) = withoutPlaces (readOutline source.toList) := by
  unfold parse
  cases readOutline source.toList with
  | error e => rfl
  | ok m => exact congrArg Except.ok (Outline.map_map _ _ m)

/-- Blanks and comments that are put in front of a line, or behind a byte order mark, change
nothing but places. -/
theorem parse_insert_gap {a b c : String} (ha : EndsLine (unmarked a.toList))
    (hcode : (scan a.toList).region = .code) (hquote : b.toList.head? ≠ some '\'')
    (hmark : b.toList.head? = some byteOrderMark -> a.toList ≠ []) (hgap : Gap c.toList)
    (hline : EndsLine c.toList) :
    withoutPlaces (parse (a ++ c ++ b)) = withoutPlaces (parse (a ++ b)) := by
  have hchunks := sourceChunks_gap ha hcode hquote hmark hgap hline
  have halike := respacing_lawful.readOutline trivial hchunks
  rw [withoutPlaces_parse, withoutPlaces_parse, String.toList_append, String.toList_append,
    String.toList_append, List.append_assoc]
  generalize readOutline (a.toList ++ b.toList) = plain,
    readOutline (a.toList ++ (c.toList ++ b.toList)) = commented at halike
  cases halike with
  | error _ => rfl
  | ok hsame => exact congrArg Except.ok hsame.symm

def nestedComments : String :=
  "--'\n\x7b-\x7b--\x7d-\x7d\n"

theorem gap_nestedComments : Gap nestedComments.toList := by
  have hblock : Gap ('{' :: '-' :: (['{', '-', '-', '}', '-', '}'] ++ ['\n'])) :=
    Gap.block (Closes.nested (Closes.inner Closes.last)) (Gap.blank (by decide) Gap.nil)
  have hline : Gap ('-' :: '-' :: (['\''] ++ '\n' :: _)) := Gap.line (by decide) hblock
  exact hline

theorem parse_insert_gap_in_header :
    EndsLine (unmarked "module A exposing\n".toList) ∧
      (scan "module A exposing\n".toList).region = .code ∧
      " (f)\nf = 1\n".toList.head? ≠ some '\'' ∧
      (" (f)\nf = 1\n".toList.head? = some byteOrderMark -> "module A exposing\n".toList ≠ []) ∧
      Gap nestedComments.toList ∧ EndsLine nestedComments.toList ∧
      withoutPlaces (parse ("module A exposing\n" ++ nestedComments ++ " (f)\nf = 1\n")) =
        withoutPlaces (parse ("module A exposing\n" ++ " (f)\nf = 1\n")) := by
  have ha : EndsLine (unmarked "module A exposing\n".toList) := by decide
  have hcode : (scan "module A exposing\n".toList).region = .code := by decide +kernel
  have hquote : " (f)\nf = 1\n".toList.head? ≠ some '\'' := by decide
  have hmark : " (f)\nf = 1\n".toList.head? = some byteOrderMark ->
      "module A exposing\n".toList ≠ [] := by decide
  have hline : EndsLine nestedComments.toList := by decide
  exact ⟨ha, hcode, hquote, hmark, gap_nestedComments, hline,
    parse_insert_gap ha hcode hquote hmark gap_nestedComments hline⟩

end Syntax
end ElmNavigator
