import ElmNavigator.Proofs.Syntax.Chunks
import ElmNavigator.Proofs.Syntax.ScannerRuns

/-!
# Chunks of texts put together

A text that ends a line is cut into lines on its own.  If what follows starts a
chunk, the chunks of the two texts follow each other, and those of the second
text are only moved.
-/

namespace ElmNavigator
namespace Syntax

open Text

theorem rawLines_ne_nil {c : Char} {cs : List Char} : rawLines (c :: cs) ≠ [] := by
  unfold rawLines
  split
  · simp
  · split
    · simp
    · simp

theorem rawLines_append {a : List Char} (h : EndsLine a) (b : List Char) :
    rawLines (a ++ b) = rawLines a ++ rawLines b := by
  induction a with
  | nil => rfl
  | cons c cs ih =>
      have hrest := ih h.of_cons.left
      rw [List.cons_append, rawLines, rawLines]
      split
      · rw [hrest]
        rfl
      · rename_i hc
        cases cs with
        | nil => exact absurd (h.of_cons.right rfl) hc
        | cons d ds =>
            rw [hrest]
            cases hlines : rawLines (d :: ds) with
            | nil => exact absurd hlines rawLines_ne_nil
            | cons line lines => rfl

theorem exists_rawLines_cons (c : Char) (cs : List Char) :
    exists line lines, rawLines (c :: cs) = (c :: line) :: lines := by
  rw [rawLines]
  split
  · exact ⟨[], rawLines cs, rfl⟩
  · cases rawLines cs with
    | nil => exact ⟨[], [], rfl⟩
    | cons line lines => exact ⟨line, lines, rfl⟩

/-!
## A chunk starts at the seam
-/

/-- Texts whose first character is there and is not blank. -/
def StartsWord (text : List Char) : Prop :=
  exists c cs, text = c :: cs ∧ isBlank c = false

theorem StartsWord.append {a : List Char} (h : StartsWord a) (b : List Char) :
    StartsWord (a ++ b) := by
  rcases h with ⟨c, cs, ha, hc⟩
  exact ⟨c, cs ++ b, by rw [ha]; rfl, hc⟩

theorem collectChunks_cons (offset : Nat) (line : List Char) (lines : List (List Char)) :
    collectChunks offset (line :: lines) =
      if startsChunk line then
        ([], { start := offset, text := trimEnd isBlank
                (line ++ (collectChunks (offset + byteLength line) lines).1) } ::
          (collectChunks (offset + byteLength line) lines).2)
      else
        (line ++ (collectChunks (offset + byteLength line) lines).1,
          (collectChunks (offset + byteLength line) lines).2) := rfl

theorem collectChunks_of_startsChunk {line : List Char} (h : startsChunk line = true)
    (offset : Nat) (lines : List (List Char)) :
    (collectChunks offset (line :: lines)).1 = [] := by
  rw [collectChunks_cons, if_pos h]

theorem collectChunks_append {front back : List (List Char)} {line : List Char}
    (h : startsChunk line = true) (offset : Nat) :
    collectChunks offset (front ++ line :: back) =
      ((collectChunks offset front).1,
        (collectChunks offset front).2 ++
          (collectChunks (offset + byteLength front.flatten) (line :: back)).2) := by
  induction front generalizing offset with
  | nil =>
      rw [List.nil_append, List.flatten_nil, byteLength_nil, Nat.add_zero]
      apply Prod.ext
      · exact collectChunks_of_startsChunk h offset back
      · rfl
  | cons first front ih =>
      rw [List.cons_append, collectChunks_cons offset first, ih (offset + byteLength first),
        collectChunks_cons offset first front, List.flatten_cons, byteLength_append,
        ← Nat.add_assoc]
      cases startsChunk first with
      | true => rfl
      | false => rfl

theorem chunksFrom_append {a b : List Char} (ha : EndsLine a) (hb : StartsWord b)
    (offset : Nat) :
    chunksFrom offset (a ++ b) =
      chunksFrom offset a ++ chunksFrom (offset + byteLength a) b := by
  rcases hb with ⟨c, cs, hcs, hc⟩
  rcases exists_rawLines_cons c cs with ⟨line, lines, hlines⟩
  have hstarts : startsChunk (c :: line) = true := by
    simp [startsChunk, hc]
  unfold chunksFrom
  rw [rawLines_append ha, hcs, hlines, collectChunks_append hstarts, flatten_rawLines]

/-!
## Lines that start no chunk
-/

theorem collectChunks_of_blank {blanks : List (List Char)}
    (h : forall line, line ∈ blanks -> startsChunk line = false) (offset : Nat)
    (lines : List (List Char)) :
    collectChunks offset (blanks ++ lines) =
      (blanks.flatten ++ (collectChunks (offset + byteLength blanks.flatten) lines).1,
        (collectChunks (offset + byteLength blanks.flatten) lines).2) := by
  induction blanks generalizing offset with
  | nil => rfl
  | cons line blanks ih =>
      have hline := h line List.mem_cons_self
      rw [List.cons_append, collectChunks_cons,
        ih (fun other hother => h other (List.mem_cons_of_mem line hother)), hline,
        List.flatten_cons, byteLength_append, ← Nat.add_assoc, List.append_assoc]
      rfl

theorem startsChunk_of_allBlank {text line : List Char} (h : AllBlank text)
    (hline : line ∈ rawLines text) : startsChunk line = false := by
  cases line with
  | nil => rfl
  | cons c cs =>
      have hmem : c ∈ (rawLines text).flatten :=
        List.mem_flatten.mpr ⟨c :: cs, hline, List.mem_cons_self⟩
      rw [flatten_rawLines] at hmem
      simp [startsChunk, h c hmem]

/-!
## Moving chunks
-/

def Chunk.moveBy (distance : Nat) (chunk : Chunk) : Chunk :=
  { start := chunk.start + distance, text := chunk.text }

theorem collectChunks_moveBy (distance offset : Nat) (lines : List (List Char)) :
    collectChunks (offset + distance) lines =
      ((collectChunks offset lines).1,
        (collectChunks offset lines).2.map (Chunk.moveBy distance)) := by
  induction lines generalizing offset with
  | nil => rfl
  | cons line lines ih =>
      rw [collectChunks_cons, Nat.add_right_comm, ih, collectChunks_cons]
      cases startsChunk line with
      | true => rfl
      | false => rfl

theorem chunksFrom_moveBy (distance : Nat) (text : List Char) :
    chunksFrom distance text = (chunksFrom 0 text).map (Chunk.moveBy distance) := by
  unfold chunksFrom
  have hmove := collectChunks_moveBy distance 0 (rawLines text)
  rw [Nat.zero_add] at hmove
  rw [hmove]

/-!
## Sources
-/

theorem sourceChunks_append {source rest : List Char} (hne : source ≠ [])
    (hsource : EndsLine source) (hrest : StartsWord (maskFrom (scan source) rest)) :
    sourceChunks (source ++ rest) =
      sourceChunks source ++
        (chunksFrom 0 (maskFrom (scan source) rest)).map
          (Chunk.moveBy (byteLength source)) := by
  have hlines := hsource.unmarked
  have hmask : maskFrom Scanner.start (unmarked source ++ rest) =
      maskFrom Scanner.start (unmarked source) ++ maskFrom (scan source) rest :=
    maskFrom_append hlines Scanner.start rest
  rw [sourceChunks_eq, sourceChunks_eq source, unmarked_append hne, markLength_append hne,
    hmask, chunksFrom_append (hlines.maskFrom _) hrest, byteLength_maskFrom, markLength_add,
    chunksFrom_moveBy (byteLength source)]

end Syntax
end ElmNavigator
