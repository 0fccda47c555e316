import ElmNavigator.Proofs.Syntax.ErrorPlaces
import ElmNavigator.Proofs.Syntax.NameOrder

/-!
# What chunks cover

Chunking loses nothing and keeps nothing twice.  The chunks of a text stand one
behind the other, each starts at a line whose first character is not blank and
ends with its last character that is not blank, and from the first chunk on every
such character is in exactly one of them.  These laws leave no choice: a list of
chunks that obeys them is the list of the chunks.
-/

namespace ElmNavigator
namespace Syntax

open Text

/-- A line whose first character is not blank starts at a place of a text that starts at an
offset. -/
def WordLineAt (offset : Nat) (text : List Char) (place : Nat) : Prop :=
  exists before after, text = before ++ after ∧ EndsLine before ∧ StartsWord after ∧
    place = offset + byteLength before

/-- A single character that is not blank stands between two places of a text that starts at an
offset. -/
def ShownBetween (offset : Nat) (text : List Char) (start stop : Nat) : Prop :=
  exists before c after, text = before ++ c :: after ∧ isBlank c = false ∧
    start = offset + byteLength before ∧ stop = start + c.utf8Size

/-- A list of chunks obeys the laws of chunking in a text that starts at an offset. -/
structure Chunking (offset : Nat) (text : List Char) (chunks : List Chunk) : Prop where
  /-- Both ends of a chunk are between characters, and its text is what stands there. -/
  stands : forall chunk, chunk ∈ chunks -> chunk.StandsIn offset text
  nonempty : forall chunk, chunk ∈ chunks -> chunk.start < chunk.stop
  ordered : chunks.Pairwise fun earlier later => earlier.stop ≤ later.start
  starts : forall place,
    (exists chunk, chunk ∈ chunks ∧ chunk.start = place) ↔ WordLineAt offset text place
  stops : forall chunk, chunk ∈ chunks ->
    exists last, chunk.start ≤ last ∧ ShownBetween offset text last chunk.stop
  covers : forall first, chunks.head? = some first ->
    forall start stop, ShownBetween offset text start stop -> first.start ≤ start ->
      ∃! chunk, chunk ∈ chunks ∧ chunk.start ≤ start ∧ stop ≤ chunk.stop

theorem ShownBetween.lt {offset start stop : Nat} {text : List Char}
    (h : ShownBetween offset text start stop) : start < stop := by
  rcases h with ⟨_, c, _, _, _, _, hstop⟩
  have hpos := c.utf8Size_pos
  omega

/-!
## Starts
-/

theorem EndsLine.cons {c : Char} {cs : List Char} (h : EndsLine cs)
    (hc : cs = [] -> c = '\n') : EndsLine (c :: cs) := by
  rcases h with hnil | ⟨front, hfront⟩
  · exact Or.inr ⟨[], by rw [hnil, hc hnil]; rfl⟩
  · exact Or.inr ⟨c :: front, by rw [hfront]; rfl⟩

theorem endsLine_of_rawLines {text line : List Char} {front back : List (List Char)}
    (h : rawLines text = front ++ line :: back) : EndsLine front.flatten := by
  induction text generalizing front with
  | nil =>
      simp [rawLines] at h
  | cons c cs ih =>
      cases front with
      | nil => exact Or.inl rfl
      | cons first front =>
          rw [rawLines] at h
          split at h
          · rename_i hc
            injection h with hfirst hrest
            rw [List.flatten_cons, ← hfirst]
            exact (ih hrest).cons fun _ => hc
          · cases cs with
            | nil => simp [rawLines] at h
            | cons d ds =>
                rcases exists_rawLines_cons d ds with ⟨row, rows, hlines⟩
                rw [hlines] at h
                injection h with hfirst hrest
                have hfront : EndsLine ((d :: row) :: front).flatten :=
                  ih (by rw [hlines, hrest]; rfl)
                rw [List.flatten_cons, ← hfirst]
                exact hfront.cons fun hnil => by simp at hnil

theorem startsWord_of_startsChunk {line : List Char} (h : startsChunk line = true) :
    StartsWord line := by
  cases line with
  | nil => cases h
  | cons c line => exact ⟨c, line, rfl, by simpa [startsChunk] using h⟩

/-- A chunk starts with a line that starts one. -/
theorem exists_line_of_mem {offset : Nat} {lines : List (List Char)} {chunk : Chunk}
    (h : chunk ∈ (collectChunks offset lines).2) :
    exists front line back, lines = front ++ line :: back ∧ startsChunk line = true ∧
      chunk.start = offset + byteLength front.flatten := by
  induction lines generalizing offset with
  | nil => cases h
  | cons line lines ih =>
      have hlater : chunk ∈ (collectChunks (offset + byteLength line) lines).2 ->
          exists front first back, line :: lines = front ++ first :: back ∧
            startsChunk first = true ∧ chunk.start = offset + byteLength front.flatten := by
        intro hmem
        rcases ih hmem with ⟨front, first, back, hlines, hfirst, hstart⟩
        refine ⟨line :: front, first, back, by rw [hlines]; rfl, hfirst, ?_⟩
        rw [hstart, List.flatten_cons, byteLength_append, Nat.add_assoc]
      rw [collectChunks_cons] at h
      split at h
      · rename_i hstarts
        rcases List.mem_cons.mp h with hfirst | hrest
        · exact ⟨[], line, lines, rfl, hstarts, by rw [hfirst]; rfl⟩
        · exact hlater hrest
      · exact hlater h

theorem exists_chunk_of_startsWord {text : List Char} (h : StartsWord text) (offset : Nat) :
    exists chunk, chunk ∈ chunksFrom offset text ∧ chunk.start = offset := by
  rcases h with ⟨c, cs, htext, hc⟩
  rcases exists_rawLines_cons c cs with ⟨line, lines, hlines⟩
  have hstarts : startsChunk (c :: line) = true := by
    simp [startsChunk, hc]
  unfold chunksFrom
  rw [htext, hlines, collectChunks_cons, if_pos hstarts]
  exact ⟨_, List.mem_cons_self, rfl⟩

theorem chunksFrom_starts (offset : Nat) (text : List Char) (place : Nat) :
    (exists chunk, chunk ∈ chunksFrom offset text ∧ chunk.start = place) ↔
      WordLineAt offset text place := by
  constructor
  · intro h
    rcases h with ⟨chunk, hchunk, hplace⟩
    rcases exists_line_of_mem hchunk with ⟨front, line, back, hlines, hstarts, hstart⟩
    have htext : text = front.flatten ++ (line ++ back.flatten) := by
      rw [← flatten_rawLines text, hlines, List.flatten_append, List.flatten_cons]
    exact ⟨front.flatten, line ++ back.flatten, htext, endsLine_of_rawLines hlines,
      (startsWord_of_startsChunk hstarts).append back.flatten, hplace.symm.trans hstart⟩
  · intro h
    rcases h with ⟨before, after, htext, hbefore, hafter, hplace⟩
    rcases exists_chunk_of_startsWord hafter (offset + byteLength before) with
      ⟨chunk, hchunk, hstart⟩
    refine ⟨chunk, ?_, hstart.trans hplace.symm⟩
    rw [htext, chunksFrom_append hbefore hafter]
    exact List.mem_append_right _ hchunk

/-!
## Ends
-/

theorem chunksFrom_nonempty {offset : Nat} {text : List Char} {chunk : Chunk}
    (h : chunk ∈ chunksFrom offset text) : chunk.start < chunk.stop := by
  rcases (collectChunks_words h).left with ⟨c, cs, htext, _⟩
  have hpos : 0 < byteLength chunk.text := byteLength_pos (by simp [htext])
  unfold Chunk.stop
  omega

theorem chunksFrom_stops {offset : Nat} {text : List Char} {chunk : Chunk}
    (h : chunk ∈ chunksFrom offset text) :
    exists last, chunk.start ≤ last ∧ ShownBetween offset text last chunk.stop := by
  rcases chunksFrom_standsIn h with ⟨before, after, htext, hstart⟩
  rcases collectChunks_words h with ⟨⟨first, others, hfirst, _⟩, hlast⟩
  rcases List.eq_nil_or_concat chunk.text with hnil | ⟨front, c, hchunk⟩
  · rw [hfirst] at hnil
    cases hnil
  · rw [List.concat_eq_append] at hchunk
    have hc : isBlank c = false := hlast c (by rw [hchunk, List.getLast?_concat])
    have hplace : chunk.start + byteLength front = offset + byteLength (before ++ front) := by
      rw [hstart, byteLength_append, Nat.add_assoc]
    have hstop : chunk.stop = chunk.start + byteLength front + c.utf8Size := by
      rw [Chunk.stop, hchunk, byteLength_append, ← Nat.add_assoc]
      rfl
    exists chunk.start + byteLength front
    constructor
    · exact Nat.le_add_right chunk.start (byteLength front)
    · exact ⟨before ++ front, c, after, by simp [htext, hchunk], hc, hplace, hstop⟩

/-!
## Order
-/

theorem chunksFrom_ordered (offset : Nat) (text : List Char) :
    (chunksFrom offset text).Pairwise fun earlier later => earlier.stop ≤ later.start :=
  List.pairwise_map.mp (collectChunks_inOrder offset (rawLines text)).pairwise

theorem collectChunks_start_le {offset : Nat} {lines : List (List Char)} {chunk : Chunk}
    (h : chunk ∈ (collectChunks offset lines).2) :
    offset + byteLength (collectChunks offset lines).1 ≤ chunk.start :=
  (collectChunks_inOrder offset lines).start_le (List.mem_map_of_mem h)

/-!
## Cover
-/

theorem byteLength_trimEnd_of_shown {c : Char} (hc : isBlank c = false)
    (before rest : List Char) :
    byteLength before + c.utf8Size ≤ byteLength (trimEnd isBlank (before ++ c :: rest)) := by
  rw [trimEnd_append_cons hc, byteLength_append, byteLength_cons]
  omega

theorem exists_of_lt_byteLength {front back before after : List Char} {c : Char}
    (h : front ++ back = before ++ c :: after) (hlt : byteLength before < byteLength front) :
    exists rest, front = before ++ c :: rest := by
  rcases exists_between h.symm (Nat.le_of_lt hlt) with ⟨between, hfront, hafter⟩
  cases between with
  | nil =>
      rw [hfront, List.append_nil] at hlt
      exact absurd hlt (Nat.lt_irrefl _)
  | cons d rest =>
      injection hafter with hd _
      exact ⟨rest, by rw [hfront, hd]⟩

theorem collectChunks_covers (offset : Nat) {lines : List (List Char)}
    {before after : List Char} {c : Char} (h : lines.flatten = before ++ c :: after)
    (hc : isBlank c = false) :
    byteLength before < byteLength (collectChunks offset lines).1 ∨
      exists chunk, chunk ∈ (collectChunks offset lines).2 ∧
        chunk.start ≤ offset + byteLength before ∧
        offset + byteLength before + c.utf8Size ≤ chunk.stop := by
  induction lines generalizing offset before with
  | nil =>
      simp at h
  | cons line lines ih =>
      rcases collectChunks_continuation (offset + byteLength line) lines with ⟨behind, hbehind⟩
      -- The line and what continues it up to the next chunk.
      generalize hpart : line ++ (collectChunks (offset + byteLength line) lines).1 = part
      have hparts : part ++ behind = before ++ c :: after := by
        rw [← h, List.flatten_cons, hbehind, ← hpart, List.append_assoc]
      have hlength : byteLength part = byteLength line +
          byteLength (collectChunks (offset + byteLength line) lines).1 := by
        rw [← hpart, byteLength_append]
      by_cases hinside : byteLength before < byteLength part
      · rw [collectChunks_cons, hpart]
        split
        · refine Or.inr ⟨_, List.mem_cons_self, Nat.le_add_right _ _, ?_⟩
          rcases exists_of_lt_byteLength hparts hinside with ⟨rest, hrest⟩
          have hkept := byteLength_trimEnd_of_shown hc before rest
          rw [← hrest] at hkept
          show _ ≤ offset + byteLength (trimEnd isBlank part)
          omega
        · exact Or.inl hinside
      · -- Behind that part, the character is in a chunk of the lines that follow.
        rw [List.flatten_cons] at h
        rcases exists_between h (by omega) with ⟨inner, hbefore, hlines⟩
        have hinner : byteLength before = byteLength line + byteLength inner := by
          rw [hbefore, byteLength_append]
        rcases ih (offset + byteLength line) hlines with
          hfront | ⟨chunk, hchunk, hstart, hstop⟩
        · omega
        · refine Or.inr ⟨chunk, ?_, by omega, by omega⟩
          rw [collectChunks_cons]
          split
          · exact List.mem_cons_of_mem _ hchunk
          · exact hchunk

theorem chunksFrom_covers {offset start stop : Nat} {text : List Char} {first : Chunk}
    (hfirst : first ∈ chunksFrom offset text) (h : ShownBetween offset text start stop)
    (hle : first.start ≤ start) :
    exists chunk, chunk ∈ chunksFrom offset text ∧ chunk.start ≤ start ∧ stop ≤ chunk.stop := by
  rcases h with ⟨before, c, after, htext, hc, hstart, hstop⟩
  rw [← flatten_rawLines text] at htext
  have hbehind := collectChunks_start_le hfirst
  rcases collectChunks_covers offset htext hc with hfront | ⟨chunk, hchunk, hlow, hhigh⟩
  · omega
  · exact ⟨chunk, hchunk, by omega, by omega⟩

/-!
## The laws leave no choice
-/

theorem apart_of_ordered {chunks : List Chunk}
    (h : chunks.Pairwise fun earlier later => earlier.stop ≤ later.start)
    {a b : Chunk} (ha : a ∈ chunks) (hb : b ∈ chunks) :
    a = b ∨ a.stop ≤ b.start ∨ b.stop ≤ a.start := by
  refine List.Pairwise.forall_of_forall_of_flip
    (R := fun a b : Chunk => a = b ∨ a.stop ≤ b.start ∨ b.stop ≤ a.start) ?_ ?_ ?_ ha hb
  · exact fun _ _ => Or.inl rfl
  · exact h.imp fun hle => Or.inr (Or.inl hle)
  · exact h.imp fun hle => Or.inr (Or.inr hle)

theorem chunksFrom_chunking (offset : Nat) (text : List Char) :
    Chunking offset text (chunksFrom offset text) where
  stands _ := chunksFrom_standsIn
  nonempty _ := chunksFrom_nonempty
  ordered := chunksFrom_ordered offset text
  starts := chunksFrom_starts offset text
  stops _ := chunksFrom_stops
  covers := by
    intro first hfirst start stop hshown hle
    rcases chunksFrom_covers (List.mem_of_head? hfirst) hshown hle with
      ⟨chunk, hchunk, hstart, hstop⟩
    refine ⟨chunk, ⟨hchunk, hstart, hstop⟩, ?_⟩
    intro other hholds
    rcases hholds with ⟨hother, hotherStart, hotherStop⟩
    have hlt := hshown.lt
    rcases apart_of_ordered (chunksFrom_ordered offset text) hother hchunk with
      heq | hbefore | hbehind
    · exact heq
    · omega
    · omega

theorem Chunk.StandsIn.ext {offset : Nat} {text : List Char} {a b : Chunk}
    (ha : a.StandsIn offset text) (hb : b.StandsIn offset text) (hstart : a.start = b.start)
    (hstop : a.stop = b.stop) : a = b := by
  rcases ha with ⟨before, after, htext, hbefore⟩
  rcases hb with ⟨before', after', htext', hbefore'⟩
  rw [htext, List.append_assoc, List.append_assoc] at htext'
  unfold Chunk.stop at hstop
  have hrest := (append_inj_of_byteLength htext' (by omega)).right
  have hsame : a.text = b.text := (append_inj_of_byteLength hrest (by omega)).left
  cases a
  cases b
  cases hstart
  cases hsame
  rfl

namespace Chunking

variable {offset : Nat} {text : List Char} {chunks others : List Chunk} {chunk other : Chunk}

theorem head_start_le (h : Chunking offset text chunks) (hchunk : chunk ∈ chunks) :
    exists first, chunks.head? = some first ∧ first.start ≤ chunk.start := by
  cases chunks with
  | nil => cases hchunk
  | cons first rest =>
      refine ⟨first, rfl, ?_⟩
      rcases List.mem_cons.mp hchunk with hhead | htail
      · rw [hhead]
      · have hfirst := h.nonempty first List.mem_cons_self
        have hlater := (List.pairwise_cons.mp h.ordered).left chunk htail
        omega

theorem exists_same_start (h : Chunking offset text chunks) (h' : Chunking offset text others)
    (hchunk : chunk ∈ chunks) : exists other, other ∈ others ∧ other.start = chunk.start :=
  (h'.starts chunk.start).mpr ((h.starts chunk.start).mp ⟨chunk, hchunk, rfl⟩)

/-- A chunk reaches as far as any chunk that starts where it does: the last character of that one
is in no other chunk. -/
theorem stop_le_of_same_start (h : Chunking offset text chunks)
    (h' : Chunking offset text others) (hchunk : chunk ∈ chunks) (hother : other ∈ others)
    (hsame : other.start = chunk.start) : chunk.stop ≤ other.stop := by
  rcases h.stops chunk hchunk with ⟨last, hlast, hshown⟩
  rcases h'.head_start_le hother with ⟨first, hfirst, hle⟩
  rcases h'.covers first hfirst last chunk.stop hshown (by omega) with
    ⟨holder, ⟨hholder, hstart, hstop⟩, _⟩
  have hlt := hshown.lt
  rcases apart_of_ordered h'.ordered hholder hother with heq | hbefore | hbehind
  · rwa [← heq]
  · omega
  · -- A holder further back would start a chunk of the first list inside this one.
    rcases h'.exists_same_start h hholder with ⟨twin, htwin, htwinStart⟩
    have hpos := h'.nonempty other hother
    have htwinPos := h.nonempty twin htwin
    rcases apart_of_ordered h.ordered htwin hchunk with heq | hfront | hback
    · rw [heq] at htwinStart
      omega
    · omega
    · omega

theorem mem_of_mem (h : Chunking offset text chunks) (h' : Chunking offset text others)
    (hchunk : chunk ∈ chunks) : chunk ∈ others := by
  rcases h.exists_same_start h' hchunk with ⟨other, hother, hsame⟩
  have hstop : chunk.stop = other.stop :=
    Nat.le_antisymm (h.stop_le_of_same_start h' hchunk hother hsame)
      (h'.stop_le_of_same_start h hother hchunk hsame.symm)
  rwa [(h.stands chunk hchunk).ext (h'.stands other hother) hsame.symm hstop]

theorem nodup (h : Chunking offset text chunks) : chunks.Nodup := by
  apply h.ordered.imp_of_mem
  intro a b ha _ hle heq
  have hpos := h.nonempty a ha
  rw [← heq] at hle
  omega

theorem unique (h : Chunking offset text chunks) (h' : Chunking offset text others) :
    chunks = others := by
  have hperm : chunks.Perm others :=
    (List.perm_ext_iff_of_nodup h.nodup h'.nodup).mpr fun _ => ⟨h.mem_of_mem h', h'.mem_of_mem h⟩
  apply hperm.eq_of_pairwise _ h.ordered h'.ordered
  intro a b ha hb hab hba
  have hapos := h.nonempty a ha
  have hbpos := h'.nonempty b hb
  omega

end Chunking

/-- The chunks of a text are the one list of non-empty ranges between characters, in order and
disjoint, of which one starts at each line whose first character is not blank and nowhere else,
each ends right behind a character that is not blank, and every such character from the first
range on is in exactly one. -/
theorem chunking_iff_eq_chunksFrom (offset : Nat) (text : List Char) (chunks : List Chunk) :
    Chunking offset text chunks ↔ chunks = chunksFrom offset text := by
  constructor
  · intro h
    exact h.unique (chunksFrom_chunking offset text)
  · intro h
    rw [h]
    exact chunksFrom_chunking offset text

-- A chunk keeps the breaks and the indented lines inside it, but no wide blank and no line break
-- at its end.
example : (chunksFrom 0 [' ', 'x', '\n', 'a', '\r', '\n', ' ', 'b', '\u3000', '\n', '\n', 'c']).map
    Chunk.span = [⟨3, 8⟩, ⟨13, 14⟩] := by
  decide

end Syntax
end ElmNavigator
