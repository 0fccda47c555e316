import ElmNavigator.Proofs.Syntax.AlignedGrammar
import ElmNavigator.Proofs.Syntax.ChunkSeams
import ElmNavigator.Proofs.Syntax.NamePlaces

/-!
# Where reading stops

A source is a module if the grammar reads each of its chunks, and otherwise the
first chunk that it does not read says where the error is.  No rule ends between
two blanks, whether it succeeds or stops: it has just read a word, or a word
follows, or nothing does.  So the place of an error is at an end of a character
that the mask has kept, and never inside one that has turned into several blanks.
-/

namespace ElmNavigator
namespace Syntax

open Text Rule

/-!
## Seams
-/

/-- Behind an origin, a cursor that does not stand between two blanks. -/
def Cursor.AtSeam (origin cur : Cursor) : Prop :=
  exists read, origin.Steps read cur ∧
    ((forall c, read.getLast? = some c -> isBlank c = false) ∨
      forall c, cur.rest.head? = some c -> isBlank c = false)

namespace Cursor

variable {origin cur next : Cursor} {text : List Char}

theorem AtSeam.refl (cur : Cursor) : cur.AtSeam cur :=
  ⟨[], Steps.refl cur, Or.inl fun _ hc => by cases hc⟩

theorem Steps.eq_of_nil (h : cur.Steps [] next) : next = cur := by
  rcases cur with ⟨offset, rest⟩
  rcases next with ⟨offsetNext, restNext⟩
  rcases h with ⟨hrest, hoffset⟩
  simp only [List.nil_append, byteLength_nil, Nat.add_zero] at hrest hoffset
  rw [hrest, hoffset]

theorem AtSeam.read_unbroken (h : origin.AtSeam cur) (hsteps : cur.Steps text next)
    (htext : Unbroken text) : origin.AtSeam next := by
  rcases List.eq_nil_or_concat text with hnil | ⟨front, c, hlast⟩
  · subst hnil
    rwa [hsteps.eq_of_nil]
  · rcases h with ⟨read, hread, _⟩
    rw [List.concat_eq_append] at hlast
    refine ⟨read ++ text, hread.trans hsteps, Or.inl ?_⟩
    intro d hd
    rw [hlast, ← List.append_assoc, List.getLast?_concat] at hd
    rw [← Option.some.inj hd]
    exact htext c (by rw [hlast]; simp)

theorem AtSeam.read_upTo (h : origin.AtSeam cur) (hsteps : cur.Steps text next)
    (hrest : forall c, next.rest.head? = some c -> isBlank c = false) : origin.AtSeam next := by
  rcases h with ⟨read, hread, _⟩
  exact ⟨read ++ text, hread.trans hsteps, Or.inr hrest⟩

end Cursor

/-!
## Rules lead from seam to seam
-/

/-- A text read alongside itself, with both cursors at one seam. -/
def seams (origin : Cursor) : Alignment Span where
  cursors c d := c = d ∧ origin.AtSeam c
  stops m n := m = n ∧ exists cur, origin.AtSeam cur ∧ cur.offset = m
  left := id
  right := id

section Seams

variable {origin : Cursor}

theorem seams_ok {cur : Cursor} (h : origin.AtSeam cur) :
    Outcome.Aligned (seams origin) anyValues (.ok () cur) (.ok () cur) :=
  Outcome.Aligned.ok ⟨rfl, h⟩ trivial

theorem seams_stopped {cur : Cursor} (h : origin.AtSeam cur) :
    Outcome.Aligned (seams origin) (anyValues (α := Unit) (β := Unit)) (.stopped cur)
      (.stopped cur) :=
  Outcome.Aligned.stopped ⟨rfl, cur, h, rfl⟩

theorem head?_dropWhile {q : Char -> Bool} {cs : List Char} {c : Char}
    (h : (cs.dropWhile q).head? = some c) : q c = false := by
  have hfirst := List.head?_dropWhile_not q cs
  rwa [h] at hfirst

theorem skipWhile_steps (q : Char -> Bool) (cur : Cursor) :
    cur.Steps (cur.rest.takeWhile q)
      { offset := cur.offset + byteLength (cur.rest.takeWhile q), rest := cur.rest.dropWhile q } :=
  ⟨List.takeWhile_append_dropWhile.symm, rfl⟩

theorem seams_skipWhile {q : Char -> Bool} (hq : BlankBlind q) :
    (seams origin).Agree (skipWhile q) (skipWhile q) anyValues := by
  rintro c _ ⟨rfl, hseam⟩
  apply seams_ok
  cases hq with
  | accepts haccepts =>
      refine hseam.read_upTo (skipWhile_steps q c) ?_
      intro d hd
      apply Bool.eq_false_iff.mpr
      intro hblank
      have hskipped := haccepts d hblank
      rw [head?_dropWhile hd] at hskipped
      cases hskipped
  | rejects hrejects =>
      refine hseam.read_unbroken (skipWhile_steps q c) ?_
      exact fun d hd => hrejects d (List.mem_takeWhile_imp hd)

theorem seams_blanks1 : (seams origin).Agree blanks1 blanks1 anyValues := by
  rintro ⟨offset, rest⟩ _ ⟨rfl, hseam⟩
  change Outcome.Aligned _ _ (andThen (satisfy isBlank) (fun _ => skipWhile isBlank) _)
    (andThen (satisfy isBlank) (fun _ => skipWhile isBlank) _)
  cases rest with
  | nil => exact seams_stopped hseam
  | cons c rest =>
      cases hc : isBlank c with
      | false =>
          simp only [andThen, satisfy, hc]
          exact seams_stopped hseam
      | true =>
          simp only [andThen, satisfy, hc, if_true]
          have hfirst : Cursor.Steps ⟨offset, c :: rest⟩ [c] ⟨offset + c.utf8Size, rest⟩ :=
            ⟨rfl, rfl⟩
          apply seams_ok
          refine hseam.read_upTo (hfirst.trans (skipWhile_steps isBlank _)) ?_
          exact fun d hd => head?_dropWhile hd

theorem head?_splitAtBar {depth : Nat} {cs : List Char} {c : Char}
    (h : (splitAtBar depth cs).2.head? = some c) : c = '|' := by
  fun_induction splitAtBar depth cs with
  | case1 => cases h
  | case2 depth d cs hbar =>
      simp only [Bool.and_eq_true, decide_eq_true_eq] at hbar
      rw [← Option.some.inj h]
      exact hbar.left
  | case3 depth d cs hbar args rest hsplit ih =>
      rw [hsplit] at ih
      exact ih h

theorem seams_lawful (origin : Cursor) : (seams origin).Lawful where
  satisfy := by
    rintro q hq ⟨offset, rest⟩ _ ⟨rfl, hseam⟩
    cases rest with
    | nil => exact seams_stopped hseam
    | cons c rest =>
        simp only [satisfy]
        split
        · rename_i hc
          have hstep : Cursor.Steps ⟨offset, c :: rest⟩ [c] ⟨offset + c.utf8Size, rest⟩ :=
            ⟨rfl, rfl⟩
          exact seams_ok (hseam.read_unbroken hstep fun d hd => List.mem_singleton.mp hd ▸ hq c hc)
        · exact seams_stopped hseam
  skipWhile := seams_skipWhile
  blanks1 := seams_blanks1
  word := by
    rintro w hw c _ ⟨rfl, hseam⟩
    unfold word
    cases hrest : w.toList.isPrefixOf? c.rest with
    | none => exact seams_stopped hseam
    | some rest =>
        have htext := List.append_eq_of_isPrefixOf?_eq_some hrest
        exact seams_ok (hseam.read_unbroken ⟨htext.symm, rfl⟩ hw)
  atEnd := by
    rintro ⟨offset, rest⟩ _ ⟨rfl, hseam⟩
    cases rest with
    | nil => exact seams_ok hseam
    | cons c rest => exact seams_stopped hseam
  constructorArgs := by
    rintro c _ ⟨rfl, hseam⟩
    have hsteps : c.Steps (splitAtBar 0 c.rest).1
        { offset := c.offset + byteLength (splitAtBar 0 c.rest).1,
          rest := (splitAtBar 0 c.rest).2 } :=
      ⟨(splitAtBar_append 0 c.rest).symm, rfl⟩
    refine seams_ok (hseam.read_upTo hsteps ?_)
    intro d hd
    rw [head?_splitAtBar hd]
    decide
  unbroken := by
    rintro c _ next _ read readRight ⟨rfl, _⟩ ⟨rfl, _⟩ hsteps hstepsRight _ _
    refine ⟨?_, rfl⟩
    exact List.append_cancel_right (hsteps.left.symm.trans hstepsRight.left)

end Seams

/-!
## Chunks
-/

theorem collectChunks_words {offset : Nat} {lines : List (List Char)} {chunk : Chunk}
    (h : chunk ∈ (collectChunks offset lines).2) :
    StartsWord chunk.text ∧
      forall c, chunk.text.getLast? = some c -> isBlank c = false := by
  induction lines generalizing offset with
  | nil => cases h
  | cons line lines ih =>
      rw [collectChunks_cons] at h
      split at h
      · rename_i hstarts
        rcases List.mem_cons.mp h with hfirst | hrest
        · subst hfirst
          refine ⟨?_, fun c => last_of_trimEnd⟩
          cases line with
          | nil => cases hstarts
          | cons c line =>
              have hc : isBlank c = false := by simpa [startsChunk] using hstarts
              exact ⟨c, _, trimEnd_append_cons hc [] _, hc⟩
        · exact ih hrest
      · exact ih h

theorem sourceChunks_words {source : List Char} {chunk : Chunk}
    (h : chunk ∈ sourceChunks source) :
    StartsWord chunk.text ∧
      forall c, chunk.text.getLast? = some c -> isBlank c = false := by
  rw [sourceChunks_eq] at h
  exact collectChunks_words h

/-- What the mask shows at a character other than a blank is there in the source, so both ends of
it are between characters of the source. -/
theorem isBoundary_of_shown {source before rest : List Char} {c : Char}
    (hmask : mask source = before ++ c :: rest) (hc : isBlank c = false) :
    IsBoundary source (byteLength before) ∧ IsBoundary source (byteLength (before ++ [c])) := by
  have hspace : c ≠ ' ' := (ne_of_isBlank (by decide) hc).symm
  have hsource := mask_maskOf source
  rw [hmask] at hsource
  rcases hsource.split hspace with ⟨start, tail, hparts, hlength, _⟩
  refine ⟨⟨start, c :: tail, hparts, hlength⟩, ⟨start ++ [c], tail, by simp [hparts], ?_⟩⟩
  rw [byteLength_append, byteLength_append, hlength]

theorem Cursor.AtSeam.located {source : List Char} {chunk : Chunk} {cur : Cursor}
    (hchunk : chunk ∈ sourceChunks source) (h : chunk.cursor.AtSeam cur) :
    chunk.start ≤ cur.offset ∧ cur.offset ≤ chunk.stop ∧ IsBoundary source cur.offset := by
  rcases sourceChunks_standsIn hchunk with ⟨before, after, hmask, hstart⟩
  rcases sourceChunks_words hchunk with ⟨⟨first, others, hfirst, hfirstWord⟩, hlastWord⟩
  rw [Nat.zero_add] at hstart
  rcases h with ⟨read, ⟨hparts, hoffset⟩, hseam⟩
  change chunk.text = read ++ cur.rest at hparts
  change cur.offset = chunk.start + byteLength read at hoffset
  have hplace : cur.offset = byteLength (before ++ read) := by
    rw [hoffset, hstart, byteLength_append]
  -- The two sides of the seam: what has been read ends in a word, or a word follows.
  have hbehind {front : List Char} {c : Char} (hread : read = front ++ [c])
      (hc : isBlank c = false) : IsBoundary source cur.offset := by
    have hshown : mask source = (before ++ front) ++ c :: (cur.rest ++ after) := by
      rw [hmask, hparts, hread]
      simp
    rw [hplace, hread, ← List.append_assoc]
    exact (isBoundary_of_shown hshown hc).right
  have hahead {c : Char} {rest : List Char} (hrest : cur.rest = c :: rest)
      (hc : isBlank c = false) : IsBoundary source cur.offset := by
    have hshown : mask source = (before ++ read) ++ c :: (rest ++ after) := by
      rw [hmask, hparts, hrest]
      simp
    rw [hplace]
    exact (isBoundary_of_shown hshown hc).left
  refine ⟨?_, ?_, ?_⟩
  · rw [hoffset]
    exact Nat.le_add_right _ _
  · unfold Chunk.stop
    rw [hoffset, hparts, byteLength_append]
    omega
  · rcases List.eq_nil_or_concat read with hnil | ⟨front, c, hread⟩
    · rw [hnil, List.nil_append] at hparts
      exact hahead (hparts.symm.trans hfirst) hfirstWord
    · rw [List.concat_eq_append] at hread
      have hlast : read.getLast? = some c := by rw [hread, List.getLast?_concat]
      cases hrest : cur.rest with
      | nil =>
          rw [hrest, List.append_nil] at hparts
          exact hbehind hread (hlastWord c (by rw [hparts, hlast]))
      | cons d rest =>
          rcases hseam with hword | hword
          · exact hbehind hread (hword c hlast)
          · exact hahead hrest (hword d (by rw [hrest]; rfl))

theorem sourceChunks_isBoundary {source : List Char} {chunk : Chunk}
    (h : chunk ∈ sourceChunks source) :
    IsBoundary source chunk.start ∧ IsBoundary source chunk.stop := by
  have hend : chunk.cursor.AtSeam { offset := chunk.stop, rest := [] } :=
    ⟨chunk.text, ⟨(List.append_nil _).symm, rfl⟩, Or.inr fun _ hc => by cases hc⟩
  exact ⟨((Cursor.AtSeam.refl chunk.cursor).located h).right.right, (hend.located h).right.right⟩

/-!
## The first chunk that is not read
-/

/-- The grammar has a way to read a chunk. -/
def Chunk.Fits {α : Type} (chunk : Chunk) (rule : Rule α) : Prop :=
  exists a next, rule chunk.cursor = .ok a next

/-- The first of a source's chunks that the grammar rejects, and what it is rejected as: the first
chunk has to be a header, and each of the others a declaration. -/
inductive FirstRejected : List Chunk -> ParseFailure -> Chunk -> Prop where
  | header {first : Chunk} {others : List Chunk} :
      ¬ first.Fits header -> FirstRejected (first :: others) .invalidHeader first
  | declaration {first chunk : Chunk} {read others : List Chunk} :
      first.Fits header -> (forall other, other ∈ read -> other.Fits declaration) ->
      ¬ chunk.Fits declaration ->
      FirstRejected (first :: (read ++ chunk :: others)) .unrecognizedDeclaration chunk

theorem FirstRejected.mem {chunks : List Chunk} {failure : ParseFailure} {chunk : Chunk}
    (h : FirstRejected chunks failure chunk) : chunk ∈ chunks := by
  cases h with
  | header _ => exact List.mem_cons_self
  | declaration _ _ _ => simp

theorem Chunk.read_cases {α : Type} {rule : Rule α} {like : α -> α -> Prop} {chunk : Chunk}
    (hrule : (seams chunk.cursor).Agree rule rule like) (failure : ParseFailure) :
    (chunk.Fits rule ∧ exists a, chunk.read rule failure = .ok a) ∨
      (¬ chunk.Fits rule ∧ exists cur, chunk.cursor.AtSeam cur ∧
        chunk.read rule failure = .error { failure, offset := cur.offset }) := by
  have hresult := hrule _ _ ⟨rfl, Cursor.AtSeam.refl chunk.cursor⟩
  unfold Chunk.Fits Chunk.read
  cases hread : rule chunk.cursor with
  | ok a next => exact Or.inl ⟨⟨a, next, rfl⟩, a, rfl⟩
  | stopped last =>
      rw [hread] at hresult
      refine Or.inr ⟨fun hfits => ?_, ?_⟩
      · rcases hfits with ⟨_, _, hok⟩
        cases hok
      · cases hresult with
        | stopped hstops =>
            rcases hstops.right with ⟨cur, hseam, hoffset⟩
            exact ⟨cur, hseam, by rw [hoffset]⟩

theorem readDeclarations_cases (chunks : List Chunk) :
    ((forall chunk, chunk ∈ chunks -> chunk.Fits declaration) ∧
        exists decls, readDeclarations chunks = .ok decls) ∨
      exists read chunk others cur, chunks = read ++ chunk :: others ∧
        (forall other, other ∈ read -> other.Fits declaration) ∧ ¬ chunk.Fits declaration ∧
        chunk.cursor.AtSeam cur ∧
        readDeclarations chunks =
          .error { failure := .unrecognizedDeclaration, offset := cur.offset } := by
  induction chunks with
  | nil => exact Or.inl ⟨by simp, [], rfl⟩
  | cons chunk chunks ih =>
      rcases Chunk.read_cases (seams_lawful chunk.cursor).declaration .unrecognizedDeclaration with
        ⟨hfits, decl, hread⟩ | ⟨hfits, cur, hseam, hread⟩
      · rcases ih with ⟨hall, decls, hdecls⟩ |
          ⟨read, rejected, others, cur, hchunks, hall, hrejected, hseam, herror⟩
        · refine Or.inl ⟨List.forall_mem_cons.mpr ⟨hfits, hall⟩, decl :: decls, ?_⟩
          rw [readDeclarations, hread, hdecls]
        · refine Or.inr ⟨chunk :: read, rejected, others, cur, by rw [hchunks]; rfl,
            List.forall_mem_cons.mpr ⟨hfits, hall⟩, hrejected, hseam, ?_⟩
          rw [readDeclarations, hread, herror]
      · refine Or.inr ⟨[], chunk, chunks, cur, rfl, by simp, hfits, hseam, ?_⟩
        rw [readDeclarations, hread]

def AllFit (chunks : List Chunk) : Prop :=
  exists first others, chunks = first :: others ∧ first.Fits header ∧
    forall chunk, chunk ∈ others -> chunk.Fits declaration

theorem FirstRejected.not_allFit {chunks : List Chunk} {failure : ParseFailure} {chunk : Chunk}
    (h : FirstRejected chunks failure chunk) : ¬ AllFit chunks := by
  rintro ⟨first, others, hchunks, hheader, hall⟩
  cases h with
  | header hrejected =>
      rw [(List.cons.inj hchunks).left] at hrejected
      exact hrejected hheader
  | declaration _ _ hrejected =>
      apply hrejected
      apply hall
      rw [← (List.cons.inj hchunks).right]
      simp

theorem readOutline_cases (source : List Char) :
    (sourceChunks source = [] ∧
        readOutline source = .error { failure := .missingHeader, offset := 0 }) ∨
      (AllFit (sourceChunks source) ∧ exists m, readOutline source = .ok m) ∨
      exists chunk failure cur, FirstRejected (sourceChunks source) failure chunk ∧
        chunk.cursor.AtSeam cur ∧
        readOutline source = .error { failure, offset := cur.offset } := by
  unfold readOutline
  cases hchunks : sourceChunks source with
  | nil => exact Or.inl ⟨rfl, rfl⟩
  | cons first others =>
      refine Or.inr ?_
      rcases Chunk.read_cases (seams_lawful first.cursor).header .invalidHeader with
        ⟨hfits, head, hread⟩ | ⟨hfits, cur, hseam, hread⟩
      · rcases readDeclarations_cases others with ⟨hall, decls, hdecls⟩ |
          ⟨read, chunk, later, cur, hothers, hall, hrejected, hseam, herror⟩
        · refine Or.inl ⟨⟨first, others, rfl, hfits, hall⟩, assemble head decls, ?_⟩
          simp only [hread, hdecls]
        · refine Or.inr ⟨chunk, .unrecognizedDeclaration, cur, ?_, hseam, ?_⟩
          · rw [hothers]
            exact FirstRejected.declaration hfits hall hrejected
          · simp only [hread, herror]
      · refine Or.inr ⟨first, .invalidHeader, cur, FirstRejected.header hfits, hseam, ?_⟩
        simp only [hread]

theorem parse_cases (source : String) :
    (sourceChunks source.toList = [] ∧
        parse source = .error { failure := .missingHeader, offset := 0 }) ∨
      (AllFit (sourceChunks source.toList) ∧ exists m, parse source = .ok m) ∨
      exists chunk failure cur, FirstRejected (sourceChunks source.toList) failure chunk ∧
        chunk.cursor.AtSeam cur ∧
        parse source = .error { failure, offset := cur.offset } := by
  unfold parse
  rcases readOutline_cases source.toList with
    ⟨hnone, hread⟩ | ⟨hall, m, hread⟩ | ⟨chunk, failure, cur, hfirst, hseam, hread⟩
  · rw [hread]
    exact Or.inl ⟨hnone, rfl⟩
  · rw [hread]
    exact Or.inr (Or.inl ⟨hall, m.map (locate source.toList), rfl⟩)
  · rw [hread]
    exact Or.inr (Or.inr ⟨chunk, failure, cur, hfirst, hseam, rfl⟩)

theorem not_allFit_nil : ¬ AllFit [] := by
  rintro ⟨first, others, hchunks, _⟩
  cases hchunks

/-- When a source is a module, and where its error is when it is none. -/
structure ErrorsLocated (source : String) : Prop where
  accepted : (exists m, parse source = .ok m) ↔ AllFit (sourceChunks source.toList)
  noChunk : sourceChunks source.toList = [] ->
    parse source = .error { failure := .missingHeader, offset := 0 }
  rejected : forall e, parse source = .error e -> sourceChunks source.toList ≠ [] ->
    exists chunk, FirstRejected (sourceChunks source.toList) e.failure chunk ∧
      IsBoundary source.toList chunk.start ∧ IsBoundary source.toList chunk.stop ∧
      chunk.start ≤ e.offset ∧ e.offset ≤ chunk.stop ∧ IsBoundary source.toList e.offset

/-- A source is a module exactly if it has a chunk, the first one is a header and all others are
declarations.  Without a chunk the error is at the start.  Otherwise it is in the first chunk that
is rejected, between two characters of the source. -/
theorem parse_errorsLocated (source : String) : ErrorsLocated source := by
  rcases parse_cases source with
    ⟨hnone, hparse⟩ | ⟨hall, m, hparse⟩ | ⟨chunk, failure, cur, hfirst, hseam, hparse⟩
  · constructor
    case accepted =>
      rw [hparse, hnone]
      exact iff_of_false (by simp) not_allFit_nil
    case noChunk => exact fun _ => hparse
    case rejected => exact fun _ _ hsome => absurd hnone hsome
  · constructor
    case accepted => exact iff_of_true ⟨m, hparse⟩ hall
    case noChunk =>
      intro hnone
      rw [hnone] at hall
      exact absurd hall not_allFit_nil
    case rejected =>
      intro e he
      rw [hparse] at he
      cases he
  · constructor
    case accepted =>
      rw [hparse]
      exact iff_of_false (by simp) hfirst.not_allFit
    case noChunk =>
      intro hnone
      rw [hnone] at hfirst
      cases hfirst.mem
    case rejected =>
      intro e he _
      rw [hparse] at he
      injection he with he
      subst he
      rcases sourceChunks_isBoundary hfirst.mem with ⟨hstart, hstop⟩
      exact ⟨chunk, hfirst, hstart, hstop, hseam.located hfirst.mem⟩

end Syntax
end ElmNavigator
