import ElmNavigator.Proofs.Syntax.Chunks
import ElmNavigator.Proofs.Syntax.WrittenNames

/-!
# Names stand where their locations say

The grammar reads masked chunks, and its places are offsets in the masked text.
They are good for the source as well: a name has no blank in it, so it stands in
the source where it stands in the masked text.
-/

namespace ElmNavigator
namespace Syntax

open Text

/-- A location of a source text at which a word is written, on one line and between characters,
with lines and columns that agree with its offsets. -/
structure Spells (source : List Char) (word : Named Location) : Prop where
  start_lt_stop : word.location.start.offset < word.location.stop.offset
  stop_le_length : word.location.stop.offset ≤ byteLength source
  start_boundary : IsBoundary source word.location.start.offset
  stop_boundary : IsBoundary source word.location.stop.offset
  bytes :
    ((utf8 source).drop word.location.start.offset).take
        (word.location.stop.offset - word.location.start.offset) =
      utf8 word.name.toList
  one_line : word.location.start.line = word.location.stop.line
  start_line : word.location.start.line =
    (lineCol source word.location.start.offset).1 + 1
  start_column : word.location.start.column =
    (lineCol source word.location.start.offset).2 + 1
  stop_line : word.location.stop.line =
    (lineCol source word.location.stop.offset).1 + 1
  stop_column : word.location.stop.column =
    (lineCol source word.location.stop.offset).2 + 1

theorem offset_position {source before after : List Char} {offset : Nat}
    (hsource : source = before ++ after) (hoffset : offset = byteLength before) :
    (position source offset).offset = offset := by
  have hlength := byteLength_append before after
  rw [← hsource] at hlength
  show min offset (byteLength source) = offset
  omega

theorem IsWord.no_line_feed {text : List Char} (h : IsWord text) : '\n' ∉ text := by
  intro hmem
  have hblank := h.right '\n' hmem
  have hfeed : isBlank '\n' = true := by decide
  rw [hfeed] at hblank
  cases hblank

theorem spells_of_append {source before after : List Char} {word : Named Span}
    (hword : IsWord word.name.toList)
    (hsource : source = before ++ word.name.toList ++ after)
    (hstart : word.location.start = byteLength before)
    (hstop : word.location.stop =
      byteLength (before ++ word.name.toList)) :
    Spells source (word.map (locate source)) := by
  have hsource' : source = before ++ (word.name.toList ++ after) := by
    rw [hsource, List.append_assoc]
  have hpos := byteLength_pos hword.left
  have hadd := byteLength_append before word.name.toList
  have hlength : byteLength source =
      byteLength (before ++ word.name.toList) + byteLength after := by
    rw [hsource, byteLength_append]
  have hstartOffset := offset_position hsource' hstart
  have hstopOffset := offset_position hsource hstop
  have hbytes := utf8_between before word.name.toList after
  have hline := lineCol_line_append before after hword.no_line_feed
  rw [← hsource] at hbytes hline
  constructor
  case start_lt_stop =>
    show (position source word.location.start).offset <
      (position source word.location.stop).offset
    omega
  case stop_le_length =>
    show (position source word.location.stop).offset ≤ byteLength source
    omega
  case start_boundary =>
    exact ⟨before, word.name.toList ++ after, hsource', (hstartOffset.trans hstart).symm⟩
  case stop_boundary =>
    exact ⟨before ++ word.name.toList, after, hsource, (hstopOffset.trans hstop).symm⟩
  case bytes =>
    show ((utf8 source).drop (position source word.location.start).offset).take
        ((position source word.location.stop).offset -
          (position source word.location.start).offset) =
      utf8 word.name.toList
    rw [hstartOffset, hstopOffset, hstart, hstop]
    exact hbytes
  case one_line =>
    show (lineCol source word.location.start).1 + 1 =
      (lineCol source word.location.stop).1 + 1
    rw [hstart, hstop, hline]
  case start_line =>
    show _ = (lineCol source (position source word.location.start).offset).1 + 1
    rw [hstartOffset]
    rfl
  case start_column =>
    show _ = (lineCol source (position source word.location.start).offset).2 + 1
    rw [hstartOffset]
    rfl
  case stop_line =>
    show _ = (lineCol source (position source word.location.stop).offset).1 + 1
    rw [hstopOffset]
    rfl
  case stop_column =>
    show _ = (lineCol source (position source word.location.stop).offset).2 + 1
    rw [hstopOffset]
    rfl

theorem shows_of_chunk {source : List Char} {chunk : Chunk}
    {word : Named Span} (hchunk : chunk ∈ sourceChunks source)
    (hshows : chunk.cursor.Shows word) :
    Cursor.Shows { offset := 0, rest := source } word := by
  rcases hshows with ⟨hword, inner, outer, htext, hstart, hstop⟩
  rcases sourceChunks_standsIn hchunk with ⟨before, after, hmasked, hoffset⟩
  have hmask : MaskOf source
      ((before ++ inner) ++ word.name.toList ++ (outer ++ after)) := by
    have hmaskOf := mask_maskOf source
    have hrest : chunk.text = inner ++ word.name.toList ++ outer := htext
    rw [hmasked, hrest] at hmaskOf
    simpa using hmaskOf
  rcases hmask.word hword with ⟨start, tail, hsource, hlength⟩
  have hcursor : chunk.cursor.offset = byteLength before := by
    show chunk.start = byteLength before
    rw [hoffset, Nat.zero_add]
  refine ⟨hword, start, tail, hsource, ?_, ?_⟩
  · rw [hstart, hcursor, hlength, byteLength_append, Nat.zero_add]
  · rw [hstop, hcursor, byteLength_append, byteLength_append, hlength,
      byteLength_append, Nat.add_assoc, Nat.zero_add]

theorem spells_of_chunk {source : List Char} {chunk : Chunk}
    {word : Named Span} (hchunk : chunk ∈ sourceChunks source)
    (hshows : chunk.cursor.Shows word) :
    Spells source (word.map (locate source)) := by
  rcases shows_of_chunk hchunk hshows with ⟨hword, before, after, hsource, hstart, hstop⟩
  rw [Nat.zero_add] at hstart hstop
  exact spells_of_append hword hsource hstart hstop

/-!
## Reading chunk by chunk
-/

theorem Chunk.read_good {α : Type} {rule : Rule α} {failure : ParseFailure}
    {chunk : Chunk} {a : α} {good : α -> Prop}
    (hrule : rule.Yields chunk.cursor good)
    (h : chunk.read rule failure = .ok a) : good a := by
  have hcursor := hrule chunk.cursor (Cursor.Reaches.refl chunk.cursor)
  unfold Chunk.read at h
  cases hresult : rule chunk.cursor with
  | stopped last =>
      rw [hresult] at h
      cases h
  | ok b next =>
      rw [hresult] at h hcursor
      injection h with hb
      rw [← hb]
      exact hcursor.right

theorem exists_of_readDeclarations_cons {chunk : Chunk} {chunks : List Chunk}
    {decls : List Declaration} (h : readDeclarations (chunk :: chunks) = .ok decls) :
    exists decl others, chunk.read declaration .unrecognizedDeclaration = .ok decl ∧
      readDeclarations chunks = .ok others ∧ decls = decl :: others := by
  simp only [readDeclarations] at h
  cases hread : chunk.read declaration .unrecognizedDeclaration with
  | error e =>
      rw [hread] at h
      cases h
  | ok decl =>
      rw [hread] at h
      cases hrest : readDeclarations chunks with
      | error e =>
          rw [hrest] at h
          cases h
      | ok others =>
          rw [hrest] at h
          injection h with hdecls
          exact ⟨decl, others, rfl, rfl, hdecls.symm⟩

theorem readDeclarations_shown {chunks : List Chunk} {decls : List Declaration}
    (h : readDeclarations chunks = .ok decls) :
    forall decl, decl ∈ decls ->
      exists chunk, chunk ∈ chunks ∧ DeclarationShown chunk.cursor decl := by
  induction chunks generalizing decls with
  | nil =>
      injection h with hdecls
      subst hdecls
      intro decl hdecl
      cases hdecl
  | cons chunk chunks ih =>
      rcases exists_of_readDeclarations_cons h with ⟨first, others, hread, hrest, hdecls⟩
      subst hdecls
      intro decl hdecl
      rcases List.mem_cons.mp hdecl with hhead | htail
      · refine ⟨chunk, List.mem_cons_self, ?_⟩
        rw [hhead]
        exact Chunk.read_good declaration_yields hread
      · rcases ih hrest decl htail with ⟨other, hmem, hshown⟩
        exact ⟨other, List.mem_cons_of_mem chunk hmem, hshown⟩

theorem mem_written_assemble {h : Header} {decls : List Declaration}
    {n : Named Span} (hn : n ∈ (assemble h decls).written) :
    n ∈ h.written ∨ exists decl, decl ∈ decls ∧ n ∈ decl.written := by
  simp only [Outline.written, assemble, List.mem_append, List.mem_flatMap,
    List.mem_filterMap, List.mem_map] at hn
  rcases hn with
    (((hheader | ⟨i, ⟨decl, hdecl, hi⟩, hmem⟩) | ⟨t, ⟨decl, hdecl, ht⟩, hmem⟩) |
      ⟨f, ⟨decl, hdecl, hf⟩, hspelled⟩) | ⟨decl, hdecl, hport⟩
  · exact Or.inl hheader
  · cases decl with
    | import_ other =>
        injection hi with hi
        exact Or.inr ⟨_, hdecl, hi ▸ hmem⟩
    | type other => cases hi
    | port name => cases hi
    | function name => cases hi
    | ignored => cases hi
  · cases decl with
    | type other =>
        injection ht with ht
        exact Or.inr ⟨_, hdecl, ht ▸ hmem⟩
    | import_ other => cases ht
    | port name => cases ht
    | function name => cases ht
    | ignored => cases ht
  · cases decl with
    | function name =>
        injection hf with hf
        subst hf hspelled
        exact Or.inr ⟨_, hdecl, List.mem_singleton.mpr rfl⟩
    | import_ other => cases hf
    | type other => cases hf
    | port name => cases hf
    | ignored => cases hf
  · cases decl with
    | port name =>
        injection hport with hport
        subst hport
        exact Or.inr ⟨_, hdecl, List.mem_singleton.mpr rfl⟩
    | import_ other => cases hport
    | type other => cases hport
    | function name => cases hport
    | ignored => cases hport

theorem exists_of_readOutline {source : List Char} {m : Outline Span}
    (h : readOutline source = .ok m) :
    exists first others head decls, sourceChunks source = first :: others ∧
      first.read header .invalidHeader = .ok head ∧
      readDeclarations others = .ok decls ∧ m = assemble head decls := by
  unfold readOutline at h
  cases hchunks : sourceChunks source with
  | nil =>
      rw [hchunks] at h
      cases h
  | cons first others =>
      rw [hchunks] at h
      simp only at h
      cases hheader : first.read header .invalidHeader with
      | error e =>
          rw [hheader] at h
          cases h
      | ok head =>
          rw [hheader] at h
          simp only at h
          cases hdecls : readDeclarations others with
          | error e =>
              rw [hdecls] at h
              cases h
          | ok decls =>
              rw [hdecls] at h
              injection h with hm
              exact ⟨first, others, head, decls, rfl, hheader, hdecls, hm.symm⟩

theorem readOutline_shown {source : List Char} {m : Outline Span}
    (h : readOutline source = .ok m) :
    forall n, n ∈ m.written ->
      exists chunk, chunk ∈ sourceChunks source ∧ chunk.cursor.Shows n := by
  rcases exists_of_readOutline h with
    ⟨first, others, head, decls, hchunks, hheader, hdecls, hm⟩
  subst hm
  rw [hchunks]
  intro n hn
  rcases mem_written_assemble hn with hhead | ⟨decl, hdecl, hmem⟩
  · exact ⟨first, List.mem_cons_self, Chunk.read_good header_yields hheader n hhead⟩
  · rcases readDeclarations_shown hdecls decl hdecl with ⟨chunk, hchunk, hshown⟩
    exact ⟨chunk, List.mem_cons_of_mem first hchunk, hshown n hmem⟩

theorem exists_outline_of_parse {source : String} {m : Outline Location}
    (h : parse source = .ok m) :
    exists outline, readOutline source.toList = .ok outline ∧
      m = outline.map (locate source.toList) := by
  unfold parse at h
  cases hread : readOutline source.toList with
  | error e =>
      rw [hread] at h
      cases h
  | ok outline =>
      rw [hread] at h
      injection h with hm
      exact ⟨outline, rfl, hm.symm⟩

/-- Every name of a module stands in its source where its location says, byte for byte. -/
theorem parse_names_spelled {source : String} {m : Outline Location}
    (h : parse source = .ok m) :
    forall n, n ∈ m.written -> Spells source.toList n := by
  unfold parse at h
  cases hread : readOutline source.toList with
  | error e =>
      rw [hread] at h
      cases h
  | ok outline =>
      rw [hread] at h
      injection h with hm
      subst hm
      intro n hn
      rw [Outline.written_map] at hn
      rcases List.mem_map.mp hn with ⟨word, hword, hplace⟩
      rcases readOutline_shown hread word hword with ⟨chunk, hchunk, hshows⟩
      rw [← hplace]
      exact spells_of_chunk hchunk hshows

/-- Behind a byte order mark, wide characters and comments, and with both kinds of line breaks. -/
theorem parse_names_spelled_marked :
    exists source m,
      source = "\uFEFFmodule É exposing (..)\r\ntype T = {- 😀 -} A\n(|>) = 1\n" ∧
        parse source = .ok m ∧
        m.written.map (·.name) = ["É", "..", "T", "A", "(|>)"] ∧
        forall n, n ∈ m.written -> Spells source.toList n :=
  ⟨_, _, rfl, rfl, by decide +kernel, parse_names_spelled rfl⟩

end Syntax
end ElmNavigator
