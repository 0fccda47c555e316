import ElmNavigator.Proofs.Place.NormalPaths
import ElmNavigator.Proofs.Syntax.MaskedText
import ElmNavigator.Proofs.Text.Utf8Decoding
import Mathlib.Data.List.Forall2

/-!
# Masking keeps the geometry of a text

Whatever can be said about a text by its bytes, its characters or its lines, it
can be said about the masked text at the same places.  The bytes are compared one
by one: a byte of the masked text is the one of the source or a space, and line
breaks are never replaced.
-/

namespace ElmNavigator
namespace Syntax

open Text

/-!
## Bytes
-/

/-- What may become of a byte of the source: it is kept, or it turns into a space and was no part
of a line break. -/
def ByteMasked (byte masked : UInt8) : Prop :=
  masked = byte ∨ (masked = 0x20 ∧ byte ≠ 0x0A ∧ byte ≠ 0x0D)

theorem utf8_replicate_space (n : Nat) :
    utf8 (List.replicate n ' ') = List.replicate n 0x20 := by
  induction n with
  | zero => rfl
  | succ n ih =>
      have hcons : utf8 (' ' :: List.replicate n ' ') =
          0x20 :: utf8 (List.replicate n ' ') := rfl
      rw [List.replicate_succ, hcons, ih, List.replicate_succ]

theorem byteMasked_spaces {c : Char} (hfeed : c ≠ '\n') (hreturn : c ≠ '\r') :
    List.Forall₂ ByteMasked (String.utf8EncodeChar c) (utf8 (List.replicate c.utf8Size ' ')) := by
  rw [utf8_replicate_space, ← String.length_utf8EncodeChar c]
  have hbytes : forall byte, byte ∈ String.utf8EncodeChar c -> ByteMasked byte 0x20 := by
    intro byte hbyte
    refine Or.inr ⟨rfl, ?_, ?_⟩
    · rintro rfl
      exact ne_of_mem_utf8EncodeChar hbyte hfeed (by decide) rfl
    · rintro rfl
      exact ne_of_mem_utf8EncodeChar hbyte hreturn (by decide) rfl
  generalize String.utf8EncodeChar c = bytes at hbytes
  induction bytes with
  | nil => exact List.Forall₂.nil
  | cons byte bytes ih =>
      exact List.Forall₂.cons (hbytes byte List.mem_cons_self)
        (ih fun other hother => hbytes other (List.mem_cons_of_mem byte hother))

theorem MaskOf.bytes {source masked : List Char} (h : MaskOf source masked) :
    List.Forall₂ ByteMasked (utf8 source) (utf8 masked) := by
  induction source generalizing masked with
  | nil =>
      cases h
      exact List.Forall₂.nil
  | cons c source ih =>
      rcases h.cases_cons with ⟨rest, hrest, rfl | ⟨hfeed, hreturn, rfl⟩⟩
      · have hkept : List.Forall₂ ByteMasked (String.utf8EncodeChar c) (String.utf8EncodeChar c) :=
          List.forall₂_same.mpr fun byte _ => Or.inl rfl
        exact List.rel_append hkept (ih hrest)
      · rw [utf8_append]
        exact List.rel_append (byteMasked_spaces hfeed hreturn) (ih hrest)

/-!
## Boundaries
-/

theorem MaskOf.cut {front back masked : List Char} (h : MaskOf (front ++ back) masked) :
    exists maskedFront maskedBack, masked = maskedFront ++ maskedBack ∧
      MaskOf front maskedFront ∧ MaskOf back maskedBack := by
  induction front generalizing masked with
  | nil => exact ⟨[], masked, rfl, MaskOf.nil, h⟩
  | cons c front ih =>
      cases h with
      | kept _ hrest =>
          rcases ih hrest with ⟨maskedFront, maskedBack, hmasked, hfront, hback⟩
          exact ⟨c :: maskedFront, maskedBack, by rw [hmasked]; rfl, hfront.kept c, hback⟩
      | blanked _ hrest =>
          rcases ih hrest with ⟨maskedFront, maskedBack, hmasked, hfront, hback⟩
          exact ⟨blank c ++ maskedFront, maskedBack, by rw [hmasked, List.append_assoc],
            hfront.blanked c, hback⟩

theorem MaskOf.isBoundary {source masked : List Char} (h : MaskOf source masked) {offset : Nat}
    (hoffset : IsBoundary source offset) : IsBoundary masked offset := by
  rcases hoffset with ⟨front, back, rfl, hlength⟩
  rcases h.cut with ⟨maskedFront, maskedBack, hmasked, hfront, _⟩
  exact ⟨maskedFront, maskedBack, hmasked, by rw [byteLength_of_maskOf hfront, hlength]⟩

/-!
## Lines
-/

theorem splitOn_append {sep : Char} {text : List Char} (h : sep ∉ text) {rest piece : List Char}
    {pieces : List (List Char)} (hrest : splitOn sep rest = piece :: pieces) :
    splitOn sep (text ++ rest) = (text ++ piece) :: pieces := by
  induction text with
  | nil => exact hrest
  | cons c text ih =>
      have hc : c ≠ sep := fun heq => h (heq ▸ List.mem_cons_self)
      have htext := ih fun hmem => h (List.mem_cons_of_mem c hmem)
      simp only [List.cons_append, splitOn, hc, if_false, htext]

theorem exists_lines (source : List Char) :
    exists line others, lines source = line :: others := by
  cases hlines : lines source with
  | nil => exact absurd hlines (Path.splitOn_ne_nil '\n' source)
  | cons line others => exact ⟨line, others, rfl⟩

theorem feed_not_mem_singleton {c : Char} (h : c ≠ '\n') : '\n' ∉ [c] := by
  simpa using h.symm

theorem forall₂_lines_cons {c : Char} {image source masked : List Char} (hc : c ≠ '\n')
    (himage : '\n' ∉ image)
    (hcons : forall line maskedLine, MaskOf line maskedLine ->
      MaskOf (c :: line) (image ++ maskedLine))
    (h : List.Forall₂ MaskOf (lines source) (lines masked)) :
    List.Forall₂ MaskOf (lines (c :: source)) (lines (image ++ masked)) := by
  rcases exists_lines source with ⟨line, others, hsource⟩
  rcases exists_lines masked with ⟨maskedLine, maskedOthers, hmasked⟩
  rw [hsource, hmasked] at h
  rcases List.forall₂_cons.mp h with ⟨hline, hothers⟩
  have hfirst : lines (c :: source) = (c :: line) :: others :=
    splitOn_append (feed_not_mem_singleton hc) hsource
  have hmaskedFirst : lines (image ++ masked) = (image ++ maskedLine) :: maskedOthers :=
    splitOn_append himage hmasked
  rw [hfirst, hmaskedFirst]
  exact List.Forall₂.cons (hcons line maskedLine hline) hothers

theorem feed_not_mem_blank {c : Char} (h : c ≠ '\n') : '\n' ∉ blank c := by
  unfold blank
  split
  · exact feed_not_mem_singleton h
  · intro hmem
    have hspace := (List.mem_replicate.mp hmem).right
    revert hspace
    decide

theorem MaskOf.lines {source masked : List Char} (h : MaskOf source masked) :
    List.Forall₂ MaskOf (lines source) (lines masked) := by
  induction h with
  | nil => exact List.Forall₂.cons MaskOf.nil List.Forall₂.nil
  | @kept source masked c _ ih =>
      by_cases hc : c = '\n'
      · rw [hc]
        exact List.Forall₂.cons MaskOf.nil ih
      · exact forall₂_lines_cons hc (feed_not_mem_singleton hc) (fun _ _ hline => hline.kept c) ih
  | @blanked source masked c _ ih =>
      by_cases hc : c = '\n'
      · rw [hc]
        exact List.Forall₂.cons MaskOf.nil ih
      · exact forall₂_lines_cons hc (feed_not_mem_blank hc) (fun _ _ hline => hline.blanked c) ih

theorem byteLength_of_forall₂ {rows maskedRows : List (List Char)}
    (h : List.Forall₂ MaskOf rows maskedRows) :
    byteLength (maskedRows.flatMap fun row => row ++ ['\n']) =
      byteLength (rows.flatMap fun row => row ++ ['\n']) := by
  induction h with
  | nil => rfl
  | cons hrow _ ih =>
      simp only [List.flatMap_cons, byteLength_append, byteLength_of_maskOf hrow, ih]

theorem MaskOf.lineStart {source masked : List Char} (h : MaskOf source masked) (line : Nat) :
    lineStart masked line = lineStart source line :=
  byteLength_of_forall₂ (List.forall₂_take line h.lines)

/-!
## The mask of a source
-/

/-- Two texts agree in where bytes, characters and lines stand, and the second one differs from
the first only by spaces. -/
structure SameGeometry (source masked : List Char) : Prop where
  length : byteLength masked = byteLength source
  bytes : List.Forall₂ ByteMasked (utf8 source) (utf8 masked)
  boundaries : forall offset, IsBoundary source offset -> IsBoundary masked offset
  characters : forall before c after, masked = before ++ c :: after -> c ≠ ' ' ->
    exists start tail, source = start ++ c :: tail ∧ byteLength start = byteLength before
  lineCount : (lines masked).length = (lines source).length
  lineStarts : forall line, lineStart masked line = lineStart source line

/-- Masking moves nothing: the masked text has the length of the source, byte by byte it has the
byte of the source or a space where no line is broken, and characters and lines start where they
start in the source. -/
theorem mask_sameGeometry (source : List Char) : SameGeometry source (mask source) := by
  have hmask := mask_maskOf source
  constructor
  case length => exact byteLength_of_maskOf hmask
  case bytes => exact hmask.bytes
  case boundaries => exact fun _ => hmask.isBoundary
  case characters =>
    intro before c after hmasked hc
    rw [hmasked] at hmask
    rcases hmask.split hc with ⟨start, tail, hsource, hlength, _⟩
    exact ⟨start, tail, hsource, hlength⟩
  case lineCount => exact hmask.lines.length_eq.symm
  case lineStarts => exact hmask.lineStart

end Syntax
end ElmNavigator
