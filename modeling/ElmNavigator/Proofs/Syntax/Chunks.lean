import ElmNavigator.Proofs.Syntax.MaskedText
import ElmNavigator.Proofs.Text.Blanks

/-!
# Chunks of a masked text

The lines of a text add up to the text, and a chunk is a run of whole lines
without the blanks at its end.  So every chunk is a piece of the masked text,
and it starts at the offset that it carries.
-/

namespace ElmNavigator
namespace Syntax

open Text

/-!
## Lines and trimmed texts
-/

theorem flatten_rawLines (cs : List Char) : (rawLines cs).flatten = cs := by
  induction cs with
  | nil => rfl
  | cons c cs ih =>
      simp only [rawLines]
      split
      · simp [ih]
      · cases hlines : rawLines cs with
        | nil =>
            rw [hlines] at ih
            simp [← ih]
        | cons line rest =>
            rw [hlines] at ih
            simp [← ih]

theorem trimEnd_append (p : Char -> Bool) (cs : List Char) :
    exists blanks, cs = trimEnd p cs ++ blanks ∧ forall c, c ∈ blanks -> p c = true := by
  induction cs with
  | nil =>
      exact ⟨[], rfl, by simp⟩
  | cons c cs ih =>
      rcases ih with ⟨blanks, hcs, hblanks⟩
      simp only [trimEnd]
      cases htrim : trimEnd p cs with
      | nil =>
          rw [htrim, List.nil_append] at hcs
          by_cases hc : p c = true
          · refine ⟨c :: cs, by simp [hc], ?_⟩
            rw [hcs]
            exact List.forall_mem_cons.mpr ⟨hc, hblanks⟩
          · refine ⟨cs, by simp [hc], ?_⟩
            rw [hcs]
            exact hblanks
      | cons d ds =>
          rw [htrim] at hcs
          exact ⟨blanks, by rw [hcs]; rfl, hblanks⟩

theorem trimEnd_cons {alpha : Type} (p : alpha -> Bool) (c : alpha) (cs : List alpha) :
    trimEnd p (c :: cs) =
      if trimEnd p cs = [] ∧ p c = true then [] else c :: trimEnd p cs := by
  rw [trimEnd]
  cases trimEnd p cs with
  | nil => simp
  | cons d ds => simp

theorem trimEnd_append_cons {alpha : Type} {p : alpha -> Bool} {c : alpha} (hc : p c = false)
    (front rest : List alpha) :
    trimEnd p (front ++ c :: rest) = front ++ c :: trimEnd p rest := by
  induction front with
  | nil => simp [trimEnd_cons, hc]
  | cons d front ih => simp [trimEnd_cons, ih]

theorem last_of_trimEnd {p : Char -> Bool} {cs : List Char} {c : Char}
    (h : (trimEnd p cs).getLast? = some c) : p c = false := by
  induction cs with
  | nil => cases h
  | cons d cs ih =>
      rw [trimEnd_cons] at h
      split at h
      · cases h
      · rename_i hkept
        by_cases hnil : trimEnd p cs = []
        · rw [hnil, List.getLast?_singleton] at h
          rw [← Option.some.inj h]
          exact Bool.eq_false_iff.mpr fun hd => hkept ⟨hnil, hd⟩
        · rw [List.getLast?_cons_of_ne_nil hnil] at h
          exact ih h

theorem trimEnd_of_allBlank {v : List Char} (hv : AllBlank v) (rest : List Char) :
    trimEnd isBlank (v ++ rest) =
      if trimEnd isBlank rest = [] then [] else v ++ trimEnd isBlank rest := by
  induction v with
  | nil => simp
  | cons c v ih =>
      rw [List.cons_append, trimEnd_cons, ih fun d hd => hv d (List.mem_cons_of_mem c hd)]
      by_cases hrest : trimEnd isBlank rest = []
      · simp [hrest, hv c List.mem_cons_self]
      · simp [hrest]

/-!
## Chunks as pieces
-/

/-- A chunk stands in a text that starts at an offset. -/
def Chunk.StandsIn (chunk : Chunk) (offset : Nat) (text : List Char) : Prop :=
  exists before after,
    text = before ++ chunk.text ++ after ∧
      chunk.start = offset + byteLength before

theorem Chunk.StandsIn.prepend {chunk : Chunk} {offset : Nat}
    {front text : List Char}
    (h : chunk.StandsIn (offset + byteLength front) text) :
    chunk.StandsIn offset (front ++ text) := by
  rcases h with ⟨before, after, htext, hstart⟩
  refine ⟨front ++ before, after, ?_, ?_⟩
  · simp [htext]
  · rw [hstart, byteLength_append, Nat.add_assoc]

theorem collectChunks_continuation (offset : Nat) (lines : List (List Char)) :
    exists after, lines.flatten = (collectChunks offset lines).1 ++ after := by
  induction lines generalizing offset with
  | nil =>
      exact ⟨[], rfl⟩
  | cons line rest ih =>
      rcases ih (offset + byteLength line) with ⟨after, hrest⟩
      simp only [collectChunks]
      split
      · exact ⟨(line :: rest).flatten, rfl⟩
      · exact ⟨after, by simp [hrest]⟩

theorem collectChunks_standsIn (offset : Nat) (lines : List (List Char)) :
    forall chunk, chunk ∈ (collectChunks offset lines).2 ->
      chunk.StandsIn offset lines.flatten := by
  induction lines generalizing offset with
  | nil =>
      intro chunk hchunk
      cases hchunk
  | cons line rest ih =>
      intro chunk hchunk
      have hlater : chunk ∈ (collectChunks (offset + byteLength line) rest).2 ->
          chunk.StandsIn offset (line ++ rest.flatten) :=
        fun hmem => (ih (offset + byteLength line) chunk hmem).prepend
      rw [List.flatten_cons]
      simp only [collectChunks] at hchunk
      split at hchunk
      · rcases List.mem_cons.mp hchunk with hfirst | hrest
        · -- The first chunk: this line and what continues it, trimmed.
          rcases collectChunks_continuation (offset + byteLength line) rest
            with ⟨after, hafter⟩
          rcases trimEnd_append isBlank
              (line ++ (collectChunks (offset + byteLength line) rest).1)
            with ⟨blanks, hblanks, _⟩
          subst hfirst
          refine ⟨[], blanks ++ after, ?_, rfl⟩
          rw [hafter, ← List.append_assoc]
          simpa using congrArg (· ++ after) hblanks
        · exact hlater hrest
      · exact hlater hchunk

theorem chunksFrom_standsIn {offset : Nat} {masked : List Char} {chunk : Chunk}
    (h : chunk ∈ chunksFrom offset masked) : chunk.StandsIn offset masked := by
  have hstands :=
    collectChunks_standsIn offset (rawLines masked) chunk h
  rwa [flatten_rawLines] at hstands

theorem sourceChunks_standsIn {source : List Char} {chunk : Chunk}
    (h : chunk ∈ sourceChunks source) : chunk.StandsIn 0 (mask source) := by
  cases source with
  | nil =>
      cases h
  | cons c cs =>
      simp only [sourceChunks] at h
      split at h
      · rename_i hmark
        have hmasked : mask (c :: cs) = blank c ++ maskFrom Scanner.start cs := by
          simp only [mask, hmark, if_true]
        rw [hmasked]
        rw [hmasked, ← byteLength_blank c, dropBytes_append] at h
        have hstands := chunksFrom_standsIn h
        rw [← Nat.zero_add (byteLength (blank c))] at hstands
        exact hstands.prepend
      · exact chunksFrom_standsIn h

end Syntax
end ElmNavigator
