import ElmNavigator.Proofs.Syntax.AlignedGrammar
import ElmNavigator.Proofs.Syntax.ChunkSeams
import ElmNavigator.Proofs.Syntax.NamePlaces

/-!
# Declarations behind a module

A module to which declarations are appended keeps all it had.  What is appended
is read as it would be behind any other module, so its outline is the same up to
places, and places are moved by whole lines.
-/

namespace ElmNavigator
namespace Syntax

open Text Rule

/-!
## Positions in texts put together
-/

theorem line_advanceAll (cs : List Char) (line column : Nat) :
    (advanceAll cs line column).1 = line + cs.count '\n' := by
  induction cs generalizing line column with
  | nil => rfl
  | cons c cs ih =>
      show (advanceAll cs (advance c line column).1 (advance c line column).2).1 = _
      rw [ih, List.count_cons, advance]
      by_cases hc : c = '\n'
      · simp only [hc, if_true, beq_self_eq_true]
        omega
      · simp [hc]

theorem EndsLine.advanceAll {text : List Char} (h : EndsLine text) (line : Nat) :
    advanceAll text line 0 = (line + text.count '\n', 0) := by
  apply Prod.ext
  · exact line_advanceAll text line 0
  · rcases h with hnil | ⟨front, hfront⟩
    · rw [hnil]
      rfl
    · rw [hfront, advanceAll_append]
      rfl

theorem lineColFrom_behind (front text : List Char) (offset line column : Nat) :
    lineColFrom (front ++ text) (offset + byteLength front) line column =
      lineColFrom text offset (advanceAll front line column).1
        (advanceAll front line column).2 := by
  induction front generalizing line column with
  | nil => rfl
  | cons c cs ih =>
      have hsize : ¬ offset + (c.utf8Size + byteLength cs) < c.utf8Size := by
        omega
      have hrest : offset + (c.utf8Size + byteLength cs) - c.utf8Size =
          offset + byteLength cs := by
        omega
      simp only [List.cons_append, byteLength_cons, lineColFrom, hsize, if_false, hrest]
      exact ih _ _

theorem lineColFrom_add (text : List Char) (offset line column more : Nat) :
    lineColFrom text offset (line + more) column =
      ((lineColFrom text offset line column).1 + more,
        (lineColFrom text offset line column).2) := by
  induction text generalizing offset line column with
  | nil => rfl
  | cons c cs ih =>
      simp only [lineColFrom]
      split
      · rfl
      · have hadvance : advance c (line + more) column =
            ((advance c line column).1 + more, (advance c line column).2) := by
          unfold advance
          split
          · rw [Nat.add_right_comm]
          · rfl
        rw [hadvance]
        exact ih _ _ _

/-- A place in a text that stands behind whole lines. -/
def behindPosition (front : List Char) (p : Position) : Position :=
  { offset := p.offset + byteLength front, line := p.line + front.count '\n',
    column := p.column }

def behind (front : List Char) (l : Location) : Location :=
  { start := behindPosition front l.start, stop := behindPosition front l.stop }

theorem position_behind {front : List Char} (h : EndsLine front) (text : List Char)
    (offset : Nat) :
    position (front ++ text) (offset + byteLength front) =
      behindPosition front (position text offset) := by
  unfold position lineCol behindPosition
  rw [lineColFrom_behind, h.advanceAll, lineColFrom_add]
  simp only [byteLength_append, Position.mk.injEq, and_true]
  omega

theorem lineColFrom_of_le {text : List Char} {offset : Nat} (h : offset ≤ byteLength text)
    (rest : List Char) (line column : Nat) :
    lineColFrom (text ++ rest) offset line column = lineColFrom text offset line column := by
  induction text generalizing offset line column with
  | nil =>
      rw [Nat.le_zero.mp h]
      exact lineColFrom_zero rest line column
  | cons c cs ih =>
      simp only [List.cons_append, lineColFrom]
      split
      · rfl
      · rename_i hsize
        rw [byteLength_cons] at h
        exact ih (by omega) _ _

theorem position_of_le {text : List Char} {offset : Nat} (h : offset ≤ byteLength text)
    (rest : List Char) : position (text ++ rest) offset = position text offset := by
  unfold position lineCol
  rw [lineColFrom_of_le h, byteLength_append]
  simp only [Position.mk.injEq, and_true]
  omega

/-!
## Chunks that are moved
-/

def Cursor.moveBy (distance : Nat) (c : Cursor) : Cursor :=
  { offset := c.offset + distance, rest := c.rest }

/-- A text on its own and the same text behind another one. -/
def movedBehind (front text : List Char) : Alignment Location where
  cursors c d := d = c.moveBy (byteLength front)
  stops m n := n = m + byteLength front
  left := behind front ∘ locate text
  right := locate (front ++ text)

theorem Cursor.moveBy_add (offset distance read : Nat) (rest : List Char) :
    ({ offset := offset + distance + read, rest } : Cursor) =
      Cursor.moveBy distance { offset := offset + read, rest } := by
  unfold Cursor.moveBy
  rw [Nat.add_right_comm]

section MovedBehind

variable (front text : List Char)

theorem movedBehind_satisfy (q : Char -> Bool) :
    (movedBehind front text).Agree (satisfy q) (satisfy q) anyValues := by
  rintro ⟨offset, rest⟩ _ rfl
  cases rest with
  | nil => exact Outcome.Aligned.stopped rfl
  | cons c cs =>
      simp only [satisfy, Cursor.moveBy]
      split
      · exact Outcome.Aligned.ok (Cursor.moveBy_add _ _ _ _) trivial
      · exact Outcome.Aligned.stopped rfl

theorem movedBehind_skipWhile (q : Char -> Bool) :
    (movedBehind front text).Agree (skipWhile q) (skipWhile q) anyValues := by
  rintro ⟨offset, rest⟩ _ rfl
  exact Outcome.Aligned.ok (Cursor.moveBy_add _ _ _ _) trivial

variable {front} in
theorem movedBehind_lawful (h : EndsLine front) : (movedBehind front text).Lawful where
  satisfy _ := movedBehind_satisfy front text _
  skipWhile _ := movedBehind_skipWhile front text _
  blanks1 := (movedBehind_satisfy front text isBlank).then fun _ _ =>
    movedBehind_skipWhile front text isBlank
  word := by
    rintro w _ ⟨offset, rest⟩ _ rfl
    simp only [word, Cursor.moveBy]
    cases w.toList.isPrefixOf? rest with
    | none => exact Outcome.Aligned.stopped rfl
    | some behind => exact Outcome.Aligned.ok (Cursor.moveBy_add _ _ _ _) trivial
  atEnd := by
    rintro ⟨offset, rest⟩ _ rfl
    cases rest with
    | nil => exact Outcome.Aligned.ok rfl trivial
    | cons c cs => exact Outcome.Aligned.stopped rfl
  constructorArgs := by
    rintro ⟨offset, rest⟩ _ rfl
    exact Outcome.Aligned.ok (Cursor.moveBy_add _ _ _ _) trivial
  unbroken := by
    rintro c _ next _ read readRight rfl rfl hsteps hstepsRight _ _
    constructor
    · have hrest : c.rest = readRight ++ next.rest := hstepsRight.left
      rw [hsteps.left] at hrest
      exact (List.append_left_inj next.rest).mp hrest
    · simp only [movedBehind, Function.comp, locate, behind, Cursor.moveBy, position_behind h]

theorem sameChunk_moveBy (chunks : List Chunk) :
    List.Forall₂ (movedBehind front text).SameChunk chunks
      (chunks.map (Chunk.moveBy (byteLength front))) := by
  induction chunks with
  | nil => exact List.Forall₂.nil
  | cons chunk chunks ih => exact List.Forall₂.cons rfl ih

end MovedBehind

/-!
## Declarations behind a module
-/

theorem readDeclarations_append {xs : List Chunk} {ds : List Declaration}
    (h : readDeclarations xs = .ok ds) (ys : List Chunk) :
    readDeclarations (xs ++ ys) = (readDeclarations ys).map (ds ++ ·) := by
  induction xs generalizing ds with
  | nil =>
      injection h with hds
      subst hds
      cases hys : readDeclarations ys with
      | error e => exact hys
      | ok es => exact hys
  | cons x xs ih =>
      simp only [readDeclarations] at h
      cases hx : x.read declaration .unrecognizedDeclaration with
      | error e =>
          rw [hx] at h
          cases h
      | ok first =>
          rw [hx] at h
          cases hxs : readDeclarations xs with
          | error e =>
              rw [hxs] at h
              cases h
          | ok others =>
              rw [hxs] at h
              injection h with hds
              subst hds
              rw [List.cons_append, readDeclarations, hx, ih hxs]
              cases readDeclarations ys with
              | error e => rfl
              | ok es => rfl

theorem readOutline_append {source rest : List Char} {later : List Chunk} {m : Outline Span}
    (h : readOutline source = .ok m)
    (hchunks : sourceChunks (source ++ rest) = sourceChunks source ++ later) :
    readOutline (source ++ rest) =
      (readDeclarations later).map fun ds => m.extend (Declared.ofList ds) := by
  unfold readOutline at h ⊢
  rw [hchunks]
  cases hsource : sourceChunks source with
  | nil =>
      rw [hsource] at h
      cases h
  | cons first others =>
      rw [hsource] at h
      simp only [List.cons_append] at h ⊢
      cases hheader : first.read header .invalidHeader with
      | error e =>
          rw [hheader] at h
          cases h
      | ok head =>
          rw [hheader] at h
          simp only at h ⊢
          cases hdecls : readDeclarations others with
          | error e =>
              rw [hdecls] at h
              cases h
          | ok decls =>
              rw [hdecls] at h
              injection h with hm
              subst hm
              rw [readDeclarations_append hdecls]
              cases readDeclarations later with
              | error e => rfl
              | ok ds => exact congrArg Except.ok (assemble_append head decls ds)

/-!
## Places of what was there before
-/

section Places

variable {ℓ κ ι : Type}

theorem Declared.map_map (f : κ -> ι) (g : ℓ -> κ) (d : Declared ℓ) :
    (d.map g).map f = d.map (f ∘ g) := by
  simp only [Declared.map, List.map_map, Declared.mk.injEq]
  exact ⟨List.map_congr_left fun i _ => Import.map_map f g i,
    List.map_congr_left fun t _ => TypeDecl.map_map f g t, rfl, rfl⟩

variable {f g : ℓ -> κ}

theorem Exposed.map_congr {e : Exposed ℓ}
    (h : f e.written.location = g e.written.location) : e.map f = e.map g := by
  cases e with
  | all l => exact congrArg _ h
  | value name l => exact congrArg _ h
  | type name isOpen l => exact congrArg _ h
  | constructor name typeName l => exact congrArg _ h

theorem Named.map_congr {n : Named ℓ} (h : f n.location = g n.location) :
    n.map f = n.map g :=
  congrArg _ h

theorem Import.map_congr {i : Import ℓ}
    (h : forall n, n ∈ i.written -> f n.location = g n.location) : i.map f = i.map g := by
  have hentries : i.exposing.map (·.map f) = i.exposing.map (·.map g) := by
    apply List.map_congr_left
    intro e he
    exact Exposed.map_congr (h _ (List.mem_cons_of_mem _ (List.mem_map_of_mem he)))
  unfold Import.map
  rw [hentries, h _ List.mem_cons_self]

theorem TypeDecl.map_congr {t : TypeDecl ℓ}
    (h : forall n, n ∈ t.written -> f n.location = g n.location) : t.map f = t.map g := by
  cases t with
  | synonym name l => exact congrArg _ (h _ List.mem_cons_self)
  | custom name constructors l =>
      have hconstructors : constructors.map (·.map f) = constructors.map (·.map g) := by
        apply List.map_congr_left
        intro n hn
        exact Named.map_congr (h n (List.mem_cons_of_mem _ hn))
      have hname : f l = g l := h _ List.mem_cons_self
      simp only [TypeDecl.map]
      rw [hconstructors, hname]

/-- Only the places of the names that are written matter. -/
theorem Outline.map_congr {m : Outline ℓ}
    (h : forall n, n ∈ m.written -> f n.location = g n.location) : m.map f = m.map g := by
  simp only [Outline.written, List.cons_append, List.mem_cons, List.mem_append,
    List.mem_flatMap] at h
  have hexposing : m.exposing.map (·.map f) = m.exposing.map (·.map g) := by
    apply List.map_congr_left
    intro e he
    exact Exposed.map_congr (h _ (by simp [List.mem_map_of_mem he]))
  have himports : m.imports.map (·.map f) = m.imports.map (·.map g) := by
    apply List.map_congr_left
    intro i hi
    exact Import.map_congr fun n hn =>
      h n (.inr (.inl (.inl (.inl (.inr ⟨i, hi, hn⟩)))))
  have htypes : m.types.map (·.map f) = m.types.map (·.map g) := by
    apply List.map_congr_left
    intro t ht
    exact TypeDecl.map_congr fun n hn => h n (.inr (.inl (.inl (.inr ⟨t, ht, hn⟩))))
  have hfunctions : m.functions.map (·.map f) = m.functions.map (·.map g) := by
    apply List.map_congr_left
    intro n hn
    exact Named.map_congr (h n.spelled (.inr (.inl (.inr (List.mem_map_of_mem hn)))))
  have hports : m.ports.map (·.map f) = m.ports.map (·.map g) := by
    apply List.map_congr_left
    intro n hn
    exact Named.map_congr (h n (.inr (.inr hn)))
  unfold Outline.map
  rw [hexposing, himports, htypes, hfunctions, hports, h _ (.inl rfl)]

end Places

theorem locate_of_read {source : List Char} {m : Outline Span}
    (h : readOutline source = .ok m) (rest : List Char) :
    m.map (locate (source ++ rest)) = m.map (locate source) := by
  apply Outline.map_congr
  intro n hn
  rcases readOutline_shown h n hn with ⟨chunk, hchunk, hshows⟩
  rcases shows_of_chunk hchunk hshows with ⟨_, before, after, hsource, hstart, hstop⟩
  have hlength := congrArg byteLength hsource
  simp only [byteLength_append] at hlength hstart hstop
  unfold locate
  rw [position_of_le (by omega), position_of_le (by omega)]

/-!
## Declarations on their own
-/

/-- Texts that begin with a letter, a numeral, `_` or `(`. -/
def StartsDeclaration (text : List Char) : Prop :=
  exists c cs, text = c :: cs ∧ (isAlphanumeric c || c == '_' || c == '(') = true

theorem StartsDeclaration.head? {text : List Char} (h : StartsDeclaration text) :
    text.head? ≠ some '\'' := by
  rcases h with ⟨c, cs, htext, hc⟩
  rw [htext]
  intro hhead
  injection hhead with hhead
  exact ne_of_class (p := fun c => isAlphanumeric c || c == '_' || c == '(') hc (by decide) hhead

theorem StartsDeclaration.startsWord {text : List Char} (h : StartsDeclaration text)
    (previous : Option Char) : StartsWord (maskFrom (Scanner.inCode previous) text) := by
  rcases h with ⟨c, cs, htext, hc⟩
  have hne : forall d, (isAlphanumeric d || d == '_' || d == '(') = false -> c ≠ d :=
    fun _ hd => ne_of_class (p := fun c => isAlphanumeric c || c == '_' || c == '(') hc hd
  have hblank : isBlank c = false := by
    rcases Bool.or_eq_true_iff.mp hc with hident | hopen
    · exact isBlank_of_isIdentChar (by simp [isIdentChar, hident])
    · rw [eq_of_beq hopen]
      decide
  refine ⟨c, maskFrom (Scanner.inCode (some c)) cs, ?_, hblank⟩
  rw [htext]
  simp [maskFrom, Scanner.step, Scanner.stepCode, Scanner.inCode, hne '-' (by decide),
    hne '{' (by decide), hne '"' (by decide), hne '\'' (by decide)]

def readDeclared (text : List Char) : Except ParseError (Declared Location) :=
  (readDeclarations (chunksFrom 0 (maskFrom (Scanner.inCode none) text))).map fun ds =>
    (Declared.ofList ds).map (locate text)

theorem Outline.declared_extend {ℓ : Type} {m : Outline ℓ} (h : m.declared = ⟨[], [], [], []⟩)
    (later : Declared ℓ) : (m.extend later).declared = later := by
  injection h with himports htypes hfunctions hports
  simp only [Outline.declared, Outline.extend, himports, htypes, hfunctions, hports,
    List.nil_append]

theorem parse_behind {source text : String} {m : Outline Location}
    (hparse : parse source = .ok m) (hline : EndsLine source.toList)
    (hcode : (scan source.toList).region = .code)
    (htext : StartsDeclaration text.toList) :
    parse (source ++ text) =
      match readDeclared text.toList with
      | .ok later => .ok (m.extend (later.map (behind source.toList)))
      | .error e =>
          .error { failure := e.failure, offset := e.offset + byteLength source.toList } := by
  cases hread : readOutline source.toList with
  | error e =>
      unfold parse at hparse
      rw [hread] at hparse
      cases hparse
  | ok outline =>
      unfold parse at hparse
      rw [hread] at hparse
      injection hparse with hm
      have hne : source.toList ≠ [] := by
        intro hnil
        rw [hnil] at hread
        cases hread
      rcases Scanner.run_eq_inCode hcode with ⟨previous, hscan⟩
      have hmask : maskFrom (scan source.toList) text.toList =
          maskFrom (Scanner.inCode none) text.toList := by
        unfold scan
        rw [hscan]
        exact maskFrom_inCode htext.head? previous none
      have hchunks := sourceChunks_append hne hline
        (hmask ▸ htext.startsWord none)
      rw [hmask] at hchunks
      have houtline := readOutline_append hread hchunks
      have halike := (movedBehind_lawful text.toList hline).readDeclarations
        (sameChunk_moveBy source.toList text.toList
          (chunksFrom 0 (maskFrom (Scanner.inCode none) text.toList)))
      unfold parse readDeclared
      rw [String.toList_append, houtline]
      generalize readDeclarations (chunksFrom 0 (maskFrom (Scanner.inCode none) text.toList)) =
        alone, readDeclarations ((chunksFrom 0 (maskFrom (Scanner.inCode none)
          text.toList)).map (Chunk.moveBy (byteLength source.toList))) = appended at halike
      cases halike with
      | @error failure offset moved hstops =>
          have hoffset : moved = offset + byteLength source.toList := hstops
          rw [hoffset]
          rfl
      | ok hdecls =>
          have hlater := Alignment.same_declared hdecls
          refine congrArg Except.ok ?_
          rw [Outline.map_extend, locate_of_read hread, hm, Declared.map_map]
          exact congrArg m.extend hlater.symm

def emptyModule : String :=
  "module A exposing (..)\n"

theorem behind_comm (front back : List Char) :
    behind front ∘ behind back = behind back ∘ behind front := by
  funext l
  simp only [Function.comp, behind, behindPosition, Nat.add_right_comm]

/-- A module keeps all it had when declarations are appended to it, and they are read as they are
behind a module that has none: with the same outcome, as far behind the end of the one module as
behind the end of the other. -/
theorem parse_append {source text : String} {m : Outline Location}
    (hparse : parse source = .ok m) (hline : EndsLine source.toList)
    (hcode : (scan source.toList).region = .code)
    (htext : StartsDeclaration text.toList) :
    match parse (emptyModule ++ text) with
    | .ok k =>
        exists later : Declared Location,
          parse (source ++ text) = .ok (m.extend later) ∧
            later.map (behind emptyModule.toList) = k.declared.map (behind source.toList)
    | .error e =>
        exists offset,
          parse (source ++ text) = .error { failure := e.failure, offset } ∧
            offset + byteLength emptyModule.toList = e.offset + byteLength source.toList := by
  have hempty : exists nothing, parse emptyModule = .ok nothing ∧
      nothing.declared = ⟨[], [], [], []⟩ :=
    ⟨_, rfl, rfl⟩
  rcases hempty with ⟨nothing, hnothing, hdeclared⟩
  have halone := parse_behind hnothing (by decide) (by decide) htext
  have happended := parse_behind hparse hline hcode htext
  cases hread : readDeclared text.toList with
  | error e =>
      rw [hread] at halone happended
      rw [halone]
      exact ⟨_, happended, Nat.add_right_comm _ _ _⟩
  | ok declared =>
      rw [hread] at halone happended
      rw [halone]
      refine ⟨_, happended, ?_⟩
      rw [Outline.declared_extend hdeclared, Declared.map_map, Declared.map_map, behind_comm]

/-- A module with a comment, a prime and a string that looks like a comment. -/
def commentedModule : String :=
  "module B exposing (f)\n\x7b- a\n -\x7d\nf x' = \"\x7b-\"\n"

theorem parse_append_commented :
    exists m k later,
      parse commentedModule = .ok m ∧ EndsLine commentedModule.toList ∧
        (scan commentedModule.toList).region = .code ∧
        StartsDeclaration "type T = A | B -- b\n".toList ∧
        parse (emptyModule ++ "type T = A | B -- b\n") = .ok k ∧
        parse (commentedModule ++ "type T = A | B -- b\n") = .ok (m.extend later) ∧
        later.map (behind emptyModule.toList) =
          k.declared.map (behind commentedModule.toList) := by
  have hparse : exists m, parse commentedModule = .ok m := ⟨_, rfl⟩
  have halone : exists k, parse (emptyModule ++ "type T = A | B -- b\n") = .ok k := ⟨_, rfl⟩
  have hline : EndsLine commentedModule.toList := by decide
  have hcode : (scan commentedModule.toList).region = .code := by decide +kernel
  have htext : StartsDeclaration "type T = A | B -- b\n".toList := ⟨'t', _, rfl, by decide⟩
  rcases hparse with ⟨m, hm⟩
  rcases halone with ⟨k, hk⟩
  have happend := @parse_append commentedModule "type T = A | B -- b\n" m hm hline hcode htext
  rw [hk] at happend
  rcases happend with ⟨later, hlater, hmoved⟩
  exact ⟨m, k, later, hm, hline, hcode, htext, hk, hlater, hmoved⟩

end Syntax
end ElmNavigator
