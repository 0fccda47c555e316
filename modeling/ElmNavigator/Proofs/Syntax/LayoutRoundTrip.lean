import ElmNavigator.Proofs.Syntax.LayoutReading

/-!
# Reading back what is written

A module that is laid out in any way is read as what it stands for.  Nothing in
it is masked, so its chunks are its declarations, and each is read by the rule
for it.
-/

namespace ElmNavigator
namespace Syntax

open Text Rule

/-!
## Where declarations end
-/

theorem IsWord.endsWord {text : List Char} (h : IsWord text) : EndsWord text :=
  ⟨text.dropLast, text.getLast h.left, (List.dropLast_append_getLast h.left).symm,
    h.right _ (List.getLast_mem h.left)⟩

theorem EndsWord.last {c : Char} (h : isBlank c = false) : EndsWord [c] :=
  ⟨[], c, rfl, h⟩

namespace Layout

theorem Upper.endsWord (name : Upper) : EndsWord name.text :=
  (isWord_of_upper name.spelled).endsWord

theorem Dotted.endsWord (name : Dotted) : EndsWord name.text := by
  refine (isWord_append (isWord_of_upper name.first.spelled) ?_).endsWord
  intro c hc
  rcases List.mem_flatMap.mp hc with ⟨part, _, hpart⟩
  rcases List.mem_cons.mp hpart with hdot | hname
  · rw [hdot]
    decide
  · exact (isWord_of_upper part.spelled).right c hname

theorem Parens.endsWord {α : Type} (text : α -> List Char) (p : Parens α) :
    EndsWord (p.text text) := by
  have hclose : EndsWord [')'] := EndsWord.last (by decide)
  exact (((hclose.append p.closing.text).append (text p.inner)).append p.opening.text).append ['(']

theorem Exposing.endsWord (e : Exposing) : EndsWord e.text :=
  ((e.list.endsWord _).append e.gap.text).append "exposing".toList

theorem endsWord_option {α : Type} {text : α -> List Char} {front : List Char}
    (hfront : EndsWord front) (h : forall a, EndsWord (text a)) (a? : Option α) :
    EndsWord (front ++ optionText text a?) := by
  cases a? with
  | none =>
      rw [optionText, List.append_nil]
      exact hfront
  | some a => exact (h a).append front

theorem Alias.endsWord (a : Alias) : EndsWord a.text :=
  ((a.name.endsWord.append a.behind.text).append "as".toList).append a.before.text

theorem ImportLine.endsWord (i : ImportLine) : EndsWord i.text := by
  have hname := endsWord_option i.module.endsWord Alias.endsWord i.asName
  have hline := endsWord_option hname (fun e => e.2.endsWord.append e.1.text) i.exposing
  rw [List.append_assoc] at hline
  exact (hline.append i.gap.text).append "import".toList

theorem ImportLine.starts (i : ImportLine) : StartsWord i.text :=
  ⟨'i', _, rfl, by decide⟩

theorem Heading.endsWord (h : Heading) : EndsWord h.text :=
  (((((h.exposing.endsWord.append _).append h.behind.text).append h.name.text).append
    h.gap.text).append "module".toList).append h.kind.text

theorem Heading.opens (h : Heading) : Opens h.text := by
  unfold Heading.text
  cases h.kind with
  | plain => exact ⟨'m', _, rfl, by decide⟩
  | port gap => exact ⟨'p', _, rfl, by decide⟩
  | effect gap clause => exact ⟨'e', _, rfl, by decide⟩

/-!
## The chunks of a source
-/

theorem LineBreak.endsLine (b : LineBreak) (front : List Char) : EndsLine (front ++ b.text) := by
  rcases List.getLast?_eq_some_iff.mp b.feed with ⟨text, htext⟩
  exact Or.inr ⟨front ++ text, by rw [htext, List.append_assoc]⟩

def importsText (imports : List (LineBreak × ImportLine)) : List Char :=
  imports.flatMap fun i => i.1.text ++ i.2.text

/-- The induction is on the imports, and the declaration in front of them changes. -/
theorem chunksFrom_imports (imports : List (LineBreak × ImportLine)) {text trailing : List Char}
    (hcoded : Coded text) (hstarts : StartsWord text) (hends : EndsWord text)
    (htrailing : AllBlank trailing) (offset : Nat) :
    (chunksFrom offset (text ++ (importsText imports ++ trailing))).map Chunk.text =
      text :: imports.map fun i => i.2.text := by
  induction imports generalizing text offset with
  | nil =>
      have hchunk := hcoded.chunksFrom hstarts hends htrailing offset
      exact congrArg (List.map Chunk.text) hchunk
  | cons i imports ih =>
      have htext : text ++ (importsText (i :: imports) ++ trailing) =
          (text ++ i.1.text) ++ (i.2.text ++ (importsText imports ++ trailing)) := by
        simp [importsText]
      rw [htext, chunksFrom_append (i.1.endsLine text) (i.2.starts.append _),
        hcoded.chunksFrom hstarts hends i.1.blank, List.map_append,
        ih i.2.coded i.2.starts i.2.endsWord]
      rfl

end Layout

theorem chunksFrom_of_allBlank {text : List Char} (h : AllBlank text) (offset : Nat) :
    chunksFrom offset text = [] := by
  have hlines := collectChunks_of_blank (fun _ hline => startsChunk_of_allBlank h hline) offset []
  rw [List.append_nil] at hlines
  unfold chunksFrom
  rw [hlines]
  rfl

theorem sourceChunks_of_kept {text : List Char} (h : Kept text)
    (hmark : text.head? ≠ some byteOrderMark) : sourceChunks text = chunksFrom 0 text := by
  rcases h none [] with ⟨last, hmask⟩
  rw [List.append_nil] at hmask
  have hkept : maskFrom Scanner.start text = text := by
    exact hmask.trans (List.append_nil text)
  rw [sourceChunks_eq, unmarked, markLength, if_neg hmark, if_neg hmark, hkept]

namespace Layout

theorem Source.kept (s : Source) (h : s.heading.OpensNoComment) : Kept s.text :=
  (kept_of_allBlank s.leadingBlank).append ((s.heading.coded h).kept.append
    ((Kept.flatMap fun i => (kept_of_allBlank i.1.blank).append i.2.coded.kept).append
      (kept_of_allBlank s.trailingBlank)))

theorem Source.head?_ne (s : Source) : s.text.head? ≠ some byteOrderMark := by
  unfold Source.text
  intro hmark
  cases hleading : s.leading with
  | nil =>
      rcases s.heading.opens with ⟨c, cs, htext, hc⟩
      rw [hleading, htext] at hmark
      injection hmark with hmark
      exact ne_of_class (p := fun c => isIdentChar c || c == '(') hc (by decide +kernel) hmark
  | cons c cs =>
      have hblank := s.leadingBlank c (hleading ▸ List.mem_cons_self)
      rw [hleading] at hmark
      injection hmark with hmark
      exact ne_of_isBlank hblank (by decide) hmark

theorem Source.chunks (s : Source) (h : s.heading.OpensNoComment) :
    (sourceChunks s.text).map Chunk.text = s.heading.text :: s.imports.map fun i => i.2.text := by
  rw [sourceChunks_of_kept (s.kept h) s.head?_ne, Source.text,
    chunksFrom_append s.leadingLines (s.heading.opens.starts.append _),
    chunksFrom_of_allBlank s.leadingBlank, List.nil_append]
  exact chunksFrom_imports s.imports (s.heading.coded h) s.heading.opens.starts s.heading.endsWord
    s.trailingBlank _

/-!
## The outline of a source
-/

end Layout

theorem Rule.Reads.read {α : Type} {p : Rule α} {text rest : List Char} {good : α -> Prop}
    (h : p.Reads text rest good) {chunk : Chunk} (htext : chunk.text = text)
    (failure : ParseFailure) : exists a, chunk.read p failure = .ok a ∧ good a := by
  rcases h chunk.start with ⟨a, last, hresult, hgood⟩
  refine ⟨a, ?_, hgood⟩
  unfold Chunk.read Chunk.cursor
  rw [htext, hresult]

namespace Layout

theorem readDeclarations_imports (imports : List (LineBreak × ImportLine)) {chunks : List Chunk}
    (h : chunks.map Chunk.text = imports.map fun i => i.2.text) :
    exists decls : List (Import Span), readDeclarations chunks = .ok (decls.map .import_) ∧
      decls.map (Import.map fun _ => ()) = imports.map fun i => i.2.outline := by
  induction imports generalizing chunks with
  | nil =>
      rw [List.map_eq_nil_iff.mp h]
      exact ⟨[], rfl, rfl⟩
  | cons i imports ih =>
      rcases List.map_eq_cons_iff.mp h with ⟨chunk, others, hchunks, htext, hothers⟩
      subst hchunks
      rcases i.2.reads_declaration.read htext .unrecognizedDeclaration with
        ⟨_, hread, decl, rfl, hdecl⟩
      rcases ih hothers with ⟨decls, hdecls, houtlines⟩
      refine ⟨decl :: decls, ?_, ?_⟩
      · rw [readDeclarations, hread, hdecls]
        rfl
      · rw [List.map_cons, List.map_cons, hdecl, houtlines]

theorem assemble_imports (head : Header) (decls : List (Import Span)) :
    assemble head (decls.map .import_) =
      { name := head.name.name, kind := head.kind, exposing := head.exposing, imports := decls,
        types := [], functions := [], ports := [], location := head.name.location } := by
  unfold assemble
  simp [List.filterMap_map, Declaration.import?, Declaration.type?, Declaration.function?,
    Declaration.port?]

theorem Source.readOutline (s : Source) (h : s.heading.OpensNoComment) :
    exists m, readOutline s.text = .ok m ∧ m.map (fun _ => ()) = s.outline := by
  rcases List.map_eq_cons_iff.mp (s.chunks h) with ⟨first, others, hchunks, htext, hothers⟩
  rcases s.heading.reads.read htext .invalidHeader with ⟨head, hhead, hkind, hname, hexposing⟩
  rcases readDeclarations_imports s.imports hothers with ⟨decls, hdecls, houtlines⟩
  refine ⟨assemble head (decls.map .import_), ?_, ?_⟩
  · unfold Syntax.readOutline
    rw [hchunks]
    simp only [hhead, hdecls]
  · rw [assemble_imports]
    simp only [Outline.map, Source.outline, hname, hkind, ← hexposing, ← houtlines]
    rfl

/-!
## Lists of imports that expose everything
-/

theorem isAll_typeEntries (name : String) (members : Selection Upper) :
    ((typeEntries name members).any fun e => e.isAll) = false := by
  cases members with
  | all => rfl
  | listed list => simp [typeEntries, Exposed.isAll]

theorem Item.isAll_entries (item : Item) : (item.entries.any fun e => e.isAll) = false := by
  cases item with
  | value name => rfl
  | operator name => rfl
  | type name => rfl
  | typeWith name gap members => exact isAll_typeEntries _ members.inner

theorem Exposing.isAll_entries (e : Exposing) :
    (e.entries.any fun entry => entry.isAll) = e.isAll := by
  unfold Exposing.entries Exposing.isAll
  cases e.list.inner with
  | all => rfl
  | listed list => simp [List.any_flatMap, Item.isAll_entries]

theorem ImportLine.exposesAll_outline (i : ImportLine) : i.outline.exposesAll = i.isAll := by
  unfold Import.exposesAll ImportLine.outline ImportLine.isAll
  cases i.exposing with
  | none => rfl
  | some e => exact e.2.isAll_entries

end Layout

theorem Import.exposesAll_map {ℓ κ : Type} (f : ℓ -> κ) (i : Import ℓ) :
    (i.map f).exposesAll = i.exposesAll := by
  have hall : forall e : Exposed ℓ, (e.map f).isAll = e.isAll := by
    intro e
    cases e with
    | all l => rfl
    | value name l => rfl
    | type name isOpen l => rfl
    | constructor name typeName l => rfl
  unfold Import.exposesAll Import.map
  simp [List.any_map, Function.comp_def, hall]

namespace Layout

/-- However a module is laid out, it is read as what it stands for, and the imports that expose
everything are those that are written with `(..)`. -/
theorem parse_layout (s : Source) (h : s.heading.OpensNoComment) :
    exists m, parse (String.ofList s.text) = .ok m ∧ m.map (fun _ => ()) = s.outline ∧
      m.imports.map (·.exposesAll) = s.imports.map fun i => i.2.isAll := by
  rcases s.readOutline h with ⟨read, hread, houtline⟩
  have hmap : (read.map (locate s.text)).map (fun _ => ()) = s.outline :=
    (Outline.map_map _ _ read).trans houtline
  refine ⟨read.map (locate s.text), ?_, hmap, ?_⟩
  · unfold parse
    rw [String.toList_ofList, hread]
  · have himports := congrArg (fun m => m.imports.map fun i => i.exposesAll) hmap
    simpa [Outline.map, Source.outline, Import.exposesAll_map,
      ImportLine.exposesAll_outline, Function.comp_def] using himports

/-- An effect module with a clause, in which names, an operator and constructors are exposed, and
which goes on over several lines. -/
def effectModule (clause : Clause) : Source :=
  let none : Space := ⟨[], by decide, by decide⟩
  let one : Break := ⟨⟨[' '], by decide, by decide⟩, by decide⟩
  let line : Break := ⟨⟨['\n', '\t'], by decide, by decide⟩, by decide⟩
  let next : LineBreak := ⟨[' ', '\r', '\n', '\n'], by decide, by decide⟩
  let a : Upper := ⟨"A".toList, by decide⟩
  let b : Upper := ⟨"B'".toList, by decide⟩
  { leading := ['\n'], leadingBlank := by decide, leadingLines := by decide
    heading :=
      { kind := .effect one (some clause), gap := one, name := ⟨a, [b]⟩, behind := line
        exposing :=
          { gap := line.toSpace
            list := ⟨none, .listed ⟨.value ⟨"f'".toList, by decide⟩,
              [(none, one.toSpace, .operator
                  ⟨"-".toList, by decide, List.all_eq_true.mp (by decide), by decide⟩),
                (line.toSpace, none, .typeWith a one.toSpace ⟨none, .all, none⟩),
                (none, none, .typeWith b none
                  ⟨one.toSpace, .listed ⟨a, [(none, none, b)]⟩, none⟩)]⟩, none⟩ } }
    imports :=
      [(next, ⟨one, ⟨b, []⟩, some ⟨one, line, a⟩, some (one, ⟨none, ⟨none, .all, none⟩⟩)⟩),
        (next, ⟨line, ⟨a, [a]⟩, Option.none, Option.none⟩)]
    trailing := [], trailingBlank := by decide }

def commandClause : Clause :=
  { gap := ⟨[' '], by decide, by decide⟩, inside := " command = A ".toList,
    behind := ⟨[' '], by decide, by decide⟩, braces := by decide, quotes := by decide,
    dashes := by decide, indented := by decide, inner := by decide }

theorem parse_layout_command :
    (effectModule commandClause).heading.OpensNoComment ∧
      exists m, parse (String.ofList (effectModule commandClause).text) = .ok m ∧
        m.map (fun _ => ()) = (effectModule commandClause).outline ∧
        m.imports.map (·.exposesAll) = [true, false] := by
  have hopens : (effectModule commandClause).heading.OpensNoComment := by
    intro c hc
    cases hc
    decide
  exact ⟨hopens, parse_layout (effectModule commandClause) hopens⟩

def dashedClause : Clause :=
  { gap := ⟨[' '], by decide, by decide⟩, inside := "-x".toList,
    behind := ⟨[' '], by decide, by decide⟩, braces := by decide, quotes := by decide,
    dashes := by decide, indented := by decide, inner := by decide }

/-- The brace and the dash begin a comment, and the header is not read. -/
theorem parse_dashedClause :
    ¬ exists m, parse (String.ofList (effectModule dashedClause).text) = .ok m := by
  have hfails : (parse (String.ofList (effectModule dashedClause).text)).isOk = false := by
    decide +kernel
  rintro ⟨m, hm⟩
  rw [hm] at hfails
  cases hfails

end Layout
end Syntax
end ElmNavigator
