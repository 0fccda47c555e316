import ElmNavigator.Proofs.Syntax.NameOrder
import ElmNavigator.Proofs.Text.LineOffsets
import ElmNavigator.Workspace.Symbol

/-!
# The symbols of a document

Each declaration of a module becomes one symbol.  The range of a symbol is counted
in lines and columns from zero; read as offsets again, it holds the symbol's name,
and the ranges of two symbols never overlap.
-/

namespace ElmNavigator

open Text Syntax

/-!
## Declarations by kind
-/

namespace Syntax

variable {ℓ : Type}

def TypeDecl.named : TypeDecl ℓ -> Named ℓ
  | .custom name _ l => { name, location := l }
  | .synonym name l => { name, location := l }

def TypeDecl.constructors : TypeDecl ℓ -> List (Named ℓ)
  | .custom _ constructors _ => constructors
  | .synonym _ _ => []

/-- The names that a module declares as symbols of a kind. -/
def Outline.named (m : Outline ℓ) : SymbolKind -> List (Named ℓ)
  | .type => m.types.map TypeDecl.named
  | .constructor => m.types.flatMap TypeDecl.constructors
  | .function => m.functions
  | .port => m.ports
  | .module => [{ name := m.name, location := m.location }]

end Syntax

namespace Symbol

/-- The text that stands for a symbol in its document. -/
def spelled (s : Symbol) : String :=
  if s.kind = .function then spelling s.name else s.name

section Listing

variable (container : String) (uri : Uri)

theorem filter_ofNamed (kind other : SymbolKind) (names : List (Named Location)) :
    (names.map (ofNamed container uri kind)).filter (·.kind = other) =
      if kind = other then names.map (ofNamed container uri kind) else [] := by
  rw [List.filter_map]
  by_cases h : kind = other
  · rw [if_pos h, List.filter_eq_self.mpr]
    intro n _
    exact decide_eq_true h
  · rw [if_neg h, List.filter_eq_nil_iff.mpr]
    · rfl
    · intro n _ hn
      exact h (of_decide_eq_true hn)

theorem typeSymbols_eq (t : TypeDecl Location) :
    typeSymbols container uri t =
      [t.named].map (ofNamed container uri .type) ++
        t.constructors.map (ofNamed container uri .constructor) := by
  cases t with
  | custom name constructors l => rfl
  | synonym name l => rfl

theorem filter_typeSymbols (kind : SymbolKind) (types : List (TypeDecl Location)) :
    (types.flatMap (typeSymbols container uri)).filter (·.kind = kind) =
      if kind = .type then (types.map TypeDecl.named).map (ofNamed container uri .type)
      else if kind = .constructor then
        (types.flatMap TypeDecl.constructors).map (ofNamed container uri .constructor)
      else [] := by
  induction types with
  | nil =>
      cases kind <;> rfl
  | cons t types ih =>
      rw [List.flatMap_cons, List.filter_append, ih, typeSymbols_eq, List.filter_append,
        filter_ofNamed, filter_ofNamed]
      cases kind <;> simp

end Listing

theorem filter_ofOutline (m : Outline Location) (uri : Uri) (kind : SymbolKind) :
    (ofOutline m uri).filter (·.kind = kind) =
      (m.named kind).map (ofNamed m.name uri kind) := by
  have hmodule : [ofNamed m.name uri .module { name := m.name, location := m.location }] =
      [{ name := m.name, location := m.location }].map (ofNamed m.name uri .module) := rfl
  unfold ofOutline
  rw [hmodule, List.filter_append, List.filter_append, List.filter_append,
    filter_typeSymbols, filter_ofNamed, filter_ofNamed, filter_ofNamed]
  cases kind <;> simp [Outline.named]

theorem exists_named_of_mem {m : Outline Location} {uri : Uri} {s : Symbol}
    (h : s ∈ ofOutline m uri) :
    exists n, n ∈ m.named s.kind ∧ s = ofNamed m.name uri s.kind n := by
  have hmem : s ∈ (ofOutline m uri).filter (·.kind = s.kind) :=
    List.mem_filter.mpr ⟨h, decide_eq_true rfl⟩
  rw [filter_ofOutline] at hmem
  rcases List.mem_map.mp hmem with ⟨n, hn, hs⟩
  exact ⟨n, hn, hs.symm⟩

/-!
## Names and ranges
-/

theorem map_spelled_ofNamed {container : String} {uri : Uri} {kind : SymbolKind}
    (h : kind ≠ .function) (names : List (Named Location)) :
    (names.map (ofNamed container uri kind)).map (fun s => (s.spelled, s.range)) =
      names.map fun n => (n.name, rangeOf n.location) := by
  rw [List.map_map]
  apply List.map_congr_left
  intro n _
  show ((if kind = .function then spelling n.name else n.name), rangeOf n.location) = _
  rw [if_neg h]

theorem map_spelled_typeSymbols (container : String) (uri : Uri) (t : TypeDecl Location) :
    (typeSymbols container uri t).map (fun s => (s.spelled, s.range)) =
      t.written.map fun n => (n.name, rangeOf n.location) := by
  rw [typeSymbols_eq, List.map_append, map_spelled_ofNamed (by decide),
    map_spelled_ofNamed (by decide)]
  cases t with
  | custom name constructors l => rfl
  | synonym name l => rfl

theorem map_spelled_ofOutline (m : Outline Location) (uri : Uri) :
    (ofOutline m uri).map (fun s => (s.spelled, s.range)) =
      m.defined.map fun n => (n.name, rangeOf n.location) := by
  have htypes : (m.types.flatMap (typeSymbols m.name uri)).map
      (fun s => (s.spelled, s.range)) =
        (m.types.flatMap TypeDecl.written).map fun n => (n.name, rangeOf n.location) := by
    rw [List.map_flatMap, List.map_flatMap]
    exact List.flatMap_congr fun t _ => map_spelled_typeSymbols m.name uri t
  have hfunctions : (m.functions.map (ofNamed m.name uri .function)).map
      (fun s => (s.spelled, s.range)) =
        (m.functions.map Named.spelled).map fun n => (n.name, rangeOf n.location) := by
    rw [List.map_map, List.map_map]
    rfl
  have hports : (m.ports.map (ofNamed m.name uri .port)).map
      (fun s => (s.spelled, s.range)) = m.ports.map fun n => (n.name, rangeOf n.location) :=
    map_spelled_ofNamed (by decide) m.ports
  unfold ofOutline Outline.defined
  rw [List.map_append, List.map_append, List.map_append, htypes, hfunctions, hports,
    List.map_append, List.map_append, List.map_append]
  rfl

theorem map_range_ofOutline (m : Outline Location) (uri : Uri) :
    (ofOutline m uri).map (·.range) = m.defined.map fun n => rangeOf n.location := by
  have hpairs := congrArg (List.map Prod.snd) (map_spelled_ofOutline m uri)
  rwa [List.map_map, List.map_map] at hpairs

end Symbol

/-!
## Ranges in a document
-/

/-- A range that starts and ends where a text does in a source. -/
def Range.Holds (source text : List Char) (r : Range) : Prop :=
  exists a b, offset? source r.startLine r.startColumn = some a ∧
    offset? source r.endLine r.endColumn = some b ∧ a < b ∧
    IsBoundary source a ∧ IsBoundary source b ∧ extract source a b = text

/-- A range that ends before another one starts, or just there. -/
def Range.Precedes (r other : Range) : Prop :=
  toLex (r.endLine, r.endColumn) ≤ toLex (other.startLine, other.startColumn)

theorem rangeOf_locate (source : List Char) (span : Span) :
    Symbol.rangeOf (locate source span) =
      { startLine := (lineCol source span.start).1,
        startColumn := (lineCol source span.start).2,
        endLine := (lineCol source span.stop).1,
        endColumn := (lineCol source span.stop).2 } :=
  rfl

theorem Syntax.Cursor.Shows.holds {source : List Char} {word : Named Span}
    (h : Cursor.Shows { offset := 0, rest := source } word) :
    (Symbol.rangeOf (locate source word.location)).Holds source word.name.toList := by
  rcases h with ⟨hword, before, after, hsource, hstart, hstop⟩
  have hsource' : source = before ++ word.name.toList ++ after := hsource
  rw [Nat.zero_add] at hstart hstop
  have hlast : exists front c, word.name.toList = front ++ [c] ∧ c ≠ '\r' := by
    rcases List.eq_nil_or_concat word.name.toList with hnil | ⟨front, c, hname⟩
    · exact absurd hnil hword.left
    · rw [List.concat_eq_append] at hname
      exists front, c
      constructor
      · exact hname
      · intro hc
        have hblank := hword.right c (by rw [hname]; simp)
        rw [hc] at hblank
        exact absurd hblank (by decide)
  have hoffsets := offset?_lineCol_word hsource' hword.no_line_feed hlast
  have hpos := byteLength_pos hword.left
  rw [rangeOf_locate, hstart, hstop]
  exists byteLength before, byteLength (before ++ word.name.toList)
  refine ⟨hoffsets.left, hoffsets.right, ?_, ⟨before, word.name.toList ++ after, ?_, rfl⟩,
    ⟨before ++ word.name.toList, after, hsource', rfl⟩, ?_⟩
  · rw [byteLength_append]
    omega
  · rw [hsource', List.append_assoc]
  · rw [hsource']
    exact extract_append before word.name.toList after

theorem precedes_of_le {source : List Char} {a b : Span} (h : a.stop ≤ b.start) :
    (Symbol.rangeOf (locate source a)).Precedes (Symbol.rangeOf (locate source b)) := by
  rw [rangeOf_locate, rangeOf_locate]
  exact lineColFrom_mono source h 0 0

/-!
## Documents
-/

theorem holds_of_parse {text : String} {m : Outline Location} (h : parse text = .ok m)
    {n : Named Location} (hn : n ∈ m.defined) :
    (Symbol.rangeOf n.location).Holds text.toList n.name.toList := by
  rcases exists_outline_of_parse h with ⟨outline, hread, hm⟩
  rw [hm, Outline.defined_map] at hn
  rcases List.mem_map.mp hn with ⟨word, hword, hplace⟩
  rcases readOutline_shown hread word (mem_written_of_mem_defined hword) with
    ⟨chunk, hchunk, hshows⟩
  rw [← hplace]
  exact (shows_of_chunk hchunk hshows).holds

theorem Symbol.holds_of_mem {text : String} {m : Outline Location}
    (h : parse text = .ok m) {uri : Uri} {s : Symbol} (hs : s ∈ Symbol.ofOutline m uri) :
    s.range.Holds text.toList s.spelled.toList := by
  have hpair : (s.spelled, s.range) ∈
      (Symbol.ofOutline m uri).map fun s => (s.spelled, s.range) :=
    List.mem_map_of_mem hs
  rw [Symbol.map_spelled_ofOutline] at hpair
  rcases List.mem_map.mp hpair with ⟨n, hn, heq⟩
  injection heq with hname hrange
  rw [← hname, ← hrange]
  exact holds_of_parse h hn

theorem apart_of_parse {text : String} {m : Outline Location} (h : parse text = .ok m) :
    (m.defined.map fun n => Symbol.rangeOf n.location).Pairwise fun r q =>
      r.Precedes q ∨ q.Precedes r := by
  rcases exists_outline_of_parse h with ⟨outline, hread, hm⟩
  rw [hm, Outline.defined_map, List.map_map, List.pairwise_map]
  apply (readOutline_apart hread).imp
  intro a b hapart
  exact hapart.imp precedes_of_le precedes_of_le

/-- A document that is not a module has no symbols.  The symbols of a module are one for each
declaration and one for itself, which comes last.  They carry its name and the document's URI, their
ranges hold their names, and no two ranges overlap. -/
theorem ofText_describes (uri : Uri) (text : String) :
    (Symbol.ofText uri text = [] ↔ exists e, parse text = .error e) ∧
      forall m, parse text = .ok m ->
        (forall kind, (Symbol.ofText uri text).filter (·.kind = kind) =
          (m.named kind).map (Symbol.ofNamed m.name uri kind)) ∧
        (exists s, (Symbol.ofText uri text).getLast? = some s ∧ s.kind = .module) ∧
        (forall s, s ∈ Symbol.ofText uri text ->
          s.container = m.name ∧ s.uri = uri ∧
            s.range.Holds text.toList s.spelled.toList) ∧
        (Symbol.ofText uri text).Pairwise fun s t =>
          s.range.Precedes t.range ∨ t.range.Precedes s.range := by
  constructor
  · unfold Symbol.ofText
    cases parse text with
    | error e =>
        simp
    | ok m =>
        simp [Symbol.ofOutline]
  · intro m hm
    have hsymbols : Symbol.ofText uri text = Symbol.ofOutline m uri := by
      unfold Symbol.ofText
      rw [hm]
    rw [hsymbols]
    refine ⟨Symbol.filter_ofOutline m uri, ?_, ?_, ?_⟩
    · unfold Symbol.ofOutline
      rw [List.getLast?_concat]
      exact ⟨_, rfl, rfl⟩
    · intro s hs
      rcases Symbol.exists_named_of_mem hs with ⟨_, _, hnamed⟩
      refine ⟨congrArg Symbol.container hnamed, congrArg Symbol.uri hnamed, ?_⟩
      exact Symbol.holds_of_mem hm hs
    · have hapart := apart_of_parse hm
      rw [← Symbol.map_range_ofOutline m uri] at hapart
      exact List.pairwise_map.mp hapart

/-- A byte order mark, a type and a constructor of one name, a wide character in front of the
latter, an operator, and a port behind a carriage return. -/
def markedModule : String :=
  "\uFEFFport module É exposing (..)\r\ntype A = \x7b- 😀 -\x7d A\n(|>) = 1\nport\r x : Int\n"

theorem ofText_describes_marked :
    let uri := Uri.mk "file:///w/A.elm"
    exists m, parse markedModule = .ok m ∧
      (Symbol.ofText uri markedModule).map (fun s => (s.spelled, s.range)) =
        [("A", ⟨1, 5, 1, 6⟩), ("A", ⟨1, 18, 1, 19⟩), ("(|>)", ⟨2, 0, 2, 4⟩),
          ("x", ⟨3, 6, 3, 7⟩), ("É", ⟨0, 13, 0, 14⟩)] ∧
      (forall s, s ∈ Symbol.ofText uri markedModule ->
        s.container = m.name ∧ s.uri = uri ∧
          s.range.Holds markedModule.toList s.spelled.toList) ∧
      (Symbol.ofText uri markedModule).Pairwise fun s t =>
        s.range.Precedes t.range ∨ t.range.Precedes s.range := by
  intro uri
  have hdescribes := (ofText_describes uri markedModule).right _ rfl
  exact ⟨_, rfl, by decide +kernel, hdescribes.right.right.left, hdescribes.right.right.right⟩

end ElmNavigator
