import ElmNavigator.Proofs.Syntax.NamePlaces
import Mathlib.Data.List.Perm.Basic

/-!
# Defined names stand apart

A rule reads forward, so the names that it gives stand one behind the other.  The
names that a declaration defines are therefore in order within its chunk, chunks
are in order within the source, and no two names of a module overlap.
-/

namespace ElmNavigator
namespace Syntax

open Text Rule

/-!
## Spans in order
-/

/-- Spans that stand one behind the other between two offsets. -/
inductive InOrder : Nat -> List Span -> Nat -> Prop where
  | nil {low high : Nat} : low ≤ high -> InOrder low [] high
  | cons {low high : Nat} {span : Span} {spans : List Span} :
      low ≤ span.start -> span.start ≤ span.stop ->
      InOrder span.stop spans high -> InOrder low (span :: spans) high

namespace InOrder

variable {low mid high : Nat} {spans others : List Span}

theorem lower (h : InOrder mid spans high) (hlow : low ≤ mid) :
    InOrder low spans high := by
  cases h with
  | nil hhigh => exact nil (hlow.trans hhigh)
  | cons hstart hspan hspans => exact cons (hlow.trans hstart) hspan hspans

theorem append (h : InOrder low spans mid) (hothers : InOrder mid others high) :
    InOrder low (spans ++ others) high := by
  induction h with
  | nil hmid => exact hothers.lower hmid
  | cons hstart hspan _ ih => exact cons hstart hspan (ih hothers)

theorem raise (h : InOrder low spans mid) (hhigh : mid ≤ high) :
    InOrder low spans high := by
  have happend := h.append (nil hhigh)
  rwa [List.append_nil] at happend

theorem start_le (h : InOrder low spans high) {span : Span} (hspan : span ∈ spans) :
    low ≤ span.start := by
  induction h with
  | nil _ => cases hspan
  | cons hstart hle _ ih =>
      rcases List.mem_cons.mp hspan with hhead | htail
      · rw [hhead]
        exact hstart
      · exact (hstart.trans hle).trans (ih htail)

theorem pairwise (h : InOrder low spans high) :
    spans.Pairwise fun a b => a.stop ≤ b.start := by
  induction h with
  | nil _ => exact List.Pairwise.nil
  | cons _ _ hspans ih => exact List.Pairwise.cons (fun _ hspan => hspans.start_le hspan) ih

end InOrder

/-!
## Rules that keep the order
-/

namespace Rule

variable {α β : Type} {front : List Span}

/-- Started behind some spans, a rule gives a value whose spans are in order up to where it ends. -/
def Places (p : Rule α) (front : List Span) (spans : α -> List Span) : Prop :=
  forall low cur a next, InOrder low front cur.offset -> p cur = .ok a next ->
    InOrder low (spans a) next.offset

theorem Places.pure {a : α} {spans : α -> List Span} (h : spans a = front) :
    Places (pure a) front spans := by
  intro low cur b next hfront hresult
  injection hresult with ha hnext
  rw [← ha, ← hnext, h]
  exact hfront

theorem Places.bind {p : Rule α} {f : α -> Rule β} {mid : α -> List Span}
    {spans : β -> List Span} (hp : p.Places front mid)
    (hf : forall a, (f a).Places (mid a) spans) : Places (p >>= f) front spans := by
  intro low cur b last hfront hresult
  change andThen p f cur = .ok b last at hresult
  unfold andThen at hresult
  cases hfirst : p cur with
  | stopped c =>
      rw [hfirst] at hresult
      cases hresult
  | ok a next =>
      rw [hfirst] at hresult
      exact hf a low next b last (hp low cur a next hfront hfirst) hresult

theorem Places.orElse {p q : Rule α} {spans : α -> List Span}
    (hp : p.Places front spans) (hq : q.Places front spans) :
    (orElse p q).Places front spans := by
  intro low cur a next hfront hresult
  unfold Rule.orElse at hresult
  cases hfirst : p cur with
  | stopped c =>
      rw [hfirst] at hresult
      exact hq low cur a next hfront hresult
  | ok b other =>
      rw [hfirst] at hresult
      exact hp low cur a next hfront (hfirst.trans hresult)

theorem places_of_yields {p : Rule α} {good : Cursor -> α -> Prop}
    (hp : forall origin, p.Yields origin (good origin)) :
    p.Places front fun _ => front := by
  intro low cur a next hfront hresult
  have hcur := hp cur cur (Cursor.Reaches.refl cur)
  rw [hresult] at hcur
  rcases hcur.left with ⟨read, hsteps⟩
  apply hfront.raise
  rw [hsteps.right]
  exact Nat.le_add_right _ _

theorem Consumes.places {p : Rule α} {accepted : List Char -> Prop}
    (hp : p.Consumes accepted) : p.Places front fun _ => front :=
  places_of_yields fun _ => hp.yields

theorem Consumes.places_lexeme {p : Rule Unit} {accepted : List Char -> Prop}
    (hp : p.Consumes accepted) :
    (Rule.lexeme p).Places front fun l => front ++ [l.span] := by
  intro low cur l next hfront hresult
  have hcur := hp cur
  unfold Rule.lexeme at hresult
  cases hread : p cur with
  | stopped c =>
      rw [hread] at hresult
      cases hresult
  | ok u last =>
      rw [hread] at hresult hcur
      injection hresult with hl hnext
      rcases hcur with ⟨read, hsteps, _haccepted⟩
      have hle : cur.offset ≤ last.offset := by
        rw [hsteps.right]
        exact Nat.le_add_right _ _
      rw [← hl, ← hnext]
      exact hfront.append (.cons (Nat.le_refl _) hle (.nil (Nat.le_refl _)))

section Repetition

variable {p : Rule α} {item : α -> List Span}
  (hp : forall front, p.Places front fun a => front ++ item a)

include hp

theorem Places.many :
    (many p).Places front fun as => front ++ as.flatMap item := by
  have hrounds : forall (rounds low : Nat) (front : List Span) (cur : Cursor),
      InOrder low front cur.offset ->
      InOrder low (front ++ (upTo p rounds cur).1.flatMap item)
        (upTo p rounds cur).2.offset := by
    intro rounds
    induction rounds with
    | zero =>
        intro low front cur hfront
        simpa [upTo] using hfront
    | succ rounds ih =>
        intro low front cur hfront
        simp only [upTo]
        cases hfirst : p cur with
        | stopped c =>
            simpa using hfront
        | ok a next =>
            have hnext := ih low _ next (hp front low cur a next hfront hfirst)
            simpa using hnext
  intro low cur as next hfront hresult
  injection hresult with has hnext
  rw [← has, ← hnext]
  exact hrounds cur.rest.length low front cur hfront

theorem Places.separated {separator : Rule Unit} {accepted : List Char -> Prop}
    (hseparator : separator.Consumes accepted) :
    (separated p separator).Places front fun as => front ++ as.flatMap item := by
  apply (hp front).bind
  intro first
  apply (Places.many fun front => hseparator.places.bind fun _ => hp front).bind
  intro others
  apply Places.pure
  simp

end Repetition
end Rule

/-!
## Names
-/

section Names

variable {front : List Span}

theorem upperName_places : upperName.Places front fun n => front ++ [n.location] :=
  (identifier_consumes isUpper).places_lexeme.bind fun _ => Places.pure rfl

theorem lowerName_places : lowerName.Places front fun n => front ++ [n.location] :=
  (identifier_consumes fun c => isLower c || c == '_').places_lexeme.bind fun _ =>
    Places.pure rfl

theorem operatorName_places : operatorName.Places front fun n => front ++ [n.location] :=
  operator_consumes.places_lexeme.bind fun _ => Places.pure rfl

theorem valueName_places : valueName.Places front fun n => front ++ [n.location] :=
  operatorName_places.orElse lowerName_places

theorem moduleName_places : moduleName.Places front fun n => front ++ [n.location] :=
  dottedName_consumes.places_lexeme.bind fun _ => Places.pure rfl

theorem constructorName_places :
    constructorName.Places front fun n => front ++ [n.location] :=
  upperName_places.bind fun _ => constructorArgs_consumes.places.bind fun _ =>
    Places.pure rfl

/-!
## Declarations
-/

def Declaration.defined : Declaration -> List (Named Span)
  | .type decl => decl.written
  | .port name => [name]
  | .function name => [name.spelled]
  | .import_ _ => []
  | .ignored => []

def Declaration.places (decl : Declaration) : List Span :=
  decl.defined.map (·.location)

theorem importDeclaration_places :
    importDeclaration.Places front fun d => front ++ d.places := by
  have hasName {origin : Cursor} :=
    (blanks1_consumes.then fun _ => (word_consumes "as").then fun _ =>
      blanks1_consumes.then fun _ => @upperName_yields origin).optional
  have hexposing {origin : Cursor} :=
    (blanks_consumes.then fun _ => @exposingList_yields origin).optional
  exact (word_consumes "import").places.bind fun _ =>
    blanks1_consumes.places.bind fun _ =>
    (places_of_yields fun _ => moduleName_yields).bind fun _ =>
    (places_of_yields fun _ => hasName).bind fun _ =>
    (places_of_yields fun _ => hexposing).bind fun _ =>
    blanks_consumes.places.bind fun _ => atEnd_consumes.places.bind fun _ =>
    Places.pure (List.append_nil front)

theorem aliasDeclaration_places :
    aliasDeclaration.Places front fun d => front ++ d.places :=
  (word_consumes "type").places.bind fun _ => blanks1_consumes.places.bind fun _ =>
    (word_consumes "alias").places.bind fun _ => blanks1_consumes.places.bind fun _ =>
    upperName_places.bind fun _ => body_consumes.places.bind fun _ => Places.pure rfl

theorem customDeclaration_places :
    customDeclaration.Places front fun d => front ++ d.places := by
  have hvariables {origin : Cursor} :=
    (blanks1_consumes.then fun _ => @lowerName_yields origin).many
  apply (word_consumes "type").places.bind
  intro _
  apply blanks1_consumes.places.bind
  intro _
  apply upperName_places.bind
  intro name
  apply (places_of_yields fun _ => hvariables).bind
  intro _
  apply (spaced_consumes '=').places.bind
  intro _
  apply (Places.separated (fun _ => constructorName_places) (spaced_consumes '|')).bind
  intro constructors
  apply blanks_consumes.places.bind
  intro _
  apply atEnd_consumes.places.bind
  intro _
  apply Places.pure
  simp [Declaration.places, Declaration.defined, TypeDecl.written, List.map_eq_flatMap]

theorem portDeclaration_places :
    portDeclaration.Places front fun d => front ++ d.places :=
  (word_consumes "port").places.bind fun _ => blanks1_consumes.places.bind fun _ =>
    lowerName_places.bind fun _ => blanks_consumes.places.bind fun _ =>
    (character_consumes ':').places.bind fun _ => skipRest_consumes.places.bind fun _ =>
    Places.pure rfl

theorem fixityDeclaration_places :
    fixityDeclaration.Places front fun d => front ++ d.places := by
  have hkeyword : (orElse (word "infixl") (orElse (word "infixr") (word "infix"))).Places
      front fun _ => front :=
    (word_consumes "infixl").places.orElse
      ((word_consumes "infixr").places.orElse (word_consumes "infix").places)
  exact hkeyword.bind fun _ => blanks1_consumes.places.bind fun _ =>
    skipRest_consumes.places.bind fun _ => Places.pure (List.append_nil front)

theorem annotationDeclaration_places :
    annotationDeclaration.Places front fun d => front ++ d.places :=
  (places_of_yields fun _ => valueName_yields).bind fun _ =>
    blanks_consumes.places.bind fun _ => (character_consumes ':').places.bind fun _ =>
    skipRest_consumes.places.bind fun _ => Places.pure (List.append_nil front)

theorem functionDeclaration_places :
    functionDeclaration.Places front fun d => front ++ d.places :=
  valueName_places.bind fun _ => body_consumes.places.bind fun _ => Places.pure rfl

theorem declaration_places : declaration.Places front fun d => front ++ d.places :=
  importDeclaration_places.orElse <| aliasDeclaration_places.orElse <|
    customDeclaration_places.orElse <| portDeclaration_places.orElse <|
    fixityDeclaration_places.orElse <|
    annotationDeclaration_places.orElse functionDeclaration_places

theorem header_places : header.Places front fun h => front ++ [h.name.location] := by
  apply (places_of_yields fun _ => moduleKind_yields).bind
  intro kind
  apply (word_consumes "module").places.bind
  intro _
  apply blanks1_consumes.places.bind
  intro _
  apply moduleName_places.bind
  intro name
  apply blanks_consumes.places.bind
  intro _
  have hrest : Places
      (do
        let exposing ← exposingList
        blanks
        atEnd
        return { kind, name, exposing : Header })
      (front ++ [name.location]) fun h => front ++ [h.name.location] :=
    (places_of_yields fun _ => exposingList_yields).bind fun _ =>
      blanks_consumes.places.bind fun _ => atEnd_consumes.places.bind fun _ =>
      Places.pure rfl
  by_cases heffect : kind = .effect
  · rw [if_pos heffect]
    exact (places_of_yields fun _ => effectClause_consumes.yields.optional).bind fun _ =>
      hrest
  · rw [if_neg heffect]
    exact hrest

end Names

/-!
## Chunks
-/

def Chunk.span (chunk : Chunk) : Span :=
  { start := chunk.start, stop := chunk.stop }

theorem collectChunks_inOrder (offset : Nat) (lines : List (List Char)) :
    InOrder (offset + byteLength (collectChunks offset lines).1)
      ((collectChunks offset lines).2.map Chunk.span)
      (offset + byteLength lines.flatten) := by
  induction lines generalizing offset with
  | nil =>
      exact .nil (Nat.le_refl _)
  | cons line rest ih =>
      have hrest := ih (offset + byteLength line)
      rw [Nat.add_assoc offset (byteLength line) (byteLength rest.flatten),
        ← byteLength_append, ← List.flatten_cons] at hrest
      simp only [collectChunks]
      split
      · rcases trimEnd_append isBlank
            (line ++ (collectChunks (offset + byteLength line) rest).1)
          with ⟨blanks, hblanks, _⟩
        have hlength := congrArg byteLength hblanks
        rw [byteLength_append, byteLength_append] at hlength
        refine InOrder.cons (Nat.le_refl offset) (Nat.le_add_right offset _) ?_
        apply hrest.lower
        show offset + byteLength (trimEnd isBlank _) ≤ _
        omega
      · rw [byteLength_append, ← Nat.add_assoc]
        exact hrest

theorem sourceChunks_inOrder (source : List Char) :
    exists low high, InOrder low ((sourceChunks source).map Chunk.span) high := by
  cases source with
  | nil =>
      exact ⟨0, 0, .nil (Nat.le_refl 0)⟩
  | cons c cs =>
      simp only [sourceChunks]
      split
      · exact ⟨_, _, collectChunks_inOrder _ _⟩
      · exact ⟨_, _, collectChunks_inOrder _ _⟩

theorem Chunk.read_inOrder {α : Type} {rule : Rule α} {failure : ParseFailure}
    {chunk : Chunk} {a : α} {spans : α -> List Span} {shown : α -> Prop}
    (hyields : rule.Yields chunk.cursor shown) (hplaces : rule.Places [] spans)
    (h : chunk.read rule failure = .ok a) : InOrder chunk.start (spans a) chunk.stop := by
  unfold Chunk.read at h
  have hcursor := hyields chunk.cursor (Cursor.Reaches.refl chunk.cursor)
  cases hresult : rule chunk.cursor with
  | stopped last =>
      rw [hresult] at h
      cases h
  | ok b next =>
      rw [hresult] at h hcursor
      injection h with hb
      rcases hcursor.left with ⟨read, hrest, hoffset⟩
      have hlength : byteLength chunk.text = byteLength read + byteLength next.rest := by
        rw [← byteLength_append]
        exact congrArg byteLength hrest
      have hnext : next.offset ≤ chunk.stop := by
        have hstart : next.offset = chunk.start + byteLength read := hoffset
        unfold Chunk.stop
        omega
      rw [← hb]
      exact (hplaces chunk.start chunk.cursor b next (.nil (Nat.le_refl _)) hresult).raise hnext

theorem readDeclarations_inOrder {chunks : List Chunk} {decls : List Declaration}
    {low high : Nat} (hchunks : InOrder low (chunks.map Chunk.span) high)
    (h : readDeclarations chunks = .ok decls) :
    InOrder low (decls.flatMap Declaration.places) high := by
  induction chunks generalizing decls low with
  | nil =>
      injection h with hdecls
      subst hdecls
      exact hchunks
  | cons chunk chunks ih =>
      rcases exists_of_readDeclarations_cons h with ⟨decl, others, hread, hrest, hdecls⟩
      subst hdecls
      cases hchunks with
      | cons hlow _ hlater =>
          have hfirst : InOrder chunk.start decl.places chunk.stop :=
            Chunk.read_inOrder declaration_yields declaration_places hread
          exact (hfirst.lower hlow).append (ih hlater hrest)

/-!
## Modules
-/

def Outline.defined {ℓ : Type} (m : Outline ℓ) : List (Named ℓ) :=
  m.types.flatMap TypeDecl.written ++ m.functions.map Named.spelled ++ m.ports ++
    [{ name := m.name, location := m.location }]

theorem Outline.defined_map {ℓ κ : Type} (f : ℓ -> κ) (m : Outline ℓ) :
    (m.map f).defined = m.defined.map (·.map f) := by
  have htypes : (m.types.map (·.map f)).flatMap TypeDecl.written =
      (m.types.flatMap TypeDecl.written).map (·.map f) := by
    rw [List.map_flatMap, List.flatMap_map]
    exact List.flatMap_congr fun t _ => TypeDecl.written_map f t
  have hfunctions : (m.functions.map (·.map f)).map Named.spelled =
      (m.functions.map Named.spelled).map (·.map f) := by
    rw [List.map_map, List.map_map]
    rfl
  simp only [Outline.defined, Outline.map, List.map_append, htypes, hfunctions]
  rfl

theorem mem_written_of_mem_defined {ℓ : Type} {m : Outline ℓ} {n : Named ℓ}
    (h : n ∈ m.defined) : n ∈ m.written := by
  simp only [Outline.defined, Outline.written, List.mem_append, List.mem_cons,
    List.not_mem_nil, or_false] at h ⊢
  tauto

theorem defined_assemble (h : Header) (decls : List Declaration) :
    (assemble h decls).defined.Perm (h.name :: decls.flatMap Declaration.defined) := by
  have hdecls : ((decls.filterMap (·.type?)).flatMap TypeDecl.written ++
      (decls.filterMap (·.function?)).map Named.spelled ++
      decls.filterMap (·.port?)).Perm (decls.flatMap Declaration.defined) := by
    induction decls with
    | nil => exact List.Perm.refl _
    | cons decl decls ih =>
        cases decl with
        | import_ i => exact ih
        | ignored => exact ih
        | type t =>
            have hcons := ih.append_left t.written
            rw [← List.append_assoc, ← List.append_assoc] at hcons
            exact hcons
        | function n =>
            have hcons := ih.cons n.spelled
            apply List.Perm.trans _ hcons
            simp only [List.append_assoc]
            exact List.perm_middle
        | port n =>
            have hcons := ih.cons n
            apply List.Perm.trans _ hcons
            exact List.perm_middle
  exact List.perm_append_comm.trans (hdecls.cons h.name)

theorem readOutline_apart {source : List Char} {m : Outline Span}
    (h : readOutline source = .ok m) :
    m.defined.Pairwise fun a b =>
      a.location.stop ≤ b.location.start ∨ b.location.stop ≤ a.location.start := by
  rcases exists_of_readOutline h with
    ⟨first, others, head, decls, hchunks, hheader, hdecls, hm⟩
  subst hm
  rcases sourceChunks_inOrder source with ⟨low, high, horder⟩
  rw [hchunks] at horder
  have hall : InOrder low ((head.name :: decls.flatMap Declaration.defined).map (·.location))
      high := by
    cases horder with
    | cons hlow _ hlater =>
        have hfirst := Chunk.read_inOrder header_yields header_places hheader
        have hrest := readDeclarations_inOrder hlater hdecls
        have hjoined := (hfirst.lower hlow).append hrest
        rw [List.map_cons, List.map_flatMap]
        exact hjoined
  apply ((defined_assemble head decls).pairwise_iff Or.symm).mpr
  exact (List.pairwise_map.mp hall.pairwise).imp Or.inl

end Syntax
end ElmNavigator
