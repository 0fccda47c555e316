import ElmNavigator.Proofs.Syntax.AlignedReading
import ElmNavigator.Syntax.Parse

/-!
# The grammar under a lawful alignment

Rules of the grammar are put together from tests that a lawful alignment keeps,
so each of them comes out alike on both sides.  Names, entries and declarations
are the same up to their places, and places are compared as the alignment says.
-/

namespace ElmNavigator
namespace Syntax

open Text Rule

/-!
## What declarations add to an outline
-/

section Declared

variable {ℓ κ : Type}

/-- The declarations of an outline, without its header. -/
structure Declared (ℓ : Type) where
  imports : List (Import ℓ)
  types : List (TypeDecl ℓ)
  functions : List (Named ℓ)
  ports : List (Named ℓ)
deriving DecidableEq

def Declared.map (f : ℓ -> κ) (d : Declared ℓ) : Declared κ :=
  { imports := d.imports.map (·.map f), types := d.types.map (·.map f),
    functions := d.functions.map (·.map f), ports := d.ports.map (·.map f) }

def Declared.ofList (ds : List Declaration) : Declared Span :=
  { imports := ds.filterMap (·.import?), types := ds.filterMap (·.type?),
    functions := ds.filterMap (·.function?), ports := ds.filterMap (·.port?) }

def Outline.declared (m : Outline ℓ) : Declared ℓ :=
  { imports := m.imports, types := m.types, functions := m.functions, ports := m.ports }

def Outline.extend (m : Outline ℓ) (later : Declared ℓ) : Outline ℓ :=
  { m with imports := m.imports ++ later.imports, types := m.types ++ later.types,
           functions := m.functions ++ later.functions, ports := m.ports ++ later.ports }

theorem Outline.map_extend (f : ℓ -> κ) (m : Outline ℓ) (later : Declared ℓ) :
    (m.extend later).map f = (m.map f).extend (later.map f) := by
  simp only [Outline.map, Outline.extend, Declared.map, List.map_append]

theorem assemble_append (h : Header) (ds es : List Declaration) :
    assemble h (ds ++ es) = (assemble h ds).extend (Declared.ofList es) := by
  simp only [assemble, Outline.extend, Declared.ofList, List.filterMap_append]

end Declared

variable {κ : Type} {A : Alignment κ}

namespace Alignment

def SameName (A : Alignment κ) (n m : Named Span) : Prop :=
  n.map A.left = m.map A.right

def SameEntries (A : Alignment κ) (es fs : List (Exposed Span)) : Prop :=
  es.map (·.map A.left) = fs.map (·.map A.right)

inductive SameMembers (A : Alignment κ) : Members -> Members -> Prop where
  | all : SameMembers A .all .all
  | listed {ns ms : List (Named Span)} :
      List.Forall₂ A.SameName ns ms -> SameMembers A (.listed ns) (.listed ms)

structure SameHeader (A : Alignment κ) (h g : Header) : Prop where
  kind : h.kind = g.kind
  name : A.SameName h.name g.name
  exposing : A.SameEntries h.exposing g.exposing

/-- Declarations that add the same to an outline. -/
structure SameDeclaration (A : Alignment κ) (d e : Declaration) : Prop where
  asImport : d.import?.map (·.map A.left) = e.import?.map (·.map A.right)
  asType : d.type?.map (·.map A.left) = e.type?.map (·.map A.right)
  asFunction : d.function?.map (·.map A.left) = e.function?.map (·.map A.right)
  asPort : d.port?.map (·.map A.left) = e.port?.map (·.map A.right)

theorem SameEntries.flatten {ess fss : List (List (Exposed Span))}
    (h : List.Forall₂ A.SameEntries ess fss) : A.SameEntries ess.flatten fss.flatten := by
  unfold SameEntries
  rw [List.map_flatten, List.map_flatten, map_eq_of_forall₂ h]

theorem SameName.name_eq {n m : Named Span} (h : A.SameName n m) : n.name = m.name :=
  (Named.mk.inj h).left

theorem SameName.location_eq {n m : Named Span} (h : A.SameName n m) :
    A.left n.location = A.right m.location :=
  (Named.mk.inj h).right

theorem SameEntries.exposedType {n m : Named Span} {ms ns : Option Members}
    (hname : A.SameName n m) (hmembers : Option.Rel A.SameMembers ms ns) :
    A.SameEntries (exposedType n ms) (exposedType m ns) := by
  have hlocation := hname.location_eq
  cases hmembers with
  | none =>
      simp [SameEntries, Syntax.exposedType, Exposed.map, hname.name_eq, hlocation]
  | some hsome =>
      cases hsome with
      | all =>
          simp [SameEntries, Syntax.exposedType, Exposed.map, hname.name_eq, hlocation]
      | listed hnames =>
          have hentries := map_eq_of_forall₂ (hnames.imp fun a b hab =>
            show (Exposed.constructor a.name n.name a.location).map A.left =
                (Exposed.constructor b.name m.name b.location).map A.right by
              simp only [Exposed.map, hab.name_eq, hab.location_eq, hname.name_eq])
          simp only [SameEntries, Syntax.exposedType, List.map_cons, List.map_map]
          rw [Exposed.map, Exposed.map, hlocation]
          exact congr (by rw [hname.name_eq]) hentries

/-!
## Lexical pieces
-/

namespace Lawful

variable (hA : A.Lawful)

include hA

theorem character {c : Char} (h : isBlank c = false) :
    A.Agree (Rule.character c) (Rule.character c) anyValues :=
  hA.satisfy fun _ hd => (eq_of_beq hd) ▸ h

theorem skipUntil {c : Char} (h : isBlank c = false) :
    A.Agree (Rule.skipWhile (· != c)) (Rule.skipWhile (· != c)) anyValues := by
  refine hA.skipWhile (.accepts ?_)
  intro d hd
  have hne : d ≠ c := by
    rintro rfl
    rw [h] at hd
    cases hd
  simpa using hne

theorem blanks : A.Agree blanks blanks anyValues :=
  hA.skipWhile (.accepts fun _ h => h)

theorem skipRest : A.Agree Rule.skipRest Rule.skipRest anyValues :=
  hA.skipWhile (.accepts fun _ _ => rfl)

theorem skipWhile1 {q : Char -> Bool} (h : forall c, q c = true -> isBlank c = false) :
    A.Agree (Rule.skipWhile1 q) (Rule.skipWhile1 q) anyValues :=
  (hA.satisfy h).then fun _ _ => hA.skipWhile (.rejects h)

theorem spaced {c : Char} (h : isBlank c = false) :
    A.Agree (spaced c) (spaced c) anyValues :=
  hA.blanks.then fun _ _ => (hA.character h).then fun _ _ => hA.blanks

theorem body : A.Agree body body anyValues :=
  (hA.skipUntil (by decide)).then fun _ _ =>
    (hA.character (by decide)).then fun _ _ => hA.skipRest

theorem keyword {w : String} (h : (w.toList.all fun c => !isBlank c) = true) :
    A.Agree (Rule.word w) (Rule.word w) anyValues :=
  hA.word fun c hc => by simpa using List.all_eq_true.mp h c hc

theorem lexeme {p : Rule Unit} {accepted : List Char -> Prop}
    (hp : A.Agree p p anyValues) (hconsumes : p.Consumes accepted)
    (hword : forall text, accepted text -> IsWord text) :
    A.Agree (Rule.lexeme p) (Rule.lexeme p)
      (fun l m => l.text = m.text ∧ A.left l.span = A.right m.span) := by
  intro c d hcursors
  have hleft := hconsumes c
  have hright := hconsumes d
  unfold Rule.lexeme
  rcases (hp c d hcursors).cases with
    ⟨_, _, next, nextRight, hc, hd, hnext, _⟩ | ⟨last, other, hc, hd, hstops⟩
  · rw [hc] at hleft ⊢
    rw [hd] at hright ⊢
    rcases hleft with ⟨read, hsteps, haccepted⟩
    rcases hright with ⟨readRight, hstepsRight, hacceptedRight⟩
    rcases hA.unbroken hcursors hnext hsteps hstepsRight (hword _ haccepted).right
      (hword _ hacceptedRight).right with ⟨hread, hspan⟩
    refine Outcome.Aligned.ok hnext ⟨?_, hspan⟩
    simp only [hsteps.left, hstepsRight.left, List.length_append, Nat.add_sub_cancel,
      List.take_left]
    exact hread
  · rw [hc, hd]
    exact Outcome.Aligned.stopped hstops

theorem name {p : Rule Unit} {accepted : List Char -> Prop}
    (hp : A.Agree p p anyValues) (hconsumes : p.Consumes accepted)
    (hword : forall text, accepted text -> IsWord text) (f : List Char -> String) :
    A.Agree (do let l ← Rule.lexeme p; return Named.mk (f l.text) l.span)
      (do let l ← Rule.lexeme p; return Named.mk (f l.text) l.span) A.SameName := by
  apply (hA.lexeme hp hconsumes hword).bind
  rintro l m ⟨htext, hspan⟩
  apply Agree.pure
  unfold SameName Named.map
  rw [htext, hspan]

theorem identifier {first : Char -> Bool}
    (h : forall c, first c = true -> isBlank c = false) :
    A.Agree (do Rule.satisfy first; Rule.skipWhile isIdentChar)
      (do Rule.satisfy first; Rule.skipWhile isIdentChar) anyValues :=
  (hA.satisfy h).then fun _ _ => hA.skipWhile (.rejects fun _ => isBlank_of_isIdentChar)

theorem skipUpperName : A.Agree skipUpperName skipUpperName anyValues :=
  hA.identifier fun _ => isBlank_of_isUpper

theorem upperName : A.Agree upperName upperName A.SameName :=
  hA.name hA.skipUpperName (identifier_consumes isUpper) (fun _ => isWord_of_upper) String.ofList

theorem lowerName : A.Agree lowerName lowerName A.SameName :=
  hA.name (hA.identifier fun _ => isBlank_of_isIdentStart) (identifier_consumes _)
    (fun _ => IsIdentifier.isWord fun _ => isBlank_of_isIdentStart) String.ofList

theorem operatorName : A.Agree operatorName operatorName A.SameName := by
  refine hA.name ?_ operator_consumes (fun _ h => h.isWord)
    fun text => String.ofList (text.drop 1).dropLast
  exact (hA.character (by decide)).then fun _ _ =>
    (hA.skipWhile1 fun _ h => (isOperatorChar_disjoint h).left).then fun _ _ =>
      hA.character (by decide)

theorem valueName : A.Agree valueName valueName A.SameName :=
  hA.operatorName.orElse hA.lowerName

theorem moduleName : A.Agree moduleName moduleName A.SameName := by
  refine hA.name ?_ dottedName_consumes (fun _ => IsDotted.isWord) String.ofList
  have hpart : A.Agree (do Rule.character '.'; Syntax.skipUpperName)
      (do Rule.character '.'; Syntax.skipUpperName) anyValues :=
    (hA.character (by decide)).then fun _ _ => hA.skipUpperName
  have hshortens : Shortens (do Rule.character '.'; Syntax.skipUpperName) :=
    ((character_consumes '.').mono fun _ h => by simp [h]).shortens.then
      fun _ _ => (identifier_consumes isUpper).yields
  exact hA.skipUpperName.then fun _ _ =>
    (hpart.many hshortens hshortens).bind fun _ _ _ => Agree.pure trivial

/-!
## Exposing lists
-/

omit hA in
theorem spaced_shortens (c : Char) : (Syntax.spaced c).Shortens := by
  apply Consumes.shortens
  apply (blanks_consumes.bind fun _ => (character_consumes c).bind fun _ => blanks_consumes).mono
  rintro text ⟨s, rest, htext, _, t, u, hrest, ht, _⟩
  simp [htext, hrest, ht]

theorem typeMembers : A.Agree typeMembers typeMembers A.SameMembers := by
  refine (hA.character (by decide)).then fun _ _ => hA.blanks.then fun _ _ => ?_
  have hlisted := hA.upperName.separated (hA.spaced (by decide)) (spaced_shortens ',')
    (fun _ => upperName_yields) (fun _ => upperName_yields)
  refine Agree.bind (?_ : A.Agree _ _ A.SameMembers) ?_
  · apply Agree.orElse
    · exact (hA.keyword (by decide)).then fun _ _ => Agree.pure .all
    · exact hlisted.bind fun _ _ hnames => Agree.pure (.listed hnames)
  · intro members membersRight hmembers
    exact hA.blanks.then fun _ _ => (hA.character (by decide)).then fun _ _ =>
      Agree.pure hmembers

theorem exposedItem : A.Agree exposedItem exposedItem A.SameEntries := by
  apply Agree.orElse
  · apply hA.valueName.bind
    intro value valueRight hvalue
    apply Agree.pure
    simp only [SameEntries, List.map_cons, List.map_nil, Exposed.map, hvalue.name_eq,
      hvalue.location_eq]
  · apply hA.upperName.bind
    intro name nameRight hname
    apply (hA.blanks.then fun _ _ => hA.typeMembers).optional.bind
    intro members membersRight hmembers
    exact Agree.pure (SameEntries.exposedType hname hmembers)

theorem exposingList : A.Agree exposingList exposingList A.SameEntries := by
  refine (hA.keyword (by decide)).then fun _ _ => hA.blanks.then fun _ _ =>
    (hA.character (by decide)).then fun _ _ => hA.blanks.then fun _ _ => ?_
  have hitems := hA.exposedItem.separated (hA.spaced (by decide)) (spaced_shortens ',')
    (fun _ => exposedItem_yields) (fun _ => exposedItem_yields)
  have hdots := hA.lexeme (hA.word dots_isWord.right) (word_consumes "..")
    fun _ h => h ▸ dots_isWord
  refine Agree.bind (?_ : A.Agree _ _ A.SameEntries) ?_
  · apply Agree.orElse
    · apply hdots.bind
      rintro dots dotsRight ⟨_, hspan⟩
      apply Agree.pure
      simp only [SameEntries, List.map_cons, List.map_nil, Exposed.map, hspan]
    · exact hitems.bind fun _ _ hentries => Agree.pure (SameEntries.flatten hentries)
  · intro entries entriesRight hentries
    exact hA.blanks.then fun _ _ => (hA.character (by decide)).then fun _ _ =>
      Agree.pure hentries

/-!
## Headers and declarations
-/

theorem effectClause : A.Agree effectClause effectClause anyValues :=
  (hA.keyword (by decide)).then fun _ _ => hA.blanks.then fun _ _ =>
    (hA.character (by decide)).then fun _ _ => (hA.skipUntil (by decide)).then fun _ _ =>
      (hA.character (by decide)).then fun _ _ => hA.blanks

theorem moduleKind : A.Agree moduleKind moduleKind Eq := by
  refine Agree.bind (?_ : A.Agree _ _ (Option.Rel Eq)) ?_
  · apply Agree.optional
    refine Agree.bind (?_ : A.Agree _ _ Eq) ?_
    · apply Agree.orElse
      · exact (hA.keyword (by decide)).then fun _ _ => Agree.pure rfl
      · exact (hA.keyword (by decide)).then fun _ _ => Agree.pure rfl
    · intro kind kindRight hkind
      exact hA.blanks1.then fun _ _ => Agree.pure hkind
  · intro kind kindRight hkind
    apply Agree.pure
    cases hkind with
    | none => rfl
    | some h => rw [h]

theorem header : A.Agree header header A.SameHeader := by
  apply hA.moduleKind.bind
  rintro kind _ rfl
  refine (hA.keyword (by decide)).then fun _ _ => hA.blanks1.then fun _ _ => ?_
  apply hA.moduleName.bind
  intro name nameRight hname
  refine hA.blanks.then fun _ _ => ?_
  have hrest : A.Agree
      (do
        let exposing ← Syntax.exposingList
        Syntax.blanks
        Rule.atEnd
        return { kind, name, exposing : Header })
      (do
        let exposing ← Syntax.exposingList
        Syntax.blanks
        Rule.atEnd
        return { kind, name := nameRight, exposing : Header })
      A.SameHeader := by
    apply hA.exposingList.bind
    intro entries entriesRight hentries
    exact hA.blanks.then fun _ _ => hA.atEnd.then fun _ _ => Agree.pure ⟨rfl, hname, hentries⟩
  by_cases heffect : kind = .effect
  · rw [if_pos heffect, if_pos heffect]
    exact hA.effectClause.optional.bind fun _ _ _ => hrest
  · rw [if_neg heffect, if_neg heffect]
    exact hrest

theorem importDeclaration :
    A.Agree importDeclaration importDeclaration A.SameDeclaration := by
  refine (hA.keyword (by decide)).then fun _ _ => hA.blanks1.then fun _ _ => ?_
  apply hA.moduleName.bind
  intro module moduleRight hmodule
  have hasName : A.Agree
      (do Syntax.blanks1; Rule.word "as"; Syntax.blanks1; Syntax.upperName)
      (do Syntax.blanks1; Rule.word "as"; Syntax.blanks1; Syntax.upperName) A.SameName :=
    hA.blanks1.then fun _ _ => (hA.keyword (by decide)).then fun _ _ =>
      hA.blanks1.then fun _ _ => hA.upperName
  apply hasName.optional.bind
  intro asName asNameRight hasName
  apply (hA.blanks.then fun _ _ => hA.exposingList).optional.bind
  intro exposing exposingRight hexposing
  refine hA.blanks.then fun _ _ => hA.atEnd.then fun _ _ => Agree.pure ?_
  have halias : asName.map (·.name) = asNameRight.map (·.name) := by
    cases hasName with
    | none => rfl
    | some h => exact congrArg some h.name_eq
  have hentries : A.SameEntries (exposing.getD []) (exposingRight.getD []) := by
    cases hexposing with
    | none => rfl
    | some h => exact h
  refine ⟨congrArg some ?_, rfl, rfl, rfl⟩
  simp only [Import.map, hmodule.name_eq, hmodule.location_eq, halias]
  rw [hentries]

theorem aliasDeclaration :
    A.Agree aliasDeclaration aliasDeclaration A.SameDeclaration := by
  refine (hA.keyword (by decide)).then fun _ _ => hA.blanks1.then fun _ _ =>
    (hA.keyword (by decide)).then fun _ _ => hA.blanks1.then fun _ _ => ?_
  apply hA.upperName.bind
  intro name nameRight hname
  refine hA.body.then fun _ _ => Agree.pure ⟨rfl, congrArg some ?_, rfl, rfl⟩
  simp only [TypeDecl.map, hname.name_eq, hname.location_eq]

theorem constructorName : A.Agree constructorName constructorName A.SameName :=
  hA.upperName.bind fun _ _ hname => hA.constructorArgs.then fun _ _ => Agree.pure hname

theorem customDeclaration :
    A.Agree customDeclaration customDeclaration A.SameDeclaration := by
  refine (hA.keyword (by decide)).then fun _ _ => hA.blanks1.then fun _ _ => ?_
  apply hA.upperName.bind
  intro name nameRight hname
  have hshortens : Shortens (do Syntax.blanks1; Syntax.lowerName) :=
    (blanks1_consumes.mono fun _ h => h.left).shortens.then fun _ _ => lowerName_yields
  have hargument : A.Agree (do Syntax.blanks1; Syntax.lowerName)
      (do Syntax.blanks1; Syntax.lowerName) A.SameName :=
    hA.blanks1.then fun _ _ => hA.lowerName
  apply (hargument.many hshortens hshortens).bind
  intro _ _ _
  refine (hA.spaced (by decide)).then fun _ _ => ?_
  apply (hA.constructorName.separated (hA.spaced (by decide)) (spaced_shortens '|')
    (fun _ => constructorName_yields) (fun _ => constructorName_yields)).bind
  intro constructors constructorsRight hconstructors
  refine hA.blanks.then fun _ _ => hA.atEnd.then fun _ _ =>
    Agree.pure ⟨rfl, congrArg some ?_, rfl, rfl⟩
  simp only [TypeDecl.map, hname.name_eq, hname.location_eq, map_eq_of_forall₂ hconstructors]

theorem portDeclaration :
    A.Agree portDeclaration portDeclaration A.SameDeclaration := by
  refine (hA.keyword (by decide)).then fun _ _ => hA.blanks1.then fun _ _ => ?_
  apply hA.lowerName.bind
  intro name nameRight hname
  exact hA.blanks.then fun _ _ => (hA.character (by decide)).then fun _ _ =>
    hA.skipRest.then fun _ _ => Agree.pure ⟨rfl, rfl, rfl, congrArg some hname⟩

omit hA in
theorem ignored_same : A.SameDeclaration .ignored .ignored :=
  ⟨rfl, rfl, rfl, rfl⟩

theorem fixityDeclaration :
    A.Agree fixityDeclaration fixityDeclaration A.SameDeclaration :=
  ((hA.keyword (by decide)).orElse
    ((hA.keyword (by decide)).orElse (hA.keyword (by decide)))).then fun _ _ =>
      hA.blanks1.then fun _ _ => hA.skipRest.then fun _ _ => Agree.pure ignored_same

theorem annotationDeclaration :
    A.Agree annotationDeclaration annotationDeclaration A.SameDeclaration :=
  hA.valueName.bind fun _ _ _ => hA.blanks.then fun _ _ =>
    (hA.character (by decide)).then fun _ _ => hA.skipRest.then fun _ _ =>
      Agree.pure ignored_same

theorem functionDeclaration :
    A.Agree functionDeclaration functionDeclaration A.SameDeclaration :=
  hA.valueName.bind fun _ _ hname => hA.body.then fun _ _ =>
    Agree.pure ⟨rfl, rfl, congrArg some hname, rfl⟩

theorem declaration : A.Agree declaration declaration A.SameDeclaration :=
  hA.importDeclaration.orElse <| hA.aliasDeclaration.orElse <|
    hA.customDeclaration.orElse <| hA.portDeclaration.orElse <|
    hA.fixityDeclaration.orElse <|
    hA.annotationDeclaration.orElse hA.functionDeclaration

end Lawful

/-!
## Chunk by chunk
-/

/-- Readings that come out alike: both succeed with like values, or both fail for the same reason. -/
inductive AlikeRead (A : Alignment κ) {α : Type} (like : α -> α -> Prop) :
    Except ParseError α -> Except ParseError α -> Prop where
  | ok {a b : α} : like a b -> AlikeRead A like (.ok a) (.ok b)
  | error {failure : ParseFailure} {m n : Nat} :
      A.stops m n -> AlikeRead A like (.error ⟨failure, m⟩) (.error ⟨failure, n⟩)

def SameChunk (A : Alignment κ) (x y : Chunk) : Prop :=
  A.cursors x.cursor y.cursor

theorem Agree.read {α : Type} {rule : Rule α} {like : α -> α -> Prop}
    (h : A.Agree rule rule like) (failure : ParseFailure) {x y : Chunk}
    (hchunk : A.SameChunk x y) :
    A.AlikeRead like (x.read rule failure) (y.read rule failure) := by
  unfold Chunk.read
  rcases (h _ _ hchunk).cases with
    ⟨a, b, next, nextRight, hx, hy, _, hlike⟩ | ⟨last, other, hx, hy, hstops⟩
  · rw [hx, hy]
    exact .ok hlike
  · rw [hx, hy]
    exact .error hstops

theorem Lawful.readDeclarations (hA : A.Lawful) {xs ys : List Chunk}
    (h : List.Forall₂ A.SameChunk xs ys) :
    A.AlikeRead (List.Forall₂ A.SameDeclaration) (readDeclarations xs)
      (readDeclarations ys) := by
  induction h with
  | nil => exact .ok .nil
  | @cons x y xs ys hchunk _ ih =>
      have hfirst := hA.declaration.read .unrecognizedDeclaration hchunk
      unfold Syntax.readDeclarations
      generalize x.read Syntax.declaration .unrecognizedDeclaration = first,
        y.read Syntax.declaration .unrecognizedDeclaration = firstRight at hfirst
      generalize Syntax.readDeclarations xs = others,
        Syntax.readDeclarations ys = othersRight at ih
      cases hfirst with
      | error hstops => exact .error hstops
      | ok hdecl =>
          cases ih with
          | error hstops => exact .error hstops
          | ok hdecls => exact .ok (.cons hdecl hdecls)

theorem filterMap_eq_of_forall₂ {α β γ : Type} {f : α -> Option γ} {g : β -> Option γ}
    {as : List α} {bs : List β} (h : List.Forall₂ (fun a b => f a = g b) as bs) :
    as.filterMap f = bs.filterMap g := by
  induction h with
  | nil => rfl
  | cons hhead _ ih => rw [List.filterMap_cons, List.filterMap_cons, hhead, ih]

theorem same_declared {ds es : List Declaration}
    (h : List.Forall₂ A.SameDeclaration ds es) :
    (Declared.ofList ds).map A.left = (Declared.ofList es).map A.right := by
  have himports := filterMap_eq_of_forall₂ (h.imp fun _ _ h => h.asImport)
  have htypes := filterMap_eq_of_forall₂ (h.imp fun _ _ h => h.asType)
  have hfunctions := filterMap_eq_of_forall₂ (h.imp fun _ _ h => h.asFunction)
  have hports := filterMap_eq_of_forall₂ (h.imp fun _ _ h => h.asPort)
  simp only [Declared.ofList, Declared.map, List.map_filterMap, himports, htypes, hfunctions,
    hports]

theorem SameHeader.assemble {h g : Header} {ds es : List Declaration}
    (hheader : A.SameHeader h g) (hdecls : List.Forall₂ A.SameDeclaration ds es) :
    (assemble h ds).map A.left = (assemble g es).map A.right := by
  have hempty : (Syntax.assemble h []).map A.left = (Syntax.assemble g []).map A.right := by
    simp only [Syntax.assemble, Outline.map, hheader.kind, hheader.name.name_eq,
      hheader.name.location_eq, List.filterMap_nil, List.map_nil]
    rw [hheader.exposing]
  rw [← List.nil_append ds, ← List.nil_append es, assemble_append, assemble_append,
    Outline.map_extend, Outline.map_extend, hempty, same_declared hdecls]

theorem Lawful.readOutline (hA : A.Lawful) (hstops : A.stops 0 0) {source other : List Char}
    (h : List.Forall₂ A.SameChunk (sourceChunks source) (sourceChunks other)) :
    A.AlikeRead (fun m n => m.map A.left = n.map A.right) (readOutline source)
      (readOutline other) := by
  unfold Syntax.readOutline
  generalize sourceChunks source = chunks, sourceChunks other = chunksRight at h
  cases h with
  | nil => exact .error hstops
  | @cons x y xs ys hchunk hchunks =>
      have hheader := hA.header.read .invalidHeader hchunk
      have hothers := hA.readDeclarations hchunks
      simp only
      generalize x.read Syntax.header .invalidHeader = head,
        y.read Syntax.header .invalidHeader = headRight at hheader
      generalize Syntax.readDeclarations xs = others,
        Syntax.readDeclarations ys = othersRight at hothers
      cases hheader with
      | error hstop => exact .error hstop
      | ok hhead =>
          cases hothers with
          | error hstop => exact .error hstop
          | ok hdecls => exact .ok (hhead.assemble hdecls)

end Alignment
end Syntax
end ElmNavigator
