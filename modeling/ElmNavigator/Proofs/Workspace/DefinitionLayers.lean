import ElmNavigator.Proofs.Workspace.LookupAnswers
import Mathlib.Data.List.Induction

/-!
# The layers of a definition

A name is asked for in the modules of the imports that mean it, or in the module
itself if no import does, and only then in the imports that expose everything.
The answer of the first two layers is the best of all that their queries find, so
imports that expose everything cannot take its place, and a name behind a module
or an alias never reaches them.
-/

namespace ElmNavigator

open Disk Syntax Text

/-!
## The best of several symbols
-/

/-- A symbol is the earliest one of the highest rank. -/
def Symbol.IsBest (s : Symbol) (symbols : List Symbol) : Prop :=
  exists before after, symbols = before ++ s :: after ∧
    (forall t, t ∈ before -> t.kind.rank < s.kind.rank) ∧
    (forall t, t ∈ after -> t.kind.rank ≤ s.kind.rank)

theorem Symbol.IsBest.rank_le {s t : Symbol} {symbols : List Symbol}
    (h : s.IsBest symbols) (ht : t ∈ symbols) : t.kind.rank ≤ s.kind.rank := by
  rcases h with ⟨before, after, hsymbols, hbefore, hafter⟩
  rw [hsymbols] at ht
  rcases List.mem_append.mp ht with hin | hin
  · exact Nat.le_of_lt (hbefore t hin)
  · rcases List.mem_cons.mp hin with heq | hlater
    · exact Nat.le_of_eq (by rw [heq])
    · exact hafter t hlater

theorem bestMatch_snoc (symbols : List Symbol) (s : Symbol) :
    bestMatch (symbols ++ [s]) =
      match bestMatch symbols with
      | some best => if best.kind.rank ≥ s.kind.rank then some best else some s
      | none => some s := by
  unfold bestMatch
  rw [List.foldl_append]
  rfl

theorem bestMatch_cases (symbols : List Symbol) :
    (symbols = [] ∧ bestMatch symbols = none) ∨
      exists s, bestMatch symbols = some s ∧ s.IsBest symbols := by
  -- The fold keeps the best of what it has read, so the induction is from the end.
  induction symbols using List.reverseRecOn with
  | nil =>
      exact Or.inl ⟨rfl, rfl⟩
  | append_singleton symbols s ih =>
      right
      rw [bestMatch_snoc]
      rcases ih with ⟨hempty, hnone⟩ | ⟨best, hbest, hisBest⟩
      · rw [hnone, hempty]
        exact ⟨s, rfl, [], [], rfl, by simp, by simp⟩
      · rw [hbest]
        by_cases hrank : best.kind.rank ≥ s.kind.rank
        · rcases hisBest with ⟨before, after, hsymbols, hbefore, hafter⟩
          exists best
          constructor
          · exact if_pos hrank
          · exists before, after ++ [s]
            constructor
            · rw [hsymbols, List.append_assoc, List.cons_append]
            · constructor
              · exact hbefore
              · intro t ht
                rcases List.mem_append.mp ht with hin | hin
                · exact hafter t hin
                · rw [List.mem_singleton.mp hin]
                  exact hrank
        · exists s
          constructor
          · exact if_neg hrank
          · exists symbols, []
            constructor
            · rfl
            · constructor
              · intro t ht
                exact Nat.lt_of_le_of_lt (hisBest.rank_le ht) (Nat.lt_of_not_le hrank)
              · simp

/-!
## Queries one after the other
-/

/-- The answers to several queries, each asked of the index that the one before it left. -/
def SymbolIndex.queryEach (files : Files Id) :
    List String -> SymbolIndex -> List (List Symbol) × SymbolIndex
  | [], ix => ([], ix)
  | text :: texts, ix =>
      let found := ix.query files text
      let others := queryEach files texts found.2
      (found.1 :: others.1, others.2)

namespace Definition

open ModuleLookup

variable {files : Files Id}

theorem inModules_eq (name : String) (modules : List String) (ix : SymbolIndex) :
    inModules files name modules ix =
      let answers := ix.queryEach files (modules.map (SymbolQuery.textOf · name))
      (answers.1.flatten, answers.2) := by
  induction modules generalizing ix with
  | nil => rfl
  | cons module modules ih =>
      show (let found := ix.query files (SymbolQuery.textOf module name)
        let others := inModules files name modules found.2
        (found.1 ++ others.1, others.2)) = _
      simp only [ih]
      rfl

/-!
## The modules that are asked
-/

/-- An import means a name with a module or alias in front if it is the module or
has the alias, and a name alone if it lists the name or opens a type that has a
constructor of the name. -/
def means (files : Files Id) (l : ModuleLookup) (ref : Reference) (i : Import Location) :
    Bool :=
  if ref.qualifier ≠ "" then i.asName = some ref.qualifier || i.module = ref.qualifier
  else
    i.exposesName ref.name ||
      (ref.name.toList.head?.any isUpper &&
        (l.byName files i.module).1.any (hasConstructor · i.openTypes ref.name))

def asked (files : Files Id) (l : ModuleLookup) (ref : Reference) (m : Outline Location) :
    List String :=
  let meant := (m.imports.filter (means files l ref)).map (·.module)
  if meant.isEmpty then [m.name] else meant

/-- What the first two layers find, query by query, and the index they leave. -/
def answers (files : Files Id) (l : ModuleLookup) (ix : SymbolIndex) (ref : Reference)
    (m : Outline Location) : List (List Symbol) × SymbolIndex :=
  ix.queryEach files ((asked files l ref m).map (SymbolQuery.textOf · ref.name))

theorem inModules_asked (l : ModuleLookup) (ix : SymbolIndex) (ref : Reference)
    (m : Outline Location) :
    inModules files ref.name (asked files l ref m) ix =
      ((answers files l ix ref m).1.flatten, (answers files l ix ref m).2) :=
  inModules_eq ref.name (asked files l ref m) ix

theorem isNamedBy_means (ref : Reference) (i : Import Location) (l : ModuleLookup) :
    (isNamedBy files ref i l).1 = means files l ref i := by
  unfold isNamedBy means
  split
  · rfl
  · cases hlists : i.exposesName ref.name with
    | true => rfl
    | false =>
        show (exposesConstructor files ref.name i l).1 = _
        rw [exposesConstructor_eq]
        cases ref.name.toList.head?.any isUpper with
        | false => rfl
        | true =>
            cases htypes : i.openTypes with
            | nil =>
                cases (l.byName files i.module).1 with
                | none => rfl
                | some module => rfl
            | cons type types =>
                cases hname : (l.byName files i.module).1 with
                | none => rfl
                | some module => rfl

theorem means_of_alike {α : Type} {view : Outline Location -> α}
    (hview : forall m other : Outline Location, view m = view other ->
      m.types = other.types)
    {l other : ModuleLookup} (h : Alike view files l other) (ref : Reference) :
    means files l ref = means files other ref := by
  funext i
  rw [← isNamedBy_means, ← isNamedBy_means]
  exact isNamedBy_of_alike hview h ref i

theorem namedModules_means (p : Path) (ref : Reference) (imports : List (Import Location))
    (l : ModuleLookup) :
    (namedModules files ref imports (l.atPath files p).2).1 =
      (imports.filter (means files l ref)).map (·.module) := by
  rw [namedModules_eq]
  simp only [isNamedBy_means]
  rw [means_of_alike types_of_id (atPath_alike p l)]

theorem atPosition_word {p : Path} {text : String} {line column : Nat} {word : String}
    {l : ModuleLookup} {m : Outline Location} (hword : wordAt? text line column = some word)
    (hm : (l.atPath files p).1 = some m) (ix : SymbolIndex) :
    ((atPosition files p text line column l ix).1,
        (atPosition files p text line column l ix).2.2) =
      let ref := Reference.ofWord word
      let found := answers files l ix ref m
      match bestMatch found.1.flatten with
      | some best => (some best, found.2)
      | none =>
          if ref.qualifier ≠ "" then (none, found.2)
          else inFirstOf files ref.name (wildcardModules m.imports) found.2 := by
  have hasked :
      (if (namedModules files (Reference.ofWord word) m.imports (l.atPath files p).2).1.isEmpty
        then [m.name]
        else (namedModules files (Reference.ofWord word) m.imports (l.atPath files p).2).1) =
      asked files l (Reference.ofWord word) m := by
    rw [namedModules_means]
    rfl
  rw [atPosition_eq, hword, hm]
  simp only [ofReference_eq, hasked, inModules_asked]
  cases bestMatch (answers files l ix (Reference.ofWord word) m).1.flatten with
  | some best => rfl
  | none =>
      simp only
      split
      · rfl
      · rfl

end Definition

/-!
## Changing the imports of the module
-/

/-- Two lookups differ at most in what they remember of one path. -/
structure ModuleLookup.DiffersAt (key : Path) (l other : ModuleLookup) : Prop where
  root : other.root = l.root
  settings : other.settings = l.settings
  sourceDirs : other.sourceDirs = l.sourceDirs
  cache : forall q, q ≠ key -> other.cache.get? q = l.cache.get? q

/-- A module without the imports that expose everything. -/
def Syntax.Outline.withoutWildcards (m : Outline Location) : Outline Location :=
  { m with imports := m.imports.filter (!·.exposesAll) }

/-- The imports that expose everything have the exposing list `(..)`. -/
def Syntax.Outline.PlainWildcards (m : Outline Location) : Prop :=
  forall i, i ∈ m.imports -> i.exposesAll = true -> exists place, i.exposing = [.all place]

/-- A module whose imports expose nothing. -/
def Syntax.Outline.withoutExposing (m : Outline Location) : Outline Location :=
  { m with imports := m.imports.map fun i => { i with exposing := [] } }

namespace Definition

open ModuleLookup

variable {files : Files Id} {p : Path} {l other : ModuleLookup} {m m' : Outline Location}

theorem alike_of_differsAt (h : l.DiffersAt p.normalize other)
    (hm : (l.atPath files p).1 = some m) (hm' : (other.atPath files p).1 = some m')
    (htypes : m.types = m'.types) : Alike Outline.types files l other := by
  constructor
  · intro q
    by_cases hq : q.normalize = p.normalize
    · rw [atPath_outline] at hm hm'
      rw [atPath_outline, atPath_outline, hq, hm, hm']
      exact congrArg some htypes
    · rw [atPath_outline, atPath_outline, h.cache q.normalize hq]
  · rw [dirs_eq, dirs_eq, h.root, h.settings, h.sourceDirs]

theorem means_of_differsAt (h : l.DiffersAt p.normalize other)
    (hm : (l.atPath files p).1 = some m) (hm' : (other.atPath files p).1 = some m')
    (htypes : m.types = m'.types) (ref : Reference) :
    means files l ref = means files other ref :=
  means_of_alike (fun _ _ heq => heq) (alike_of_differsAt h hm hm' htypes) ref

theorem means_wildcard {ref : Reference} {i : Import Location} {place : Location}
    (hbare : ref.qualifier = "") (hi : i.exposing = [.all place]) :
    means files l ref i = false := by
  have hlists : i.exposesName ref.name = false := by
    rw [Import.exposesName, hi]
    rfl
  have hopen : i.openTypes = [] := by
    rw [Import.openTypes, hi]
    rfl
  have hnone : (l.byName files i.module).1.any (hasConstructor · i.openTypes ref.name) =
      false := by
    rw [hopen]
    cases (l.byName files i.module).1 with
    | none => rfl
    | some module => rfl
  unfold means
  rw [hbare, hlists, hnone, Bool.and_false]
  rfl

theorem answers_withoutWildcards (h : l.DiffersAt p.normalize other)
    (hm : (l.atPath files p).1 = some m.withoutWildcards)
    (hm' : (other.atPath files p).1 = some m) (hwild : m.PlainWildcards)
    {ref : Reference} (hbare : ref.qualifier = "") (ix : SymbolIndex) :
    answers files l ix ref m.withoutWildcards = answers files other ix ref m := by
  have hmeans : means files l ref = means files other ref :=
    means_of_differsAt h hm hm' rfl ref
  have himports : m.withoutWildcards.imports.filter (means files l ref) =
      m.imports.filter (means files other ref) := by
    rw [hmeans, Outline.withoutWildcards, List.filter_filter]
    apply List.filter_congr
    intro i hi
    cases hall : i.exposesAll with
    | false => simp
    | true =>
        rcases hwild i hi hall with ⟨place, hplace⟩
        rw [means_wildcard hbare hplace]
        rfl
  unfold answers asked
  rw [himports]
  rfl

theorem answers_withoutExposing (h : l.DiffersAt p.normalize other)
    (hm : (l.atPath files p).1 = some m)
    (hm' : (other.atPath files p).1 = some m.withoutExposing) {ref : Reference}
    (hqualified : ref.qualifier ≠ "") (ix : SymbolIndex) :
    answers files l ix ref m = answers files other ix ref m.withoutExposing := by
  have hmeans : means files l ref = means files other ref :=
    means_of_differsAt h hm hm' rfl ref
  have hblind : forall i : Import Location,
      means files other ref { i with exposing := [] } = means files other ref i := by
    intro i
    unfold means
    rw [if_pos hqualified, if_pos hqualified]
  have hmodules : (m.imports.filter (means files l ref)).map (·.module) =
      (m.withoutExposing.imports.filter (means files other ref)).map (·.module) := by
    unfold Outline.withoutExposing
    rw [List.filter_map, List.map_map, hmeans]
    congr 1
    apply List.filter_congr
    intro i _
    exact (hblind i).symm
  unfold answers asked
  rw [hmodules]
  rfl

theorem wildcardModules_withoutWildcards (m : Outline Location) :
    wildcardModules m.withoutWildcards.imports = [] := by
  have hnone : m.withoutWildcards.imports.filter (·.exposesAll) = [] := by
    rw [Outline.withoutWildcards, List.filter_filter]
    apply List.filter_eq_nil_iff.mpr
    intro i _
    simp
  unfold wildcardModules
  rw [hnone]
  rfl

section Results

variable {text : String} {line column : Nat} {word : String}
  (hword : wordAt? text line column = some word) (hm : (l.atPath files p).1 = some m)
  (ix : SymbolIndex)

include hword hm

theorem atPosition_of_best {s : Symbol}
    (hbest : bestMatch (answers files l ix (Reference.ofWord word) m).1.flatten = some s) :
    (atPosition files p text line column l ix).1 = some s ∧
      (atPosition files p text line column l ix).2.2 =
        (answers files l ix (Reference.ofWord word) m).2 := by
  have hlayers := atPosition_word hword hm ix
  simp only [hbest] at hlayers
  exact Prod.mk.inj hlayers

theorem atPosition_qualified (hqualified : (Reference.ofWord word).qualifier ≠ "") :
    (atPosition files p text line column l ix).1 =
        bestMatch (answers files l ix (Reference.ofWord word) m).1.flatten ∧
      (atPosition files p text line column l ix).2.2 =
        (answers files l ix (Reference.ofWord word) m).2 := by
  cases hbest : bestMatch (answers files l ix (Reference.ofWord word) m).1.flatten with
  | some s => exact atPosition_of_best hword hm ix hbest
  | none =>
      have hlayers := atPosition_word hword hm ix
      simp only [hbest, if_pos hqualified] at hlayers
      exact Prod.mk.inj hlayers

theorem bestMatch_of_no_wildcards (hnone : wildcardModules m.imports = []) {s : Symbol}
    (hs : (atPosition files p text line column l ix).1 = some s) :
    bestMatch (answers files l ix (Reference.ofWord word) m).1.flatten = some s := by
  have hlayers := atPosition_word hword hm ix
  cases hbest : bestMatch (answers files l ix (Reference.ofWord word) m).1.flatten with
  | some best =>
      rw [← (atPosition_of_best hword hm ix hbest).1]
      exact hs
  | none =>
      have hempty : (atPosition files p text line column l ix).1 = none := by
        simp only [hbest, hnone] at hlayers
        split at hlayers
        · exact (Prod.mk.inj hlayers).1
        · exact (Prod.mk.inj hlayers).1
      rw [hempty] at hs
      cases hs

end Results

/-- The first two layers give the best of what their queries find.  Imports that expose
everything take nothing from it, and do not matter to a name with a module or alias in
front. -/
theorem atPosition_layers {text : String} {line column : Nat} {word : String}
    (hword : wordAt? text line column = some word) (hm : (l.atPath files p).1 = some m)
    (ix : SymbolIndex) :
    let ref := Reference.ofWord word
    let found := answers files l ix ref m
    let result := atPosition files p text line column l ix
    (found.1.flatten ≠ [] ->
      exists s, result.1 = some s ∧ s.IsBest found.1.flatten ∧ result.2.2 = found.2) ∧
    (ref.qualifier ≠ "" ->
      (found.1.flatten = [] -> result.1 = none) ∧ result.2.2 = found.2 ∧
      forall other : ModuleLookup, l.DiffersAt p.normalize other ->
        (other.atPath files p).1 = some m.withoutExposing ->
        (atPosition files p text line column other ix).1 = result.1 ∧
          (atPosition files p text line column other ix).2.2 = result.2.2) ∧
    (ref.qualifier = "" ->
      forall (other : ModuleLookup) (m' : Outline Location),
        l.DiffersAt p.normalize other -> (other.atPath files p).1 = some m' ->
        m'.PlainWildcards -> m = m'.withoutWildcards -> forall s, result.1 = some s ->
        (atPosition files p text line column other ix).1 = some s) := by
  intro ref found result
  constructor
  · intro hfound
    rcases bestMatch_cases found.1.flatten with ⟨hempty, _⟩ | ⟨s, hbest, hisBest⟩
    · exact absurd hempty hfound
    · have hs := atPosition_of_best hword hm ix hbest
      exact ⟨s, hs.1, hisBest, hs.2⟩
  · constructor
    · intro hqualified
      have hl := atPosition_qualified hword hm ix hqualified
      constructor
      · intro hempty
        rw [hl.1]
        show bestMatch found.1.flatten = none
        rw [hempty]
        rfl
      · constructor
        · exact hl.2
        · intro other hother hm'
          have hsame := answers_withoutExposing hother hm hm' hqualified ix
          have hr := atPosition_qualified hword hm' ix hqualified
          rw [hr.1, hr.2, hl.1, hl.2, hsame]
          exact ⟨rfl, rfl⟩
    · intro hbare other m' hother hm' hwild heq s hs
      subst heq
      have hbest := bestMatch_of_no_wildcards hword hm ix
        (wildcardModules_withoutWildcards m') hs
      rw [answers_withoutWildcards hother hm hm' hwild hbare ix] at hbest
      exact (atPosition_of_best hword hm' ix hbest).1

def mixedText : String :=
  "module M exposing (..)\nimport B exposing (..)\nimport A exposing (X)\ny = X\n"

/-- Both imported modules define the name: a type in the one, a constructor, which ranks
higher, in the one imported whole. -/
def mixedFiles : Files Id :=
  (((Tree.empty.write (Path.ofString "/w/M.elm") (.file (.text mixedText))).write
    (Path.ofString "/w/A.elm") (.file (.text "module A exposing (..)\ntype X = Y\n"))).write
    (Path.ofString "/w/B.elm") (.file (.text "module B exposing (..)\ntype Z = X\n"))).files

def mixedModule : Outline Location :=
  (parse mixedText).toOption.get (by decide +kernel)

/-- The listed type is found, with the import of the other module and without it. -/
theorem atPosition_layers_mixed :
    let path := Path.ofString "/w/M.elm"
    let whole := ModuleLookup.new (Path.ofString "/w") .default
    let listed := whole.remember path mixedModule.withoutWildcards
    let ix := SymbolIndex.new (Path.ofString "/w") .default
    exists s, s.container = "A" ∧
      (atPosition mixedFiles path mixedText 3 4 listed ix).1 = some s ∧
      (atPosition mixedFiles path mixedText 3 4 whole ix).1 = some s := by
  intro path whole listed ix
  have hdiffers : listed.DiffersAt path.normalize whole := by
    constructor
    · rfl
    · rfl
    · rfl
    · intro q hq
      have hkey : path.normalize = path := by decide +kernel
      rw [hkey] at hq
      have hget := Table.get?_insert whole.cache path mixedModule.withoutWildcards q
      rw [if_neg hq] at hget
      exact hget.symm
  have hwild : mixedModule.PlainWildcards := by
    intro i hi hall
    have hlists : (mixedModule.imports.filter (·.exposesAll)).map (·.exposing) =
        [[.all ⟨⟨42, 2, 20⟩, ⟨44, 2, 22⟩⟩]] := by
      decide +kernel
    have hmem : i.exposing ∈ (mixedModule.imports.filter (·.exposesAll)).map (·.exposing) :=
      List.mem_map_of_mem (List.mem_filter.mpr ⟨hi, hall⟩)
    rw [hlists] at hmem
    exact ⟨_, List.mem_singleton.mp hmem⟩
  have hword : wordAt? mixedText 3 4 = some "X" := by decide +kernel
  have hlisted : (listed.atPath mixedFiles path).1 = some mixedModule.withoutWildcards := by
    decide +kernel
  have hwhole : (whole.atPath mixedFiles path).1 = some mixedModule := by decide +kernel
  have hfound : (atPosition mixedFiles path mixedText 3 4 listed ix).1 =
      some ⟨"X", .type, "A", ⟨"file:///w/A.elm"⟩, ⟨1, 5, 1, 6⟩⟩ := by
    decide +kernel
  exact ⟨_, rfl, hfound, (atPosition_layers hword hlisted ix).2.2 (by decide +kernel) whole
    mixedModule hdiffers hwhole hwild rfl _ hfound⟩

end Definition
end ElmNavigator
