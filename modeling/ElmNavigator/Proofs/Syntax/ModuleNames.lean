import ElmNavigator.Proofs.Syntax.NamePlaces
import ElmNavigator.Workspace.SymbolQuery

/-!
# Names of modules

Headers and imports name modules by upper-case identifiers with dots between them.
A query for a name in such a module reads the module's name back, unless there is a
prime in it: identifiers may have primes, but queries do not take them for parts of
names, and read the whole text as a search.
-/

namespace ElmNavigator
namespace Syntax

open Text Rule

/-!
## Modules that a source text names
-/

section Rules

variable {origin : Cursor}

theorem moduleName_dotted :
    moduleName.Yields origin fun n => IsDotted n.name.toList := by
  apply (dottedName_consumes.lexeme fun _ => IsDotted.isWord).bind
  intro l hl
  apply Yields.pure
  rw [Lexeme.named, String.toList_ofList]
  exact hl.left

theorem header_dotted : header.Yields origin fun h => IsDotted h.name.name.toList := by
  apply moduleKind_yields.bind
  intro kind _
  apply (word_consumes "module").then
  intro _
  apply blanks1_consumes.then
  intro _
  apply moduleName_dotted.bind
  intro name hname
  apply blanks_consumes.then
  intro _
  have hrest : Yields origin
      (do
        let exposing ← exposingList
        blanks
        atEnd
        return { kind, name, exposing : Header })
      (fun h => IsDotted h.name.name.toList) :=
    exposingList_yields.bind fun _ _ => blanks_consumes.then fun _ =>
      atEnd_consumes.then fun _ => Yields.pure hname
  by_cases heffect : kind = .effect
  · rw [if_pos heffect]
    exact effectClause_consumes.yields.optional.bind fun _ _ => hrest
  · rw [if_neg heffect]
    exact hrest

/-- A declaration that is an import names a module. -/
def Declaration.NamesModule (decl : Declaration) : Prop :=
  forall i, decl.import? = some i -> IsDotted i.module.toList

theorem Declaration.namesModule_of_none {decl : Declaration} (h : decl.import? = none) :
    decl.NamesModule := by
  intro i hi
  rw [h] at hi
  cases hi

theorem importDeclaration_namesModule :
    importDeclaration.Yields origin Declaration.NamesModule := by
  apply (word_consumes "import").then
  intro _
  apply blanks1_consumes.then
  intro _
  apply moduleName_dotted.bind
  intro module hmodule
  have hasName : Yields origin (do blanks1; word "as"; blanks1; upperName) origin.Shows :=
    blanks1_consumes.then fun _ => (word_consumes "as").then fun _ =>
      blanks1_consumes.then fun _ => upperName_yields
  apply hasName.optional.bind
  intro asName _
  apply (blanks_consumes.then fun _ => exposingList_yields).optional.bind
  intro exposing _
  apply blanks_consumes.then
  intro _
  apply atEnd_consumes.then
  intro _
  apply Yields.pure
  intro i hi
  injection hi with hi
  rw [← hi]
  exact hmodule

theorem aliasDeclaration_namesModule :
    aliasDeclaration.Yields origin Declaration.NamesModule :=
  (word_consumes "type").then fun _ => blanks1_consumes.then fun _ =>
    (word_consumes "alias").then fun _ => blanks1_consumes.then fun _ =>
    upperName_yields.bind fun _ _ => body_consumes.then fun _ =>
    Yields.pure (Declaration.namesModule_of_none rfl)

theorem customDeclaration_namesModule :
    customDeclaration.Yields origin Declaration.NamesModule :=
  (word_consumes "type").then fun _ => blanks1_consumes.then fun _ =>
    upperName_yields.bind fun _ _ =>
    (blanks1_consumes.then fun _ => lowerName_yields).many.bind fun _ _ =>
    (spaced_consumes '=').then fun _ =>
    (constructorName_yields.separated (spaced_consumes '|')).bind fun _ _ =>
    blanks_consumes.then fun _ => atEnd_consumes.then fun _ =>
    Yields.pure (Declaration.namesModule_of_none rfl)

theorem portDeclaration_namesModule :
    portDeclaration.Yields origin Declaration.NamesModule :=
  (word_consumes "port").then fun _ => blanks1_consumes.then fun _ =>
    lowerName_yields.bind fun _ _ => blanks_consumes.then fun _ =>
    (character_consumes ':').then fun _ => skipRest_consumes.then fun _ =>
    Yields.pure (Declaration.namesModule_of_none rfl)

theorem fixityDeclaration_namesModule :
    fixityDeclaration.Yields origin Declaration.NamesModule :=
  ((word_consumes "infixl").yields.orElse
      ((word_consumes "infixr").yields.orElse (word_consumes "infix").yields)).bind
    fun _ _ => blanks1_consumes.then fun _ => skipRest_consumes.then fun _ =>
    Yields.pure (Declaration.namesModule_of_none rfl)

theorem annotationDeclaration_namesModule :
    annotationDeclaration.Yields origin Declaration.NamesModule :=
  valueName_yields.bind fun _ _ => blanks_consumes.then fun _ =>
    (character_consumes ':').then fun _ => skipRest_consumes.then fun _ =>
    Yields.pure (Declaration.namesModule_of_none rfl)

theorem functionDeclaration_namesModule :
    functionDeclaration.Yields origin Declaration.NamesModule :=
  valueName_yields.bind fun _ _ => body_consumes.then fun _ =>
    Yields.pure (Declaration.namesModule_of_none rfl)

theorem declaration_namesModule : declaration.Yields origin Declaration.NamesModule :=
  importDeclaration_namesModule.orElse <| aliasDeclaration_namesModule.orElse <|
    customDeclaration_namesModule.orElse <| portDeclaration_namesModule.orElse <|
    fixityDeclaration_namesModule.orElse <|
    annotationDeclaration_namesModule.orElse functionDeclaration_namesModule

end Rules

theorem readDeclarations_namesModule {chunks : List Chunk} {decls : List Declaration}
    (h : readDeclarations chunks = .ok decls) :
    forall decl, decl ∈ decls -> decl.NamesModule := by
  induction chunks generalizing decls with
  | nil =>
      injection h with hdecls
      subst hdecls
      intro decl hdecl
      cases hdecl
  | cons chunk chunks ih =>
      rcases exists_of_readDeclarations_cons h with ⟨first, others, hread, hrest, hdecls⟩
      subst hdecls
      intro decl hdecl
      rcases List.mem_cons.mp hdecl with hhead | htail
      · rw [hhead]
        exact Chunk.read_good declaration_namesModule hread
      · exact ih hrest decl htail

def Outline.modules {ℓ : Type} (m : Outline ℓ) : List String :=
  m.name :: m.imports.map (·.module)

theorem Outline.modules_map {ℓ κ : Type} (f : ℓ -> κ) (m : Outline ℓ) :
    (m.map f).modules = m.modules := by
  simp only [Outline.modules, Outline.map, List.map_map]
  rfl

theorem parse_modules_dotted {source : String} {m : Outline Location}
    (h : parse source = .ok m) :
    forall name, name ∈ m.modules -> IsDotted name.toList := by
  rcases exists_outline_of_parse h with ⟨outline, hread, hm⟩
  rcases exists_of_readOutline hread with
    ⟨first, others, head, decls, _, hheader, hdecls, houtline⟩
  rw [hm, Outline.modules_map, houtline]
  intro name hname
  rcases List.mem_cons.mp hname with hhead | htail
  · have hdotted := Chunk.read_good header_dotted hheader
    rw [hhead]
    exact hdotted
  · rcases List.mem_map.mp htail with ⟨i, hi, hmodule⟩
    rcases List.mem_filterMap.mp hi with ⟨decl, hdecl, himport⟩
    rw [← hmodule]
    exact readDeclarations_namesModule hdecls decl hdecl i himport

/-!
## Queries for names in modules
-/

theorem splitAtFirst?_append {sep : Char} {before : List Char} (h : sep ∉ before)
    (after : List Char) :
    splitAtFirst? sep (before ++ sep :: after) = some (before, after) := by
  induction before with
  | nil =>
      exact if_pos rfl
  | cons c cs ih =>
      have hc : c ≠ sep := fun heq => h (heq ▸ List.mem_cons_self)
      have hcs : sep ∉ cs := fun hmem => h (List.mem_cons_of_mem c hmem)
      rw [List.cons_append, splitAtFirst?, if_neg hc, ih hcs]
      rfl

/-- An identifier is part of a name in a query exactly if there is no prime in it. -/
theorem isNamePart_iff {part : List Char} (h : IsIdentifier isUpper part) :
    SymbolQuery.isNamePart part = true ↔ '\'' ∉ part := by
  have hupper : part.head?.any isUpper = true := by
    rcases h with ⟨c, cs, hpart, hc, _⟩
    rw [hpart]
    exact hc
  unfold SymbolQuery.isNamePart
  rw [hupper, Bool.true_and, List.all_eq_true]
  constructor
  · intro hall hprime
    exact absurd (hall '\'' hprime) (by decide)
  · intro hprime c hc
    have hident := isIdentChar_of_upper h hc
    have hne : c ≠ '\'' := fun heq => hprime (heq ▸ hc)
    simpa [isIdentChar, hne] using hident

theorem isModuleName_iff {text : List Char} (h : IsDotted text) :
    SymbolQuery.isModuleName text = true ↔ '\'' ∉ text := by
  unfold SymbolQuery.isModuleName
  rw [List.all_eq_true]
  constructor
  · intro hall hprime
    rcases Path.exists_mem_splitOn (by decide : '\'' ≠ '.') hprime with ⟨part, hpart, hmem⟩
    exact (isNamePart_iff (h part hpart)).mp (hall part hpart) hmem
  · intro hprime part hpart
    apply (isNamePart_iff (h part hpart)).mpr
    intro hmem
    exact hprime (Path.mem_of_mem_splitOn hpart hmem)

/-- A query for a name in a module is read back as one, or as a search if there is a prime in
the name of the module. -/
theorem parse_textOf {module : String} (h : IsDotted module.toList) (name : String) :
    SymbolQuery.parse (SymbolQuery.textOf module name) =
      if '\'' ∈ module.toList then .bare (SymbolQuery.textOf module name)
      else .qualified module name := by
  have hcolon : ':' ∉ module.toList := by
    intro hmem
    rcases h.isIdentChar hmem with hdot | hident
    · exact absurd hdot (by decide)
    · exact absurd hident (by decide)
  have htext : (SymbolQuery.textOf module name).toList =
      module.toList ++ ':' :: name.toList := by
    simp [SymbolQuery.textOf]
  unfold SymbolQuery.parse
  rw [htext, splitAtFirst?_append hcolon]
  simp only [isModuleName_iff h, String.ofList_toList, ite_not]

end Syntax
end ElmNavigator
