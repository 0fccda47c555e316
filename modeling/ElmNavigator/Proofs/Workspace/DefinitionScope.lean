import ElmNavigator.Proofs.Syntax.ModuleNames
import ElmNavigator.Proofs.Workspace.CacheCoherence
import ElmNavigator.Proofs.Workspace.DefinitionLayers
import ElmNavigator.Proofs.Workspace.IncrementalScan
import ElmNavigator.Proofs.Workspace.IndexConsistency

/-!
# The scope of a definition

A definition is looked for in the module of the document and in those that it
imports, by queries for a name in a module.  After every history such a query finds
the name in that module and nothing else, as long as there is no prime in the name of
the module.  With a prime it is a search of the whole workspace, and what it finds can
be any symbol whose name the query starts with.
-/

namespace ElmNavigator

open Disk Syntax Text

/-!
## What sessions keep
-/

/-- Every outline that a lookup remembers is that of some text. -/
def ModuleLookup.Parsed (l : ModuleLookup) : Prop :=
  forall p m, l.cache.get? p = some m -> exists text, parse text = .ok m

theorem exists_text_of_outlineIn? {answer : Except AccessError String} {m : Outline Location}
    (h : outlineIn? answer = some m) : exists text, parse text = .ok m := by
  cases answer with
  | error e =>
      cases h
  | ok text =>
      exists text
      simp only [outlineIn?] at h
      cases hparse : parse text with
      | error e =>
          rw [hparse] at h
          cases h
      | ok outline =>
          rw [hparse] at h
          injection h with h
          rw [h]

theorem ModuleLookup.Parsed.grows {files : Files Id} {l next : ModuleLookup} (h : l.Parsed)
    (hnext : Grows files l next) : next.Parsed := by
  intro p m hm
  rcases hnext p m hm with hold | hread
  · exact h p m hold
  · exact exists_text_of_outlineIn? hread

theorem ModuleLookup.Parsed.atPath {files : Files Id} {l : ModuleLookup} (h : l.Parsed)
    {p : Path} {m : Outline Location} (hm : (l.atPath files p).1 = some m) :
    exists text, parse text = .ok m := by
  rw [atPath_outline] at hm
  rcases Option.or_eq_some_iff.mp hm with hcache | ⟨_, hread⟩
  · exact h p.normalize m hcache
  · exact exists_text_of_outlineIn? hread

namespace SymbolIndex

theorem evolves_indexPath (files : Files Id) (p : Path) (ix : SymbolIndex) :
    Evolves ix (ix.indexPath files p).2 := by
  have hread : MonadAttach.CanReturn (ix.indexPath files p) (ix.indexPath files p) := rfl
  exact indexPath_evolves hread

theorem evolves_query (files : Files Id) (text : String) (ix : SymbolIndex) :
    Evolves ix (ix.query files text).2 := by
  have hquery : MonadAttach.CanReturn (ix.query files text) (ix.query files text) := rfl
  exact query_evolves hquery

end SymbolIndex

namespace Session

open SymbolIndex

variable (disk : Files Id)

theorem saveDocument_evolves (uri : Uri) (text : Option String) (s : Session) :
    Evolves s.index (s.saveDocument disk uri text).index := by
  unfold saveDocument
  cases FileUri.toPath? uri with
  | none =>
      exact Evolves.refl s.index
  | some p =>
      cases text with
      | some text => exact (Changes.update s.index p text).evolves
      | none => exact evolves_indexPath (s.files disk) p s.index

theorem fileChanged_evolves (event : FileEvent) (s : Session) :
    Evolves s.index (s.fileChanged disk event).index := by
  unfold fileChanged
  cases FileUri.toPath? event.uri with
  | none =>
      exact Evolves.refl s.index
  | some p =>
      simp only
      split
      · exact (Changes.remove s.index p).evolves
      · split
        · exact evolves_indexPath (s.files disk) p s.index
        · exact Evolves.refl s.index

theorem eachFileChanged_evolves (events : List FileEvent) (s : Session) :
    Evolves s.index (s.eachFileChanged disk events).index := by
  induction events generalizing s with
  | nil =>
      exact Evolves.refl s.index
  | cons event events ih =>
      exact (fileChanged_evolves disk event s).trans (ih (s.fileChanged disk event))

theorem definition_evolves (uri : Uri) (line column : Nat) (s : Session) :
    Evolves s.index (s.definition disk uri line column).2.index := by
  rw [definition_eq]
  cases FileUri.toPath? uri with
  | none =>
      exact Evolves.refl s.index
  | some p =>
      simp only
      cases s.documentText disk uri with
      | none =>
          exact Evolves.refl s.index
      | some text =>
          apply Definition.atPosition_keeps (P := Evolves s.index)
          · intro ix query hix
            exact hix.trans (evolves_query (s.files disk) query ix)
          · exact Evolves.refl s.index

end Session

namespace Workbench

open SymbolIndex

theorem step_evolves (w : Workbench) (event : Event) :
    Evolves w.session.index (w.step event).session.index := by
  cases event with
  | opened uri text =>
      simp only [step, Session.openDocument]
      cases FileUri.toPath? uri with
      | none => exact Evolves.refl _
      | some p => exact Evolves.refl _
  | edited uri changes =>
      simp only [step, Session.changeDocument]
      cases FileUri.toPath? uri with
      | none => exact Evolves.refl _
      | some p => exact Evolves.refl _
  | closed uri =>
      simp only [step, Session.closeDocument]
      cases FileUri.toPath? uri with
      | none => exact Evolves.refl _
      | some p => exact Evolves.refl _
  | saved uri text =>
      exact Session.saveDocument_evolves w.disk uri text w.session
  | documentSymbols uri =>
      exact Evolves.refl _
  | workspaceSymbols query =>
      exact evolves_query (w.session.files w.disk) query w.session.index
  | definition uri line column =>
      exact Session.definition_evolves w.disk uri line column w.session
  | reconfigured settings =>
      exact (Changes.reconfigure w.session.index settings).evolves
  | filesChanged events =>
      exact (Changes.clearMissing w.session.index).evolves.trans
        (Session.eachFileChanged_evolves w.disk events
          { w.session with index := w.session.index.clearMissing })
  | diskChanged disk =>
      exact Evolves.refl _

/-- The tables of the index are in step, and the outlines come from texts. -/
structure Sound (w : Workbench) : Prop where
  index : w.session.index.Consistent
  lookup : w.session.lookup.Parsed

theorem start_sound (disk : Files Id) (root : Path) (settings : Settings) :
    (start disk root settings).Sound := by
  constructor
  · exact new_consistent root settings
  · intro p m hm
    cases hm

theorem Sound.step {w : Workbench} (h : w.Sound) (event : Event) : (w.step event).Sound :=
  ⟨h.index.evolves (w.step_evolves event), h.lookup.grows (w.step_grows event)⟩

theorem Sound.run {w : Workbench} (h : w.Sound) (events : List Event) :
    (w.run events).Sound := by
  induction events generalizing w with
  | nil =>
      exact h
  | cons event events ih =>
      exact ih (h.step event)

end Workbench

/-!
## What queries find
-/

/-- What a query for a name in a module may find: the name in the module, or, if there is a
prime in the name of the module, anything whose name the query starts with. -/
def Symbol.FoundIn (module name : String) (s : Symbol) : Prop :=
  (s.name = name ∧ s.container = module) ∨
    ('\'' ∈ module.toList ∧ s.name.toList <+: (SymbolQuery.textOf module name).toList)

namespace SymbolIndex

variable {ix : SymbolIndex} {s : Symbol}

theorem Consistent.query (h : ix.Consistent) (files : Files Id) (text : String) :
    (ix.query files text).2.Consistent :=
  h.evolves (evolves_query files text ix)

theorem Consistent.mem_named (h : ix.Consistent) {module name : String}
    (hs : s ∈ ix.named module name) : s.name = name ∧ s.container = module := by
  unfold SymbolIndex.named at hs
  cases hr : ix.module? module with
  | none =>
      rw [hr] at hs
      cases hs
  | some r =>
      rw [hr] at hs
      rcases List.mem_filter.mp hs with ⟨hmem, hname⟩
      have hrecord := h.describes r.path r (h.reachable module r hr)
      constructor
      · exact of_decide_eq_true hname
      · rw [hrecord.container s hmem, h.named module r hr]

theorem prefix_of_mem_startingWith {text : String} (hs : s ∈ ix.startingWith text) :
    s.name.toList <+: text.toList := by
  rcases List.mem_filter.mp hs with ⟨_, hprefix⟩
  exact List.isPrefixOf_iff_prefix.mp hprefix

theorem Consistent.mem_query (h : ix.Consistent) {files : Files Id} {module name : String}
    (hmodule : IsDotted module.toList)
    (hs : s ∈ (ix.query files (SymbolQuery.textOf module name)).1) :
    s.FoundIn module name := by
  have hnext := h.query files (SymbolQuery.textOf module name)
  rw [query_eq, parse_textOf hmodule] at hs hnext
  by_cases hprime : '\'' ∈ module.toList
  · rw [if_pos hprime] at hs
    exact Or.inr ⟨hprime, prefix_of_mem_startingWith hs⟩
  · rw [if_neg hprime] at hs hnext
    exact Or.inl (hnext.mem_named hs)

end SymbolIndex

namespace Definition

open ModuleLookup SymbolIndex

variable {files : Files Id} {ix : SymbolIndex} {name : String} {s : Symbol}

theorem foundIn_of_mem_inModules {modules : List String}
    (hmodules : forall module, module ∈ modules -> IsDotted module.toList)
    (hix : ix.Consistent) (hs : s ∈ (inModules files name modules ix).1) :
    exists module, module ∈ modules ∧ s.FoundIn module name := by
  induction modules generalizing ix with
  | nil =>
      cases hs
  | cons module modules ih =>
      rcases List.mem_append.mp hs with hfirst | hothers
      · exact ⟨module, List.mem_cons_self,
          hix.mem_query (hmodules module List.mem_cons_self) hfirst⟩
      · rcases ih (fun other hother => hmodules other (List.mem_cons_of_mem module hother))
          (hix.query files (SymbolQuery.textOf module name)) hothers with ⟨other, hother, hfound⟩
        exact ⟨other, List.mem_cons_of_mem module hother, hfound⟩

theorem mem_of_bestMatch {symbols : List Symbol} (h : bestMatch symbols = some s) :
    s ∈ symbols := by
  rcases bestMatch_cases symbols with ⟨_, hnone⟩ | ⟨best, hbest, before, after, hsymbols, _⟩
  · rw [hnone] at h
    cases h
  · rw [hbest] at h
    injection h with h
    rw [hsymbols, h]
    exact List.mem_append_right before List.mem_cons_self

theorem foundIn_of_inFirstOf {modules : List String}
    (hmodules : forall module, module ∈ modules -> IsDotted module.toList)
    (hix : ix.Consistent) (hs : (inFirstOf files name modules ix).1 = some s) :
    exists module, module ∈ modules ∧ s.FoundIn module name := by
  induction modules generalizing ix with
  | nil =>
      cases hs
  | cons module modules ih =>
      rw [inFirstOf_cons] at hs
      simp only at hs
      split at hs
      · rename_i best hbest
        injection hs with hs
        subst hs
        exact ⟨module, List.mem_cons_self,
          hix.mem_query (hmodules module List.mem_cons_self) (mem_of_bestMatch hbest)⟩
      · rcases ih (fun other hother => hmodules other (List.mem_cons_of_mem module hother))
          (hix.query files (SymbolQuery.textOf module name)) hs with ⟨other, hother, hfound⟩
        exact ⟨other, List.mem_cons_of_mem module hother, hfound⟩

theorem mem_modules_of_mem_asked {l : ModuleLookup} {ref : Reference} {m : Outline Location}
    {module : String} (h : module ∈ asked files l ref m) : module ∈ m.modules := by
  unfold asked at h
  simp only at h
  split at h
  · rw [List.mem_singleton.mp h]
    exact List.mem_cons_self
  · rcases List.mem_map.mp h with ⟨i, hi, hmodule⟩
    rw [← hmodule]
    exact List.mem_cons_of_mem m.name (List.mem_map_of_mem (List.mem_filter.mp hi).1)

theorem mem_modules_of_mem_wildcardModules {m : Outline Location} {module : String}
    (h : module ∈ wildcardModules m.imports) : module ∈ m.modules := by
  rcases List.mem_map.mp h with ⟨i, hi, hmodule⟩
  rw [← hmodule]
  exact List.mem_cons_of_mem m.name (List.mem_map_of_mem (List.mem_filter.mp hi).1)

theorem exists_word_of_atPosition {p : Path} {text : String} {line column : Nat}
    {l : ModuleLookup} (h : (atPosition files p text line column l ix).1 = some s) :
    exists word m, wordAt? text line column = some word ∧ (l.atPath files p).1 = some m := by
  rw [atPosition_eq] at h
  cases hword : wordAt? text line column with
  | none =>
      rw [hword] at h
      cases h
  | some word =>
      rw [hword] at h
      cases hm : (l.atPath files p).1 with
      | none =>
          simp only [hm] at h
          cases h
      | some m =>
          exact ⟨word, m, rfl, rfl⟩

theorem foundIn_of_atPosition {p : Path} {text : String} {line column : Nat} {word : String}
    {l : ModuleLookup} {m : Outline Location} (hword : wordAt? text line column = some word)
    (hm : (l.atPath files p).1 = some m) (hix : ix.Consistent) (hl : l.Parsed)
    (hs : (atPosition files p text line column l ix).1 = some s) :
    exists module, module ∈ m.modules ∧ s.FoundIn module (Reference.ofWord word).name := by
  rcases hl.atPath hm with ⟨source, hsource⟩
  have hdotted := parse_modules_dotted hsource
  have hasked : forall module, module ∈ asked files l (Reference.ofWord word) m ->
      IsDotted module.toList :=
    fun module hmodule => hdotted module (mem_modules_of_mem_asked hmodule)
  have hsymbols : (answers files l ix (Reference.ofWord word) m).1.flatten =
      (inModules files (Reference.ofWord word).name
        (asked files l (Reference.ofWord word) m) ix).1 := by
    rw [inModules_asked]
  have hindex : (answers files l ix (Reference.ofWord word) m).2 =
      (inModules files (Reference.ofWord word).name
        (asked files l (Reference.ofWord word) m) ix).2 := by
    rw [inModules_asked]
  cases hbest : bestMatch (answers files l ix (Reference.ofWord word) m).1.flatten with
  | some best =>
      rw [(atPosition_of_best hword hm ix hbest).1] at hs
      injection hs with hs
      rw [← hs]
      have hmem := mem_of_bestMatch hbest
      rw [hsymbols] at hmem
      rcases foundIn_of_mem_inModules hasked hix hmem with ⟨module, hmodule, hfound⟩
      exact ⟨module, mem_modules_of_mem_asked hmodule, hfound⟩
  | none =>
      have hlayers := atPosition_word hword hm ix
      simp only [hbest] at hlayers
      split at hlayers
      · rw [(Prod.mk.inj hlayers).1] at hs
        cases hs
      · have hnext : (answers files l ix (Reference.ofWord word) m).2.Consistent := by
          rw [hindex]
          exact inModules_keeps (fun ix text h => h.query files text) _ _ hix
        have hlast := congrArg Prod.fst hlayers
        rw [hs] at hlast
        rcases foundIn_of_inFirstOf
          (fun module hmodule => hdotted module (mem_modules_of_mem_wildcardModules hmodule))
          hnext hlast.symm with ⟨module, hmodule, hfound⟩
        exact ⟨module, mem_modules_of_mem_wildcardModules hmodule, hfound⟩

end Definition

namespace Workbench

/-- After every history, and whatever the files are by then, a definition has the name at the
cursor and is in one of the modules that the document's module names, unless one of these has a
prime in its name and a query for the name in it starts with the name of the definition. -/
theorem atPosition_in_scope (disk : Files Id) (root : Path) (settings : Settings)
    (events : List Event) (files : Files Id) (p : Path) (text : String) (line column : Nat)
    (s : Symbol) :
    let w := (start disk root settings).run events
    (Definition.atPosition files p text line column w.session.lookup w.session.index).1 =
        some s ->
      exists word m, wordAt? text line column = some word ∧
        (w.session.lookup.atPath files p).1 = some m ∧
        ((s.name = (Reference.ofWord word).name ∧ s.container ∈ m.modules) ∨
          exists module, module ∈ m.modules ∧ '\'' ∈ module.toList ∧
            s.name.toList <+:
              (SymbolQuery.textOf module (Reference.ofWord word).name).toList) := by
  intro w hs
  have hsound : w.Sound := (start_sound disk root settings).run events
  rcases Definition.exists_word_of_atPosition hs with ⟨word, m, hword, hm⟩
  rcases Definition.foundIn_of_atPosition hword hm hsound.index hsound.lookup hs with
    ⟨module, hmodule, hnamed | hsearched⟩
  · refine ⟨word, m, hword, hm, Or.inl ⟨hnamed.1, ?_⟩⟩
    rw [hnamed.2]
    exact hmodule
  · exact ⟨word, m, hword, hm, Or.inr ⟨module, hmodule, hsearched⟩⟩

/-- A name behind an alias is found in the module that has the alias, after a search of the
workspace. -/
theorem atPosition_in_scope_alias :
    let path := Path.ofString "/w/M.elm"
    let text := "module M exposing (..)\nimport A.B as C\ny = C.x\n"
    let disk := ((Tree.empty.write path (.file (.text text))).write
      (Path.ofString "/w/A/B.elm") (.file (.text "module A.B exposing (..)\nx = z\n"))).files
    let w := (start disk (Path.ofString "/w") .default).run [.workspaceSymbols "xyz"]
    exists s, s.name = "x" ∧ s.container = "A.B" ∧
      (Definition.atPosition disk path text 2 6 w.session.lookup w.session.index).1 = some s ∧
      exists word m, wordAt? text 2 6 = some word ∧
        (w.session.lookup.atPath disk path).1 = some m ∧
        ((s.name = (Reference.ofWord word).name ∧ s.container ∈ m.modules) ∨
          exists module, module ∈ m.modules ∧ '\'' ∈ module.toList ∧
            s.name.toList <+:
              (SymbolQuery.textOf module (Reference.ofWord word).name).toList) := by
  intro path text disk w
  have hs : (Definition.atPosition disk path text 2 6 w.session.lookup w.session.index).1 =
      some ⟨"x", .function, "A.B", ⟨"file:///w/A/B.elm"⟩, ⟨1, 0, 1, 1⟩⟩ := by
    decide +kernel
  exact ⟨_, rfl, rfl, hs, atPosition_in_scope disk _ _ _ disk path text 2 6 _ hs⟩

/-- With a prime in the name of an imported module the definition of a name can be another
name in a module that is not imported. -/
theorem atPosition_out_of_scope :
    let path := Path.ofString "/w/M.elm"
    let text := "module M exposing (..)\nimport A' exposing (x)\ny = x\n"
    let disk := ((Tree.empty.write path (.file (.text text))).write
      (Path.ofString "/w/B.elm") (.file (.text "module B exposing (..)\ntype A = C\n"))).files
    let w := start disk (Path.ofString "/w") .default
    wordAt? text 2 4 = some "x" ∧
      (w.session.lookup.atPath disk path).1.map (·.modules) = some ["M", "A'"] ∧
      ((Definition.atPosition disk path text 2 4 w.session.lookup w.session.index).1.map
        fun s => (s.name, s.container)) = some ("A", "B") := by
  decide +kernel

end Workbench
end ElmNavigator
