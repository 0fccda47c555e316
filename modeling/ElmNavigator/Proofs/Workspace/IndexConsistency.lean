import ElmNavigator.Proofs.Place.NormalPaths
import ElmNavigator.Proofs.Workspace.Tables
import ElmNavigator.Workspace.SymbolIndex
import Mathlib.Logic.Relation

/-!
# Consistency of the symbol index

The index finds a record by the path of its file or by the name of its module.
The two tables stay in step: a record that is found by a name is the record of
its file, so an old name of a module never lingers.

Every operation of the index comes down to a few changes of its tables, whatever
the files answer.  `Evolves` lists these changes; the operations are related to
it once, and an invariant needs to be checked for the changes only.
-/

namespace ElmNavigator
namespace SymbolIndex

open Disk Syntax

/-!
## Records and names
-/

/-- A record describes the file at a normal path: its symbols are those of one module in one
document. -/
structure Describes (r : ModuleSymbols) (p : Path) : Prop where
  normal : p.normalize = p
  path_eq : r.path = p
  container : forall s, s ∈ r.symbols -> s.container = r.module
  uri : forall s, s ∈ r.symbols -> s.uri = FileUri.ofPath p
  one_module : r.symbols.countP (fun s => s.kind = .module) = 1

/-- The two tables of an index are in step. -/
structure Consistent (ix : SymbolIndex) : Prop where
  describes : forall p r, ix.byPath.get? p = some r -> Describes r p
  named : forall n r, ix.byModule.get? n = some r -> r.module = n
  reachable : forall n r, ix.byModule.get? n = some r ->
    ix.byPath.get? r.path = some r

theorem mem_typeSymbols {container : String} {uri : Uri}
    {t : TypeDecl Text.Location} {s : Symbol}
    (h : s ∈ Symbol.typeSymbols container uri t) :
    s.container = container ∧ s.uri = uri ∧ s.kind ≠ .module := by
  cases t with
  | synonym name l =>
      rw [List.mem_singleton.mp h]
      exact ⟨rfl, rfl, by simp [Symbol.ofNamed]⟩
  | custom name constructors l =>
      rcases List.mem_cons.mp h with hhead | htail
      · rw [hhead]
        exact ⟨rfl, rfl, by simp [Symbol.ofNamed]⟩
      · rcases List.mem_map.mp htail with ⟨c, _hc, hs⟩
        rw [← hs]
        exact ⟨rfl, rfl, by simp [Symbol.ofNamed]⟩

theorem mem_declared {m : Outline Text.Location} {uri : Uri} {s : Symbol}
    (h : s ∈ m.types.flatMap (Symbol.typeSymbols m.name uri) ++
      m.functions.map (Symbol.ofNamed m.name uri .function) ++
      m.ports.map (Symbol.ofNamed m.name uri .port)) :
    s.container = m.name ∧ s.uri = uri ∧ s.kind ≠ .module := by
  simp only [List.mem_append, List.mem_flatMap, List.mem_map] at h
  rcases h with (⟨t, _ht, hs⟩ | ⟨f, _hf, hs⟩) | ⟨p, _hp, hs⟩
  · exact mem_typeSymbols hs
  · rw [← hs]
    exact ⟨rfl, rfl, by simp [Symbol.ofNamed]⟩
  · rw [← hs]
    exact ⟨rfl, rfl, by simp [Symbol.ofNamed]⟩

theorem ofOutline_symbols (m : Outline Text.Location) (uri : Uri) :
    (forall s, s ∈ Symbol.ofOutline m uri ->
        s.container = m.name ∧ s.uri = uri) ∧
      (Symbol.ofOutline m uri).countP (fun s => s.kind = .module) = 1 := by
  constructor
  · intro s hs
    rcases List.mem_append.mp hs with hdeclared | hmodule
    · have hsymbol := mem_declared hdeclared
      exact ⟨hsymbol.left, hsymbol.right.left⟩
    · rw [List.mem_singleton.mp hmodule]
      exact ⟨rfl, rfl⟩
  · unfold Symbol.ofOutline
    rw [List.countP_append, List.countP_eq_zero.mpr]
    · rfl
    · intro s hs
      simpa using (mem_declared hs).right.right

theorem recordOf?_describes {p : Path} {text : String} {r : ModuleSymbols}
    (h : recordOf? p.normalize text = some r) : Describes r p.normalize := by
  unfold recordOf? at h
  cases hparse : parse text with
  | error e =>
      rw [hparse] at h
      cases h
  | ok m =>
      rw [hparse] at h
      injection h with hr
      have hsymbols := ofOutline_symbols m (FileUri.ofPath p.normalize)
      subst hr
      constructor
      case normal => exact Path.normalize_normalize p
      case path_eq => rfl
      case container => exact fun s hs => (hsymbols.left s hs).left
      case uri => exact fun s hs => (hsymbols.left s hs).right
      case one_module => exact hsymbols.right

/-!
## Changes of the tables
-/

theorem new_consistent (root : Path) (settings : Settings) :
    (new root settings).Consistent := by
  constructor
  · intro p r h
    cases h
  · intro n r h
    cases h
  · intro n r h
    cases h

/-- A name stays when a record is taken out, unless it is that record's and still leads to its
file. -/
theorem get?_releaseName {names : Table String ModuleSymbols}
    {old r : ModuleSymbols} {n : String} :
    (releaseName names old).get? n = some r ↔
      names.get? n = some r ∧ (n = old.module -> r.path ≠ old.path) := by
  by_cases hn : n = old.module
  · subst hn
    unfold releaseName
    cases hcurrent : names.get? old.module with
    | none =>
        simp [hcurrent]
    | some current =>
        show (if current.path = old.path then names.erase old.module else names).get?
          old.module = some r ↔ _
        split
        · rename_i hpath
          rw [Table.get?_erase, if_pos rfl]
          constructor
          · intro hnone
            cases hnone
          · rintro ⟨hr, hne⟩
            injection hr with hr
            exact absurd (hr ▸ hpath) (hne rfl)
        · rename_i hpath
          rw [hcurrent]
          constructor
          · intro hr
            injection hr with hr
            exact ⟨congrArg some hr, fun _ => hr ▸ hpath⟩
          · exact And.left
  · have hsame : (releaseName names old).get? n = names.get? n := by
      unfold releaseName
      split
      · split
        · rw [Table.get?_erase, if_neg hn]
        · rfl
      · rfl
    rw [hsame]
    exact ⟨fun hr => ⟨hr, fun heq => absurd heq hn⟩, And.left⟩

theorem get?_byPath_remove (ix : SymbolIndex) (p other : Path) :
    (ix.remove p).byPath.get? other =
      if other = p.normalize then none else ix.byPath.get? other := by
  simp only [remove]
  cases hrecord : ix.clearMissing.record? p with
  | none =>
      have hnone : ix.byPath.get? p.normalize = none := hrecord
      show ix.byPath.get? other = _
      by_cases hother : other = p.normalize
      · rw [if_pos hother, hother]
        exact hnone
      · rw [if_neg hother]
  | some old =>
      exact Table.get?_erase ix.byPath p.normalize other

/-- To compare the path of the record that a name leads to with that of a file's record is to compare
the records themselves. -/
theorem Consistent.path_eq_iff {ix : SymbolIndex} (h : ix.Consistent) {n : String} {p : Path}
    {current old : ModuleSymbols} (hcurrent : ix.byModule.get? n = some current)
    (hold : ix.byPath.get? p = some old) : current.path = old.path ↔ current = old := by
  constructor
  · intro hpath
    have hreach := h.reachable n current hcurrent
    rw [hpath, (h.describes p old hold).path_eq, hold] at hreach
    exact (Option.some.inj hreach).symm
  · exact congrArg ModuleSymbols.path

theorem Consistent.get?_byModule_remove {ix : SymbolIndex} (h : ix.Consistent) (p : Path)
    {n : String} {r : ModuleSymbols} :
    (ix.remove p).byModule.get? n = some r ↔
      ix.byModule.get? n = some r ∧ r.path ≠ p.normalize := by
  simp only [SymbolIndex.remove]
  cases hrecord : ix.clearMissing.record? p with
  | none =>
      have hnone : ix.byPath.get? p.normalize = none := hrecord
      constructor
      · intro hr
        refine ⟨hr, ?_⟩
        intro heq
        have hreach := h.reachable n r hr
        rw [heq, hnone] at hreach
        cases hreach
      · exact And.left
  | some old =>
      have hold : ix.byPath.get? p.normalize = some old := hrecord
      have hpath : old.path = p.normalize := (h.describes _ old hold).path_eq
      show (releaseName ix.byModule old).get? n = some r ↔ _
      rw [get?_releaseName, hpath]
      constructor
      · rintro ⟨hr, hne⟩
        refine ⟨hr, ?_⟩
        intro heq
        -- The record of the removed file had this name, so the name was released.
        have hrecords := (h.path_eq_iff hr hold).mp (heq.trans hpath.symm)
        exact hne (by rw [← h.named n r hr, hrecords]) heq
      · rintro ⟨hr, hne⟩
        exact ⟨hr, fun _ => hne⟩

theorem Consistent.remove {ix : SymbolIndex} (h : ix.Consistent) (p : Path) :
    (ix.remove p).Consistent := by
  constructor
  · intro q r hr
    rw [get?_byPath_remove] at hr
    split at hr
    · cases hr
    · exact h.describes q r hr
  · intro n r hr
    exact h.named n r ((h.get?_byModule_remove p).mp hr).left
  · intro n r hr
    rcases (h.get?_byModule_remove p).mp hr with ⟨hn, hne⟩
    rw [get?_byPath_remove, if_neg hne]
    exact h.reachable n r hn

theorem Consistent.add {ix : SymbolIndex} (h : ix.Consistent)
    {r : ModuleSymbols} (hr : Describes r r.path)
    (hfree : ix.byPath.get? r.path = none) : (ix.add r).Consistent := by
  have hpath : forall q, (ix.add r).byPath.get? q =
      if q = r.path then some r else ix.byPath.get? q :=
    Table.get?_insert ix.byPath r.path r
  have hname : forall n, (ix.add r).byModule.get? n =
      if n = r.module then some r else ix.byModule.get? n :=
    Table.get?_insert ix.byModule r.module r
  constructor
  · intro q other hother
    rw [hpath] at hother
    split at hother
    · rename_i hq
      injection hother with hother
      rw [← hother, hq]
      exact hr
    · exact h.describes q other hother
  · intro n other hother
    rw [hname] at hother
    split at hother
    · rename_i hn
      injection hother with hother
      rw [← hother, hn]
    · exact h.named n other hother
  · intro n other hother
    rw [hname] at hother
    rw [hpath]
    split at hother
    · injection hother with hother
      rw [← hother, if_pos rfl]
    · have hreach := h.reachable n other hother
      rw [if_neg]
      · exact hreach
      · -- No record is found by name at a path that has none.
        intro heq
        rw [heq, hfree] at hreach
        cases hreach

theorem Consistent.update {ix : SymbolIndex} (h : ix.Consistent) (p : Path)
    (text : String) : (ix.update p text).Consistent := by
  have hremove := h.remove p.normalize
  unfold SymbolIndex.update
  cases hrecord : recordOf? p.normalize text with
  | none =>
      exact hremove
  | some r =>
      have hdescribes := recordOf?_describes hrecord
      have hpath : r.path = p.normalize := hdescribes.path_eq
      apply hremove.add
      · rw [hpath]
        exact hdescribes
      · rw [get?_byPath_remove, hpath, if_pos hdescribes.normal.symm]

/-!
## What operations do to an index

The operations run in a monad of the caller's choice and act on whatever the
files answer, so they are described by the changes that lead to all that they can
return.
-/

/-- One change of an index. -/
inductive Changes : SymbolIndex -> SymbolIndex -> Prop where
  | update (ix : SymbolIndex) (p : Path) (text : String) :
      Changes ix (ix.update p text)
  | remove (ix : SymbolIndex) (p : Path) : Changes ix (ix.remove p)
  | clearMissing (ix : SymbolIndex) : Changes ix ix.clearMissing
  | addMissing (ix : SymbolIndex) (name : String) :
      Changes ix (ix.addMissing name)
  | scanned (ix : SymbolIndex) : Changes ix { ix with scanned := true }
  | reconfigure (ix : SymbolIndex) (settings : Settings) :
      Changes ix (ix.reconfigure settings)

/-- Any number of changes. -/
def Evolves : SymbolIndex -> SymbolIndex -> Prop :=
  Relation.ReflTransGen Changes

theorem Evolves.refl (ix : SymbolIndex) : Evolves ix ix :=
  Relation.ReflTransGen.refl

theorem Evolves.trans {ix next last : SymbolIndex} (h : Evolves ix next)
    (hnext : Evolves next last) : Evolves ix last :=
  Relation.ReflTransGen.trans h hnext

theorem Changes.evolves {ix next : SymbolIndex} (h : Changes ix next) :
    Evolves ix next :=
  Relation.ReflTransGen.single h

section Operations

open MonadAttach LawfulMonadAttach

variable {m : Type -> Type} [Monad m] [LawfulMonad m] [MonadAttach m] [LawfulMonadAttach m]
  {files : Files m}

theorem indexPath_evolves {p : Path} {ix : SymbolIndex} {r : Bool × SymbolIndex}
    (h : CanReturn (ix.indexPath files p) r) : Evolves ix r.2 := by
  unfold indexPath at h
  rcases canReturn_bind_imp' h with ⟨answer, _, hreturn⟩
  cases answer with
  | ok text =>
      rw [← eq_of_canReturn_pure hreturn]
      exact (Changes.update ix p text).evolves
  | error e =>
      rw [← eq_of_canReturn_pure hreturn]
      exact Evolves.refl ix

theorem indexModule_evolves {name : String} {ix : SymbolIndex} {r : Bool × SymbolIndex}
    (h : CanReturn (ix.indexModule files name) r) : Evolves ix r.2 := by
  have hmissing (other : SymbolIndex) : Evolves other (other.addMissing name) :=
    (Changes.addMissing other name).evolves
  unfold indexModule at h
  rcases canReturn_bind_imp' h with ⟨answer, _, hreturn⟩
  match answer with
  | .error e =>
      rw [← eq_of_canReturn_pure hreturn]
      exact Evolves.refl ix
  | .ok [] =>
      rw [← eq_of_canReturn_pure hreturn]
      exact hmissing ix
  | .ok (_ :: _ :: _) =>
      rw [← eq_of_canReturn_pure hreturn]
      exact hmissing ix
  | .ok [p] =>
      rcases canReturn_bind_imp' hreturn with ⟨⟨indexed, next⟩, hindexed, hlast⟩
      have hnext : Evolves ix next := indexPath_evolves hindexed
      rw [← eq_of_canReturn_pure hlast]
      cases indexed with
      | true => exact hnext
      | false => exact hnext.trans (hmissing next)

theorem scanFiles_evolves {paths : List Path} {ix last : SymbolIndex}
    (h : CanReturn (scanFiles files paths ix) last) : Evolves ix last := by
  induction paths generalizing ix with
  | nil =>
      rw [eq_of_canReturn_pure h]
      exact Evolves.refl last
  | cons p ps ih =>
      unfold scanFiles at h
      rcases canReturn_bind_imp' h with ⟨answer, _, hreturn⟩
      split at hreturn
      · rename_i text _
        exact (Changes.update ix p text).evolves.trans (ih hreturn)
      · exact (Changes.remove ix p).evolves.trans (ih hreturn)
      · rw [eq_of_canReturn_pure hreturn]
        exact Evolves.refl last

theorem fullScan_evolves {ix last : SymbolIndex} (h : CanReturn (ix.fullScan files) last) :
    Evolves ix last := by
  have hscanned := (Changes.scanned ix).evolves
  unfold fullScan at h
  rcases canReturn_bind_imp' h with ⟨answer, _, hreturn⟩
  cases answer with
  | error e =>
      rw [← eq_of_canReturn_pure hreturn]
      exact hscanned
  | ok paths => exact hscanned.trans (scanFiles_evolves hreturn)

theorem ensureModule_evolves {name : String} {ix next : SymbolIndex}
    (h : CanReturn (ix.ensureModule files name) next) : Evolves ix next := by
  unfold ensureModule at h
  split at h
  · rw [eq_of_canReturn_pure h]
    exact Evolves.refl next
  · rcases canReturn_bind_imp' h with ⟨indexed, hindexed, hreturn⟩
    rw [← eq_of_canReturn_pure hreturn]
    exact indexModule_evolves hindexed

theorem ensureScanned_evolves {ix next : SymbolIndex}
    (h : CanReturn (ix.ensureScanned files) next) : Evolves ix next := by
  unfold ensureScanned at h
  split at h
  · rw [eq_of_canReturn_pure h]
    exact Evolves.refl next
  · exact fullScan_evolves h

theorem query_evolves {text : String} {ix : SymbolIndex} {r : List Symbol × SymbolIndex}
    (h : CanReturn (ix.query files text) r) : Evolves ix r.2 := by
  unfold query at h
  split at h
  · rcases canReturn_bind_imp' h with ⟨next, hensured, hreturn⟩
    rw [← eq_of_canReturn_pure hreturn]
    exact ensureModule_evolves hensured
  · rcases canReturn_bind_imp' h with ⟨next, hensured, hreturn⟩
    rw [← eq_of_canReturn_pure hreturn]
    exact ensureScanned_evolves hensured

end Operations

/-!
## Runs
-/

inductive Operation where
  | update (p : Path) (text : String)
  | indexPath (p : Path)
  | indexModule (name : String)
  | fullScan
  | remove (p : Path)
  | query (text : String)
  | clearMissing
  | reconfigure (settings : Settings)
deriving Repr, DecidableEq

def Operation.run {m : Type -> Type} [Monad m] (files : Files m)
    (ix : SymbolIndex) : Operation -> m SymbolIndex
  | .update p text => return ix.update p text
  | .indexPath p => return (← ix.indexPath files p).2
  | .indexModule name => return (← ix.indexModule files name).2
  | .fullScan => ix.fullScan files
  | .remove p => return ix.remove p
  | .query text => return (← ix.query files text).2
  | .clearMissing => return ix.clearMissing
  | .reconfigure settings => return ix.reconfigure settings

def runAll {m : Type -> Type} [Monad m] (files : Files m)
    (operations : List Operation) (ix : SymbolIndex) : m SymbolIndex :=
  operations.foldlM (Operation.run files) ix

section Runs

open MonadAttach LawfulMonadAttach

variable {m : Type -> Type} [Monad m] [LawfulMonad m] [MonadAttach m] [LawfulMonadAttach m]
  {files : Files m}

theorem Operation.run_evolves {operation : Operation} {ix next : SymbolIndex}
    (h : CanReturn (operation.run files ix) next) : Evolves ix next := by
  cases operation with
  | update p text =>
      rw [← eq_of_canReturn_pure h]
      exact (Changes.update ix p text).evolves
  | indexPath p =>
      rcases canReturn_bind_imp' h with ⟨r, hr, hreturn⟩
      rw [← eq_of_canReturn_pure hreturn]
      exact indexPath_evolves hr
  | indexModule name =>
      rcases canReturn_bind_imp' h with ⟨r, hr, hreturn⟩
      rw [← eq_of_canReturn_pure hreturn]
      exact indexModule_evolves hr
  | fullScan =>
      exact fullScan_evolves h
  | remove p =>
      rw [← eq_of_canReturn_pure h]
      exact (Changes.remove ix p).evolves
  | query text =>
      rcases canReturn_bind_imp' h with ⟨r, hr, hreturn⟩
      rw [← eq_of_canReturn_pure hreturn]
      exact query_evolves hr
  | clearMissing =>
      rw [← eq_of_canReturn_pure h]
      exact (Changes.clearMissing ix).evolves
  | reconfigure settings =>
      rw [← eq_of_canReturn_pure h]
      exact (Changes.reconfigure ix settings).evolves

theorem runAll_evolves {operations : List Operation} {ix last : SymbolIndex}
    (h : CanReturn (runAll files operations ix) last) : Evolves ix last := by
  induction operations generalizing ix with
  | nil =>
      rw [eq_of_canReturn_pure h]
      exact Evolves.refl last
  | cons operation operations ih =>
      rcases canReturn_bind_imp' h with ⟨next, hnext, hrest⟩
      exact (Operation.run_evolves hnext).trans (ih hrest)

/-- What a run returns from a state of the world is among the things that it can return. -/
theorem canReturn_run {World alpha : Type} (x : StateM World alpha) (world : World) :
    CanReturn x (x.run world).1 :=
  ⟨world, (x.run world).2, rfl⟩

end Runs

theorem Consistent.changes {ix next : SymbolIndex} (h : ix.Consistent)
    (hnext : Changes ix next) : next.Consistent := by
  cases hnext with
  | update p text => exact h.update p text
  | remove p => exact h.remove p
  | clearMissing => exact ⟨h.describes, h.named, h.reachable⟩
  | addMissing name =>
      unfold addMissing
      split
      · exact h
      · exact ⟨h.describes, h.named, h.reachable⟩
  | scanned => exact ⟨h.describes, h.named, h.reachable⟩
  | reconfigure settings =>
      unfold SymbolIndex.reconfigure
      split
      · exact h
      · exact new_consistent ix.root settings

theorem Consistent.evolves {ix last : SymbolIndex} (h : ix.Consistent)
    (hlast : Evolves ix last) : last.Consistent := by
  induction hlast with
  | refl => exact h
  | tail _ hchange ih => exact ih.changes hchange

/-- The tables of an index are in step after every run, however the files answer: `world` stands
for all that decides the answers of `files`, and each answer may change it. -/
theorem runAll_consistent {World : Type} (files : Files (StateM World))
    (operations : List Operation) (root : Path) (settings : Settings) (world : World) :
    ((runAll files operations (new root settings)).run world).1.Consistent := by
  have hrun := runAll_evolves (canReturn_run (runAll files operations (new root settings)) world)
  exact (new_consistent root settings).evolves hrun

end SymbolIndex
end ElmNavigator
