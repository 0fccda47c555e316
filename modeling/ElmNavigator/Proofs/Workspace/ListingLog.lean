import ElmNavigator.Proofs.Workspace.EditLog

/-!
# The listings that requests ask for

How often an index looks for files cannot be seen in its state.  Files that write down
the pattern of every listing make it visible.  Requests to such files do what they do
to the plain ones, since the log is only ever written to: `Logs` says so of a
computation, together with what it has written, and follows its steps.

A scan is a listing with the pattern of all module files.  No other request that a
query makes has this pattern, because the pattern of a module is literal.
-/

namespace ElmNavigator

open Disk

/-- Files that write down the pattern of every listing. -/
def Files.logged {m : Type -> Type} [Monad m] (files : Files m) :
    Files (StateT (List String) m) where
  read p := StateT.lift (files.read p)
  find root pattern exclude limit := do
    modify (· ++ [pattern])
    StateT.lift (files.find root pattern exclude limit)

/-!
## Computations with a log
-/

/-- A computation with a log does what a plain one does, and what it writes behind the log is as
`P` says. -/
def Logs {World α : Type} (P : α -> List String -> Prop)
    (x : StateT (List String) (StateM World) α) (plain : StateM World α) : Prop :=
  forall log world, exists more, P (plain.run world).1 more ∧
    (x.run log).run world = (((plain.run world).1, log ++ more), (plain.run world).2)

section Logs

variable {World α β : Type} {P Q : α -> List String -> Prop} {R : β -> List String -> Prop}
  {x : StateT (List String) (StateM World) α} {plain : StateM World α}

theorem Logs.pure {a : α} (h : P a []) :
    Logs P (pure a : StateT (List String) (StateM World) α) (pure a) := by
  intro log world
  refine ⟨[], h, ?_⟩
  rw [List.append_nil]
  rfl

theorem Logs.mono (h : Logs P x plain) (himp : forall a more, P a more -> Q a more) :
    Logs Q x plain := by
  intro log world
  rcases h log world with ⟨more, hmore, hrun⟩
  exact ⟨more, himp _ more hmore, hrun⟩

theorem Logs.bind (h : Logs P x plain) {f : α -> StateT (List String) (StateM World) β}
    {g : α -> StateM World β}
    (hf : forall a before, P a before ->
      Logs (fun b after => R b (before ++ after)) (f a) (g a)) :
    Logs R (x >>= f) (plain >>= g) := by
  intro log world
  rcases h log world with ⟨before, hbefore, hx⟩
  rcases hf _ before hbefore (log ++ before) (plain.run world).2 with ⟨after, hafter, hrest⟩
  refine ⟨before ++ after, hafter, ?_⟩
  have hbind : ((x >>= f).run log).run world =
      ((f ((x.run log).run world).1.1).run ((x.run log).run world).1.2).run
        ((x.run log).run world).2 := rfl
  rw [hbind, hx, hrest, List.append_assoc]
  rfl

theorem Logs.map (h : Logs P x plain) {f : α -> β}
    (hf : forall a more, P a more -> R (f a) more) :
    Logs R (x >>= fun a => Pure.pure (f a)) (plain >>= fun a => Pure.pure (f a)) := by
  refine h.bind ?_
  intro a more hmore
  apply Logs.pure
  rw [List.append_nil]
  exact hf a more hmore

theorem logs_read (files : Files (StateM World)) (p : Path) :
    Logs (fun _ more => more = []) (files.logged.read p) (files.read p) := by
  intro log world
  refine ⟨[], rfl, ?_⟩
  rw [List.append_nil]
  rfl

theorem logs_find (files : Files (StateM World)) (root : Path) (pattern : String)
    (exclude : Option String) (limit : Nat) :
    Logs (fun _ more => more = [pattern]) (files.logged.find root pattern exclude limit)
      (files.find root pattern exclude limit) :=
  fun _ _ => ⟨[pattern], rfl, rfl⟩

end Logs

namespace SymbolIndex

/-!
## Listings of one request
-/

/-- What decides about scans has stayed the same. -/
structure SamePlan (ix next : SymbolIndex) : Prop where
  setup : SameSetup ix next
  maxFiles_eq : next.maxFiles = ix.maxFiles

theorem SamePlan.refl (ix : SymbolIndex) : SamePlan ix ix :=
  ⟨⟨rfl, rfl, rfl⟩, rfl⟩

theorem SamePlan.trans {ix next last : SymbolIndex} (h : SamePlan ix next)
    (hlast : SamePlan next last) : SamePlan ix last :=
  ⟨h.setup.trans hlast.setup, hlast.maxFiles_eq.trans h.maxFiles_eq⟩

theorem remove_plan (ix : SymbolIndex) (p : Path) : SamePlan ix (ix.remove p) := by
  refine ⟨ix.remove_setup p, ?_⟩
  simp only [remove]
  cases ix.clearMissing.record? p with
  | none => rfl
  | some old => rfl

theorem update_plan (ix : SymbolIndex) (p : Path) (text : String) :
    SamePlan ix (ix.update p text) := by
  refine ⟨ix.update_setup p text, ?_⟩
  have hremove := (ix.remove_plan p.normalize).maxFiles_eq
  simp only [update]
  cases recordOf? p.normalize text with
  | none => exact hremove
  | some r => exact hremove

theorem addMissing_plan (ix : SymbolIndex) (name : String) :
    SamePlan ix (ix.addMissing name) := by
  unfold addMissing
  split
  · exact SamePlan.refl ix
  · exact ⟨⟨rfl, rfl, rfl⟩, rfl⟩

section Requests

variable {World : Type} (files : Files (StateM World))

theorem indexPath_logs (p : Path) (ix : SymbolIndex) :
    Logs (fun r more => more = [] ∧ SamePlan ix r.2) (ix.indexPath files.logged p)
      (ix.indexPath files p) := by
  unfold indexPath
  refine (logs_read files p).bind ?_
  intro answer before hbefore
  subst hbefore
  cases answer with
  | ok text => exact Logs.pure ⟨rfl, ix.update_plan p text⟩
  | error e => exact Logs.pure ⟨rfl, SamePlan.refl ix⟩

theorem indexModule_logs (name : String) (ix : SymbolIndex) :
    Logs (fun r more => more = [filePattern name] ∧ SamePlan ix r.2)
      (ix.indexModule files.logged name) (ix.indexModule files name) := by
  unfold indexModule
  refine (logs_find files ix.root (filePattern name) ix.exclude 2).bind ?_
  intro answer before hbefore
  subst hbefore
  match answer with
  | .error e => exact Logs.pure ⟨rfl, SamePlan.refl ix⟩
  | .ok [] => exact Logs.pure ⟨rfl, ix.addMissing_plan name⟩
  | .ok (_ :: _ :: _) => exact Logs.pure ⟨rfl, ix.addMissing_plan name⟩
  | .ok [p] =>
      refine (indexPath_logs files p ix).bind ?_
      rintro ⟨indexed, next⟩ more ⟨hmore, hnext⟩
      subst hmore
      apply Logs.pure
      cases indexed with
      | true => exact ⟨rfl, hnext⟩
      | false => exact ⟨rfl, hnext.trans (next.addMissing_plan name)⟩

theorem scanFiles_logs (paths : List Path) (ix : SymbolIndex) :
    Logs (fun next more => more = [] ∧ SamePlan ix next)
      (scanFiles files.logged paths ix) (scanFiles files paths ix) := by
  induction paths generalizing ix with
  | nil =>
      exact Logs.pure ⟨rfl, SamePlan.refl ix⟩
  | cons p ps ih =>
      rw [scanFiles, scanFiles]
      refine (logs_read files p).bind ?_
      intro answer before hbefore
      subst hbefore
      split
      · rename_i text
        exact (ih (ix.update p text)).mono fun next more hmore =>
          ⟨hmore.1, (ix.update_plan p text).trans hmore.2⟩
      · exact (ih (ix.remove p)).mono fun next more hmore =>
          ⟨hmore.1, (ix.remove_plan p).trans hmore.2⟩
      · exact Logs.pure ⟨rfl, SamePlan.refl ix⟩

theorem fullScan_logs (ix : SymbolIndex) :
    Logs (fun next more => more = [allFiles] ∧ SamePlan { ix with scanned := true } next)
      (ix.fullScan files.logged) (ix.fullScan files) := by
  unfold fullScan
  refine (logs_find files ix.root allFiles ix.exclude ix.maxFiles).bind ?_
  intro answer before hbefore
  subst hbefore
  cases answer with
  | error e => exact Logs.pure ⟨rfl, SamePlan.refl _⟩
  | ok paths =>
      exact (scanFiles_logs files paths _).mono fun next more hmore =>
        ⟨by rw [hmore.1]; rfl, hmore.2⟩

theorem filePattern_ne_allFiles {name : String}
    (h : SymbolQuery.isModuleName name.toList = true) : filePattern name ≠ allFiles := by
  intro heq
  rcases Glob.parse_filePattern h with ⟨front, hparse⟩
  rw [heq, Glob.parse_allFiles] at hparse
  have hparts := congrArg Glob.parts (Except.ok.inj hparse)
  cases front with
  | nil => cases hparts
  | cons c cs => cases hparts

theorem query_logs_qualified {text module name : String}
    (hparse : SymbolQuery.parse text = .qualified module name) (ix : SymbolIndex) :
    Logs (fun r more => allFiles ∉ more ∧ SamePlan ix r.2) (ix.query files.logged text)
      (ix.query files text) := by
  have hensure : Logs (fun next more => allFiles ∉ more ∧ SamePlan ix next)
      (ix.ensureModule files.logged module) (ix.ensureModule files module) := by
    unfold ensureModule
    split
    · exact Logs.pure ⟨List.not_mem_nil, SamePlan.refl ix⟩
    · apply (indexModule_logs files module ix).map
      rintro ⟨_, next⟩ more ⟨hmore, hnext⟩
      have hpattern := filePattern_ne_allFiles (isModuleName_of_parse hparse)
      refine ⟨?_, hnext⟩
      rw [hmore, List.mem_singleton]
      exact hpattern.symm
  unfold query
  rw [hparse]
  exact hensure.map fun next more hmore => hmore

theorem query_logs_bare {text bare : String} (hparse : SymbolQuery.parse text = .bare bare)
    (ix : SymbolIndex) :
    Logs (fun r more => more = (if ix.scanned then [] else [allFiles]) ∧
        SamePlan { ix with scanned := true } r.2)
      (ix.query files.logged text) (ix.query files text) := by
  have hensure : Logs (fun next more => more = (if ix.scanned then [] else [allFiles]) ∧
        SamePlan { ix with scanned := true } next)
      (ix.ensureScanned files.logged) (ix.ensureScanned files) := by
    unfold ensureScanned
    split
    · rename_i hscanned
      exact Logs.pure ⟨rfl, ⟨rfl, rfl, hscanned⟩, rfl⟩
    · exact fullScan_logs files ix
  unfold query
  rw [hparse]
  exact hensure.map fun next more hmore => hmore

end Requests

/-!
## Scans in a run
-/

def Operation.isQuery : Operation -> Bool
  | .query _ => true
  | _ => false

/-- The index after some requests, and the patterns of the listings that the queries among them
have asked for. -/
def runLogged {World : Type} (files : Files (StateM World)) :
    List Operation -> SymbolIndex -> StateM World (SymbolIndex × List String)
  | [], ix => return (ix, [])
  | operation :: operations, ix => do
      let (next, listed) ← (operation.run files.logged ix).run []
      let (last, later) ← runLogged files operations next
      return (last, if operation.isQuery then listed ++ later else later)

/-- Settings with which a scan would look for the same files. -/
def Fits (ix : SymbolIndex) (settings : Settings) : Prop :=
  settings.maxFiles = ix.maxFiles ∧ settings.exclude? = ix.exclude

instance (ix : SymbolIndex) (settings : Settings) : Decidable (ix.Fits settings) :=
  inferInstanceAs (Decidable (_ ∧ _))

/-- The scans that queries can still ask for, as long as the settings fit. -/
def pendingScans (ix : SymbolIndex) : Nat :=
  if ix.scanned then 0 else 1

/-- A request that asks for some scans has used them up, and has left the settings alone. -/
structure UsesUp (ix next : SymbolIndex) (scans : Nat) : Prop where
  scans_le : scans + next.pendingScans ≤ ix.pendingScans
  maxFiles_eq : next.maxFiles = ix.maxFiles
  exclude_eq : next.exclude = ix.exclude

section Runs

variable {ix next : SymbolIndex}

theorem SamePlan.usesUp (h : SamePlan ix next) : UsesUp ix next 0 := by
  refine ⟨?_, h.maxFiles_eq, h.setup.2.1⟩
  unfold pendingScans
  rw [h.setup.2.2, Nat.zero_add]

theorem SamePlan.usesUp_of_scanned (h : SamePlan { ix with scanned := true } next) :
    UsesUp ix next ix.pendingScans := by
  have hscanned : next.scanned = true := h.setup.2.2
  refine ⟨?_, h.maxFiles_eq, h.setup.2.1⟩
  rw [show next.pendingScans = 0 from if_pos hscanned]
  exact Nat.le_refl _

theorem UsesUp.mono {scans fewer : Nat} (h : UsesUp ix next scans) (hfewer : fewer ≤ scans) :
    UsesUp ix next fewer :=
  ⟨(Nat.add_le_add_right hfewer _).trans h.scans_le, h.maxFiles_eq, h.exclude_eq⟩

theorem UsesUp.fits {scans : Nat} (h : UsesUp ix next scans) {settings : Settings}
    (hfits : ix.Fits settings) : next.Fits settings :=
  ⟨hfits.1.trans h.maxFiles_eq.symm, hfits.2.trans h.exclude_eq.symm⟩

variable {World : Type} (files : Files (StateM World))

theorem query_logs (text : String) (ix : SymbolIndex) :
    Logs (fun r more => UsesUp ix r.2 (more.count allFiles)) (ix.query files.logged text)
      (ix.query files text) := by
  cases hparse : SymbolQuery.parse text with
  | qualified module name =>
      apply (query_logs_qualified files hparse ix).mono
      intro r more hmore
      rw [List.count_eq_zero.mpr hmore.1]
      exact hmore.2.usesUp
  | bare bare =>
      apply (query_logs_bare files hparse ix).mono
      intro r more hmore
      apply hmore.2.usesUp_of_scanned.mono
      rw [hmore.1, pendingScans]
      split
      · exact Nat.le_refl 0
      · exact Nat.le_refl 1

theorem Operation.run_logs (operation : Operation) (ix : SymbolIndex)
    (h : forall settings, operation = .reconfigure settings -> ix.Fits settings) :
    Logs (fun next more =>
        UsesUp ix next (if operation.isQuery then more.count allFiles else 0))
      (operation.run files.logged ix) (operation.run files ix) := by
  cases operation with
  | update p text => exact Logs.pure (ix.update_plan p text).usesUp
  | indexPath p =>
      exact (indexPath_logs files p ix).map fun r more hmore => hmore.2.usesUp
  | indexModule name =>
      exact (indexModule_logs files name ix).map fun r more hmore => hmore.2.usesUp
  | fullScan =>
      exact (fullScan_logs files ix).mono fun next more hmore =>
        hmore.2.usesUp_of_scanned.mono (Nat.zero_le _)
  | remove p => exact Logs.pure (ix.remove_plan p).usesUp
  | query text => exact (query_logs files text ix).map fun r more hmore => hmore
  | clearMissing => exact Logs.pure (SamePlan.usesUp ⟨⟨rfl, rfl, rfl⟩, rfl⟩)
  | reconfigure settings =>
      have hsame : ix.reconfigure settings = ix := if_pos (h settings rfl)
      simp only [Operation.run, hsame]
      exact Logs.pure (SamePlan.refl ix).usesUp

/-- A run with logs ends like the plain run, and its queries ask for no more scans than are
pending. -/
theorem runLogged_run {operations : List Operation}
    (h : forall settings, .reconfigure settings ∈ operations -> ix.Fits settings)
    (world : World) :
    exists listed, listed.count allFiles ≤ ix.pendingScans ∧
      (runLogged files operations ix).run world =
        ((((runAll files operations ix).run world).1, listed),
          ((runAll files operations ix).run world).2) := by
  induction operations generalizing ix world with
  | nil =>
      exact ⟨[], Nat.zero_le _, rfl⟩
  | cons operation operations ih =>
      have hfirst := operation.run_logs files ix
        fun settings heq => h settings (heq ▸ List.mem_cons_self)
      rcases hfirst [] world with ⟨more, hmore, hrun⟩
      rcases ih (fun settings hmem => hmore.fits (h settings (List.mem_cons_of_mem _ hmem)))
        ((operation.run files ix).run world).2 with ⟨later, hlater, hrest⟩
      refine ⟨if operation.isQuery then more ++ later else later, ?_, ?_⟩
      · -- What the first request has used up is no longer pending for the others.
        have hscans := hmore.scans_le
        split
        · rename_i hquery
          rw [if_pos hquery] at hscans
          rw [List.count_append]
          omega
        · omega
      · have hcons : (runLogged files (operation :: operations) ix).run world =
            let first := ((operation.run files.logged ix).run []).run world
            let rest := (runLogged files operations first.1.1).run first.2
            ((rest.1.1, if operation.isQuery then first.1.2 ++ rest.1.2 else rest.1.2),
              rest.2) := rfl
        rw [hcons, hrun]
        simp only [hrest]
        rfl

end Runs

end SymbolIndex
end ElmNavigator
