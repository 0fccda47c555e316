import ElmNavigator.Proofs.Workspace.DefinitionScope
import ElmNavigator.Proofs.Workspace.EditLog
import ElmNavigator.Proofs.Workspace.UnsavedEdits

/-!
# Where indexed records come from

A session indexes a file because a listing of the workspace has found it, or because
it has been told about the file.  It notes that a module is missing only after it has
looked for the module's file in vain.  `GroundedChange` lists the changes of an index
that happen for these reasons.  Every event of a history comes down to them, apart
from new settings, which may empty the index.
-/

namespace ElmNavigator

open Disk Syntax Text

namespace SymbolIndex

/-- A listing of all module files, or of the files for one module, finds a path. -/
def Offers (files : Files Id) (root : Path) (exclude : Option String) (p : Path) : Prop :=
  exists pattern limit paths,
    (pattern = allFiles ∨ exists name, SymbolQuery.isModuleName name.toList = true ∧
      pattern = filePattern name) ∧
    files.find root pattern exclude limit = .ok paths ∧ p ∈ paths

/-- The record that looking for a module's file gives the module: that of the only file for it,
if the file holds a module of this name. -/
def searched (files : Files Id) (root : Path) (exclude : Option String) (name : String) :
    Option ModuleSymbols :=
  match files.find root (filePattern name) exclude 2 with
  | .ok [p] => (recordIn? p.normalize (files.read p)).filter (·.module = name)
  | _ => none

/-- One change of an index.  A file that the session is `told` about is read if it is indexed
already, or if it is to be read in any case. -/
inductive GroundedChange (files : Files Id) (told : Path -> Prop) (inAnyCase : Bool)
    (ix : SymbolIndex) : SymbolIndex -> Prop where
  | listed {p : Path} {text : String} : Offers files ix.root ix.exclude p ->
      files.read p = .ok text -> GroundedChange files told inAnyCase ix (ix.update p text)
  | told {p : Path} {text : String} : told p ->
      (ix.containsPath p || inAnyCase) = true -> files.read p = .ok text ->
      GroundedChange files told inAnyCase ix (ix.update p text)
  | forgotten (p : Path) : GroundedChange files told inAnyCase ix (ix.remove p)
  | cleared : GroundedChange files told inAnyCase ix ix.clearMissing
  | missed {name : String} : searched files ix.root ix.exclude name = none ->
      GroundedChange files told inAnyCase ix (ix.addMissing name)
  | scanned : GroundedChange files told inAnyCase ix { ix with scanned := true }

/-- Any number of such changes. -/
def Grounded (files : Files Id) (told : Path -> Prop) (inAnyCase : Bool) :
    SymbolIndex -> SymbolIndex -> Prop :=
  Relation.ReflTransGen (GroundedChange files told inAnyCase)

section Grounded

variable {files : Files Id} {told : Path -> Prop} {inAnyCase : Bool}
  {ix next last : SymbolIndex}

theorem Grounded.refl (ix : SymbolIndex) : Grounded files told inAnyCase ix ix :=
  Relation.ReflTransGen.refl

theorem Grounded.trans (h : Grounded files told inAnyCase ix next)
    (hlast : Grounded files told inAnyCase next last) :
    Grounded files told inAnyCase ix last :=
  Relation.ReflTransGen.trans h hlast

theorem GroundedChange.grounded (h : GroundedChange files told inAnyCase ix next) :
    Grounded files told inAnyCase ix next :=
  Relation.ReflTransGen.single h

theorem GroundedChange.mono (h : GroundedChange files told inAnyCase ix next)
    {more : Path -> Prop} (hmore : forall p, told p -> more p) :
    GroundedChange files more inAnyCase ix next := by
  cases h with
  | listed hoffers hread => exact .listed hoffers hread
  | told htold hindexed hread => exact .told (hmore _ htold) hindexed hread
  | forgotten p => exact .forgotten p
  | cleared => exact .cleared
  | missed hnone => exact .missed hnone
  | scanned => exact .scanned

theorem Grounded.mono (h : Grounded files told inAnyCase ix next) {more : Path -> Prop}
    (hmore : forall p, told p -> more p) : Grounded files more inAnyCase ix next := by
  induction h with
  | refl => exact Grounded.refl ix
  | tail _ hchange ih => exact ih.trans (hchange.mono hmore).grounded

theorem GroundedChange.place (h : GroundedChange files told inAnyCase ix next) :
    next.root = ix.root ∧ next.exclude = ix.exclude := by
  cases h with
  | listed _ _ => exact ⟨(ix.update_setup _ _).1, (ix.update_setup _ _).2.1⟩
  | told _ _ _ => exact ⟨(ix.update_setup _ _).1, (ix.update_setup _ _).2.1⟩
  | forgotten p => exact ⟨(ix.remove_setup p).1, (ix.remove_setup p).2.1⟩
  | cleared => exact ⟨rfl, rfl⟩
  | missed _ =>
      unfold addMissing
      split
      · exact ⟨rfl, rfl⟩
      · exact ⟨rfl, rfl⟩
  | scanned => exact ⟨rfl, rfl⟩

theorem Grounded.place (h : Grounded files told inAnyCase ix next) :
    next.root = ix.root ∧ next.exclude = ix.exclude := by
  induction h with
  | refl => exact ⟨rfl, rfl⟩
  | tail _ hchange ih =>
      exact ⟨hchange.place.1.trans ih.1, hchange.place.2.trans ih.2⟩

/-!
## Requests to an index
-/

section Searched

variable {root : Path} {exclude : Option String} {name : String}

theorem searched_of_single {p : Path}
    (h : files.find root (filePattern name) exclude 2 = .ok [p]) :
    searched files root exclude name =
      (recordIn? p.normalize (files.read p)).filter (·.module = name) := by
  unfold searched
  rw [h]

theorem searched_of_not_single
    (h : forall p, files.find root (filePattern name) exclude 2 ≠ .ok [p]) :
    searched files root exclude name = none := by
  unfold searched
  split
  · rename_i p hp
    exact absurd hp (h p)
  · rfl

end Searched

theorem indexModule_grounded {name : String}
    (hname : SymbolQuery.isModuleName name.toList = true) (ix : SymbolIndex) :
    Grounded files told inAnyCase ix (ix.indexModule files name).2 := by
  rw [indexModule_eq]
  split
  · exact Grounded.refl ix
  · rename_i p hfind
    rw [indexPath_eq]
    cases hread : files.read p with
    | ok text =>
        have hoffers : Offers files ix.root ix.exclude p :=
          ⟨_, 2, [p], Or.inr ⟨name, hname, rfl⟩, hfind, List.mem_singleton_self p⟩
        exact (GroundedChange.listed hoffers hread).grounded
    | error e =>
        have hnone : searched files ix.root ix.exclude name = none := by
          rw [searched_of_single hfind, hread]
          rfl
        exact (GroundedChange.missed hnone).grounded
  · rename_i paths hsingle hfind
    have hnone : searched files ix.root ix.exclude name = none := by
      apply searched_of_not_single
      intro p hp
      rw [hfind] at hp
      injection hp with hp
      exact hsingle p hp
    exact (GroundedChange.missed hnone).grounded

/-- The edits of a scan.  A file that cannot be read ends it, unless its text is not UTF-8. -/
def scanLog (files : Files Id) : List Path -> List Edit
  | [] => []
  | p :: ps =>
      match files.read p with
      | .ok text => .update p text :: scanLog files ps
      | .error .notUtf8 => .remove p :: scanLog files ps
      | .error _ => []

theorem scanFiles_eq_replay (files : Files Id) (paths : List Path) (ix : SymbolIndex) :
    scanFiles files paths ix = ix.replay (scanLog files paths) := by
  induction paths generalizing ix with
  | nil =>
      rfl
  | cons p ps ih =>
      have hcons : scanFiles files (p :: ps) ix =
          match files.read p with
          | .ok text => scanFiles files ps (ix.update p text)
          | .error .notUtf8 => scanFiles files ps (ix.remove p)
          | .error _ => ix := rfl
      rw [hcons, scanLog]
      split
      · rename_i text _
        exact ih (ix.update p text)
      · exact ih (ix.remove p)
      · rfl

theorem scanFiles_grounded {paths : List Path}
    (hpaths : forall p, p ∈ paths -> Offers files ix.root ix.exclude p) :
    Grounded files told inAnyCase ix (scanFiles files paths ix) := by
  rw [scanFiles_eq_replay]
  induction paths generalizing ix with
  | nil =>
      exact Grounded.refl ix
  | cons p ps ih =>
      have hrest {next : SymbolIndex} (hnext : GroundedChange files told inAnyCase ix next) :
          Grounded files told inAnyCase ix (next.replay (scanLog files ps)) := by
        apply hnext.grounded.trans (ih _)
        rw [hnext.place.1, hnext.place.2]
        exact fun q hq => hpaths q (List.mem_cons_of_mem p hq)
      unfold scanLog
      split
      · rename_i hread
        exact hrest (GroundedChange.listed (hpaths p List.mem_cons_self) hread)
      · exact hrest (GroundedChange.forgotten p)
      · exact Grounded.refl ix

theorem fullScan_grounded (ix : SymbolIndex) :
    Grounded files told inAnyCase ix (ix.fullScan files) := by
  have hscanned : GroundedChange files told inAnyCase ix { ix with scanned := true } :=
    GroundedChange.scanned
  rw [fullScan_eq]
  split
  · exact hscanned.grounded
  · rename_i paths hfind
    apply hscanned.grounded.trans
    apply scanFiles_grounded
    exact fun p hp => ⟨_, ix.maxFiles, paths, Or.inl rfl, hfind, hp⟩

theorem query_grounded (text : String) (ix : SymbolIndex) :
    Grounded files told inAnyCase ix (ix.query files text).2 := by
  rw [query_eq]
  cases hparse : SymbolQuery.parse text with
  | qualified module name =>
      simp only
      split
      · exact Grounded.refl ix
      · exact indexModule_grounded (isModuleName_of_parse hparse) ix
  | bare text =>
      simp only
      split
      · exact Grounded.refl ix
      · exact fullScan_grounded ix

theorem indexPath_of_read {p : Path} {text : String} (h : files.read p = .ok text)
    (ix : SymbolIndex) : (ix.indexPath files p).2 = ix.update p text := by
  rw [indexPath_eq, h]

theorem indexPath_grounded {p : Path} (hp : told p)
    (hread : (ix.containsPath p || inAnyCase) = true) :
    Grounded files told inAnyCase ix (ix.indexPath files p).2 := by
  rw [indexPath_eq]
  cases htext : files.read p with
  | ok text => exact (GroundedChange.told hp hread htext).grounded
  | error e => exact Grounded.refl ix

end Grounded

/-- New settings leave the index alone, with the exclusion that it has, or empty it. -/
theorem reconfigure_cases (ix : SymbolIndex) (settings : Settings) :
    (ix.reconfigure settings = ix ∧ settings.exclude? = ix.exclude) ∨
      ix.reconfigure settings = new ix.root settings := by
  unfold reconfigure
  split
  · rename_i hsame
    exact Or.inl ⟨rfl, hsame.2⟩
  · exact Or.inr rfl

end SymbolIndex

/-!
## Requests to a session
-/

namespace Session

open SymbolIndex

variable {told : Path -> Prop} {inAnyCase : Bool} (disk : Files Id)

theorem definition_grounded (uri : Uri) (line column : Nat) (s : Session) :
    Grounded (s.files disk) told inAnyCase s.index
      (s.definition disk uri line column).2.index := by
  rw [definition_eq]
  cases FileUri.toPath? uri with
  | none =>
      exact Grounded.refl s.index
  | some p =>
      simp only
      cases s.documentText disk uri with
      | none =>
          exact Grounded.refl s.index
      | some text =>
          apply Definition.atPosition_keeps
            (P := Grounded (s.files disk) told inAnyCase s.index)
          · exact fun ix query hix => hix.trans (query_grounded query ix)
          · exact Grounded.refl s.index

theorem fileChanged_scanned (event : FileEvent) (s : Session) :
    (s.fileChanged disk event).index.scanned = s.index.scanned := by
  rw [fileChanged_eq]
  cases FileUri.toPath? event.uri with
  | none =>
      rfl
  | some p =>
      simp only
      split
      · exact (s.index.remove_setup p).2.2
      · split
        · rw [indexPath_eq]
          cases (s.files disk).read p with
          | ok text => exact (s.index.update_setup p text).2.2
          | error e => rfl
        · rfl

theorem fileChanged_grounded {event : FileEvent} {s : Session}
    (htold : forall p, event.change ≠ .deleted -> FileUri.toPath? event.uri = some p -> told p) :
    Grounded (s.files disk) told s.index.scanned s.index
      (s.fileChanged disk event).index := by
  rw [fileChanged_eq]
  cases hp : FileUri.toPath? event.uri with
  | none =>
      exact Grounded.refl s.index
  | some p =>
      simp only
      split
      · exact (GroundedChange.forgotten p).grounded
      · rename_i hchange
        split
        · rename_i hread
          exact indexPath_grounded (htold p hchange hp) (Bool.and_eq_true_iff.mp hread).1
        · exact Grounded.refl s.index

theorem eachFileChanged_grounded {events : List FileEvent} {s : Session}
    (htold : forall event, event ∈ events -> forall p, event.change ≠ .deleted ->
      FileUri.toPath? event.uri = some p -> told p) :
    Grounded (s.files disk) told s.index.scanned s.index
      (s.eachFileChanged disk events).index := by
  induction events generalizing s with
  | nil =>
      exact Grounded.refl s.index
  | cons event events ih =>
      have hfirst := fileChanged_grounded disk (s := s) (htold event List.mem_cons_self)
      have hrest := @ih (s.fileChanged disk event)
        fun later hlater => htold later (List.mem_cons_of_mem event hlater)
      have hfiles : (s.fileChanged disk event).files disk = s.files disk := by
        unfold files
        rw [(fileChanged_keeps disk event s).left]
      rw [hfiles, fileChanged_scanned] at hrest
      exact hfirst.trans hrest

theorem fileChanged_settings (event : FileEvent) (s : Session) :
    (s.fileChanged disk event).settings = s.settings := by
  rw [fileChanged_eq]
  cases FileUri.toPath? event.uri with
  | none =>
      rfl
  | some p =>
      simp only
      split
      · rfl
      · split
        · rfl
        · rfl

theorem eachFileChanged_settings (events : List FileEvent) (s : Session) :
    (s.eachFileChanged disk events).settings = s.settings := by
  induction events generalizing s with
  | nil => rfl
  | cons event events ih =>
      exact (ih (s.fileChanged disk event)).trans (fileChanged_settings disk event s)

end Session

/-!
## Events
-/

/-- The files that an event makes a session read into its index. -/
def Event.Tells (event : Event) (p : Path) : Prop :=
  match event with
  | .saved uri _ => FileUri.toPath? uri = some p
  | .filesChanged events =>
      exists e, e ∈ events ∧ e.change ≠ .deleted ∧ FileUri.toPath? e.uri = some p
  | _ => False

/-- Whether these files are read even if they are not indexed yet. -/
def Event.readsInAnyCase (event : Event) (scanned : Bool) : Bool :=
  match event with
  | .saved _ _ => true
  | _ => scanned

/-- A text that is saved is the one that the session reads. -/
def Event.SavesShown (files : Files Id) : Event -> Prop
  | .saved uri (some text) => forall p, FileUri.toPath? uri = some p ->
      files.read p = .ok text
  | _ => True

theorem Event.savesShown_of_ne {event : Event} (h : forall uri text, event ≠ .saved uri text)
    (files : Files Id) : event.SavesShown files := by
  cases event with
  | saved uri text => exact absurd rfl (h uri text)
  | _ => trivial

theorem Event.reconfigured_or (event : Event) :
    (exists settings, event = .reconfigured settings) ∨
      forall settings, event ≠ .reconfigured settings := by
  cases event with
  | reconfigured settings => exact Or.inl ⟨settings, rfl⟩
  | _ => exact Or.inr fun _ hevent => nomatch hevent

namespace Workbench

open SymbolIndex

theorem step_grounded {w : Workbench} {event : Event}
    (hsaves : event.SavesShown (w.session.files w.disk))
    (hsettings : forall settings, event ≠ .reconfigured settings) :
    Grounded (w.session.files w.disk) event.Tells
      (event.readsInAnyCase w.session.index.scanned) w.session.index
      (w.step event).session.index := by
  cases event with
  | opened uri text =>
      simp only [step, Session.openDocument]
      cases FileUri.toPath? uri with
      | none => exact Grounded.refl _
      | some p => exact Grounded.refl _
  | edited uri changes =>
      simp only [step, Session.changeDocument]
      cases FileUri.toPath? uri with
      | none => exact Grounded.refl _
      | some p => exact Grounded.refl _
  | closed uri =>
      simp only [step, Session.closeDocument]
      cases FileUri.toPath? uri with
      | none => exact Grounded.refl _
      | some p => exact Grounded.refl _
  | saved uri text =>
      simp only [step, Session.saveDocument]
      cases hp : FileUri.toPath? uri with
      | none =>
          exact Grounded.refl _
      | some p =>
          have htold : (Event.saved uri text).Tells p := hp
          cases text with
          | some text =>
              exact (GroundedChange.told htold (Bool.or_true _) (hsaves p hp)).grounded
          | none =>
              exact indexPath_grounded htold (Bool.or_true _)
  | documentSymbols uri =>
      exact Grounded.refl _
  | workspaceSymbols query =>
      exact query_grounded query w.session.index
  | definition uri line column =>
      exact Session.definition_grounded w.disk uri line column w.session
  | reconfigured settings =>
      exact absurd rfl (hsettings settings)
  | filesChanged events =>
      exact GroundedChange.cleared.grounded.trans
        (Session.eachFileChanged_grounded w.disk
          (s := { w.session with index := w.session.index.clearMissing })
          fun event hevent p hchange hp => ⟨event, hevent, hchange, hp⟩)
  | diskChanged disk =>
      exact Grounded.refl _

theorem step_settings {event : Event} (h : forall settings, event ≠ .reconfigured settings)
    (w : Workbench) : (w.step event).session.settings = w.session.settings := by
  cases event with
  | opened uri text =>
      simp only [step, Session.openDocument]
      cases FileUri.toPath? uri with
      | none => rfl
      | some p => rfl
  | edited uri changes =>
      simp only [step, Session.changeDocument]
      cases FileUri.toPath? uri with
      | none => rfl
      | some p => rfl
  | closed uri =>
      simp only [step, Session.closeDocument]
      cases FileUri.toPath? uri with
      | none => rfl
      | some p => rfl
  | saved uri text =>
      simp only [step, Session.saveDocument]
      cases FileUri.toPath? uri with
      | none => rfl
      | some p =>
          cases text with
          | none => rfl
          | some text => rfl
  | documentSymbols uri => rfl
  | workspaceSymbols query => rfl
  | definition uri line column =>
      simp only [step, Session.definition_eq]
      cases FileUri.toPath? uri with
      | none => rfl
      | some p =>
          simp only
          cases w.session.documentText w.disk uri with
          | none => rfl
          | some text => rfl
  | reconfigured settings => exact absurd rfl (h settings)
  | filesChanged events => exact Session.eachFileChanged_settings w.disk events _
  | diskChanged disk => rfl

/-- The index looks under the session's root and excludes what the session's settings say. -/
structure Aligned (w : Workbench) (root : Path) : Prop where
  root_eq : w.session.index.root = root
  exclude_eq : w.session.index.exclude = w.session.settings.exclude?

theorem start_aligned (disk : Files Id) (root : Path) (settings : Settings) :
    (start disk root settings).Aligned root :=
  ⟨rfl, rfl⟩

theorem Aligned.step {w : Workbench} {root : Path} (h : w.Aligned root) {event : Event}
    (hsaves : event.SavesShown (w.session.files w.disk)) : (w.step event).Aligned root := by
  rcases event.reconfigured_or with ⟨settings, hevent⟩ | hother
  · subst hevent
    rcases reconfigure_cases w.session.index settings with ⟨hsame, hexclude⟩ | hnew
    · have hindex : (w.step (.reconfigured settings)).session.index = w.session.index := hsame
      exact ⟨hindex ▸ h.root_eq, hindex ▸ hexclude.symm⟩
    · have hindex : (w.step (.reconfigured settings)).session.index =
          new w.session.index.root settings := hnew
      exact ⟨hindex ▸ h.root_eq, hindex ▸ rfl⟩
  · have hplace := (step_grounded hsaves hother).place
    refine ⟨hplace.1.trans h.root_eq, hplace.2.trans ?_⟩
    rw [step_settings hother]
    exact h.exclude_eq

end Workbench
end ElmNavigator
