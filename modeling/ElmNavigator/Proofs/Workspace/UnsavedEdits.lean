import ElmNavigator.Proofs.Workspace.CacheCoherence
import ElmNavigator.Proofs.Workspace.LookupAnswers
import ElmNavigator.Proofs.Workspace.TrackedIndex

/-!
# Documents closed without being saved

A document that is opened, edited and closed again leaves no trace in what the
session reads, nor in its outlines.  It can leave one in the index, which a query may
have filled from the edited text, and in the source directories, which may have been
found meanwhile.  Where these two are as they would be without the document, so is
every answer from then on.
-/

namespace ElmNavigator

open Disk Syntax Text

/-!
## Sessions that show the same
-/

namespace Overlay

theorem text?_of_components {p q : Path} (h : q.components = p.components) (o : Overlay) :
    o.text? q = o.text? p := by
  unfold text?
  rw [h]

theorem text?_change_congr {o other : Overlay}
    (h : forall q, o.text? q = other.text? q) (p : Path) (changes : List Change) (q : Path) :
    (o.changeAll p changes).text? q = (other.changeAll p changes).text? q := by
  induction changes generalizing o other with
  | nil =>
      exact h q
  | cons change changes ih =>
      have hchange (shown : Overlay) : shown.change? p change =
          ((shown.text? p).bind change.apply?).map (shown.open_ p) := by
        unfold change?
        cases shown.text? p with
        | none => rfl
        | some text =>
            cases hedited : change.apply? text with
            | none => simp [hedited]
            | some edited => simp [hedited]
      simp only [changeAll, hchange, h p]
      cases (other.text? p).bind change.apply? with
      | none =>
          exact h q
      | some edited =>
          apply ih
          intro r
          rw [text?_open, text?_open, h r]

end Overlay

namespace Session

/-- Two sessions show the same documents, look for modules in the same places and have
indexed the same. -/
structure Matches (s t : Session) : Prop where
  texts : forall q, s.overlay.text? q = t.overlay.text? q
  setup : s.lookup.setup = t.lookup.setup
  index : s.index = t.index

variable {s t : Session}

theorem Matches.files (h : Matches s t) (disk : Files Id) : s.files disk = t.files disk := by
  unfold Session.files Overlay.view
  congr 1
  funext p
  rw [h.texts p]

theorem Matches.invalidate (h : Matches s t) (p : Path) :
    Matches (s.invalidate p) (t.invalidate p) :=
  ⟨h.texts, h.setup, h.index⟩

theorem Matches.openDocument (h : Matches s t) (uri : Uri) (text : String) :
    Matches (s.openDocument uri text) (t.openDocument uri text) := by
  unfold Session.openDocument
  cases FileUri.toPath? uri with
  | none =>
      exact h
  | some p =>
      constructor
      · intro q
        show (s.overlay.open_ p text).text? q = (t.overlay.open_ p text).text? q
        rw [Overlay.text?_open, Overlay.text?_open, h.texts q]
      · exact h.setup
      · exact h.index

theorem Matches.changeDocument (h : Matches s t) (uri : Uri) (changes : List Change) :
    Matches (s.changeDocument uri changes) (t.changeDocument uri changes) := by
  unfold Session.changeDocument
  cases FileUri.toPath? uri with
  | none =>
      exact h
  | some p =>
      exact ⟨Overlay.text?_change_congr h.texts p changes, h.setup, h.index⟩

theorem Matches.closeDocument (h : Matches s t) (uri : Uri) :
    Matches (s.closeDocument uri) (t.closeDocument uri) := by
  unfold Session.closeDocument
  cases FileUri.toPath? uri with
  | none =>
      exact h
  | some p =>
      constructor
      · intro q
        show (s.overlay.close p).text? q = (t.overlay.close p).text? q
        rw [Overlay.text?_close, Overlay.text?_close, h.texts q]
      · exact h.setup
      · exact h.index

theorem Matches.reconfigure (h : Matches s t) (settings : Settings) :
    Matches (s.reconfigure settings) (t.reconfigure settings) := by
  constructor
  · exact h.texts
  · have hroot := congrArg Prod.fst h.setup
    exact congrArg (fun root => (root, settings, none)) hroot
  · exact congrArg (·.reconfigure settings) h.index

variable (disk : Files Id)

theorem Matches.indexPath (h : Matches s t) (p : Path) :
    Matches { s with index := (s.index.indexPath (s.files disk) p).2 }
      { t with index := (t.index.indexPath (t.files disk) p).2 } := by
  constructor
  · exact h.texts
  · exact h.setup
  · show (s.index.indexPath (s.files disk) p).2 = (t.index.indexPath (t.files disk) p).2
    rw [h.files disk, h.index]

theorem Matches.saveDocument (h : Matches s t) (uri : Uri) (text : Option String) :
    Matches (s.saveDocument disk uri text) (t.saveDocument disk uri text) := by
  unfold Session.saveDocument
  cases FileUri.toPath? uri with
  | none =>
      exact h
  | some p =>
      cases text with
      | some text => exact ⟨h.texts, h.setup, congrArg (·.update p text) h.index⟩
      | none => exact (h.invalidate p).indexPath disk p

theorem fileChanged_eq (event : FileEvent) (s : Session) :
    s.fileChanged disk event =
      match FileUri.toPath? event.uri with
      | none => s
      | some p =>
          if event.change = .deleted then
            { s.invalidate p with index := s.index.remove p }
          else if (s.index.containsPath p || s.index.scanned) && !s.overlay.isOpen p then
            { s.invalidate p with index := (s.index.indexPath (s.files disk) p).2 }
          else s.invalidate p :=
  rfl

theorem Matches.fileChanged (h : Matches s t) (event : FileEvent) :
    Matches (s.fileChanged disk event) (t.fileChanged disk event) := by
  rw [fileChanged_eq, fileChanged_eq]
  cases FileUri.toPath? event.uri with
  | none =>
      exact h
  | some p =>
      have hread : ((s.index.containsPath p || s.index.scanned) && !s.overlay.isOpen p) =
          ((t.index.containsPath p || t.index.scanned) && !t.overlay.isOpen p) := by
        rw [h.index, Overlay.isOpen, Overlay.isOpen, h.texts p]
      simp only [hread]
      split
      · exact ⟨h.texts, h.setup, congrArg (·.remove p) h.index⟩
      · split
        · exact (h.invalidate p).indexPath disk p
        · exact h.invalidate p

theorem Matches.eachFileChanged (h : Matches s t) (events : List FileEvent) :
    Matches (s.eachFileChanged disk events) (t.eachFileChanged disk events) := by
  induction events generalizing s t with
  | nil =>
      exact h
  | cons event events ih =>
      exact ih (h.fileChanged disk event)

theorem Matches.workspaceSymbols (h : Matches s t) (query : String) :
    (s.workspaceSymbols disk query).1 = (t.workspaceSymbols disk query).1 ∧
      Matches (s.workspaceSymbols disk query).2 (t.workspaceSymbols disk query).2 := by
  have hanswer : s.index.query (s.files disk) query = t.index.query (t.files disk) query := by
    rw [h.files disk, h.index]
  have hsymbols := congrArg Prod.fst hanswer
  have hindex := congrArg Prod.snd hanswer
  exact ⟨hsymbols, h.texts, h.setup, hindex⟩

theorem Matches.definition (h : Matches s t)
    (halike : ModuleLookup.Alike id (s.files disk) s.lookup t.lookup) (uri : Uri)
    (line column : Nat) :
    (s.definition disk uri line column).1 = (t.definition disk uri line column).1 ∧
      Matches (s.definition disk uri line column).2 (t.definition disk uri line column).2 := by
  have htext : s.documentText disk uri = t.documentText disk uri := by
    unfold Session.documentText
    rw [h.files disk]
  rw [definition_eq, definition_eq, htext]
  cases FileUri.toPath? uri with
  | none =>
      exact ⟨rfl, h⟩
  | some p =>
      simp only
      cases t.documentText disk uri with
      | none =>
          exact ⟨rfl, h⟩
      | some text =>
          have hfound := Definition.atPosition_of_alike halike h.setup p text line column s.index
          rw [← h.files disk, ← h.index]
          exact ⟨hfound.1, h.texts, hfound.2.2, hfound.2.1⟩

theorem definition_place (uri : Uri) (line column : Nat) (s : Session) :
    (s.definition disk uri line column).2.lookup.place = s.lookup.place := by
  rw [definition_eq]
  cases FileUri.toPath? uri with
  | none => rfl
  | some p =>
      simp only
      cases s.documentText disk uri with
      | none => rfl
      | some text =>
          apply Definition.atPosition_keeps_lookup (P := fun l => l.place = s.lookup.place)
          · intro l name h
            rw [ModuleLookup.byName_place, h]
          · intro l q h
            rw [ModuleLookup.atPath_place, h]
          · rfl

end Session

/-!
## Workbenches that go on alike
-/

namespace Workbench

variable {w other : Workbench}

theorem run_append (w : Workbench) (before after : List Event) :
    w.run (before ++ after) = (w.run before).run after :=
  List.foldl_append

/-- Every outline that is kept is that of the text which the session reads. -/
def AllFresh (w : Workbench) : Prop :=
  forall p, p.normalize = p -> w.Fresh p

theorem start_allFresh (disk : Files Id) (root : Path) (settings : Settings) :
    (start disk root settings).AllFresh :=
  fun _ _ => fresh_of_none rfl

theorem AllFresh.run (h : w.AllFresh) {events : List Event}
    (hdisk : forall disk, Event.diskChanged disk ∉ events) : (w.run events).AllFresh := by
  intro p hp
  apply (h p hp).run hp
  intro disk hmem
  exact absurd hmem (hdisk disk)

theorem AllFresh.outlineAt (h : w.AllFresh) (p : Path) :
    w.outlineAt p = outlineIn? (w.shown p.normalize) := by
  rw [← (h p.normalize (Path.normalize_normalize p)).outlineAt (Path.normalize_normalize p)]
  unfold Workbench.outlineAt
  rw [ModuleLookup.atPath_outline, ModuleLookup.atPath_outline, Path.normalize_normalize]

/-- Two workbenches that have the same disk and match in what their sessions show, where they
look and what they have indexed. -/
structure Twins (w other : Workbench) : Prop where
  disk : w.disk = other.disk
  session : w.session.Matches other.session
  fresh : w.AllFresh
  otherFresh : other.AllFresh

theorem outlineAt_of_texts (hdisk : w.disk = other.disk)
    (htexts : forall q, w.session.overlay.text? q = other.session.overlay.text? q)
    (hfresh : w.AllFresh) (hother : other.AllFresh) (p : Path) :
    w.shown p = other.shown p ∧ w.outlineAt p = other.outlineAt p := by
  have hshown : forall q, w.shown q = other.shown q := by
    intro q
    rw [shown_eq, shown_eq, htexts q, hdisk]
  constructor
  · exact hshown p
  · rw [hfresh.outlineAt p, hother.outlineAt p, hshown]

theorem Twins.alike (h : Twins w other) :
    ModuleLookup.Alike id (w.session.files w.disk) w.session.lookup other.session.lookup := by
  constructor
  · intro p
    have houtline := (outlineAt_of_texts h.disk h.session.texts h.fresh h.otherFresh p).2
    unfold Workbench.outlineAt at houtline
    rw [houtline, h.session.files w.disk, h.disk]
  · exact ModuleLookup.dirs_of_setup h.session.setup

theorem Twins.step (h : Twins w other) {event : Event}
    (hevent : forall disk, event ≠ .diskChanged disk) :
    Twins (w.step event) (other.step event) := by
  have hone : forall disk, Event.diskChanged disk ∉ [event] := by
    intro disk hmem
    exact hevent disk (List.mem_singleton.mp hmem).symm
  have hfresh : (w.step event).AllFresh := h.fresh.run hone
  have hother : (other.step event).AllFresh := h.otherFresh.run hone
  have halike := h.alike
  rcases h with ⟨hdisk, hsession, _, _⟩
  rcases w with ⟨disk, s⟩
  rcases other with ⟨disk', t⟩
  have hsame : disk = disk' := hdisk
  subst hsame
  cases event with
  | opened uri text => exact ⟨rfl, hsession.openDocument uri text, hfresh, hother⟩
  | edited uri changes => exact ⟨rfl, hsession.changeDocument uri changes, hfresh, hother⟩
  | closed uri => exact ⟨rfl, hsession.closeDocument uri, hfresh, hother⟩
  | saved uri text => exact ⟨rfl, hsession.saveDocument disk uri text, hfresh, hother⟩
  | documentSymbols uri => exact ⟨rfl, hsession, hfresh, hother⟩
  | workspaceSymbols query =>
      exact ⟨rfl, (hsession.workspaceSymbols disk query).2, hfresh, hother⟩
  | definition uri line column =>
      exact ⟨rfl, (hsession.definition disk halike uri line column).2, hfresh, hother⟩
  | reconfigured settings => exact ⟨rfl, hsession.reconfigure settings, hfresh, hother⟩
  | filesChanged events =>
      have hcleared : Session.Matches { s with index := s.index.clearMissing }
          { t with index := t.index.clearMissing } :=
        ⟨hsession.texts, hsession.setup, congrArg (·.clearMissing) hsession.index⟩
      exact ⟨rfl, hcleared.eachFileChanged disk events, hfresh, hother⟩
  | diskChanged changed => exact absurd rfl (hevent changed)

theorem Twins.run (h : Twins w other) {events : List Event}
    (hdisk : forall disk, Event.diskChanged disk ∉ events) :
    Twins (w.run events) (other.run events) := by
  induction events generalizing w other with
  | nil =>
      exact h
  | cons event events ih =>
      apply ih
      · apply h.step
        intro disk heq
        exact hdisk disk (heq ▸ List.mem_cons_self)
      · intro disk hmem
        exact hdisk disk (List.mem_cons_of_mem event hmem)

/-- Two workbenches answer every search and every request for a definition alike. -/
def AnswersAlike (w other : Workbench) : Prop :=
  (forall query, (w.session.workspaceSymbols w.disk query).1 =
      (other.session.workspaceSymbols other.disk query).1) ∧
    forall uri line column, (w.session.definition w.disk uri line column).1 =
      (other.session.definition other.disk uri line column).1

theorem Twins.answersAlike (h : Twins w other) : AnswersAlike w other := by
  constructor
  · intro query
    rw [← h.disk]
    exact (h.session.workspaceSymbols w.disk query).1
  · intro uri line column
    rw [← h.disk]
    exact (h.session.definition w.disk h.alike uri line column).1

end Workbench

/-!
## While a document is open
-/

def Event.isRequest : Event -> Bool
  | .documentSymbols _ => true
  | .workspaceSymbols _ => true
  | .definition _ _ _ => true
  | _ => false

/-- Events that open, edit or close the document of a URI. -/
def Event.Handles (uri : Uri) : Event -> Prop
  | .opened handled _ => handled = uri
  | .edited handled _ => handled = uri
  | .closed handled => handled = uri
  | _ => False

namespace Workbench

/-- A workbench has come from another one by requests and by handling the document of a URI:
other documents are as they were, and so are the disk and the settings. -/
structure Beside (uri : Uri) (base w : Workbench) : Prop where
  disk : w.disk = base.disk
  place : w.session.lookup.place = base.session.lookup.place
  texts : forall q, (forall p, FileUri.toPath? uri = some p -> q.components ≠ p.components) ->
    w.session.overlay.text? q = base.session.overlay.text? q

theorem Beside.refl (uri : Uri) (w : Workbench) : Beside uri w w :=
  ⟨rfl, rfl, fun _ _ => rfl⟩

theorem step_request_overlay {event : Event} (hevent : event.isRequest = true)
    (w : Workbench) : (w.step event).session.overlay = w.session.overlay := by
  cases event with
  | definition uri line column =>
      exact (Session.definition_grows w.disk uri line column w.session).1
  | documentSymbols uri => rfl
  | workspaceSymbols query => rfl
  | _ => cases hevent

theorem Beside.request {uri : Uri} {base w : Workbench} (h : Beside uri base w)
    {event : Event} (hevent : event.isRequest = true) : Beside uri base (w.step event) := by
  have hoverlay := step_request_overlay hevent w
  cases event with
  | definition asked line column =>
      have hplace := Session.definition_place w.disk asked line column w.session
      refine ⟨h.disk, hplace.trans h.place, ?_⟩
      rw [hoverlay]
      exact h.texts
  | documentSymbols asked => exact h
  | workspaceSymbols query => exact ⟨h.disk, h.place, h.texts⟩
  | _ => cases hevent

theorem Beside.handle {uri : Uri} {base w : Workbench} (h : Beside uri base w)
    {event : Event} (hevent : event.Handles uri) : Beside uri base (w.step event) := by
  cases event with
  | opened handled text =>
      have huri : handled = uri := hevent
      subst huri
      simp only [step, Session.openDocument]
      cases hp : FileUri.toPath? handled with
      | none => exact h
      | some p =>
          refine ⟨h.disk, h.place, ?_⟩
          intro q hq
          show (w.session.overlay.open_ p text).text? q = _
          rw [Overlay.text?_open, if_neg (hq p hp), h.texts q hq]
  | edited handled changes =>
      have huri : handled = uri := hevent
      subst huri
      simp only [step, Session.changeDocument]
      cases hp : FileUri.toPath? handled with
      | none => exact h
      | some p =>
          refine ⟨h.disk, h.place, ?_⟩
          intro q hq
          show (w.session.overlay.changeAll p changes).text? q = _
          rw [Overlay.text?_changeAll (hq p hp), h.texts q hq]
  | closed handled =>
      have huri : handled = uri := hevent
      subst huri
      simp only [step, Session.closeDocument]
      cases hp : FileUri.toPath? handled with
      | none => exact h
      | some p =>
          refine ⟨h.disk, h.place, ?_⟩
          intro q hq
          show (w.session.overlay.close p).text? q = _
          rw [Overlay.text?_close, if_neg (hq p hp), h.texts q hq]
  | _ => exact hevent.elim

theorem Beside.run {uri : Uri} {base w : Workbench} (h : Beside uri base w)
    {events : List Event}
    (hevents : forall event, event ∈ events -> event.isRequest = true ∨ event.Handles uri) :
    Beside uri base (w.run events) := by
  induction events generalizing w with
  | nil =>
      exact h
  | cons event events ih =>
      apply ih
      · rcases hevents event List.mem_cons_self with hrequest | hhandles
        · exact h.request hrequest
        · exact h.handle hhandles
      · intro later hlater
        exact hevents later (List.mem_cons_of_mem event hlater)

theorem run_requests_overlay {events : List Event}
    (hevents : forall event, event ∈ events -> event.isRequest = true) (w : Workbench) :
    (w.run events).session.overlay = w.session.overlay := by
  induction events generalizing w with
  | nil => rfl
  | cons event events ih =>
      have hfirst := step_request_overlay (hevents event List.mem_cons_self) w
      have hrest := ih (fun later hlater => hevents later (List.mem_cons_of_mem event hlater))
        (w.step event)
      exact hrest.trans hfirst

theorem text?_closed {uri : Uri} {p q : Path} (hp : FileUri.toPath? uri = some p)
    (hq : q.components = p.components) (w : Workbench) :
    (w.step (.closed uri)).session.overlay.text? q = none := by
  simp only [step, Session.closeDocument, hp]
  rw [Overlay.text?_close, if_pos hq]

/-- What holds of opening a document, of all that comes in between and of closing it. -/
theorem forall_between {P : Event -> Prop} {uri : Uri} {text : String} {mid : List Event}
    (hopened : P (.opened uri text)) (hmid : forall event, event ∈ mid -> P event)
    (hclosed : P (.closed uri)) :
    forall event, event ∈ .opened uri text :: mid ++ [.closed uri] -> P event := by
  intro event hevent
  rcases List.mem_append.mp hevent with hfront | hlast
  · rcases List.mem_cons.mp hfront with hfirst | hin
    · rw [hfirst]
      exact hopened
    · exact hmid event hin
  · rw [List.mem_singleton.mp hlast]
    exact hclosed

section Closing

variable {uri : Uri} {base : Workbench} {mid : List Event}
  (hmid : forall event, event ∈ mid -> event.isRequest = true ∨ event.Handles uri)

include hmid

theorem beside_of_closed (text : String) :
    Beside uri base (base.run (.opened uri text :: mid ++ [.closed uri])) :=
  (Beside.refl uri base).run (forall_between (Or.inr rfl) hmid (Or.inr rfl))

omit hmid in
theorem beside_of_requests (uri : Uri) (base : Workbench) (mid : List Event) :
    Beside uri base (base.run (mid.filter Event.isRequest)) := by
  apply (Beside.refl uri base).run
  intro event hevent
  exact Or.inl (List.mem_filter.mp hevent).2

/-- Once a document is closed, all documents are as if only the requests had been made. -/
theorem texts_after_close (text : String)
    (hclosed : forall p, FileUri.toPath? uri = some p -> base.session.overlay.isOpen p = false)
    (q : Path) :
    (base.run (.opened uri text :: mid ++ [.closed uri])).session.overlay.text? q =
      (base.run (mid.filter Event.isRequest)).session.overlay.text? q := by
  have hrequests : (base.run (mid.filter Event.isRequest)).session.overlay =
      base.session.overlay :=
    run_requests_overlay (fun event hevent => (List.mem_filter.mp hevent).2) base
  rw [hrequests]
  by_cases hq : exists p, FileUri.toPath? uri = some p ∧ q.components = p.components
  · rcases hq with ⟨p, hp, hcomponents⟩
    have hbase : base.session.overlay.text? q = none := by
      rw [Overlay.text?_of_components hcomponents]
      exact Option.isNone_iff_eq_none.mp (Option.isSome_eq_false_iff.mp (hclosed p hp))
    rw [run_append, hbase]
    exact text?_closed hp hcomponents _
  · apply (beside_of_closed hmid text).texts q
    intro p hp hcomponents
    exact hq ⟨p, hp, hcomponents⟩

end Closing

/-!
## What stays behind
-/

end Workbench

/-- An index has what it needs to answer a query. -/
def SymbolIndex.Settles (ix : SymbolIndex) (text : String) : Prop :=
  match SymbolQuery.parse text with
  | .qualified module _ => (ix.byModule.has module || ix.missing.contains module) = true
  | .bare _ => ix.scanned = true

theorem SymbolIndex.query_of_settles {ix : SymbolIndex} {text : String} (h : ix.Settles text)
    (files : Files Id) : (ix.query files text).2 = ix := by
  rw [query_eq]
  unfold Settles at h
  cases hparse : SymbolQuery.parse text with
  | qualified module name =>
      rw [hparse] at h
      exact if_pos h
  | bare text =>
      rw [hparse] at h
      exact if_pos h

/-- Events that leave an index as it is and need no module: opening, editing and closing
documents, and searches that the index has the answer to. -/
def Event.LeavesIndex (ix : SymbolIndex) : Event -> Prop
  | .opened _ _ => True
  | .edited _ _ => True
  | .closed _ => True
  | .documentSymbols _ => True
  | .workspaceSymbols query => ix.Settles query
  | _ => False

namespace Workbench

theorem step_leavesIndex {w : Workbench} {event : Event}
    (h : event.LeavesIndex w.session.index) :
    (w.step event).session.index = w.session.index ∧
      (w.step event).session.lookup.sourceDirs = w.session.lookup.sourceDirs := by
  cases event with
  | opened uri text =>
      simp only [step, Session.openDocument]
      cases FileUri.toPath? uri with
      | none => exact ⟨rfl, rfl⟩
      | some p => exact ⟨rfl, rfl⟩
  | edited uri changes =>
      simp only [step, Session.changeDocument]
      cases FileUri.toPath? uri with
      | none => exact ⟨rfl, rfl⟩
      | some p => exact ⟨rfl, rfl⟩
  | closed uri =>
      simp only [step, Session.closeDocument]
      cases FileUri.toPath? uri with
      | none => exact ⟨rfl, rfl⟩
      | some p => exact ⟨rfl, rfl⟩
  | documentSymbols uri => exact ⟨rfl, rfl⟩
  | workspaceSymbols query =>
      have hindex := SymbolIndex.query_of_settles h (w.session.files w.disk)
      exact ⟨hindex, rfl⟩
  | _ => exact h.elim

theorem run_leavesIndex {w : Workbench} {events : List Event}
    (h : forall event, event ∈ events -> event.LeavesIndex w.session.index) :
    (w.run events).session.index = w.session.index ∧
      (w.run events).session.lookup.sourceDirs = w.session.lookup.sourceDirs := by
  induction events generalizing w with
  | nil =>
      exact ⟨rfl, rfl⟩
  | cons event events ih =>
      have hfirst := step_leavesIndex (h event List.mem_cons_self)
      have hrest := @ih (w.step event) fun later hlater => by
        rw [hfirst.1]
        exact h later (List.mem_cons_of_mem event hlater)
      exact ⟨hrest.1.trans hfirst.1, hrest.2.trans hfirst.2⟩

/-- Without a request that the index cannot answer there is no trace of the document. -/
theorem same_traces {base : Workbench} {mid : List Event}
    (h : forall event, event ∈ mid -> event.LeavesIndex base.session.index) (uri : Uri)
    (text : String) :
    let w := base.run (.opened uri text :: mid ++ [.closed uri])
    let other := base.run (mid.filter Event.isRequest)
    w.session.index = other.session.index ∧
      w.session.lookup.sourceDirs = other.session.lookup.sourceDirs := by
  intro w other
  have hwhole : forall event, event ∈ .opened uri text :: mid ++ [.closed uri] ->
      event.LeavesIndex base.session.index :=
    forall_between trivial h trivial
  have hrequests : forall event, event ∈ mid.filter Event.isRequest ->
      event.LeavesIndex base.session.index :=
    fun event hevent => h event (List.mem_filter.mp hevent).1
  have hw := run_leavesIndex hwhole
  have hother := run_leavesIndex hrequests
  exact ⟨hw.1.trans hother.1.symm, hw.2.trans hother.2.symm⟩

theorem diskChanged_not_mem {uri : Uri} {events : List Event}
    (h : forall event, event ∈ events -> event.isRequest = true ∨ event.Handles uri)
    (changed : Files Id) : Event.diskChanged changed ∉ events := by
  intro hmem
  rcases h _ hmem with hrequest | hhandles
  · cases hrequest
  · exact hhandles

/-- A document that is opened, edited and closed without being saved, with requests in between,
leaves what the session reads and all outlines as if only the requests had been made.  If it has
left no trace in the index and the source directories either, for one because every request in
between could be answered from the index, then every later answer is the same too. -/
theorem answersAlike_after_close (disk : Files Id) (root : Path) (settings : Settings)
    (earlier mid : List Event) (uri : Uri) (text : String)
    (hearlier : forall changed, Event.diskChanged changed ∉ earlier)
    (hmid : forall event, event ∈ mid -> event.isRequest = true ∨ event.Handles uri)
    (hclosed : forall p, FileUri.toPath? uri = some p ->
      ((start disk root settings).run earlier).session.overlay.isOpen p = false) :
    let base := (start disk root settings).run earlier
    let w := base.run (.opened uri text :: mid ++ [.closed uri])
    let other := base.run (mid.filter Event.isRequest)
    (forall p, w.shown p = other.shown p ∧ w.outlineAt p = other.outlineAt p) ∧
      ((forall event, event ∈ mid -> event.LeavesIndex base.session.index) ∨
          (w.session.index = other.session.index ∧
            w.session.lookup.sourceDirs = other.session.lookup.sourceDirs) ->
        forall later, (forall changed, Event.diskChanged changed ∉ later) ->
          AnswersAlike (w.run later) (other.run later)) := by
  intro base w other
  have hbase : base.AllFresh := (start_allFresh disk root settings).run hearlier
  have hfresh : w.AllFresh :=
    hbase.run (diskChanged_not_mem (forall_between (Or.inr rfl) hmid (Or.inr rfl)))
  have hother : other.AllFresh := by
    apply hbase.run
    intro changed hmem
    exact diskChanged_not_mem hmid changed (List.mem_filter.mp hmem).1
  have hw : Beside uri base w := beside_of_closed hmid text
  have hrequests := beside_of_requests uri base mid
  have hdisk : w.disk = other.disk := hw.disk.trans hrequests.disk.symm
  have htexts := texts_after_close hmid text hclosed
  constructor
  · exact outlineAt_of_texts hdisk htexts hfresh hother
  · intro htrace later hlater
    have hsame : w.session.index = other.session.index ∧
        w.session.lookup.sourceDirs = other.session.lookup.sourceDirs := by
      rcases htrace with hleaves | hsame
      · exact same_traces hleaves uri text
      · exact hsame
    have hplace := hw.place.trans hrequests.place.symm
    have htwins : Twins w other :=
      ⟨hdisk, ⟨htexts, ModuleLookup.setup_of_place hplace hsame.2, hsame.1⟩, hfresh, hother⟩
    exact (htwins.run hlater).answersAlike

/-- After a scan, a module is opened, renamed and closed while the workspace is searched; the
definition of its name is then found in the file again. -/
theorem answersAlike_after_close_renamed :
    let disk := ((Tree.empty.write (Path.ofString "/w/A.elm")
      (.file (.text "module A exposing (..)\nx = y\n"))).write (Path.ofString "/w/M.elm")
      (.file (.text "module M exposing (..)\nimport A exposing (x)\nz = x\n"))).files
    let uri := Uri.mk "file:///w/A.elm"
    let base := (start disk (Path.ofString "/w") .default).run [.workspaceSymbols "x"]
    let mid := [.edited uri [⟨none, "module B exposing (..)\n"⟩], .workspaceSymbols "xyz",
      .documentSymbols uri]
    let w := base.run (.opened uri "module A exposing (..)\n" :: mid ++ [.closed uri])
    let other := base.run (mid.filter Event.isRequest)
    AnswersAlike (w.run [.workspaceSymbols "A:x"]) (other.run [.workspaceSymbols "A:x"]) ∧
      ((w.session.definition w.disk (Uri.mk "file:///w/M.elm") 2 4).1.map
        fun s => (s.name, s.container)) = some ("x", "A") := by
  intro disk uri base mid w other
  have hmid : forall event, event ∈ mid -> event.isRequest = true ∨ event.Handles uri := by
    intro event hevent
    simp only [mid, List.mem_cons, List.not_mem_nil, or_false] at hevent
    rcases hevent with hedited | hsearched | hlisted
    · rw [hedited]
      exact Or.inr rfl
    · rw [hsearched]
      exact Or.inl rfl
    · rw [hlisted]
      exact Or.inl rfl
  have hleaves : forall event, event ∈ mid -> event.LeavesIndex base.session.index := by
    intro event hevent
    simp only [mid, List.mem_cons, List.not_mem_nil, or_false] at hevent
    rcases hevent with hedited | hsearched | hlisted
    · rw [hedited]
      trivial
    · rw [hsearched]
      have hscanned : base.session.index.scanned = true := by decide +kernel
      exact hscanned
    · rw [hlisted]
      trivial
  have hclosed : forall p, FileUri.toPath? uri = some p ->
      base.session.overlay.isOpen p = false := by
    intro p _
    rfl
  constructor
  · exact (answersAlike_after_close disk _ _ _ mid uri _ (by simp) hmid hclosed).2
      (Or.inl hleaves) _ (by simp)
  · decide +kernel

/-- A query between opening and closing a document can put the text that was not saved into the
index for good: the same query is then answered otherwise than without the document. -/
theorem indexed_after_close :
    let disk := (Tree.empty.write (Path.ofString "/w/A.elm")
      (.file (.text "module A exposing (..)\nx = y\n"))).files
    let uri := Uri.mk "file:///w/A.elm"
    let base := start disk (Path.ofString "/w") .default
    let mid := [Event.workspaceSymbols "A:x"]
    let w := base.run (.opened uri "module A exposing (..)\nz = y\n" :: mid ++ [.closed uri])
    let other := base.run (mid.filter Event.isRequest)
    (w.session.workspaceSymbols w.disk "A:x").1 = [] ∧
      (other.session.workspaceSymbols other.disk "A:x").1.map (·.name) = ["x"] := by
  decide +kernel

end Workbench
end ElmNavigator
