import ElmNavigator.Proofs.Place.NormalPaths
import ElmNavigator.Proofs.Workspace.OutlineCache
import ElmNavigator.Workspace.Session

/-!
# Outlines stay current

A session keeps outlines while documents are edited and the disk changes under
it.  An outline that is kept for an open document is always that of the
document's text.  For any other file it is that of the file's text, unless the
file has changed and the session has not been told.
-/

namespace ElmNavigator

open Disk Syntax Text

/-!
## Histories
-/

structure Workbench where
  disk : Files Id
  session : Session

inductive Event where
  | opened (uri : Uri) (text : String)
  | edited (uri : Uri) (changes : List Change)
  | closed (uri : Uri)
  | saved (uri : Uri) (text : Option String)
  | documentSymbols (uri : Uri)
  | workspaceSymbols (query : String)
  | definition (uri : Uri) (line column : Nat)
  | reconfigured (settings : Settings)
  | filesChanged (events : List FileEvent)
  | diskChanged (disk : Files Id)

/-- Whether a URI leads to a normal path. -/
def Uri.Names (uri : Uri) (p : Path) : Prop :=
  exists q, FileUri.toPath? uri = some q ∧ q.normalize = p

/-- Whether an event tells the session about a file. -/
def Event.Names (event : Event) (p : Path) : Prop :=
  match event with
  | .opened uri _ => uri.Names p
  | .edited uri _ => uri.Names p
  | .closed uri => uri.Names p
  | .saved uri _ => uri.Names p
  | .filesChanged events => exists e, e ∈ events ∧ e.uri.Names p
  | _ => False

namespace Workbench

def start (disk : Files Id) (root : Path) (settings : Settings) : Workbench :=
  { disk, session := .new root settings }

/-- What comes of an event.  The symbols of a document are worked out without a trace. -/
def step (w : Workbench) : Event -> Workbench
  | .opened uri text => { w with session := w.session.openDocument uri text }
  | .edited uri changes => { w with session := w.session.changeDocument uri changes }
  | .closed uri => { w with session := w.session.closeDocument uri }
  | .saved uri text => { w with session := w.session.saveDocument w.disk uri text }
  | .documentSymbols _ => w
  | .workspaceSymbols query =>
      { w with session := (w.session.workspaceSymbols w.disk query).2 }
  | .definition uri line column =>
      { w with session := (w.session.definition w.disk uri line column).2 }
  | .reconfigured settings => { w with session := w.session.reconfigure settings }
  | .filesChanged events => { w with session := w.session.filesChanged w.disk events }
  | .diskChanged disk => { w with disk }

def run (w : Workbench) (events : List Event) : Workbench :=
  events.foldl step w

def outlineAt (w : Workbench) (p : Path) : Option (Outline Location) :=
  (w.session.lookup.atPath (w.session.files w.disk) p).1

/-- What the session reads at a path. -/
def shown (w : Workbench) (p : Path) : Except AccessError String :=
  (w.session.files w.disk).read p

/-- The file has not changed since an event that told the session about it, or since the start. -/
def SettledSinceNamed (w : Workbench) (events : List Event) (p : Path) : Prop :=
  exists before after, events = before ++ after ∧
    (before = [] ∨ exists earlier event, before = earlier ++ [event] ∧ event.Names p) ∧
    forall disk, Event.diskChanged disk ∈ after ->
      disk.read p = (w.run before).disk.read p

end Workbench

/-!
## Open documents
-/

namespace Overlay

theorem text?_eq_get? (o : Overlay) (p : Path) :
    o.text? p = Table.get? o.documents p.components :=
  Table.lookup_eq_get? o.documents p.components

theorem text?_close (o : Overlay) (q p : Path) :
    (o.close q).text? p =
      if p.components = q.components then none else o.text? p := by
  rw [text?_eq_get?, text?_eq_get?]
  exact Table.get?_erase o.documents q.components p.components

theorem text?_open (o : Overlay) (q p : Path) (text : String) :
    (o.open_ q text).text? p =
      if p.components = q.components then some text else o.text? p := by
  rw [text?_eq_get?, text?_eq_get?]
  exact Table.get?_insert o.documents q.components text p.components

theorem text?_changeAll {q p : Path} (h : p.components ≠ q.components)
    (changes : List Change) (o : Overlay) :
    (o.changeAll q changes).text? p = o.text? p := by
  induction changes generalizing o with
  | nil =>
      rfl
  | cons change changes ih =>
      simp only [changeAll]
      cases hnext : o.change? q change with
      | none =>
          rfl
      | some next =>
          simp only
          rw [ih next]
          simp only [change?, Option.bind_eq_bind, Option.bind_eq_some_iff] at hnext
          rcases hnext with ⟨text, _htext, edited, _hedited, hopen⟩
          injection hopen with hopen
          rw [← hopen, text?_open, if_neg h]

end Overlay

theorem Path.normalize_of_components {p q : Path} (h : p.components = q.components) :
    p.normalize = q.normalize := by
  unfold Path.normalize Path.resolvedComponents
  rw [h]

/-!
## File events
-/

namespace ModuleLookup

theorem get?_invalidate (l : ModuleLookup) (q p : Path) :
    (l.invalidate q).cache.get? p =
      if p = q.normalize then none else l.cache.get? p :=
  Table.get?_erase l.cache q.normalize p

def invalidateUri (l : ModuleLookup) (uri : Uri) : ModuleLookup :=
  match FileUri.toPath? uri with
  | none => l
  | some q => l.invalidate q

theorem get?_invalidateUri {uri : Uri} {p : Path} (h : uri.Names p)
    (l : ModuleLookup) : (l.invalidateUri uri).cache.get? p = none := by
  rcases h with ⟨q, hq, hp⟩
  unfold invalidateUri
  rw [hq]
  show (l.invalidate q).cache.get? p = none
  rw [get?_invalidate, if_pos hp.symm]

theorem get?_of_invalidateUri {uri : Uri} {p : Path} {l : ModuleLookup}
    {outline : Outline Location}
    (h : (l.invalidateUri uri).cache.get? p = some outline) :
    l.cache.get? p = some outline := by
  unfold invalidateUri at h
  cases hq : FileUri.toPath? uri with
  | none =>
      rw [hq] at h
      exact h
  | some q =>
      rw [hq] at h
      have hget : (l.invalidate q).cache.get? p = some outline := h
      rw [get?_invalidate] at hget
      split at hget
      · cases hget
      · exact hget

def invalidateEach (l : ModuleLookup) (events : List FileEvent) : ModuleLookup :=
  events.foldl (fun l event => l.invalidateUri event.uri) l

theorem get?_of_invalidateEach {events : List FileEvent} {p : Path}
    {l : ModuleLookup} {outline : Outline Location}
    (h : (l.invalidateEach events).cache.get? p = some outline) :
    l.cache.get? p = some outline := by
  induction events generalizing l with
  | nil =>
      exact h
  | cons event events ih =>
      exact get?_of_invalidateUri (ih h)

theorem get?_invalidateEach {events : List FileEvent} {p : Path}
    (h : exists e, e ∈ events ∧ e.uri.Names p) (l : ModuleLookup) :
    (l.invalidateEach events).cache.get? p = none := by
  rcases h with ⟨e, he, hnames⟩
  rcases List.append_of_mem he with ⟨before, after, hevents⟩
  have hsplit : l.invalidateEach events =
      ((l.invalidateEach before).invalidateUri e.uri).invalidateEach after := by
    unfold invalidateEach
    rw [hevents, List.foldl_append, List.foldl_cons]
  rw [hsplit, Option.eq_none_iff_forall_ne_some]
  intro outline houtline
  have hnone := get?_invalidateUri hnames (l.invalidateEach before)
  rw [get?_of_invalidateEach houtline] at hnone
  cases hnone

end ModuleLookup

namespace Session

theorem fileChanged_keeps (disk : Files Id) (event : FileEvent) (s : Session) :
    (s.fileChanged disk event).overlay = s.overlay ∧
      (s.fileChanged disk event).lookup = s.lookup.invalidateUri event.uri := by
  unfold fileChanged ModuleLookup.invalidateUri
  cases FileUri.toPath? event.uri with
  | none =>
      exact ⟨rfl, rfl⟩
  | some q =>
      simp only
      split
      · exact ⟨rfl, rfl⟩
      · split
        · exact ⟨rfl, rfl⟩
        · exact ⟨rfl, rfl⟩

theorem eachFileChanged_keeps (disk : Files Id) (events : List FileEvent)
    (s : Session) :
    (s.eachFileChanged disk events).overlay = s.overlay ∧
      (s.eachFileChanged disk events).lookup =
        s.lookup.invalidateEach events := by
  induction events generalizing s with
  | nil =>
      exact ⟨rfl, rfl⟩
  | cons event events ih =>
      have hone := fileChanged_keeps disk event s
      have hmore := ih (s.fileChanged disk event)
      rw [hone.left, hone.right] at hmore
      exact hmore

theorem saveDocument_keeps (disk : Files Id) (uri : Uri) (text : Option String)
    (s : Session) :
    (s.saveDocument disk uri text).overlay = s.overlay ∧
      (s.saveDocument disk uri text).lookup = s.lookup.invalidateUri uri := by
  unfold saveDocument ModuleLookup.invalidateUri
  cases FileUri.toPath? uri with
  | none =>
      exact ⟨rfl, rfl⟩
  | some q =>
      cases text with
      | some text => exact ⟨rfl, rfl⟩
      | none => exact ⟨rfl, rfl⟩

theorem definition_eq (disk : Files Id) (uri : Uri) (line column : Nat)
    (s : Session) :
    s.definition disk uri line column =
      match FileUri.toPath? uri with
      | none => (none, s)
      | some q =>
          match s.documentText disk uri with
          | none => (none, s)
          | some text =>
              let found := Definition.atPosition (s.files disk) q text line column
                s.lookup s.index
              (found.1, { s with lookup := found.2.1, index := found.2.2 }) := by
  unfold definition
  cases FileUri.toPath? uri with
  | none => rfl
  | some q => rfl

theorem definition_grows (disk : Files Id) (uri : Uri) (line column : Nat)
    (s : Session) :
    (s.definition disk uri line column).2.overlay = s.overlay ∧
      ModuleLookup.Grows (s.files disk) s.lookup
        (s.definition disk uri line column).2.lookup := by
  rw [definition_eq]
  cases FileUri.toPath? uri with
  | none =>
      exact ⟨rfl, ModuleLookup.Grows.refl _ _⟩
  | some q =>
      simp only
      cases s.documentText disk uri with
      | none =>
          exact ⟨rfl, ModuleLookup.Grows.refl _ _⟩
      | some text =>
          exact ⟨rfl, Definition.atPosition_grows _ q text line column s.lookup s.index⟩

theorem openDocument_lookup (s : Session) (uri : Uri) (text : String) :
    (s.openDocument uri text).lookup = s.lookup.invalidateUri uri := by
  unfold openDocument ModuleLookup.invalidateUri
  cases FileUri.toPath? uri with
  | none => rfl
  | some q => rfl

theorem changeDocument_lookup (s : Session) (uri : Uri) (changes : List Change) :
    (s.changeDocument uri changes).lookup = s.lookup.invalidateUri uri := by
  unfold changeDocument ModuleLookup.invalidateUri
  cases FileUri.toPath? uri with
  | none => rfl
  | some q => rfl

theorem closeDocument_lookup (s : Session) (uri : Uri) :
    (s.closeDocument uri).lookup = s.lookup.invalidateUri uri := by
  unfold closeDocument ModuleLookup.invalidateUri
  cases FileUri.toPath? uri with
  | none => rfl
  | some q => rfl

end Session

/-!
## One event
-/

namespace Workbench

theorem step_named {event : Event} {p : Path} (h : event.Names p) (w : Workbench) :
    (w.step event).session.lookup.cache.get? p = none := by
  cases event with
  | opened uri text =>
      simp only [step, Session.openDocument_lookup]
      exact ModuleLookup.get?_invalidateUri h _
  | edited uri changes =>
      simp only [step, Session.changeDocument_lookup]
      exact ModuleLookup.get?_invalidateUri h _
  | closed uri =>
      simp only [step, Session.closeDocument_lookup]
      exact ModuleLookup.get?_invalidateUri h _
  | saved uri text =>
      simp only [step, (Session.saveDocument_keeps w.disk uri text w.session).right]
      exact ModuleLookup.get?_invalidateUri h _
  | filesChanged events =>
      have hkeeps := Session.eachFileChanged_keeps w.disk events
        { w.session with index := w.session.index.clearMissing }
      simp only [step, Session.filesChanged, hkeeps.right]
      exact ModuleLookup.get?_invalidateEach h _
  | documentSymbols uri => cases h
  | workspaceSymbols query => cases h
  | definition uri line column => cases h
  | reconfigured settings => cases h
  | diskChanged disk => cases h

theorem step_grows (w : Workbench) (event : Event) :
    ModuleLookup.Grows (w.session.files w.disk) w.session.lookup
      (w.step event).session.lookup := by
  cases event with
  | opened uri text =>
      simp only [step, Session.openDocument_lookup]
      exact fun p outline h => Or.inl (ModuleLookup.get?_of_invalidateUri h)
  | edited uri changes =>
      simp only [step, Session.changeDocument_lookup]
      exact fun p outline h => Or.inl (ModuleLookup.get?_of_invalidateUri h)
  | closed uri =>
      simp only [step, Session.closeDocument_lookup]
      exact fun p outline h => Or.inl (ModuleLookup.get?_of_invalidateUri h)
  | saved uri text =>
      simp only [step, (Session.saveDocument_keeps w.disk uri text w.session).right]
      exact fun p outline h => Or.inl (ModuleLookup.get?_of_invalidateUri h)
  | filesChanged events =>
      have hkeeps := Session.eachFileChanged_keeps w.disk events
        { w.session with index := w.session.index.clearMissing }
      simp only [step, Session.filesChanged, hkeeps.right]
      exact fun p outline h => Or.inl (ModuleLookup.get?_of_invalidateEach h)
  | definition uri line column =>
      exact (Session.definition_grows w.disk uri line column w.session).right
  | documentSymbols uri => exact ModuleLookup.Grows.refl _ _
  | workspaceSymbols query => exact ModuleLookup.Grows.refl _ _
  | reconfigured settings => exact ModuleLookup.Grows.refl _ _
  | diskChanged disk => exact ModuleLookup.Grows.refl _ _

/-- A document that an event does not name has the same text before and after it. -/
theorem step_unnamed {event : Event} {p : Path} (hp : p.normalize = p)
    (h : ¬ event.Names p) (w : Workbench) :
    (w.step event).session.overlay.text? p = w.session.overlay.text? p := by
  -- Documents are told apart by their components, which is finer than by their normal path.
  have hother {uri : Uri} {q : Path} (hq : FileUri.toPath? uri = some q)
      (huri : ¬ uri.Names p) : p.components ≠ q.components := by
    intro heq
    exact huri ⟨q, hq, by rw [← Path.normalize_of_components heq, hp]⟩
  cases event with
  | opened uri text =>
      simp only [step, Session.openDocument]
      cases hq : FileUri.toPath? uri with
      | none => rfl
      | some q =>
          simp only
          rw [Overlay.text?_open, if_neg (hother hq h)]
  | edited uri changes =>
      simp only [step, Session.changeDocument]
      cases hq : FileUri.toPath? uri with
      | none => rfl
      | some q => exact Overlay.text?_changeAll (hother hq h) changes _
  | closed uri =>
      simp only [step, Session.closeDocument]
      cases hq : FileUri.toPath? uri with
      | none => rfl
      | some q =>
          simp only
          rw [Overlay.text?_close, if_neg (hother hq h)]
  | saved uri text =>
      simp only [step, (Session.saveDocument_keeps w.disk uri text w.session).left]
  | filesChanged events =>
      have hkeeps := Session.eachFileChanged_keeps w.disk events
        { w.session with index := w.session.index.clearMissing }
      simp only [step, Session.filesChanged, hkeeps.left]
  | definition uri line column =>
      simp only [step, (Session.definition_grows w.disk uri line column w.session).left]
  | documentSymbols uri => rfl
  | workspaceSymbols query => rfl
  | reconfigured settings => rfl
  | diskChanged disk => rfl

/-!
## Histories keep outlines current
-/

/-- The outline kept for a file, if any, is that of the text which the session reads. -/
def Fresh (w : Workbench) (p : Path) : Prop :=
  forall outline, w.session.lookup.cache.get? p = some outline ->
    outlineIn? (w.shown p) = some outline

theorem fresh_of_none {w : Workbench} {p : Path}
    (h : w.session.lookup.cache.get? p = none) : w.Fresh p := by
  intro outline houtline
  rw [h] at houtline
  cases houtline

theorem Fresh.outlineAt {w : Workbench} {p : Path} (h : w.Fresh p)
    (hp : p.normalize = p) : w.outlineAt p = outlineIn? (w.shown p) := by
  unfold Workbench.outlineAt
  rw [ModuleLookup.atPath_outline, hp]
  cases hcache : w.session.lookup.cache.get? p with
  | none => rfl
  | some outline => exact (h outline hcache).symm

theorem Fresh.step_of_shown {w : Workbench} {p : Path} {event : Event}
    (h : w.Fresh p) (hshown : (w.step event).shown p = w.shown p) :
    (w.step event).Fresh p := by
  intro outline houtline
  rw [hshown]
  rcases w.step_grows event p outline houtline with hold | hread
  · exact h outline hold
  · exact hread

theorem shown_eq (w : Workbench) (p : Path) :
    w.shown p =
      match w.session.overlay.text? p with
      | some text => .ok text
      | none => w.disk.read p :=
  rfl

/-- An event keeps an outline fresh unless it changes the file of a document that is not open. -/
theorem Fresh.step {w : Workbench} {p : Path} (hp : p.normalize = p)
    (h : w.Fresh p) (event : Event)
    (hdisk : w.session.overlay.text? p = none ->
      (w.step event).disk.read p = w.disk.read p) :
    (w.step event).Fresh p := by
  by_cases hnames : event.Names p
  · exact fresh_of_none (step_named hnames w)
  · apply h.step_of_shown
    rw [shown_eq, shown_eq, step_unnamed hp hnames]
    cases htext : w.session.overlay.text? p with
    | some text => rfl
    | none => exact hdisk htext

/-- While a document is open, its outline is fresh whatever happens to the disk. -/
theorem run_fresh_of_open {w : Workbench} {p : Path} (hp : p.normalize = p)
    (h : w.session.overlay.text? p ≠ none -> w.Fresh p) (events : List Event) :
    (w.run events).session.overlay.text? p ≠ none -> (w.run events).Fresh p := by
  induction events generalizing w with
  | nil =>
      exact h
  | cons event events ih =>
      apply ih
      intro hopen
      by_cases hnames : event.Names p
      · exact fresh_of_none (step_named hnames w)
      · rw [step_unnamed hp hnames] at hopen
        exact (h hopen).step hp event fun hclosed => absurd hclosed hopen

theorem Fresh.run {w : Workbench} {p : Path} (hp : p.normalize = p)
    (h : w.Fresh p) {events : List Event}
    (hdisk : forall disk, Event.diskChanged disk ∈ events ->
      disk.read p = w.disk.read p) :
    (w.run events).Fresh p := by
  induction events generalizing w with
  | nil =>
      exact h
  | cons event events ih =>
      have hread : (w.step event).disk.read p = w.disk.read p := by
        cases event with
        | diskChanged disk => exact hdisk disk List.mem_cons_self
        | _ => rfl
      apply ih (h.step hp event fun _ => hread)
      intro disk hmem
      rw [hread]
      exact hdisk disk (List.mem_cons_of_mem event hmem)

/-- What a session has for a file is current after every history: for an open document it is the
outline of the document's text, and otherwise that of the file, if the file has not changed since
the session was told about it. -/
theorem outlineAt_run (disk : Files Id) (root : Path) (settings : Settings)
    (events : List Event) (p : Path) (hp : p.normalize = p) :
    let w := (start disk root settings).run events
    (forall text, w.session.overlay.text? p = some text ->
        w.outlineAt p = (parse text).toOption) ∧
      (w.session.overlay.text? p = none ->
        (start disk root settings).SettledSinceNamed events p ->
        w.outlineAt p = outlineIn? (w.disk.read p)) := by
  intro w
  have hstart : (start disk root settings).Fresh p := fresh_of_none rfl
  constructor
  · intro text htext
    have hfresh : w.Fresh p :=
      run_fresh_of_open hp (fun _ => hstart) events (by rw [htext]; simp)
    rw [hfresh.outlineAt hp, shown_eq, htext]
    rfl
  · intro hclosed hsettled
    have hfresh : w.Fresh p := by
      rcases hsettled with ⟨before, after, hevents, hnamed, hdisk⟩
      have hbefore : ((start disk root settings).run before).Fresh p := by
        rcases hnamed with hempty | ⟨earlier, event, hlast, hnames⟩
        · rw [hempty]
          exact hstart
        · rw [hlast]
          apply fresh_of_none
          unfold run
          rw [List.foldl_append]
          exact step_named hnames _
      have hafter := hbefore.run hp hdisk
      unfold run at hafter
      rw [← List.foldl_append, ← hevents] at hafter
      exact hafter
    rw [hfresh.outlineAt hp, shown_eq, hclosed]

/-- The outline of a file is kept when it is asked for, and is current again when the file is
opened with another text, and when it is closed after the disk has changed. -/
theorem outlineAt_run_reopened :
    let old := (Tree.empty.write (Path.ofString "/w/A.elm")
      (.file (.text "module A exposing (..)\na = b\n"))).files
    let new := (Tree.empty.write (Path.ofString "/w/A.elm")
      (.file (.text "module B exposing (..)\n"))).files
    let w := start old (Path.ofString "/w") .default
    let uri := Uri.mk "file:///w/A.elm"
    let opened := [.definition uri 1 0, .opened uri "module C exposing (..)\n",
      .diskChanged new]
    let closed := opened ++ [.closed uri]
    (w.run opened).outlineAt (Path.ofString "/w/A.elm") =
        (parse "module C exposing (..)\n").toOption ∧
      (w.run closed).outlineAt (Path.ofString "/w/A.elm") =
        outlineIn? ((w.run closed).disk.read (Path.ofString "/w/A.elm")) := by
  intro old new w uri opened closed
  have hp : (Path.ofString "/w/A.elm").normalize = Path.ofString "/w/A.elm" := by
    decide
  have hnamed : (Event.closed uri).Names (Path.ofString "/w/A.elm") :=
    ⟨Path.ofString "/w/A.elm", by decide +kernel, hp⟩
  have hsettled : w.SettledSinceNamed closed (Path.ofString "/w/A.elm") :=
    ⟨closed, [], (List.append_nil closed).symm, Or.inr ⟨opened, _, rfl, hnamed⟩,
      fun _ hdisk => nomatch hdisk⟩
  constructor
  · exact (outlineAt_run old _ _ opened _ hp).left _ (by decide +kernel)
  · exact (outlineAt_run old _ _ closed _ hp).right (by decide +kernel) hsettled

end Workbench
end ElmNavigator
