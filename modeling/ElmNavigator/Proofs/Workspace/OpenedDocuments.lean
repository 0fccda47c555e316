import ElmNavigator.Proofs.Place.UriRoundTrip
import ElmNavigator.Proofs.Workspace.CacheCoherence

/-!
# Documents right after they are opened

A session keeps an open document under the components of its path, and looks for
its module under the components of the normal path.  These are the same unless a
`..` in the path takes a name away.  If one does, the text of the document is what
its symbols and the word at the cursor come from, while its module, and with it the
imports, is that of whatever the session shows at the normal path.
-/

namespace ElmNavigator

open Disk Syntax Text

/-- A `..` of the path takes away what stands in front of it. -/
def Path.StepsBack (p : Path) : Prop :=
  Component.parent ∈ p.components.drop 2

instance (p : Path) : Decidable p.StepsBack :=
  inferInstanceAs (Decidable (_ ∈ _))

theorem Definition.atPosition_found (files : Files Id) (p : Path) (text : String)
    (line column : Nat) (l : ModuleLookup) (ix : SymbolIndex) :
    (atPosition files p text line column l ix).1 =
      (wordAt? text line column).bind fun word =>
        (l.atPath files p).1.bind fun module =>
          (ofReference files module (Reference.ofWord word) (l.atPath files p).2 ix).1 := by
  rw [atPosition_eq]
  cases wordAt? text line column with
  | none => rfl
  | some word =>
      simp only [Option.bind_some]
      cases (l.atPath files p).1 with
      | none => rfl
      | some module => rfl

namespace Session

variable {uri : Uri} {p : Path} (h : FileUri.toPath? uri = some p) (disk : Files Id)
  (s : Session) (text : String)

include h

theorem overlay_openDocument :
    (s.openDocument uri text).overlay = s.overlay.open_ p text := by
  unfold openDocument
  rw [h]

theorem documentText_openDocument :
    (s.openDocument uri text).documentText disk uri = some text := by
  have htext : (s.openDocument uri text).overlay.text? p = some text := by
    rw [overlay_openDocument h, Overlay.text?_open, if_pos rfl]
  unfold documentText
  simp only [h, files, Overlay.view, htext]
  rfl

theorem documentSymbols_openDocument :
    (s.openDocument uri text).documentSymbols disk uri = Symbol.ofText uri text := by
  have htext := documentText_openDocument h disk s text
  unfold documentSymbols
  show (match (s.openDocument uri text).documentText disk uri with
    | some text => Symbol.ofText uri text
    | none => []) = _
  rw [htext]

theorem definition_openDocument (line column : Nat) :
    ((s.openDocument uri text).definition disk uri line column).1 =
      (Definition.atPosition ((s.openDocument uri text).files disk) p text line column
        (s.openDocument uri text).lookup (s.openDocument uri text).index).1 := by
  rw [definition_eq, h]
  simp only [documentText_openDocument h disk s text]

end Session

namespace Workbench

variable {uri : Uri} {p : Path}

/-- Opening a document changes what is shown at its normal path only if that path has the
components of the path as given. -/
theorem shown_opened (h : FileUri.toPath? uri = some p) (w : Workbench) (text : String) :
    (w.step (.opened uri text)).shown p.normalize =
      if p.StepsBack then w.shown p.normalize else .ok text := by
  have hkeys := Path.components_normalize_eq_iff (FileUri.isAbsolute_of_toPath? h)
  have htext : (w.step (.opened uri text)).session.overlay.text? p.normalize =
      if p.normalize.components = p.components then some text
      else w.session.overlay.text? p.normalize := by
    simp only [step]
    rw [Session.overlay_openDocument h, Overlay.text?_open]
  rw [shown_eq, htext]
  by_cases hback : p.StepsBack
  · rw [if_pos hback, if_neg (fun hsame => hkeys.mp hsame hback)]
    rfl
  · rw [if_neg hback, if_pos (hkeys.mpr hback)]

theorem outlineAt_opened (h : FileUri.toPath? uri = some p) (w : Workbench) (text : String) :
    (w.step (.opened uri text)).outlineAt p =
      if p.StepsBack then outlineIn? (w.shown p.normalize) else (parse text).toOption := by
  have hnames : (Event.opened uri text).Names p.normalize := ⟨p, h, rfl⟩
  have huncached := step_named hnames w
  have hshown := shown_opened h w text
  unfold shown at hshown
  unfold outlineAt
  rw [ModuleLookup.atPath_outline, huncached, Option.none_or, hshown]
  split
  · rfl
  · rfl

/-- Right after a document is opened, its symbols and the word at the cursor come from the text
that was opened, and so does its module, with its imports, exactly if no `..` takes a name away
from its path.  Otherwise the module is that of what the session had at the normal path before,
whatever the text. -/
theorem readers_after_open (w : Workbench) (h : FileUri.toPath? uri = some p) :
    (forall text,
      let opened := w.step (.opened uri text)
      opened.session.documentSymbols opened.disk uri = Symbol.ofText uri text ∧
        opened.outlineAt p =
          (if p.StepsBack then outlineIn? (w.shown p.normalize) else (parse text).toOption) ∧
        forall line column,
          (opened.session.definition opened.disk uri line column).1 =
            (wordAt? text line column).bind fun word =>
              (opened.outlineAt p).bind fun module =>
                (Definition.ofReference (opened.session.files opened.disk) module
                  (Reference.ofWord word)
                  (opened.session.lookup.atPath (opened.session.files opened.disk) p).2
                  opened.session.index).1) ∧
      ((forall text, (w.step (.opened uri text)).outlineAt p = (parse text).toOption) ↔
        ¬ p.StepsBack) := by
  constructor
  · intro text opened
    refine ⟨Session.documentSymbols_openDocument h w.disk w.session text,
      outlineAt_opened h w text, ?_⟩
    intro line column
    have hdefinition := Session.definition_openDocument h w.disk w.session text line column
    rw [Definition.atPosition_found] at hdefinition
    exact hdefinition
  · constructor
    · intro hall hback
      -- The module would be both that of an empty text and that of a module.
      have hnone := hall ""
      have hsome := hall "module A exposing (..)"
      rw [outlineAt_opened h, if_pos hback] at hnone hsome
      rw [hnone] at hsome
      cases hsome
    · intro hback text
      rw [outlineAt_opened h, if_neg hback]

/-- A `.` in the path and the text on disk make no difference. -/
theorem readers_after_open_here :
    let uri := Uri.mk "file:///w/./A.elm"
    let disk := (Tree.empty.write (Path.ofString "/w/A.elm")
      (.file (.text "module B exposing (..)\n"))).files
    let w := start disk (Path.ofString "/w") .default
    FileUri.toPath? uri = some (Path.ofString "/w/./A.elm") ∧
      forall text, (w.step (.opened uri text)).outlineAt (Path.ofString "/w/./A.elm") =
        (parse text).toOption := by
  intro uri disk w
  have h : FileUri.toPath? uri = some (Path.ofString "/w/./A.elm") := by decide +kernel
  exact ⟨h, (readers_after_open w h).right.mpr (by decide)⟩

/-- Behind a `..` the word at the cursor is one of the text that was opened, which has no imports,
and it is found in a module that the file on disk imports. -/
theorem readers_after_open_differ :
    let uri := Uri.mk "file:///w/x/../A.elm"
    let path := Path.ofString "/w/x/../A.elm"
    let disk := ((Tree.empty.write (Path.ofString "/w/A.elm")
        (.file (.text "module A exposing (..)\nimport B exposing (x)\n"))).write
      (Path.ofString "/w/B.elm") (.file (.text "module B exposing (..)\nx = z\n"))).files
    let text := "module A exposing (..)\ny = x\n"
    let w := (start disk (Path.ofString "/w") .default).step (.opened uri text)
    FileUri.toPath? uri = some path ∧
      ((w.session.documentSymbols disk uri).map fun s => s.name) = ["y", "A"] ∧
      (parse text).toOption.map (fun m => m.imports.length) = some 0 ∧
      (w.outlineAt path).map (fun m => m.imports.map (·.module)) = some ["B"] ∧
      ((w.session.definition disk uri 1 4).1.map fun s => (s.name, s.container)) =
        some ("x", "B") := by
  decide +kernel

end Workbench
end ElmNavigator
