import ElmNavigator.Proofs.Disk.PrunedListing
import ElmNavigator.Proofs.Workspace.IndexSources

/-!
# Excluded files in the index

Listings leave out the files that the settings exclude, so neither a scan nor the
search for a module brings one into the index, and new settings empty it.  But a file
that the session is told about is read without a look at the settings, once the
workspace has been scanned.  This is the only way for an excluded file to get in.
-/

namespace ElmNavigator

open Disk Syntax Text ElmNavigator.Path

namespace Disk

/-- The normal path of a file whose names below a root match an excluding pattern. -/
def Excludes (root : Path) (exclude : Option String) (p : Path) : Prop :=
  exists unwanted names, readExclude exclude = .ok unwanted ∧
    (forall name, name ∈ names -> IsName name) ∧ (pathBelow root names).normalize = p ∧
    excludesFile unwanted names = true

namespace Tree

theorem not_excludes_of_find {t : Tree} (h : t.WellFormed) {root : Path} {pattern : String}
    {exclude : Option String} {limit : Nat} {paths : List Path}
    (hfind : t.find root pattern exclude limit = .ok paths) {p : Path} (hp : p ∈ paths) :
    ¬ Excludes root exclude p.normalize := by
  intro hexcludes
  rcases hexcludes with ⟨unwanted, names, hexclude, hnames, hpath, hexcluded⟩
  rcases exists_item_of_find hfind hp with
    ⟨wanted, others, items, listed, _, hothers, hitems, hitem, hlisted, hbelow⟩
  rcases named_of_itemsUnder h hitems hitem with ⟨hroot, hnamed⟩
  have hsame : unwanted = others := by
    rw [hexclude] at hothers
    exact Except.ok.inj hothers
  rw [← hbelow] at hpath
  rw [hsame, normalize_pathBelow_injective hroot hnames hnamed hpath] at hexcluded
  simp [isListed, hexcluded] at hlisted

end Tree
end Disk

/-!
## Changes of the index
-/

namespace SymbolIndex

section Held

variable {files : Files Id} {told : Path -> Prop} {inAnyCase : Bool} {ix next : SymbolIndex}
  {p : Path} {r : ModuleSymbols}

theorem GroundedChange.held (h : GroundedChange files told inAnyCase ix next)
    (hr : next.byPath.get? p = some r) :
    (exists old, ix.byPath.get? p = some old) ∨
      exists q, q.normalize = p ∧
        (Offers files ix.root ix.exclude q ∨ (told q ∧ inAnyCase = true)) := by
  cases h with
  | @listed q text hoffers _ =>
      rw [get?_byPath_update] at hr
      split at hr
      · rename_i hp
        exact Or.inr ⟨q, hp.symm, Or.inl hoffers⟩
      · exact Or.inl ⟨r, hr⟩
  | @told q text htold hread _ =>
      rw [get?_byPath_update] at hr
      split at hr
      · rename_i hp
        rcases Bool.or_eq_true_iff.mp hread with hheld | hany
        · rcases Option.isSome_iff_exists.mp hheld with ⟨old, hold⟩
          exact Or.inl ⟨old, hp ▸ hold⟩
        · exact Or.inr ⟨q, hp.symm, Or.inr ⟨htold, hany⟩⟩
      · exact Or.inl ⟨r, hr⟩
  | forgotten q =>
      rw [get?_byPath_remove] at hr
      split at hr
      · cases hr
      · exact Or.inl ⟨r, hr⟩
  | cleared => exact Or.inl ⟨r, hr⟩
  | missed _ =>
      unfold addMissing at hr
      split at hr
      · exact Or.inl ⟨r, hr⟩
      · exact Or.inl ⟨r, hr⟩
  | scanned => exact Or.inl ⟨r, hr⟩

/-- A file in the index has been there before, or a listing has found it, or it was to be read
in any case. -/
theorem Grounded.held (h : Grounded files told inAnyCase ix next)
    (hr : next.byPath.get? p = some r) :
    (exists old, ix.byPath.get? p = some old) ∨
      exists q, q.normalize = p ∧
        (Offers files ix.root ix.exclude q ∨ (told q ∧ inAnyCase = true)) := by
  induction h generalizing r with
  | refl =>
      exact Or.inl ⟨r, hr⟩
  | tail hchanges hchange ih =>
      have hplace := Grounded.place hchanges
      rcases hchange.held hr with ⟨old, hold⟩ | ⟨q, hq, hsource⟩
      · exact ih hold
      · rw [hplace.1, hplace.2] at hsource
        exact Or.inr ⟨q, hq, hsource⟩

end Held

theorem distinct_evolves {ix last : SymbolIndex} (h : Table.Distinct ix.byPath)
    (hlast : Evolves ix last) : Table.Distinct last.byPath := by
  induction hlast with
  | refl => exact h
  | tail _ hchange ih =>
      cases hchange with
      | update p text => exact update_distinct ih p text
      | remove p => exact remove_distinct ih p
      | clearMissing => exact ih
      | addMissing name =>
          unfold addMissing
          split
          · exact ih
          · exact ih
      | scanned => exact ih
      | reconfigure settings =>
          unfold reconfigure
          split
          · exact ih
          · exact List.nodup_nil

theorem exists_record_of_mem_query {ix : SymbolIndex} (h : ix.Consistent)
    (hdistinct : Table.Distinct ix.byPath) {files : Files Id} {text : String} {s : Symbol}
    (hs : s ∈ (ix.query files text).1) :
    exists p r, (ix.query files text).2.byPath.get? p = some r ∧ s ∈ r.symbols := by
  have hnext := h.query files text
  have hdistinct' := distinct_evolves hdistinct (evolves_query files text ix)
  rw [query_eq] at hs hnext hdistinct' ⊢
  cases hparse : SymbolQuery.parse text with
  | qualified module name =>
      rw [hparse] at hs hnext
      simp only [named] at hs
      split at hs
      · rename_i r hr
        exact ⟨r.path, r, hnext.reachable module r hr, (List.mem_filter.mp hs).1⟩
      · cases hs
  | bare text =>
      rw [hparse] at hs hdistinct'
      rcases List.mem_flatMap.mp (List.mem_filter.mp hs).1 with ⟨r, hr, hsymbol⟩
      rcases List.mem_map.mp hr with ⟨⟨p, found⟩, hentry, hfound⟩
      subst hfound
      exact ⟨p, found, hdistinct'.mem_iff.mp hentry, hsymbol⟩

end SymbolIndex

/-!
## Histories
-/

namespace Workbench

open SymbolIndex

def OnTree (w : Workbench) : Prop :=
  exists t : Tree, t.WellFormed ∧ w.disk = t.files

/-- A history has told the session of a file that is there, at a time when the workspace had been
scanned and the same files were excluded as in the end. -/
def Announced (base : Workbench) (events : List Event) (p : Path) : Prop :=
  exists before batch after e, events = before ++ .filesChanged batch :: after ∧
    e ∈ batch ∧ e.change ≠ .deleted ∧ e.uri.Names p ∧
    (base.run before).session.index.scanned = true ∧
    (base.run before).session.settings.exclude? = (base.run events).session.settings.exclude?

theorem Announced.snoc {base : Workbench} {events : List Event} {p : Path}
    (h : base.Announced events p) {event : Event}
    (hexclude : (base.run (events ++ [event])).session.settings.exclude? =
      (base.run events).session.settings.exclude?) :
    base.Announced (events ++ [event]) p := by
  rcases h with ⟨before, batch, after, e, hevents, he, hchange, hnames, hscanned, hsame⟩
  refine ⟨before, batch, after ++ [event], e, ?_, he, hchange, hnames, hscanned, ?_⟩
  · rw [hevents]
    simp
  · rw [hsame, hexclude]

variable {w : Workbench} {root : Path} {event : Event} {p : Path} {r : ModuleSymbols}

theorem OnTree.not_excludes (h : w.OnTree) {exclude : Option String}
    (hoffers : Offers (w.session.files w.disk) root exclude p) :
    ¬ Excludes root exclude p.normalize := by
  rcases h with ⟨t, ht, hdisk⟩
  rcases hoffers with ⟨pattern, limit, paths, _, hfind, hp⟩
  rw [hdisk] at hfind
  exact Tree.not_excludes_of_find ht hfind hp

theorem held_step (htree : w.OnTree) (halign : w.Aligned root)
    (hsaves : forall uri text, event ≠ .saved uri text)
    (hsettings : forall settings, event ≠ .reconfigured settings)
    (hr : (w.step event).session.index.byPath.get? p = some r)
    (hexcluded : Excludes root w.session.settings.exclude? p) :
    (exists old, w.session.index.byPath.get? p = some old) ∨
      exists batch e, event = .filesChanged batch ∧ e ∈ batch ∧ e.change ≠ .deleted ∧
        e.uri.Names p ∧ w.session.index.scanned = true := by
  have hshown := Event.savesShown_of_ne hsaves (w.session.files w.disk)
  rcases (step_grounded hshown hsettings).held hr with hheld | ⟨q, hq, hoffers | ⟨htold, hany⟩⟩
  · exact Or.inl hheld
  · rw [halign.root_eq, halign.exclude_eq] at hoffers
    exact absurd (hq ▸ hexcluded) (htree.not_excludes hoffers)
  · cases event with
    | filesChanged batch =>
        rcases htold with ⟨e, he, hchange, hpath⟩
        exact Or.inr ⟨batch, e, rfl, he, hchange, ⟨q, hpath, hq⟩, hany⟩
    | saved uri text => exact absurd rfl (hsaves uri text)
    | _ => exact htold.elim

theorem OnTree.step (h : w.OnTree)
    (hdisk : forall disk, event = .diskChanged disk ->
      exists t : Tree, t.WellFormed ∧ disk = t.files) : (w.step event).OnTree := by
  cases event with
  | diskChanged disk => exact hdisk disk rfl
  | _ => exact h

/-- After a history, an excluded file is in the index only if the session has been told of it. -/
structure Guarded (base : Workbench) (root : Path) (events : List Event) : Prop where
  tree : (base.run events).OnTree
  aligned : (base.run events).Aligned root
  announced : forall p r, (base.run events).session.index.byPath.get? p = some r ->
    Excludes root (base.run events).session.settings.exclude? p -> base.Announced events p

theorem Guarded.snoc {base : Workbench} {events : List Event} (h : Guarded base root events)
    (hsaves : forall uri text, event ≠ .saved uri text)
    (hdisk : forall disk, event = .diskChanged disk ->
      exists t : Tree, t.WellFormed ∧ disk = t.files) :
    Guarded base root (events ++ [event]) := by
  have hrun : base.run (events ++ [event]) = (base.run events).step event := by
    rw [run_append]
    rfl
  have hshown := Event.savesShown_of_ne hsaves
    ((base.run events).session.files (base.run events).disk)
  refine ⟨hrun ▸ h.tree.step hdisk, hrun ▸ h.aligned.step hshown, ?_⟩
  intro p r hr hexcluded
  rw [hrun] at hr hexcluded
  rcases event.reconfigured_or with ⟨settings, hevent⟩ | hother
  · subst hevent
    rcases reconfigure_cases (base.run events).session.index settings with
      ⟨hsame, hexclude⟩ | hnew
    · have hkept : settings.exclude? = (base.run events).session.settings.exclude? :=
        hexclude.trans h.aligned.exclude_eq
      have hold : (base.run events).session.index.byPath.get? p = some r := hsame ▸ hr
      have hstill : Excludes root (base.run events).session.settings.exclude? p :=
        hkept ▸ hexcluded
      apply (h.announced p r hold hstill).snoc
      rw [hrun]
      exact hkept
    · have hnone : (new (base.run events).session.index.root settings).byPath.get? p =
          some r := hnew ▸ hr
      cases hnone
  · have hkept := step_settings hother (base.run events)
    rw [hkept] at hexcluded
    rcases held_step h.tree h.aligned hsaves hother hr hexcluded with
      ⟨old, hold⟩ | ⟨batch, e, hevent, he, hchange, hnames, hscanned⟩
    · apply (h.announced p old hold hexcluded).snoc
      rw [hrun, hkept]
    · refine ⟨events, batch, [], e, ?_, he, hchange, hnames, hscanned, ?_⟩
      · rw [hevent]
      · rw [hrun, hkept]

theorem guarded_run {t : Tree} (ht : t.WellFormed) (root : Path) (settings : Settings)
    {events : List Event} (hsaves : forall uri text, Event.saved uri text ∉ events)
    (hdisks : forall disk, Event.diskChanged disk ∈ events ->
      exists next : Tree, next.WellFormed ∧ disk = next.files) :
    Guarded (start t.files root settings) root events := by
  induction events using List.reverseRecOn with
  | nil =>
      refine ⟨⟨t, ht, rfl⟩, start_aligned t.files root settings, ?_⟩
      intro p r hr
      cases hr
  | append_singleton events event ih =>
      have hearlier := ih
        (fun uri text hmem => hsaves uri text (List.mem_append_left _ hmem))
        (fun disk hmem => hdisks disk (List.mem_append_left _ hmem))
      have hlast : event ∈ events ++ [event] := List.mem_append_right _ List.mem_cons_self
      apply hearlier.snoc
      · intro uri text hevent
        exact hsaves uri text (hevent ▸ hlast)
      · intro disk hevent
        exact hdisks disk (hevent ▸ hlast)

theorem run_evolves (w : Workbench) (events : List Event) :
    Evolves w.session.index (w.run events).session.index := by
  induction events generalizing w with
  | nil => exact Evolves.refl _
  | cons event events ih => exact (step_evolves w event).trans (ih (w.step event))

/-- A file that the session is told of after a scan is indexed, with no regard to the settings. -/
theorem held_of_told {e : FileEvent} (hchange : e.change ≠ .deleted)
    (hpath : FileUri.toPath? e.uri = some p) (hclosed : w.session.overlay.isOpen p = false)
    (hscanned : w.session.index.scanned = true)
    (hr : recordIn? p.normalize ((w.session.files w.disk).read p) = some r) :
    (w.step (.filesChanged [e])).session.index.byPath.get? p.normalize = some r := by
  cases htext : (w.session.files w.disk).read p with
  | error error =>
      rw [htext] at hr
      cases hr
  | ok text =>
      have hread : ((w.session.index.clearMissing.containsPath p ||
          w.session.index.clearMissing.scanned) && !w.session.overlay.isOpen p) = true := by
        have hstill : w.session.index.clearMissing.scanned = true := hscanned
        simp [hstill, hclosed]
      have hindex : (w.step (.filesChanged [e])).session.index =
          w.session.index.clearMissing.update p text := by
        show ({ w.session with index := w.session.index.clearMissing }.fileChanged
          w.disk e).index = _
        rw [Session.fileChanged_eq, hpath]
        simp only [if_neg hchange, if_pos hread]
        exact indexPath_of_read htext w.session.index.clearMissing
      rw [hindex, get?_byPath_update, if_pos rfl]
      rw [htext] at hr
      exact hr

/-- Without saved documents, an excluded file is in the index after a history only if the session
has been told that the file is there, after a scan under the exclusion that still holds, and only
then an answer has symbols of it.  When the session is told so, it does index the file. -/
theorem indexed_unexcluded {t : Tree} (ht : t.WellFormed) (root : Path) (settings : Settings)
    {events : List Event} (hsaves : forall uri text, Event.saved uri text ∉ events)
    (hdisks : forall disk, Event.diskChanged disk ∈ events ->
      exists next : Tree, next.WellFormed ∧ disk = next.files) :
    let base := start t.files root settings
    let w := base.run events
    (forall p r, w.session.index.byPath.get? p = some r ->
      Excludes root w.session.settings.exclude? p -> base.Announced events p) ∧
    (forall query s, s ∈ (w.session.workspaceSymbols w.disk query).1 ->
      exists p r, (w.session.workspaceSymbols w.disk query).2.index.byPath.get? p = some r ∧
        s ∈ r.symbols ∧ s.uri = FileUri.ofPath p ∧
        (Excludes root w.session.settings.exclude? p -> base.Announced events p)) ∧
    forall e p r, e.change ≠ .deleted -> FileUri.toPath? e.uri = some p ->
      w.session.overlay.isOpen p = false -> w.session.index.scanned = true ->
      recordIn? p.normalize ((w.session.files w.disk).read p) = some r ->
      (w.step (.filesChanged [e])).session.index.byPath.get? p.normalize = some r := by
  intro base w
  have hguarded : Guarded base root events := guarded_run ht root settings hsaves hdisks
  have hconsistent : w.session.index.Consistent :=
    ((start_sound t.files root settings).run events).index
  refine ⟨hguarded.announced, ?_, ?_⟩
  · intro query s hs
    have hempty : Table.Distinct base.session.index.byPath := List.nodup_nil
    have hdistinct := distinct_evolves hempty (run_evolves base events)
    rcases exists_record_of_mem_query hconsistent hdistinct hs with ⟨p, r, hr, hsymbol⟩
    have hnext := hconsistent.query (w.session.files w.disk) query
    refine ⟨p, r, hr, hsymbol, (hnext.describes p r hr).uri s hsymbol, ?_⟩
    intro hexcluded
    have hafter : (w.step (.workspaceSymbols query)).session.index.byPath.get? p = some r := hr
    have hheld := held_step hguarded.tree hguarded.aligned (by simp) (by simp) hafter hexcluded
    rcases hheld with ⟨old, hold⟩ | ⟨batch, e, hevent, _⟩
    · exact hguarded.announced p old hold hexcluded
    · cases hevent
  · intro e p r hchange hpath hclosed hscanned hr
    exact held_of_told hchange hpath hclosed hscanned hr

def withBuildDirectory : Tree :=
  { entries := [(Place.ofNames ["w"], .directory),
      (Place.ofNames ["w", "B.elm"],
        .file (.text "module B exposing (..)\n\nvalue = 1\n")),
      (Place.ofNames ["w", "elm-stuff"], .directory),
      (Place.ofNames ["w", "elm-stuff", "A.elm"],
        .file (.text "module A exposing (..)\n\nvalue = 1\n"))],
    workingDir := [] }

/-- A session that is told of the module only has nothing from the build directory. -/
theorem indexed_unexcluded_listed :
    let root := Path.ofString "/w"
    let changed : FileEvent := ⟨FileUri.ofPath (Path.ofString "/w/B.elm"), .changed⟩
    let events := [.workspaceSymbols "value", .filesChanged [changed], .workspaceSymbols "A:value"]
    let base := start withBuildDirectory.files root .default
    let w := base.run events
    withBuildDirectory.WellFormed ∧ w.session.index.byPath.length = 1 ∧
      forall p r, w.session.index.byPath.get? p = some r ->
        Excludes root w.session.settings.exclude? p -> base.Announced events p := by
  intro root changed events base w
  have hwell : withBuildDirectory.WellFormed := by
    decide +kernel
  refine ⟨hwell, by decide +kernel, ?_⟩
  apply (indexed_unexcluded hwell root .default _ _).1
  · intro uri text hmem
    simp [events] at hmem
  · intro disk hmem
    simp [events] at hmem

/-- A session that is told of the other one answers with what the settings exclude. -/
theorem indexed_though_excluded :
    let root := Path.ofString "/w"
    let p := Path.ofString "/w/elm-stuff/A.elm"
    let base := start withBuildDirectory.files root .default
    let w := base.run [.workspaceSymbols "value", .filesChanged [⟨FileUri.ofPath p, .changed⟩]]
    withBuildDirectory.WellFormed ∧ Excludes root w.session.settings.exclude? p ∧
      (w.session.index.byPath.get? p).isSome = true ∧
      ((base.session.workspaceSymbols base.disk "value").1.map fun s => (s.container, s.uri)) =
        [("B", FileUri.ofPath (Path.ofString "/w/B.elm"))] ∧
      ((w.session.workspaceSymbols w.disk "value").1.map fun s => (s.container, s.uri)) =
        [("A", FileUri.ofPath p), ("B", FileUri.ofPath (Path.ofString "/w/B.elm"))] := by
  intro root p base w
  have hexcluded : Excludes root w.session.settings.exclude? p := by
    have hdefault : w.session.settings.exclude? = some Settings.default.excludePattern := by
      decide +kernel
    rw [hdefault]
    refine ⟨some Tree.buildDirectories, Place.ofNames ["elm-stuff", "A.elm"],
      Tree.readExclude_default, ?_, ?_, ?_⟩
    · decide +kernel
    · decide +kernel
    · decide +kernel
  exact ⟨by decide +kernel, hexcluded, by decide +kernel, by decide +kernel, by decide +kernel⟩

end Workbench
end ElmNavigator
