import ElmNavigator.Proofs.Disk.ListedFiles
import ElmNavigator.Proofs.Workspace.IndexConsistency

/-!
# Indexes that track a disk

After a scan the index has a record for each module file of the workspace that
holds a module, and for nothing else.  Looking for a single module on demand
keeps it so, since the file that is found is one of these files.
-/

namespace ElmNavigator

open Disk Syntax

namespace SymbolIndex

def recordIn? (p : Path) : Except AccessError String -> Option ModuleSymbols
  | .ok text => recordOf? p text
  | .error _ => none

/-- The record that a path has in a workspace. -/
def recordAt (t : Tree) (root : Path) (exclude : Option String) (p : Path) :
    Option ModuleSymbols :=
  if p ∈ t.listing root exclude then recordIn? p (t.read p) else none

/-- A scanned index has the records of a workspace. -/
structure Tracks (ix : SymbolIndex) (t : Tree) (root : Path) (exclude : Option String) :
    Prop where
  root_eq : ix.root = root
  exclude_eq : ix.exclude = exclude
  scanned : ix.scanned = true
  distinct : Table.Distinct ix.byPath
  current : forall p, ix.byPath.get? p = recordAt t root exclude p

/-!
## Records after a change
-/

/-- What a scan looks for, and whether there has been one. -/
def SameSetup (ix next : SymbolIndex) : Prop :=
  next.root = ix.root ∧ next.exclude = ix.exclude ∧ next.scanned = ix.scanned

theorem SameSetup.trans {ix next last : SymbolIndex} (h : SameSetup ix next)
    (hlast : SameSetup next last) : SameSetup ix last :=
  ⟨hlast.left.trans h.left, hlast.right.left.trans h.right.left,
    hlast.right.right.trans h.right.right⟩

theorem remove_setup (ix : SymbolIndex) (p : Path) : SameSetup ix (ix.remove p) := by
  simp only [remove]
  cases ix.clearMissing.record? p with
  | none => exact ⟨rfl, rfl, rfl⟩
  | some old => exact ⟨rfl, rfl, rfl⟩

theorem update_setup (ix : SymbolIndex) (p : Path) (text : String) :
    SameSetup ix (ix.update p text) := by
  have hremove := ix.remove_setup p.normalize
  simp only [update]
  cases recordOf? p.normalize text with
  | none => exact hremove
  | some r => exact hremove

theorem remove_distinct {ix : SymbolIndex} (h : Table.Distinct ix.byPath) (p : Path) :
    Table.Distinct (ix.remove p).byPath := by
  simp only [remove]
  cases ix.clearMissing.record? p with
  | none => exact h
  | some old => exact h.erase p.normalize

theorem update_distinct {ix : SymbolIndex} (h : Table.Distinct ix.byPath) (p : Path)
    (text : String) : Table.Distinct (ix.update p text).byPath := by
  have hremove := remove_distinct h p.normalize
  simp only [update]
  cases recordOf? p.normalize text with
  | none => exact hremove
  | some r => exact hremove.insert r.path r

theorem get?_byPath_update (ix : SymbolIndex) (p : Path) (text : String) (other : Path) :
    (ix.update p text).byPath.get? other =
      if other = p.normalize then recordOf? p.normalize text
      else ix.byPath.get? other := by
  have hremove := get?_byPath_remove ix p.normalize other
  rw [Path.normalize_normalize] at hremove
  simp only [update]
  cases hrecord : recordOf? p.normalize text with
  | none =>
      rw [hremove]
  | some r =>
      have hpath : r.path = p.normalize := (recordOf?_describes hrecord).path_eq
      have hadd : ((ix.remove p.normalize).add r).byPath.get? other =
          if other = r.path then some r else (ix.remove p.normalize).byPath.get? other :=
        Table.get?_insert _ r.path r other
      rw [hadd, hremove, hpath]
      split <;> rfl

theorem Tracks.change {ix last : SymbolIndex} {t next : Tree} {root : Path}
    {exclude : Option String} (h : ix.Tracks t root exclude)
    (hsetup : SameSetup ix last) (hdistinct : Table.Distinct last.byPath) {p : Path}
    (hget : forall q, last.byPath.get? q =
      if q = p then recordAt next root exclude p else ix.byPath.get? q)
    (hothers : forall q, q ≠ p ->
      recordAt next root exclude q = recordAt t root exclude q) :
    last.Tracks next root exclude := by
  rcases hsetup with ⟨hroot, hexclude, hscanned⟩
  constructor
  case root_eq => rw [hroot, h.root_eq]
  case exclude_eq => rw [hexclude, h.exclude_eq]
  case scanned => rw [hscanned, h.scanned]
  case distinct => exact hdistinct
  case current =>
    intro q
    rw [hget]
    by_cases hq : q = p
    · rw [if_pos hq, hq]
    · rw [if_neg hq, h.current, hothers q hq]

theorem Tracks.update {ix : SymbolIndex} {t next : Tree} {root : Path}
    {exclude : Option String} (h : ix.Tracks t root exclude) {p : Path} {text : String}
    (hp : p.normalize = p) (hrecord : recordAt next root exclude p = recordOf? p text)
    (hothers : forall q, q ≠ p ->
      recordAt next root exclude q = recordAt t root exclude q) :
    (ix.update p text).Tracks next root exclude := by
  apply h.change (ix.update_setup p text) (update_distinct h.distinct p text) _ hothers
  intro q
  rw [get?_byPath_update, hp, hrecord]

theorem Tracks.remove {ix : SymbolIndex} {t next : Tree} {root : Path}
    {exclude : Option String} (h : ix.Tracks t root exclude) {p : Path}
    (hp : p.normalize = p) (hrecord : recordAt next root exclude p = none)
    (hothers : forall q, q ≠ p ->
      recordAt next root exclude q = recordAt t root exclude q) :
    (ix.remove p).Tracks next root exclude := by
  apply h.change (ix.remove_setup p) (remove_distinct h.distinct p) _ hothers
  intro q
  rw [get?_byPath_remove, hp, hrecord]

theorem Tracks.addMissing {ix : SymbolIndex} {t : Tree} {root : Path}
    {exclude : Option String} (h : ix.Tracks t root exclude) (name : String) :
    (ix.addMissing name).Tracks t root exclude := by
  unfold SymbolIndex.addMissing
  split
  · exact h
  · exact ⟨h.root_eq, h.exclude_eq, h.scanned, h.distinct, h.current⟩

theorem Tracks.clearMissing {ix : SymbolIndex} {t : Tree} {root : Path}
    {exclude : Option String} (h : ix.Tracks t root exclude) :
    ix.clearMissing.Tracks t root exclude :=
  ⟨h.root_eq, h.exclude_eq, h.scanned, h.distinct, h.current⟩

theorem Tracks.startingWith_perm {ix other : SymbolIndex} {t : Tree} {root : Path}
    {exclude : Option String} (h : ix.Tracks t root exclude)
    (hother : other.Tracks t root exclude) (text : String) :
    (ix.startingWith text).Perm (other.startingWith text) := by
  have hsame : forall p, ix.byPath.get? p = other.byPath.get? p := by
    intro p
    rw [h.current, hother.current]
  have hrecords := (h.distinct.perm hother.distinct hsame).map Prod.snd
  exact (hrecords.flatMap_right _).filter _

/-!
## Scans
-/

theorem scanFiles_cons (t : Tree) (p : Path) (ps : List Path) (ix : SymbolIndex) :
    scanFiles t.files (p :: ps) ix =
      match t.read p with
      | .ok text => scanFiles t.files ps (ix.update p text)
      | .error .notUtf8 => scanFiles t.files ps (ix.remove p)
      | .error _ => ix :=
  rfl

theorem scanFiles_keeps {P : SymbolIndex -> Prop}
    (hupdate : forall ix p text, P ix -> P (ix.update p text))
    (hremove : forall ix p, P ix -> P (ix.remove p)) (t : Tree) (paths : List Path)
    {ix : SymbolIndex} (h : P ix) : P (scanFiles t.files paths ix) := by
  induction paths generalizing ix with
  | nil =>
      exact h
  | cons p ps ih =>
      rw [scanFiles_cons]
      split
      · exact ih (hupdate ix p _ h)
      · exact ih (hremove ix p h)
      · exact h

theorem scanFiles_setup (t : Tree) (paths : List Path) (ix : SymbolIndex) :
    SameSetup ix (scanFiles t.files paths ix) := by
  apply scanFiles_keeps
  · exact fun next p text hnext => hnext.trans (next.update_setup p text)
  · exact fun next p hnext => hnext.trans (next.remove_setup p)
  · exact ⟨rfl, rfl, rfl⟩

theorem get?_byPath_scanFiles {t : Tree} {paths : List Path}
    (hnormal : forall p, p ∈ paths -> p.normalize = p)
    (hread : forall p, p ∈ paths -> exists content : Content, t.read p = content.read)
    (ix : SymbolIndex) (q : Path) :
    (scanFiles t.files paths ix).byPath.get? q =
      if q ∈ paths then recordIn? q (t.read q) else ix.byPath.get? q := by
  induction paths generalizing ix with
  | nil =>
      rfl
  | cons p ps ih =>
      have hp := hnormal p List.mem_cons_self
      have hrest := ih (fun r hr => hnormal r (List.mem_cons_of_mem p hr))
        (fun r hr => hread r (List.mem_cons_of_mem p hr))
      -- Whatever `p` holds, it has the record of what is read there before the others follow.
      have hfirst : exists next : SymbolIndex,
          scanFiles t.files (p :: ps) ix = scanFiles t.files ps next ∧
          next.byPath.get? q =
            if q = p then recordIn? p (t.read p) else ix.byPath.get? q := by
        rcases hread p List.mem_cons_self with ⟨content, hcontent⟩
        rw [scanFiles_cons, hcontent]
        cases content with
        | text s =>
            refine ⟨ix.update p s, rfl, ?_⟩
            rw [get?_byPath_update, hp]
            rfl
        | binary =>
            refine ⟨ix.remove p, rfl, ?_⟩
            rw [get?_byPath_remove, hp]
            rfl
      rcases hfirst with ⟨next, hscan, hnext⟩
      rw [hscan, hrest, hnext]
      by_cases hq : q = p
      · simp [hq]
      · simp [hq]

theorem fullScan_eq (files : Files Id) (ix : SymbolIndex) :
    ix.fullScan files =
      match files.find ix.root allFiles ix.exclude ix.maxFiles with
      | .error _ => { ix with scanned := true }
      | .ok paths => scanFiles files paths { ix with scanned := true } :=
  rfl

theorem fullScan_new_tracks {t : Tree} {root : Path} {base : Place}
    (h : t.Workspace root base) {settings : Settings}
    (hlimit : (t.listing root settings.exclude?).length ≤ settings.maxFiles) :
    ((new root settings).fullScan t.files).Tracks t root settings.exclude? := by
  let start : SymbolIndex := { new root settings with scanned := true }
  have hfind : t.files.find root allFiles settings.exclude? settings.maxFiles =
      t.find root allFiles settings.exclude? settings.maxFiles := rfl
  rw [fullScan_eq]
  simp only [new]
  rw [hfind]
  cases hexclude : readExclude settings.exclude? with
  | error e =>
      -- Without a pattern to exclude files by, there is nothing to list.
      have hnone : forall p, ¬ p ∈ t.listing root settings.exclude? := by
        intro p hp
        rcases Tree.readExclude_of_mem_listing hp with ⟨unwanted, hok⟩
        rw [hexclude] at hok
        cases hok
      cases hfind : t.find root allFiles settings.exclude? settings.maxFiles with
      | error e =>
          refine ⟨rfl, rfl, rfl, List.nodup_nil, ?_⟩
          intro p
          unfold recordAt
          rw [if_neg (hnone p)]
          rfl
      | ok paths =>
          rcases Tree.readExclude_of_find hfind with ⟨unwanted, hok⟩
          rw [hexclude] at hok
          cases hok
  | ok unwanted =>
      rw [h.find_allFiles hexclude hlimit]
      show (scanFiles t.files (t.listing root settings.exclude?) start).Tracks t root
        settings.exclude?
      rcases scanFiles_setup t (t.listing root settings.exclude?) start with
        ⟨hroot, hsame, hscanned⟩
      refine ⟨hroot, hsame, hscanned, ?_, ?_⟩
      · apply scanFiles_keeps (P := fun ix => Table.Distinct ix.byPath)
        · exact fun ix p text hix => update_distinct hix p text
        · exact fun ix p hix => remove_distinct hix p
        · exact List.nodup_nil
      · intro p
        exact get?_byPath_scanFiles (fun q => h.normalize_of_mem_listing)
          (fun q => h.exists_read_of_mem_listing) start p

/-!
## Queries
-/

theorem isModuleName_of_parse {text module name : String}
    (h : SymbolQuery.parse text = .qualified module name) :
    SymbolQuery.isModuleName module.toList = true := by
  unfold SymbolQuery.parse at h
  split at h
  · split at h
    · rename_i hname
      injection h with hmodule
      rw [← hmodule, String.toList_ofList]
      exact hname
    · cases h
  · cases h

theorem indexPath_eq (files : Files Id) (p : Path) (ix : SymbolIndex) :
    ix.indexPath files p =
      match files.read p with
      | .ok text => (true, ix.update p text)
      | .error _ => (false, ix) :=
  rfl

theorem indexModule_eq (files : Files Id) (name : String) (ix : SymbolIndex) :
    ix.indexModule files name =
      match files.find ix.root (filePattern name) ix.exclude 2 with
      | .error _ => (false, ix)
      | .ok [p] =>
          ((ix.indexPath files p).1,
            if (ix.indexPath files p).1 then (ix.indexPath files p).2
            else (ix.indexPath files p).2.addMissing name)
      | .ok _ => (false, ix.addMissing name) :=
  rfl

theorem query_eq (files : Files Id) (text : String) (ix : SymbolIndex) :
    ix.query files text =
      match SymbolQuery.parse text with
      | .qualified module name =>
          let next := if ix.byModule.has module || ix.missing.contains module then ix
            else (ix.indexModule files module).2
          (next.named module name, next)
      | .bare text =>
          let next := if ix.scanned then ix else ix.fullScan files
          (next.startingWith text, next) := by
  unfold query ensureModule ensureScanned
  cases SymbolQuery.parse text with
  | qualified module name => rfl
  | bare text => rfl

section Queries

variable {ix : SymbolIndex} {t : Tree} {root : Path} {base : Place}
  {exclude : Option String}

theorem Tracks.update_listed (h : ix.Tracks t root exclude) (hw : t.Workspace root base)
    {p : Path} {text : String} (hp : p ∈ t.listing root exclude)
    (hread : t.read p = .ok text) : (ix.update p text).Tracks t root exclude := by
  apply h.update (hw.normalize_of_mem_listing hp)
  · unfold recordAt
    rw [if_pos hp, hread]
    rfl
  · intro q _
    rfl

theorem Tracks.indexModule (h : ix.Tracks t root exclude) (hw : t.Workspace root base)
    {name : String} (hname : SymbolQuery.isModuleName name.toList = true) :
    (ix.indexModule t.files name).2.Tracks t root exclude := by
  have hfiles (pattern : String) :
      t.files.find root pattern exclude 2 = t.find root pattern exclude 2 := rfl
  rw [indexModule_eq, h.root_eq, h.exclude_eq, hfiles]
  split
  · exact h
  · rename_i p hfind
    rw [indexPath_eq]
    cases hread : t.files.read p with
    | ok text =>
        exact h.update_listed hw
          (hw.mem_listing_of_find hname hfind List.mem_cons_self) hread
    | error e =>
        exact h.addMissing name
  · exact h.addMissing name

theorem Tracks.query (h : ix.Tracks t root exclude) (hw : t.Workspace root base)
    (text : String) : (ix.query t.files text).2.Tracks t root exclude := by
  rw [query_eq]
  cases hparse : SymbolQuery.parse text with
  | qualified module name =>
      simp only
      split
      · exact h
      · exact h.indexModule hw (isModuleName_of_parse hparse)
  | bare text =>
      simp only [h.scanned, if_true]
      exact h

end Queries

/-!
## Changes of the disk
-/

section Changes

variable {t next : Tree} {root : Path} {base names : Place} {exclude : Option String}

theorem mem_listing_of_same_files (h : t.Workspace root base)
    (hnext : next.Workspace root base) {q : Path}
    (hsame : forall others content, pathBelow root others = q ->
      t.node? (base ++ others) = some (.file content) ->
      next.node? (base ++ others) = some (.file content))
    (hq : q ∈ t.listing root exclude) :
    q ∈ next.listing root exclude ∧ next.read q = t.read q := by
  rcases Tree.readExclude_of_mem_listing hq with ⟨unwanted, hexclude⟩
  rcases (h.mem_listing hexclude).mp hq with
    ⟨others, content, hne, hnode, hlisted, hpath⟩
  have hnode' := hsame others content hpath hnode
  constructor
  · exact (hnext.mem_listing hexclude).mpr
      ⟨others, content, hne, hnode', hlisted, hpath⟩
  · rw [← hpath, hnext.read_pathBelow hnode', h.read_pathBelow hnode]

theorem recordAt_congr (h : t.Workspace root base) (hnext : next.Workspace root base)
    {q : Path} (hsame : forall others content, pathBelow root others = q ->
      (next.node? (base ++ others) = some (.file content) ↔
        t.node? (base ++ others) = some (.file content))) :
    recordAt next root exclude q = recordAt t root exclude q := by
  have hthere (hq : q ∈ t.listing root exclude) :=
    mem_listing_of_same_files h hnext
      (fun others content hpath => (hsame others content hpath).mpr) hq
  have hback (hq : q ∈ next.listing root exclude) :=
    mem_listing_of_same_files hnext h
      (fun others content hpath => (hsame others content hpath).mp) hq
  unfold recordAt
  by_cases hq : q ∈ t.listing root exclude
  · rcases hthere hq with ⟨hlisted, hread⟩
    rw [if_pos hq, if_pos hlisted, hread]
  · rw [if_neg hq, if_neg fun hlisted => hq (hback hlisted).left]

theorem recordAt_write (h : t.Workspace root base) (ha : t.Accepts root base names)
    {text : String}
    (hlisted : pathBelow root names ∈
      (t.write (pathBelow root names) (.file (.text text))).listing root exclude) :
    recordAt (t.write (pathBelow root names) (.file (.text text))) root exclude
      (pathBelow root names) = recordOf? (pathBelow root names) text := by
  have hnode := (h.file_write_iff ha (.text text) names (.text text)).mpr
    (by rw [if_pos rfl])
  unfold recordAt
  rw [if_pos hlisted, (h.write ha (.text text)).read_pathBelow hnode]
  rfl

theorem recordAt_write_other (h : t.Workspace root base)
    (ha : t.Accepts root base names) (content : Content) {q : Path}
    (hq : q ≠ pathBelow root names) :
    recordAt (t.write (pathBelow root names) (.file content)) root exclude q =
      recordAt t root exclude q := by
  apply recordAt_congr h (h.write ha content)
  intro others other hpath
  rw [h.file_write_iff ha, if_neg]
  intro hothers
  rw [hothers] at hpath
  exact hq hpath.symm

theorem recordAt_delete (h : t.Workspace root base) {content : Content}
    (hempty : names ≠ []) (hnode : t.node? (base ++ names) = some (.file content)) :
    recordAt (t.delete (pathBelow root names)) root exclude (pathBelow root names) =
      none := by
  unfold recordAt
  rw [if_neg]
  intro hlisted
  rcases Tree.readExclude_of_mem_listing hlisted with ⟨unwanted, hexclude⟩
  rcases ((h.delete hempty hnode).mem_listing hexclude).mp hlisted with
    ⟨others, other, _, hother, _, hpath⟩
  rcases (h.file_delete_iff hempty hnode others other).mp hother with ⟨hne, hold⟩
  exact hne (pathBelow_injective h.root_ne_nil (h.named hold) (h.named hnode) hpath)

theorem recordAt_delete_other (h : t.Workspace root base) {content : Content}
    (hempty : names ≠ []) (hnode : t.node? (base ++ names) = some (.file content))
    {q : Path} (hq : q ≠ pathBelow root names) :
    recordAt (t.delete (pathBelow root names)) root exclude q =
      recordAt t root exclude q := by
  apply recordAt_congr h (h.delete hempty hnode)
  intro others other hpath
  rw [h.file_delete_iff hempty hnode]
  constructor
  · exact fun hother => hother.right
  · intro hother
    refine ⟨?_, hother⟩
    intro hothers
    rw [hothers] at hpath
    exact hq hpath.symm

end Changes
end SymbolIndex
end ElmNavigator
