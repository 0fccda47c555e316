import ElmNavigator.Proofs.Disk.ListingLimits
import ElmNavigator.Proofs.Disk.WorkspaceTree
import ElmNavigator.Proofs.Glob.ModuleFiles

/-!
# Files that a listing finds

In a workspace nothing stops a listing, so it finds the files that belong to it,
up to its limit.
-/

namespace ElmNavigator
namespace Disk

open ElmNavigator.Path

/-!
## Collecting
-/

theorem collect_files (root : Path) (wanted : Glob) (exclude : Option Glob)
    (files : List Place) (limit : Nat) :
    collect root wanted exclude limit (files.map .file) =
      .ok (((files.filter (isListed wanted exclude)).map (pathBelow root)).take limit) := by
  have hopen : forall names error, .closed names error ∈ files.map Item.file ->
      isPruned exclude (names ++ [anyName]) = true := by
    intro names error hclosed
    rcases List.mem_map.mp hclosed with ⟨other, _, hother⟩
    cases hother
  have hfiles : filesOf (files.map .file) = files := by
    simp [filesOf]
  rw [collect_of_open hopen, hfiles]

theorem isTooLong_of_checkPath {p : Path} (h : Tree.checkPath p = .ok ()) :
    Tree.isTooLong p = false := by
  unfold Tree.checkPath at h
  split at h
  · cases h
  · split at h
    · cases h
    · rename_i hlong
      simpa using hlong

namespace Tree

def filesBelow (t : Tree) (base : Place) : List Place :=
  t.entries.filterMap fun entry =>
    match base.isPrefixOf? entry.1, entry.2 with
    | some (name :: names), .file _ => some (name :: names)
    | _, _ => none

namespace Workspace

variable {t : Tree} {root : Path} {base : Place}

theorem itemsBelow_eq (h : t.Workspace root base) :
    t.itemsBelow root base = (t.filesBelow base).map .file := by
  unfold itemsBelow filesBelow
  rw [List.map_filterMap]
  apply List.filterMap_congr
  intro entry hentry
  rcases entry with ⟨place, node⟩
  cases hbegins : base.isPrefixOf? place with
  | none => rfl
  | some names =>
      cases names with
      | nil => rfl
      | cons name names =>
          have hplace := List.isPrefixOf?_eq_some_iff_append_eq.mp hbegins
          have hne : place ≠ [] := by
            rw [← hplace]
            simp
          have hnode := (h.wellFormed.sorted.mem_iff hne).mp hentry
          rw [← hplace] at hnode
          rcases h.plain _ _ hnode with ⟨hlink, haccessible⟩
          -- Neither the entry nor the directory that it is in has too long a path.
          have habove : Accessible root (name :: names).dropLast :=
            haccessible.of_prefix h.absolute (h.named hnode) (List.dropLast_prefix _)
          have hlong := isTooLong_of_checkPath haccessible.right
          have hlongAbove := isTooLong_of_checkPath habove.right
          cases node with
          | link target => exact absurd rfl (hlink target)
          | directory => simp [item?, hlong, hlongAbove]
          | file content => simp [item?, hlongAbove]

theorem mem_filesBelow (h : t.Workspace root base) {names : Place} :
    names ∈ t.filesBelow base ↔
      names ≠ [] ∧ exists content, t.node? (base ++ names) = some (.file content) := by
  unfold filesBelow
  rw [List.mem_filterMap]
  constructor
  · rintro ⟨⟨place, node⟩, hentry, hnames⟩
    cases hbegins : base.isPrefixOf? place with
    | none => simp [hbegins] at hnames
    | some below =>
        have hplace := List.isPrefixOf?_eq_some_iff_append_eq.mp hbegins
        cases below with
        | nil => simp [hbegins] at hnames
        | cons name rest =>
            have hne : place ≠ [] := by
              rw [← hplace]
              simp
            have hnode := (h.wellFormed.sorted.mem_iff hne).mp hentry
            cases node with
            | directory => simp [hbegins] at hnames
            | link target => simp [hbegins] at hnames
            | file content =>
                simp only [hbegins] at hnames
                injection hnames with hnames
                rw [← hplace] at hnode
                rw [← hnames]
                exact ⟨List.cons_ne_nil name rest, content, hnode⟩
  · rintro ⟨hne, content, hnode⟩
    have hplace : base ++ names ≠ [] := by
      simp [hne]
    refine ⟨(base ++ names, .file content),
      (h.wellFormed.sorted.mem_iff hplace).mpr hnode, ?_⟩
    have hbegins : base.isPrefixOf? (base ++ names) = some names :=
      List.isPrefixOf?_eq_some_iff_append_eq.mpr rfl
    simp only [hbegins]
    cases names with
    | nil => exact absurd rfl hne
    | cons name names => rfl

theorem find_eq (h : t.Workspace root base) {pattern : String} {exclude : Option String}
    {wanted : Glob} {unwanted : Option Glob} (hpattern : readPattern pattern = .ok wanted)
    (hexclude : readExclude exclude = .ok unwanted) (limit : Nat) :
    t.find root pattern exclude limit =
      .ok ((((t.filesBelow base).filter (isListed wanted unwanted)).map
        (pathBelow root)).take limit) := by
  have hitems : t.itemsUnder root = .ok ((t.filesBelow base).map .file) := by
    rw [h.itemsUnder_root, h.itemsBelow_eq]
  rw [find_of_collect hpattern hexclude hitems, collect_files]

end Workspace

/-!
## The module files of a workspace
-/

def listing (t : Tree) (root : Path) (exclude : Option String) : List Path :=
  match t.find root SymbolIndex.allFiles exclude t.entries.length with
  | .ok paths => paths
  | .error _ => []

theorem readPattern_eq {text : String} {glob : Glob} :
    readPattern text = .ok glob ↔ Glob.parse text = .ok glob := by
  unfold readPattern
  cases Glob.parse text with
  | ok parsed => simp
  | error e => simp

theorem readPattern_allFiles : readPattern SymbolIndex.allFiles = .ok Glob.allModules :=
  readPattern_eq.mpr Glob.parse_allFiles

theorem isListed_allModules_of_filePattern {name : String} {wanted : Glob}
    {unwanted : Option Glob} {names : Place}
    (hname : SymbolQuery.isModuleName name.toList = true)
    (hwanted : Glob.parse (SymbolIndex.filePattern name) = .ok wanted)
    (h : isListed wanted unwanted names = true) :
    isListed Glob.allModules unwanted names = true := by
  simp only [isListed, Bool.and_eq_true] at h ⊢
  exact ⟨h.left, Glob.isMatch_allModules_of_filePattern hname hwanted h.right⟩

theorem readExclude_of_find {t : Tree} {root : Path} {pattern : String}
    {exclude : Option String} {limit : Nat} {paths : List Path}
    (h : t.find root pattern exclude limit = .ok paths) :
    exists unwanted, readExclude exclude = .ok unwanted := by
  rcases readable_of_find h with ⟨_, unwanted, _, hexclude, _⟩
  exact ⟨unwanted, hexclude⟩

theorem readExclude_of_mem_listing {t : Tree} {root : Path} {exclude : Option String}
    {p : Path} (h : p ∈ t.listing root exclude) :
    exists unwanted, readExclude exclude = .ok unwanted := by
  unfold listing at h
  split at h
  · rename_i paths hfind
    exact readExclude_of_find hfind
  · cases h

namespace Workspace

variable {t : Tree} {root : Path} {base : Place} {exclude : Option String}
  {unwanted : Option Glob}

theorem listing_eq (h : t.Workspace root base)
    (hexclude : readExclude exclude = .ok unwanted) :
    t.listing root exclude =
      ((t.filesBelow base).filter (isListed Glob.allModules unwanted)).map
        (pathBelow root) := by
  unfold listing
  rw [h.find_eq readPattern_allFiles hexclude]
  apply List.take_of_length_le
  rw [List.length_map]
  exact (List.length_filter_le _ _).trans (List.length_filterMap_le _ _)

theorem mem_listing (h : t.Workspace root base)
    (hexclude : readExclude exclude = .ok unwanted) {p : Path} :
    p ∈ t.listing root exclude ↔
      exists names content, names ≠ [] ∧
        t.node? (base ++ names) = some (.file content) ∧
        isListed Glob.allModules unwanted names = true ∧ pathBelow root names = p := by
  rw [h.listing_eq hexclude, List.mem_map]
  constructor
  · rintro ⟨names, hnames, hp⟩
    rcases List.mem_filter.mp hnames with ⟨hmem, hlisted⟩
    rcases h.mem_filesBelow.mp hmem with ⟨hne, content, hnode⟩
    exact ⟨names, content, hne, hnode, hlisted, hp⟩
  · rintro ⟨names, content, hne, hnode, hlisted, hp⟩
    exact ⟨names, List.mem_filter.mpr ⟨h.mem_filesBelow.mpr ⟨hne, content, hnode⟩, hlisted⟩,
      hp⟩

theorem exists_file_of_mem_listing (h : t.Workspace root base) {p : Path}
    (hp : p ∈ t.listing root exclude) :
    exists names content, names ≠ [] ∧
      t.node? (base ++ names) = some (.file content) ∧ pathBelow root names = p := by
  rcases readExclude_of_mem_listing hp with ⟨unwanted, hexclude⟩
  rcases (h.mem_listing hexclude).mp hp with ⟨names, content, hne, hnode, _, hpath⟩
  exact ⟨names, content, hne, hnode, hpath⟩

theorem exists_read_of_mem_listing (h : t.Workspace root base) {p : Path}
    (hp : p ∈ t.listing root exclude) :
    exists content : Content, t.read p = content.read := by
  rcases h.exists_file_of_mem_listing hp with ⟨names, content, _, hnode, hpath⟩
  rw [← hpath]
  exact ⟨content, h.read_pathBelow hnode⟩

theorem normalize_of_mem_listing (h : t.Workspace root base) {p : Path}
    (hp : p ∈ t.listing root exclude) : p.normalize = p := by
  rcases h.exists_file_of_mem_listing hp with ⟨names, content, _, hnode, hpath⟩
  rw [← hpath]
  exact normalize_pathBelow h.root_ne_nil h.normal (h.named hnode)

theorem isAbsolute_of_mem_listing (h : t.Workspace root base) {p : Path}
    (hp : p ∈ t.listing root exclude) : p.isAbsolute = true := by
  rcases h.exists_file_of_mem_listing hp with ⟨names, content, _, _, hpath⟩
  rw [← hpath]
  exact isAbsolute_pathBelow h.absolute names

theorem find_allFiles (h : t.Workspace root base)
    (hexclude : readExclude exclude = .ok unwanted) {limit : Nat}
    (hlimit : (t.listing root exclude).length ≤ limit) :
    t.find root SymbolIndex.allFiles exclude limit = .ok (t.listing root exclude) := by
  rw [h.listing_eq hexclude] at hlimit ⊢
  rw [h.find_eq readPattern_allFiles hexclude, List.take_of_length_le hlimit]

theorem mem_listing_of_find (h : t.Workspace root base) {name : String}
    (hname : SymbolQuery.isModuleName name.toList = true) {limit : Nat}
    {paths : List Path}
    (hfind : t.find root (SymbolIndex.filePattern name) exclude limit = .ok paths)
    {p : Path} (hp : p ∈ paths) : p ∈ t.listing root exclude := by
  rcases readExclude_of_find hfind with ⟨unwanted, hexclude⟩
  rcases Glob.parse_filePattern hname with ⟨front, hparse⟩
  rw [h.find_eq (readPattern_eq.mpr hparse) hexclude] at hfind
  rw [← Except.ok.inj hfind] at hp
  rcases List.mem_map.mp (List.mem_of_mem_take hp) with ⟨names, hnames, hpath⟩
  rcases List.mem_filter.mp hnames with ⟨hmem, hlisted⟩
  rw [h.listing_eq hexclude, List.mem_map]
  have hmodule := isListed_allModules_of_filePattern hname hparse hlisted
  exact ⟨names, List.mem_filter.mpr ⟨hmem, hmodule⟩, hpath⟩

end Workspace
end Tree
end Disk
end ElmNavigator
