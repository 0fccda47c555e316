import ElmNavigator.Proofs.Disk.ListedFiles
import ElmNavigator.Proofs.Glob.Subtrees

/-!
# Listings and the directories they leave out

A listing is described by the files under a path: those that match one pattern
and not the other, in order.  The walk leaves out whole directories, after trying
the excluding pattern on a single name in them.  So it finds what the description
says exactly if everything in such a directory is excluded, and this is so for
patterns that end in two stars.
-/

namespace ElmNavigator
namespace Disk

theorem Item.file_injective : Function.Injective Item.file := by
  intro names others h
  injection h

theorem exists_map_file {items : List Item}
    (h : forall item, item ∈ items -> exists names, item = .file names) :
    exists files : List Place, items = files.map .file := by
  induction items with
  | nil =>
      exact ⟨[], rfl⟩
  | cons item items ih =>
      rcases h item List.mem_cons_self with ⟨names, hnames⟩
      rcases ih fun other hother => h other (List.mem_cons_of_mem item hother) with
        ⟨files, hfiles⟩
      exact ⟨names :: files, by rw [hnames, hfiles]; rfl⟩

namespace Tree

open ElmNavigator.Path

/-!
## Files under a path
-/

/-- The regular files under a path, by their names below it.  The path may itself be a file. -/
inductive FileUnder (t : Tree) (root : Path) : Place -> Prop where
  | self {place : Place} {content : Content} :
      t.resolveSelf root = .ok place -> t.node? place = some (.file content) ->
      FileUnder t root []
  | below {base names : Place} {content : Content} :
      t.resolve root = .ok base -> names ≠ [] ->
      t.node? (base ++ names) = some (.file content) ->
      FileUnder t root names

/-- Nothing stops the walk through all that is under a path. -/
def WalksFreely (t : Tree) (root : Path) : Prop :=
  exists items, t.itemsUnder root = .ok items ∧
    forall item, item ∈ items -> exists names, item = .file names

theorem checkPath_of_resolveSelf {t : Tree} {p : Path} {place : Place}
    (h : t.resolveSelf p = .ok place) : checkPath p = .ok () := by
  unfold resolveSelf at h
  cases hcheck : checkPath p with
  | ok => rfl
  | error e =>
      rw [hcheck] at h
      cases h

theorem resolve_of_resolveSelf {t : Tree} {p : Path} {place : Place}
    (h : t.resolveSelf p = .ok place)
    (hlink : forall target, t.node? place ≠ some (.link target)) :
    t.resolve p = .ok place := by
  have hcheck := checkPath_of_resolveSelf h
  have hresolve : t.resolve p =
      t.resolveFrom linkLimit (startOf t.workingDir p) (pieces p) := by
    unfold resolve
    rw [hcheck]
    rfl
  unfold resolveSelf at h
  rw [hcheck] at h
  rcases List.eq_nil_or_concat (pieces p) with hnil | ⟨front, last, hpieces⟩
  · rw [hnil] at h
    rw [hresolve, hnil, ← h]
    exact (Leads.done _).resolveFrom (Nat.zero_le linkLimit)
  · rw [List.concat_eq_append] at hpieces
    rw [hpieces, List.getLast?_concat, List.dropLast_concat] at h
    by_cases hdots : isDots last = true
    · simpa [bind, Except.bind, hdots] using h
    · have hname : isDots last = false := by simpa using hdots
      cases habove : t.resolveFrom linkLimit (startOf t.workingDir p) front with
      | error e =>
          simp [bind, Except.bind, hname, habove] at h
      | ok above =>
          rcases leads_of_resolveFrom habove with ⟨links, hlinks, hleads⟩
          simp only [bind, Except.bind, hname, habove, Bool.false_eq_true, if_false] at h
          split at h
          · cases h
          · rename_i hdirectory
            split at h
            · cases h
            · rename_i hsize
              cases hnode : t.node? (above ++ [last]) with
              | none => simp [hnode] at h
              | some node =>
                  simp only [hnode, Option.isNone_some, Bool.false_eq_true, if_false] at h
                  injection h with hplace
                  subst hplace
                  have henter : Leads t 0 above [last] (above ++ [last]) :=
                    Leads.enter (not_not.mp hdirectory) hname (Nat.le_of_not_lt hsize) hnode
                      (fun target heq => hlink target (heq ▸ hnode)) (Leads.done _)
                  rw [hresolve, hpieces]
                  exact (hleads.append henter).resolveFrom hlinks

/-!
## What is met below a place
-/

theorem mem_itemsBelow {t : Tree} (h : t.WellFormed) {root : Path} {base : Place}
    {item : Item} :
    item ∈ t.itemsBelow root base ↔
      exists names node, names ≠ [] ∧ t.node? (base ++ names) = some node ∧
        item? root names node = some item := by
  unfold itemsBelow
  rw [List.mem_filterMap]
  constructor
  · rintro ⟨⟨place, node⟩, hentry, hitem⟩
    cases hbegins : base.isPrefixOf? place with
    | none => simp [hbegins] at hitem
    | some names =>
        have hplace := List.isPrefixOf?_eq_some_iff_append_eq.mp hbegins
        cases names with
        | nil => simp [hbegins] at hitem
        | cons name names =>
            have hne : place ≠ [] := by
              rw [← hplace]
              simp
            have hnode := (h.sorted.mem_iff hne).mp hentry
            rw [← hplace] at hnode
            simp only [hbegins] at hitem
            exact ⟨name :: names, node, List.cons_ne_nil name names, hnode, hitem⟩
  · rintro ⟨names, node, hne, hnode, hitem⟩
    have hplace : base ++ names ≠ [] := by
      simp [hne]
    refine ⟨(base ++ names, node), (h.sorted.mem_iff hplace).mpr hnode, ?_⟩
    have hbegins : base.isPrefixOf? (base ++ names) = some names :=
      List.isPrefixOf?_eq_some_iff_append_eq.mpr rfl
    cases names with
    | nil => exact absurd rfl hne
    | cons name names => simpa [hbegins] using hitem

theorem isTooLong_of_open {t : Tree} (h : t.WellFormed) {root : Path} {base : Place}
    (hroot : isTooLong root = false)
    (hopen : forall item, item ∈ t.itemsBelow root base -> exists names, item = .file names)
    {names : Place} (hnode : t.node? (base ++ names) = some .directory) :
    isTooLong (pathBelow root names) = false := by
  induction names using List.reverseRecOn with
  | nil =>
      exact hroot
  | append_singleton names name ih =>
      rw [← List.append_assoc] at hnode
      have habove := ih (h.nested _ _ _ hnode)
      apply Bool.eq_false_iff.mpr
      intro hlong
      have hitem : Item.closed (names ++ [name]) .nameTooLong ∈ t.itemsBelow root base := by
        rw [mem_itemsBelow h]
        refine ⟨names ++ [name], .directory, by simp, by rw [← List.append_assoc, hnode], ?_⟩
        simp [item?, habove, hlong]
      rcases hopen _ hitem with ⟨others, hothers⟩
      cases hothers

theorem file_of_item {root : Path} {names others : Place} {node : Node}
    (h : item? root names node = some (.file others)) :
    names = others ∧ exists content, node = .file content := by
  cases node with
  | link target => cases h
  | directory =>
      simp only [item?] at h
      split at h
      · cases h
      · split at h
        · cases h
        · cases h
  | file content =>
      simp only [item?] at h
      split at h
      · cases h
      · injection h with h
        injection h with hnames
        exact ⟨hnames, content, rfl⟩

theorem file_mem_itemsBelow {t : Tree} (h : t.WellFormed) {root : Path} {base : Place}
    (hroot : isTooLong root = false)
    (hopen : forall item, item ∈ t.itemsBelow root base -> exists names, item = .file names)
    {names : Place} :
    Item.file names ∈ t.itemsBelow root base ↔
      names ≠ [] ∧ exists content, t.node? (base ++ names) = some (.file content) := by
  rw [mem_itemsBelow h]
  constructor
  · rintro ⟨others, node, hne, hnode, hitem⟩
    rcases file_of_item hitem with ⟨hnames, content, hfile⟩
    subst hnames hfile
    exact ⟨hne, content, hnode⟩
  · rintro ⟨hne, content, hnode⟩
    refine ⟨names, .file content, hne, hnode, ?_⟩
    have habove : isTooLong (pathBelow root names.dropLast) = false := by
      apply isTooLong_of_open h hroot hopen
      have hsplit := List.dropLast_append_getLast hne
      rw [← hsplit, ← List.append_assoc] at hnode
      exact h.nested _ _ _ hnode
    simp [item?, habove]

theorem lt_of_append_lt {front a b : Place} (h : front ++ a < front ++ b) : a < b := by
  induction front with
  | nil => exact h
  | cons name front ih =>
      rcases List.cons_lt_cons_iff.mp h with hlt | ⟨_, hrest⟩
      · exact absurd hlt (List.lt_irrefl name)
      · exact ih hrest

theorem place_of_item {root : Path} {base place names : Place} {node : Node}
    (h : (match base.isPrefixOf? place with
      | some (name :: names) => item? root (name :: names) node
      | _ => none) = some (.file names)) : place = base ++ names := by
  split at h
  · rename_i name rest hbegins
    have hplace := List.isPrefixOf?_eq_some_iff_append_eq.mp hbegins
    rw [← hplace, (file_of_item h).left]
  · cases h

theorem files_sorted {t : Tree} (h : t.WellFormed) {root : Path} {base : Place}
    {files : List Place} (hfiles : t.itemsBelow root base = files.map .file) :
    files.Pairwise (· < ·) := by
  have hitems : (files.map Item.file).Pairwise fun a b =>
      forall names others, a = .file names -> b = .file others -> names < others := by
    rw [← hfiles]
    unfold itemsBelow
    rw [List.pairwise_filterMap]
    apply h.sorted.imp
    rintro ⟨place, node⟩ ⟨other, otherNode⟩ hlt item hitem second hsecond names others
      hnames hothers
    subst hnames hothers
    rw [place_of_item hitem, place_of_item hsecond] at hlt
    exact lt_of_append_lt hlt
  rw [List.pairwise_map] at hitems
  exact hitems.imp fun hlt => hlt _ _ rfl rfl

theorem files_of_directory {t : Tree} (h : t.WellFormed) {root : Path}
    {self base : Place} (hself : t.resolveSelf root = .ok self)
    (hfile : forall content, t.node? self ≠ some (.file content))
    (hbase : t.resolve root = .ok base) {files : List Place}
    (hfiles : t.itemsBelow root base = files.map .file) :
    files.Pairwise (· < ·) ∧ forall names, names ∈ files ↔ t.FileUnder root names := by
  have hroot := isTooLong_of_checkPath (checkPath_of_resolveSelf hself)
  have hopen : forall item, item ∈ t.itemsBelow root base ->
      exists names, item = .file names := by
    intro item hitem
    rw [hfiles] at hitem
    rcases List.mem_map.mp hitem with ⟨names, _, hnames⟩
    exact ⟨names, hnames.symm⟩
  refine ⟨files_sorted h hfiles, ?_⟩
  intro names
  have hmem : Item.file names ∈ t.itemsBelow root base ↔ _ :=
    file_mem_itemsBelow h hroot hopen
  rw [hfiles, List.mem_map_of_injective Item.file_injective] at hmem
  rw [hmem]
  constructor
  · rintro ⟨hne, content, hnode⟩
    exact FileUnder.below hbase hne hnode
  · intro hunder
    cases hunder with
    | self hplace hnode =>
        rw [hself] at hplace
        injection hplace with hplace
        exact absurd (hplace ▸ hnode) (hfile _)
    | below hplace hne hnode =>
        rw [hbase] at hplace
        injection hplace with hplace
        exact ⟨hne, _, hplace ▸ hnode⟩

theorem fileUnder_self {t : Tree} (h : t.WellFormed) {root : Path} {self : Place}
    {content : Content} (hself : t.resolveSelf root = .ok self)
    (hnode : t.node? self = some (.file content)) (names : Place) :
    t.FileUnder root names ↔ names = [] := by
  constructor
  · intro hunder
    cases hunder with
    | self _ _ => rfl
    | below hbase hne hfile =>
        have hresolve := resolve_of_resolveSelf hself (by simp [hnode])
        rw [hbase] at hresolve
        injection hresolve with hplace
        rw [hplace] at hfile
        rw [h.directory hne hfile] at hnode
        cases hnode
  · intro hnames
    rw [hnames]
    exact FileUnder.self hself hnode

theorem not_fileUnder_of_link {t : Tree} (h : t.WellFormed) {root : Path}
    {self base : Place} {target : Path} (hself : t.resolveSelf root = .ok self)
    (hlink : t.node? self = some (.link target)) (hbase : t.resolve root = .ok base)
    (hdirectory : t.node? base ≠ some .directory) (names : Place) :
    ¬ t.FileUnder root names := by
  intro hunder
  cases hunder with
  | self hplace hnode =>
      rw [hself] at hplace
      injection hplace with hplace
      rw [← hplace, hlink] at hnode
      cases hnode
  | below hplace hne hnode =>
      rw [hbase] at hplace
      injection hplace with hplace
      rw [← hplace] at hnode
      exact hdirectory (h.directory hne hnode)

theorem exists_files {t : Tree} (h : t.WellFormed) {root : Path}
    (hwalk : t.WalksFreely root) :
    exists files : List Place, t.itemsUnder root = .ok (files.map .file) ∧
      files.Pairwise (· < ·) ∧ forall names, names ∈ files ↔ t.FileUnder root names := by
  rcases hwalk with ⟨items, hitems, hopen⟩
  rcases exists_map_file hopen with ⟨files, hfiles⟩
  subst hfiles
  refine ⟨files, hitems, ?_⟩
  unfold itemsUnder at hitems
  cases hself : t.resolveSelf root with
  | error e =>
      rw [hself] at hitems
      cases hitems
  | ok self =>
      rw [hself] at hitems
      simp only [bind, Except.bind] at hitems
      cases hnode : t.node? self with
      | none =>
          have hbase := resolve_of_resolveSelf hself (by simp [hnode])
          rw [hnode] at hitems
          exact files_of_directory h hself (by simp [hnode]) hbase (Except.ok.inj hitems)
      | some node =>
          rw [hnode] at hitems
          cases node with
          | directory =>
              have hbase := resolve_of_resolveSelf hself (by simp [hnode])
              exact files_of_directory h hself (by simp [hnode]) hbase (Except.ok.inj hitems)
          | file content =>
              have hsingle : files = [[]] := by
                apply List.map_injective_iff.mpr Item.file_injective
                exact (Except.ok.inj hitems).symm
              refine ⟨by simp [hsingle], ?_⟩
              intro names
              rw [fileUnder_self h hself hnode, hsingle, List.mem_singleton]
          | link target =>
              cases hbase : t.resolve root with
              | error e => simp [hbase] at hitems
              | ok base =>
                  simp only [hbase] at hitems
                  have hitems := Except.ok.inj hitems
                  split at hitems
                  · exact files_of_directory h hself (by simp [hnode]) hbase hitems
                  · rename_i hdirectory
                    have hnone : files = [] := List.map_eq_nil_iff.mp hitems.symm
                    refine ⟨by simp [hnone], ?_⟩
                    intro names
                    have hunder := not_fileUnder_of_link h hself hnode hbase hdirectory names
                    simp [hnone, hunder]

/-!
## What a listing finds
-/

theorem find_of_items {t : Tree} {root : Path} {files : List Place}
    (hfiles : t.itemsUnder root = .ok (files.map .file)) {pattern : String}
    {exclude : Option String} {wanted : Glob} {unwanted : Option Glob}
    (hpattern : readPattern pattern = .ok wanted)
    (hexclude : readExclude exclude = .ok unwanted) (limit : Nat) :
    t.find root pattern exclude limit =
      .ok (((files.filter (isListed wanted unwanted)).map (pathBelow root)).take limit) := by
  rw [find_of_collect hpattern hexclude hfiles, collect_files]

theorem exists_file_of_collect {root : Path} {wanted : Glob} {unwanted : Option Glob}
    {limit : Nat} {items : List Item} {paths : List Path}
    (h : collect root wanted unwanted limit items = .ok paths) {p : Path} (hp : p ∈ paths) :
    exists names, .file names ∈ items ∧ isListed wanted unwanted names = true ∧
      pathBelow root names = p := by
  induction items generalizing limit paths with
  | nil =>
      rw [collect_nil] at h
      rw [← Except.ok.inj h] at hp
      cases hp
  | cons item items ih =>
      have hrest {limit : Nat} {rest : List Path}
          (hcollect : collect root wanted unwanted limit items = .ok rest) (hmem : p ∈ rest) :
          exists names, .file names ∈ item :: items ∧ isListed wanted unwanted names = true ∧
            pathBelow root names = p := by
        rcases ih hcollect hmem with ⟨names, hnames, hlisted⟩
        exact ⟨names, List.mem_cons_of_mem item hnames, hlisted⟩
      cases limit with
      | zero =>
          rw [← Except.ok.inj h] at hp
          cases hp
      | succ limit =>
          rcases collect_cases h with hskipped | ⟨names, rest, hitem, hlisted, hcollect, hpaths⟩
          · rw [collect_skipped hskipped] at h
            exact hrest h hp
          · rw [hpaths] at hp
            rcases List.mem_cons.mp hp with hfirst | hlater
            · exact ⟨names, hitem ▸ List.mem_cons_self, hlisted, hfirst.symm⟩
            · exact hrest hcollect hlater

theorem named_of_itemsBelow {t : Tree} (h : t.WellFormed) {root : Path} {base names : Place}
    (hitem : Item.file names ∈ t.itemsBelow root base) :
    forall name, name ∈ names -> IsName name := by
  rcases (mem_itemsBelow h).mp hitem with ⟨others, node, _, hnode, hothers⟩
  rcases file_of_item hothers with ⟨hnames, _⟩
  subst hnames
  exact fun name hname => h.named _ _ hnode name (List.mem_append_right base hname)

theorem named_of_itemsUnder {t : Tree} (h : t.WellFormed) {root : Path} {items : List Item}
    (hitems : t.itemsUnder root = .ok items) {names : Place} (hitem : .file names ∈ items) :
    root.bytes ≠ [] ∧ forall name, name ∈ names -> IsName name := by
  unfold itemsUnder at hitems
  cases hself : t.resolveSelf root with
  | error e =>
      rw [hself] at hitems
      cases hitems
  | ok self =>
      have hroot : root.bytes ≠ [] := by
        intro hempty
        have hcheck := checkPath_of_resolveSelf hself
        unfold checkPath at hcheck
        simp [hempty, isTooLong] at hcheck
      rw [hself] at hitems
      simp only [bind, Except.bind] at hitems
      refine ⟨hroot, ?_⟩
      split at hitems
      · rw [← Except.ok.inj hitems, List.mem_singleton] at hitem
        injection hitem with hnames
        simp [hnames]
      · cases hbase : t.resolve root with
        | error e =>
            rw [hbase] at hitems
            cases hitems
        | ok base =>
            rw [hbase] at hitems
            simp only at hitems
            rw [← Except.ok.inj hitems] at hitem
            split at hitem
            · exact named_of_itemsBelow h hitem
            · cases hitem
      · rw [← Except.ok.inj hitems] at hitem
        exact named_of_itemsBelow h hitem

theorem exists_item_of_find {t : Tree} {root : Path} {pattern : String}
    {exclude : Option String} {limit : Nat} {paths : List Path}
    (h : t.find root pattern exclude limit = .ok paths) {p : Path} (hp : p ∈ paths) :
    exists wanted unwanted items names, readPattern pattern = .ok wanted ∧
      readExclude exclude = .ok unwanted ∧ t.itemsUnder root = .ok items ∧
      .file names ∈ items ∧ isListed wanted unwanted names = true ∧
      pathBelow root names = p := by
  rcases readable_of_find h with ⟨wanted, unwanted, hpattern, hexclude, hnone | ⟨items, hitems⟩⟩
  · rw [hnone, find_zero hpattern hexclude] at h
    rw [← Except.ok.inj h] at hp
    cases hp
  · rw [find_of_collect hpattern hexclude hitems] at h
    rcases exists_file_of_collect h hp with ⟨names, hitem, hlisted, hbelow⟩
    exact ⟨wanted, unwanted, items, names, hpattern, hexclude, hitems, hitem, hlisted, hbelow⟩

/-- The files that a listing is described by: they match one pattern and not the other. -/
def isDescribed (wanted : Glob) (exclude : Option Glob) (names : Place) : Bool :=
  wanted.isMatch (relativeText names) && !excludesFile exclude names

theorem isListed_eq (wanted : Glob) (exclude : Option Glob) (names : Place) :
    isListed wanted exclude names =
      (isDescribed wanted exclude names && !isPruned exclude names) := by
  unfold isListed isDescribed
  cases isPruned exclude names with
  | true => simp
  | false => simp [Bool.and_comm]

theorem isDescribed_of_isListed {wanted : Glob} {exclude : Option Glob} (names : Place)
    (h : isListed wanted exclude names = true) : isDescribed wanted exclude names = true := by
  rw [isListed_eq, Bool.and_eq_true] at h
  exact h.left

/-- Files in directories that are left out are excluded themselves. -/
def PrunesExcluded (exclude : Option Glob) (files : List Place) : Prop :=
  forall names, names ∈ files -> isPruned exclude names = true ->
    excludesFile exclude names = true

theorem PrunesExcluded.filter_eq {exclude : Option Glob} {files : List Place}
    (h : PrunesExcluded exclude files) (wanted : Glob) :
    files.filter (isListed wanted exclude) = files.filter (isDescribed wanted exclude) := by
  apply List.filter_congr
  intro names hnames
  rw [isListed_eq]
  cases hpruned : isPruned exclude names with
  | false => simp
  | true => simp [isDescribed, h names hnames hpruned]

theorem prunesExcluded_of_endsBelow {exclude : Option Glob}
    (h : forall glob, exclude = some glob -> glob.EndsBelow) (files : List Place) :
    PrunesExcluded exclude files := by
  intro names _ hpruned
  cases exclude with
  | none =>
      rcases isPruned_iff.mp hpruned with ⟨_, _, _, _, _, hexcludes⟩
      cases hexcludes
  | some glob => exact excludesFile_of_isPruned (h glob rfl) hpruned

/-- A pattern of two stars matches everything, so it shows all that is left out. -/
theorem prunesExcluded_of_find {t : Tree} {root : Path} {exclude : Option String}
    {unwanted : Option Glob} (hexclude : readExclude exclude = .ok unwanted)
    {files : List Place} (hfiles : t.itemsUnder root = .ok (files.map .file))
    (h : forall pattern wanted limit, readPattern pattern = .ok wanted ->
      t.find root pattern exclude limit =
        .ok (((files.filter (isDescribed wanted unwanted)).map (pathBelow root)).take limit)) :
    PrunesExcluded unwanted files := by
  have hpattern : readPattern "**" = .ok { parts := [.anyPrefix] } := rfl
  have hfind := h "**" _ files.length hpattern
  rw [find_of_items hfiles hpattern hexclude] at hfind
  have hpaths := Except.ok.inj hfind
  have hlength (p : Place -> Bool) :
      ((files.filter p).map (pathBelow root)).length ≤ files.length := by
    rw [List.length_map]
    exact List.length_filter_le p files
  rw [List.take_of_length_le (hlength _), List.take_of_length_le (hlength _)] at hpaths
  have hsame : files.filter (isListed { parts := [.anyPrefix] } unwanted) =
      files.filter (isDescribed { parts := [.anyPrefix] } unwanted) := by
    apply (List.monotone_filter_right files isDescribed_of_isListed).eq_of_length
    simpa using congrArg List.length hpaths
  intro names hnames hpruned
  cases hexcluded : excludesFile unwanted names with
  | true => rfl
  | false =>
      have hmem : names ∈ files.filter (isListed { parts := [.anyPrefix] } unwanted) := by
        rw [hsame]
        apply List.mem_filter.mpr
        exact ⟨hnames, by simp [isDescribed, hexcluded, Glob.isMatch]⟩
      have hlisted := (List.mem_filter.mp hmem).right
      rw [isListed_eq, hpruned] at hlisted
      simp at hlisted

/-- A listing finds the described files that are in no directory it leaves out.  These are all
described files, whatever is looked for, exactly if the files in such directories are excluded
themselves.  Without an excluding pattern, or with one that ends in two stars, they are. -/
theorem find_described_iff {t : Tree} (h : t.WellFormed) {root : Path}
    (hwalk : t.WalksFreely root) {exclude : Option String} {unwanted : Option Glob}
    (hexclude : readExclude exclude = .ok unwanted) :
    exists files : List Place,
      files.Pairwise (· < ·) ∧ (forall names, names ∈ files ↔ t.FileUnder root names) ∧
        (forall pattern wanted limit, readPattern pattern = .ok wanted ->
          t.find root pattern exclude limit =
            .ok (((files.filter fun names => isDescribed wanted unwanted names &&
              !isPruned unwanted names).map (pathBelow root)).take limit)) ∧
        ((forall pattern wanted limit, readPattern pattern = .ok wanted ->
          t.find root pattern exclude limit =
            .ok (((files.filter (isDescribed wanted unwanted)).map
              (pathBelow root)).take limit)) ↔
          PrunesExcluded unwanted files) ∧
        ((forall glob, unwanted = some glob -> glob.EndsBelow) ->
          PrunesExcluded unwanted files) := by
  rcases exists_files h hwalk with ⟨files, hfiles, hsorted, hmem⟩
  refine ⟨files, hsorted, hmem, ?_, ⟨?_, ?_⟩, fun hbelow => prunesExcluded_of_endsBelow hbelow files⟩
  · intro pattern wanted limit hpattern
    rw [find_of_items hfiles hpattern hexclude, funext (isListed_eq wanted unwanted)]
  · exact prunesExcluded_of_find hexclude hfiles
  · intro hprunes pattern wanted limit hpattern
    rw [find_of_items hfiles hpattern hexclude, hprunes.filter_eq]

/-- The pattern of build directories, which is excluded by default. -/
def buildDirectories : Glob :=
  { parts := [.anyPrefix, .alternatives ["node_modules".toList.map .literal,
      "elm-stuff".toList.map .literal], .anySuffix] }

theorem readExclude_default :
    readExclude (some Settings.default.excludePattern) = .ok (some buildDirectories) :=
  rfl

theorem buildDirectories_endsBelow : buildDirectories.EndsBelow :=
  ⟨[.anyPrefix, .alternatives ["node_modules".toList.map .literal,
    "elm-stuff".toList.map .literal]], rfl⟩

def oneGenerated : Tree :=
  { entries := [(Place.ofNames ["w"], .directory), (Place.ofNames ["w", "gen"], .directory),
      (Place.ofNames ["w", "gen", "ab.elm"], .file (.text ""))],
    workingDir := [] }

theorem walksFreely_oneGenerated : oneGenerated.WalksFreely (Path.ofString "/w") := by
  refine ⟨[.file (Place.ofNames ["gen", "ab.elm"])], by decide +kernel, ?_⟩
  intro item hitem
  exact ⟨_, List.mem_singleton.mp hitem⟩

theorem find_described_iff_default :
    oneGenerated.WellFormed ∧ oneGenerated.WalksFreely (Path.ofString "/w") ∧
      readExclude (some Settings.default.excludePattern) = .ok (some buildDirectories) ∧
      exists files : List Place, files.Pairwise (· < ·) ∧
        (forall names, names ∈ files ↔ oneGenerated.FileUnder (Path.ofString "/w") names) ∧
        forall pattern wanted limit, readPattern pattern = .ok wanted ->
          oneGenerated.find (Path.ofString "/w") pattern
              (some Settings.default.excludePattern) limit =
            .ok (((files.filter (isDescribed wanted (some buildDirectories))).map
              (pathBelow (Path.ofString "/w"))).take limit) := by
  have hwell : oneGenerated.WellFormed := by
    decide +kernel
  refine ⟨hwell, walksFreely_oneGenerated, readExclude_default, ?_⟩
  rcases find_described_iff hwell walksFreely_oneGenerated readExclude_default with
    ⟨files, hsorted, hmem, _, hiff, hbelow⟩
  refine ⟨files, hsorted, hmem, hiff.mpr (hbelow ?_)⟩
  intro glob hglob
  injection hglob with hglob
  rw [← hglob]
  exact buildDirectories_endsBelow

/-- A pattern for short names leaves out a whole directory, and with it a file that it does not
match. -/
theorem find_omits_described :
    oneGenerated.WellFormed ∧ oneGenerated.WalksFreely (Path.ofString "/w") ∧
      oneGenerated.FileUnder (Path.ofString "/w") (Place.ofNames ["gen", "ab.elm"]) ∧
      readPattern "**/*.elm" = .ok Glob.allModules ∧
      readExclude (some "gen/?") = .ok (some ⟨"gen/".toList.map .literal ++ [.any]⟩) ∧
      isDescribed Glob.allModules (some ⟨"gen/".toList.map .literal ++ [.any]⟩)
        (Place.ofNames ["gen", "ab.elm"]) = true ∧
      oneGenerated.find (Path.ofString "/w") "**/*.elm" (some "gen/?") 10 = .ok [] := by
  have hbase : oneGenerated.resolve (Path.ofString "/w") = .ok (Place.ofNames ["w"]) := by
    decide +kernel
  have hfile : oneGenerated.node? (Place.ofNames ["w"] ++ Place.ofNames ["gen", "ab.elm"]) =
      some (.file (.text "")) := by
    decide +kernel
  exact ⟨by decide +kernel, walksFreely_oneGenerated, FileUnder.below hbase (by decide) hfile,
    readPattern_allFiles, rfl, by decide +kernel, by decide +kernel⟩

end Tree
end Disk
end ElmNavigator
