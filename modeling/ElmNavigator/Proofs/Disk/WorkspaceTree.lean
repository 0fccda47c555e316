import Mathlib.Data.List.Infix
import ElmNavigator.Proofs.Disk.PathsBelow
import ElmNavigator.Proofs.Disk.Resolution

/-!
# Workspaces on a disk

A workspace is a directory with nothing but directories and files in it, all of
them within the limits of the operating system.  Its path may lead there through
links.  A file in it is read by its path, and writing or deleting a file changes
that file only, apart from the directories that are made for it.
-/

namespace ElmNavigator
namespace Disk

open Text ElmNavigator.Path

def Content.read : Content -> Except AccessError String
  | .text s => .ok s
  | .binary => .error .notUtf8

namespace Tree

/-- Names below a path that the operating system takes. -/
def Accessible (root : Path) (names : Place) : Prop :=
  (forall name, name ∈ names -> name.length ≤ nameLimit) ∧
    checkPath (pathBelow root names) = .ok ()

instance (root : Path) (names : Place) : Decidable (Accessible root names) :=
  inferInstanceAs (Decidable (_ ∧ _))

theorem Accessible.of_prefix {root : Path} {front names : Place}
    (h : Accessible root names) (hroot : root.isAbsolute = true)
    (hnames : forall name, name ∈ names -> IsName name) (hfront : front <+: names) :
    Accessible root front := by
  rcases hfront with ⟨rest, hrest⟩
  subst hrest
  have hright : forall name, name ∈ rest -> IsName name := fun name hname =>
    hnames name (List.mem_append_right front hname)
  constructor
  · exact fun name hname => h.left name (List.mem_append_left rest hname)
  · exact checkPath_of_pathBelow hright
      (bytes_ne_nil (isAbsolute_pathBelow hroot front)) h.right

/-- A path leads to a directory that holds plain directories and files. -/
structure Workspace (t : Tree) (root : Path) (base : Place) : Prop where
  wellFormed : t.WellFormed
  absolute : root.isAbsolute = true
  normal : root.normalize = root
  reached : t.resolve root = .ok base
  directory : t.node? base = some .directory
  plain : forall names node, t.node? (base ++ names) = some node ->
    (forall target, node ≠ .link target) ∧ Accessible root names

namespace Workspace

variable {t : Tree} {root : Path} {base : Place}

theorem named (h : t.Workspace root base) {names : Place} {node : Node}
    (hnode : t.node? (base ++ names) = some node) :
    forall name, name ∈ names -> IsName name := fun name hname =>
  h.wellFormed.named _ _ hnode name (List.mem_append_right base hname)

theorem root_ne_nil (h : t.Workspace root base) : root.bytes ≠ [] :=
  bytes_ne_nil h.absolute

/-!
## Looking up
-/

theorem resolve_eq {p : Path} (hp : p.isAbsolute = true) (t : Tree) :
    t.resolve p =
      (checkPath p).bind fun _ => t.resolveFrom linkLimit [] (pieces p) := by
  have hstart : startOf t.workingDir p = [] := by
    unfold startOf
    rw [if_pos hp]
  unfold resolve
  rw [hstart]
  rfl

theorem leads_root (h : t.Workspace root base) :
    checkPath root = .ok () ∧
      exists links, links ≤ linkLimit ∧ Leads t links [] (pieces root) base := by
  have hreached := h.reached
  rw [resolve_eq h.absolute] at hreached
  cases hcheck : checkPath root with
  | error e =>
      rw [hcheck] at hreached
      cases hreached
  | ok =>
      rw [hcheck] at hreached
      exact ⟨rfl, leads_of_resolveFrom hreached⟩

theorem exists_leads (h : t.Workspace root base) :
    exists links front, links ≤ linkLimit ∧ Leads t links [] front base ∧
      forall names, names ≠ [] -> (forall name, name ∈ names -> IsName name) ->
        pieces (pathBelow root names) = front ++ names := by
  rcases h.leads_root with ⟨_hcheck, links, hlinks, hleads⟩
  rcases exists_pieces_pathBelow h.absolute with ⟨front, hfront, hnames⟩
  rcases hfront with heq | heq
  · rw [heq] at hleads
    exact ⟨links, front, hlinks, hleads, hnames⟩
  · rw [heq] at hleads
    rcases hleads.split with ⟨first, second, middle, hsum, hleft, hright⟩
    -- The empty piece behind the last slash leads nowhere else.
    have hmiddle : middle = base := by
      cases hright with
      | stay _ _ hrest =>
          cases hrest
          rfl
      | enter _ hname _ _ _ _ => cases hname
      | follow _ hname _ _ _ => cases hname
    rw [hmiddle] at hleft
    exact ⟨first, front, by omega, hleft, hnames⟩

theorem resolve_pathBelow (h : t.Workspace root base) {names : Place} {node : Node}
    (hnode : t.node? (base ++ names) = some node) :
    t.resolve (pathBelow root names) = .ok (base ++ names) := by
  by_cases hempty : names = []
  · rw [hempty, List.append_nil]
    exact h.reached
  · have hnamed := h.named hnode
    rcases h.plain names node hnode with ⟨hlink, hshort, hcheck⟩
    rcases h.exists_leads with ⟨links, front, hlinks, hleads, hpieces⟩
    have hbelow := h.wellFormed.leads hnode hlink hshort
    have hresolve := (hleads.append hbelow).resolveFrom hlinks
    rw [resolve_eq (isAbsolute_pathBelow h.absolute names), hcheck,
      hpieces names hempty hnamed]
    exact hresolve

theorem read_pathBelow (h : t.Workspace root base) {names : Place} {content : Content}
    (hnode : t.node? (base ++ names) = some (.file content)) :
    t.read (pathBelow root names) = content.read := by
  unfold Tree.read
  rw [h.resolve_pathBelow hnode]
  simp only [bind, Except.bind, hnode]
  cases content with
  | text s => rfl
  | binary => rfl

theorem resolveSelf_eq {p : Path} {front : List (List UInt8)} {last : List UInt8}
    {above : Place} {node : Node} (hp : p.isAbsolute = true)
    (hcheck : checkPath p = .ok ()) (hpieces : pieces p = front ++ [last])
    (hlast : isDots last = false) (hsize : last.length ≤ nameLimit)
    (habove : t.resolveFrom linkLimit [] front = .ok above)
    (hdirectory : t.node? above = some .directory)
    (hnode : t.node? (above ++ [last]) = some node) :
    t.resolveSelf p = .ok (above ++ [last]) := by
  have hstart : startOf t.workingDir p = [] := by
    unfold startOf
    rw [if_pos hp]
  unfold resolveSelf
  rw [hcheck, hpieces, List.getLast?_concat, List.dropLast_concat, hstart, habove]
  show (if isDots last = true then t.resolve p
    else if t.node? above ≠ some .directory then .error .notADirectory
    else if nameLimit < last.length then .error .nameTooLong
    else if (t.node? (above ++ [last])).isNone = true then .error .notFound
    else .ok (above ++ [last])) = _
  rw [hlast, if_neg Bool.false_ne_true, if_neg (not_not.mpr hdirectory),
    if_neg (Nat.not_lt.mpr hsize), hnode, if_neg (by simp)]

theorem resolveSelf_pathBelow (h : t.Workspace root base) {names : Place} {node : Node}
    (hempty : names ≠ []) (hnode : t.node? (base ++ names) = some node) :
    t.resolveSelf (pathBelow root names) = .ok (base ++ names) := by
  have hnamed := h.named hnode
  rcases h.plain names node hnode with ⟨_hlink, hshort, hcheck⟩
  rcases h.exists_leads with ⟨links, front, hlinks, hleads, hpieces⟩
  have hall := hpieces names hempty hnamed
  rcases List.eq_nil_or_concat names with hnil | ⟨init, last, hnames⟩
  · exact absurd hnil hempty
  · rw [List.concat_eq_append] at hnames
    subst hnames
    rw [← List.append_assoc] at hnode hall ⊢
    have hinit : t.node? (base ++ init) = some .directory :=
      h.wellFormed.nested _ _ _ hnode
    have hbelow := h.wellFormed.leads hinit (fun target heq => by cases heq)
      (fun name hname => hshort name (List.mem_append_left [last] hname))
    have hlast : last ∈ init ++ [last] := by simp
    exact resolveSelf_eq (isAbsolute_pathBelow h.absolute _) hcheck hall
      (isDots_of_isName (hnamed last hlast)) (hshort last hlast)
      ((hleads.append hbelow).resolveFrom hlinks) hinit hnode

theorem resolveSelf_root (h : t.Workspace root base) :
    exists self, t.resolveSelf root = .ok self ∧
      (self = base ∨ exists target, t.node? self = some (.link target)) := by
  rcases h.leads_root with ⟨hcheck, links, hlinks, hleads⟩
  rcases List.eq_nil_or_concat (pieces root) with hnil | ⟨front, last, hpieces⟩
  · exact absurd hnil (pieces_ne_nil h.absolute)
  · rw [List.concat_eq_append] at hpieces
    by_cases hdots : isDots last = true
    · refine ⟨base, ?_, Or.inl rfl⟩
      unfold resolveSelf
      rw [hcheck, hpieces, List.getLast?_concat]
      show (if isDots last = true then t.resolve root else _) = _
      rw [if_pos hdots, h.reached]
    · have hlast : isDots last = false := by simpa using hdots
      have hname := isDots_eq_false.mp hlast
      rw [hpieces] at hleads
      rcases hleads.split with ⟨first, second, middle, hsum, hleft, hright⟩
      have hfront : t.resolveFrom linkLimit [] front = .ok middle :=
        hleft.resolveFrom (by omega)
      cases hright with
      | stay _ hblank _ =>
          rcases hblank with hblank | hblank
          · exact absurd hblank hname.left
          · exact absurd hblank hname.right.left
      | up _ _ =>
          exact absurd rfl hname.right.right
      | enter hmiddle _ hsize hnode _ hrest =>
          refine ⟨middle ++ [last], resolveSelf_eq h.absolute hcheck hpieces hlast hsize
            hfront hmiddle hnode, Or.inl ?_⟩
          cases hrest
          rfl
      | follow hmiddle _ hsize hnode _ =>
          exact ⟨middle ++ [last], resolveSelf_eq h.absolute hcheck hpieces hlast hsize
            hfront hmiddle hnode, Or.inr ⟨_, hnode⟩⟩

theorem itemsUnder_root (h : t.Workspace root base) :
    t.itemsUnder root = .ok (t.itemsBelow root base) := by
  rcases h.resolveSelf_root with ⟨self, hself, hplace⟩
  unfold itemsUnder
  rw [hself]
  simp only [bind, Except.bind]
  rcases hplace with hbase | ⟨target, hlink⟩
  · rw [hbase, h.directory]
    rfl
  · rw [hlink]
    simp only [h.reached, h.directory]
    rfl

/-!
## Changing the tree
-/

theorem of_change (h : t.Workspace root base) {next : Tree} (hsorted : next.Sorted)
    (hkeep : forall place node, t.node? place = some node ->
      (forall content, node ≠ .file content) -> next.node? place = some node)
    (honly : forall place node, next.node? place = some node ->
      t.node? place = some node ∨
        exists names name, place = base ++ (names ++ [name]) ∧
          (forall target, node ≠ .link target) ∧
          (forall other, other ∈ names ++ [name] -> IsName other) ∧
          Accessible root (names ++ [name]) ∧
          next.node? (base ++ names) = some .directory) :
    next.Workspace root base := by
  have hdirectory {place : Place} (hplace : t.node? place = some .directory) :
      next.node? place = some .directory :=
    hkeep place .directory hplace (fun content heq => by cases heq)
  constructor
  case wellFormed =>
    constructor
    case sorted => exact hsorted
    case named =>
      intro place node hnode
      rcases honly place node hnode with hold | ⟨names, name, hplace, _, hnamed, _, _⟩
      · exact h.wellFormed.named place node hold
      · intro other hother
        rw [hplace] at hother
        rcases List.mem_append.mp hother with hbase | hbelow
        · exact h.wellFormed.named base .directory h.directory other hbase
        · exact hnamed other hbelow
    case nested =>
      intro place name node hnode
      rcases honly (place ++ [name]) node hnode with
        hold | ⟨names, last, hplace, _, _, _, hparent⟩
      · exact hdirectory (h.wellFormed.nested place name node hold)
      · rw [← List.append_assoc] at hplace
        rw [(List.append_inj_left' hplace rfl)]
        exact hparent
  case absolute => exact h.absolute
  case normal => exact h.normal
  case reached =>
    rcases h.leads_root with ⟨hcheck, links, hlinks, hleads⟩
    rw [resolve_eq h.absolute, hcheck]
    exact (hleads.keep hkeep h.directory).resolveFrom hlinks
  case directory => exact hdirectory h.directory
  case plain =>
    intro names node hnode
    rcases honly (base ++ names) node hnode with
      hold | ⟨front, last, hplace, hlink, _, haccessible, _⟩
    · exact h.plain names node hold
    · rw [List.append_cancel_left hplace]
      exact ⟨hlink, haccessible⟩

end Workspace

/-!
## Writing
-/

/-- A tree with directories made along some names. -/
structure Extended (t next : Tree) (here names : Place) : Prop where
  sorted : t.Sorted -> next.Sorted
  kept : forall place node, t.node? place = some node -> next.node? place = some node
  made : forall front, front <+: names -> next.node? (here ++ front) = some .directory
  only : forall place node, next.node? place = some node ->
    t.node? place = some node ∨
      (node = .directory ∧ exists front, front <+: names ∧ front ≠ [] ∧
        place = here ++ front)

theorem makeDirectories_cons {t : Tree} {here : Place} {name : List UInt8}
    (hname : IsName name)
    (hway : t.node? (here ++ [name]) = none ∨
      t.node? (here ++ [name]) = some .directory) (names : Place) :
    exists next : Tree, t.makeDirectories here (name :: names) =
        next.makeDirectories (here ++ [name]) names ∧
      next.node? (here ++ [name]) = some .directory ∧
      (t.Sorted -> next.Sorted) ∧
      forall place, place ≠ here ++ [name] -> next.node? place = t.node? place := by
  have hdots := isDots_eq_false.mp (isDots_of_isName hname)
  have hne : here ++ [name] ≠ [] := by simp
  rw [makeDirectories, if_neg (by simp [hdots]), if_neg hdots.right.right]
  rcases hway with hnone | hdirectory
  · refine ⟨t.put (here ++ [name]) .directory, ?_, ?_, ?_, ?_⟩
    · simp only [hnone]
    · rw [node?_put t hne, if_pos rfl]
    · exact fun hsorted => hsorted.put _ _
    · intro place hplace
      rw [node?_put t hne, if_neg hplace]
  · refine ⟨t, ?_, hdirectory, id, fun place _ => rfl⟩
    simp only [hdirectory]

theorem Extended.refl {t : Tree} {here : Place} (h : t.node? here = some .directory) :
    Extended t t here [] := by
  constructor
  case sorted => exact id
  case kept => exact fun place node hnode => hnode
  case made =>
    intro front hfront
    rw [List.prefix_nil.mp hfront, List.append_nil]
    exact h
  case only => exact fun place node hnode => Or.inl hnode

theorem Extended.single {t next : Tree} {here : Place} {name : List UInt8}
    (hhere : t.node? here = some .directory)
    (hway : t.node? (here ++ [name]) = none ∨
      t.node? (here ++ [name]) = some .directory)
    (hmade : next.node? (here ++ [name]) = some .directory)
    (hsorted : t.Sorted -> next.Sorted)
    (hsame : forall place, place ≠ here ++ [name] -> next.node? place = t.node? place) :
    Extended t next here [name] := by
  constructor
  case sorted => exact hsorted
  case kept =>
    intro place node hnode
    by_cases hplace : place = here ++ [name]
    · rw [hplace] at hnode ⊢
      rcases hway with hnone | hdirectory
      · rw [hnone] at hnode
        cases hnode
      · rw [hmade, ← hnode, hdirectory]
    · rw [hsame place hplace, hnode]
  case made =>
    intro front hfront
    cases front with
    | nil =>
        rw [List.append_nil, hsame here (by simp)]
        exact hhere
    | cons other rest =>
        rcases List.cons_prefix_cons.mp hfront with ⟨hother, hrest⟩
        rw [hother, List.prefix_nil.mp hrest]
        exact hmade
  case only =>
    intro place node hnode
    by_cases hplace : place = here ++ [name]
    · rw [hplace, hmade] at hnode
      injection hnode with hnode
      exact Or.inr ⟨hnode.symm, [name], List.prefix_refl _, List.cons_ne_nil _ _, hplace⟩
    · rw [hsame place hplace] at hnode
      exact Or.inl hnode

theorem Extended.append {t middle next : Tree} {here front names : Place}
    (h : Extended t middle here front)
    (hnext : Extended middle next (here ++ front) names) :
    Extended t next here (front ++ names) := by
  constructor
  case sorted => exact fun hsorted => hnext.sorted (h.sorted hsorted)
  case kept => exact fun place node hnode => hnext.kept _ _ (h.kept place node hnode)
  case made =>
    intro other hother
    rcases List.prefix_or_prefix_of_prefix hother (List.prefix_append front names) with
      hshort | hlong
    · exact hnext.kept _ _ (h.made other hshort)
    · rcases hlong with ⟨inner, hinner⟩
      subst hinner
      rw [← List.append_assoc]
      exact hnext.made inner ((List.prefix_append_right_inj front).mp hother)
  case only =>
    intro place node hnode
    rcases hnext.only place node hnode with hmiddle | ⟨hdirectory, inner, hinner, hne, hplace⟩
    · rcases h.only place node hmiddle with hold | ⟨hdirectory, other, hother, hne, hplace⟩
      · exact Or.inl hold
      · exact Or.inr ⟨hdirectory, other, hother.trans (List.prefix_append front names), hne,
          hplace⟩
    · refine Or.inr ⟨hdirectory, front ++ inner,
        (List.prefix_append_right_inj front).mpr hinner, by simp [hne], ?_⟩
      rw [hplace, List.append_assoc]

theorem makeDirectories_extended {t : Tree} {here names : Place}
    (hnames : forall name, name ∈ names -> IsName name)
    (hhere : t.node? here = some .directory)
    (hway : forall front, front <+: names -> front ≠ [] ->
      t.node? (here ++ front) = none ∨ t.node? (here ++ front) = some .directory) :
    exists next, t.makeDirectories here names = (next, here ++ names) ∧
      Extended t next here names := by
  induction names generalizing t here with
  | nil =>
      refine ⟨t, ?_, Extended.refl hhere⟩
      rw [List.append_nil]
      rfl
  | cons name names ih =>
      have hfirst := hway [name] (List.prefix_append [name] names) (List.cons_ne_nil _ _)
      rcases makeDirectories_cons (hnames name List.mem_cons_self) hfirst names with
        ⟨middle, hstep, hmade, hsorted, hsame⟩
      have hassoc (front : Place) : here ++ name :: front = (here ++ [name]) ++ front := by
        simp
      have hway' : forall front, front <+: names -> front ≠ [] ->
          middle.node? ((here ++ [name]) ++ front) = none ∨
            middle.node? ((here ++ [name]) ++ front) = some .directory := by
        intro front hfront hne
        rw [hsame _ (by simpa using hne), ← hassoc]
        exact hway (name :: front) ((List.prefix_cons_inj name).mpr hfront)
          (List.cons_ne_nil _ _)
      rcases ih (fun other hother => hnames other (List.mem_cons_of_mem name hother))
        hmade hway' with ⟨next, hrest, hextended⟩
      refine ⟨next, ?_, ?_⟩
      · rw [hstep, hrest, hassoc names]
      · exact (Extended.single hhere hfirst hmade hsorted hsame).append hextended

/-- A file can be written under some names: no file is in the way, and the place is free or has a
file already. -/
structure Accepts (t : Tree) (root : Path) (base names : Place) : Prop where
  nonempty : names ≠ []
  named : forall name, name ∈ names -> IsName name
  accessible : Accessible root names
  way : forall front, front <+: names -> front ≠ names ->
    t.node? (base ++ front) = none ∨ t.node? (base ++ front) = some .directory
  target : t.node? (base ++ names) = none ∨
    exists content, t.node? (base ++ names) = some (.file content)

def isFreeForFile : Option Node -> Bool
  | none => true
  | some (.file _) => true
  | some _ => false

theorem accepts_iff {t : Tree} {root : Path} {base names : Place} :
    t.Accepts root base names ↔
      names ≠ [] ∧ (forall name, name ∈ names -> IsName name) ∧ Accessible root names ∧
        (forall front, front ∈ names.inits -> front ≠ names ->
          t.node? (base ++ front) = none ∨ t.node? (base ++ front) = some .directory) ∧
        isFreeForFile (t.node? (base ++ names)) = true := by
  have htarget : isFreeForFile (t.node? (base ++ names)) = true ↔
      t.node? (base ++ names) = none ∨
        exists content, t.node? (base ++ names) = some (.file content) := by
    cases t.node? (base ++ names) with
    | none => simp [isFreeForFile]
    | some node =>
        cases node with
        | directory => simp [isFreeForFile]
        | file content => simp [isFreeForFile]
        | link target => simp [isFreeForFile]
  rw [htarget]
  simp only [List.mem_inits]
  constructor
  · rintro ⟨hne, hnamed, haccessible, hway, hfree⟩
    exact ⟨hne, hnamed, haccessible, hway, hfree⟩
  · rintro ⟨hne, hnamed, haccessible, hway, hfree⟩
    exact ⟨hne, hnamed, haccessible, hway, hfree⟩

instance (t : Tree) (root : Path) (base names : Place) :
    Decidable (t.Accepts root base names) :=
  decidable_of_iff _ accepts_iff.symm

namespace Workspace

variable {t : Tree} {root : Path} {base : Place}

theorem targetOf_of_not_link {place : Place}
    (h : forall target, t.node? place ≠ some (.link target)) (links : Nat) :
    t.targetOf links place = place := by
  cases links with
  | zero => rfl
  | succ links =>
      unfold targetOf
      split
      · rename_i target hlink
        exact absurd hlink (h target)
      · rfl

theorem exists_write_eq (h : t.Workspace root base) {names : Place}
    (ha : t.Accepts root base names) (content : Content) :
    exists (next : Tree) (init : Place) (last : List UInt8),
      names = init ++ [last] ∧ Extended t next base init ∧
      t.write (pathBelow root names) (.file content) =
        next.put (base ++ names) (.file content) := by
  rcases h.exists_leads with ⟨links, front, hlinks, hleads, hpieces⟩
  have hall := hpieces names ha.nonempty ha.named
  have habsolute := isAbsolute_pathBelow h.absolute names
  rcases List.eq_nil_or_concat names with hnil | ⟨init, last, hnames⟩
  · exact absurd hnil ha.nonempty
  · rw [List.concat_eq_append] at hnames
    have hlast : IsName last := ha.named last (by rw [hnames]; simp)
    have hway : forall other, other <+: init -> other ≠ [] ->
        t.node? (base ++ other) = none ∨ t.node? (base ++ other) = some .directory := by
      intro other hother _hne
      apply ha.way
      · rw [hnames]
        exact hother.trans (List.prefix_append init [last])
      · intro heq
        have hlength := hother.length_le
        rw [heq, hnames, List.length_append] at hlength
        exact absurd hlength (Nat.not_succ_le_self init.length)
    have hinit : forall name, name ∈ init -> IsName name := fun name hname =>
      ha.named name (by rw [hnames]; exact List.mem_append_left [last] hname)
    rcases makeDirectories_extended hinit h.directory hway with ⟨next, hmake, hextended⟩
    refine ⟨next, init, last, hnames, hextended, ?_⟩
    have hstart : startOf t.workingDir (pathBelow root names) = [] := by
      unfold startOf
      rw [if_pos habsolute]
    have hsplit : pieces (pathBelow root names) = (front ++ init) ++ [last] := by
      rw [hall, hnames, List.append_assoc]
    have hplace : (base ++ init) ++ [last] = base ++ names := by
      rw [hnames, List.append_assoc]
    have htarget : next.targetOf linkLimit (base ++ names) = base ++ names := by
      apply targetOf_of_not_link
      intro target hlink
      rcases hextended.only _ _ hlink with hold | ⟨hdirectory, _⟩
      · exact (h.plain _ _ hold).left target rfl
      · cases hdirectory
    unfold write
    rw [hstart, hsplit, List.dropLast_concat, List.getLast?_concat,
      hleads.makeDirectories hlinks, hmake]
    simp only [isDots_of_isName hlast, Bool.false_eq_true, if_false, putBehindLinks, hplace,
      htarget]

theorem exists_parent_of_put {next : Tree} {names init front : Place} {last : List UInt8}
    (hnames : names = init ++ [last]) (hextended : Extended t next base init)
    (content : Content) (hfront : front <+: names) (hempty : front ≠ []) :
    exists parent name, front = parent ++ [name] ∧
      (next.put (base ++ names) (.file content)).node? (base ++ parent) =
        some .directory := by
  rcases List.eq_nil_or_concat front with hnil | ⟨parent, name, hparent⟩
  · exact absurd hnil hempty
  · rw [List.concat_eq_append] at hparent
    refine ⟨parent, name, hparent, ?_⟩
    have hshort : parent.length < names.length := by
      have hlength := hfront.length_le
      rw [hparent, List.length_append] at hlength
      exact hlength
    have hinner : parent <+: init := by
      have habove : parent <+: init ++ [last] := by
        rw [← hnames]
        exact (hparent ▸ List.prefix_append parent [name]).trans hfront
      rcases List.prefix_concat_iff.mp habove with hall | hinit
      · rw [hall, ← hnames] at hshort
        exact absurd hshort (Nat.lt_irrefl _)
      · exact hinit
    have hne : base ++ names ≠ [] := by
      simp [hnames]
    rw [node?_put next hne, if_neg]
    · exact hextended.made parent hinner
    · intro heq
      rw [List.append_cancel_left heq] at hshort
      exact absurd hshort (Nat.lt_irrefl _)

theorem write (h : t.Workspace root base) {names : Place}
    (ha : t.Accepts root base names) (content : Content) :
    (t.write (pathBelow root names) (.file content)).Workspace root base := by
  rcases h.exists_write_eq ha content with ⟨next, init, last, hnames, hextended, hwrite⟩
  have hne : base ++ names ≠ [] := by
    simp [ha.nonempty]
  rw [hwrite]
  apply h.of_change
  · exact (hextended.sorted h.wellFormed.sorted).put _ _
  · intro place node hnode hfile
    -- The written place was free or had a file.
    have hplace : place ≠ base ++ names := by
      intro heq
      rw [heq] at hnode
      rcases ha.target with hnone | ⟨old, hold⟩
      · rw [hnone] at hnode
        cases hnode
      · rw [hold] at hnode
        injection hnode with hnode
        exact hfile old hnode.symm
    rw [node?_put next hne, if_neg hplace]
    exact hextended.kept place node hnode
  · intro place node hnode
    have hput : t.node? place = some node ∨
        ((forall target, node ≠ .link target) ∧
          exists front, front <+: names ∧ front ≠ [] ∧ place = base ++ front) := by
      rw [node?_put next hne] at hnode
      split at hnode
      · rename_i hplace
        injection hnode with hnode
        subst hnode
        exact Or.inr ⟨by simp, names, List.prefix_refl names, ha.nonempty, hplace⟩
      · rcases hextended.only place node hnode with
          hold | ⟨hdirectory, front, hfront, hempty, hplace⟩
        · exact Or.inl hold
        · subst hdirectory
          refine Or.inr ⟨by simp, front, ?_, hempty, hplace⟩
          rw [hnames]
          exact hfront.trans (List.prefix_append init [last])
    rcases hput with hold | ⟨hlink, front, hfront, hempty, hplace⟩
    · exact Or.inl hold
    · rcases exists_parent_of_put hnames hextended content hfront hempty with
        ⟨parent, name, hparent, hdirectory⟩
      subst hparent
      exact Or.inr ⟨parent, name, hplace, hlink,
        fun other hother => ha.named other (hfront.subset hother),
        ha.accessible.of_prefix h.absolute ha.named hfront, hdirectory⟩

theorem file_write_iff (h : t.Workspace root base) {names : Place}
    (ha : t.Accepts root base names) (content : Content) (others : Place)
    (other : Content) :
    (t.write (pathBelow root names) (.file content)).node? (base ++ others) =
        some (.file other) ↔
      if others = names then other = content
      else t.node? (base ++ others) = some (.file other) := by
  rcases h.exists_write_eq ha content with ⟨next, init, last, _hnames, hextended, hwrite⟩
  have hne : base ++ names ≠ [] := by
    simp [ha.nonempty]
  rw [hwrite, node?_put next hne]
  by_cases hothers : others = names
  · simp [hothers, eq_comm]
  · have hplace : base ++ others ≠ base ++ names := fun heq =>
      hothers (List.append_cancel_left heq)
    rw [if_neg hplace, if_neg hothers]
    constructor
    · intro hnode
      rcases hextended.only _ _ hnode with hold | ⟨hdirectory, _⟩
      · exact hold
      · cases hdirectory
    · exact hextended.kept _ _

/-!
## Deleting
-/

theorem node?_delete (h : t.Workspace root base) {names : Place} {content : Content}
    (hempty : names ≠ []) (hnode : t.node? (base ++ names) = some (.file content))
    (place : Place) :
    (t.delete (pathBelow root names)).node? place =
      if place = base ++ names then none else t.node? place := by
  have hne : base ++ names ≠ [] := by
    simp [hempty]
  unfold delete
  rw [h.resolveSelf_pathBelow hempty hnode]
  show (t.remove (base ++ names)).node? place = _
  rw [node?_remove t hne]
  by_cases hplace : place = base ++ names
  · rw [if_pos hplace, if_pos]
    rw [hplace]
    simp
  · rw [if_neg hplace]
    split
    · rename_i hbegins
      rcases List.isPrefixOf_iff_prefix.mp hbegins with ⟨more, hmore⟩
      -- A file holds nothing.
      have hmoreNe : more ≠ [] := by
        intro hnil
        rw [hnil, List.append_nil] at hmore
        exact hplace hmore.symm
      cases hother : t.node? place with
      | none => rfl
      | some node =>
          rw [← hmore] at hother
          rw [h.wellFormed.directory hmoreNe hother] at hnode
          cases hnode
    · rfl

theorem delete (h : t.Workspace root base) {names : Place} {content : Content}
    (hempty : names ≠ []) (hnode : t.node? (base ++ names) = some (.file content)) :
    (t.delete (pathBelow root names)).Workspace root base := by
  have hdelete := h.node?_delete hempty hnode
  apply h.of_change
  · unfold Tree.delete
    rw [h.resolveSelf_pathBelow hempty hnode]
    exact h.wellFormed.sorted.remove _
  · intro place node hplace hfile
    rw [hdelete, if_neg]
    · exact hplace
    · intro heq
      rw [heq, hnode] at hplace
      injection hplace with hplace
      exact hfile content hplace.symm
  · intro place node hplace
    rw [hdelete] at hplace
    split at hplace
    · cases hplace
    · exact Or.inl hplace

theorem file_delete_iff (h : t.Workspace root base) {names : Place} {content : Content}
    (hempty : names ≠ []) (hnode : t.node? (base ++ names) = some (.file content))
    (others : Place) (other : Content) :
    (t.delete (pathBelow root names)).node? (base ++ others) = some (.file other) ↔
      others ≠ names ∧ t.node? (base ++ others) = some (.file other) := by
  rw [h.node?_delete hempty hnode]
  by_cases hothers : others = names
  · simp [hothers]
  · simp [hothers]

end Workspace
end Tree
end Disk
end ElmNavigator
