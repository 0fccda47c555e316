import ElmNavigator.Proofs.Disk.Entries

/-!
# Looking up paths

Looking up pieces is a walk through the tree, counted in the links that it
follows.  The walks compose along the pieces, and they use directories and links
only, so they stay the same when files come and go.
-/

namespace ElmNavigator
namespace Disk
namespace Tree

open Text ElmNavigator.Path

/-!
## Walks
-/

/-- Looking up pieces from a place leads to a place, behind a number of links. -/
inductive Leads (t : Tree) : Nat -> Place -> List (List UInt8) -> Place -> Prop where
  | done (here : Place) : Leads t 0 here [] here
  | stay {links : Nat} {here last : Place} {piece : List UInt8} {rest : List (List UInt8)} :
      t.node? here = some .directory -> (piece = [] ∨ piece = [dot]) ->
      Leads t links here rest last -> Leads t links here (piece :: rest) last
  | up {links : Nat} {here last : Place} {rest : List (List UInt8)} :
      t.node? here = some .directory -> Leads t links here.dropLast rest last ->
      Leads t links here ([dot, dot] :: rest) last
  | enter {links : Nat} {here last : Place} {piece : List UInt8} {rest : List (List UInt8)}
      {node : Node} :
      t.node? here = some .directory -> isDots piece = false ->
      piece.length ≤ nameLimit -> t.node? (here ++ [piece]) = some node ->
      (forall target, node ≠ .link target) ->
      Leads t links (here ++ [piece]) rest last -> Leads t links here (piece :: rest) last
  | follow {links : Nat} {here last : Place} {piece : List UInt8}
      {rest : List (List UInt8)} {target : Path} :
      t.node? here = some .directory -> isDots piece = false ->
      piece.length ≤ nameLimit -> t.node? (here ++ [piece]) = some (.link target) ->
      Leads t links (startOf here target) (pieces target ++ rest) last ->
      Leads t (links + 1) here (piece :: rest) last

theorem isDots_eq_false {piece : List UInt8} :
    isDots piece = false ↔ piece ≠ [] ∧ piece ≠ [dot] ∧ piece ≠ [dot, dot] := by
  simp [isDots, and_assoc]

theorem isDots_of_isName {name : List UInt8} (h : IsName name) : isDots name = false :=
  isDots_eq_false.mpr ⟨h.left, h.right.left, h.right.right.left⟩

theorem leads_of_walk {t : Tree} {limit : Nat}
    {follow : Place -> List (List UInt8) -> Except AccessError Place}
    (hfollow : forall here rest last, follow here rest = .ok last ->
      exists links, links < limit ∧ Leads t links here rest last)
    {here last : Place} {rest : List (List UInt8)}
    (h : t.walk follow here rest = .ok last) :
    exists links, links ≤ limit ∧ Leads t links here rest last := by
  induction rest generalizing here with
  | nil =>
      injection h with hlast
      subst hlast
      exact ⟨0, Nat.zero_le limit, Leads.done here⟩
  | cons piece rest ih =>
      unfold walk at h
      split at h
      · cases h
      · rename_i hhere
        have hdirectory : t.node? here = some .directory := not_not.mp hhere
        split at h
        · rename_i hblank
          rcases ih h with ⟨links, hlinks, hleads⟩
          exact ⟨links, hlinks, Leads.stay hdirectory (by simpa using hblank) hleads⟩
        · rename_i hblank
          split at h
          · rename_i hdots
            rcases ih h with ⟨links, hlinks, hleads⟩
            subst hdots
            exact ⟨links, hlinks, Leads.up hdirectory hleads⟩
          · rename_i hdots
            have hname : isDots piece = false := by
              simp only [Bool.or_eq_true, decide_eq_true_eq, not_or] at hblank
              exact isDots_eq_false.mpr ⟨hblank.left, hblank.right, hdots⟩
            split at h
            · cases h
            · rename_i hlimit
              have hsize : piece.length ≤ nameLimit := Nat.le_of_not_lt hlimit
              split at h
              · cases h
              · rename_i target hnode
                rcases hfollow _ _ _ h with ⟨links, hlinks, hleads⟩
                exact ⟨links + 1, hlinks,
                  Leads.follow hdirectory hname hsize hnode hleads⟩
              · rename_i node hlink hnode
                rcases ih h with ⟨links, hlinks, hleads⟩
                exact ⟨links, hlinks,
                  Leads.enter hdirectory hname hsize hnode
                    (fun target heq => hlink target heq) hleads⟩

theorem leads_of_resolveFrom {t : Tree} {limit : Nat} {here last : Place}
    {rest : List (List UInt8)} (h : t.resolveFrom limit here rest = .ok last) :
    exists links, links ≤ limit ∧ Leads t links here rest last := by
  induction limit generalizing here rest last with
  | zero =>
      apply leads_of_walk _ h
      intro place others other hnone
      cases hnone
  | succ limit ih =>
      apply leads_of_walk _ h
      intro place others other hother
      rcases ih hother with ⟨links, hlinks, hleads⟩
      exact ⟨links, Nat.lt_succ_of_le hlinks, hleads⟩

theorem resolveFrom_eq_walk (t : Tree) (limit : Nat) :
    t.resolveFrom limit = t.walk (match limit with
      | 0 => fun _ _ => .error .tooManyLinks
      | limit + 1 => t.resolveFrom limit) := by
  cases limit with
  | zero => rfl
  | succ limit => rfl

theorem Leads.resolveFrom {t : Tree} {links : Nat} {here last : Place}
    {rest : List (List UInt8)} (h : Leads t links here rest last) {limit : Nat}
    (hlimit : links ≤ limit) : t.resolveFrom limit here rest = .ok last := by
  induction h generalizing limit with
  | done here =>
      rw [resolveFrom_eq_walk]
      rfl
  | stay hhere hblank _ ih =>
      have hrest := ih hlimit
      rw [resolveFrom_eq_walk] at hrest ⊢
      unfold walk
      rw [if_neg (not_not.mpr hhere), if_pos (by simpa using hblank), hrest]
  | up hhere _ ih =>
      have hrest := ih hlimit
      rw [resolveFrom_eq_walk] at hrest ⊢
      unfold walk
      rw [if_neg (not_not.mpr hhere), if_neg (by simp), if_pos rfl, hrest]
  | enter hhere hname hsize hnode hlink _ ih =>
      rename_i node _
      have hrest := ih hlimit
      have hdots := isDots_eq_false.mp hname
      rw [resolveFrom_eq_walk] at hrest ⊢
      unfold walk
      rw [if_neg (not_not.mpr hhere), if_neg (by simp [hdots]), if_neg hdots.right.right,
        if_neg (Nat.not_lt.mpr hsize), hnode]
      cases node with
      | link target => exact absurd rfl (hlink target)
      | directory => exact hrest
      | file content => exact hrest
  | follow hhere hname hsize hnode _ ih =>
      have hdots := isDots_eq_false.mp hname
      cases limit with
      | zero => cases hlimit
      | succ limit =>
          rw [resolveFrom_eq_walk]
          unfold walk
          rw [if_neg (not_not.mpr hhere), if_neg (by simp [hdots]),
            if_neg hdots.right.right, if_neg (Nat.not_lt.mpr hsize), hnode]
          exact ih (Nat.le_of_succ_le_succ hlimit)

/-!
## Composition
-/

theorem Leads.append {t : Tree} {links more : Nat} {here middle last : Place}
    {front back : List (List UInt8)} (hfront : Leads t links here front middle)
    (hback : Leads t more middle back last) :
    Leads t (links + more) here (front ++ back) last := by
  induction hfront with
  | done here =>
      rw [Nat.zero_add]
      exact hback
  | stay hhere hblank _ ih =>
      exact Leads.stay hhere hblank (ih hback)
  | up hhere _ ih =>
      exact Leads.up hhere (ih hback)
  | enter hhere hname hsize hnode hlink _ ih =>
      exact Leads.enter hhere hname hsize hnode hlink (ih hback)
  | follow hhere hname hsize hnode _ ih =>
      have htarget := ih hback
      rw [List.append_assoc] at htarget
      rw [Nat.add_right_comm]
      exact Leads.follow hhere hname hsize hnode htarget

theorem Leads.split {t : Tree} {links : Nat} {here last : Place}
    {back : List (List UInt8)} :
    forall {front : List (List UInt8)}, Leads t links here (front ++ back) last ->
      exists first second middle, links = first + second ∧
        Leads t first here front middle ∧ Leads t second middle back last
  | [], h => ⟨0, links, here, (Nat.zero_add links).symm, Leads.done here, h⟩
  | piece :: front, h => by
      cases h with
      | stay hhere hblank hrest =>
          rcases hrest.split with ⟨first, second, middle, hlinks, hleft, hright⟩
          exact ⟨first, second, middle, hlinks, Leads.stay hhere hblank hleft, hright⟩
      | up hhere hrest =>
          rcases hrest.split with ⟨first, second, middle, hlinks, hleft, hright⟩
          exact ⟨first, second, middle, hlinks, Leads.up hhere hleft, hright⟩
      | enter hhere hname hsize hnode hlink hrest =>
          rcases hrest.split with ⟨first, second, middle, hlinks, hleft, hright⟩
          exact ⟨first, second, middle, hlinks,
            Leads.enter hhere hname hsize hnode hlink hleft, hright⟩
      | follow hhere hname hsize hnode hrest =>
          rename_i links target
          have htarget : Leads t links (startOf here target)
              ((pieces target ++ front) ++ back) last := by
            rw [List.append_assoc]
            exact hrest
          rcases htarget.split with ⟨first, second, middle, hlinks, hleft, hright⟩
          refine ⟨first + 1, second, middle, ?_,
            Leads.follow hhere hname hsize hnode hleft, hright⟩
          rw [hlinks, Nat.add_right_comm]

/-!
## Walks in changing trees
-/

theorem Leads.start_directory {t : Tree} {links : Nat} {here last : Place}
    {rest : List (List UInt8)} (h : Leads t links here rest last)
    (hlast : t.node? last = some .directory) : t.node? here = some .directory := by
  cases h with
  | done => exact hlast
  | stay hhere _ _ => exact hhere
  | up hhere _ => exact hhere
  | enter hhere _ _ _ _ _ => exact hhere
  | follow hhere _ _ _ _ => exact hhere

theorem Leads.keep {t next : Tree} {links : Nat} {here last : Place}
    {rest : List (List UInt8)} (h : Leads t links here rest last)
    (hkeep : forall place node, t.node? place = some node ->
      (forall content, node ≠ .file content) -> next.node? place = some node)
    (hlast : t.node? last = some .directory) : Leads next links here rest last := by
  have hdirectory {place : Place} (hplace : t.node? place = some .directory) :
      next.node? place = some .directory :=
    hkeep place .directory hplace (fun content heq => by cases heq)
  induction h with
  | done here =>
      exact Leads.done here
  | stay hhere hblank _ ih =>
      exact Leads.stay (hdirectory hhere) hblank (ih hlast)
  | up hhere _ ih =>
      exact Leads.up (hdirectory hhere) (ih hlast)
  | enter hhere hname hsize hnode hlink hrest ih =>
      -- The walk goes on to a directory, so this was not a file.
      have hinner := hrest.start_directory hlast
      exact Leads.enter (hdirectory hhere) hname hsize (hdirectory hinner)
        (fun target heq => by cases heq) (ih hlast)
  | follow hhere hname hsize hnode _ ih =>
      have hlink := hkeep _ _ hnode (fun content heq => by cases heq)
      exact Leads.follow (hdirectory hhere) hname hsize hlink (ih hlast)

theorem Leads.makeDirectories {t : Tree} {links : Nat} {here last : Place}
    {front : List (List UInt8)} (h : Leads t links here front last)
    (hlimit : links ≤ linkLimit) (back : List (List UInt8)) :
    t.makeDirectories here (front ++ back) = t.makeDirectories last back := by
  induction front generalizing links here with
  | nil =>
      cases h
      rfl
  | cons piece front ih =>
      rw [List.cons_append, Tree.makeDirectories]
      cases h with
      | stay hhere hblank hrest =>
          rw [if_pos (by simpa using hblank)]
          exact ih hrest hlimit
      | up hhere hrest =>
          rw [if_neg (by simp), if_pos rfl]
          exact ih hrest hlimit
      | enter hhere hname hsize hnode hlink hrest =>
          rename_i node
          have hdots := isDots_eq_false.mp hname
          rw [if_neg (by simp [hdots]), if_neg hdots.right.right]
          simp only [hnode]
          cases node with
          | link target => exact absurd rfl (hlink target)
          | directory => exact ih hrest hlimit
          | file content => exact ih hrest hlimit
      | follow hhere hname hsize hnode hrest =>
          rename_i links target
          have hdots := isDots_eq_false.mp hname
          -- The link alone leads to where the rest of the walk starts.
          rcases hrest.split with ⟨first, second, middle, hlinks, hleft, hright⟩
          have hlink : Leads t (first + 1) here [piece] middle := by
            apply Leads.follow hhere hname hsize hnode
            rw [List.append_nil]
            exact hleft
          have hresolve : t.resolveFrom linkLimit here [piece] = .ok middle :=
            hlink.resolveFrom (by omega)
          rw [if_neg (by simp [hdots]), if_neg hdots.right.right]
          simp only [hnode, hresolve]
          exact ih hright (by omega)

theorem WellFormed.leads {t : Tree} (h : t.WellFormed) {here names : Place}
    {node : Node} (hnode : t.node? (here ++ names) = some node)
    (hlink : forall target, node ≠ .link target)
    (hsize : forall name, name ∈ names -> name.length ≤ nameLimit) :
    Leads t 0 here names (here ++ names) := by
  induction names generalizing here with
  | nil =>
      rw [List.append_nil]
      exact Leads.done here
  | cons name names ih =>
      have hsplit : here ++ name :: names = (here ++ [name]) ++ names := by simp
      have hname : IsName name :=
        h.named _ _ hnode name (List.mem_append_right here List.mem_cons_self)
      have hhere := h.directory (List.cons_ne_nil name names) hnode
      rw [hsplit] at hnode ⊢
      have hrest := ih hnode fun other hother =>
        hsize other (List.mem_cons_of_mem name hother)
      have hnext : exists inner, t.node? (here ++ [name]) = some inner ∧
          forall target, inner ≠ .link target := by
        by_cases hempty : names = []
        · rw [hempty, List.append_nil] at hnode
          exact ⟨node, hnode, hlink⟩
        · exact ⟨.directory, h.directory hempty hnode, fun target heq => by cases heq⟩
      rcases hnext with ⟨inner, hinner, hinnerLink⟩
      exact Leads.enter hhere (isDots_of_isName hname) (hsize name List.mem_cons_self)
        hinner hinnerLink hrest

end Tree
end Disk
end ElmNavigator
