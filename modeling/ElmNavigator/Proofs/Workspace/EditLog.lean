import ElmNavigator.Proofs.Workspace.TrackedIndex

/-!
# What the log of edits says about an index

Records get into an index and out of it by edits, each of which is about one file:
its symbols are worked out anew from a text, or it is forgotten.  The log of the
edits determines the tables.  A file has the record of its last edit.  A name leads
to the file that claimed it last, and to nothing once that file has been edited
again without claiming it: another file with a module of the name does not take
over.
-/

namespace ElmNavigator
namespace SymbolIndex

inductive Edit where
  | update (p : Path) (text : String)
  | remove (p : Path)
deriving Repr, DecidableEq

namespace Edit

def path : Edit -> Path
  | .update p _ => p.normalize
  | .remove p => p.normalize

/-- The record that the file has after an edit. -/
def record? : Edit -> Option ModuleSymbols
  | .update p text => recordOf? p.normalize text
  | .remove _ => none

/-- Whether an edit gives its file a module of a name. -/
def Claims (edit : Edit) (name : String) : Prop :=
  edit.record?.map (·.module) = some name

instance (edit : Edit) (name : String) : Decidable (edit.Claims name) :=
  inferInstanceAs (Decidable (_ = _))

def apply (ix : SymbolIndex) : Edit -> SymbolIndex
  | .update p text => ix.update p text
  | .remove p => ix.remove p

theorem path_of_record {edit : Edit} {r : ModuleSymbols} (h : edit.record? = some r) :
    r.path = edit.path := by
  cases edit with
  | update p text => exact (recordOf?_describes h).path_eq
  | remove p => cases h

theorem claims_of_record {edit : Edit} {r : ModuleSymbols} (h : edit.record? = some r) :
    edit.Claims r.module := by
  unfold Claims
  rw [h]
  rfl

theorem exists_record_of_claims {edit : Edit} {name : String} (h : edit.Claims name) :
    exists r, edit.record? = some r ∧ r.module = name :=
  Option.map_eq_some_iff.mp h

end Edit

def replay (ix : SymbolIndex) (log : List Edit) : SymbolIndex :=
  log.foldl Edit.apply ix

theorem replay_append (ix : SymbolIndex) (log more : List Edit) :
    ix.replay (log ++ more) = (ix.replay log).replay more :=
  List.foldl_append

theorem replay_snoc (ix : SymbolIndex) (log : List Edit) (last : Edit) :
    ix.replay (log ++ [last]) = last.apply (ix.replay log) :=
  replay_append ix log [last]

/-!
## One edit
-/

theorem get?_byPath_apply (edit : Edit) (ix : SymbolIndex) (p : Path) :
    (edit.apply ix).byPath.get? p =
      if p = edit.path then edit.record? else ix.byPath.get? p := by
  cases edit with
  | update q text => exact get?_byPath_update ix q text p
  | remove q => exact get?_byPath_remove ix q p

theorem Consistent.apply {ix : SymbolIndex} (h : ix.Consistent) (edit : Edit) :
    (edit.apply ix).Consistent := by
  cases edit with
  | update p text => exact h.update p text
  | remove p => exact h.remove p

theorem Consistent.replay {ix : SymbolIndex} (h : ix.Consistent) (log : List Edit) :
    (ix.replay log).Consistent := by
  induction log generalizing ix with
  | nil => exact h
  | cons edit log ih => exact ih (h.apply edit)

/-- After an edit a name leads to the file of the edit if this claims it, and else to where it
led, unless that is the file of the edit. -/
theorem Consistent.get?_byModule_apply {ix : SymbolIndex} (h : ix.Consistent) (edit : Edit)
    {n : String} {r : ModuleSymbols} :
    (edit.apply ix).byModule.get? n = some r ↔
      (edit.record? = some r ∧ r.module = n) ∨
        (¬ edit.Claims n ∧ ix.byModule.get? n = some r ∧ r.path ≠ edit.path) := by
  cases edit with
  | remove p =>
      have hnone : ¬ (Edit.remove p).Claims n := by
        intro hclaims
        cases hclaims
      have hremove := h.get?_byModule_remove p (n := n) (r := r)
      constructor
      · exact fun hr => Or.inr ⟨hnone, hremove.mp hr⟩
      · intro hfound
        rcases hfound with ⟨hr, _⟩ | ⟨_, hr⟩
        · cases hr
        · exact hremove.mpr hr
  | update p text =>
      have hremove := h.get?_byModule_remove p.normalize (n := n) (r := r)
      rw [Path.normalize_normalize] at hremove
      unfold Edit.Claims
      simp only [Edit.apply, SymbolIndex.update, Edit.record?, Edit.path]
      cases hrecord : recordOf? p.normalize text with
      | none =>
          simp [hremove]
      | some new =>
          have hadd : ((ix.remove p.normalize).add new).byModule.get? n =
              if n = new.module then some new
              else (ix.remove p.normalize).byModule.get? n :=
            Table.get?_insert _ new.module new n
          simp only [hadd]
          by_cases hn : n = new.module
          · rw [if_pos hn]
            simp only [Option.some.injEq, Option.map_some, hn, not_true, false_and, or_false]
            exact ⟨fun hr => ⟨hr, by rw [hr]⟩, And.left⟩
          · rw [if_neg hn, hremove]
            simp only [Option.some.injEq, Option.map_some]
            constructor
            · exact fun hr => Or.inr ⟨fun heq => hn heq.symm, hr⟩
            · intro hfound
              rcases hfound with ⟨hr, hmodule⟩ | ⟨_, hr⟩
              · exact absurd (by rw [hr, hmodule]) hn
              · exact hr

/-!
## The end of a log
-/

section Ends

variable {log after : List Edit} {edit last : Edit}

theorem ends_snoc :
    edit :: after <:+ log ++ [last] ↔
      (edit = last ∧ after = []) ∨
        exists between, after = between ++ [last] ∧ edit :: between <:+ log := by
  rw [List.suffix_concat_iff]
  constructor
  · intro hcases
    rcases hcases with hnil | ⟨front, hfront, hends⟩
    · cases hnil
    · cases front with
      | nil =>
          injection hfront with hedit hafter
          exact Or.inl ⟨hedit, hafter⟩
      | cons first between =>
          injection hfront with hedit hafter
          exact Or.inr ⟨between, hafter, hedit ▸ hends⟩
  · intro hcases
    rcases hcases with ⟨hedit, hafter⟩ | ⟨between, hafter, hends⟩
    · exact Or.inr ⟨[], by rw [hedit, hafter]; rfl, List.nil_suffix⟩
    · exact Or.inr ⟨edit :: between, by rw [hafter]; rfl, hends⟩

theorem exists_ends {P : Edit -> Prop} (h : exists edit, edit ∈ log ∧ P edit) :
    exists final after, final :: after <:+ log ∧ P final ∧
      forall later, later ∈ after -> ¬ P later := by
  induction log with
  | nil =>
      rcases h with ⟨edit, hmem, _⟩
      cases hmem
  | cons first log ih =>
      by_cases hlater : exists later, later ∈ log ∧ P later
      · rcases ih hlater with ⟨final, after, hends, hfinal⟩
        exact ⟨final, after, hends.trans (List.suffix_cons first log), hfinal⟩
      · rcases h with ⟨edit, hmem, hP⟩
        rcases List.mem_cons.mp hmem with hfirst | hrest
        · exact ⟨first, log, List.suffix_rfl, hfirst ▸ hP,
            fun later hmem hP => hlater ⟨later, hmem, hP⟩⟩
        · exact absurd ⟨edit, hrest, hP⟩ hlater

theorem ends_cases {other : Edit} {rest : List Edit} (h : edit :: after <:+ log)
    (hother : other :: rest <:+ log) :
    (edit = other ∧ after = rest) ∨ other ∈ after ∨ edit ∈ rest := by
  rcases List.suffix_or_suffix_of_suffix h hother with hends | hends
  · rcases List.suffix_cons_iff.mp hends with heq | hlater
    · injection heq with hedit hafter
      exact Or.inl ⟨hedit, hafter⟩
    · exact Or.inr (Or.inr (hlater.mem List.mem_cons_self))
  · rcases List.suffix_cons_iff.mp hends with heq | hlater
    · injection heq with hedit hafter
      exact Or.inl ⟨hedit.symm, hafter.symm⟩
    · exact Or.inr (Or.inl (hlater.mem List.mem_cons_self))

end Ends

/-!
## Tables after a log
-/

section Tables

variable {root : Path} {settings : Settings} {log : List Edit}

theorem get?_byPath_replay {p : Path} {r : ModuleSymbols} :
    ((new root settings).replay log).byPath.get? p = some r ↔
      exists edit after, edit :: after <:+ log ∧ edit.path = p ∧ edit.record? = some r ∧
        forall later, later ∈ after -> later.path ≠ p := by
  induction log using List.reverseRecOn with
  | nil =>
      constructor
      · intro hr
        cases hr
      · intro hexists
        rcases hexists with ⟨edit, after, hends, _⟩
        cases List.suffix_nil.mp hends
  | append_singleton log last ih =>
      rw [replay_snoc, get?_byPath_apply]
      simp only [ends_snoc]
      by_cases hp : p = last.path
      · rw [if_pos hp]
        constructor
        · intro hr
          exact ⟨last, [], Or.inl ⟨rfl, rfl⟩, hp.symm, hr, by simp⟩
        · intro hcases
          rcases hcases with ⟨edit, after, ⟨hedit, _⟩ | ⟨between, hafter, _⟩, _, hr, hlater⟩
          · rw [← hedit]
            exact hr
          · exact absurd hp.symm (hlater last (by simp [hafter]))
      · rw [if_neg hp, ih]
        constructor
        · intro hexists
          rcases hexists with ⟨edit, between, hends, hpath, hr, hlater⟩
          refine ⟨edit, between ++ [last], Or.inr ⟨between, rfl, hends⟩, hpath, hr, ?_⟩
          intro later hmem
          rcases List.mem_append.mp hmem with hbetween | hlast
          · exact hlater later hbetween
          · rw [List.mem_singleton.mp hlast]
            exact Ne.symm hp
        · intro hcases
          rcases hcases with ⟨edit, after, ⟨hedit, _⟩ | ⟨between, hafter, hends⟩, hpath, hr, hlater⟩
          · exact absurd (hedit ▸ hpath.symm) hp
          · refine ⟨edit, between, hends, hpath, hr, ?_⟩
            intro later hmem
            exact hlater later (by simp [hafter, hmem])

/-- The last edit that claims a name has it, whatever stood there before the log. -/
theorem Consistent.get?_byModule_of_last {ix : SymbolIndex} (h : ix.Consistent)
    {after : List Edit} {edit : Edit} {n : String} {r : ModuleSymbols}
    (hends : edit :: after <:+ log) (hr : edit.record? = some r) (hn : r.module = n)
    (hlater : forall later, later ∈ after -> ¬ later.Claims n ∧ later.path ≠ edit.path) :
    (ix.replay log).byModule.get? n = some r := by
  rcases hends with ⟨before, hlog⟩
  subst hlog
  induction after using List.reverseRecOn with
  | nil =>
      rw [replay_snoc]
      exact ((h.replay before).get?_byModule_apply edit).mpr (Or.inl ⟨hr, hn⟩)
  | append_singleton after last ih =>
      have hfound := ih fun later hmem => hlater later (List.mem_append_left _ hmem)
      have hlast := hlater last (List.mem_append_right _ List.mem_cons_self)
      have hsplit : before ++ edit :: (after ++ [last]) = (before ++ edit :: after) ++ [last] := by
        simp
      rw [hsplit, replay_snoc]
      apply ((h.replay _).get?_byModule_apply last).mpr
      refine Or.inr ⟨hlast.1, hfound, ?_⟩
      rw [Edit.path_of_record hr]
      exact Ne.symm hlast.2

/-- A name leads to the file that claimed it last, unless this file has been edited since. -/
theorem get?_byModule_replay {n : String} {r : ModuleSymbols} :
    ((new root settings).replay log).byModule.get? n = some r ↔
      exists edit after, edit :: after <:+ log ∧ edit.record? = some r ∧ r.module = n ∧
        forall later, later ∈ after -> ¬ later.Claims n ∧ later.path ≠ edit.path := by
  constructor
  · intro hfound
    induction log using List.reverseRecOn with
    | nil =>
        cases hfound
    | append_singleton log last ih =>
        have hconsistent := (new_consistent root settings).replay log
        rw [replay_snoc, hconsistent.get?_byModule_apply] at hfound
        rcases hfound with ⟨hr, hn⟩ | ⟨hclaims, hold, hpath⟩
        · exact ⟨last, [], ends_snoc.mpr (Or.inl ⟨rfl, rfl⟩), hr, hn, by simp⟩
        · rcases ih hold with ⟨edit, between, hends, hr, hn, hlater⟩
          refine ⟨edit, between ++ [last], ends_snoc.mpr (Or.inr ⟨between, rfl, hends⟩), hr, hn, ?_⟩
          intro later hmem
          rcases List.mem_append.mp hmem with hbetween | hlast
          · exact hlater later hbetween
          · rw [List.mem_singleton.mp hlast]
            rw [Edit.path_of_record hr] at hpath
            exact ⟨hclaims, Ne.symm hpath⟩
  · intro hexists
    rcases hexists with ⟨edit, after, hends, hr, hn, hlater⟩
    exact (new_consistent root settings).get?_byModule_of_last hends hr hn hlater

end Tables

theorem get?_byPath_replay_filter (ix : SymbolIndex) (log : List Edit) (p : Path) :
    (ix.replay log).byPath.get? p =
      (ix.replay (log.filter fun edit => edit.path = p)).byPath.get? p := by
  induction log using List.reverseRecOn with
  | nil =>
      rfl
  | append_singleton log last ih =>
      rw [List.filter_append, replay_snoc, get?_byPath_apply]
      by_cases hp : p = last.path
      · have hlast : [last].filter (fun edit => edit.path = p) = [last] := by
          simp [hp]
        rw [hlast, replay_snoc, get?_byPath_apply, if_pos hp, if_pos hp]
      · have hlast : [last].filter (fun edit => edit.path = p) = [] := by
          simp [Ne.symm hp]
        rw [hlast, List.append_nil, if_neg hp, ih]

theorem get?_byPath_replay_swap (ix : SymbolIndex) {first second : Edit}
    (h : first.path ≠ second.path) (more : List Edit) (p : Path) :
    (ix.replay (first :: second :: more)).byPath.get? p =
      (ix.replay (second :: first :: more)).byPath.get? p := by
  rw [get?_byPath_replay_filter, get?_byPath_replay_filter ix (second :: first :: more)]
  by_cases hp : first.path = p
  · have hsecond : second.path ≠ p := fun heq => h (hp.trans heq.symm)
    simp [hp, hsecond]
  · simp [List.filter_cons, hp]

/-!
## Repeated edits
-/

theorem clearMissing_remove (ix : SymbolIndex) (p : Path) :
    (ix.remove p).clearMissing = ix.remove p := by
  simp only [remove]
  cases ix.clearMissing.record? p with
  | none => rfl
  | some old => rfl

theorem remove_remove (ix : SymbolIndex) (p : Path) : (ix.remove p).remove p = ix.remove p := by
  have hnone : (ix.remove p).record? p = none := by
    unfold record?
    rw [get?_byPath_remove, if_pos rfl]
  rw [SymbolIndex.remove, clearMissing_remove, hnone]

/-- Putting in a record that is there already, in place of itself, changes nothing. -/
theorem remove_add_self {ix : SymbolIndex} {r : ModuleSymbols} {p : Path}
    (hp : p.normalize = r.path) (hclear : ix.clearMissing = ix) :
    ((ix.add r).remove p).add r = ix.add r := by
  have hmissing : ix.missing = [] := congrArg SymbolIndex.missing hclear.symm
  have hrecord : (ix.add r).clearMissing.record? p = some r := by
    show (ix.byPath.insert r.path r).get? p.normalize = some r
    rw [Table.get?_insert, if_pos hp]
  have hrelease : releaseName (ix.byModule.insert r.module r) r =
      (ix.byModule.insert r.module r).erase r.module := by
    unfold releaseName
    simp only [Table.get?_insert, if_true]
  have hremove : (ix.add r).remove p =
      { ix with
        missing := []
        byPath := (ix.byPath.insert r.path r).erase r.path
        byModule := (ix.byModule.insert r.module r).erase r.module } := by
    simp only [remove, hrecord, hp]
    simp only [add, clearMissing, hrelease]
  rw [hremove]
  simp only [add, Table.insert_erase_insert, hmissing]

theorem update_update (ix : SymbolIndex) (p : Path) (text : String) :
    (ix.update p text).update p text = ix.update p text := by
  simp only [update]
  cases hrecord : recordOf? p.normalize text with
  | none =>
      exact remove_remove ix p.normalize
  | some r =>
      have hdescribes := recordOf?_describes hrecord
      exact remove_add_self (hdescribes.normal.trans hdescribes.path_eq.symm)
        (clearMissing_remove ix p.normalize)

/-- The tables are determined by the log.  A file has a record exactly if its last edit gave it
one, and then it is this record.  A name leads to the record of the last edit that claimed it, if
no later edit was about the same file, and else to nothing.  So an edit that is repeated changes
nothing, and for the records of files the order of edits of different files does not matter. -/
theorem replay_determined (root : Path) (settings : Settings) (log : List Edit) :
    let ix := (new root settings).replay log
    (forall p r, ix.byPath.get? p = some r ↔
      exists edit after, edit :: after <:+ log ∧ edit.path = p ∧ edit.record? = some r ∧
        forall later, later ∈ after -> later.path ≠ p) ∧
    (forall n r, ix.byModule.get? n = some r ↔
      exists edit after, edit :: after <:+ log ∧ edit.record? = some r ∧ r.module = n ∧
        forall later, later ∈ after -> ¬ later.Claims n ∧ later.path ≠ edit.path) ∧
    (forall p text, (ix.update p text).update p text = ix.update p text) ∧
    forall first second more p, first.path ≠ second.path ->
      (ix.replay (first :: second :: more)).byPath.get? p =
        (ix.replay (second :: first :: more)).byPath.get? p := by
  intro ix
  refine ⟨?_, ?_, ?_, ?_⟩
  · exact fun p r => get?_byPath_replay
  · exact fun n r => get?_byModule_replay
  · exact ix.update_update
  · exact fun first second more p h => get?_byPath_replay_swap ix h more p

/-!
## Names that are lost
-/

/-- A module that is indexed cannot be found by its name exactly if another file has claimed the
name last and has been edited again after that. -/
theorem name_lost_iff {root : Path} {settings : Settings} {log : List Edit} {p : Path}
    {r : ModuleSymbols} (h : ((new root settings).replay log).byPath.get? p = some r) :
    ((new root settings).replay log).byModule.get? r.module = none ↔
      exists edit after, edit :: after <:+ log ∧ edit.path ≠ p ∧ edit.Claims r.module ∧
        (forall later, later ∈ after -> ¬ later.Claims r.module) ∧
        exists later, later ∈ after ∧ later.path = edit.path := by
  rcases get?_byPath_replay.mp h with ⟨own, since, hown, hpath, hrecord, huntouched⟩
  have hclaims := Edit.claims_of_record hrecord
  constructor
  · intro hlost
    rcases exists_ends (P := fun edit => edit.Claims r.module)
      ⟨own, hown.mem List.mem_cons_self, hclaims⟩ with ⟨edit, after, hends, hedit, hlast⟩
    rcases Edit.exists_record_of_claims hedit with ⟨claimed, hclaimed, hmodule⟩
    have htouched : exists later, later ∈ after ∧ later.path = edit.path := by
      by_contra hno
      have hfound : ((new root settings).replay log).byModule.get? r.module = some claimed :=
        get?_byModule_replay.mpr ⟨edit, after, hends, hclaimed, hmodule,
          fun later hlater => ⟨hlast later hlater, fun heq => hno ⟨later, hlater, heq⟩⟩⟩
      rw [hlost] at hfound
      cases hfound
    refine ⟨edit, after, hends, ?_, hedit, hlast, htouched⟩
    rcases htouched with ⟨later, hlater, htouch⟩
    rcases ends_cases hown hends with ⟨hsame, hafter⟩ | hedited | hclaimedLater
    · rw [← hafter] at hlater
      rw [← htouch]
      exact huntouched later hlater
    · exact huntouched edit hedited
    · exact absurd hclaims (hlast own hclaimedLater)
  · intro hlost
    rcases hlost with ⟨edit, after, hends, _, hedit, hlast, later, hlater, htouch⟩
    rw [Option.eq_none_iff_forall_ne_some]
    intro found hfound
    rcases get?_byModule_replay.mp hfound with
      ⟨holder, rest, hholder, hrecord, hmodule, hkept⟩
    rcases ends_cases hholder hends with ⟨hsame, hafter⟩ | hedited | hheld
    · rw [← hsame] at htouch
      rw [← hafter] at hlater
      exact (hkept later hlater).right htouch
    · exact (hkept edit hedited).left hedit
    · exact hlast holder hheld (hmodule ▸ Edit.claims_of_record hrecord)

/-- Two files hold a module of one name, and in the one that claimed it last the module is then
renamed. -/
theorem name_lost_iff_renamed :
    let first := Path.ofString "/w/one/A.elm"
    let second := Path.ofString "/w/two/A.elm"
    let log := [.update first "module A exposing (..)\nf = x\n",
      .update second "module A exposing (..)\ng = x\n",
      .update second "module B exposing (..)\ng = x\n"]
    let ix := (new (Path.ofString "/w") .default).replay log
    exists r, ix.byPath.get? first = some r ∧ r.module = "A" ∧
      ix.byModule.get? r.module = none := by
  intro first second log ix
  have hrecord : ix.byPath.get? first =
      some ⟨first, "A", [⟨"f", .function, "A", ⟨"file:///w/one/A.elm"⟩, ⟨1, 0, 1, 1⟩⟩,
        ⟨"A", .module, "A", ⟨"file:///w/one/A.elm"⟩, ⟨0, 7, 0, 8⟩⟩]⟩ := by
    decide +kernel
  refine ⟨_, hrecord, rfl, (name_lost_iff hrecord).mpr ?_⟩
  refine ⟨.update second "module A exposing (..)\ng = x\n",
    [.update second "module B exposing (..)\ng = x\n"], List.suffix_cons _ _, ?_, ?_, ?_,
    .update second "module B exposing (..)\ng = x\n", List.mem_cons_self, rfl⟩
  · decide
  · decide +kernel
  · decide +kernel

/-- When the file that claimed a name last is forgotten, the module of another file stays in the
index without its name. -/
theorem name_lost_after_remove :
    let first := Path.ofString "/w/one/A.elm"
    let second := Path.ofString "/w/two/A.elm"
    let log := [.update first "module A exposing (..)\nf = x\n",
      .update second "module A exposing (..)\ng = x\n", .remove second]
    let ix := (new (Path.ofString "/w") .default).replay log
    (ix.byPath.get? first).map (·.module) = some "A" ∧ ix.byModule.get? "A" = none := by
  decide +kernel

end SymbolIndex
end ElmNavigator
