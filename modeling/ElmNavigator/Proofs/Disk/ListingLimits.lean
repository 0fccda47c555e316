import ElmNavigator.Disk.Listing

/-!
# Listings and their limits

A listing stops at its limit, and what it has found by then is where the whole listing
starts.  A listing that ends before its limit is the whole one.
-/

namespace ElmNavigator
namespace Disk

/-!
## Items that count
-/

/-- Whether a listing goes past an item: a file that does not belong to it, or a directory that is
left out. -/
def Item.isSkipped (wanted : Glob) (unwanted : Option Glob) : Item -> Bool
  | .file names => !isListed wanted unwanted names
  | .closed names _ => isPruned unwanted (names ++ [anyName])

def filesOf (items : List Item) : List Place :=
  items.filterMap fun item =>
    match item with
    | .file names => some names
    | .closed _ _ => none

section Collecting

variable {root : Path} {wanted : Glob} {unwanted : Option Glob}

theorem Item.skipped_or_counts (item : Item) :
    item.isSkipped wanted unwanted = true ∨
      (exists names error, item = .closed names error ∧
        isPruned unwanted (names ++ [anyName]) = false) ∨
      exists names, item = .file names ∧ isListed wanted unwanted names = true := by
  cases item with
  | closed names error =>
      cases hpruned : isPruned unwanted (names ++ [anyName]) with
      | true => exact Or.inl hpruned
      | false => exact Or.inr (Or.inl ⟨names, error, rfl, hpruned⟩)
  | file names =>
      cases hlisted : isListed wanted unwanted names with
      | true => exact Or.inr (Or.inr ⟨names, rfl, hlisted⟩)
      | false => exact Or.inl (by simp [Item.isSkipped, hlisted])

theorem collect_skipped {item : Item} (h : item.isSkipped wanted unwanted = true) (limit : Nat)
    (items : List Item) :
    collect root wanted unwanted limit (item :: items) =
      collect root wanted unwanted limit items := by
  cases limit with
  | zero =>
      rw [collect, collect]
  | succ limit =>
      cases item with
      | closed names error =>
          have hpruned : isPruned unwanted (names ++ [anyName]) = true := h
          rw [collect, if_pos hpruned]
      | file names =>
          have hlisted : ¬ isListed wanted unwanted names = true := by
            simpa [Item.isSkipped] using h
          rw [collect, if_neg hlisted]

theorem collect_closed {names : Place} (h : isPruned unwanted (names ++ [anyName]) = false)
    (error : AccessError) (limit : Nat) (items : List Item) :
    collect root wanted unwanted (limit + 1) (.closed names error :: items) =
      .error (.walk (pathBelow root names) error) := by
  rw [collect, h]
  rfl

theorem collect_listed {names : Place} (h : isListed wanted unwanted names = true) (limit : Nat)
    (items : List Item) :
    collect root wanted unwanted (limit + 1) (.file names :: items) =
      (collect root wanted unwanted limit items).map (pathBelow root names :: ·) := by
  rw [collect, if_pos h]

theorem collect_cases {item : Item} {items : List Item} {limit : Nat} {paths : List Path}
    (h : collect root wanted unwanted (limit + 1) (item :: items) = .ok paths) :
    item.isSkipped wanted unwanted = true ∨
      exists names rest, item = .file names ∧ isListed wanted unwanted names = true ∧
        collect root wanted unwanted limit items = .ok rest ∧
        paths = pathBelow root names :: rest := by
  rcases item.skipped_or_counts with hskipped | ⟨names, error, hitem, hopen⟩ |
    ⟨names, hitem, hlisted⟩
  · exact Or.inl hskipped
  · rw [hitem, collect_closed hopen] at h
    cases h
  · rw [hitem, collect_listed hlisted] at h
    cases hrest : collect root wanted unwanted limit items with
    | error e =>
        rw [hrest] at h
        cases h
    | ok rest =>
        rw [hrest] at h
        exact Or.inr ⟨names, rest, hitem, hlisted, rfl, (Except.ok.inj h).symm⟩

theorem collect_nil (limit : Nat) : collect root wanted unwanted limit [] = .ok [] := by
  cases limit with
  | zero => rfl
  | succ limit => rfl

theorem collect_take {items : List Item} {k n : Nat} {paths : List Path}
    (h : collect root wanted unwanted n items = .ok paths) (hle : k ≤ n) :
    collect root wanted unwanted k items = .ok (paths.take k) := by
  induction items generalizing k n paths with
  | nil =>
      rw [collect_nil] at h
      rw [collect_nil, ← Except.ok.inj h, List.take_nil]
  | cons item items ih =>
      cases k with
      | zero =>
          rw [List.take_zero, collect]
      | succ k =>
          rcases Nat.exists_eq_add_of_le' (Nat.lt_of_lt_of_le k.succ_pos hle) with ⟨m, hm⟩
          subst hm
          rcases collect_cases h with hskipped | ⟨names, rest, hitem, hlisted, hrest, hpaths⟩
          · rw [collect_skipped hskipped] at h ⊢
            exact ih h hle
          · subst hitem hpaths
            rw [collect_listed hlisted, ih hrest (Nat.le_of_succ_le_succ hle)]
            rfl

theorem collect_of_short {items : List Item} {n m : Nat} {paths : List Path}
    (h : collect root wanted unwanted n items = .ok paths) (hshort : paths.length < n)
    (hle : n ≤ m) : collect root wanted unwanted m items = .ok paths := by
  induction items generalizing n m paths with
  | nil =>
      rw [collect_nil] at h ⊢
      exact h
  | cons item items ih =>
      rcases Nat.exists_eq_add_of_le' (Nat.zero_lt_of_lt hshort) with ⟨limit, hlimit⟩
      subst hlimit
      rcases Nat.exists_eq_add_of_le' (Nat.lt_of_lt_of_le limit.succ_pos hle) with ⟨more, hmore⟩
      subst hmore
      rcases collect_cases h with hskipped | ⟨names, rest, hitem, hlisted, hrest, hpaths⟩
      · rw [collect_skipped hskipped] at h ⊢
        exact ih h hshort hle
      · subst hitem hpaths
        have hfewer : rest.length < limit := Nat.lt_of_succ_lt_succ hshort
        rw [collect_listed hlisted, ih hrest hfewer (Nat.le_of_succ_le_succ hle)]
        rfl

theorem collect_error {items : List Item} {limit : Nat} {e : FindError}
    (h : collect root wanted unwanted limit items = .error e) :
    exists p cause, e = .walk p cause := by
  induction items generalizing limit with
  | nil =>
      rw [collect_nil] at h
      cases h
  | cons item items ih =>
      cases limit with
      | zero =>
          cases h
      | succ limit =>
          rcases item.skipped_or_counts with hskipped | ⟨names, error, hitem, hopen⟩ |
            ⟨names, hitem, hlisted⟩
          · rw [collect_skipped hskipped] at h
            exact ih h
          · rw [hitem, collect_closed hopen] at h
            exact ⟨_, _, (Except.error.inj h).symm⟩
          · rw [hitem, collect_listed hlisted] at h
            cases hrest : collect root wanted unwanted limit items with
            | error cause =>
                rw [hrest] at h
                exact ih (hrest.trans (congrArg _ (Except.error.inj h)))
            | ok rest =>
                rw [hrest] at h
                cases h

theorem collect_of_open {items : List Item}
    (h : forall names error, .closed names error ∈ items ->
      isPruned unwanted (names ++ [anyName]) = true) (limit : Nat) :
    collect root wanted unwanted limit items =
      .ok ((((filesOf items).filter (isListed wanted unwanted)).map (pathBelow root)).take
        limit) := by
  induction items generalizing limit with
  | nil =>
      rw [collect_nil]
      simp [filesOf]
  | cons item items ih =>
      have hrest := ih fun names error hclosed => h names error (List.mem_cons_of_mem item hclosed)
      cases item with
      | closed names error =>
          have hskipped : Item.isSkipped wanted unwanted (.closed names error) = true :=
            h names error List.mem_cons_self
          rw [collect_skipped hskipped, hrest]
          rfl
      | file names =>
          cases hlisted : isListed wanted unwanted names with
          | false =>
              rw [collect_skipped (by simp [Item.isSkipped, hlisted]), hrest]
              simp [filesOf, hlisted]
          | true =>
              cases limit with
              | zero => rw [collect, List.take_zero]
              | succ limit =>
                  rw [collect_listed hlisted, hrest]
                  simp [filesOf, hlisted, Except.map]

end Collecting

/-!
## Listings and their limits
-/

namespace Tree

variable {t : Tree} {root : Path} {pattern : String} {exclude : Option String}

theorem find_of_collect {wanted : Glob} {unwanted : Option Glob} {items : List Item}
    (hpattern : readPattern pattern = .ok wanted) (hexclude : readExclude exclude = .ok unwanted)
    (hitems : t.itemsUnder root = .ok items) (limit : Nat) :
    t.find root pattern exclude limit = collect root wanted unwanted limit items := by
  unfold find findWith
  rw [hpattern, hexclude]
  cases limit with
  | zero =>
      rw [collect]
      rfl
  | succ limit =>
      rw [hitems]
      rfl

theorem readable_of_find {limit : Nat} {paths : List Path}
    (h : t.find root pattern exclude limit = .ok paths) :
    exists wanted unwanted, readPattern pattern = .ok wanted ∧
      readExclude exclude = .ok unwanted ∧
      (limit = 0 ∨ exists items, t.itemsUnder root = .ok items) := by
  unfold find findWith at h
  cases hpattern : readPattern pattern with
  | error e =>
      rw [hpattern] at h
      cases h
  | ok wanted =>
      cases hexclude : readExclude exclude with
      | error e =>
          rw [hpattern, hexclude] at h
          cases h
      | ok unwanted =>
          refine ⟨wanted, unwanted, rfl, rfl, ?_⟩
          rw [hpattern, hexclude] at h
          by_cases hlimit : limit = 0
          · exact Or.inl hlimit
          · simp only [if_neg hlimit] at h
            cases hitems : t.itemsUnder root with
            | error e =>
                rw [hitems] at h
                cases h
            | ok items =>
                exact Or.inr ⟨items, rfl⟩

theorem find_zero {wanted : Glob} {unwanted : Option Glob}
    (hpattern : readPattern pattern = .ok wanted) (hexclude : readExclude exclude = .ok unwanted) :
    t.find root pattern exclude 0 = .ok [] := by
  unfold find findWith
  rw [hpattern, hexclude]
  rfl

theorem find_take {k n : Nat} {paths : List Path}
    (h : t.find root pattern exclude n = .ok paths) (hle : k ≤ n) :
    t.find root pattern exclude k = .ok (paths.take k) := by
  rcases readable_of_find h with ⟨wanted, unwanted, hpattern, hexclude, hnone | ⟨items, hitems⟩⟩
  · have hk : k = 0 := Nat.le_zero.mp (hnone ▸ hle)
    rw [hk, find_zero hpattern hexclude, List.take_zero]
  · rw [find_of_collect hpattern hexclude hitems] at h ⊢
    exact collect_take h hle

theorem find_of_short {n m : Nat} {paths : List Path}
    (h : t.find root pattern exclude n = .ok paths) (hshort : paths.length < n) (hle : n ≤ m) :
    t.find root pattern exclude m = .ok paths := by
  rcases readable_of_find h with ⟨wanted, unwanted, hpattern, hexclude, hnone | ⟨items, hitems⟩⟩
  · exact absurd (hnone ▸ hshort) (Nat.not_lt_zero _)
  · rw [find_of_collect hpattern hexclude hitems] at h ⊢
    exact collect_of_short h hshort hle

theorem find_error {n : Nat} {e : FindError} (h : t.find root pattern exclude n = .error e)
    (hwalk : forall p cause, e ≠ .walk p cause) (k : Nat) :
    t.find root pattern exclude k = .error e := by
  unfold find findWith at h ⊢
  cases hpattern : readPattern pattern with
  | error cause =>
      rw [hpattern] at h
      exact h
  | ok wanted =>
      cases hexclude : readExclude exclude with
      | error cause =>
          rw [hpattern, hexclude] at h
          exact h
      | ok unwanted =>
          exfalso
          rw [hpattern, hexclude] at h
          by_cases hn : n = 0
          · simp only [if_pos hn] at h
            cases h
          · simp only [if_neg hn] at h
            cases hitems : t.itemsUnder root with
            | error cause =>
                rw [hitems] at h
                exact hwalk root cause (Except.error.inj h).symm
            | ok items =>
                rw [hitems] at h
                rcases collect_error h with ⟨p, cause, he⟩
                exact hwalk p cause he

/-- What a listing finds with a limit is the start of what it finds with a larger one, as long as
that meets no error on the way. -/
theorem find_limited {k n : Nat} (hle : k ≤ n)
    (hwalk : forall p cause, t.find root pattern exclude n ≠ .error (.walk p cause)) :
    t.find root pattern exclude k = (t.find root pattern exclude n).map (List.take k) := by
  cases hfind : t.find root pattern exclude n with
  | ok paths =>
      exact find_take hfind hle
  | error e =>
      apply find_error hfind
      intro p cause he
      exact hwalk p cause (he ▸ hfind)

/-- What a listing finds if it is asked for enough files. -/
def FindsAll (t : Tree) (root : Path) (pattern : String) (exclude : Option String)
    (paths : List Path) : Prop :=
  exists enough, forall limit, enough ≤ limit -> t.find root pattern exclude limit = .ok paths

theorem FindsAll.find {paths : List Path} (h : t.FindsAll root pattern exclude paths)
    (limit : Nat) : t.find root pattern exclude limit = .ok (paths.take limit) := by
  rcases h with ⟨enough, hall⟩
  exact find_take (hall _ (Nat.le_max_left enough limit)) (Nat.le_max_right enough limit)

theorem findsAll_of_open {wanted : Glob} {unwanted : Option Glob} {items : List Item}
    (hpattern : readPattern pattern = .ok wanted) (hexclude : readExclude exclude = .ok unwanted)
    (hitems : t.itemsUnder root = .ok items)
    (hopen : forall names error, .closed names error ∈ items ->
      isPruned unwanted (names ++ [anyName]) = true) :
    t.FindsAll root pattern exclude
      (((filesOf items).filter (isListed wanted unwanted)).map (pathBelow root)) := by
  refine ⟨(filesOf items).length, ?_⟩
  intro limit hlimit
  rw [find_of_collect hpattern hexclude hitems, collect_of_open hopen, List.take_of_length_le]
  rw [List.length_map]
  exact Nat.le_trans (List.length_filter_le _ _) hlimit

/-- Asking for two files is enough to tell whether there is exactly one. -/
theorem findsAll_singleton_iff {p : Path} :
    t.FindsAll root pattern exclude [p] ↔ t.find root pattern exclude 2 = .ok [p] := by
  constructor
  · intro h
    exact h.find 2
  · intro h
    exact ⟨2, fun limit hlimit => find_of_short h Nat.one_lt_two hlimit⟩

end Tree
end Disk
end ElmNavigator
