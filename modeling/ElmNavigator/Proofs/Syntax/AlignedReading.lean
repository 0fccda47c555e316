import ElmNavigator.Proofs.Syntax.WrittenNames
import Mathlib.Data.List.Forall2

/-!
# Reading two texts alike

Two texts are read by one grammar, and at each moment the two cursors correspond.
What correspondence means is left open: the same text at another offset, or a
text with other blanks.  An alignment says which cursors correspond and how
places are compared, and it is lawful if the tests on single characters come out
alike.  Then all rules of the grammar do.
-/

namespace ElmNavigator
namespace Syntax

open Text Rule

/-- Which cursors of two texts correspond, which offsets of failures do, and what is compared of
places. -/
structure Alignment (κ : Type) where
  cursors : Cursor -> Cursor -> Prop
  stops : Nat -> Nat -> Prop
  left : Span -> κ
  right : Span -> κ

variable {κ α β γ δ : Type} {A : Alignment κ}

/-- Rules that come out alike: both succeed with like values, or both stop. -/
inductive Outcome.Aligned (A : Alignment κ) (like : α -> β -> Prop) :
    Outcome α -> Outcome β -> Prop where
  | ok {a : α} {b : β} {c d : Cursor} :
      A.cursors c d -> like a b -> Aligned A like (.ok a c) (.ok b d)
  | stopped {c d : Cursor} :
      A.stops c.offset d.offset -> Aligned A like (.stopped c) (.stopped d)

theorem Outcome.Aligned.cases {like : α -> β -> Prop} {left : Outcome α}
    {right : Outcome β} (h : left.Aligned A like right) :
    (exists a b c d, left = .ok a c ∧ right = .ok b d ∧ A.cursors c d ∧ like a b) ∨
      exists c d, left = .stopped c ∧ right = .stopped d ∧ A.stops c.offset d.offset := by
  cases h with
  | ok hcursors hlike => exact Or.inl ⟨_, _, _, _, rfl, rfl, hcursors, hlike⟩
  | stopped hstops => exact Or.inr ⟨_, _, rfl, rfl, hstops⟩

/-- Two rules agree if they come out alike from all cursors that correspond. -/
def Alignment.Agree (A : Alignment κ) (p : Rule α) (q : Rule β)
    (like : α -> β -> Prop) : Prop :=
  forall c d, A.cursors c d -> (p c).Aligned A like (q d)

def anyValues (_ : α) (_ : β) : Prop := True

theorem map_eq_of_forall₂ {f : α -> γ} {g : β -> γ} {as : List α} {bs : List β}
    (h : List.Forall₂ (fun a b => f a = g b) as bs) : as.map f = bs.map g := by
  induction h with
  | nil => rfl
  | cons hhead _ ih => rw [List.map_cons, List.map_cons, hhead, ih]

/-!
## Combining rules
-/

namespace Rule

/-- Rules that leave less to read than they found. -/
def Shortens (p : Rule α) : Prop :=
  forall c a next, p c = .ok a next -> next.rest.length < c.rest.length

theorem Consumes.shortens {p : Rule α} (h : p.Consumes (· ≠ [])) : p.Shortens := by
  intro c a next hresult
  have hcursor := h c
  rw [hresult] at hcursor
  rcases hcursor with ⟨read, hsteps, hne⟩
  have hpos := List.length_pos_iff.mpr hne
  rw [hsteps.left, List.length_append]
  omega

theorem Shortens.then {p : Rule α} {f : α -> Rule β} {good : Cursor -> β -> Prop}
    (hp : p.Shortens) (hf : forall a origin, (f a).Yields origin (good origin)) :
    Shortens (p >>= f) := by
  intro c b last hresult
  change andThen p f c = .ok b last at hresult
  unfold andThen at hresult
  cases hfirst : p c with
  | stopped stop =>
      rw [hfirst] at hresult
      cases hresult
  | ok a next =>
      rw [hfirst] at hresult
      have hnext := hf a next next (Cursor.Reaches.refl next)
      simp only at hresult
      rw [hresult] at hnext
      rcases hnext.left with ⟨read, hsteps⟩
      have hlt := hp c a next hfirst
      rw [hsteps.left, List.length_append] at hlt
      omega

theorem upTo_of_stopped {p : Rule α} {c last : Cursor} (h : p c = .stopped last)
    (rounds : Nat) : upTo p rounds c = ([], c) := by
  cases rounds with
  | zero => rfl
  | succ rounds => simp only [upTo, h]

end Rule

namespace Alignment

theorem Agree.pure {a : α} {b : β} {like : α -> β -> Prop} (h : like a b) :
    A.Agree (Pure.pure a : Rule α) (Pure.pure b : Rule β) like :=
  fun _ _ hcursors => Outcome.Aligned.ok hcursors h

theorem Agree.bind {p : Rule α} {q : Rule β} {f : α -> Rule γ} {g : β -> Rule δ}
    {like : α -> β -> Prop} {likeNext : γ -> δ -> Prop} (h : A.Agree p q like)
    (hnext : forall a b, like a b -> A.Agree (f a) (g b) likeNext) :
    A.Agree (p >>= f) (q >>= g) likeNext := by
  intro c d hcursors
  have hresult := h c d hcursors
  change (andThen p f c).Aligned A likeNext (andThen q g d)
  unfold andThen
  generalize p c = left, q d = right at hresult
  cases hresult with
  | ok hnextCursors hlike => exact hnext _ _ hlike _ _ hnextCursors
  | stopped hstops => exact Outcome.Aligned.stopped hstops

theorem Agree.then {p : Rule α} {q : Rule β} {f : α -> Rule γ} {g : β -> Rule δ}
    {likeNext : γ -> δ -> Prop} (h : A.Agree p q anyValues)
    (hnext : forall a b, A.Agree (f a) (g b) likeNext) :
    A.Agree (p >>= f) (q >>= g) likeNext :=
  h.bind fun a b _ => hnext a b

theorem Agree.orElse {p r : Rule α} {q s : Rule β} {like : α -> β -> Prop}
    (hfirst : A.Agree p q like) (hsecond : A.Agree r s like) :
    A.Agree (Rule.orElse p r) (Rule.orElse q s) like := by
  intro c d hcursors
  have hresult := hfirst c d hcursors
  unfold Rule.orElse
  generalize p c = left, q d = right at hresult
  cases hresult with
  | ok hnext hlike => exact Outcome.Aligned.ok hnext hlike
  | stopped hstops => exact hsecond c d hcursors

theorem Agree.optional {p : Rule α} {q : Rule β} {like : α -> β -> Prop}
    (h : A.Agree p q like) :
    A.Agree (Rule.optional p) (Rule.optional q) (Option.Rel like) := by
  intro c d hcursors
  have hresult := h c d hcursors
  unfold Rule.optional
  generalize p c = left, q d = right at hresult
  cases hresult with
  | ok hnext hlike => exact Outcome.Aligned.ok hnext (Option.Rel.some hlike)
  | stopped hstops => exact Outcome.Aligned.ok hcursors Option.Rel.none

/-- Rounds that read something are counted down by what is left on either side, so neither
repetition ends before the other. -/
theorem Agree.upTo {p : Rule α} {q : Rule β} {like : α -> β -> Prop}
    (h : A.Agree p q like) (hp : p.Shortens) (hq : q.Shortens)
    (rounds others : Nat) {c d : Cursor} (hcursors : A.cursors c d)
    (hrounds : c.rest.length ≤ rounds) (hothers : d.rest.length ≤ others) :
    List.Forall₂ like (Rule.upTo p rounds c).1 (Rule.upTo q others d).1 ∧
      A.cursors (Rule.upTo p rounds c).2 (Rule.upTo q others d).2 := by
  induction rounds generalizing others c d with
  | zero =>
      rcases (h c d hcursors).cases with
        ⟨a, b, next, _, hleft, _, _, _⟩ | ⟨last, other, hleft, hright, _⟩
      · have hlt := hp _ _ _ hleft
        omega
      · rw [upTo_of_stopped hleft, upTo_of_stopped hright]
        exact ⟨List.Forall₂.nil, hcursors⟩
  | succ rounds ih =>
      rcases (h c d hcursors).cases with
        ⟨a, b, next, nextRight, hleft, hright, hnext, hlike⟩ | ⟨last, other, hleft, hright, _⟩
      · have hlt := hp _ _ _ hleft
        have hltRight := hq _ _ _ hright
        cases others with
        | zero => omega
        | succ others =>
            rcases ih others hnext (by omega) (by omega) with ⟨hvalues, hlast⟩
            simp only [Rule.upTo, hleft, hright]
            exact ⟨List.Forall₂.cons hlike hvalues, hlast⟩
      · rw [upTo_of_stopped hleft, upTo_of_stopped hright]
        exact ⟨List.Forall₂.nil, hcursors⟩

theorem Agree.many {p : Rule α} {q : Rule β} {like : α -> β -> Prop}
    (h : A.Agree p q like) (hp : p.Shortens) (hq : q.Shortens) :
    A.Agree (Rule.many p) (Rule.many q) (List.Forall₂ like) := by
  intro c d hcursors
  rcases h.upTo hp hq _ _ hcursors (Nat.le_refl c.rest.length) (Nat.le_refl d.rest.length)
    with ⟨hvalues, hlast⟩
  exact Outcome.Aligned.ok hlast hvalues

theorem Agree.separated {p : Rule α} {q : Rule β} {separator : Rule Unit}
    {like : α -> β -> Prop} {good : Cursor -> α -> Prop} {goodRight : Cursor -> β -> Prop}
    (h : A.Agree p q like) (hseparator : A.Agree separator separator anyValues)
    (hshortens : separator.Shortens) (hp : forall origin, p.Yields origin (good origin))
    (hq : forall origin, q.Yields origin (goodRight origin)) :
    A.Agree (Rule.separated p separator) (Rule.separated q separator)
      (List.Forall₂ like) := by
  apply h.bind
  intro first firstRight hfirst
  have hmore : A.Agree (do separator; p) (do separator; q) like :=
    hseparator.then fun _ _ => h
  apply (hmore.many (hshortens.then fun _ => hp) (hshortens.then fun _ => hq)).bind
  intro others othersRight hothers
  exact Agree.pure (List.Forall₂.cons hfirst hothers)

end Alignment

/-!
## Lawful alignments
-/

/-- Texts without blanks. -/
def Unbroken (text : List Char) : Prop :=
  forall c, c ∈ text -> isBlank c = false

/-- Classes that take all blanks or none. -/
inductive BlankBlind (q : Char -> Bool) : Prop where
  | accepts (h : forall c, isBlank c = true -> q c = true)
  | rejects (h : forall c, q c = true -> isBlank c = false)

/-- An alignment under which the grammar cannot tell two texts apart.  Its tests do not tell one
blank from another, and what it keeps has no blank in it. -/
structure Alignment.Lawful (A : Alignment κ) : Prop where
  satisfy : forall {q}, (forall c, q c = true -> isBlank c = false) ->
    A.Agree (Rule.satisfy q) (Rule.satisfy q) anyValues
  skipWhile : forall {q}, BlankBlind q -> A.Agree (Rule.skipWhile q) (Rule.skipWhile q) anyValues
  blanks1 : A.Agree blanks1 blanks1 anyValues
  word : forall {w : String}, Unbroken w.toList -> A.Agree (Rule.word w) (Rule.word w) anyValues
  atEnd : A.Agree Rule.atEnd Rule.atEnd anyValues
  constructorArgs : A.Agree constructorArgs constructorArgs anyValues
  unbroken : forall {c d next nextRight : Cursor} {read readRight : List Char},
    A.cursors c d -> A.cursors next nextRight ->
    c.Steps read next -> d.Steps readRight nextRight ->
    Unbroken read -> Unbroken readRight ->
    read = readRight ∧
      A.left { start := c.offset, stop := next.offset } =
        A.right { start := d.offset, stop := nextRight.offset }

end Syntax
end ElmNavigator
