import ElmNavigator.Proofs.Syntax.MaskedText
import Mathlib.Data.List.Basic
import Mathlib.Data.List.TakeWhile

/-!
# What rules read

Every rule of the grammar moves its cursor forward over characters of the text
and nowhere else, whether it succeeds or stops.  Two judgments say so.
`Consumes` describes the text that a rule has read, `Yields` the value that it
gives; the values that matter here hold pieces of the text and their places, and
a place is good for the whole text from a fixed origin on.  Both judgments have
one lemma for each way to combine rules.
-/

namespace ElmNavigator
namespace Syntax

open Text

namespace Cursor

def Steps (cur : Cursor) (read : List Char) (next : Cursor) : Prop :=
  cur.rest = read ++ next.rest ∧ next.offset = cur.offset + byteLength read

def Reaches (cur next : Cursor) : Prop :=
  exists read, cur.Steps read next

/-- A word stands in the text behind a cursor, at the place that comes with it. -/
def Shows (origin : Cursor) (word : Named Span) : Prop :=
  IsWord word.name.toList ∧
    exists before after,
      origin.rest = before ++ word.name.toList ++ after ∧
        word.location.start = origin.offset + byteLength before ∧
        word.location.stop =
          origin.offset + byteLength (before ++ word.name.toList)

theorem Steps.refl (cur : Cursor) : cur.Steps [] cur :=
  ⟨rfl, rfl⟩

theorem Steps.trans {a b c : Cursor} {s t : List Char}
    (hab : a.Steps s b) (hbc : b.Steps t c) : a.Steps (s ++ t) c := by
  rcases hab with ⟨hrest, hoffset⟩
  rcases hbc with ⟨hrest', hoffset'⟩
  constructor
  · rw [hrest, hrest', List.append_assoc]
  · rw [hoffset', hoffset, byteLength_append, Nat.add_assoc]

theorem Reaches.refl (cur : Cursor) : cur.Reaches cur :=
  ⟨[], Steps.refl cur⟩

theorem Reaches.trans {a b c : Cursor}
    (hab : a.Reaches b) (hbc : b.Reaches c) : a.Reaches c := by
  rcases hab with ⟨s, hs⟩
  rcases hbc with ⟨t, ht⟩
  exact ⟨s ++ t, hs.trans ht⟩

end Cursor

namespace Rule

variable {α β : Type}

/-- A rule only moves forward, and if it succeeds it has read an accepted text. -/
def Consumes (p : Rule α) (accepted : List Char -> Prop) : Prop :=
  forall cur,
    match p cur with
    | .ok _ next => exists read, cur.Steps read next ∧ accepted read
    | .stopped last => cur.Reaches last

/-- Started anywhere behind the origin, a rule stays behind it, and its value is a good one. -/
def Yields (origin : Cursor) (p : Rule α) (good : α -> Prop) : Prop :=
  forall cur, origin.Reaches cur ->
    match p cur with
    | .ok a next => origin.Reaches next ∧ good a
    | .stopped last => origin.Reaches last

/-!
## Texts
-/

theorem Consumes.mono {p : Rule α} {accepted wider : List Char -> Prop}
    (hp : p.Consumes accepted)
    (hwider : forall text, accepted text -> wider text) :
    p.Consumes wider := by
  intro cur
  have hcur := hp cur
  cases hresult : p cur with
  | ok a next =>
      rw [hresult] at hcur
      rcases hcur with ⟨read, hsteps, haccepted⟩
      exact ⟨read, hsteps, hwider read haccepted⟩
  | stopped last =>
      rw [hresult] at hcur
      exact hcur

theorem Consumes.bind {p : Rule α} {f : α -> Rule β}
    {first second : List Char -> Prop}
    (hp : p.Consumes first) (hf : forall a, (f a).Consumes second) :
    Consumes (p >>= f)
      (fun text => exists s t, text = s ++ t ∧ first s ∧ second t) := by
  intro cur
  have hcur := hp cur
  change match andThen p f cur with
    | .ok _ next => exists read, cur.Steps read next ∧
        exists s t, read = s ++ t ∧ first s ∧ second t
    | .stopped last => cur.Reaches last
  unfold andThen
  cases hresult : p cur with
  | stopped last =>
      rw [hresult] at hcur
      exact hcur
  | ok a next =>
      rw [hresult] at hcur
      rcases hcur with ⟨s, hs, hfirst⟩
      have hnext := hf a next
      show match f a next with
        | .ok _ next => exists read, cur.Steps read next ∧
            exists s t, read = s ++ t ∧ first s ∧ second t
        | .stopped last => cur.Reaches last
      cases hsecond : f a next with
      | stopped last =>
          rw [hsecond] at hnext
          exact Cursor.Reaches.trans ⟨s, hs⟩ hnext
      | ok b last =>
          rw [hsecond] at hnext
          rcases hnext with ⟨t, ht, haccepted⟩
          exact ⟨s ++ t, hs.trans ht, s, t, rfl, hfirst, haccepted⟩

theorem pure_consumes (a : α) :
    Consumes (pure a) (fun text => text = []) :=
  fun cur => ⟨[], Cursor.Steps.refl cur, rfl⟩

theorem satisfy_consumes (q : Char -> Bool) :
    (satisfy q).Consumes (fun text => exists c, text = [c] ∧ q c = true) := by
  intro cur
  rcases cur with ⟨offset, rest⟩
  cases rest with
  | nil =>
      exact Cursor.Reaches.refl _
  | cons c rest =>
      by_cases hc : q c = true
      · simp only [satisfy, hc, if_true]
        exact ⟨[c], ⟨rfl, rfl⟩, c, rfl, hc⟩
      · simp only [satisfy, hc]
        exact Cursor.Reaches.refl _

theorem character_consumes (c : Char) :
    (character c).Consumes (fun text => text = [c]) := by
  apply (satisfy_consumes (· == c)).mono
  rintro text ⟨d, htext, hd⟩
  rw [htext, eq_of_beq hd]

theorem word_consumes (w : String) :
    (word w).Consumes (fun text => text = w.toList) := by
  intro cur
  unfold word
  cases hrest : w.toList.isPrefixOf? cur.rest with
  | none =>
      exact Cursor.Reaches.refl cur
  | some rest =>
      have hcur : w.toList ++ rest = cur.rest :=
        List.append_eq_of_isPrefixOf?_eq_some hrest
      exact ⟨w.toList, ⟨hcur.symm, rfl⟩, rfl⟩

theorem skipWhile_consumes (q : Char -> Bool) :
    (skipWhile q).Consumes
      (fun text => forall c, c ∈ text -> q c = true) := by
  intro cur
  refine ⟨cur.rest.takeWhile q, ⟨?_, rfl⟩, ?_⟩
  · exact List.takeWhile_append_dropWhile.symm
  · intro c hc
    exact List.mem_takeWhile_imp hc

theorem skipWhile1_consumes (q : Char -> Bool) :
    (skipWhile1 q).Consumes
      (fun text => text ≠ [] ∧ forall c, c ∈ text -> q c = true) := by
  apply ((satisfy_consumes q).bind fun _ => skipWhile_consumes q).mono
  rintro text ⟨s, t, htext, ⟨c, hs, hc⟩, ht⟩
  subst hs htext
  constructor
  · simp
  · intro d hd
    rcases List.mem_cons.mp hd with hhead | htail
    · rw [hhead]
      exact hc
    · exact ht d htail

theorem atEnd_consumes : atEnd.Consumes (fun text => text = []) := by
  intro cur
  unfold atEnd
  cases cur.rest with
  | nil =>
      exact ⟨[], Cursor.Steps.refl cur, rfl⟩
  | cons c rest =>
      exact Cursor.Reaches.refl cur

theorem many_consumes {p : Rule α} {accepted : List Char -> Prop}
    (hp : p.Consumes accepted) :
    (many p).Consumes
      (fun text => exists texts : List (List Char), text = texts.flatten ∧
        forall t, t ∈ texts -> accepted t) := by
  have hrounds : forall (rounds : Nat) (cur : Cursor), exists read,
      cur.Steps read (upTo p rounds cur).2 ∧
        exists texts : List (List Char), read = texts.flatten ∧
          forall t, t ∈ texts -> accepted t := by
    intro rounds
    induction rounds with
    | zero =>
        intro cur
        exact ⟨[], Cursor.Steps.refl cur, [], rfl, by simp⟩
    | succ rounds ih =>
        intro cur
        have hcur := hp cur
        simp only [upTo]
        cases hresult : p cur with
        | stopped last =>
            exact ⟨[], Cursor.Steps.refl cur, [], rfl, by simp⟩
        | ok a next =>
            rw [hresult] at hcur
            rcases hcur with ⟨s, hs, hfirst⟩
            rcases ih next with ⟨t, ht, texts, htexts, hall⟩
            refine ⟨s ++ t, hs.trans ht, s :: texts, ?_, ?_⟩
            · rw [htexts]
              rfl
            · intro u hu
              rcases List.mem_cons.mp hu with hhead | htail
              · rw [hhead]
                exact hfirst
              · exact hall u htail
  intro cur
  exact hrounds cur.rest.length cur

/-!
## Values
-/

section Values

variable {origin : Cursor}

theorem Consumes.yields {p : Rule α} {accepted : List Char -> Prop}
    (hp : p.Consumes accepted) : p.Yields origin (fun _ => True) := by
  intro cur hreach
  have hcur := hp cur
  cases hresult : p cur with
  | ok a next =>
      rw [hresult] at hcur
      rcases hcur with ⟨read, hsteps, _haccepted⟩
      exact ⟨hreach.trans ⟨read, hsteps⟩, trivial⟩
  | stopped last =>
      rw [hresult] at hcur
      exact hreach.trans hcur

theorem Yields.pure {a : α} {good : α -> Prop} (ha : good a) :
    Yields origin (pure a) good := by
  intro cur hreach
  exact ⟨hreach, ha⟩

theorem Yields.mono {p : Rule α} {good better : α -> Prop}
    (hp : p.Yields origin better) (hgood : forall a, better a -> good a) :
    p.Yields origin good := by
  intro cur hreach
  have hcur := hp cur hreach
  cases hresult : p cur with
  | ok a next =>
      rw [hresult] at hcur
      exact ⟨hcur.left, hgood a hcur.right⟩
  | stopped last =>
      rw [hresult] at hcur
      exact hcur

theorem Yields.bind {p : Rule α} {f : α -> Rule β}
    {good : α -> Prop} {goodNext : β -> Prop}
    (hp : p.Yields origin good)
    (hf : forall a, good a -> (f a).Yields origin goodNext) :
    Yields origin (p >>= f) goodNext := by
  intro cur hreach
  have hcur := hp cur hreach
  change match andThen p f cur with
    | .ok b next => origin.Reaches next ∧ goodNext b
    | .stopped last => origin.Reaches last
  unfold andThen
  cases hresult : p cur with
  | stopped last =>
      rw [hresult] at hcur
      exact hcur
  | ok a next =>
      rw [hresult] at hcur
      exact hf a hcur.right next hcur.left

theorem Consumes.then {p : Rule α} {accepted : List Char -> Prop}
    {f : α -> Rule β} {good : β -> Prop} (hp : p.Consumes accepted)
    (hf : forall a, (f a).Yields origin good) :
    Yields origin (p >>= f) good :=
  hp.yields.bind fun a _ => hf a

theorem Yields.orElse {p q : Rule α} {good : α -> Prop}
    (hp : p.Yields origin good) (hq : q.Yields origin good) :
    (orElse p q).Yields origin good := by
  intro cur hreach
  have hcur := hp cur hreach
  unfold Rule.orElse
  cases hresult : p cur with
  | ok a next =>
      rw [hresult] at hcur
      exact hcur
  | stopped last =>
      exact hq cur hreach

theorem Yields.optional {p : Rule α} {good : α -> Prop}
    (hp : p.Yields origin good) :
    (optional p).Yields origin (fun a? => forall a, a? = some a -> good a) := by
  intro cur hreach
  have hcur := hp cur hreach
  unfold Rule.optional
  cases hresult : p cur with
  | ok a next =>
      rw [hresult] at hcur
      refine ⟨hcur.left, ?_⟩
      intro b hb
      injection hb with hb
      exact hb ▸ hcur.right
  | stopped last =>
      exact ⟨hreach, fun a ha => by cases ha⟩

theorem Yields.many {p : Rule α} {good : α -> Prop}
    (hp : p.Yields origin good) :
    (many p).Yields origin (fun as => forall a, a ∈ as -> good a) := by
  have hrounds : forall (rounds : Nat) (cur : Cursor), origin.Reaches cur ->
      origin.Reaches (upTo p rounds cur).2 ∧
        forall a, a ∈ (upTo p rounds cur).1 -> good a := by
    intro rounds
    induction rounds with
    | zero =>
        intro cur hreach
        exact ⟨hreach, fun a ha => by cases ha⟩
    | succ rounds ih =>
        intro cur hreach
        have hcur := hp cur hreach
        simp only [upTo]
        cases hresult : p cur with
        | stopped last =>
            exact ⟨hreach, fun a ha => by cases ha⟩
        | ok a next =>
            rw [hresult] at hcur
            rcases ih next hcur.left with ⟨hlast, hall⟩
            refine ⟨hlast, ?_⟩
            intro b hb
            rcases List.mem_cons.mp hb with hhead | htail
            · rw [hhead]
              exact hcur.right
            · exact hall b htail
  intro cur hreach
  exact hrounds cur.rest.length cur hreach

theorem Yields.separated {p : Rule α} {separator : Rule Unit}
    {accepted : List Char -> Prop} {good : α -> Prop}
    (hp : p.Yields origin good) (hseparator : separator.Consumes accepted) :
    (separated p separator).Yields origin
      (fun as => forall a, a ∈ as -> good a) := by
  apply hp.bind
  intro first hfirst
  apply (hseparator.then fun _ => hp).many.bind
  intro others hothers
  apply Yields.pure
  intro a ha
  rcases List.mem_cons.mp ha with hhead | htail
  · rw [hhead]
    exact hfirst
  · exact hothers a htail

theorem Consumes.lexeme {p : Rule Unit} {accepted : List Char -> Prop}
    (hp : p.Consumes accepted)
    (hword : forall text, accepted text -> IsWord text) :
    (lexeme p).Yields origin
      (fun l => accepted l.text ∧
        origin.Shows { name := String.ofList l.text, location := l.span }) := by
  rintro cur ⟨before, hbefore⟩
  have hcur := hp cur
  unfold Rule.lexeme
  cases hresult : p cur with
  | stopped last =>
      rw [hresult] at hcur
      exact Cursor.Reaches.trans ⟨before, hbefore⟩ hcur
  | ok u next =>
      rw [hresult] at hcur
      rcases hcur with ⟨read, hsteps, haccepted⟩
      have htext : cur.rest.take (cur.rest.length - next.rest.length) = read := by
        rw [hsteps.left, List.length_append, Nat.add_sub_cancel,
          List.take_left]
      refine ⟨Cursor.Reaches.trans ⟨before, hbefore⟩ ⟨read, hsteps⟩, ?_⟩
      simp only [htext]
      refine ⟨haccepted, ?_, before, next.rest, ?_, hbefore.right, ?_⟩
      · simpa using hword read haccepted
      · rw [hbefore.left, hsteps.left]
        simp
      · show next.offset = _
        rw [hsteps.right, hbefore.right]
        simp [Nat.add_assoc]

end Values

end Rule
end Syntax
end ElmNavigator
