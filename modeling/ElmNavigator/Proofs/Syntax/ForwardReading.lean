import ElmNavigator.Proofs.Syntax.AlignedReading

/-!
# Rules that read what is written for them

A text that is written for a rule is read by it, whatever follows, as long as
what follows does not go on with the same word.  `Reads` says that a rule
succeeds and where it stops, and `Stops` that it does not apply; both are put
together as rules are.
-/

namespace ElmNavigator
namespace Syntax

open Text

namespace Rule

variable {α β : Type}

/-- At an input, a rule succeeds with a good value and leaves the rest. -/
def Reads (p : Rule α) (input rest : List Char) (good : α -> Prop) : Prop :=
  forall offset, exists a last,
    p { offset, rest := input } = .ok a { offset := last, rest } ∧ good a

def Stops (p : Rule α) (input : List Char) : Prop :=
  forall offset, exists last, p { offset, rest := input } = .stopped last

/-- A text does not go on with a character of a class. -/
def Ends (q : Char -> Bool) (rest : List Char) : Prop :=
  forall c cs, rest = c :: cs -> q c = false

theorem Reads.pure {a : α} {good : α -> Prop} (h : good a) (rest : List Char) :
    Reads (Pure.pure a) rest rest good :=
  fun offset => ⟨a, offset, rfl, h⟩

theorem Reads.self (a : α) (rest : List Char) :
    Reads (Pure.pure a) rest rest (fun b => b = a) :=
  fun offset => ⟨a, offset, rfl, rfl⟩

theorem Reads.mono {p : Rule α} {input rest : List Char} {good wider : α -> Prop}
    (h : p.Reads input rest good) (hwider : forall a, good a -> wider a) :
    p.Reads input rest wider := by
  intro offset
  rcases h offset with ⟨a, last, hresult, hgood⟩
  exact ⟨a, last, hresult, hwider a hgood⟩

theorem Reads.bind {p : Rule α} {f : α -> Rule β} {input middle rest : List Char}
    {good : α -> Prop} {goodNext : β -> Prop} (hp : p.Reads input middle good)
    (hf : forall a, good a -> (f a).Reads middle rest goodNext) :
    Reads (p >>= f) input rest goodNext := by
  intro offset
  rcases hp offset with ⟨a, last, hresult, hgood⟩
  rcases hf a hgood last with ⟨b, lastNext, hnext, hgoodNext⟩
  refine ⟨b, lastNext, ?_, hgoodNext⟩
  change andThen p f _ = _
  rw [andThen, hresult]
  exact hnext

theorem Reads.then {p : Rule α} {f : α -> Rule β} {input middle rest : List Char}
    {good : β -> Prop} (hp : p.Reads input middle fun _ => True)
    (hf : forall a, (f a).Reads middle rest good) : Reads (p >>= f) input rest good :=
  hp.bind fun a _ => hf a

theorem Reads.stops {p : Rule α} {f : α -> Rule β} {input middle : List Char}
    (hp : p.Reads input middle fun _ => True) (hf : forall a, (f a).Stops middle) :
    Stops (p >>= f) input := by
  intro offset
  rcases hp offset with ⟨a, last, hresult, _⟩
  rcases hf a last with ⟨stop, hstop⟩
  refine ⟨stop, ?_⟩
  change andThen p f _ = _
  rw [andThen, hresult]
  exact hstop

theorem Stops.bind {p : Rule α} {input : List Char} (hp : p.Stops input)
    (f : α -> Rule β) : Stops (p >>= f) input := by
  intro offset
  rcases hp offset with ⟨last, hresult⟩
  refine ⟨last, ?_⟩
  change andThen p f _ = _
  rw [andThen, hresult]

theorem Reads.orElse {p : Rule α} {input rest : List Char} {good : α -> Prop}
    (hp : p.Reads input rest good) (q : Rule α) : (orElse p q).Reads input rest good := by
  intro offset
  rcases hp offset with ⟨a, last, hresult, hgood⟩
  exact ⟨a, last, by rw [Rule.orElse, hresult], hgood⟩

theorem Stops.orElse {p q : Rule α} {input rest : List Char} {good : α -> Prop}
    (hp : p.Stops input) (hq : q.Reads input rest good) :
    (orElse p q).Reads input rest good := by
  intro offset
  rcases hp offset with ⟨_, hresult⟩
  rcases hq offset with ⟨a, last, hnext, hgood⟩
  exact ⟨a, last, by rw [Rule.orElse, hresult]; exact hnext, hgood⟩

theorem Stops.both {p q : Rule α} {input : List Char} (hp : p.Stops input)
    (hq : q.Stops input) : (Rule.orElse p q).Stops input := by
  intro offset
  rcases hp offset with ⟨_, hresult⟩
  rcases hq offset with ⟨last, hnext⟩
  exact ⟨last, by rw [Rule.orElse, hresult]; exact hnext⟩

theorem Reads.optional {p : Rule α} {input rest : List Char} {good : α -> Prop}
    (hp : p.Reads input rest good) :
    (optional p).Reads input rest (fun a? => exists a, a? = some a ∧ good a) := by
  intro offset
  rcases hp offset with ⟨a, last, hresult, hgood⟩
  exact ⟨some a, last, by rw [Rule.optional, hresult], a, rfl, hgood⟩

theorem Stops.optional {p : Rule α} {input : List Char} (hp : p.Stops input) :
    (optional p).Reads input input (fun a? => a? = none) := by
  intro offset
  rcases hp offset with ⟨last, hresult⟩
  exact ⟨none, offset, by rw [Rule.optional, hresult], rfl⟩

/-!
## Words
-/

theorem reads_word (w : String) (rest : List Char) :
    (word w).Reads (w.toList ++ rest) rest (fun _ => True) := by
  intro offset
  have hrest : w.toList.isPrefixOf? (w.toList ++ rest) = some rest :=
    List.isPrefixOf?_eq_some_iff_append_eq.mpr rfl
  exact ⟨(), _, by rw [word, hrest], trivial⟩

theorem reads_word_append (w : String) (text rest : List Char) :
    (word w).Reads (w.toList ++ text ++ rest) (text ++ rest) (fun _ => True) := by
  rw [List.append_assoc]
  exact reads_word w (text ++ rest)

theorem stops_word {w : String} {input : List Char} (h : w.toList.isPrefixOf? input = none) :
    (word w).Stops input :=
  fun offset => ⟨_, by rw [word, h]⟩

theorem reads_satisfy {q : Char -> Bool} {c : Char} (h : q c = true) (rest : List Char) :
    (satisfy q).Reads (c :: rest) rest (fun _ => True) :=
  fun _ => ⟨(), _, if_pos h, trivial⟩

theorem stops_satisfy {q : Char -> Bool} {input : List Char} (h : Ends q input) :
    (satisfy q).Stops input := by
  intro offset
  cases input with
  | nil => exact ⟨_, rfl⟩
  | cons c cs => exact ⟨_, if_neg (by simp [h c cs rfl])⟩

theorem reads_character (c : Char) (rest : List Char) :
    (character c).Reads (c :: rest) rest (fun _ => True) :=
  reads_satisfy (beq_self_eq_true c) rest

theorem stops_character {c d : Char} (h : d ≠ c) (rest : List Char) :
    (character c).Stops (d :: rest) := by
  apply stops_satisfy
  intro e es heq
  injection heq with hd _
  rw [← hd]
  exact beq_eq_false_iff_ne.mpr h

theorem reads_skipWhile {q : Char -> Bool} {text rest : List Char}
    (htext : forall c, c ∈ text -> q c = true) (hrest : Ends q rest) :
    (skipWhile q).Reads (text ++ rest) rest (fun _ => True) := by
  intro offset
  have hdrop : (text ++ rest).dropWhile q = rest := by
    rw [List.dropWhile_append_of_pos htext]
    cases rest with
    | nil => rfl
    | cons c cs => exact List.dropWhile_cons_of_neg (by simp [hrest c cs rfl])
  exact ⟨(), _, by rw [skipWhile, hdrop], trivial⟩

theorem reads_skipWhile1 {q : Char -> Bool} {text rest : List Char} (hne : text ≠ [])
    (htext : forall c, c ∈ text -> q c = true) (hrest : Ends q rest) :
    (skipWhile1 q).Reads (text ++ rest) rest (fun _ => True) := by
  cases text with
  | nil => exact absurd rfl hne
  | cons c cs =>
      exact (reads_satisfy (htext c List.mem_cons_self) (cs ++ rest)).then fun _ =>
        reads_skipWhile (fun d hd => htext d (List.mem_cons_of_mem c hd)) hrest

theorem reads_atEnd : atEnd.Reads [] [] (fun _ => True) :=
  fun offset => ⟨(), offset, rfl, trivial⟩

theorem Reads.lexeme {p : Rule Unit} {text rest : List Char}
    (hp : p.Reads (text ++ rest) rest fun _ => True) :
    (lexeme p).Reads (text ++ rest) rest (fun l => l.text = text) := by
  intro offset
  rcases hp offset with ⟨_, last, hresult, _⟩
  refine ⟨_, last, by rw [Rule.lexeme, hresult], ?_⟩
  simp

theorem Stops.lexeme {p : Rule Unit} {input : List Char} (hp : p.Stops input) :
    (lexeme p).Stops input := by
  intro offset
  rcases hp offset with ⟨last, hresult⟩
  exact ⟨last, by rw [Rule.lexeme, hresult]⟩

/-!
## Repetitions
-/

/-- A rule reads one item after the other, each time some of the text, and then stops. -/
inductive Repeats {ι : Type} (p : Rule α) (good : ι -> α -> Prop) :
    List ι -> List Char -> List Char -> Prop where
  | stop {rest : List Char} : p.Stops rest -> Repeats p good [] rest rest
  | next {i : ι} {items : List ι} {input middle rest : List Char} :
      p.Reads input middle (good i) -> middle.length < input.length ->
        Repeats p good items middle rest -> Repeats p good (i :: items) input rest

/-- There are as many rounds as characters, and each item takes at least one. -/
theorem Repeats.reads {ι : Type} {p : Rule α} {good : ι -> α -> Prop} {items : List ι}
    {input rest : List Char} (h : Repeats p good items input rest) :
    (many p).Reads input rest (fun as => List.Forall₂ good items as) := by
  have hrounds : forall rounds, input.length ≤ rounds -> forall offset, exists as last,
      upTo p rounds { offset, rest := input } = (as, { offset := last, rest }) ∧
        List.Forall₂ good items as := by
    induction h with
    | stop hstop =>
        intro rounds _ offset
        rcases hstop offset with ⟨last, hresult⟩
        exact ⟨[], offset, upTo_of_stopped hresult rounds, List.Forall₂.nil⟩
    | next hread hshorter _ ih =>
        intro rounds hle offset
        cases rounds with
        | zero => omega
        | succ rounds =>
            rcases hread offset with ⟨a, next, hresult, hgood⟩
            rcases ih rounds (by omega) next with ⟨as, last, has, hall⟩
            refine ⟨a :: as, last, ?_, List.Forall₂.cons hgood hall⟩
            rw [upTo, hresult]
            simp only [has]
  intro offset
  rcases hrounds input.length (Nat.le_refl _) offset with ⟨as, last, has, hall⟩
  exact ⟨as, last, by rw [many, has], hall⟩

theorem reads_many {ι : Type} {p : Rule α} {text : ι -> List Char} {good : ι -> α -> Prop}
    {fits : List Char -> Prop}
    (hread : forall i rest, fits rest -> p.Reads (text i ++ rest) rest (good i))
    (hne : forall i, text i ≠ []) (hfits : forall i rest, fits (text i ++ rest))
    {rest : List Char} (hrest : fits rest) (hstop : p.Stops rest) (items : List ι) :
    (many p).Reads (items.flatMap text ++ rest) rest
      (fun as => List.Forall₂ good items as) := by
  apply Repeats.reads
  induction items with
  | nil => exact Repeats.stop hstop
  | cons i items ih =>
      have hnext : fits (items.flatMap text ++ rest) := by
        cases items with
        | nil => exact hrest
        | cons j items =>
            rw [List.flatMap_cons, List.append_assoc]
            exact hfits j _
      have hpos := List.length_pos_iff.mpr (hne i)
      rw [List.flatMap_cons, List.append_assoc]
      refine Repeats.next (hread i _ hnext) ?_ ih
      simp only [List.length_append]
      omega

end Rule
end Syntax
end ElmNavigator
