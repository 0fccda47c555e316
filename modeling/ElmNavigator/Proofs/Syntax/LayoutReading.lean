import ElmNavigator.Proofs.Syntax.ForwardReading
import ElmNavigator.Proofs.Syntax.LayoutTexts

/-!
# The grammar reads layouts

Each rule of the grammar reads the text of its layout, whatever the blanks in it
are, and its value is what the layout stands for.  Alternatives are tried in
order, so it also has to be shown that the earlier ones do not apply.
-/

namespace ElmNavigator
namespace Syntax

open Text Rule

/-!
## What follows a piece
-/

theorem StartsWord.cons {c : Char} (h : isBlank c = false) (cs : List Char) :
    StartsWord (c :: cs) :=
  ⟨c, cs, rfl, h⟩

theorem StartsWord.ends {text : List Char} (h : StartsWord text) : Ends isBlank text := by
  rcases h with ⟨c, cs, htext, hc⟩
  intro d ds hd
  rw [htext] at hd
  injection hd with hd _
  rw [← hd]
  exact hc

theorem Ends.nil (q : Char -> Bool) : Ends q [] := by
  intro c cs h
  cases h

theorem Ends.cons {q : Char -> Bool} {c : Char} (h : q c = false) (cs : List Char) :
    Ends q (c :: cs) := by
  intro d ds hd
  injection hd with hd _
  rw [← hd]
  exact h

theorem Ends.append {q : Char -> Bool} {text rest : List Char} (htext : Ends q text)
    (hrest : Ends q rest) : Ends q (text ++ rest) := by
  cases text with
  | nil => exact hrest
  | cons c cs => exact Ends.cons (htext c cs rfl) _

theorem Ends.of_append {q : Char -> Bool} {text rest : List Char} (h : Ends q (text ++ rest)) :
    Ends q text := by
  rintro c cs rfl
  exact h c (cs ++ rest) rfl

theorem Ends.blanks {q : Char -> Bool} {text rest : List Char} (hrest : Ends q rest)
    (htext : AllBlank text) (hq : forall c, q c = true -> isBlank c = false) :
    Ends q (text ++ rest) := by
  refine Ends.append ?_ hrest
  rintro c cs rfl
  exact eq_false_of_isBlank hq (htext c List.mem_cons_self)

/-- Behind blanks there is a comma or a closing parenthesis. -/
def Delimited (rest : List Char) : Prop :=
  exists space c back, rest = space ++ c :: back ∧ AllBlank space ∧ (c = ',' ∨ c = ')')

theorem delimiter_classes {c : Char} (h : c = ',' ∨ c = ')') :
    isIdentChar c = false ∧ isBlank c = false ∧ c ≠ '(' := by
  rcases h with hcomma | hclose
  · rw [hcomma]
    decide
  · rw [hclose]
    decide

theorem Delimited.ends {rest : List Char} (h : Delimited rest) : Ends isIdentChar rest := by
  rcases h with ⟨space, c, back, hrest, hspace, hc⟩
  rw [hrest]
  exact Ends.blanks (Ends.cons (delimiter_classes hc).left back) hspace
    fun _ => isBlank_of_isIdentChar

theorem Delimited.stops {rest : List Char} (h : Delimited rest) :
    Stops (do blanks; typeMembers) rest := by
  rcases h with ⟨space, c, back, hrest, hspace, hc⟩
  rcases delimiter_classes hc with ⟨_, hblank, hopen⟩
  rw [hrest]
  exact (reads_skipWhile hspace (Ends.cons hblank _)).stops fun _ =>
    (stops_character hopen _).bind _

namespace Layout

theorem Space.delimited (s : Space) {c : Char} (h : c = ',' ∨ c = ')') (rest : List Char) :
    Delimited (s.text ++ c :: rest) :=
  ⟨s.text, c, rest, rfl, s.blank, h⟩

theorem Break.ends (b : Break) {q : Char -> Bool}
    (h : forall c, q c = true -> isBlank c = false) (rest : List Char) :
    Ends q (b.text ++ rest) := by
  cases htext : b.text with
  | nil => exact absurd htext b.nonempty
  | cons c cs =>
      have hblank := b.blank c (htext ▸ List.mem_cons_self)
      exact Ends.cons (eq_false_of_isBlank h hblank) _

theorem isBlank_of_dot {c : Char} (h : (c == '.') = true) : isBlank c = false := by
  rw [eq_of_beq h]
  decide

/-!
## Lexical pieces
-/

theorem Space.reads (s : Space) {rest : List Char} (h : Ends isBlank rest) :
    blanks.Reads (s.text ++ rest) rest (fun _ => True) :=
  reads_skipWhile s.blank h

theorem Break.reads (b : Break) {rest : List Char} (h : Ends isBlank rest) :
    blanks1.Reads (b.text ++ rest) rest (fun _ => True) :=
  reads_skipWhile1 b.nonempty b.blank h

theorem reads_no_blanks : blanks.Reads [] [] (fun _ => True) := by
  have hnone : forall c : Char, c ∈ [] -> isBlank c = true := by
    intro c hc
    cases hc
  exact reads_skipWhile hnone (Ends.nil isBlank)

theorem reads_identifier {first : Char -> Bool} {text rest : List Char}
    (h : IsIdentifier first text) (hrest : Ends isIdentChar rest) :
    Reads (do satisfy first; skipWhile isIdentChar) (text ++ rest) rest (fun _ => True) := by
  rcases h with ⟨c, cs, htext, hc, hcs⟩
  subst htext
  exact (reads_satisfy hc (cs ++ rest)).then fun _ => reads_skipWhile hcs hrest

theorem reads_named {p : Rule Unit} {text rest : List Char}
    (h : p.Reads (text ++ rest) rest fun _ => True) :
    Reads (do let l ← lexeme p; return l.named) (text ++ rest) rest
      (fun n => n.name = String.ofList text) := by
  apply h.lexeme.bind
  intro l hl
  refine Reads.pure ?_ rest
  exact congrArg String.ofList hl

theorem Upper.reads (name : Upper) {rest : List Char} (h : Ends isIdentChar rest) :
    upperName.Reads (name.text ++ rest) rest (fun n => n.name = String.ofList name.text) :=
  reads_named (reads_identifier name.spelled h)

theorem stops_operatorName {c : Char} (h : c ≠ '(') (rest : List Char) :
    operatorName.Stops (c :: rest) :=
  ((stops_character h rest).bind _).lexeme.bind _

theorem Lower.reads (name : Lower) {rest : List Char} (h : Ends isIdentChar rest) :
    valueName.Reads (name.text ++ rest) rest (fun n => n.name = String.ofList name.text) := by
  refine Stops.orElse ?_ (reads_named (reads_identifier name.spelled h))
  rcases name.spelled with ⟨c, cs, htext, hc, _⟩
  have hopen : c ≠ '(' := ne_of_class (p := fun c => isLower c || c == '_') hc (by decide)
  rw [htext]
  exact stops_operatorName hopen _

theorem Operator.reads (name : Operator) (rest : List Char) :
    valueName.Reads ('(' :: (name.text ++ ')' :: rest)) rest
      (fun n => n.name = String.ofList name.text) := by
  apply Reads.orElse
  have hinside : Reads (do character '('; skipWhile1 isOperatorChar; character ')')
      ('(' :: (name.text ++ [')']) ++ rest) rest (fun _ => True) := by
    have htext : '(' :: (name.text ++ [')']) ++ rest = '(' :: (name.text ++ ')' :: rest) := by
      simp
    rw [htext]
    exact (reads_character '(' _).then fun _ =>
      (reads_skipWhile1 name.nonempty name.spelled (Ends.cons (by decide) rest)).then fun _ =>
        reads_character ')' rest
  have hlexeme := hinside.lexeme
  simp only [List.cons_append, List.append_assoc, List.nil_append] at hlexeme
  apply hlexeme.bind
  intro l hl
  refine Reads.pure ?_ rest
  simp [hl]

theorem Upper.stops (name : Upper) (rest : List Char) : valueName.Stops (name.text ++ rest) := by
  rcases name.spelled with ⟨c, cs, htext, hc, _⟩
  rw [htext, List.cons_append]
  have hunderscore : c ≠ '_' := ne_of_class hc (by decide)
  have hlower : (isLower c || c == '_') = false := by
    simp [isLower_of_isUpper hc, hunderscore]
  exact Stops.both (stops_operatorName (ne_of_class hc (by decide)) _)
    (((stops_satisfy (Ends.cons hlower _)).bind _).lexeme.bind _)

theorem Dotted.reads (name : Dotted) {rest : List Char} (h : Ends isIdentChar rest)
    (hdot : Ends (· == '.') rest) :
    moduleName.Reads (name.text ++ rest) rest (fun n => n.name = String.ofList name.text) := by
  have hdots : forall part rest, Ends isIdentChar ('.' :: Upper.text part ++ rest) :=
    fun part rest => Ends.cons (by decide) _
  have hparts : (many do { character '.'; skipUpperName }).Reads
      (name.more.flatMap (fun part => '.' :: part.text) ++ rest) rest
      (fun units => List.Forall₂ (fun _ _ => True) name.more units) := by
    refine reads_many ?_ (fun part => List.cons_ne_nil _ _) hdots h
      ((stops_satisfy hdot).bind _) name.more
    intro part rest hrest
    exact (reads_character '.' _).then fun _ => reads_identifier part.spelled hrest
  have hfirst : Ends isIdentChar
      (name.more.flatMap (fun part => '.' :: part.text) ++ rest) := by
    cases name.more with
    | nil => exact h
    | cons part more => exact Ends.cons (by decide) _
  apply reads_named
  rw [Dotted.text, List.append_assoc]
  exact (reads_identifier name.first.spelled hfirst).then fun _ =>
    hparts.bind fun _ _ => Reads.pure trivial rest

/-!
## Lists
-/

/-- Texts that begin with a letter or an opening parenthesis, as the items of a list do. -/
def Opens (text : List Char) : Prop :=
  exists c cs, text = c :: cs ∧ (isIdentChar c || c == '(') = true

theorem Opens.starts {text : List Char} (h : Opens text) : StartsWord text := by
  rcases h with ⟨c, cs, htext, hc⟩
  refine ⟨c, cs, htext, ?_⟩
  rcases Bool.or_eq_true_iff.mp hc with hident | hopen
  · exact isBlank_of_isIdentChar hident
  · rw [eq_of_beq hopen]
    decide

theorem Opens.stops_dots {text : List Char} (h : Opens text) (rest : List Char) :
    (word "..").Stops (text ++ rest) := by
  rcases h with ⟨c, cs, htext, hc⟩
  apply stops_word
  have hdot : c ≠ '.' := ne_of_class (p := fun c => isIdentChar c || c == '(') hc (by decide)
  rw [htext]
  simp [List.isPrefixOf?, hdot.symm]

theorem opens_of_identifier {first : Char -> Bool} {text : List Char}
    (hfirst : forall c, first c = true -> isIdentChar c = true)
    (h : IsIdentifier first text) : Opens text := by
  rcases h with ⟨c, cs, htext, hc, _⟩
  exact ⟨c, cs, htext, by simp [hfirst c hc]⟩

theorem Upper.opens (name : Upper) : Opens name.text :=
  opens_of_identifier (fun _ hc => by simp [isIdentChar, isAlphanumeric_of_isUpper hc])
    name.spelled

theorem Lower.opens (name : Lower) : Opens name.text := by
  refine opens_of_identifier ?_ name.spelled
  intro c hc
  rcases Bool.or_eq_true_iff.mp hc with hlower | hunderscore
  · simp [isIdentChar, isAlphanumeric_of_isLower hlower]
  · simp [isIdentChar, hunderscore]

theorem Dotted.starts (name : Dotted) : StartsWord name.text :=
  name.first.opens.starts.append _

section Lists

variable {α β : Type} {text : α -> List Char}

theorem reads_spaced {c : Char} (hc : isBlank c = false) (before behind : Space)
    {rest : List Char} (h : Ends isBlank rest) :
    (spaced c).Reads (before.text ++ c :: (behind.text ++ rest)) rest (fun _ => True) :=
  (before.reads (Ends.cons hc _)).then fun _ =>
    (reads_character c _).then fun _ => behind.reads h

theorem stops_spaced (closing : Space) (rest : List Char) :
    (spaced ',').Stops (closing.text ++ ')' :: rest) :=
  (closing.reads (Ends.cons (by decide) _)).stops fun _ =>
    (stops_character (by decide) _).bind _

theorem itemText_delimited (item : Space × Space × α) (rest : List Char) :
    Delimited (itemText text item ++ rest) := by
  rw [itemText, List.append_assoc]
  exact item.1.delimited (Or.inl rfl) _

theorem itemText_ne_nil (item : Space × Space × α) : itemText text item ≠ [] := by
  simp [itemText]

theorem Listing.reads {p : Rule β} {good : α -> β -> Prop} (hopens : forall a, Opens (text a))
    (hp : forall a rest, Delimited rest -> p.Reads (text a ++ rest) rest (good a))
    (list : Listing α) (closing : Space) (rest : List Char) :
    (separated p (spaced ',')).Reads (list.text text ++ (closing.text ++ ')' :: rest))
      (closing.text ++ ')' :: rest) (fun bs => List.Forall₂ good list.items bs) := by
  have hend : Delimited (closing.text ++ ')' :: rest) := closing.delimited (Or.inr rfl) rest
  have hmore : (many do { spaced ','; p }).Reads
      (list.more.flatMap (itemText text) ++ (closing.text ++ ')' :: rest))
      (closing.text ++ ')' :: rest)
      (fun bs => List.Forall₂ (fun item b => good item.2.2 b) list.more bs) := by
    refine reads_many ?_ itemText_ne_nil itemText_delimited hend
      ((stops_spaced closing rest).bind _) list.more
    intro item rest hrest
    rw [itemText, List.append_assoc, List.cons_append, List.append_assoc]
    exact (reads_spaced (by decide) item.1 item.2.1
      ((hopens item.2.2).starts.append rest).ends).then fun _ => hp item.2.2 rest hrest
  have hfirst : Delimited
      (list.more.flatMap (itemText text) ++ (closing.text ++ ')' :: rest)) := by
    cases list.more with
    | nil => exact hend
    | cons item more =>
        rw [List.flatMap_cons, List.append_assoc]
        exact itemText_delimited item _
  rw [Listing.text, List.append_assoc]
  apply (hp list.first _ hfirst).bind
  intro b hb
  apply hmore.bind
  intro bs hbs
  refine Reads.pure ?_ _
  exact List.Forall₂.cons hb (List.forall₂_map_left_iff.mpr hbs)

theorem Listing.opens (hopens : forall a, Opens (text a)) (list : Listing α) :
    Opens (list.text text) := by
  rcases hopens list.first with ⟨c, cs, htext, hc⟩
  exact ⟨c, _, by rw [Listing.text, htext]; rfl, hc⟩

theorem Selection.starts (hopens : forall a, Opens (text a)) (s : Selection α) :
    StartsWord (s.text text) := by
  cases s with
  | all => exact StartsWord.cons (by decide) _
  | listed list => exact (list.opens hopens).starts

theorem Parens.reads {p : Rule β} {good : β -> Prop} (parens : Parens α) {rest : List Char}
    (hstarts : StartsWord (text parens.inner))
    (hp : p.Reads (text parens.inner ++ (parens.closing.text ++ ')' :: rest))
      (parens.closing.text ++ ')' :: rest) good) :
    Reads (do character '('; blanks; let b ← p; blanks; character ')'; return b)
      (parens.text text ++ rest) rest good := by
  have htext : parens.text text ++ rest = '(' :: (parens.opening.text ++
      (text parens.inner ++ (parens.closing.text ++ ')' :: rest))) := by
    simp [Parens.text]
  rw [htext]
  refine (reads_character '(' _).then fun _ =>
    (parens.opening.reads (hstarts.append _).ends).then fun _ => ?_
  apply hp.bind
  intro b hb
  exact (parens.closing.reads (Ends.cons (by decide) _)).then fun _ =>
    (reads_character ')' rest).then fun _ => Reads.pure hb rest

theorem map_eq_of_rel {γ : Type} {f : α -> γ} {g : β -> γ} {a? : Option α} {b? : Option β}
    (h : Option.Rel (fun a b => g b = f a) a? b?) : b?.map g = a?.map f := by
  cases h with
  | some hab => exact congrArg some hab
  | none => rfl

theorem reads_option {p : Rule β} {good : α -> β -> Prop} (a? : Option α) {rest : List Char}
    (hsome : forall a, p.Reads (text a ++ rest) rest (good a)) (hnone : a? = none -> p.Stops rest) :
    (optional p).Reads (optionText text a? ++ rest) rest (fun b? => Option.Rel good a? b?) := by
  cases a? with
  | none =>
      apply (hnone rfl).optional.mono
      rintro _ rfl
      exact Option.Rel.none
  | some a =>
      apply (hsome a).optional.mono
      rintro _ ⟨b, rfl, hb⟩
      exact Option.Rel.some hb

theorem ends_option {q : Char -> Bool} (a? : Option α) {rest : List Char}
    (hsome : forall a rest, Ends q (text a ++ rest)) (hrest : Ends q rest) :
    Ends q (optionText text a? ++ rest) := by
  cases a? with
  | none => exact hrest
  | some a => exact hsome a rest

end Lists

/-!
## Exposing lists
-/

def bare {ℓ : Type} (entries : List (Exposed ℓ)) : List (Exposed Unit) :=
  entries.map (Exposed.map fun _ => ())

theorem bare_constructors {members : List Upper} {read : List (Named Span)}
    (h : List.Forall₂ (fun member n => n.name = String.ofList member.text) members read)
    (typeName : String) :
    bare (read.map fun n => .constructor n.name typeName n.location) =
      members.map fun member => .constructor (String.ofList member.text) typeName () := by
  unfold bare
  rw [List.map_map]
  refine (map_eq_of_forall₂ (h.imp fun member n hname => ?_)).symm
  rw [Function.comp, Exposed.map, hname]

theorem reads_dots (rest : List Char) :
    (word "..").Reads (['.', '.'] ++ rest) rest (fun _ => True) :=
  reads_word ".." rest

theorem reads_typeMembers (members : Parens (Selection Upper)) (rest : List Char) :
    typeMembers.Reads (members.text (Selection.text Upper.text) ++ rest) rest
      (fun read => forall name : Named Span,
        bare (exposedType name (some read)) = typeEntries name.name members.inner) := by
  apply members.reads (members.inner.starts Upper.opens)
  cases members.inner with
  | all =>
      refine Reads.orElse ((reads_dots _).then fun _ => ?_) _
      exact Reads.pure (fun name => rfl) _
  | listed list =>
      refine Stops.orElse (((list.opens Upper.opens).stops_dots _).bind _) ?_
      apply (list.reads Upper.opens (fun name rest h => name.reads h.ends) _ rest).bind
      intro names hnames
      refine Reads.pure ?_ _
      exact fun name => List.cons_eq_cons.mpr ⟨rfl, bare_constructors hnames name.name⟩

theorem Item.opens (item : Item) : Opens item.text := by
  cases item with
  | value name => exact name.opens
  | operator name => exact ⟨'(', _, rfl, rfl⟩
  | type name => exact name.opens
  | typeWith name gap members =>
      rcases name.opens with ⟨c, cs, htext, hc⟩
      exact ⟨c, _, by rw [Item.text, htext]; rfl, hc⟩

theorem Item.reads (item : Item) {rest : List Char} (h : Delimited rest) :
    exposedItem.Reads (item.text ++ rest) rest (fun entries => bare entries = item.entries) := by
  cases item with
  | value name =>
      refine Reads.orElse ((name.reads h.ends).bind fun n hn => Reads.pure ?_ rest) _
      simp [bare, Exposed.map, Item.entries, hn]
  | operator name =>
      have htext : (Item.operator name).text ++ rest = '(' :: (name.text ++ ')' :: rest) := by
        simp [Item.text]
      rw [htext]
      refine Reads.orElse ((name.reads rest).bind fun n hn => Reads.pure ?_ rest) _
      simp [bare, Exposed.map, Item.entries, hn]
  | type name =>
      refine Stops.orElse ((name.stops rest).bind _) ?_
      apply (name.reads h.ends).bind
      intro n hn
      apply h.stops.optional.bind
      rintro _ rfl
      refine Reads.pure ?_ rest
      simp [bare, exposedType, Exposed.map, Item.entries, hn]
  | typeWith name gap members =>
      have htext : (Item.typeWith name gap members).text ++ rest =
          name.text ++ (gap.text ++ (members.text (Selection.text Upper.text) ++ rest)) := by
        simp [Item.text]
      have hgap : Ends isIdentChar
          (gap.text ++ (members.text (Selection.text Upper.text) ++ rest)) :=
        Ends.blanks (Ends.cons (by decide) _) gap.blank fun _ => isBlank_of_isIdentChar
      have hmembers := reads_typeMembers members rest
      rw [htext]
      refine Stops.orElse ((name.stops _).bind _) ?_
      apply (name.reads hgap).bind
      intro n hn
      apply ((gap.reads (Ends.cons (by decide) _)).then fun _ => hmembers).optional.bind
      rintro _ ⟨read, rfl, hread⟩
      refine Reads.pure ?_ rest
      rw [hread n, hn]
      rfl

theorem bare_flatten {listed : List Item} {read : List (List (Exposed Span))}
    (h : List.Forall₂ (fun item entries => bare entries = item.entries) listed read) :
    bare read.flatten = listed.flatMap Item.entries := by
  have hentries := map_eq_of_forall₂ (h.imp fun _ _ hitem => hitem.symm)
  rw [List.flatMap_def, hentries]
  exact List.map_flatten

theorem Exposing.reads (e : Exposing) (rest : List Char) :
    exposingList.Reads (e.text ++ rest) rest (fun entries => bare entries = e.entries) := by
  refine (reads_word_append "exposing" _ rest).then fun _ => ?_
  rw [List.append_assoc]
  refine (e.gap.reads (Ends.cons (by decide) _)).then fun _ => ?_
  apply e.list.reads (e.list.inner.starts Item.opens)
  unfold Exposing.entries
  cases e.list.inner with
  | all =>
      refine Reads.orElse ((reads_dots _).lexeme.bind fun dots _ => Reads.pure ?_ _) _
      rfl
  | listed list =>
      refine Stops.orElse (((list.opens Item.opens).stops_dots _).lexeme.bind _) ?_
      apply (list.reads Item.opens (fun item rest h => item.reads h) _ rest).bind
      intro items hitems
      refine Reads.pure ?_ _
      exact bare_flatten hitems

/-!
## Imports
-/

theorem Exposing.starts (e : Exposing) : StartsWord e.text :=
  ⟨'e', _, rfl, by decide⟩

theorem stops_word_exposing {w : String} (e : Exposing) (rest : List Char)
    (h : forall back, w.toList.isPrefixOf? ("exposing".toList ++ back) = none) :
    (word w).Stops (e.text ++ rest) := by
  apply stops_word
  exact h _

theorem Alias.reads (a : Alias) {rest : List Char} (h : Ends isIdentChar rest) :
    Reads (do blanks1; word "as"; blanks1; upperName) (a.text ++ rest) rest
      (fun n => n.name = String.ofList a.name.text) := by
  rw [Alias.text, List.append_assoc]
  refine (a.before.reads ?_).then fun _ => ?_
  · exact Ends.cons (by decide) _
  · refine (reads_word_append "as" _ rest).then fun _ => ?_
    rw [List.append_assoc]
    exact (a.behind.reads (a.name.opens.starts.append rest).ends).then fun _ => a.name.reads h

theorem reads_exposing (e : Break × Exposing) (rest : List Char) :
    Reads (do blanks; exposingList) (exposingText e ++ rest) rest
      (fun entries => bare entries = e.2.entries) := by
  rw [exposingText, List.append_assoc]
  exact (e.1.toSpace.reads (e.2.starts.append rest).ends).then fun _ => e.2.reads rest

theorem ends_exposing {q : Char -> Bool} (hq : forall c, q c = true -> isBlank c = false)
    (e? : Option (Break × Exposing)) : Ends q (optionText exposingText e? ++ []) := by
  refine ends_option e? ?_ (Ends.nil q)
  intro e rest
  rw [exposingText, List.append_assoc]
  exact e.1.ends hq _

theorem ends_alias {q : Char -> Bool} (hq : forall c, q c = true -> isBlank c = false)
    (a? : Option Alias) (e? : Option (Break × Exposing)) :
    Ends q (optionText Alias.text a? ++ (optionText exposingText e? ++ [])) := by
  refine ends_option a? ?_ (ends_exposing hq e?)
  intro a rest
  rw [Alias.text, List.append_assoc]
  exact a.before.ends hq _

theorem stops_alias (e? : Option (Break × Exposing)) :
    Stops (do blanks1; word "as"; blanks1; upperName) (optionText exposingText e? ++ []) := by
  cases e? with
  | none => exact ((stops_satisfy (Ends.nil isBlank)).bind _).bind _
  | some e =>
      rw [optionText, exposingText, List.append_assoc]
      exact (e.1.reads (e.2.starts.append []).ends).stops fun _ =>
        (stops_word_exposing e.2 [] fun _ => rfl).bind _

theorem ImportLine.reads (i : ImportLine) :
    importDeclaration.Reads i.text [] (fun d => exists decl,
      d = .import_ decl ∧ decl.map (fun _ => ()) = i.outline) := by
  have htext : i.text = "import".toList ++ (i.gap.text ++ (i.module.text ++
      (optionText Alias.text i.asName ++ (optionText exposingText i.exposing ++ [])))) := by
    rw [List.append_nil]
    rfl
  rw [htext]
  refine (reads_word "import" _).then fun _ =>
    (i.gap.reads (i.module.starts.append _).ends).then fun _ => ?_
  apply (i.module.reads (ends_alias (fun _ => isBlank_of_isIdentChar) _ _)
    (ends_alias (fun _ => isBlank_of_dot) _ _)).bind
  intro module hmodule
  apply (reads_option i.asName
    (fun a => a.reads (ends_exposing (fun _ => isBlank_of_isIdentChar) i.exposing))
    (fun _ => stops_alias i.exposing)).bind
  intro asName hasName
  apply (reads_option i.exposing (fun e => reads_exposing e [])
    (fun _ => reads_no_blanks.stops fun _ => (stops_word rfl).bind _)).bind
  intro exposing hexposing
  refine reads_no_blanks.then fun _ => reads_atEnd.then fun _ => Reads.pure ?_ []
  refine ⟨_, rfl, ?_⟩
  have hentries : bare (exposing.getD []) =
      (i.exposing.map fun e => e.2.entries).getD [] := by
    rw [← map_eq_of_rel hexposing]
    exact (Option.getD_map bare [] exposing).symm
  have halias := map_eq_of_rel hasName
  simp only [Import.map, ImportLine.outline, hmodule, halias, ← hentries]
  rfl

theorem ImportLine.reads_declaration (i : ImportLine) :
    declaration.Reads i.text [] (fun d => exists decl,
      d = .import_ decl ∧ decl.map (fun _ => ()) = i.outline) :=
  i.reads.orElse _

/-!
## Headers
-/

theorem reads_kind {p : Rule ModuleKind} {kind : ModuleKind} {input rest : List Char}
    (gap : Break) (hrest : Ends isBlank rest)
    (hp : p.Reads input (gap.text ++ rest) fun read => read = kind) :
    Reads (do
      let kind ← optional do
        let kind ← p
        blanks1
        return kind
      return kind.getD .plain) input rest (fun read => read = kind) := by
  have hword : Reads (do let kind ← p; blanks1; return kind) input rest
      (fun read => read = kind) := by
    apply hp.bind
    rintro _ rfl
    exact (gap.reads hrest).then fun _ => Reads.self _ rest
  apply hword.optional.bind
  rintro _ ⟨_, rfl, rfl⟩
  exact Reads.self _ rest

theorem Kind.reads (k : Kind) (rest : List Char) :
    moduleKind.Reads (k.text ++ ("module".toList ++ rest)) ("module".toList ++ rest)
      (fun kind => kind = k.outline) := by
  have hmodule : Ends isBlank ("module".toList ++ rest) := Ends.cons (by decide) _
  cases k with
  | plain =>
      have hstops : Stops (Rule.orElse (do word "port"; return ModuleKind.port)
          (do word "effect"; return ModuleKind.effect)) ("module".toList ++ rest) :=
        Stops.both ((stops_word rfl).bind _) ((stops_word rfl).bind _)
      apply (hstops.bind _).optional.bind
      rintro _ rfl
      exact Reads.self _ _
  | port gap =>
      refine reads_kind gap hmodule (Reads.orElse ?_ _)
      exact (reads_word_append "port" gap.text _).then fun _ => Reads.self _ _
  | effect gap clause =>
      refine reads_kind gap hmodule (Stops.orElse ((stops_word rfl).bind _) ?_)
      exact (reads_word_append "effect" gap.text _).then fun _ => Reads.self _ _

theorem Clause.reads (c : Clause) {rest : List Char} (h : Ends isBlank rest) :
    effectClause.Reads (c.text ++ rest) rest (fun _ => True) := by
  refine (reads_word_append "where" _ rest).then fun _ => ?_
  have hinside : forall d, d ∈ c.inside -> (d != '}') = true := by
    intro d hd
    exact bne_iff_ne.mpr fun heq => c.braces.right (heq ▸ hd)
  have htext : c.gap.text ++ '{' :: (c.inside ++ '}' :: c.behind.text) ++ rest =
      c.gap.text ++ '{' :: (c.inside ++ '}' :: (c.behind.text ++ rest)) := by
    simp
  rw [htext]
  exact (c.gap.reads (Ends.cons (by decide) _)).then fun _ =>
    (reads_character '{' _).then fun _ =>
      (reads_skipWhile hinside (Ends.cons (by decide) _)).then fun _ =>
        (reads_character '}' _).then fun _ => c.behind.reads h

theorem Heading.reads (h : Heading) :
    header.Reads h.text [] (fun read => read.kind = h.kind.outline ∧
      read.name.name = String.ofList h.name.text ∧
        bare read.exposing = h.exposing.entries) := by
  apply (h.kind.reads _).bind
  rintro _ rfl
  refine (reads_word "module" _).then fun _ =>
    (h.gap.reads (h.name.starts.append _).ends).then fun _ => ?_
  apply (h.name.reads (h.behind.ends (fun _ => isBlank_of_isIdentChar) _)
    (h.behind.ends (fun _ => isBlank_of_dot) _)).bind
  intro name hname
  have hclause : Ends isBlank (optionText Clause.text h.kind.clause ++ h.exposing.text) :=
    ends_option h.kind.clause (fun c rest => Ends.cons (by decide) _) h.exposing.starts.ends
  refine (h.behind.toSpace.reads hclause).then fun _ => ?_
  have hrest : Reads (do
      let exposing ← exposingList
      blanks
      atEnd
      return { kind := h.kind.outline, name, exposing : Header }) h.exposing.text []
      (fun read => read.kind = h.kind.outline ∧ read.name.name = String.ofList h.name.text ∧
        bare read.exposing = h.exposing.entries) := by
    have hexposing := h.exposing.reads []
    rw [List.append_nil] at hexposing
    apply hexposing.bind
    intro entries hentries
    refine reads_no_blanks.then fun _ => reads_atEnd.then fun _ => Reads.pure ?_ []
    exact ⟨rfl, hname, hentries⟩
  cases hkind : h.kind with
  | plain =>
      rw [hkind] at hrest
      exact hrest
  | port gap =>
      rw [hkind] at hrest
      exact hrest
  | effect gap clause =>
      rw [hkind] at hrest
      exact (reads_option clause (fun c => c.reads h.exposing.starts.ends)
        (fun _ => (stops_word rfl).bind _)).bind fun _ _ => hrest

end Layout
end Syntax
end ElmNavigator
