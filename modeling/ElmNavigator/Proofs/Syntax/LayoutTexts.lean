import ElmNavigator.Proofs.Syntax.Layouts

/-!
# Layouts are code in one chunk

The text of a layout has nothing in it that the scanner would blank, and no line
of it but the first starts with a word.  Both are facts about characters that
stand side by side, so they hold of a text if they hold of its pieces and the
pieces may be joined.
-/

namespace ElmNavigator
namespace Syntax

open Text

/-- Characters that may stand side by side within a declaration. -/
structure Joins (c d : Char) : Prop where
  dashes : ¬ (c = '-' ∧ d = '-')
  brace : ¬ (c = '{' ∧ d = '-')
  prime : d = '\'' -> isIdentChar c = true
  indented : c = '\n' -> isBlank d = true

/-- Texts that may stand within a declaration, next to others of their kind. -/
structure Coded (text : List Char) : Prop where
  quotes : '"' ∉ text
  joined : text.IsChain Joins
  head : forall c, c ∈ text.head? -> c ≠ '\''
  last : forall c, c ∈ text.getLast? -> c ≠ '-' ∧ c ≠ '{' ∧ c ≠ '\n'

namespace Coded

theorem nil : Coded [] where
  quotes := by simp
  joined := List.isChain_nil
  head := by simp
  last := by simp

theorem append {a b : List Char} (ha : Coded a) (hb : Coded b) : Coded (a ++ b) where
  quotes := by
    simp [ha.quotes, hb.quotes]
  joined := by
    refine ha.joined.append hb.joined ?_
    intro c hc d hd
    rcases ha.last c hc with ⟨hdash, hbrace, hfeed⟩
    exact ⟨fun h => hdash h.left, fun h => hbrace h.left, fun h => absurd h (hb.head d hd),
      fun h => absurd h hfeed⟩
  head := by
    intro c hc
    rw [List.head?_append] at hc
    rcases Option.or_eq_some_iff.mp hc with hleft | ⟨_, hright⟩
    · exact ha.head c hleft
    · exact hb.head c hright
  last := by
    intro c hc
    rw [List.getLast?_append] at hc
    rcases Option.or_eq_some_iff.mp hc with hright | ⟨_, hleft⟩
    · exact hb.last c hright
    · exact ha.last c hleft

theorem flatMap {α : Type} {items : List α} {text : α -> List Char}
    (h : forall a, Coded (text a)) : Coded (items.flatMap text) := by
  induction items with
  | nil => exact nil
  | cons a items ih =>
      rw [List.flatMap_cons]
      exact (h a).append ih

theorem of_forall {text : List Char} (hquotes : '"' ∉ text)
    (hjoined : forall c, c ∈ text -> forall d, d ∈ text -> Joins c d)
    (hhead : forall c, c ∈ text.head? -> c ≠ '\'')
    (hlast : forall c, c ∈ text -> c ≠ '-' ∧ c ≠ '{' ∧ c ≠ '\n') : Coded text where
  quotes := hquotes
  joined := (List.pairwise_of_forall_mem_list hjoined).isChain
  head := hhead
  last := fun c hc => hlast c (List.mem_of_getLast? hc)

def isPlain (c : Char) : Bool :=
  c != '-' && c != '{' && c != '"' && c != '\'' && c != '\n'

theorem plain {text : List Char} (h : text.all isPlain = true) : Coded text := by
  have hplain : forall c, c ∈ text ->
      (((c ≠ '-' ∧ c ≠ '{') ∧ c ≠ '"') ∧ c ≠ '\'') ∧ c ≠ '\n' := by
    intro c hc
    simpa [isPlain] using List.all_eq_true.mp h c hc
  apply of_forall
  · exact fun hmem => (hplain '"' hmem).left.left.right rfl
  · intro c hc d hd
    rcases hplain c hc with ⟨⟨⟨⟨hdash, hbrace⟩, _⟩, _⟩, hfeed⟩
    exact ⟨fun h => hdash h.left, fun h => hbrace h.left,
      fun h => absurd h (hplain d hd).left.right, fun h => absurd h hfeed⟩
  · exact fun c hc => (hplain c (List.mem_of_head? hc)).left.right
  · intro c hc
    rcases hplain c hc with ⟨⟨⟨⟨hdash, hbrace⟩, _⟩, _⟩, hfeed⟩
    exact ⟨hdash, hbrace, hfeed⟩

theorem cons {c : Char} {text : List Char} (hc : isPlain c = true) (h : Coded text) :
    Coded (c :: text) := by
  have hfirst : Coded [c] := plain (by simp [hc])
  exact hfirst.append h

theorem allBlank {text : List Char} (h : AllBlank text) (hlast : text.getLast? ≠ some '\n') :
    Coded text where
  quotes := fun hmem => ne_of_isBlank (h '"' hmem) (by decide) rfl
  joined := by
    refine (List.pairwise_of_forall_mem_list ?_).isChain
    intro c hc d hd
    exact ⟨fun heq => ne_of_isBlank (h c hc) (by decide) heq.left,
      fun heq => ne_of_isBlank (h c hc) (by decide) heq.left,
      fun heq => absurd heq (ne_of_isBlank (h d hd) (by decide)), fun _ => h d hd⟩
  head := fun c hc => ne_of_isBlank (h c (List.mem_of_head? hc)) (by decide)
  last := by
    intro c hc
    have hblank := h c (List.mem_of_getLast? hc)
    refine ⟨ne_of_isBlank hblank (by decide), ne_of_isBlank hblank (by decide), ?_⟩
    rintro rfl
    exact hlast hc

theorem identifier {first : Char -> Bool} {text : List Char}
    (hfirst : forall c, first c = true -> (isAlphanumeric c || c == '_') = true)
    (h : IsIdentifier first text) : Coded text := by
  rcases h with ⟨c, cs, htext, hc, hcs⟩
  subst htext
  have hident : forall d, d ∈ c :: cs -> isIdentChar d = true := by
    intro d hd
    rcases List.mem_cons.mp hd with hhead | htail
    · rw [hhead, isIdentChar, hfirst c hc]
      rfl
    · exact hcs d htail
  have hne : forall d, d ∈ c :: cs -> forall e, isIdentChar e = false -> d ≠ e :=
    fun d hd e he => ne_of_class (hident d hd) he
  apply of_forall
  · exact fun hmem => hne _ hmem '"' (by decide) rfl
  · intro d hd e he
    exact ⟨fun h => hne d hd '-' (by decide) h.left, fun h => hne d hd '{' (by decide) h.left,
      fun _ => hident d hd, fun h => absurd h (hne d hd '\n' (by decide))⟩
  · intro d hd
    injection hd with hd
    rw [← hd]
    exact ne_of_class (p := fun c => isAlphanumeric c || c == '_') (hfirst c hc) (by decide)
  · exact fun d hd => ⟨hne d hd '-' (by decide), hne d hd '{' (by decide),
      hne d hd '\n' (by decide)⟩

theorem closed {text : List Char} {close : Char} (hquotes : '"' ∉ text ∧ '\'' ∉ text)
    (hbrace : '{' ∉ text) (hdashes : NoDashes text) (hindented : Indented text)
    (hlast : text.getLast? ≠ some '\n') (hclose : isPlain close = true) :
    Coded (text ++ [close]) := by
  have hplain : Coded [close] := plain (by simp [hclose])
  have hdash : close ≠ '-' := (hplain.last close rfl).left
  constructor
  case quotes =>
    simp only [List.mem_append, not_or]
    exact ⟨hquotes.left, hplain.quotes⟩
  case joined =>
    refine List.IsChain.append ?_ hplain.joined ?_
    · apply List.isChain_iff_forall_rel_of_append_cons_cons.mpr
      intro c d front back htext
      have hc : c ∈ text := by
        simp [htext]
      have hd : d ∈ text := by
        simp [htext]
      have hjoined := List.isChain_iff_forall_rel_of_append_cons_cons.mp hdashes htext
      have hline := List.isChain_iff_forall_rel_of_append_cons_cons.mp hindented htext
      exact ⟨hjoined, fun h => hbrace (h.left ▸ hc), fun h => absurd (h ▸ hd) hquotes.right,
        hline⟩
    · intro c hc d hd
      injection hd with hd
      subst hd
      refine ⟨fun h => hdash h.right, fun h => hdash h.right,
        fun h => absurd h (hplain.head _ rfl), ?_⟩
      rintro rfl
      exact absurd hc hlast
  case head =>
    intro c hc
    rw [List.head?_append] at hc
    rcases Option.or_eq_some_iff.mp hc with htext | ⟨_, hclosing⟩
    · exact fun heq => hquotes.right (heq ▸ List.mem_of_head? htext)
    · exact hplain.head c hclosing
  case last =>
    intro c hc
    rw [List.getLast?_append] at hc
    exact hplain.last c hc

end Coded

namespace Layout

/-!
## The pieces
-/

theorem Space.coded (s : Space) : Coded s.text :=
  Coded.allBlank s.blank s.inner

theorem Upper.coded (name : Upper) : Coded name.text :=
  Coded.identifier (fun c hc => by simp [isAlphanumeric_of_isUpper hc]) name.spelled

theorem Lower.coded (name : Lower) : Coded name.text := by
  refine Coded.identifier ?_ name.spelled
  intro c hc
  rcases Bool.or_eq_true_iff.mp hc with hlower | hunderscore
  · simp [isAlphanumeric_of_isLower hlower]
  · simp [hunderscore]

theorem Operator.coded (name : Operator) : Coded ('(' :: (name.text ++ [')'])) := by
  have hne : forall d, isOperatorChar d = false -> d ∉ name.text :=
    fun d hd hmem => ne_of_class (name.spelled d hmem) hd rfl
  refine Coded.cons (by decide) (Coded.closed ⟨hne _ (by decide), hne _ (by decide)⟩
    (hne _ (by decide)) name.dashes ?_ ?_ (by decide))
  · refine (List.pairwise_of_forall_mem_list ?_).isChain
    rintro c hc d _ rfl
    exact absurd hc (hne _ (by decide))
  · exact fun hlast => hne '\n' (by decide) (List.mem_of_getLast? hlast)

theorem Dotted.coded (name : Dotted) : Coded name.text :=
  name.first.coded.append (Coded.flatMap fun part => Coded.cons (by decide) part.coded)

section Lists

variable {α : Type} {text : α -> List Char}

theorem Listing.coded (h : forall a, Coded (text a)) (list : Listing α) :
    Coded (list.text text) :=
  (h list.first).append (Coded.flatMap fun item =>
    item.1.coded.append (Coded.cons (by decide) (item.2.1.coded.append (h item.2.2))))

theorem Selection.coded (h : forall a, Coded (text a)) (s : Selection α) :
    Coded (s.text text) := by
  cases s with
  | all =>
      have hdots : Coded ['.', '.'] := Coded.plain (by decide)
      exact hdots
  | listed list => exact list.coded h

theorem Parens.coded (h : forall a, Coded (text a)) (p : Parens α) : Coded (p.text text) :=
  Coded.cons (by decide) (p.opening.coded.append ((h p.inner).append
    (p.closing.coded.append (Coded.plain (by decide)))))

theorem optionText_coded (h : forall a, Coded (text a)) (a? : Option α) :
    Coded (optionText text a?) := by
  cases a? with
  | none => exact Coded.nil
  | some a => exact h a

end Lists

theorem Item.coded (item : Item) : Coded item.text := by
  cases item with
  | value name => exact name.coded
  | operator name => exact name.coded
  | type name => exact name.coded
  | typeWith name gap members =>
      exact name.coded.append (gap.coded.append
        (Parens.coded (Selection.coded Upper.coded) members))

theorem Exposing.coded (e : Exposing) : Coded e.text :=
  (Coded.plain (by decide)).append (e.gap.coded.append
    (Parens.coded (Selection.coded Item.coded) e.list))

theorem Alias.coded (a : Alias) : Coded a.text :=
  a.before.coded.append ((Coded.plain (by decide)).append (a.behind.coded.append a.name.coded))

theorem ImportLine.coded (i : ImportLine) : Coded i.text :=
  (Coded.plain (by decide)).append (i.gap.coded.append (i.module.coded.append
    ((optionText_coded Alias.coded i.asName).append
      (optionText_coded (fun e => e.1.coded.append e.2.coded) i.exposing))))

/-- Behind the opening brace a dash would begin a comment. -/
theorem Clause.coded (c : Clause) (h : c.inside.head? ≠ some '-') : Coded c.text := by
  have hclosed : Coded (c.inside ++ ['}']) :=
    Coded.closed c.quotes c.braces.left c.dashes c.indented c.inner (by decide)
  have hhead : forall d, d ∈ (c.inside ++ ['}']).head? -> d ≠ '-' := by
    intro d hd heq
    rw [List.head?_append, heq] at hd
    rcases Option.or_eq_some_iff.mp hd with hinside | ⟨_, hclosing⟩
    · exact h hinside
    · revert hclosing
      decide
  have hbraces : Coded ('{' :: (c.inside ++ ['}'])) := by
    constructor
    case quotes =>
      simp only [List.mem_cons, not_or]
      exact ⟨by decide, hclosed.quotes⟩
    case joined =>
      refine hclosed.joined.cons ?_
      intro d hd
      exact ⟨fun heq => hhead d hd heq.right, fun heq => hhead d hd heq.right,
        fun heq => absurd heq (hclosed.head d hd), fun heq => absurd heq (by decide)⟩
    case head =>
      intro d hd
      injection hd with hd
      rw [← hd]
      decide
    case last =>
      intro d hd
      rw [← List.cons_append, List.getLast?_append] at hd
      injection hd with hd
      rw [← hd]
      decide
  have htext : c.text = "where".toList ++ (c.gap.text ++
      (('{' :: (c.inside ++ ['}'])) ++ c.behind.text)) := by
    simp [Clause.text]
  rw [htext]
  exact (Coded.plain (by decide)).append (c.gap.coded.append (hbraces.append c.behind.coded))

theorem Kind.coded (k : Kind) : Coded k.text := by
  cases k with
  | plain => exact Coded.nil
  | port gap => exact (Coded.plain (by decide)).append gap.coded
  | effect gap clause => exact (Coded.plain (by decide)).append gap.coded

/-- The clause of the module, if it has one, does not begin with a dash. -/
def Heading.OpensNoComment (h : Heading) : Prop :=
  forall c, c ∈ h.kind.clause -> c.inside.head? ≠ some '-'

theorem Heading.coded (h : Heading) (hopens : h.OpensNoComment) : Coded h.text := by
  have hclause : Coded (optionText Clause.text h.kind.clause) := by
    cases hkind : h.kind.clause with
    | none => exact Coded.nil
    | some c => exact c.coded (hopens c hkind)
  exact h.kind.coded.append ((Coded.plain (by decide)).append (h.gap.coded.append
    (h.name.coded.append (h.behind.coded.append (hclause.append h.exposing.coded)))))

end Layout

/-!
## What the scanner keeps
-/

/-- Texts that the scanner keeps in code, whatever stands around them. -/
def Kept (text : List Char) : Prop :=
  forall previous rest, exists last,
    maskFrom (Scanner.inCode previous) (text ++ rest) =
      text ++ maskFrom (Scanner.inCode last) rest

theorem Kept.append {a b : List Char} (ha : Kept a) (hb : Kept b) : Kept (a ++ b) := by
  intro previous rest
  rcases ha previous (b ++ rest) with ⟨middle, hleft⟩
  rcases hb middle rest with ⟨last, hright⟩
  exact ⟨last, by rw [List.append_assoc, hleft, hright, List.append_assoc]⟩

theorem Kept.flatMap {α : Type} {items : List α} {text : α -> List Char}
    (h : forall a, Kept (text a)) : Kept (items.flatMap text) := by
  induction items with
  | nil => exact fun previous rest => ⟨previous, rfl⟩
  | cons a items ih =>
      rw [List.flatMap_cons]
      exact (h a).append ih

theorem maskFrom_keep {c : Char} {previous : Option Char} {ahead : List Char}
    (hdash : c = '-' -> ahead.head? ≠ some '-') (hbrace : c = '{' -> ahead.head? ≠ some '-')
    (hquote : c ≠ '"') (hprime : c = '\'' -> previous.any isIdentChar = true) :
    maskFrom (Scanner.inCode previous) (c :: ahead) =
      c :: maskFrom (Scanner.inCode (some c)) ahead := by
  have hstep : (Scanner.inCode previous).step c ahead = (Scanner.inCode (some c), true) := by
    unfold Scanner.step Scanner.stepCode Scanner.inCode Scanner.afterIdentifier
    simp only [gt_iff_lt, Nat.lt_irrefl, if_false]
    rw [if_neg, if_neg, if_neg, if_neg, if_neg]
    · simpa using hprime
    · simpa using hquote
    · simp [hquote]
    · simpa using hbrace
    · simpa using hdash
  simp only [maskFrom, hstep]
  rfl

theorem kept_of_allBlank {text : List Char} (h : AllBlank text) : Kept text := by
  intro previous rest
  induction text generalizing previous with
  | nil => exact ⟨previous, rfl⟩
  | cons c text ih =>
      have hne {d : Char} (hd : isBlank d = false) : c ≠ d :=
        ne_of_isBlank (h c List.mem_cons_self) hd
      rcases ih (fun d hd => h d (List.mem_cons_of_mem c hd)) (some c) with ⟨last, hrest⟩
      refine ⟨last, ?_⟩
      rw [List.cons_append, maskFrom_keep (fun heq => absurd heq (hne (by decide)))
        (fun heq => absurd heq (hne (by decide))) (hne (by decide))
        (fun heq => absurd heq (hne (by decide))), hrest]
      rfl

/-- The induction carries that a prime at the start of what is left belongs to a name. -/
theorem maskFrom_joined {text : List Char} (hquotes : '"' ∉ text) (hjoined : text.IsChain Joins)
    (hlast : forall c, c ∈ text.getLast? -> c ≠ '-' ∧ c ≠ '{') (previous : Option Char)
    (hprime : '\'' ∈ text.head? -> previous.any isIdentChar = true) (rest : List Char) :
    exists last, maskFrom (Scanner.inCode previous) (text ++ rest) =
      text ++ maskFrom (Scanner.inCode last) rest := by
  induction text generalizing previous with
  | nil => exact ⟨previous, rfl⟩
  | cons c text ih =>
      rcases List.isChain_cons.mp hjoined with ⟨hnext, htext⟩
      have hdash : c = '-' ∨ c = '{' -> (text ++ rest).head? ≠ some '-' := by
        intro hc
        cases text with
        | nil =>
            rcases hlast c rfl with ⟨hdash, hbrace⟩
            exact absurd hc (not_or.mpr ⟨hdash, hbrace⟩)
        | cons d text =>
            intro hhead
            injection hhead with hd
            have hjoins := hnext d rfl
            rcases hc with hdash | hbrace
            · exact hjoins.dashes ⟨hdash, hd⟩
            · exact hjoins.brace ⟨hbrace, hd⟩
      have hquote : c ≠ '"' := fun heq => hquotes (heq ▸ List.mem_cons_self)
      have hlastTail : forall d, d ∈ text.getLast? -> d ≠ '-' ∧ d ≠ '{' := by
        intro d hd
        cases text with
        | nil => cases hd
        | cons e text =>
            apply hlast d
            rw [List.getLast?_cons_cons]
            exact hd
      rcases ih (fun hmem => hquotes (List.mem_cons_of_mem c hmem)) htext hlastTail (some c)
        (fun hhead => (hnext '\'' hhead).prime rfl) with ⟨last, hrest⟩
      refine ⟨last, ?_⟩
      rw [List.cons_append, maskFrom_keep (fun heq => hdash (Or.inl heq))
        (fun heq => hdash (Or.inr heq)) hquote (fun heq => hprime (congrArg some heq)), hrest]
      rfl

theorem Coded.kept {text : List Char} (h : Coded text) : Kept text := by
  intro previous rest
  refine maskFrom_joined h.quotes h.joined ?_ previous ?_ rest
  · intro c hc
    rcases h.last c hc with ⟨hdash, hbrace, _⟩
    exact ⟨hdash, hbrace⟩
  · exact fun hhead => absurd rfl (h.head '\'' hhead)

/-!
## Chunks of one declaration
-/

theorem startsChunk_of_indented {text : List Char} (h : Indented text) :
    forall line, line ∈ (rawLines text).tail -> startsChunk line = false := by
  induction text with
  | nil =>
      intro line hline
      cases hline
  | cons c cs ih =>
      rcases List.isChain_cons.mp h with ⟨hnext, hcs⟩
      have htail := ih hcs
      intro line hline
      cases cs with
      | nil =>
          rw [rawLines] at hline
          split at hline
          · cases hline
          · cases hline
      | cons d ds =>
          rcases exists_rawLines_cons d ds with ⟨first, others, hlines⟩
          rw [hlines, List.tail_cons] at htail
          rw [rawLines, hlines] at hline
          split at hline
          · rename_i hc
            rcases List.mem_cons.mp hline with hfirst | hother
            · rw [hfirst]
              simp [startsChunk, hnext d rfl hc]
            · exact htail line hother
          · exact htail line hline

/-- Texts whose last character is there and is not blank. -/
def EndsWord (text : List Char) : Prop :=
  exists front c, text = front ++ [c] ∧ isBlank c = false

theorem EndsWord.append {b : List Char} (h : EndsWord b) (a : List Char) : EndsWord (a ++ b) := by
  rcases h with ⟨front, c, hb, hc⟩
  exact ⟨a ++ front, c, by rw [hb, List.append_assoc], hc⟩

theorem EndsWord.trimEnd_append {text : List Char} (h : EndsWord text) (rest : List Char) :
    trimEnd isBlank (text ++ rest) = text ++ trimEnd isBlank rest := by
  rcases h with ⟨front, c, htext, hc⟩
  rw [htext, List.append_assoc, List.append_assoc]
  exact trimEnd_append_cons hc front rest

theorem chunksFrom_of_indented {text : List Char} (hstarts : StartsWord text)
    (hindented : Indented text) (offset : Nat) :
    chunksFrom offset text = [{ start := offset, text := trimEnd isBlank text }] := by
  have htail := startsChunk_of_indented hindented
  have hflatten := flatten_rawLines text
  rcases hstarts with ⟨c, cs, htext, hc⟩
  rcases exists_rawLines_cons c cs with ⟨line, lines, hlines⟩
  rw [← htext] at hlines
  have hfirst : startsChunk (c :: line) = true := by
    simp [startsChunk, hc]
  rw [hlines, List.tail_cons] at htail
  rw [hlines, List.flatten_cons] at hflatten
  have hothers := collectChunks_of_blank htail (offset + byteLength (c :: line)) []
  rw [List.append_nil] at hothers
  unfold chunksFrom
  rw [hlines, collectChunks_cons, if_pos hfirst, hothers]
  simp only [collectChunks, List.append_nil]
  rw [hflatten]

theorem Coded.chunksFrom {text blanks : List Char} (h : Coded text) (hstarts : StartsWord text)
    (hends : EndsWord text) (hblanks : AllBlank blanks) (offset : Nat) :
    chunksFrom offset (text ++ blanks) = [{ start := offset, text }] := by
  have hindented : Indented (text ++ blanks) := by
    refine List.IsChain.append (h.joined.imp fun _ _ hjoins => hjoins.indented) ?_ ?_
    · refine (List.pairwise_of_forall_mem_list ?_).isChain
      exact fun _ _ d hd _ => hblanks d hd
    · exact fun _ _ d hd _ => hblanks d (List.mem_of_head? hd)
  have hnone : trimEnd isBlank blanks = [] := by
    have hall := trimEnd_of_allBlank hblanks []
    rwa [List.append_nil, trimEnd, if_pos rfl] at hall
  rw [chunksFrom_of_indented (hstarts.append blanks) hindented, hends.trimEnd_append, hnone,
    List.append_nil]

end Syntax
end ElmNavigator
