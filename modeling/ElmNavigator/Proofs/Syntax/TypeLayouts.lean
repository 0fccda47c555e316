import ElmNavigator.Proofs.Syntax.AppendedDeclarations
import ElmNavigator.Proofs.Syntax.LayoutRoundTrip
import Mathlib.Data.List.Infix

/-!
# Custom types as they are written

The alternatives of a custom type stand between bars, but there may be bars and
brackets in their arguments as well.  A custom type whose arguments are well
bracketed is read as what it stands for: its constructors are the names that are
written behind the outermost bars, in that order, whatever the arguments and the
blanks are.
-/

namespace ElmNavigator
namespace Syntax

open Text Rule

/-!
## Brackets
-/

def isOpening (c : Char) : Bool :=
  c = '(' || c = '[' || c = '{'

def isClosing (c : Char) : Bool :=
  c = ')' || c = ']' || c = '}'

/-- Nothing is closed that is not open, nothing is left open, and bars stand inside brackets. -/
structure WellBracketed (text : List Char) : Prop where
  nested : forall front, front <+: text -> front.countP isClosing ≤ front.countP isOpening
  closed : text.countP isClosing = text.countP isOpening
  barred : forall front, front ++ ['|'] <+: text ->
    front.countP isClosing < front.countP isOpening

theorem wellBracketed_iff (text : List Char) :
    WellBracketed text ↔
      text.countP isClosing = text.countP isOpening ∧
        forall front, front ∈ text.inits ->
          front.countP isClosing ≤ front.countP isOpening ∧
            (front ++ ['|'] <+: text -> front.countP isClosing < front.countP isOpening) := by
  constructor
  · intro h
    refine ⟨h.closed, fun front hfront => ?_⟩
    exact ⟨h.nested front ((List.mem_inits front text).mp hfront), h.barred front⟩
  · rintro ⟨hclosed, hinits⟩
    refine ⟨fun front hfront => ?_, hclosed, fun front hfront => ?_⟩
    · exact (hinits front ((List.mem_inits front text).mpr hfront)).left
    · have hbefore : front <+: text := (List.prefix_append front ['|']).trans hfront
      exact (hinits front ((List.mem_inits front text).mpr hbefore)).right hfront

instance (text : List Char) : Decidable (WellBracketed text) :=
  decidable_of_iff' _ (wellBracketed_iff text)

theorem isClosing_of_isOpening {c : Char} (h : isOpening c = true) : isClosing c = false := by
  simp only [isOpening, Bool.or_eq_true, decide_eq_true_eq] at h
  rcases h with (hc | hc) | hc
  all_goals
    rw [hc]
    decide

theorem bracketDepth_add {depth : Nat} {c : Char}
    (h : [c].countP isClosing ≤ depth + [c].countP isOpening) :
    bracketDepth depth c + [c].countP isClosing = depth + [c].countP isOpening := by
  have hdepth : bracketDepth depth c =
      if isOpening c then depth + 1 else if isClosing c then depth - 1 else depth := rfl
  rw [hdepth]
  simp only [List.countP_singleton] at h ⊢
  by_cases hopening : isOpening c = true
  · simp [hopening, isClosing_of_isOpening hopening]
  · by_cases hclosing : isClosing c = true
    · simp only [hopening, hclosing, if_true, if_false, Bool.false_eq_true] at h ⊢
      omega
    · simp [hopening, hclosing]

/-- Arguments are passed over from any depth at which nothing in them is closed too early and no
bar stands outside all brackets.  The depth behind them is where the search goes on. -/
theorem splitAtBar_passes {text : List Char} {depth last : Nat}
    (hnested : forall front, front <+: text ->
      front.countP isClosing ≤ depth + front.countP isOpening)
    (hbarred : forall front, front ++ ['|'] <+: text ->
      front.countP isClosing < depth + front.countP isOpening)
    (hlast : last + text.countP isClosing = depth + text.countP isOpening) (rest : List Char) :
    splitAtBar depth (text ++ rest) =
      (text ++ (splitAtBar last rest).1, (splitAtBar last rest).2) := by
  induction text generalizing depth with
  | nil =>
      have hdepth : last = depth := hlast
      rw [hdepth]
      rfl
  | cons c cs ih =>
      have hc := hnested [c] (List.prefix_append [c] cs)
      have hdepth := bracketDepth_add hc
      have hbar : ¬ (c = '|' && depth = 0) = true := by
        intro h
        simp only [Bool.and_eq_true, decide_eq_true_eq] at h
        have hopen := hbarred [] (by rw [h.left]; exact List.prefix_append ['|'] cs)
        simp [h.right] at hopen
      have hcons : forall (p : Char -> Bool) (front : List Char),
          (c :: front).countP p = [c].countP p + front.countP p := by
        intro p front
        rw [← List.countP_append]
        rfl
      have hrest := @ih (bracketDepth depth c) ?_ ?_ ?_
      · rw [List.cons_append, splitAtBar, if_neg hbar, hrest]
        rfl
      · intro front hfront
        have hle := hnested (c :: front) (List.cons_prefix_cons.mpr ⟨rfl, hfront⟩)
        rw [hcons isClosing front, hcons isOpening front] at hle
        omega
      · intro front hfront
        have hlt := hbarred (c :: front) (List.cons_prefix_cons.mpr ⟨rfl, hfront⟩)
        rw [hcons isClosing front, hcons isOpening front] at hlt
        omega
      · rw [hcons isClosing cs, hcons isOpening cs] at hlast
        omega

theorem WellBracketed.splitAtBar {text : List Char} (h : WellBracketed text) (rest : List Char) :
    splitAtBar 0 (text ++ rest) = (text ++ (splitAtBar 0 rest).1, (splitAtBar 0 rest).2) := by
  apply splitAtBar_passes
  · intro front hfront
    rw [Nat.zero_add]
    exact h.nested front hfront
  · intro front hfront
    rw [Nat.zero_add]
    exact h.barred front hfront
  · rw [h.closed]

theorem isBracket_of_isBlank {c : Char} (h : isBlank c = true) :
    isOpening c = false ∧ isClosing c = false := by
  have hne : forall d, isBlank d = false -> c ≠ d := fun _ => ne_of_isBlank h
  simp [isOpening, isClosing, hne '(' (by decide), hne '[' (by decide), hne '{' (by decide),
    hne ')' (by decide), hne ']' (by decide), hne '}' (by decide)]

theorem countP_of_allBlank {text : List Char} (h : AllBlank text) :
    text.countP isOpening = 0 ∧ text.countP isClosing = 0 := by
  rw [List.countP_eq_zero, List.countP_eq_zero]
  constructor
  · intro c hc
    simp [(isBracket_of_isBlank (h c hc)).left]
  · intro c hc
    simp [(isBracket_of_isBlank (h c hc)).right]

theorem wellBracketed_of_allBlank {text : List Char} (h : AllBlank text) :
    WellBracketed text where
  nested front hfront := by
    have hblank : AllBlank front := fun c hc => h c (hfront.subset hc)
    rw [(countP_of_allBlank hblank).right]
    exact Nat.zero_le _
  closed := by
    rw [(countP_of_allBlank h).left, (countP_of_allBlank h).right]
  barred front hfront := by
    have hbar := h '|' (hfront.subset (by simp))
    exact absurd hbar (by decide)

theorem WellBracketed.of_append {text blanks : List Char} (h : WellBracketed (text ++ blanks))
    (hblanks : AllBlank blanks) : WellBracketed text where
  nested front hfront := h.nested front (hfront.trans (List.prefix_append text blanks))
  closed := by
    have hclosed := h.closed
    rwa [List.countP_append, List.countP_append, (countP_of_allBlank hblanks).left,
      (countP_of_allBlank hblanks).right] at hclosed
  barred front hfront := h.barred front (hfront.trans (List.prefix_append text blanks))

namespace Layout

/-!
## Layouts of custom types
-/

/-- A constructor and its arguments, of which only the brackets matter. -/
structure Alternative where
  name : Upper
  args : List Char
  ends : Ends isIdentChar args
  bracketed : WellBracketed args

def Alternative.text (a : Alternative) : List Char :=
  a.name.text ++ a.args

def barText (item : Space × Space × Alternative) : List Char :=
  item.1.text ++ '|' :: (item.2.1.text ++ item.2.2.text)

def parameterText (v : Break × Lower) : List Char :=
  v.1.text ++ v.2.text

structure TypeLine where
  gap : Break
  name : Upper
  parameters : List (Break × Lower)
  before : Space
  behind : Space
  first : Alternative
  more : List (Space × Space × Alternative)

def TypeLine.front (t : TypeLine) : List Char :=
  "type".toList ++ (t.gap.text ++ (t.name.text ++ (t.parameters.flatMap parameterText ++
    (t.before.text ++ '=' :: t.behind.text))))

def TypeLine.text (t : TypeLine) : List Char :=
  t.front ++ (t.first.text ++ t.more.flatMap barText)

def TypeLine.alternatives (t : TypeLine) : List Alternative :=
  t.first :: t.more.map (·.2.2)

def TypeLine.outline (t : TypeLine) : TypeDecl Unit :=
  .custom (String.ofList t.name.text)
    (t.alternatives.map fun a => { name := String.ofList a.name.text, location := () }) ()

/-!
## Alternatives
-/

theorem Alternative.starts (a : Alternative) : StartsWord a.text :=
  a.name.opens.starts.append a.args

theorem allBlank_nil : AllBlank [] :=
  fun _ hc => absurd hc List.not_mem_nil

theorem getLast?_nil_ne_feed : [].getLast? ≠ some '\n' := by
  decide

def Space.empty : Space :=
  ⟨[], allBlank_nil, getLast?_nil_ne_feed⟩

def fromBar : List (Space × Space × Alternative) -> List Char
  | [] => []
  | item :: more => '|' :: (item.2.1.text ++ (item.2.2.text ++ more.flatMap barText))

theorem fromBar_ends (more : List (Space × Space × Alternative)) :
    Ends isIdentChar (fromBar more) := by
  cases more with
  | nil => exact Ends.nil isIdentChar
  | cons item more => exact Ends.cons (by decide) _

theorem splitAtBar_fromBar (more : List (Space × Space × Alternative)) :
    splitAtBar 0 (fromBar more) = ([], fromBar more) := by
  cases more with
  | nil => rfl
  | cons item more => rfl

theorem exists_fromBar (more : List (Space × Space × Alternative)) :
    exists blanks, more.flatMap barText = blanks ++ fromBar more ∧ AllBlank blanks := by
  cases more with
  | nil => exact ⟨[], rfl, allBlank_nil⟩
  | cons item more => exact ⟨item.1.text, by simp [barText, fromBar], item.1.blank⟩

theorem reads_constructorArgs {args blanks : List Char} (hargs : WellBracketed args)
    (hblanks : AllBlank blanks) (more : List (Space × Space × Alternative)) :
    constructorArgs.Reads (args ++ (blanks ++ fromBar more)) (fromBar more) (fun _ => True) := by
  intro offset
  have hsplit : splitAtBar 0 (args ++ (blanks ++ fromBar more)) =
      (args ++ (blanks ++ []), fromBar more) := by
    rw [hargs.splitAtBar, (wellBracketed_of_allBlank hblanks).splitAtBar, splitAtBar_fromBar]
  exact ⟨(), _, by rw [constructorArgs, hsplit], trivial⟩

theorem Alternative.reads (a : Alternative) (more : List (Space × Space × Alternative)) :
    constructorName.Reads (a.text ++ more.flatMap barText) (fromBar more)
      (fun n => n.name = String.ofList a.name.text) := by
  rcases exists_fromBar more with ⟨blanks, hmore, hblanks⟩
  have hends : Ends isIdentChar (a.args ++ (blanks ++ fromBar more)) :=
    Ends.append a.ends (Ends.blanks (fromBar_ends more) hblanks fun _ => isBlank_of_isIdentChar)
  rw [hmore, Alternative.text, List.append_assoc]
  apply (a.name.reads hends).bind
  intro n hn
  refine (reads_constructorArgs a.bracketed hblanks more).then fun _ => ?_
  exact Reads.pure (a := n) hn _

theorem length_fromBar_le (more : List (Space × Space × Alternative)) :
    (fromBar more).length ≤ (more.flatMap barText).length := by
  rcases exists_fromBar more with ⟨blanks, hmore, _⟩
  rw [hmore, List.length_append]
  exact Nat.le_add_left _ _

/-- The induction is on the alternatives that are left, and each is read up to the next bar. -/
theorem repeats_alternatives (more : List (Space × Space × Alternative)) :
    Repeats (do spaced '|'; constructorName)
      (fun item n => n.name = String.ofList item.2.2.name.text) more (fromBar more) [] := by
  induction more with
  | nil =>
      have hnone : (spaced '|').Stops [] :=
        reads_no_blanks.stops fun _ => (stops_satisfy (Ends.nil _)).bind _
      exact Repeats.stop (hnone.bind _)
  | cons item more ih =>
      have hbar : (spaced '|').Reads (fromBar (item :: more))
          (item.2.2.text ++ more.flatMap barText) (fun _ => True) :=
        reads_spaced (by decide) Space.empty item.2.1 (item.2.2.starts.append _).ends
      refine Repeats.next (hbar.then fun _ => item.2.2.reads more) ?_ ih
      have hle := length_fromBar_le more
      rw [fromBar]
      simp only [List.length_cons, List.length_append]
      omega

theorem reads_alternatives (first : Alternative) (more : List (Space × Space × Alternative)) :
    (separated constructorName (spaced '|')).Reads (first.text ++ more.flatMap barText) []
      (fun names => List.Forall₂ (fun a n => n.name = String.ofList a.name.text)
        (first :: more.map (·.2.2)) names) := by
  apply (first.reads more).bind
  intro n hn
  apply (repeats_alternatives more).reads.bind
  intro names hnames
  refine Reads.pure ?_ _
  exact List.Forall₂.cons hn (List.forall₂_map_left_iff.mpr hnames)

/-!
## Custom types
-/

theorem ends_parameters (parameters : List (Break × Lower)) (before : Space)
    (rest : List Char) :
    Ends isIdentChar (parameters.flatMap parameterText ++ (before.text ++ '=' :: rest)) := by
  cases parameters with
  | nil =>
      rw [List.flatMap_nil, List.nil_append]
      exact Ends.blanks (Ends.cons (by decide) rest) before.blank fun _ => isBlank_of_isIdentChar
  | cons v parameters =>
      rw [List.flatMap_cons, parameterText, List.append_assoc, List.append_assoc]
      exact v.1.ends (fun _ => isBlank_of_isIdentChar) _

theorem parameter_reads (v : Break × Lower) {rest : List Char} (h : Ends isIdentChar rest) :
    Reads (do blanks1; lowerName) (parameterText v ++ rest) rest
      (fun n => n.name = String.ofList v.2.text) := by
  rw [parameterText, List.append_assoc]
  exact (v.1.reads (v.2.opens.starts.append rest).ends).then fun _ =>
    reads_named (reads_identifier v.2.spelled h)

theorem stops_parameter (before : Space) (rest : List Char) :
    Stops (do blanks1; lowerName) (before.text ++ '=' :: rest) := by
  by_cases hnone : before.text = []
  · rw [hnone]
    exact ((stops_satisfy (Ends.cons (by decide) rest)).bind _).bind _
  · refine Reads.stops (reads_skipWhile1 hnone before.blank (Ends.cons (by decide) rest)) ?_
    exact fun _ => ((stops_satisfy (Ends.cons (by decide) rest)).bind _).lexeme.bind _

theorem reads_parameters (parameters : List (Break × Lower)) (before : Space)
    (rest : List Char) :
    (many do { blanks1; lowerName }).Reads
      (parameters.flatMap parameterText ++ (before.text ++ '=' :: rest))
      (before.text ++ '=' :: rest) (fun _ => True) := by
  have hne : forall v, parameterText v ≠ [] := by
    intro v
    simp [parameterText, v.1.nonempty]
  have hends : forall v rest, Ends isIdentChar (parameterText v ++ rest) := by
    intro v rest
    rw [parameterText, List.append_assoc]
    exact v.1.ends (fun _ => isBlank_of_isIdentChar) _
  exact (reads_many (fun v _ => parameter_reads v) hne hends (ends_parameters [] before rest)
    (stops_parameter before rest) parameters).mono fun _ _ => trivial

theorem TypeLine.text_eq (t : TypeLine) :
    t.text = "type".toList ++ (t.gap.text ++ (t.name.text ++
      (t.parameters.flatMap parameterText ++ (t.before.text ++ '=' :: (t.behind.text ++
        (t.first.text ++ t.more.flatMap barText)))))) := by
  simp [TypeLine.text, TypeLine.front]

theorem TypeLine.reads (t : TypeLine) :
    customDeclaration.Reads t.text [] (fun d => exists decl,
      d = .type decl ∧ decl.map (fun _ => ()) = t.outline) := by
  rw [t.text_eq]
  refine (reads_word "type" _).then fun _ =>
    (t.gap.reads (t.name.opens.starts.append _).ends).then fun _ => ?_
  apply (t.name.reads (ends_parameters t.parameters t.before _)).bind
  intro name hname
  refine (reads_parameters t.parameters t.before _).then fun _ =>
    (reads_spaced (by decide) t.before t.behind (t.first.starts.append _).ends).then fun _ => ?_
  apply (reads_alternatives t.first t.more).bind
  intro names hnames
  refine reads_no_blanks.then fun _ => reads_atEnd.then fun _ => Reads.pure ?_ []
  refine ⟨_, rfl, ?_⟩
  have hconstructors : t.alternatives.map
      (fun a => ({ name := String.ofList a.name.text, location := () } : Named Unit)) =
        names.map (Named.map fun _ => ()) := by
    refine map_eq_of_forall₂ (hnames.imp fun a n hn => ?_)
    rw [Named.map, hn]
  rw [TypeDecl.map, TypeLine.outline, hconstructors, hname]

theorem TypeLine.stops_alias (t : TypeLine) : aliasDeclaration.Stops t.text := by
  rw [t.text_eq]
  refine (reads_word "type" _).stops fun _ =>
    (t.gap.reads (t.name.opens.starts.append _).ends).stops fun _ => Stops.bind (stops_word ?_) _
  rcases t.name.spelled with ⟨c, cs, htext, hc, _⟩
  have hletter : c ≠ 'a' := ne_of_class hc (by decide)
  rw [htext]
  simp [List.isPrefixOf?, hletter.symm]

theorem TypeLine.reads_declaration (t : TypeLine) :
    declaration.Reads t.text [] (fun d => exists decl,
      d = .type decl ∧ decl.map (fun _ => ()) = t.outline) :=
  Stops.orElse ((stops_word rfl).bind _) (Stops.orElse t.stops_alias (t.reads.orElse _))

/-!
## Blanks at the end
-/

theorem Alternative.exists_trimmed (a : Alternative) :
    exists b : Alternative, b.name = a.name ∧
      forall front, trimEnd isBlank (front ++ a.text) = front ++ b.text := by
  rcases trimEnd_append isBlank a.args with ⟨blanks, hargs, hblanks⟩
  have hends : Ends isIdentChar (trimEnd isBlank a.args ++ blanks) := hargs ▸ a.ends
  have hbracketed : WellBracketed (trimEnd isBlank a.args ++ blanks) := hargs ▸ a.bracketed
  refine ⟨⟨a.name, trimEnd isBlank a.args, Ends.of_append hends,
    hbracketed.of_append hblanks⟩, rfl, fun front => ?_⟩
  rw [Alternative.text, ← List.append_assoc, (a.name.endsWord.append front).trimEnd_append,
    List.append_assoc]
  rfl

theorem TypeLine.exists_trimmed (t : TypeLine) :
    exists u : TypeLine, u.text = trimEnd isBlank t.text ∧ u.outline = t.outline := by
  rcases List.eq_nil_or_concat t.more with hmore | ⟨items, item, hmore⟩
  · rcases t.first.exists_trimmed with ⟨b, hname, htrim⟩
    refine ⟨{ t with first := b }, ?_, ?_⟩
    · have htext : t.text = t.front ++ t.first.text := by
        simp [TypeLine.text, hmore]
      rw [htext, htrim]
      simp [TypeLine.text, TypeLine.front, hmore]
    · simp [TypeLine.outline, TypeLine.alternatives, hname]
  · rcases item.2.2.exists_trimmed with ⟨b, hname, htrim⟩
    refine ⟨{ t with more := items ++ [(item.1, item.2.1, b)] }, ?_, ?_⟩
    · have htext : t.text = (t.front ++ (t.first.text ++ (items.flatMap barText ++
          (item.1.text ++ '|' :: item.2.1.text)))) ++ item.2.2.text := by
        simp [TypeLine.text, hmore, barText]
      rw [htext, htrim]
      simp [TypeLine.text, TypeLine.front, barText]
    · simp [TypeLine.outline, TypeLine.alternatives, hmore, hname]

/-!
## Reading custom types back
-/

theorem TypeLine.readDeclared (t : TypeLine) (hmask : mask t.text = t.text)
    (hindented : Indented t.text) :
    exists decl, readDeclared t.text = .ok ⟨[], [decl], [], []⟩ ∧
      decl.map (fun _ => ()) = t.outline := by
  have hunmarked : mask t.text = maskFrom (Scanner.inCode none) t.text := rfl
  have hmasked : maskFrom (Scanner.inCode none) t.text = t.text := hunmarked.symm.trans hmask
  have hstarts : StartsWord t.text := ⟨'t', _, rfl, by decide⟩
  have hchunks := chunksFrom_of_indented hstarts hindented 0
  rcases t.exists_trimmed with ⟨u, htext, houtline⟩
  have hchunk : ({ start := 0, text := trimEnd isBlank t.text } : Chunk).text = u.text :=
    htext.symm
  rcases u.reads_declaration.read hchunk .unrecognizedDeclaration with
    ⟨_, hread, decl, rfl, hdecl⟩
  refine ⟨decl.map (locate t.text), ?_, ?_⟩
  · unfold Syntax.readDeclared
    rw [hmasked, hchunks]
    simp only [readDeclarations, hread]
    rfl
  · rw [TypeDecl.map_map, ← houtline, ← hdecl]

/-- Behind any module, a custom type is read as what it stands for: its constructors are those
between the outermost bars, in the order in which they are written. -/
theorem parse_customType {source : String} {m : Outline Location}
    (hparse : parse source = .ok m) (hline : EndsLine source.toList)
    (hcode : (scan source.toList).region = .code) (t : TypeLine)
    (hmask : mask t.text = t.text) (hindented : Indented t.text) :
    exists decl : TypeDecl Location,
      parse (source ++ String.ofList t.text) = .ok { m with types := m.types ++ [decl] } ∧
        decl.map (fun _ => ()) = t.outline := by
  have htext : StartsDeclaration t.text := ⟨'t', _, rfl, by decide⟩
  rcases t.readDeclared hmask hindented with ⟨decl, hread, hdecl⟩
  have hbehind := @parse_behind source (String.ofList t.text) m hparse hline hcode
  rw [String.toList_ofList, hread] at hbehind
  refine ⟨decl.map (behind source.toList), ?_, ?_⟩
  · rw [hbehind htext]
    simp [Outline.extend, Declared.map]
  · rw [TypeDecl.map_map, ← hdecl]

/-- A type with bars and brackets of all kinds in its arguments, over several lines. -/
def nestedType : TypeLine :=
  let one : Break := ⟨⟨['\t'], by decide, by decide⟩, by decide⟩
  let line : Break := ⟨⟨['\n', ' ', ' '], by decide, by decide⟩, by decide⟩
  { gap := one, name := ⟨"Tree".toList, by decide⟩
    parameters := [(one, ⟨"a".toList, by decide⟩), (line, ⟨"b'".toList, by decide⟩)]
    before := line.toSpace, behind := Space.empty
    first := ⟨⟨"Leaf".toList, by decide⟩, [], Ends.nil _, by decide⟩
    more :=
      [(line.toSpace, one.toSpace, ⟨⟨"Node'".toList, by decide⟩,
          ' ' :: "\x7b r | left : (a, [b']), f : \x7b s | x : a \x7d \x7d\n  (Tree a b')".toList,
          Ends.cons (by decide) _, by decide⟩),
        (Space.empty, Space.empty, ⟨⟨"End".toList, by decide⟩, '(' :: "[\x7b\x7d]) \n\n".toList,
          Ends.cons (by decide) _, by decide⟩)] }

theorem parse_customType_nested :
    exists m decl,
      parse emptyModule = .ok m ∧ EndsLine emptyModule.toList ∧
        (scan emptyModule.toList).region = .code ∧ mask nestedType.text = nestedType.text ∧
        Indented nestedType.text ∧
        parse (emptyModule ++ String.ofList nestedType.text) =
          .ok { m with types := m.types ++ [decl] } ∧
        decl.map (fun _ => ()) =
          .custom "Tree" [⟨"Leaf", ()⟩, ⟨"Node'", ()⟩, ⟨"End", ()⟩] () := by
  have hparse : exists m, parse emptyModule = .ok m := ⟨_, rfl⟩
  have hline : EndsLine emptyModule.toList := by decide
  have hcode : (scan emptyModule.toList).region = .code := by decide +kernel
  have hmask : mask nestedType.text = nestedType.text := by decide +kernel
  have hindented : Indented nestedType.text := by decide +kernel
  rcases hparse with ⟨m, hm⟩
  rcases parse_customType hm hline hcode nestedType hmask hindented with ⟨decl, hdecl, houtline⟩
  exact ⟨m, decl, hm, hline, hcode, hmask, hindented, hdecl, houtline⟩

end Layout
end Syntax
end ElmNavigator
