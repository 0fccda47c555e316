import ElmNavigator.Proofs.Place.NormalPaths
import ElmNavigator.Proofs.Syntax.RuleLogic
import ElmNavigator.Proofs.Text.Blanks

/-!
# Names as they are written

An outline lists names with their places.  `written` lists each of them once
more, as it is written in a source text: an operator stands in parentheses and a
wildcard is two dots.  Every rule of the grammar gives names that stand, so
written, in the text that it has read.
-/

namespace ElmNavigator
namespace Syntax

open Text Rule

/-!
## The names of an outline
-/

def isOperatorName (name : String) : Bool :=
  !name.toList.isEmpty && name.toList.all isOperatorChar

/-- The text that stands for the name of a function or an operator. -/
def spelling (name : String) : String :=
  if isOperatorName name then "(" ++ name ++ ")" else name

variable {ℓ κ : Type}

/-- The name of a function or an operator as it is written. -/
def Named.spelled (n : Named ℓ) : Named ℓ :=
  { name := spelling n.name, location := n.location }

/-- An entry of an exposing list as it is written, without the list of members behind a type. -/
def Exposed.written : Exposed ℓ -> Named ℓ
  | .all l => { name := "..", location := l }
  | .value name l => { name := spelling name, location := l }
  | .type name _ l => { name, location := l }
  | .constructor name _ l => { name, location := l }

def Import.written (i : Import ℓ) : List (Named ℓ) :=
  { name := i.module, location := i.location } :: i.exposing.map Exposed.written

def TypeDecl.written : TypeDecl ℓ -> List (Named ℓ)
  | .custom name constructors l => { name, location := l } :: constructors
  | .synonym name l => [{ name, location := l }]

/-- Every name of an outline that has a place, as it is written. -/
def Outline.written (m : Outline ℓ) : List (Named ℓ) :=
  { name := m.name, location := m.location } :: m.exposing.map Exposed.written ++
    m.imports.flatMap Import.written ++ m.types.flatMap TypeDecl.written ++
    m.functions.map Named.spelled ++ m.ports

def Header.written (h : Header) : List (Named Span) :=
  h.name :: h.exposing.map Exposed.written

def Declaration.written : Declaration -> List (Named Span)
  | .import_ decl => decl.written
  | .type decl => decl.written
  | .port name => [name]
  | .function name => [name.spelled]
  | .ignored => []

theorem Exposed.written_map (f : ℓ -> κ) (e : Exposed ℓ) :
    (e.map f).written = e.written.map f := by
  cases e <;> rfl

theorem Exposed.map_written_map (f : ℓ -> κ) (es : List (Exposed ℓ)) :
    (es.map (·.map f)).map Exposed.written =
      (es.map Exposed.written).map (·.map f) := by
  rw [List.map_map, List.map_map]
  apply List.map_congr_left
  intro e _he
  exact Exposed.written_map f e

theorem Import.written_map (f : ℓ -> κ) (i : Import ℓ) :
    (i.map f).written = i.written.map (·.map f) := by
  unfold Import.written
  rw [List.map_cons, ← Exposed.map_written_map]
  rfl

theorem TypeDecl.written_map (f : ℓ -> κ) (t : TypeDecl ℓ) :
    (t.map f).written = t.written.map (·.map f) := by
  cases t <;> rfl

theorem Outline.written_map (f : ℓ -> κ) (m : Outline ℓ) :
    (m.map f).written = m.written.map (·.map f) := by
  have himports : (m.imports.map (·.map f)).flatMap Import.written =
      (m.imports.flatMap Import.written).map (·.map f) := by
    rw [List.map_flatMap, List.flatMap_map]
    exact List.flatMap_congr fun i _ => Import.written_map f i
  have htypes : (m.types.map (·.map f)).flatMap TypeDecl.written =
      (m.types.flatMap TypeDecl.written).map (·.map f) := by
    rw [List.map_flatMap, List.flatMap_map]
    exact List.flatMap_congr fun t _ => TypeDecl.written_map f t
  have hfunctions : (m.functions.map (·.map f)).map Named.spelled =
      (m.functions.map Named.spelled).map (·.map f) := by
    rw [List.map_map, List.map_map]
    rfl
  simp only [Outline.written, Outline.map, List.map_append, List.map_cons,
    himports, htypes, hfunctions, Exposed.map_written_map]
  rfl

/-!
## Replacing places twice
-/

variable {ι : Type}

theorem Exposed.map_map (f : κ -> ι) (g : ℓ -> κ) (e : Exposed ℓ) :
    (e.map g).map f = e.map (f ∘ g) := by
  cases e <;> rfl

theorem Import.map_map (f : κ -> ι) (g : ℓ -> κ) (i : Import ℓ) :
    (i.map g).map f = i.map (f ∘ g) := by
  simp only [Import.map, List.map_map, Import.mk.injEq, true_and]
  exact ⟨List.map_congr_left fun e _ => Exposed.map_map f g e, rfl⟩

theorem TypeDecl.map_map (f : κ -> ι) (g : ℓ -> κ) (t : TypeDecl ℓ) :
    (t.map g).map f = t.map (f ∘ g) := by
  cases t with
  | synonym name l => rfl
  | custom name constructors l =>
      simp only [TypeDecl.map, List.map_map]
      rfl

theorem Outline.map_map (f : κ -> ι) (g : ℓ -> κ) (m : Outline ℓ) :
    (m.map g).map f = m.map (f ∘ g) := by
  simp only [Outline.map, List.map_map, Outline.mk.injEq, true_and]
  exact ⟨List.map_congr_left fun e _ => Exposed.map_map f g e,
    List.map_congr_left fun i _ => Import.map_map f g i,
    List.map_congr_left fun t _ => TypeDecl.map_map f g t, rfl, rfl, rfl⟩

/-!
## Lexical pieces
-/

section Pieces

variable {origin : Cursor}

theorem isOperatorChar_disjoint {c : Char} (h : isOperatorChar c = true) :
    isBlank c = false ∧ (isLower c || c == '_') = false := by
  have hmem : c ∈ "+-/*=.<>:&|^?%!~@#$\\".toList := by
    simpa [isOperatorChar] using h
  have hall : ("+-/*=.<>:&|^?%!~@#$\\".toList.all fun d =>
      !isBlank d && !(isLower d || d == '_')) = true := by
    decide
  simpa using List.all_eq_true.mp hall c hmem

/-- An identifier whose first character is in a class. -/
def IsIdentifier (first : Char -> Bool) (text : List Char) : Prop :=
  exists c cs, text = c :: cs ∧ first c = true ∧
    forall d, d ∈ cs -> isIdentChar d = true

instance (first : Char -> Bool) (text : List Char) : Decidable (IsIdentifier first text) :=
  match text with
  | [] => isFalse (by simp [IsIdentifier])
  | c :: cs =>
      decidable_of_iff (first c = true ∧ cs.all isIdentChar = true) (by simp [IsIdentifier])

theorem IsIdentifier.isWord {first : Char -> Bool} {text : List Char}
    (hfirst : forall c, first c = true -> isBlank c = false)
    (h : IsIdentifier first text) : IsWord text := by
  rcases h with ⟨c, cs, htext, hc, hcs⟩
  subst htext
  constructor
  · simp
  · intro d hd
    rcases List.mem_cons.mp hd with hhead | htail
    · rw [hhead]
      exact hfirst c hc
    · exact isBlank_of_isIdentChar (hcs d htail)

theorem identifier_consumes (first : Char -> Bool) :
    Consumes (do satisfy first; skipWhile isIdentChar)
      (IsIdentifier first) := by
  apply ((satisfy_consumes first).bind fun _ =>
    skipWhile_consumes isIdentChar).mono
  rintro text ⟨s, t, htext, ⟨c, hs, hc⟩, ht⟩
  exact ⟨c, t, by rw [htext, hs]; rfl, hc, ht⟩

theorem isWord_of_upper {text : List Char} (h : IsIdentifier isUpper text) :
    IsWord text :=
  h.isWord fun _ => isBlank_of_isUpper

theorem upperName_yields : upperName.Yields origin origin.Shows := by
  apply ((identifier_consumes isUpper).lexeme fun _ => isWord_of_upper).bind
  rintro l ⟨_haccepted, hshows⟩
  exact Yields.pure hshows

theorem isBlank_of_isIdentStart {c : Char}
    (h : (isLower c || c == '_') = true) : isBlank c = false := by
  rcases Bool.or_eq_true_iff.mp h with hlower | hunderscore
  · exact isBlank_of_isLower hlower
  · rw [eq_of_beq hunderscore]
    decide

theorem spelling_of_lower {text : List Char}
    (h : IsIdentifier (fun c => isLower c || c == '_') text) :
    spelling (String.ofList text) = String.ofList text := by
  rcases h with ⟨c, cs, htext, hc, _hcs⟩
  subst htext
  have hoperator : isOperatorChar c = false := by
    apply Bool.eq_false_iff.mpr
    intro hoperator
    have hstart := (isOperatorChar_disjoint hoperator).right
    exact Bool.false_ne_true (hstart.symm.trans hc)
  simp [spelling, isOperatorName, hoperator]

theorem lowerName_yields :
    lowerName.Yields origin
      (fun n => origin.Shows n ∧ n.spelled = n) := by
  apply ((identifier_consumes fun c => isLower c || c == '_').lexeme fun _ h =>
    h.isWord fun _ => isBlank_of_isIdentStart).bind
  rintro l ⟨haccepted, hshows⟩
  refine Yields.pure ⟨hshows, ?_⟩
  unfold Named.spelled Lexeme.named
  rw [spelling_of_lower haccepted]

def IsOperator (text : List Char) : Prop :=
  exists cs, text = '(' :: cs ++ [')'] ∧ cs ≠ [] ∧
    forall c, c ∈ cs -> isOperatorChar c = true

theorem IsOperator.isWord {text : List Char} (h : IsOperator text) :
    IsWord text := by
  rcases h with ⟨cs, htext, _hne, hcs⟩
  subst htext
  constructor
  · simp
  · intro c hc
    simp only [List.cons_append, List.mem_cons, List.mem_append,
      List.not_mem_nil, or_false] at hc
    rcases hc with hopen | hmem | hclose
    · rw [hopen]
      decide
    · exact (isOperatorChar_disjoint (hcs c hmem)).left
    · rw [hclose]
      decide

theorem IsOperator.spelling {text : List Char} (h : IsOperator text) :
    spelling (String.ofList (text.drop 1).dropLast) = String.ofList text := by
  rcases h with ⟨cs, htext, hne, hcs⟩
  subst htext
  have hname : isOperatorName (String.ofList cs) = true := by
    simp [isOperatorName, hne]
    exact hcs
  have hinside : (('(' :: cs ++ [')']).drop 1).dropLast = cs := by
    simp
  rw [hinside]
  unfold Syntax.spelling
  rw [if_pos hname]
  apply String.toList_injective
  simp

theorem operator_consumes :
    Consumes (do character '('; skipWhile1 isOperatorChar; character ')')
      IsOperator := by
  apply ((character_consumes '(').bind fun _ =>
    (skipWhile1_consumes isOperatorChar).bind fun _ =>
      character_consumes ')').mono
  rintro text ⟨s, rest, htext, hs, t, u, hrest, ⟨hne, ht⟩, hu⟩
  exact ⟨t, by rw [htext, hs, hrest, hu]; rfl, hne, ht⟩

theorem operatorName_yields :
    operatorName.Yields origin (fun n => origin.Shows n.spelled) := by
  apply (operator_consumes.lexeme fun _ h => h.isWord).bind
  rintro l ⟨haccepted, hshows⟩
  apply Yields.pure
  unfold Named.spelled
  rw [haccepted.spelling]
  exact hshows

theorem valueName_yields :
    valueName.Yields origin (fun n => origin.Shows n.spelled) := by
  apply operatorName_yields.orElse
  apply lowerName_yields.mono
  rintro n ⟨hshows, hspelled⟩
  rw [hspelled]
  exact hshows

theorem isWord_append {s t : List Char} (hs : IsWord s)
    (ht : forall c, c ∈ t -> isBlank c = false) : IsWord (s ++ t) := by
  constructor
  · simp [hs.left]
  · intro c hc
    rcases List.mem_append.mp hc with hleft | hright
    · exact hs.right c hleft
    · exact ht c hright

/-- Upper-case identifiers with dots between them. -/
def IsDotted (text : List Char) : Prop :=
  forall part, part ∈ splitOn '.' text -> IsIdentifier isUpper part

theorem isIdentChar_of_upper {text : List Char} (h : IsIdentifier isUpper text) {c : Char}
    (hc : c ∈ text) : isIdentChar c = true := by
  rcases h with ⟨first, rest, htext, hfirst, hrest⟩
  rw [htext] at hc
  rcases List.mem_cons.mp hc with hhead | htail
  · rw [hhead]
    simp [isIdentChar, isAlphanumeric_of_isUpper hfirst]
  · exact hrest c htail

theorem IsDotted.isIdentChar {text : List Char} (h : IsDotted text) {c : Char}
    (hc : c ∈ text) : c = '.' ∨ isIdentChar c = true := by
  by_cases hdot : c = '.'
  · exact Or.inl hdot
  · rcases Path.exists_mem_splitOn hdot hc with ⟨part, hpart, hmem⟩
    exact Or.inr (isIdentChar_of_upper (h part hpart) hmem)

theorem IsDotted.isWord {text : List Char} (h : IsDotted text) : IsWord text := by
  constructor
  · intro hempty
    rcases h [] (by simp [hempty, splitOn]) with ⟨c, cs, hcons, _⟩
    cases hcons
  · intro c hc
    rcases h.isIdentChar hc with hdot | hident
    · rw [hdot]
      decide
    · exact isBlank_of_isIdentChar hident

theorem isDotted_of_parts {first : List Char} {texts : List (List Char)}
    (hfirst : IsIdentifier isUpper first)
    (htexts : forall text, text ∈ texts ->
      exists part, text = '.' :: part ∧ IsIdentifier isUpper part) :
    IsDotted (first ++ texts.flatten) := by
  have hdot {part : List Char} (hpart : IsIdentifier isUpper part) : '.' ∉ part := by
    intro hmem
    exact absurd (isIdentChar_of_upper hpart hmem) (by decide)
  induction texts generalizing first with
  | nil =>
      intro part hpart
      rw [List.flatten_nil, List.append_nil, Path.splitOn_of_not_mem (hdot hfirst)] at hpart
      rw [List.mem_singleton.mp hpart]
      exact hfirst
  | cons text texts ih =>
      rcases htexts text List.mem_cons_self with ⟨second, htext, hsecond⟩
      have hrest := ih hsecond fun other hother =>
        htexts other (List.mem_cons_of_mem text hother)
      intro part hpart
      rw [List.flatten_cons, htext, List.cons_append, Path.splitOn_append_sep,
        Path.splitOn_of_not_mem (hdot hfirst)] at hpart
      rcases List.mem_cons.mp hpart with hhead | htail
      · rw [hhead]
        exact hfirst
      · exact hrest part htail

theorem dottedName_consumes :
    Consumes (do skipUpperName; let _ ← many do { character '.'; skipUpperName })
      IsDotted := by
  have hpart : Consumes (do character '.'; skipUpperName)
      (fun text => exists part, text = '.' :: part ∧ IsIdentifier isUpper part) := by
    apply ((character_consumes '.').bind fun _ =>
      identifier_consumes isUpper).mono
    rintro text ⟨s, t, htext, hs, ht⟩
    exact ⟨t, by rw [htext, hs]; rfl, ht⟩
  apply ((identifier_consumes isUpper).bind fun _ =>
    (many_consumes hpart).bind fun _ => pure_consumes ()).mono
  rintro text ⟨s, rest, htext, hs, t, u, hrest, ⟨texts, ht, hall⟩, hu⟩
  rw [htext, hrest, ht, hu, List.append_nil]
  exact isDotted_of_parts hs hall

theorem moduleName_yields : moduleName.Yields origin origin.Shows := by
  apply (dottedName_consumes.lexeme fun _ => IsDotted.isWord).bind
  rintro l ⟨_haccepted, hshows⟩
  exact Yields.pure hshows

end Pieces

/-!
## Exposing lists
-/

section Declarations

variable {origin : Cursor}

theorem blanks_consumes :
    blanks.Consumes (fun text => forall c, c ∈ text -> isBlank c = true) :=
  skipWhile_consumes isBlank

theorem blanks1_consumes :
    blanks1.Consumes
      (fun text => text ≠ [] ∧ forall c, c ∈ text -> isBlank c = true) :=
  skipWhile1_consumes isBlank

theorem spaced_consumes (c : Char) : (spaced c).Consumes (fun _ => True) :=
  (blanks_consumes.bind fun _ => (character_consumes c).bind fun _ =>
    blanks_consumes).mono fun _ _ => trivial

def Members.names : Members -> List (Named Span)
  | .all => []
  | .listed names => names

theorem typeMembers_yields :
    typeMembers.Yields origin
      (fun members => forall n, n ∈ members.names -> origin.Shows n) := by
  refine (character_consumes '(').then fun _ => blanks_consumes.then fun _ => ?_
  have hmembers : Yields origin
      (orElse (do word ".."; return Members.all)
        (do let names ← separated upperName (spaced ','); return .listed names))
      (fun members => forall n, n ∈ members.names -> origin.Shows n) := by
    apply Yields.orElse
    · refine (word_consumes "..").then fun _ => Yields.pure ?_
      intro n hn
      cases hn
    · exact (upperName_yields.separated (spaced_consumes ',')).bind
        fun names hnames => Yields.pure hnames
  apply hmembers.bind
  intro members hgood
  exact blanks_consumes.then fun _ => (character_consumes ')').then fun _ =>
    Yields.pure hgood

def AllShown (origin : Cursor) (entries : List (Exposed Span)) : Prop :=
  forall e, e ∈ entries -> origin.Shows e.written

theorem exposedType_allShown {name : Named Span} {members : Option Members}
    (hname : origin.Shows name)
    (hmembers : forall ms, members = some ms ->
      forall n, n ∈ ms.names -> origin.Shows n) :
    AllShown origin (exposedType name members) := by
  intro e he
  cases members with
  | none =>
      rw [List.mem_singleton.mp he]
      exact hname
  | some ms =>
      cases ms with
      | all =>
          rw [List.mem_singleton.mp he]
          exact hname
      | listed names =>
          rcases List.mem_cons.mp he with hhead | htail
          · rw [hhead]
            exact hname
          · rcases List.mem_map.mp htail with ⟨n, hn, hentry⟩
            rw [← hentry]
            exact hmembers (.listed names) rfl n hn

theorem exposedItem_yields :
    exposedItem.Yields origin (AllShown origin) := by
  apply Yields.orElse
  · apply valueName_yields.bind
    intro value hvalue
    apply Yields.pure
    intro e he
    rw [List.mem_singleton.mp he]
    exact hvalue
  · apply upperName_yields.bind
    intro name hname
    apply (blanks_consumes.then fun _ => typeMembers_yields).optional.bind
    intro members hmembers
    exact Yields.pure (exposedType_allShown hname hmembers)

theorem dots_isWord : IsWord "..".toList := by
  constructor
  · decide
  · have hall : ("..".toList.all fun c => !isBlank c) = true := by
      decide
    intro c hc
    simpa using List.all_eq_true.mp hall c hc

theorem exposingList_yields :
    exposingList.Yields origin (AllShown origin) := by
  refine (word_consumes "exposing").then fun _ =>
    blanks_consumes.then fun _ => (character_consumes '(').then fun _ =>
      blanks_consumes.then fun _ => ?_
  have hentries : Yields origin
      (orElse (do let dots ← lexeme (word ".."); return [Exposed.all dots.span])
        (do let items ← separated exposedItem (spaced ','); return items.flatten))
      (AllShown origin) := by
    apply Yields.orElse
    · apply ((word_consumes "..").lexeme fun _ h => h ▸ dots_isWord).bind
      rintro dots ⟨htext, hshows⟩
      apply Yields.pure
      intro e he
      rw [List.mem_singleton.mp he]
      rw [htext] at hshows
      exact hshows
    · apply (exposedItem_yields.separated (spaced_consumes ',')).bind
      intro items hitems
      apply Yields.pure
      intro e he
      rcases List.mem_flatten.mp he with ⟨entries, hentries, hmem⟩
      exact hitems entries hentries e hmem
  apply hentries.bind
  intro entries hgood
  exact blanks_consumes.then fun _ => (character_consumes ')').then fun _ =>
    Yields.pure hgood

/-!
## Headers and declarations
-/

theorem moduleKind_yields : moduleKind.Yields origin (fun _ => True) := by
  have hword : Yields origin
      (orElse (do word "port"; return ModuleKind.port)
        (do word "effect"; return ModuleKind.effect))
      (fun _ => True) := by
    apply Yields.orElse
    · exact (word_consumes "port").then fun _ => Yields.pure trivial
    · exact (word_consumes "effect").then fun _ => Yields.pure trivial
  have hkind : Yields origin
      (do
        let kind ← orElse (do word "port"; return ModuleKind.port)
          (do word "effect"; return ModuleKind.effect)
        blanks1
        return kind)
      (fun _ => True) :=
    hword.bind fun _ _ => blanks1_consumes.then fun _ => Yields.pure trivial
  exact hkind.optional.bind fun _ _ => Yields.pure trivial

theorem effectClause_consumes : effectClause.Consumes (fun _ => True) :=
  ((word_consumes "where").bind fun _ => blanks_consumes.bind fun _ =>
    (character_consumes '{').bind fun _ =>
      (skipWhile_consumes (· != '}')).bind fun _ =>
        (character_consumes '}').bind fun _ => blanks_consumes).mono
    fun _ _ => trivial

theorem header_yields :
    header.Yields origin
      (fun h => forall n, n ∈ h.written -> origin.Shows n) := by
  apply moduleKind_yields.bind
  intro kind _
  refine (word_consumes "module").then fun _ => blanks1_consumes.then fun _ => ?_
  apply moduleName_yields.bind
  intro name hname
  refine blanks_consumes.then fun _ => ?_
  have hrest : Yields origin
      (do
        let exposing ← exposingList
        blanks
        atEnd
        return { kind, name, exposing : Header })
      (fun h => forall n, n ∈ h.written -> origin.Shows n) := by
    apply exposingList_yields.bind
    intro exposing hexposing
    refine blanks_consumes.then fun _ => atEnd_consumes.then fun _ =>
      Yields.pure ?_
    intro n hn
    rcases List.mem_cons.mp hn with hhead | htail
    · rw [hhead]
      exact hname
    · rcases List.mem_map.mp htail with ⟨e, he, hentry⟩
      rw [← hentry]
      exact hexposing e he
  by_cases heffect : kind = .effect
  · rw [if_pos heffect]
    exact (effectClause_consumes.yields.optional).bind fun _ _ => hrest
  · rw [if_neg heffect]
    exact hrest

def DeclarationShown (origin : Cursor) (decl : Declaration) : Prop :=
  forall n, n ∈ decl.written -> origin.Shows n

theorem skipRest_consumes : skipRest.Consumes (fun _ => True) :=
  (skipWhile_consumes fun _ => true).mono fun _ _ => trivial

theorem body_consumes : body.Consumes (fun _ => True) :=
  ((skipWhile_consumes (· != '=')).bind fun _ =>
    (character_consumes '=').bind fun _ => skipRest_consumes).mono
    fun _ _ => trivial

theorem importDeclaration_yields :
    importDeclaration.Yields origin (DeclarationShown origin) := by
  refine (word_consumes "import").then fun _ => blanks1_consumes.then fun _ => ?_
  apply moduleName_yields.bind
  intro module hmodule
  have hasName : Yields origin (do blanks1; word "as"; blanks1; upperName)
      (fun _ => True) :=
    blanks1_consumes.then fun _ => (word_consumes "as").then fun _ =>
      blanks1_consumes.then fun _ => upperName_yields.mono fun _ _ => trivial
  apply hasName.optional.bind
  intro asName _
  apply (blanks_consumes.then fun _ => exposingList_yields).optional.bind
  intro exposing hexposing
  refine blanks_consumes.then fun _ => atEnd_consumes.then fun _ =>
    Yields.pure ?_
  intro n hn
  rcases List.mem_cons.mp hn with hhead | htail
  · rw [hhead]
    exact hmodule
  · rcases List.mem_map.mp htail with ⟨e, he, hentry⟩
    rw [← hentry]
    cases exposing with
    | none =>
        cases he
    | some entries =>
        exact hexposing entries rfl e he

theorem aliasDeclaration_yields :
    aliasDeclaration.Yields origin (DeclarationShown origin) := by
  refine (word_consumes "type").then fun _ => blanks1_consumes.then fun _ =>
    (word_consumes "alias").then fun _ => blanks1_consumes.then fun _ => ?_
  apply upperName_yields.bind
  intro name hname
  refine body_consumes.then fun _ => Yields.pure ?_
  intro n hn
  rw [List.mem_singleton.mp hn]
  exact hname

theorem splitAtBar_append (depth : Nat) (cs : List Char) :
    (splitAtBar depth cs).1 ++ (splitAtBar depth cs).2 = cs := by
  induction cs generalizing depth with
  | nil => rfl
  | cons c cs ih =>
      simp only [splitAtBar]
      split
      · rfl
      · simp [ih]

theorem constructorArgs_consumes : constructorArgs.Consumes (fun _ => True) := by
  intro cur
  exact ⟨(splitAtBar 0 cur.rest).1,
    ⟨(splitAtBar_append 0 cur.rest).symm, rfl⟩, trivial⟩

theorem constructorName_yields :
    constructorName.Yields origin origin.Shows := by
  apply upperName_yields.bind
  intro name hname
  exact constructorArgs_consumes.then fun _ => Yields.pure hname

theorem customDeclaration_yields :
    customDeclaration.Yields origin (DeclarationShown origin) := by
  refine (word_consumes "type").then fun _ => blanks1_consumes.then fun _ => ?_
  apply upperName_yields.bind
  intro name hname
  apply (blanks1_consumes.then fun _ => lowerName_yields).many.bind
  intro arguments _
  refine (spaced_consumes '=').then fun _ => ?_
  apply (constructorName_yields.separated (spaced_consumes '|')).bind
  intro constructors hconstructors
  refine blanks_consumes.then fun _ => atEnd_consumes.then fun _ =>
    Yields.pure ?_
  intro n hn
  rcases List.mem_cons.mp hn with hhead | htail
  · rw [hhead]
    exact hname
  · exact hconstructors n htail

theorem portDeclaration_yields :
    portDeclaration.Yields origin (DeclarationShown origin) := by
  refine (word_consumes "port").then fun _ => blanks1_consumes.then fun _ => ?_
  apply lowerName_yields.bind
  rintro name ⟨hname, _hspelled⟩
  refine blanks_consumes.then fun _ => (character_consumes ':').then fun _ =>
    skipRest_consumes.then fun _ => Yields.pure ?_
  intro n hn
  rw [List.mem_singleton.mp hn]
  exact hname

theorem ignored_shown : DeclarationShown origin .ignored := by
  intro n hn
  cases hn

theorem fixityDeclaration_yields :
    fixityDeclaration.Yields origin (DeclarationShown origin) := by
  have hkeyword : Yields origin
      (orElse (word "infixl") (orElse (word "infixr") (word "infix")))
      (fun _ => True) :=
    (word_consumes "infixl").yields.orElse
      ((word_consumes "infixr").yields.orElse (word_consumes "infix").yields)
  exact hkeyword.bind fun _ _ => blanks1_consumes.then fun _ =>
    skipRest_consumes.then fun _ => Yields.pure ignored_shown

theorem annotationDeclaration_yields :
    annotationDeclaration.Yields origin (DeclarationShown origin) :=
  valueName_yields.bind fun _ _ => blanks_consumes.then fun _ =>
    (character_consumes ':').then fun _ => skipRest_consumes.then fun _ =>
      Yields.pure ignored_shown

theorem functionDeclaration_yields :
    functionDeclaration.Yields origin (DeclarationShown origin) := by
  apply valueName_yields.bind
  intro name hname
  refine body_consumes.then fun _ => Yields.pure ?_
  intro n hn
  rw [List.mem_singleton.mp hn]
  exact hname

theorem declaration_yields :
    declaration.Yields origin (DeclarationShown origin) :=
  importDeclaration_yields.orElse <| aliasDeclaration_yields.orElse <|
    customDeclaration_yields.orElse <| portDeclaration_yields.orElse <|
    fixityDeclaration_yields.orElse <|
    annotationDeclaration_yields.orElse functionDeclaration_yields

end Declarations

end Syntax
end ElmNavigator
