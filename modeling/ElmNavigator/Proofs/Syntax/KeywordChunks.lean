import ElmNavigator.Proofs.Syntax.LayoutReading
import ElmNavigator.Proofs.Syntax.NamePlaces

/-!
# Chunks that start with a keyword

Declarations are tried one form after the other, and the form of functions is the
last and the widest: a name, and an equals sign somewhere behind it.  It takes
`import` and `type` for names as well.  So a chunk that starts with one of them and
is not what the keyword is meant for is not always rejected: with a colon behind the
keyword it passes for an annotation, and otherwise an equals sign makes it a function
that has the keyword for its name.
-/

namespace ElmNavigator
namespace Syntax

open Text Rule

/-!
## Results of rules
-/

namespace Rule

variable {α β : Type}

/-- All values that a rule can give are good. -/
def Gives (p : Rule α) (good : α -> Prop) : Prop :=
  forall cur a next, p cur = .ok a next -> good a

theorem exists_of_bind {p : Rule α} {f : α -> Rule β} {cur next : Cursor} {b : β}
    (h : (p >>= f) cur = .ok b next) :
    exists a mid, p cur = .ok a mid ∧ f a mid = .ok b next := by
  change andThen p f cur = _ at h
  unfold andThen at h
  cases hp : p cur with
  | stopped last =>
      rw [hp] at h
      cases h
  | ok a mid =>
      rw [hp] at h
      exact ⟨a, mid, rfl, h⟩

theorem Gives.pure {a : α} {good : α -> Prop} (h : good a) :
    Gives (Pure.pure a) good := by
  intro cur b next hb
  injection hb with hb _
  rw [← hb]
  exact h

theorem Gives.bind {p : Rule α} {f : α -> Rule β} {good : β -> Prop}
    (h : forall a, (f a).Gives good) : Gives (p >>= f) good := by
  intro cur b next hb
  rcases exists_of_bind hb with ⟨a, mid, _, hf⟩
  exact h a mid b next hf

theorem Gives.orElse {p q : Rule α} {good : α -> Prop} (hp : p.Gives good)
    (hq : q.Gives good) : (Rule.orElse p q).Gives good := by
  intro cur a next ha
  unfold Rule.orElse at ha
  cases hresult : p cur with
  | ok b last =>
      rw [hresult] at ha
      injection ha with hb _
      rw [← hb]
      exact hp cur b last hresult
  | stopped last =>
      rw [hresult] at ha
      exact hq cur a next ha

theorem orElse_eq_second {p q : Rule α} {good : α -> Prop} (hp : p.Gives good) {cur next : Cursor}
    {a : α} (ha : ¬ good a) (h : Rule.orElse p q cur = .ok a next) : q cur = .ok a next := by
  unfold Rule.orElse at h
  cases hresult : p cur with
  | ok b last =>
      rw [hresult] at h
      injection h with hb _
      exact absurd (hp cur b last hresult) (hb ▸ ha)
  | stopped last =>
      rw [hresult] at h
      exact h

theorem Stops.orElse_eq {p : Rule α} {input : List Char} (h : p.Stops input) (q : Rule α)
    (offset : Nat) :
    Rule.orElse p q { offset, rest := input } = q { offset, rest := input } := by
  rcases h offset with ⟨last, hlast⟩
  rw [Rule.orElse, hlast]

theorem orElse_assoc (p q r : Rule α) :
    Rule.orElse (Rule.orElse p q) r = Rule.orElse p (Rule.orElse q r) := by
  funext cur
  unfold Rule.orElse
  cases p cur with
  | ok a next => rfl
  | stopped last => rfl

theorem orElse_congr {q r : Rule α} {cur : Cursor} (p : Rule α) (h : q cur = r cur) :
    Rule.orElse p q cur = Rule.orElse p r cur := by
  unfold Rule.orElse
  rw [h]

theorem ends_dropWhile (q : Char -> Bool) (cs : List Char) : Ends q (cs.dropWhile q) := by
  intro c rest hrest
  have hhead := List.head?_dropWhile_not q cs
  rw [hrest] at hhead
  simpa using hhead

theorem reads_skipRest (input : List Char) : skipRest.Reads input [] (fun _ => True) := by
  have hall : skipRest.Reads (input ++ []) [] (fun _ => True) :=
    reads_skipWhile (fun _ _ => rfl) (Ends.nil _)
  rw [List.append_nil] at hall
  exact hall

end Rule

/-!
## Kinds of declarations
-/

theorem importDeclaration_gives : importDeclaration.Gives fun d => exists i, d = .import_ i :=
  Gives.bind fun _ => Gives.bind fun _ => Gives.bind fun _ => Gives.bind fun _ =>
    Gives.bind fun _ => Gives.bind fun _ => Gives.bind fun _ => Gives.pure ⟨_, rfl⟩

theorem aliasDeclaration_gives : aliasDeclaration.Gives fun d => exists t, d = .type t :=
  Gives.bind fun _ => Gives.bind fun _ => Gives.bind fun _ => Gives.bind fun _ =>
    Gives.bind fun _ => Gives.bind fun _ => Gives.pure ⟨_, rfl⟩

theorem customDeclaration_gives : customDeclaration.Gives fun d => exists t, d = .type t :=
  Gives.bind fun _ => Gives.bind fun _ => Gives.bind fun _ => Gives.bind fun _ =>
    Gives.bind fun _ => Gives.bind fun _ => Gives.bind fun _ => Gives.bind fun _ =>
      Gives.pure ⟨_, rfl⟩

theorem portDeclaration_gives : portDeclaration.Gives fun d => exists n, d = .port n :=
  Gives.bind fun _ => Gives.bind fun _ => Gives.bind fun _ => Gives.bind fun _ =>
    Gives.bind fun _ => Gives.bind fun _ => Gives.pure ⟨_, rfl⟩

theorem fixityDeclaration_gives : fixityDeclaration.Gives fun d => d = .ignored :=
  Gives.bind fun _ => Gives.bind fun _ => Gives.bind fun _ => Gives.pure rfl

theorem annotationDeclaration_gives : annotationDeclaration.Gives fun d => d = .ignored :=
  Gives.bind fun _ => Gives.bind fun _ => Gives.bind fun _ => Gives.bind fun _ => Gives.pure rfl

/-- Only the last form gives functions. -/
theorem functionDeclaration_of_declaration {cur next : Cursor} {n : Named Span}
    (h : declaration cur = .ok (.function n) next) :
    functionDeclaration cur = .ok (.function n) next := by
  unfold declaration at h
  have h := orElse_eq_second importDeclaration_gives (by simp) h
  have h := orElse_eq_second aliasDeclaration_gives (by simp) h
  have h := orElse_eq_second customDeclaration_gives (by simp) h
  have h := orElse_eq_second portDeclaration_gives (by simp) h
  have h := orElse_eq_second fixityDeclaration_gives (by simp) h
  exact orElse_eq_second annotationDeclaration_gives (by simp) h

theorem operatorName_gives : operatorName.Gives fun n => isOperatorName n.name = true := by
  intro cur n next h
  rcases exists_of_bind h with ⟨l, mid, hl, hn⟩
  have hlexeme := operator_consumes.lexeme (fun _ h => h.isWord) cur (Cursor.Reaches.refl cur)
  rw [hl] at hlexeme
  rcases hlexeme.right.left with ⟨cs, htext, hne, hcs⟩
  injection hn with hn _
  rw [← hn, htext]
  simpa [isOperatorName, hne] using hcs

theorem valueName_cases {cur next : Cursor} {n : Named Span} (h : valueName cur = .ok n next) :
    isOperatorName n.name = true ∨
      exists rest, cur.rest = n.name.toList ++ rest ∧ Ends isIdentChar rest := by
  by_cases hoperator : isOperatorName n.name = true
  · exact Or.inl hoperator
  · right
    have hlower := orElse_eq_second operatorName_gives hoperator h
    rcases cur with ⟨offset, source⟩
    by_cases hstart : Ends (fun c => isLower c || c == '_') source
    · rcases ((stops_satisfy hstart).bind fun _ => skipWhile isIdentChar).lexeme.bind
        (fun l => pure l.named) offset with ⟨last, hlast⟩
      rw [show lowerName { offset, rest := source } = .stopped last from hlast] at hlower
      cases hlower
    · simp only [Ends, not_forall, Bool.not_eq_false] at hstart
      rcases hstart with ⟨c, cs, hsource, hc⟩
      have hword : IsIdentifier (fun c => isLower c || c == '_')
          (c :: cs.takeWhile isIdentChar) :=
        ⟨c, _, rfl, hc, fun d hd => List.mem_takeWhile_imp hd⟩
      have hcut : source = (c :: cs.takeWhile isIdentChar) ++ cs.dropWhile isIdentChar := by
        rw [hsource, List.cons_append, List.takeWhile_append_dropWhile]
      rcases Layout.reads_named (Layout.reads_identifier hword
        (ends_dropWhile isIdentChar cs)) offset with ⟨m, last, hm, hname⟩
      rw [← hcut] at hm
      rw [show lowerName { offset, rest := source } = _ from hm] at hlower
      injection hlower with hlower _
      refine ⟨cs.dropWhile isIdentChar, ?_, ends_dropWhile isIdentChar cs⟩
      rw [← hlower, hname, String.toList_ofList]
      exact hcut

/-!
## Keywords
-/

/-- A word that introduces declarations of one kind. -/
inductive Keyword where
  | import_
  | type

namespace Keyword

def text : Keyword -> String
  | .import_ => "import"
  | .type => "type"

def form : Keyword -> Rule Declaration
  | .import_ => importDeclaration
  | .type => orElse aliasDeclaration customDeclaration

def Introduces : Keyword -> Declaration -> Prop
  | .import_, decl => exists i, decl = .import_ i
  | .type, decl => exists t, decl = .type t

def Opens (k : Keyword) (source : List Char) : Prop :=
  exists c rest, source = k.text.toList ++ c :: rest ∧ isBlank c = true

def Leads (k : Keyword) (source : List Char) : Prop :=
  exists rest, source = k.text.toList ++ rest ∧ Ends isIdentChar rest

def Annotates (k : Keyword) (source : List Char) : Prop :=
  exists space rest, source = k.text.toList ++ (space ++ ':' :: rest) ∧ AllBlank space

/-- A chunk is not what its keyword is meant for, and still passes for a function. -/
structure MistakenIn (k : Keyword) (chunk : Chunk) : Prop where
  leads : k.Leads chunk.text
  malformed : exists last, k.form chunk.cursor = .stopped last
  unannotated : ¬ k.Annotates chunk.text
  body : '=' ∈ chunk.text

/-- What comes of a chunk that starts with the keyword. -/
inductive Declares (k : Keyword) (chunk : Chunk) : Declaration -> Prop where
  | meant {decl : Declaration} {next : Cursor} :
      k.form chunk.cursor = .ok decl next -> k.Introduces decl -> Declares k chunk decl
  | annotation {last : Cursor} :
      k.form chunk.cursor = .stopped last -> k.Annotates chunk.text -> Declares k chunk .ignored
  | function {n : Named Span} :
      k.MistakenIn chunk -> n.name = k.text -> Declares k chunk (.function n)

theorem Opens.leads {k : Keyword} {source : List Char} (h : k.Opens source) : k.Leads source := by
  rcases h with ⟨c, rest, hsource, hc⟩
  exact ⟨c :: rest, hsource, Ends.cons (eq_false_of_isBlank (fun _ => isBlank_of_isIdentChar) hc) _⟩

theorem form_gives (k : Keyword) : k.form.Gives k.Introduces := by
  cases k with
  | import_ => exact importDeclaration_gives
  | type => exact aliasDeclaration_gives.orElse customDeclaration_gives

/-- A keyword is a name. -/
def name (k : Keyword) : Layout.Lower where
  text := k.text.toList
  spelled := by cases k <;> decide

/-!
## What passes for another declaration
-/

section Leads

variable {k : Keyword} {source : List Char}

theorem Leads.reads_valueName {rest : List Char} (h : Ends isIdentChar rest) :
    valueName.Reads (k.text.toList ++ rest) rest (fun n => n.name = k.text) := by
  apply (k.name.reads h).mono
  intro n hn
  rw [hn]
  exact String.ofList_toList

/-- Besides the forms of its own, a keyword can start an annotation or a function only. -/
theorem Leads.declaration_eq (h : k.Leads source) (offset : Nat) :
    declaration { offset, rest := source } =
      orElse k.form (orElse annotationDeclaration functionDeclaration)
        { offset, rest := source } := by
  rcases h with ⟨rest, hsource, _⟩
  subst hsource
  have hother : orElse portDeclaration (orElse fixityDeclaration
      (orElse annotationDeclaration functionDeclaration))
        { offset, rest := k.text.toList ++ rest } =
      orElse annotationDeclaration functionDeclaration
        { offset, rest := k.text.toList ++ rest } := by
    have hport : portDeclaration.Stops (k.text.toList ++ rest) :=
      (stops_word (by cases k <;> rfl)).bind _
    have hfixity : fixityDeclaration.Stops (k.text.toList ++ rest) :=
      Stops.bind (Stops.both (stops_word (by cases k <;> rfl))
        (Stops.both (stops_word (by cases k <;> rfl)) (stops_word (by cases k <;> rfl)))) _
    rw [hport.orElse_eq, hfixity.orElse_eq]
  cases k with
  | import_ =>
      have halias : aliasDeclaration.Stops (Keyword.import_.text.toList ++ rest) :=
        (stops_word rfl).bind _
      have hcustom : customDeclaration.Stops (Keyword.import_.text.toList ++ rest) :=
        (stops_word rfl).bind _
      apply orElse_congr
      rw [halias.orElse_eq, hcustom.orElse_eq, hother]
  | type =>
      have himport : importDeclaration.Stops (Keyword.type.text.toList ++ rest) :=
        (stops_word rfl).bind _
      unfold declaration form
      rw [himport.orElse_eq, orElse_assoc]
      exact orElse_congr _ (orElse_congr _ hother)

theorem Annotates.reads (h : k.Annotates source) :
    annotationDeclaration.Reads source [] (fun d => d = .ignored) := by
  rcases h with ⟨space, rest, hsource, hspace⟩
  subst hsource
  have hname : Ends isIdentChar (space ++ ':' :: rest) :=
    Ends.blanks (Ends.cons (by decide) rest) hspace fun _ => isBlank_of_isIdentChar
  exact (Leads.reads_valueName hname).bind fun _ _ =>
    (reads_skipWhile hspace (Ends.cons (by decide) rest)).then fun _ =>
      (reads_character ':' rest).then fun _ =>
        (reads_skipRest rest).then fun _ => Reads.self _ []

theorem Leads.stops_annotation (h : k.Leads source) (hcolon : ¬ k.Annotates source) :
    annotationDeclaration.Stops source := by
  rcases h with ⟨rest, hsource, hends⟩
  subst hsource
  have hcut : rest = rest.takeWhile isBlank ++ rest.dropWhile isBlank :=
    List.takeWhile_append_dropWhile.symm
  have hspace : AllBlank (rest.takeWhile isBlank) := fun c hc => List.mem_takeWhile_imp hc
  have hblanks : blanks.Reads rest (rest.dropWhile isBlank) (fun _ => True) := by
    have hread := reads_skipWhile hspace (ends_dropWhile isBlank rest)
    rw [← hcut] at hread
    exact hread
  have hstop : (character ':').Stops (rest.dropWhile isBlank) := by
    apply stops_satisfy
    intro c more hmore
    apply beq_eq_false_iff_ne.mpr
    intro hc
    apply hcolon
    refine ⟨rest.takeWhile isBlank, more, ?_, hspace⟩
    rw [← hc, ← hmore, ← hcut]
  exact ((Leads.reads_valueName hends).mono fun _ _ => trivial).stops fun _ =>
    hblanks.stops fun _ => hstop.bind _

theorem mem_rest_iff {rest : List Char} :
    '=' ∈ k.text.toList ++ rest ↔ '=' ∈ rest := by
  have hkeyword : '=' ∉ k.text.toList := by cases k <;> decide
  simp [hkeyword]

theorem Leads.reads_function (h : k.Leads source) (hbody : '=' ∈ source) :
    functionDeclaration.Reads source []
      (fun d => exists n, d = .function n ∧ n.name = k.text) := by
  rcases h with ⟨rest, hsource, hends⟩
  subst hsource
  rcases List.eq_append_cons_of_mem (mem_rest_iff.mp hbody) with ⟨before, after, hrest, hbefore⟩
  have hskip : forall c, c ∈ before -> (c != '=') = true := by
    intro c hc
    exact bne_iff_ne.mpr fun heq => hbefore (heq ▸ hc)
  have hread : body.Reads rest [] (fun _ => True) := by
    rw [hrest]
    exact (reads_skipWhile hskip (Ends.cons (by decide) after)).then fun _ =>
      (reads_character '=' after).then fun _ => reads_skipRest after
  exact (Leads.reads_valueName hends).bind fun n hn =>
    hread.then fun _ => Reads.pure ⟨n, rfl, hn⟩ []

theorem Leads.stops_function (h : k.Leads source) (hbody : '=' ∉ source) :
    functionDeclaration.Stops source := by
  rcases h with ⟨rest, hsource, hends⟩
  subst hsource
  have hskip : forall c, c ∈ rest -> (c != '=') = true := by
    intro c hc
    exact bne_iff_ne.mpr fun heq => hbody (mem_rest_iff.mpr (heq ▸ hc))
  have hall := reads_skipWhile hskip (Ends.nil _)
  rw [List.append_nil] at hall
  have hstop : (character '=').Stops [] := stops_satisfy (Ends.nil _)
  exact ((Leads.reads_valueName hends).mono fun _ _ => trivial).stops fun _ =>
    (hall.stops fun _ => hstop.bind _).bind _

end Leads

/-!
## What comes of a chunk
-/

variable {k : Keyword} {chunk : Chunk}

theorem Leads.declares (h : k.Leads chunk.text) {decl : Declaration}
    (hread : chunk.read declaration .unrecognizedDeclaration = .ok decl) :
    k.Declares chunk decl := by
  unfold Chunk.read Chunk.cursor at hread
  rw [h.declaration_eq] at hread
  cases hform : k.form { offset := chunk.start, rest := chunk.text } with
  | ok own next =>
      simp only [Rule.orElse, hform] at hread
      injection hread with hdecl
      rw [← hdecl]
      exact Declares.meant hform (k.form_gives _ _ _ hform)
  | stopped last =>
      by_cases hcolon : k.Annotates chunk.text
      · rcases hcolon.reads chunk.start with ⟨d, next, hd, hignored⟩
        simp only [Rule.orElse, hform, hd] at hread
        injection hread with hdecl
        rw [← hdecl, hignored]
        exact Declares.annotation hform hcolon
      · rcases h.stops_annotation hcolon chunk.start with ⟨stop, hstop⟩
        by_cases hbody : '=' ∈ chunk.text
        · rcases h.reads_function hbody chunk.start with ⟨d, next, hd, n, hn, hname⟩
          simp only [Rule.orElse, hform, hstop, hd] at hread
          injection hread with hdecl
          rw [← hdecl, hn]
          exact Declares.function ⟨h, ⟨last, hform⟩, hcolon, hbody⟩ hname
        · rcases h.stops_function hbody chunk.start with ⟨end_, hend⟩
          simp only [Rule.orElse, hform, hstop, hend] at hread
          cases hread

/-- A function has a keyword for its name only if the keyword was mistaken for one. -/
theorem mistakenIn_of_function {n : Named Span} (hn : n.name = k.text)
    (hread : chunk.read declaration .unrecognizedDeclaration = .ok (.function n)) :
    k.MistakenIn chunk := by
  have hleads : k.Leads chunk.text := by
    unfold Chunk.read at hread
    cases hresult : declaration chunk.cursor with
    | stopped last =>
        rw [hresult] at hread
        cases hread
    | ok decl next =>
        rw [hresult] at hread
        injection hread with hdecl
        rw [hdecl] at hresult
        rcases exists_of_bind (functionDeclaration_of_declaration hresult) with
          ⟨m, mid, hm, hbody⟩
        rcases exists_of_bind hbody with ⟨_, last, _, hpure⟩
        injection hpure with hfunction _
        injection hfunction with hsame
        rw [hsame] at hm
        rcases valueName_cases hm with hoperator | ⟨rest, hrest, hends⟩
        · rw [hn] at hoperator
          cases k <;> cases hoperator
        · rw [hn] at hrest
          exact ⟨rest, hrest, hends⟩
  cases hleads.declares hread with
  | meant _ hintroduces => cases k <;> rcases hintroduces with ⟨_, hkind⟩ <;> cases hkind
  | function hmistaken _ => exact hmistaken

theorem MistakenIn.function (h : k.MistakenIn chunk) {decl : Declaration}
    (hread : chunk.read declaration .unrecognizedDeclaration = .ok decl) :
    exists n, decl = .function n ∧ n.name = k.text := by
  rcases h.malformed with ⟨last, hlast⟩
  cases h.leads.declares hread with
  | meant hform _ =>
      rw [hlast] at hform
      cases hform
  | annotation _ hcolon => exact absurd hcolon h.unannotated
  | function _ hname => exact ⟨_, rfl, hname⟩

end Keyword

/-!
## Modules
-/

theorem readDeclarations_each {chunks : List Chunk} {decls : List Declaration}
    (h : readDeclarations chunks = .ok decls) :
    List.Forall₂ (fun chunk decl =>
      chunk.read declaration .unrecognizedDeclaration = .ok decl) chunks decls := by
  induction chunks generalizing decls with
  | nil =>
      injection h with hdecls
      rw [← hdecls]
      exact List.Forall₂.nil
  | cons chunk chunks ih =>
      rcases exists_of_readDeclarations_cons h with ⟨decl, others, hread, hrest, hdecls⟩
      rw [hdecls]
      exact List.Forall₂.cons hread (ih hrest)

theorem exists_function_iff (k : Keyword) {chunks : List Chunk} {decls : List Declaration}
    (h : List.Forall₂ (fun chunk decl =>
      chunk.read declaration .unrecognizedDeclaration = .ok decl) chunks decls) :
    (exists n, Declaration.function n ∈ decls ∧ n.name = k.text) ↔
      exists chunk, chunk ∈ chunks ∧ k.MistakenIn chunk := by
  induction h with
  | nil => simp
  | cons hread _ ih =>
      simp only [List.mem_cons, or_and_right, exists_or, ih, exists_eq_left]
      apply or_congr_left
      constructor
      · rintro ⟨n, hdecl, hn⟩
        rw [← hdecl] at hread
        exact Keyword.mistakenIn_of_function hn hread
      · intro hmistaken
        rcases hmistaken.function hread with ⟨n, hdecl, hn⟩
        exact ⟨n, hdecl.symm, hn⟩

theorem Declaration.function?_eq_some {decl : Declaration} {n : Named Span} :
    decl.function? = some n ↔ decl = .function n := by
  cases decl <;> simp [Declaration.function?]

theorem mem_functions_assemble {head : Header} {decls : List Declaration}
    {place : Span -> Location} {name : String} :
    (exists f, f ∈ ((assemble head decls).map place).functions ∧ f.name = name) ↔
      exists n, Declaration.function n ∈ decls ∧ n.name = name := by
  simp [Outline.map, assemble, Declaration.function?_eq_some, Named.map]

/-- Every chunk of a module that starts with a keyword and a blank is what the keyword is meant
for, an annotation of the keyword, or a function that has the keyword for its name; it is one of
the last two only if the rules for the first do not read it.  A function of the module has a
keyword for its name exactly if a chunk has been mistaken for one. -/
theorem keyword_chunks_declared {source : String} {m : Outline Location}
    (h : parse source = .ok m) :
    exists first others head decls,
      sourceChunks source.toList = first :: others ∧
        m = (assemble head decls).map (locate source.toList) ∧
        List.Forall₂ (fun chunk decl =>
          chunk.read declaration .unrecognizedDeclaration = .ok decl ∧
            forall k : Keyword, k.Opens chunk.text -> k.Declares chunk decl) others decls ∧
        forall k : Keyword,
          (exists f, f ∈ m.functions ∧ f.name = k.text) ↔
            exists chunk, chunk ∈ others ∧ k.MistakenIn chunk := by
  rcases exists_outline_of_parse h with ⟨outline, hread, hm⟩
  rcases exists_of_readOutline hread with
    ⟨first, others, head, decls, hchunks, _, hdecls, houtline⟩
  have heach := readDeclarations_each hdecls
  rw [houtline] at hm
  refine ⟨first, others, head, decls, hchunks, hm, ?_, ?_⟩
  · exact heach.imp fun chunk decl hchunk =>
      ⟨hchunk, fun k hopens => hopens.leads.declares hchunk⟩
  · intro k
    rw [hm, mem_functions_assemble]
    exact exists_function_iff k heach

/-- A module in which each of the three comes of a chunk. -/
theorem keyword_chunks_declared_mixed :
    exists source m,
      source = "module A exposing (..)\nimport B\ntype T = C | D\ntype : T\ntype a = b\n" ∧
        parse source = .ok m ∧
        (m.imports.map (·.module), m.types.map (·.name), m.functions.map (·.name)) =
          (["B"], ["T"], ["type"]) ∧
        exists first others head decls,
          sourceChunks source.toList = first :: others ∧
            m = (assemble head decls).map (locate source.toList) ∧
            List.Forall₂ (fun chunk decl =>
              chunk.read declaration .unrecognizedDeclaration = .ok decl ∧
                forall k : Keyword, k.Opens chunk.text -> k.Declares chunk decl) others decls ∧
            forall k : Keyword,
              (exists f, f ∈ m.functions ∧ f.name = k.text) ↔
                exists chunk, chunk ∈ others ∧ k.MistakenIn chunk :=
  ⟨_, _, rfl, rfl, by decide +kernel, keyword_chunks_declared rfl⟩

/-- Neither an import nor a type, but two functions. -/
theorem keywords_for_function_names :
    (parse "module A exposing (..)\nimport a = b\ntype c = d\n").toOption.map
        (fun m => (m.imports.length, m.types.length, m.functions.map (·.name))) =
      some (0, 0, ["import", "type"]) := by
  decide +kernel

end Syntax
end ElmNavigator
