import ElmNavigator.Proofs.Syntax.ChunkSeams
import ElmNavigator.Proofs.Syntax.WrittenNames
import Mathlib.Data.List.Chain

/-!
# Headers and imports as they are written

A header or an import is laid out in many ways: there may be blanks between its
words and around its brackets and commas, and it may go on over indented lines.
A layout holds a text piece by piece, blanks included.  It has a text, which is
what its pieces are put together to, and it stands for an entry, an import or an
outline.
-/

namespace ElmNavigator
namespace Syntax

open Text

/-- Within a declaration, a line that is begun is indented. -/
def Indented (text : List Char) : Prop :=
  text.IsChain fun c d => c = '\n' -> isBlank d = true

instance (text : List Char) : Decidable (Indented text) :=
  inferInstanceAs (Decidable (text.IsChain fun c d => c = '\n' -> isBlank d = true))

/-- Two dashes would begin a comment. -/
def NoDashes (text : List Char) : Prop :=
  text.IsChain fun c d => ¬ (c = '-' ∧ d = '-')

instance (text : List Char) : Decidable (NoDashes text) :=
  inferInstanceAs (Decidable (text.IsChain fun c d => ¬ (c = '-' ∧ d = '-')))

namespace Layout

/-!
## Pieces
-/

/-- Blanks inside a declaration.  What follows them does not stand at the start of a line. -/
structure Space where
  text : List Char
  blank : AllBlank text
  inner : text.getLast? ≠ some '\n'

/-- Blanks between two words. -/
structure Break extends Space where
  nonempty : text ≠ []

structure Upper where
  text : List Char
  spelled : IsIdentifier isUpper text

structure Lower where
  text : List Char
  spelled : IsIdentifier (fun c => isLower c || c == '_') text

structure Operator where
  text : List Char
  nonempty : text ≠ []
  spelled : forall c, c ∈ text -> isOperatorChar c = true
  dashes : NoDashes text

structure Dotted where
  first : Upper
  more : List Upper

def Dotted.text (name : Dotted) : List Char :=
  name.first.text ++ name.more.flatMap fun part => '.' :: part.text

/-- Things with commas between them, and the blanks before and behind each comma. -/
structure Listing (α : Type) where
  first : α
  more : List (Space × Space × α)

variable {α : Type}

def Listing.items (list : Listing α) : List α :=
  list.first :: list.more.map (·.2.2)

def itemText (text : α -> List Char) (item : Space × Space × α) : List Char :=
  item.1.text ++ ',' :: (item.2.1.text ++ text item.2.2)

def Listing.text (text : α -> List Char) (list : Listing α) : List Char :=
  text list.first ++ list.more.flatMap (itemText text)

/-- All there is, or a list. -/
inductive Selection (α : Type) where
  | all
  | listed (list : Listing α)

def Selection.text (text : α -> List Char) : Selection α -> List Char
  | .all => ['.', '.']
  | .listed list => list.text text

structure Parens (α : Type) where
  opening : Space
  inner : α
  closing : Space

def Parens.text (text : α -> List Char) (p : Parens α) : List Char :=
  '(' :: (p.opening.text ++ (text p.inner ++ (p.closing.text ++ [')'])))

/-!
## Exposing lists
-/

inductive Item where
  | value (name : Lower)
  | operator (name : Operator)
  | type (name : Upper)
  /-- A type with its constructors behind it, all of them or some. -/
  | typeWith (name : Upper) (gap : Space) (members : Parens (Selection Upper))

def Item.text : Item -> List Char
  | .value name => name.text
  | .operator name => '(' :: (name.text ++ [')'])
  | .type name => name.text
  | .typeWith name gap members =>
      name.text ++ (gap.text ++ members.text (Selection.text Upper.text))

/-- The entries for a type with its constructors behind it.  A list of them leaves the type
closed. -/
def typeEntries (name : String) : Selection Upper -> List (Exposed Unit)
  | .all => [.type name true ()]
  | .listed list =>
      .type name false () ::
        list.items.map fun member => .constructor (String.ofList member.text) name ()

def Item.entries : Item -> List (Exposed Unit)
  | .value name => [.value (String.ofList name.text) ()]
  | .operator name => [.value (String.ofList name.text) ()]
  | .type name => [.type (String.ofList name.text) false ()]
  | .typeWith name _ members => typeEntries (String.ofList name.text) members.inner

structure Exposing where
  gap : Space
  list : Parens (Selection Item)

def Exposing.text (e : Exposing) : List Char :=
  "exposing".toList ++ (e.gap.text ++ e.list.text (Selection.text Item.text))

/-- Whether the list is `(..)`. -/
def Exposing.isAll (e : Exposing) : Bool :=
  match e.list.inner with
  | .all => true
  | .listed _ => false

def Exposing.entries (e : Exposing) : List (Exposed Unit) :=
  match e.list.inner with
  | .all => [.all ()]
  | .listed list => list.items.flatMap Item.entries

/-!
## Imports
-/

structure Alias where
  before : Break
  behind : Break
  name : Upper

def Alias.text (a : Alias) : List Char :=
  a.before.text ++ ("as".toList ++ (a.behind.text ++ a.name.text))

structure ImportLine where
  gap : Break
  module : Dotted
  asName : Option Alias
  exposing : Option (Break × Exposing)

def optionText (text : α -> List Char) : Option α -> List Char
  | none => []
  | some a => text a

def exposingText (e : Break × Exposing) : List Char :=
  e.1.text ++ e.2.text

def ImportLine.text (i : ImportLine) : List Char :=
  "import".toList ++ (i.gap.text ++ (i.module.text ++
    (optionText Alias.text i.asName ++ optionText exposingText i.exposing)))

def ImportLine.outline (i : ImportLine) : Import Unit :=
  { module := String.ofList i.module.text,
    asName := i.asName.map fun a => String.ofList a.name.text,
    exposing := (i.exposing.map fun e => e.2.entries).getD [], location := () }

/-- Imports that are written with `(..)`. -/
def ImportLine.isAll (i : ImportLine) : Bool :=
  i.exposing.any fun e => e.2.isAll

/-!
## Modules
-/

/-- The clause of an effect module.  What stands between its braces is free, but for braces, quotes
and line comments. -/
structure Clause where
  gap : Space
  inside : List Char
  behind : Space
  braces : '{' ∉ inside ∧ '}' ∉ inside
  quotes : '"' ∉ inside ∧ '\'' ∉ inside
  dashes : NoDashes inside
  indented : Indented inside
  inner : inside.getLast? ≠ some '\n'

def Clause.text (c : Clause) : List Char :=
  "where".toList ++ (c.gap.text ++ '{' :: (c.inside ++ '}' :: c.behind.text))

inductive Kind where
  | plain
  | port (gap : Break)
  | effect (gap : Break) (clause : Option Clause)

def Kind.text : Kind -> List Char
  | .plain => []
  | .port gap => "port".toList ++ gap.text
  | .effect gap _ => "effect".toList ++ gap.text

def Kind.clause : Kind -> Option Clause
  | .effect _ clause => clause
  | _ => none

def Kind.outline : Kind -> ModuleKind
  | .plain => .plain
  | .port _ => .port
  | .effect _ _ => .effect

structure Heading where
  kind : Kind
  gap : Break
  name : Dotted
  behind : Break
  exposing : Exposing

def Heading.text (h : Heading) : List Char :=
  h.kind.text ++ ("module".toList ++ (h.gap.text ++ (h.name.text ++ (h.behind.text ++
    (optionText Clause.text h.kind.clause ++ h.exposing.text)))))

structure LineBreak where
  text : List Char
  blank : AllBlank text
  feed : text.getLast? = some '\n'

structure Source where
  leading : List Char
  leadingBlank : AllBlank leading
  leadingLines : EndsLine leading
  heading : Heading
  imports : List (LineBreak × ImportLine)
  trailing : List Char
  trailingBlank : AllBlank trailing

def Source.text (s : Source) : List Char :=
  s.leading ++ (s.heading.text ++ (s.imports.flatMap (fun i => i.1.text ++ i.2.text) ++ s.trailing))

def Source.outline (s : Source) : Outline Unit :=
  { name := String.ofList s.heading.name.text, kind := s.heading.kind.outline,
    exposing := s.heading.exposing.entries, imports := s.imports.map fun i => i.2.outline,
    types := [], functions := [], ports := [], location := () }

end Layout
end Syntax
end ElmNavigator
