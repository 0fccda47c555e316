import ElmNavigator.Text.Lines

/-!
# Rules that know where they stopped

A rule reads from a cursor and either gives a value and the cursor behind it, or stops.  A rule
that stops reports the cursor at which it gave up, because that is the offset an error message names:

* a single test that fails has consumed nothing;
* a sequence stays where its failing part stopped;
* `optional` and `many` go back to before the attempt that failed;
* `orElse` starts its second alternative where the first one started, and stops where the second one
  stopped.
-/

namespace ElmNavigator
namespace Syntax

open Text

/-- What is left to read, and the byte offset at which it starts. -/
structure Cursor where
  offset : Nat
  rest : List Char
deriving Repr, DecidableEq

/-- Result of a rule: a value and the cursor behind it, or the cursor where reading stopped. -/
inductive Outcome (α : Type) where
  | ok (value : α) (next : Cursor)
  | stopped (last : Cursor)
deriving Repr, DecidableEq

def Rule (α : Type) : Type :=
  Cursor -> Outcome α

structure Lexeme where
  text : List Char
  span : Span
deriving Repr, DecidableEq

namespace Rule

variable {α β : Type}

def succeed (a : α) : Rule α := fun cur => .ok a cur

def andThen (p : Rule α) (f : α -> Rule β) : Rule β := fun cur =>
  match p cur with
  | .ok a next => f a next
  | .stopped c => .stopped c

instance : Monad Rule where
  pure := succeed
  bind := andThen

def satisfy (p : Char -> Bool) : Rule Unit := fun cur =>
  match cur.rest with
  | [] => .stopped cur
  | c :: rest =>
      if p c then .ok () { offset := cur.offset + c.utf8Size, rest } else .stopped cur

def character (c : Char) : Rule Unit :=
  satisfy (· == c)

def word (text : String) : Rule Unit := fun cur =>
  match text.toList.isPrefixOf? cur.rest with
  | some rest => .ok () { offset := cur.offset + byteLength text.toList, rest }
  | none => .stopped cur

def skipWhile (p : Char -> Bool) : Rule Unit := fun cur =>
  .ok () { offset := cur.offset + byteLength (cur.rest.takeWhile p), rest := cur.rest.dropWhile p }

def skipWhile1 (p : Char -> Bool) : Rule Unit := do
  satisfy p
  skipWhile p

def skipRest : Rule Unit :=
  skipWhile fun _ => true

def atEnd : Rule Unit := fun cur =>
  match cur.rest with
  | [] => .ok () cur
  | _ :: _ => .stopped cur

/-- Tries one rule, then another from the same cursor. -/
def orElse (p q : Rule α) : Rule α := fun cur =>
  match p cur with
  | .ok a next => .ok a next
  | .stopped _ => q cur

def optional (p : Rule α) : Rule (Option α) := fun cur =>
  match p cur with
  | .ok a next => .ok (some a) next
  | .stopped _ => .ok none cur

def upTo (p : Rule α) : Nat -> Cursor -> List α × Cursor
  | 0, cur => ([], cur)
  | n + 1, cur =>
      match p cur with
      | .stopped _ => ([], cur)
      | .ok a next =>
          let (as, last) := upTo p n next
          (a :: as, last)

/-- Repeats a rule as often as it succeeds.  Every rule repeated here reads at least one
character, so there are no more rounds than characters. -/
def many (p : Rule α) : Rule (List α) := fun cur =>
  let (as, last) := upTo p cur.rest.length cur
  .ok as last

/-- Reads one or more things with a separator between them.  A separator that nothing follows is
left unread. -/
def separated (p : Rule α) (separator : Rule Unit) : Rule (List α) := do
  let first ← p
  let others ← many do
    separator
    p
  return first :: others

def lexeme (p : Rule Unit) : Rule Lexeme := fun cur =>
  match p cur with
  | .ok _ next =>
      .ok { text := cur.rest.take (cur.rest.length - next.rest.length),
            span := { start := cur.offset, stop := next.offset } } next
  | .stopped c => .stopped c

end Rule
end Syntax
end ElmNavigator
