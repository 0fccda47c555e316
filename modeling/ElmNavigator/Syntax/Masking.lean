import ElmNavigator.Text.Basic

/-!
# Masking comments and literals

Before a module is cut into declarations, its comments and its string and character literals are
blanked out: each character of theirs becomes as many spaces as it has bytes, and line breaks stay.
Offsets and line numbers of the masked text are therefore those of the source.

The scanner decides for one character at a time whether it is kept, looking at most two characters
ahead.  Characters it has decided on in advance, such as the second half of a comment bracket or the
character after a backslash, are counted in `pending` and blanked when they are reached.
-/

namespace ElmNavigator
namespace Syntax

open Text

inductive Region where
  | code
  | lineComment
  | blockComment (depth : Nat)
  | string
  | tripleString
  | character
deriving Repr, DecidableEq

structure Scanner where
  region : Region
  /-- The last character seen in code, which tells a prime from an opening quote. -/
  previous : Option Char
  /-- How many of the next characters are blanked without being looked at. -/
  pending : Nat
deriving Repr, DecidableEq

namespace Scanner

def start : Scanner :=
  { region := .code, previous := none, pending := 0 }

/-- An apostrophe after an identifier is a prime of it. -/
def afterIdentifier (s : Scanner) : Bool :=
  s.previous.any isIdentChar

/-- One step in code: the next state, and whether the character is kept. -/
def stepCode (s : Scanner) (c : Char) (ahead : List Char) : Scanner × Bool :=
  let seen := { s with previous := some c }
  if c = '-' && ahead.head? = some '-' then ({ seen with region := .lineComment }, false)
  else if c = '{' && ahead.head? = some '-' then
    ({ seen with region := .blockComment 1, pending := 1 }, false)
  else if c = '"' && ahead.take 2 = ['"', '"'] then
    ({ seen with region := .tripleString, pending := 2 }, false)
  else if c = '"' then ({ seen with region := .string }, false)
  else if c = '\'' && !s.afterIdentifier then ({ seen with region := .character }, false)
  else (seen, true)

def stepBlock (s : Scanner) (depth : Nat) (c : Char) (ahead : List Char) : Scanner :=
  if c = '{' && ahead.head? = some '-' then
    { s with region := .blockComment (depth + 1), pending := 1 }
  else if c = '-' && ahead.head? = some '}' then
    { s with region := if depth = 1 then .code else .blockComment (depth - 1), pending := 1 }
  else s

def stepTriple (s : Scanner) (c : Char) (ahead : List Char) : Scanner :=
  if c = '"' && ahead.take 2 = ['"', '"'] then { s with region := .code, pending := 2 }
  else if c = '\\' then { s with pending := 1 }
  else s

/-- One step in a literal that `quote` closes; a line feed closes it too. -/
def stepLiteral (s : Scanner) (quote c : Char) : Scanner :=
  if c = '\\' then { s with pending := 1 }
  else if c = quote || c = '\n' then { s with region := .code }
  else s

/-- The state after a character, and whether the character is kept. -/
def step (s : Scanner) (c : Char) (ahead : List Char) : Scanner × Bool :=
  if s.pending > 0 then ({ s with pending := s.pending - 1 }, false)
  else
    match s.region with
    | .code => s.stepCode c ahead
    | .lineComment => (if c = '\n' then { s with region := .code } else s, false)
    | .blockComment depth => (s.stepBlock depth c ahead, false)
    | .string => (s.stepLiteral '"' c, false)
    | .tripleString => (s.stepTriple c ahead, false)
    | .character => (s.stepLiteral '\'' c, false)

end Scanner

/-- The replacement of a masked character: line breaks stay, all else turns into spaces. -/
def blank (c : Char) : List Char :=
  if c = '\n' || c = '\r' then [c] else List.replicate c.utf8Size ' '

def maskFrom (s : Scanner) : List Char -> List Char
  | [] => []
  | c :: cs =>
      let (next, keep) := s.step c cs
      (if keep then [c] else blank c) ++ maskFrom next cs

def byteOrderMark : Char := '\uFEFF'

/-- Masks a source text.  A byte order mark at its start is blanked as well. -/
def mask : List Char -> List Char
  | [] => []
  | c :: cs =>
      if c = byteOrderMark then blank c ++ maskFrom .start cs else maskFrom .start (c :: cs)

end Syntax
end ElmNavigator
