import ElmNavigator.Text.Basic

/-!
# Lines and positions

A line ends at a line feed and nowhere else.  `lineCol` turns a byte offset into a line and a
UTF-16 column, `offset?` goes the other way, and both round to whole characters: an offset inside a
character means its start, a column inside one its end, and a column past the line the end of the
line's text.

Offsets, lines and columns are natural numbers without a bound, and so are the depths of comments.
Counters of 32 bits would agree with them on every text shorter than 4 GiB.
-/

namespace ElmNavigator
namespace Text

/-- A place in a source text: its byte offset, and line and UTF-16 column counted from one. -/
structure Position where
  offset : Nat
  line : Nat
  column : Nat
deriving Repr, DecidableEq

structure Location where
  start : Position
  stop : Position
deriving Repr, DecidableEq

structure Span where
  start : Nat
  stop : Nat
deriving Repr, DecidableEq

/-- Moves a line and column, counted from zero, past one character. -/
def advance (c : Char) (line column : Nat) : Nat × Nat :=
  if c = '\n' then (line + 1, 0) else (line, column + unitSize c)

def lineColFrom : List Char -> Nat -> Nat -> Nat -> Nat × Nat
  | [], _, line, column => (line, column)
  | c :: cs, offset, line, column =>
      if offset < c.utf8Size then (line, column)
      else
        let (line, column) := advance c line column
        lineColFrom cs (offset - c.utf8Size) line column

/-- Line and UTF-16 column of a byte offset, counted from zero. -/
def lineCol (source : List Char) (offset : Nat) : Nat × Nat :=
  lineColFrom source offset 0 0

/-- The position of a byte offset; offsets past the text mean its end. -/
def position (source : List Char) (offset : Nat) : Position :=
  let (line, column) := lineCol source offset
  { offset := min offset (byteLength source), line := line + 1, column := column + 1 }

def locate (source : List Char) (span : Span) : Location :=
  { start := position source span.start, stop := position source span.stop }

def lines (source : List Char) : List (List Char) :=
  splitOn '\n' source

/-- Carriage returns before a line feed belong to the break. -/
def stripReturns (line : List Char) : List Char :=
  trimEnd (· == '\r') line

def lineText? (source : List Char) (line : Nat) : Option (List Char) :=
  (lines source)[line]?.map stripReturns

def lineStart (source : List Char) (line : Nat) : Nat :=
  byteLength (((lines source).take line).flatMap fun text => text ++ ['\n'])

/-- Bytes of the shortest beginning of a line that reaches a UTF-16 column, or of the whole line. -/
def bytesToColumn : List Char -> Nat -> Nat
  | [], _ => 0
  | c :: cs, column =>
      if column = 0 then 0 else c.utf8Size + bytesToColumn cs (column - unitSize c)

/-- Byte offset of a line and UTF-16 column, both counted from zero. -/
def offset? (source : List Char) (line column : Nat) : Option Nat :=
  (lineText? source line).map fun text => lineStart source line + bytesToColumn text column

end Text
end ElmNavigator
