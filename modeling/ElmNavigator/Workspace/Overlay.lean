import ElmNavigator.Text.Lines
import ElmNavigator.Workspace.Files

/-!
# Open documents

Documents that are open in the editor hide the files on disk.  A document is found by the components
of its path.  Edits address a document by line and UTF-16 column, where a line ends at any Unicode
line break: a line feed, a carriage return or both together, a vertical tab, a form feed, U+0085,
U+2028 or U+2029.
-/

namespace ElmNavigator

open Text

def isLineBreak (c : Char) : Bool :=
  (10 ≤ c.toNat && c.toNat ≤ 13) || c.toNat == 0x85 || c.toNat == 0x2028 || c.toNat == 0x2029

def documentLines : List Char -> List (List Char)
  | [] => [[]]
  | '\r' :: '\n' :: cs => ['\r', '\n'] :: documentLines cs
  | c :: cs =>
      if isLineBreak c then [c] :: documentLines cs
      else
        match documentLines cs with
        | [] => [[c]]
        | line :: lines => (c :: line) :: lines

def dropLineFeed (line : List Char) : List Char :=
  if line.getLast? = some '\n' then line.dropLast else line

/-- Characters of a line up to a UTF-16 column.  A column inside a character means its start, and one
past the line the line's end. -/
def takeColumn : List Char -> Nat -> List Char
  | [], _ => []
  | c :: cs, column => if column < unitSize c then [] else c :: takeColumn cs (column - unitSize c)

def documentOffset? (text : List Char) (line column : Nat) : Option Nat :=
  let lines := documentLines text
  lines[line]?.map fun content =>
    byteLength (lines.take line).flatten + byteLength (takeColumn (dropLineFeed content) column)

structure Range where
  startLine : Nat
  startColumn : Nat
  endLine : Nat
  endColumn : Nat
deriving Repr, DecidableEq

structure Change where
  range : Option Range
  text : String
deriving Repr, DecidableEq

/-- Replaces a stretch of a text; nothing if the stretch is not in it. -/
def splice? (text : List Char) (range : Range) (replacement : List Char) : Option (List Char) := do
  let start ← documentOffset? text range.startLine range.startColumn
  let stop ← documentOffset? text range.endLine range.endColumn
  if start ≤ stop then return takeBytes start text ++ replacement ++ dropBytes stop text else none

def Change.apply? (change : Change) (text : String) : Option String :=
  match change.range with
  | none => some change.text
  | some range => (splice? text.toList range change.text.toList).map String.ofList

/-- The documents open in the editor, by the components of their paths. -/
structure Overlay where
  documents : List (List Component × String)
deriving Repr, DecidableEq

namespace Overlay

def empty : Overlay :=
  { documents := [] }

def text? (o : Overlay) (p : Path) : Option String :=
  o.documents.lookup p.components

def isOpen (o : Overlay) (p : Path) : Bool :=
  (o.text? p).isSome

def close (o : Overlay) (p : Path) : Overlay :=
  { documents := o.documents.filter fun entry => entry.1 ≠ p.components }

def open_ (o : Overlay) (p : Path) (text : String) : Overlay :=
  { documents := (p.components, text) :: (o.close p).documents }

/-- Applies an edit to a document.  Gives nothing if the document is not open or the edit lies
outside it. -/
def change? (o : Overlay) (p : Path) (change : Change) : Option Overlay := do
  let text ← o.text? p
  let edited ← change.apply? text
  return o.open_ p edited

/-- Applies edits up to the first one that fails. -/
def changeAll (o : Overlay) (p : Path) : List Change -> Overlay
  | [] => o
  | change :: changes =>
      match o.change? p change with
      | none => o
      | some next => next.changeAll p changes

/-- Files as the editor shows them: an open document hides the file on disk.  Listing shows the disk
alone. -/
def view {m : Type -> Type} [Monad m] (o : Overlay) (disk : Files m) : Files m where
  read p :=
    match o.text? p with
    | some text => return .ok text
    | none => disk.read p
  find := disk.find

end Overlay
end ElmNavigator
