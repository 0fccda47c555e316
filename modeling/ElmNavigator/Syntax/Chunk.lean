import ElmNavigator.Text.Basic

/-!
# Top-level chunks

Every top-level declaration starts in column zero and every continuation line is indented.  In a
masked text, a chunk starts at each line whose first character is not blank and runs up to the next
such line, without the blanks at its end.
-/

namespace ElmNavigator
namespace Syntax

open Text

/-- A declaration's text and the byte offset at which it starts. -/
structure Chunk where
  start : Nat
  text : List Char
deriving Repr, DecidableEq

namespace Chunk

def stop (chunk : Chunk) : Nat :=
  chunk.start + byteLength chunk.text

end Chunk

def rawLines : List Char -> List (List Char)
  | [] => []
  | c :: cs =>
      if c = '\n' then [c] :: rawLines cs
      else
        match rawLines cs with
        | [] => [[c]]
        | line :: rest => (c :: line) :: rest

def startsChunk (line : List Char) : Bool :=
  line.head?.any fun c => !isBlank c

/-- The text of the lines before the first chunk, and the chunks, of lines that start at an
offset. -/
def collectChunks (offset : Nat) : List (List Char) -> List Char × List Chunk
  | [] => ([], [])
  | line :: rest =>
      let (continuation, chunks) := collectChunks (offset + byteLength line) rest
      if startsChunk line then
        ([], { start := offset, text := trimEnd isBlank (line ++ continuation) } :: chunks)
      else (line ++ continuation, chunks)

def chunksFrom (offset : Nat) (masked : List Char) : List Chunk :=
  (collectChunks offset (rawLines masked)).2

end Syntax
end ElmNavigator
