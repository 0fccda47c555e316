import ElmNavigator.Syntax.Masking
import ElmNavigator.Text.Lines

/-!
# The word under the cursor

A word is a run of letters, numerals, underscores, primes and dots on one line.  It is taken from the
code only: a run that reaches into a comment or a literal is none, and neither is a number.
-/

namespace ElmNavigator

open Text Syntax

def isWordChar (c : Char) : Bool :=
  isIdentChar c || c == '.'

def runBefore (before : List Char) : Nat :=
  byteLength (before.reverse.takeWhile isWordChar)

def runAfter (after : List Char) : Nat :=
  byteLength (after.takeWhile isWordChar)

def isNumber (word : List Char) : Bool :=
  word.all fun c => c.isDigit || c == '.'

def wordAt? (text : String) (line column : Nat) : Option String := do
  let source := text.toList
  let content ← lineText? source line
  let start := lineStart source line
  let cursor := bytesToColumn content column
  let first := start + cursor - runBefore (takeBytes cursor content)
  let last := start + cursor + runAfter (dropBytes cursor content)
  let run := extract source first last
  if extract (mask source) first last ≠ run then none
  else
    let word := trim (· == '.') run
    if word.isEmpty || isNumber word then none else return String.ofList word

end ElmNavigator
