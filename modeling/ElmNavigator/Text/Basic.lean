import ElmNavigator.Text.CharClass

/-!
# Texts as lists of characters

A text is measured in two units: offsets into it count UTF-8 bytes, columns on a line count UTF-16
code units.  Both are sums over the characters.
-/

namespace ElmNavigator
namespace Text

/-- Number of UTF-16 code units of a character: two outside the basic plane. -/
def unitSize (c : Char) : Nat :=
  if c.toNat < 0x10000 then 1 else 2

def byteLength : List Char -> Nat
  | [] => 0
  | c :: cs => c.utf8Size + byteLength cs

def unitLength : List Char -> Nat
  | [] => 0
  | c :: cs => unitSize c + unitLength cs

/-- The text after its first `n` bytes, where `n` ends at a character. -/
def dropBytes : Nat -> List Char -> List Char
  | _, [] => []
  | n, c :: cs => if n = 0 then c :: cs else dropBytes (n - c.utf8Size) cs

/-- The first `n` bytes of a text, where `n` ends at a character. -/
def takeBytes : Nat -> List Char -> List Char
  | _, [] => []
  | n, c :: cs => if n = 0 then [] else c :: takeBytes (n - c.utf8Size) cs

def extract (cs : List Char) (start stop : Nat) : List Char :=
  takeBytes (stop - start) (dropBytes start cs)

def trimEnd {alpha : Type} (p : alpha -> Bool) : List alpha -> List alpha
  | [] => []
  | c :: cs =>
      match trimEnd p cs with
      | [] => if p c then [] else [c]
      | d :: ds => c :: d :: ds

def trim (p : Char -> Bool) (cs : List Char) : List Char :=
  trimEnd p (cs.dropWhile p)

/-- The text in pieces between the characters equal to `sep`; always at least one piece. -/
def splitOn {alpha : Type} [DecidableEq alpha] (sep : alpha) : List alpha -> List (List alpha)
  | [] => [[]]
  | c :: cs =>
      if c = sep then [] :: splitOn sep cs
      else
        match splitOn sep cs with
        | [] => [[c]]
        | piece :: pieces => (c :: piece) :: pieces

def splitAtLast? (sep : Char) : List Char -> Option (List Char × List Char)
  | [] => none
  | c :: cs =>
      match splitAtLast? sep cs with
      | some (before, after) => some (c :: before, after)
      | none => if c = sep then some ([], cs) else none

def splitAtFirst? (sep : Char) : List Char -> Option (List Char × List Char)
  | [] => none
  | c :: cs =>
      if c = sep then some ([], cs)
      else (splitAtFirst? sep cs).map fun (before, after) => (c :: before, after)

end Text
end ElmNavigator
