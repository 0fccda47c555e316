import ElmNavigator.Glob.Basic
import ElmNavigator.Text.Utf8

/-!
# Matching globs

A glob matches a text as a whole, byte by byte.  Matching a part against the start of a text leaves
one of several rests, and a glob matches if its parts in turn can leave nothing.
-/

namespace ElmNavigator
namespace Glob

open Text

def suffixes : List UInt8 -> List (List UInt8)
  | [] => [[]]
  | b :: bs => (b :: bs) :: suffixes bs

def restsInComponent : List UInt8 -> List (List UInt8)
  | [] => [[]]
  | b :: bs => (b :: bs) :: if b = slash then [] else restsInComponent bs

def restsBehindSlash : List UInt8 -> List (List UInt8)
  | [] => []
  | b :: bs => if b = slash then bs :: restsBehindSlash bs else restsBehindSlash bs

/-- Whether a byte is in a range of characters.  Of characters with several bytes, the range runs
from the last byte of its first character to the first byte of its last one, and the other bytes
stand for themselves. -/
def inRange (range : Char × Char) (b : UInt8) : Bool :=
  let first := String.utf8EncodeChar range.1
  let last := String.utf8EncodeChar range.2
  if range.1 = range.2 then first.contains b
  else
    first.dropLast.contains b || last.tail.contains b ||
      (match first.getLast?, last.head? with
        | some low, some high => low ≤ b && b ≤ high
        | _, _ => false)

mutual

/-- Alternatives that match nothing but the empty text. -/
def Part.isVoid : Part -> Bool
  | .alternatives branches => branchesVoid branches
  | _ => false

def partsVoid : List Part -> Bool
  | [] => true
  | part :: parts => part.isVoid && partsVoid parts

def branchesVoid : List (List Part) -> Bool
  | [] => true
  | branch :: branches => partsVoid branch && branchesVoid branches

end

mutual

/-- Rests of a text behind a part.  Among alternatives, a void branch counts only if there is no
other. -/
def Part.rests : Part -> List UInt8 -> List (List UInt8)
  | .literal c, text => ((String.utf8EncodeChar c).isPrefixOf? text).toList
  | .any, text =>
      match text with
      | [] => []
      | b :: rest => if b = slash then [] else [rest]
  | .star, text => restsInComponent text
  | .anyPrefix, text => text :: restsBehindSlash text
  | .anySuffix, text =>
      match text with
      | [] => []
      | b :: rest => if b = slash then suffixes rest else []
  | .anyMiddle, text =>
      match text with
      | [] => []
      | b :: rest => if b = slash then rest :: restsBehindSlash rest else []
  | .charClass negated ranges, text =>
      match text with
      | [] => []
      | b :: rest => if ranges.any (inRange · b) != negated then [rest] else []
  | .alternatives branches, text =>
      if branchesVoid branches then [text] else branchRests branches text

def partsRests : List Part -> List (List UInt8) -> List (List UInt8)
  | [], texts => texts
  | part :: parts, texts => partsRests parts (texts.flatMap part.rests).eraseDups

def branchRests : List (List Part) -> List UInt8 -> List (List UInt8)
  | [], _ => []
  | branch :: branches, text =>
      (if partsVoid branch then [] else partsRests branch [text]) ++ branchRests branches text

end

/-- Whether a glob matches a text.  Two stars alone match everything. -/
def isMatch (glob : Glob) (text : List UInt8) : Bool :=
  match glob.parts with
  | [.anyPrefix] => true
  | parts => (partsRests parts [text]).any List.isEmpty

end Glob
end ElmNavigator
