import ElmNavigator.Text.Basic

/-!
# UTF-8

Texts are encoded character by character.  Decoding never fails: bytes that start no well-formed
character are replaced by U+FFFD, one for each longest beginning of a character.
-/

namespace ElmNavigator
namespace Text

def utf8 (cs : List Char) : List UInt8 :=
  cs.flatMap String.utf8EncodeChar

def slash : UInt8 := 47

def dot : UInt8 := 46

/-- Stands for bytes that cannot be decoded. -/
def replacementChar : Char := '\uFFFD'

def isContinuation (b : Nat) : Bool :=
  0x80 ≤ b && b < 0xC0

def secondByteOk (first second : Nat) : Bool :=
  if first = 0xE0 then 0xA0 ≤ second && second < 0xC0
  else if first = 0xED then 0x80 ≤ second && second < 0xA0
  else if first = 0xF0 then 0x90 ≤ second && second < 0xC0
  else if first = 0xF4 then 0x80 ≤ second && second < 0x90
  else isContinuation second

/-- Number of bytes of a character, by its first byte; zero for a byte that starts none. -/
def sequenceLength (first : Nat) : Nat :=
  if first < 0x80 then 1
  else if first < 0xC2 then 0
  else if first < 0xE0 then 2
  else if first < 0xF0 then 3
  else if first < 0xF5 then 4
  else 0

/-- Decodes one character: the character, and how many bytes it takes besides the first. -/
def decodeFirst (first : UInt8) (rest : List UInt8) : Char × Nat :=
  let a := first.toNat
  match sequenceLength a, rest.map UInt8.toNat with
  | 1, _ => (Char.ofNat a, 0)
  | 2, b :: _ =>
      if isContinuation b then (Char.ofNat ((a - 0xC0) * 0x40 + (b - 0x80)), 1)
      else (replacementChar, 0)
  | 3, b :: bs =>
      if secondByteOk a b then
        match bs with
        | c :: _ =>
            if isContinuation c then
              (Char.ofNat (((a - 0xE0) * 0x40 + (b - 0x80)) * 0x40 + (c - 0x80)), 2)
            else (replacementChar, 1)
        | [] => (replacementChar, 1)
      else (replacementChar, 0)
  | 4, b :: bs =>
      if secondByteOk a b then
        match bs with
        | c :: cs =>
            if isContinuation c then
              match cs with
              | d :: _ =>
                  if isContinuation d then
                    (Char.ofNat ((((a - 0xF0) * 0x40 + (b - 0x80)) * 0x40 + (c - 0x80)) * 0x40
                      + (d - 0x80)), 3)
                  else (replacementChar, 2)
              | [] => (replacementChar, 2)
            else (replacementChar, 1)
        | [] => (replacementChar, 1)
      else (replacementChar, 0)
  | _, _ => (replacementChar, 0)

/-- Decodes bytes after `pending` of them, which belong to a character already decoded. -/
def decodeFrom : Nat -> List UInt8 -> List Char
  | _, [] => []
  | pending + 1, _ :: bytes => decodeFrom pending bytes
  | 0, first :: bytes =>
      let (c, more) := decodeFirst first (bytes.take 3)
      c :: decodeFrom more bytes

def decodeLossy (bytes : List UInt8) : List Char :=
  decodeFrom 0 bytes

end Text
end ElmNavigator
