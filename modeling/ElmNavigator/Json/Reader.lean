import ElmNavigator.Json.Number
import ElmNavigator.Text.Hex

/-!
# Reading JSON

The reader is strict: no byte order mark, comments, trailing commas, raw control characters in
strings or lone surrogates, no number beyond the range of a double, and no more than 127 nested
arrays and objects.
-/

namespace ElmNavigator
namespace Json

def isSpace (c : Char) : Bool :=
  c == ' ' || c == '\n' || c == '\t' || c == '\r'

def skipSpace (cs : List Char) : List Char :=
  cs.dropWhile isSpace

def hex4? (a b c d : Char) : Option Nat := do
  let a ← Text.hexValue? a
  let b ← Text.hexValue? b
  let c ← Text.hexValue? c
  let d ← Text.hexValue? d
  return ((a * 16 + b) * 16 + c) * 16 + d

def isHighSurrogate (unit : Nat) : Bool :=
  0xD800 ≤ unit && unit < 0xDC00

def isLowSurrogate (unit : Nat) : Bool :=
  0xDC00 ≤ unit && unit < 0xE000

def pairChar (high low : Nat) : Char :=
  Char.ofNat (0x10000 + (high - 0xD800) * 0x400 + (low - 0xDC00))

def escapeChar? (c : Char) : Option Char :=
  match c with
  | '"' => some '"'
  | '\\' => some '\\'
  | '/' => some '/'
  | 'b' => some '\x08'
  | 'f' => some '\x0c'
  | 'n' => some '\n'
  | 'r' => some '\r'
  | 't' => some '\t'
  | _ => none

def readString : List Char -> Option (List Char × List Char)
  | [] => none
  | '"' :: rest => some ([], rest)
  | '\\' :: 'u' :: a :: b :: c :: d :: rest => do
      let unit ← hex4? a b c d
      if isHighSurrogate unit then
        match rest with
        | '\\' :: 'u' :: e :: f :: g :: h :: rest => do
            let low ← hex4? e f g h
            if isLowSurrogate low then
              let (text, rest) ← readString rest
              return (pairChar unit low :: text, rest)
            else none
        | _ => none
      else if isLowSurrogate unit then none
      else
        let (text, rest) ← readString rest
        return (Char.ofNat unit :: text, rest)
  | '\\' :: c :: rest => do
      let escaped ← escapeChar? c
      let (text, rest) ← readString rest
      return (escaped :: text, rest)
  | c :: rest =>
      if c.toNat < 0x20 || c = '\\' then none
      else do
        let (text, rest) ← readString rest
        return (c :: text, rest)

def readDigits (cs : List Char) : Option (List Char × List Char) :=
  match cs.span Char.isDigit with
  | ([], _) => none
  | (digits, rest) => some (digits, rest)

/-- Reads the whole part of a number, which has no superfluous leading zero. -/
def readWhole (cs : List Char) : Option (List Char × List Char) := do
  let (digits, rest) ← readDigits cs
  if digits.head? = some '0' && digits.length > 1 then none else return (digits, rest)

def readFraction (cs : List Char) : Option (List Char × List Char) :=
  match cs with
  | '.' :: rest => readDigits rest
  | _ => some ([], cs)

def readExponent (cs : List Char) : Option (Option Int × List Char) :=
  match cs with
  | c :: rest =>
      if c = 'e' || c = 'E' then
        match rest with
        | '-' :: rest => (readDigits rest).map fun (ds, rest) => (some (-(digitsValue ds : Int)), rest)
        | '+' :: rest => (readDigits rest).map fun (ds, rest) => (some (digitsValue ds : Int), rest)
        | _ => (readDigits rest).map fun (ds, rest) => (some (digitsValue ds : Int), rest)
      else some (none, cs)
  | [] => some (none, [])

def readNumber (cs : List Char) : Option (Json × List Char) := do
  let (negative, cs) := match cs with
    | '-' :: rest => (true, rest)
    | _ => (false, cs)
  let (whole, cs) ← readWhole cs
  let (fraction, cs) ← readFraction cs
  let (exponent, cs) ← readExponent cs
  let value ← number? negative whole fraction exponent
  return (value, cs)

def readScalar (cs : List Char) : Option (Json × List Char) :=
  match cs with
  | '"' :: rest => (readString rest).map fun (text, rest) => (.string (String.ofList text), rest)
  | 'n' :: 'u' :: 'l' :: 'l' :: rest => some (.null, rest)
  | 't' :: 'r' :: 'u' :: 'e' :: rest => some (.bool true, rest)
  | 'f' :: 'a' :: 'l' :: 's' :: 'e' :: rest => some (.bool false, rest)
  | _ => readNumber cs

def readName (cs : List Char) : Option (String × List Char) :=
  match skipSpace cs with
  | '"' :: rest => do
      let (name, rest) ← readString rest
      match skipSpace rest with
      | ':' :: rest => some (String.ofList name, rest)
      | _ => none
  | _ => none

mutual

/-- Reads a value; `depth` more arrays and objects may be opened inside it. -/
def readValue : Nat -> Nat -> List Char -> Option (Json × List Char)
  | 0, _, _ => none
  | fuel + 1, depth, cs =>
      match skipSpace cs, depth with
      | '[' :: _, 0 => none
      | '{' :: _, 0 => none
      | '[' :: rest, depth + 1 =>
          match skipSpace rest with
          | ']' :: rest => some (.array [], rest)
          | rest => (readItems fuel depth rest).map fun (items, rest) => (.array items, rest)
      | '{' :: rest, depth + 1 =>
          match skipSpace rest with
          | '}' :: rest => some (.object [], rest)
          | rest => (readFields fuel depth rest).map fun (fields, rest) => (.object fields, rest)
      | cs, _ => readScalar cs

def readItems : Nat -> Nat -> List Char -> Option (List Json × List Char)
  | 0, _, _ => none
  | fuel + 1, depth, cs => do
      let (item, rest) ← readValue fuel depth cs
      match skipSpace rest with
      | ']' :: rest => return ([item], rest)
      | ',' :: rest =>
          let (items, rest) ← readItems fuel depth rest
          return (item :: items, rest)
      | _ => none

def readFields : Nat -> Nat -> List Char -> Option (List (String × Json) × List Char)
  | 0, _, _ => none
  | fuel + 1, depth, cs => do
      let (name, rest) ← readName cs
      let (value, rest) ← readValue fuel depth rest
      match skipSpace rest with
      | '}' :: rest => return ([(name, value)], rest)
      | ',' :: rest =>
          let (fields, rest) ← readFields fuel depth rest
          return ((name, value) :: fields, rest)
      | _ => none

end

def nestingLimit : Nat := 127

/-- Reads a text that holds one value and nothing else but blanks.  Two rounds for each character
are enough, because an item starts right after a bracket or comma. -/
def read? (text : String) : Option Json :=
  let cs := text.toList
  match readValue (2 * cs.length + 2) nestingLimit cs with
  | some (value, rest) => if (skipSpace rest).isEmpty then some value else none
  | none => none

end Json
end ElmNavigator
