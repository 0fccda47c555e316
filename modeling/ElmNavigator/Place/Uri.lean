import ElmNavigator.Text.Basic
import ElmNavigator.Text.Hex

/-!
# URI references

Documents are named by URIs.  A text is accepted if it is a URI reference: an absolute URI, or a
relative reference, with percent-encoded octets written as two hexadecimal digits.  A host in
brackets is an IPv6 address.  The text of a URI is kept as it was given.
-/

namespace ElmNavigator

open Text

structure Uri where
  text : String
deriving Repr, DecidableEq

namespace Uri

def isUnreserved (c : Char) : Bool :=
  c.isAlphanum || c == '-' || c == '.' || c == '_' || c == '~'

def isSubDelimiter (c : Char) : Bool :=
  "!$&'()*+,;=".toList.contains c

def isNameChar (c : Char) : Bool :=
  isUnreserved c || isSubDelimiter c

def isPathChar (c : Char) : Bool :=
  isNameChar c || c == ':' || c == '@' || c == '/'

def isQueryChar (c : Char) : Bool :=
  isPathChar c || c == '?'

/-- Texts of characters of a class and percent-encoded octets. -/
def encodedIn (allowed : Char -> Bool) : List Char -> Bool
  | [] => true
  | '%' :: a :: b :: rest => isHexDigit a && isHexDigit b && encodedIn allowed rest
  | c :: rest => c != '%' && allowed c && encodedIn allowed rest

def isScheme : List Char -> Bool
  | [] => false
  | c :: cs => c.isAlpha && cs.all fun c => c.isAlphanum || c == '+' || c == '-' || c == '.'

/-- A decimal number from 0 to 255 without leading zeros. -/
def isDecimalOctet (piece : List Char) : Bool :=
  match piece with
  | [a] => a.isDigit
  | [a, b] => a.isDigit && a != '0' && b.isDigit
  | [a, b, c] =>
      (a == '1' && b.isDigit && c.isDigit) ||
        (a == '2' && '0' ≤ b && b ≤ '4' && c.isDigit) ||
        (a == '2' && b == '5' && '0' ≤ c && c ≤ '5')
  | _ => false

def isIPv4 (text : List Char) : Bool :=
  let pieces := splitOn '.' text
  pieces.length == 4 && pieces.all isDecimalOctet

def isHexGroup (piece : List Char) : Bool :=
  1 ≤ piece.length && piece.length ≤ 4 && piece.all isHexDigit

/-- How many 16-bit groups colon-separated pieces stand for, if they are well formed.  The last piece
of an address may be an IPv4 address, which counts for two. -/
def groupCount? (mayEndInIPv4 : Bool) : List (List Char) -> Option Nat
  | [] => some 0
  | [piece] =>
      if isHexGroup piece then some 1
      else if mayEndInIPv4 && isIPv4 piece then some 2
      else none
  | piece :: pieces =>
      if isHexGroup piece then (groupCount? mayEndInIPv4 pieces).map (· + 1) else none

def partGroups? (mayEndInIPv4 : Bool) (part : List Char) : Option Nat :=
  if part = [] then some 0 else groupCount? mayEndInIPv4 (splitOn ':' part)

def splitDoubleColon? : List Char -> Option (List Char × List Char)
  | [] => none
  | ':' :: ':' :: rest => some ([], rest)
  | c :: rest => (splitDoubleColon? rest).map fun (before, after) => (c :: before, after)

/-- IPv6 addresses: eight groups, or fewer with a double colon for the missing ones. -/
def isIPv6 (text : List Char) : Bool :=
  match splitDoubleColon? text with
  | none => partGroups? true text == some 8
  | some (before, after) =>
      match partGroups? false before, partGroups? true after with
      | some m, some n => m + n ≤ 7
      | _, _ => false

/-- The port behind a host: nothing, or a colon and digits. -/
def isPort : List Char -> Bool
  | [] => true
  | c :: digits => c == ':' && digits.all Char.isDigit

def isHostPort : List Char -> Bool
  | '[' :: rest =>
      match splitAtFirst? ']' rest with
      | some (address, port) => isIPv6 address && isPort port
      | none => false
  | text =>
      match splitAtFirst? ':' text with
      | some (host, port) => encodedIn isNameChar host && port.all Char.isDigit
      | none => encodedIn isNameChar text

def isAuthority (text : List Char) : Bool :=
  match splitAtFirst? '@' text with
  | some (user, rest) => encodedIn (fun c => isNameChar c || c == ':') user && isHostPort rest
  | none => isHostPort text

def isHierarchical : List Char -> Bool
  | '/' :: '/' :: rest =>
      isAuthority (rest.takeWhile (· != '/')) && encodedIn isPathChar (rest.dropWhile (· != '/'))
  | text => encodedIn isPathChar text

/-- A reference without query and fragment.  A colon before the first slash ends a scheme. -/
def isBare (text : List Char) : Bool :=
  match splitAtFirst? ':' (text.takeWhile (· != '/')) with
  | some (scheme, _) => isScheme scheme && isHierarchical (text.drop (scheme.length + 1))
  | none => isHierarchical text

def isWithoutFragment (text : List Char) : Bool :=
  match splitAtFirst? '?' text with
  | some (bare, query) => isBare bare && encodedIn isQueryChar query
  | none => isBare text

def isReference (text : List Char) : Bool :=
  match splitAtFirst? '#' text with
  | some (rest, fragment) => isWithoutFragment rest && encodedIn isQueryChar fragment
  | none => isWithoutFragment text

def parse? (text : String) : Option Uri :=
  if isReference text.toList then some { text } else none

end Uri
end ElmNavigator
