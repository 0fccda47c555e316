import ElmNavigator.Place.Path
import ElmNavigator.Place.Uri
import ElmNavigator.Text.Utf8

/-!
# File URIs

A file's URI is `file://` and its path as it is shown, in which every byte other than a slash or an
unreserved character is percent-encoded.  Reading a URI accepts the local host only and ignores a
query and a fragment.
-/

namespace ElmNavigator
namespace FileUri

open Text

def isPlain (b : UInt8) : Bool :=
  let c := Char.ofNat b.toNat
  Uri.isUnreserved c || c == '/'

def encodeByte (b : UInt8) : List Char :=
  if isPlain b then [Char.ofNat b.toNat]
  else ['%', hexDigit (b.toNat / 16), hexDigit (b.toNat % 16)]

def encode (cs : List Char) : List Char :=
  (utf8 cs).flatMap encodeByte

/-- The bytes that a text with percent-encoded octets stands for.  A percent sign that starts no
octet stands for itself. -/
def decodeBytes : List Char -> List UInt8
  | [] => []
  | '%' :: a :: b :: rest =>
      match hexValue? a, hexValue? b with
      | some high, some low => UInt8.ofNat (high * 16 + low) :: decodeBytes rest
      | _, _ => '%'.toUInt8 :: decodeBytes (a :: b :: rest)
  | c :: rest => String.utf8EncodeChar c ++ decodeBytes rest

def decode (cs : List Char) : List Char :=
  decodeLossy (decodeBytes cs)

/-- The URI of a path; a relative path is taken from the root. -/
def ofPath (p : Path) : Uri :=
  let encoded := encode p.chars
  let path := if encoded.head? = some '/' then encoded else '/' :: encoded
  { text := String.ofList ("file://".toList ++ path) }

def localPath? (rest : List Char) : Option (List Char) :=
  match rest with
  | '/' :: _ => some rest
  | _ =>
      if rest.takeWhile (· != '/') = "localhost".toList then
        match rest.dropWhile (· != '/') with
        | [] => none
        | path => some path
      else none

def toPath? (uri : Uri) : Option Path := do
  let rest ← "file://".toList.isPrefixOf? uri.text.toList
  let path ← localPath? rest
  return .ofChars (decode (path.takeWhile fun c => c != '?' && c != '#'))

end FileUri
end ElmNavigator
