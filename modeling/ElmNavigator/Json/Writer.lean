import ElmNavigator.Json.Basic

/-!
# Writing JSON

Values are written without blanks, with escapes for quotes, backslashes and control characters only.
-/

namespace ElmNavigator
namespace Json

def hex4 (n : Nat) : List Char :=
  let digits := Nat.toDigits 16 n
  List.replicate (4 - digits.length) '0' ++ digits

def writeChar (c : Char) : List Char :=
  match c with
  | '"' => ['\\', '"']
  | '\\' => ['\\', '\\']
  | '\n' => ['\\', 'n']
  | '\r' => ['\\', 'r']
  | '\t' => ['\\', 't']
  | c => if c.toNat < 0x20 then '\\' :: 'u' :: hex4 c.toNat else [c]

def writeString (s : String) : String :=
  "\"" ++ String.ofList (s.toList.flatMap writeChar) ++ "\""

mutual

def write : Json -> String
  | .null => "null"
  | .bool b => if b then "true" else "false"
  | .integer i => toString i
  | .real digits exponent => toString digits ++ "e" ++ toString exponent
  | .string s => writeString s
  | .array items => "[" ++ ",".intercalate (writeItems items) ++ "]"
  | .object fields => "\x7b" ++ ",".intercalate (writeFields fields) ++ "\x7d"

def writeItems : List Json -> List String
  | [] => []
  | item :: items => write item :: writeItems items

def writeFields : List (String × Json) -> List String
  | [] => []
  | (name, value) :: fields => (writeString name ++ ":" ++ write value) :: writeFields fields

end

end Json
end ElmNavigator
