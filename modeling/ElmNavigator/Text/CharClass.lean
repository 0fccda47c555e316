import ElmNavigator.Text.Alphabetic
import ElmNavigator.Text.Lowercase
import ElmNavigator.Text.Numeric
import ElmNavigator.Text.Uppercase

/-!
# Character classes

The classes that the lexical grammar is written in, for the whole of Unicode.  Each one answers
ASCII characters by a comparison and consults its table for the others.  A title-case letter such as
U+01C5 is alphabetic but neither upper nor lower case.
-/

namespace ElmNavigator
namespace Text

def isAscii (c : Char) : Bool :=
  c.toNat < 128

def isUpper (c : Char) : Bool :=
  if isAscii c then c.isUpper else uppercasePoints.contains c.toNat

def isLower (c : Char) : Bool :=
  if isAscii c then c.isLower else lowercasePoints.contains c.toNat

def isAlphanumeric (c : Char) : Bool :=
  if isAscii c then c.isAlphanum
  else alphabeticPoints.contains c.toNat || numericPoints.contains c.toNat

/-- Blanks outside ASCII: no-break, ogham, typographic and ideographic spaces, and the line and
paragraph separators. -/
def blankPoints : CodePoints := [
  ⟨0x85, 0x85, 1⟩, ⟨0xA0, 0xA0, 1⟩, ⟨0x1680, 0x1680, 1⟩, ⟨0x2000, 0x200A, 1⟩, ⟨0x2028, 0x2029, 1⟩,
  ⟨0x202F, 0x202F, 1⟩, ⟨0x205F, 0x205F, 1⟩, ⟨0x3000, 0x3000, 1⟩]

/-- Blanks: tab, the line breaks U+000A to U+000D, space, and `blankPoints`. -/
def isBlank (c : Char) : Bool :=
  if isAscii c then c == ' ' || (9 ≤ c.toNat && c.toNat ≤ 13) else blankPoints.contains c.toNat

/-- Characters that may continue an identifier: letters, numerals, `_` and the prime. -/
def isIdentChar (c : Char) : Bool :=
  isAlphanumeric c || c == '_' || c == '\''

end Text
end ElmNavigator
