import ElmNavigator.Text.Basic

/-!
# Glob patterns

A pattern is read from left to right into parts.  `?` and `*` stay within one path component, a class
in brackets stands for one byte, alternatives in braces may be nested, and a backslash takes the next
character literally.  Two stars mean any number of components where they make up a whole component,
and are two ordinary stars elsewhere.
-/

namespace ElmNavigator
namespace Glob

inductive Part where
  | literal (c : Char)
  /-- One byte other than a slash. -/
  | any
  /-- Bytes other than slashes. -/
  | star
  /-- Directories in front of the rest of the pattern, or none. -/
  | anyPrefix
  /-- Everything below what precedes. -/
  | anySuffix
  /-- Directories between what precedes and what follows, or none. -/
  | anyMiddle
  /-- One byte in, or if negated outside, ranges of characters. -/
  | charClass (negated : Bool) (ranges : List (Char × Char))
  | alternatives (branches : List (List Part))

inductive PatternError where
  | unclosedClass
  | invalidRange (first last : Char)
  | unopenedAlternatives
  | unclosedAlternatives
  | danglingEscape
deriving Repr, DecidableEq

def PatternError.message : PatternError -> String
  | .unclosedClass => "unclosed character class; missing ']'"
  | .invalidRange first last =>
      "invalid range; '" ++ first.toString ++ "' > '" ++ last.toString ++ "'"
  | .unopenedAlternatives =>
      "unopened alternate group; missing '\x7b' (maybe escape '\x7d' with '[\x7d]'?)"
  | .unclosedAlternatives =>
      "unclosed alternate group; missing '\x7d' (maybe escape '\x7b' with '[\x7b]'?)"
  | .danglingEscape => "dangling '\\'"

/-- A group in braces that is being read: its finished branches and the branch at hand, both in
reverse.  The pattern outside all braces is a group of one branch. -/
structure Group where
  finished : List (List Part)
  current : List Part

structure ClassReader where
  negated : Bool
  /-- Ranges read so far, in reverse. -/
  ranges : List (Char × Char)
  /-- Nothing but the negation has been read. -/
  isFirst : Bool
  /-- A dash has been read that may continue the last range. -/
  inRange : Bool

inductive Mode where
  | plain
  | escaped
  /-- Characters that have already been taken into account. -/
  | skip (count : Nat)
  | inClass (reader : ClassReader)

structure Reader where
  mode : Mode
  group : Group
  /-- The groups around the current one, innermost first. -/
  outer : List Group

namespace Reader

def start : Reader :=
  { mode := .plain, group := { finished := [], current := [] }, outer := [] }

def push (r : Reader) (part : Part) : Reader :=
  { r with group := { r.group with current := part :: r.group.current } }

def inGroup (r : Reader) : Bool :=
  !r.outer.isEmpty

/-- Replaces the last part, which is the slash before two stars, by a part for whole components. -/
def replaceLast (r : Reader) (part : Part) : Reader :=
  let kept := match r.group.current.head? with
    | some .anyPrefix => .anyPrefix
    | some .anySuffix => .anySuffix
    | _ => part
  { r with group := { r.group with current := kept :: r.group.current.tail } }

/-- Two stars that are not a whole component. -/
def pushTwoStars (r : Reader) : Reader :=
  { (r.push .star).push .star with mode := .skip 1 }

def twoStars (r : Reader) (previous : Option Char) (behind : List Char) : Reader :=
  if r.group.current.isEmpty then
    match behind with
    | [] => { r.push .anyPrefix with mode := .skip 1 }
    | '/' :: _ => { r.push .anyPrefix with mode := .skip 2 }
    | _ => r.pushTwoStars
  else if previous ≠ some '/' &&
      !(r.inGroup && (previous = some ',' || previous = some '{')) then r.pushTwoStars
  else
    match behind with
    | [] => { r.replaceLast .anySuffix with mode := .skip 1 }
    | '/' :: _ => { r.replaceLast .anyMiddle with mode := .skip 2 }
    | c :: _ =>
        if r.inGroup && (c = ',' || c = '}') then
          { r.replaceLast .anySuffix with mode := .skip 1 }
        else r.pushTwoStars

def closeGroup (r : Reader) : Except PatternError Reader :=
  match r.outer with
  | [] => .error .unopenedAlternatives
  | parent :: outer =>
      let branches := (r.group.current :: r.group.finished).map List.reverse
      .ok ({ r with group := parent, outer }.push (.alternatives branches.reverse))

def plainStep (r : Reader) (previous : Option Char) (c : Char) (ahead : List Char) :
    Except PatternError Reader :=
  match c with
  | '?' => .ok (r.push .any)
  | '*' =>
      match ahead with
      | '*' :: behind => .ok (r.twoStars previous behind)
      | _ => .ok (r.push .star)
  | '[' =>
      let negated := ahead.head? = some '!' || ahead.head? = some '^'
      let reader := { negated, ranges := [], isFirst := true, inRange := false }
      .ok { r with mode := .inClass reader }
  | '{' =>
      .ok { r with group := { finished := [], current := [] }, outer := r.group :: r.outer }
  | '}' => r.closeGroup
  | ',' =>
      if r.inGroup then
        .ok { r with group := { finished := r.group.current :: r.group.finished, current := [] } }
      else .ok (r.push (.literal ','))
  | '\\' => .ok { r with mode := .escaped }
  | c => .ok (r.push (.literal c))

def extendRange (reader : ClassReader) (c : Char) : Except PatternError ClassReader :=
  match reader.ranges with
  | [] => .ok reader
  | (first, _) :: ranges =>
      if c < first then .error (.invalidRange first c)
      else .ok { reader with ranges := (first, c) :: ranges, isFirst := false, inRange := false }

def addChar (reader : ClassReader) (c : Char) : ClassReader :=
  { reader with ranges := (c, c) :: reader.ranges, isFirst := false, inRange := false }

/-- The class that has been read.  A dash at its end stands for itself. -/
def finishClass (reader : ClassReader) : Part :=
  let ranges := if reader.inRange then ('-', '-') :: reader.ranges else reader.ranges
  .charClass reader.negated ranges.reverse

/-- Reads a character of a class.  The negation right behind the bracket is skipped; a closing
bracket or a dash at the start stands for itself. -/
def classStep (r : Reader) (reader : ClassReader) (previous : Option Char) (c : Char) :
    Except PatternError Reader :=
  if reader.isFirst && reader.negated && previous = some '[' then .ok r
  else if c = ']' && !reader.isFirst then
    .ok { r.push (finishClass reader) with mode := .plain }
  else if c = '-' && !reader.isFirst && !reader.inRange then
    .ok { r with mode := .inClass { reader with inRange := true } }
  else if reader.inRange then
    match extendRange reader c with
    | .error e => .error e
    | .ok reader => .ok { r with mode := .inClass reader }
  else .ok { r with mode := .inClass (addChar reader c) }

def step (r : Reader) (previous : Option Char) (c : Char) (ahead : List Char) :
    Except PatternError Reader :=
  match r.mode with
  | .plain => r.plainStep previous c ahead
  | .escaped => .ok { r.push (.literal c) with mode := .plain }
  | .skip count => .ok { r with mode := if count ≤ 1 then .plain else .skip (count - 1) }
  | .inClass reader => r.classStep reader previous c

def finish (r : Reader) : Except PatternError (List Part) :=
  match r.mode with
  | .inClass _ => .error .unclosedClass
  | .escaped => .error .danglingEscape
  | _ => if r.inGroup then .error .unclosedAlternatives else .ok r.group.current.reverse

def readFrom (r : Reader) (previous : Option Char) : List Char -> Except PatternError (List Part)
  | [] => r.finish
  | c :: ahead =>
      match r.step previous c ahead with
      | .error e => .error e
      | .ok next => next.readFrom (some c) ahead

end Reader
end Glob

structure Glob where
  parts : List Glob.Part

def Glob.parse (pattern : String) : Except Glob.PatternError Glob :=
  (Glob.Reader.start.readFrom none pattern.toList).map fun parts => { parts }

end ElmNavigator
