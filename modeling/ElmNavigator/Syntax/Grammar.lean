import ElmNavigator.Syntax.Outline
import ElmNavigator.Syntax.Rule

/-!
# Grammar of headers and declarations

The grammar reads one masked chunk at a time: the module header from the first chunk, and one
declaration from each of the others.  Only what an outline keeps is read closely.  The body of a
function or alias has to contain an equals sign and is skipped, and so are annotations and fixity
declarations.
-/

namespace ElmNavigator
namespace Syntax

open Text Rule

/-! ## Lexical pieces -/

def isOperatorChar (c : Char) : Bool :=
  "+-/*=.<>:&|^?%!~@#$\\".toList.contains c

def blanks : Rule Unit :=
  skipWhile isBlank

def blanks1 : Rule Unit :=
  skipWhile1 isBlank

/-- An equals sign somewhere ahead, and all that follows. -/
def body : Rule Unit := do
  skipWhile (· != '=')
  character '='
  skipRest

def Lexeme.named (lexeme : Lexeme) : Named Span :=
  { name := String.ofList lexeme.text, location := lexeme.span }

def skipUpperName : Rule Unit := do
  satisfy isUpper
  skipWhile isIdentChar

def upperName : Rule (Named Span) := do
  let name ← lexeme skipUpperName
  return name.named

/-- The name of a function or port: its first character is a lower-case letter or `_`. -/
def lowerName : Rule (Named Span) := do
  let name ← lexeme do
    satisfy fun c => isLower c || c == '_'
    skipWhile isIdentChar
  return name.named

/-- A parenthesized operator.  Its place includes the parentheses, its name does not. -/
def operatorName : Rule (Named Span) := do
  let operator ← lexeme do
    character '('
    skipWhile1 isOperatorChar
    character ')'
  return { name := String.ofList (operator.text.drop 1).dropLast, location := operator.span }

def valueName : Rule (Named Span) :=
  orElse operatorName lowerName

def moduleName : Rule (Named Span) := do
  let name ← lexeme do
    skipUpperName
    let _ ← many do
      character '.'
      skipUpperName
  return name.named

/-! ## Exposing lists -/

def spaced (c : Char) : Rule Unit := do
  blanks
  character c
  blanks

inductive Members where
  | all
  | listed (names : List (Named Span))

def typeMembers : Rule Members := do
  character '('
  blanks
  let members ← orElse (do word ".."; return .all)
    (do let names ← separated upperName (spaced ','); return .listed names)
  blanks
  character ')'
  return members

def exposedType (name : Named Span) : Option Members -> List (Exposed Span)
  | none => [.type name.name false name.location]
  | some .all => [.type name.name true name.location]
  | some (.listed names) =>
      .type name.name false name.location ::
        names.map fun member => .constructor member.name name.name member.location

/-- One item of an exposing list, which may stand for several entries. -/
def exposedItem : Rule (List (Exposed Span)) :=
  orElse (do let value ← valueName; return [.value value.name value.location])
    (do
      let name ← upperName
      let members ← optional do
        blanks
        typeMembers
      return exposedType name members)

def exposingList : Rule (List (Exposed Span)) := do
  word "exposing"
  blanks
  character '('
  blanks
  let entries ← orElse (do let dots ← lexeme (word ".."); return [.all dots.span])
    (do let items ← separated exposedItem (spaced ','); return items.flatten)
  blanks
  character ')'
  return entries

/-! ## The module header -/

structure Header where
  kind : ModuleKind
  name : Named Span
  exposing : List (Exposed Span)
deriving Repr, DecidableEq

/-- The clause that binds an effect module's commands and subscriptions. -/
def effectClause : Rule Unit := do
  word "where"
  blanks
  character '{'
  skipWhile (· != '}')
  character '}'
  blanks

def moduleKind : Rule ModuleKind := do
  let kind ← optional do
    let kind ← orElse (do word "port"; return ModuleKind.port)
      (do word "effect"; return ModuleKind.effect)
    blanks1
    return kind
  return kind.getD .plain

def header : Rule Header := do
  let kind ← moduleKind
  word "module"
  blanks1
  let name ← moduleName
  blanks
  if kind = .effect then
    let _ ← optional effectClause
  let exposing ← exposingList
  blanks
  atEnd
  return { kind, name, exposing }

/-! ## Declarations -/

inductive Declaration where
  | import_ (decl : Import Span)
  | type (decl : TypeDecl Span)
  | port (name : Named Span)
  | function (name : Named Span)
  /-- Annotations and fixity declarations. -/
  | ignored
deriving Repr, DecidableEq

def importDeclaration : Rule Declaration := do
  word "import"
  blanks1
  let module ← moduleName
  let asName ← optional do
    blanks1
    word "as"
    blanks1
    upperName
  let exposing ← optional do
    blanks
    exposingList
  blanks
  atEnd
  return .import_ { module := module.name, asName := asName.map (·.name),
                    exposing := exposing.getD [], location := module.location }

def aliasDeclaration : Rule Declaration := do
  word "type"
  blanks1
  word "alias"
  blanks1
  let name ← upperName
  body
  return .type (.synonym name.name name.location)

/-- Nesting depth behind a character.  All kinds of brackets count alike, and a closing bracket too
many is ignored. -/
def bracketDepth (depth : Nat) (c : Char) : Nat :=
  if c = '(' || c = '[' || c = '{' then depth + 1
  else if c = ')' || c = ']' || c = '}' then depth - 1
  else depth

/-- Splits a text before the first bar outside all brackets. -/
def splitAtBar : Nat -> List Char -> List Char × List Char
  | _, [] => ([], [])
  | depth, c :: cs =>
      if c = '|' && depth = 0 then ([], c :: cs)
      else
        let (args, rest) := splitAtBar (bracketDepth depth c) cs
        (c :: args, rest)

def constructorArgs : Rule Unit := fun cur =>
  let (args, rest) := splitAtBar 0 cur.rest
  .ok () { offset := cur.offset + byteLength args, rest }

def constructorName : Rule (Named Span) := do
  let name ← upperName
  constructorArgs
  return name

def customDeclaration : Rule Declaration := do
  word "type"
  blanks1
  let name ← upperName
  let _ ← many do
    blanks1
    lowerName
  spaced '='
  let constructors ← separated constructorName (spaced '|')
  blanks
  atEnd
  return .type (.custom name.name constructors name.location)

def portDeclaration : Rule Declaration := do
  word "port"
  blanks1
  let name ← lowerName
  blanks
  character ':'
  skipRest
  return .port name

def fixityDeclaration : Rule Declaration := do
  orElse (word "infixl") (orElse (word "infixr") (word "infix"))
  blanks1
  skipRest
  return .ignored

def annotationDeclaration : Rule Declaration := do
  let _ ← valueName
  blanks
  character ':'
  skipRest
  return .ignored

def functionDeclaration : Rule Declaration := do
  let name ← valueName
  body
  return .function name

def declaration : Rule Declaration :=
  orElse importDeclaration <| orElse aliasDeclaration <| orElse customDeclaration <|
    orElse portDeclaration <| orElse fixityDeclaration <|
    orElse annotationDeclaration functionDeclaration

end Syntax
end ElmNavigator
