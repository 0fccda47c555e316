import ElmNavigator.Syntax.Chunk
import ElmNavigator.Syntax.Grammar
import ElmNavigator.Syntax.Masking

/-!
# Reading a module

A source text is masked, cut into chunks, and read chunk by chunk.  The first chunk that the grammar
rejects decides the error.
-/

namespace ElmNavigator
namespace Syntax

open Text

inductive ParseFailure where
  | missingHeader
  | invalidHeader
  | unrecognizedDeclaration
deriving Repr, DecidableEq

structure ParseError where
  failure : ParseFailure
  offset : Nat
deriving Repr, DecidableEq

def rejectionDetail : String :=
  "Parsing Error: ContextError \x7b context: [], cause: None \x7d"

def ParseFailure.message : ParseFailure -> String
  | .missingHeader => "missing module declaration"
  | .invalidHeader => "invalid module declaration: " ++ rejectionDetail
  | .unrecognizedDeclaration => "unrecognized top-level declaration: " ++ rejectionDetail

def ParseError.message (e : ParseError) : String :=
  "parse error at offset " ++ toString e.offset ++ ": " ++ e.failure.message

def Chunk.cursor (chunk : Chunk) : Cursor :=
  { offset := chunk.start, rest := chunk.text }

def Chunk.read {α : Type} (rule : Rule α) (failure : ParseFailure) (chunk : Chunk) :
    Except ParseError α :=
  match rule chunk.cursor with
  | .ok a _ => .ok a
  | .stopped c => .error { failure, offset := c.offset }

def readDeclarations : List Chunk -> Except ParseError (List Declaration)
  | [] => .ok []
  | chunk :: chunks =>
      match chunk.read declaration .unrecognizedDeclaration with
      | .error e => .error e
      | .ok decl =>
          match readDeclarations chunks with
          | .error e => .error e
          | .ok decls => .ok (decl :: decls)

namespace Declaration

def import? : Declaration -> Option (Import Span)
  | .import_ decl => some decl
  | _ => none

def type? : Declaration -> Option (TypeDecl Span)
  | .type decl => some decl
  | _ => none

def function? : Declaration -> Option (Named Span)
  | .function name => some name
  | _ => none

def port? : Declaration -> Option (Named Span)
  | .port name => some name
  | _ => none

end Declaration

def assemble (h : Header) (decls : List Declaration) : Outline Span :=
  { name := h.name.name, kind := h.kind, exposing := h.exposing,
    imports := decls.filterMap (·.import?), types := decls.filterMap (·.type?),
    functions := decls.filterMap (·.function?), ports := decls.filterMap (·.port?),
    location := h.name.location }

/-- The chunks of a source text.  A byte order mark does not count as a blank in column zero. -/
def sourceChunks (source : List Char) : List Chunk :=
  match source with
  | [] => []
  | c :: _ =>
      let masked := mask source
      if c = byteOrderMark then chunksFrom c.utf8Size (dropBytes c.utf8Size masked)
      else chunksFrom 0 masked

def readOutline (source : List Char) : Except ParseError (Outline Span) :=
  match sourceChunks source with
  | [] => .error { failure := .missingHeader, offset := 0 }
  | first :: others =>
      match first.read header .invalidHeader with
      | .error e => .error e
      | .ok h =>
          match readDeclarations others with
          | .error e => .error e
          | .ok decls => .ok (assemble h decls)

def parse (source : String) : Except ParseError (Outline Location) :=
  match readOutline source.toList with
  | .error e => .error e
  | .ok outline => .ok (outline.map (locate source.toList))

end Syntax
end ElmNavigator
