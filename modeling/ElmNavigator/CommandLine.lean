import ElmNavigator.Workspace.Session

/-!
# The command line

There are three commands: `serve` speaks the editor protocol, `symbols` prints the symbols of one
file, and `query` prints the symbols of a workspace that a query asks for.
-/

namespace ElmNavigator
namespace CommandLine

open Disk

inductive Command where
  | serve
  | symbols (file : Path)
  | query (root : Path) (text : String)
deriving Repr, DecidableEq

inductive Invocation where
  | run (command : Command)
  | help
  | usageError
deriving Repr, DecidableEq

/-! ## Arguments -/

inductive Argument where
  /-- Everything behind two dashes is taken as it stands. -/
  | escape
  | long (name : List Char) (value : Option (List Char))
  | short (flags : List Char)
  | plain (text : List Char)
deriving Repr, DecidableEq

/-- The form of an argument.  A single dash is an ordinary argument. -/
def Argument.ofString (s : String) : Argument :=
  match s.toList with
  | ['-', '-'] => .escape
  | '-' :: '-' :: rest =>
      match Text.splitAtFirst? '=' rest with
      | some (name, value) => .long name (some value)
      | none => .long rest none
  | '-' :: c :: rest => .short (c :: rest)
  | text => .plain text

inductive CommonFlag where
  | verbose
  | help
  | unknown
deriving Repr, DecidableEq

def shortFlags : List Char -> CommonFlag
  | [] => .verbose
  | 'v' :: flags => shortFlags flags
  | 'h' :: _ => .help
  | _ => .unknown

def longFlag (name : List Char) (value : Option (List Char)) : CommonFlag :=
  if value.isSome then .unknown
  else if name = "verbose".toList then .verbose
  else if name = "help".toList then .help
  else .unknown

structure Given where
  root : Option (List Char)
  operands : List (List Char)
deriving Repr, DecidableEq

inductive Reading where
  | done (given : Given)
  | help
  | usageError
deriving Repr, DecidableEq

/-- Adds a root to what has been read; a second one or an empty one is an error. -/
def Given.withRoot (given : Given) (root : List Char) : Option Given :=
  if given.root.isSome || root.isEmpty then none else some { given with root := some root }

/-- Reads the arguments of a command that takes up to `slots` operands and, if `hasRoot`, a root.
Arguments are judged from left to right, and the first error or call for help decides. -/
def readArguments (hasRoot emptyOk : Bool) (slots : Nat) (given : Given) : List String -> Reading
  | [] => .done given
  | arg :: args =>
      match Argument.ofString arg with
      | .escape =>
          let operands := args.map (·.toList)
          if operands.length > slots || (!emptyOk && operands.any List.isEmpty) then .usageError
          else .done { given with operands := given.operands ++ operands }
      | .short flags =>
          match shortFlags flags with
          | .verbose => readArguments hasRoot emptyOk slots given args
          | .help => .help
          | .unknown => .usageError
      | .long name value =>
          if hasRoot && name = "root".toList then
            match value, args with
            | some root, args =>
                match given.withRoot root with
                | some given => readArguments hasRoot emptyOk slots given args
                | none => .usageError
            | none, next :: args =>
                match Argument.ofString next with
                | .plain root =>
                    match given.withRoot root with
                    | some given => readArguments hasRoot emptyOk slots given args
                    | none => .usageError
                | _ => .usageError
            | none, [] => .usageError
          else
            match longFlag name value with
            | .verbose => readArguments hasRoot emptyOk slots given args
            | .help => .help
            | .unknown => .usageError
      | .plain text =>
          match slots with
          | 0 => .usageError
          | slots + 1 =>
              if text.isEmpty && !emptyOk then .usageError
              else
                readArguments hasRoot emptyOk slots
                  { given with operands := given.operands ++ [text] } args

def Reading.invocation (build : Given -> Option Command) : Reading -> Invocation
  | .done given =>
      match build given with
      | some command => .run command
      | none => .usageError
  | .help => .help
  | .usageError => .usageError

def buildServe : Given -> Option Command
  | { root := none, operands := [] } => some .serve
  | _ => none

def buildSymbols : Given -> Option Command
  | { root := none, operands := [file] } => some (.symbols (.ofChars file))
  | _ => none

/-- Builds the command to query a workspace, which is the working directory by default. -/
def buildQuery : Given -> Option Command
  | { root, operands := [text] } =>
      some (.query (.ofChars (root.getD ['.'])) (String.ofList text))
  | _ => none

def commandNames : List String :=
  ["serve", "lsp", "symbols", "query", "help"]

def readHelp : List String -> Invocation
  | [] => .help
  | [name] => if name ∈ commandNames then .help else .usageError
  | _ => .usageError

def readCommand (name : String) (args : List String) : Invocation :=
  let nothing : Given := { root := none, operands := [] }
  match name with
  | "serve" | "lsp" => (readArguments false false 0 nothing args).invocation buildServe
  | "symbols" => (readArguments false false 1 nothing args).invocation buildSymbols
  | "query" => (readArguments true true 1 nothing args).invocation buildQuery
  | "help" => readHelp args
  | _ => .usageError

/-- Reads all arguments: flags, and the first other argument is the command. -/
def read : List String -> Invocation
  | [] => .usageError
  | arg :: args =>
      match Argument.ofString arg with
      | .escape => .usageError
      | .short flags =>
          match shortFlags flags with
          | .verbose => read args
          | .help => .help
          | .unknown => .usageError
      | .long name value =>
          match longFlag name value with
          | .verbose => read args
          | .help => .help
          | .unknown => .usageError
      | .plain _ => readCommand arg args

/-! ## Output -/

structure Report where
  lines : List String
  failure : Option String
deriving Repr, DecidableEq

def padRight (width : Nat) (text : String) : String :=
  text ++ String.ofList (List.replicate (width - text.length) ' ')

/-- A symbol on one line: kind, qualified name, and the place counted from one. -/
def render (s : Symbol) : String :=
  padRight 12 s.kind.label ++ " " ++ s.container ++ "." ++ s.name ++ "  " ++ s.uri.text ++ ":" ++
    toString (s.range.startLine + 1) ++ ":" ++ toString (s.range.startColumn + 1)

def inOrder (a b : Symbol) : Bool :=
  a.uri.text < b.uri.text ||
    (a.uri.text = b.uri.text && a.range.startLine ≤ b.range.startLine)

variable {m : Type -> Type} [Monad m]

def printSymbols (disk : Files m) (workingDir file : Path) : m Report := do
  match ← disk.read file with
  | .error e =>
      return { lines := [],
               failure := some ("Error reading " ++ file.toString ++ ": " ++ e.message) }
  | .ok text =>
      let uri := FileUri.ofPath (Path.absolute workingDir file)
      return { lines := (Symbol.ofText uri text).map render, failure := none }

def printQuery (disk : Files m) (workingDir root : Path) (text : String) : m Report := do
  let session := Session.new (Path.absolute workingDir root) .default
  let (symbols, _) ← session.workspaceSymbols disk text
  return { lines := (symbols.mergeSort inOrder).map render, failure := none }

end CommandLine
end ElmNavigator
