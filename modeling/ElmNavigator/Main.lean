import ElmNavigator.CommandLine
import ElmNavigator.Json.Reader
import ElmNavigator.Json.Writer
import ElmNavigator.Server.Connection

/-!
# The program

Connects the command line and the editor protocol to the real disk, standard input and standard
output.
-/

namespace ElmNavigator
namespace Program

open Disk

def accessError : IO.Error -> AccessError
  | .noFileOrDirectory _ _ _ => .notFound
  | .permissionDenied _ _ _ => .permissionDenied
  | .inappropriateType _ code _ => if code = 20 then .notADirectory else .isADirectory
  | .invalidArgument _ code _ =>
      if code = 36 then .nameTooLong else if code = 40 then .tooManyLinks else .invalidPath
  | _ => .notFound

def readText (p : Path) : IO (Except AccessError String) := do
  try
    let bytes ← IO.FS.readBinFile p.toString
    match String.fromUTF8? bytes with
    | some text => return .ok text
    | none => return .error .notUtf8
  catch e => return .error (accessError e)

partial def itemsIn (names : Place) (entries : List IO.FS.DirEntry) : IO (List Item) := do
  let sorted := entries.mergeSort fun a b => a.fileName.toList ≤ b.fileName.toList
  let met ← sorted.mapM fun entry => do
    let place := names ++ [Text.utf8 entry.fileName.toList]
    match (← entry.path.symlinkMetadata).type with
    | .file => return [.file place]
    | .dir =>
        try itemsIn place (← entry.path.readDir).toList
        catch e => return [.closed place (accessError e)]
    | _ => return []
  return met.flatten

def itemsUnder (root : Path) : IO (Except AccessError (List Item)) := do
  try
    let place ← IO.FS.realPath root.toString
    match (← place.metadata).type with
    | .dir => return .ok (← itemsIn [] (← place.readDir).toList)
    | .file => return .ok [.file []]
    | _ => return .ok []
  catch e => return .error (accessError e)

def disk : Files IO where
  read := readText
  find := findWith itemsUnder

def workingDir : IO Path := do
  return Path.ofString (← IO.currentDir).toString

partial def readHeader (input : IO.FS.Stream) (length : Option Nat) : IO (Option Nat) := do
  let line ← input.getLine
  if line.isEmpty then return none
  let line := line.trimAscii.toString
  if line.isEmpty then return length
  match line.splitOn ":" with
  | [name, value] =>
      if name.toLower == "content-length" then readHeader input value.trimAscii.toString.toNat?
      else readHeader input length
  | _ => readHeader input length

partial def readBytes (input : IO.FS.Stream) (count : Nat) (bytes : ByteArray) : IO ByteArray := do
  if bytes.size ≥ count then return bytes
  let more ← input.read (count - bytes.size).toUSize
  if more.isEmpty then return bytes else readBytes input count (bytes ++ more)

def readMessage (input : IO.FS.Stream) : IO (Option Server.Message) := do
  let some length ← readHeader input none | return none
  let bytes ← readBytes input length ByteArray.empty
  return ((String.fromUTF8? bytes).bind Json.read?).bind Server.Message.ofJson

def send (output : IO.FS.Stream) (response : Server.Response) : IO Unit := do
  let fields := match response.toJson with
    | .object fields => fields
    | _ => []
  let text := (Json.object (("jsonrpc", .string "2.0") :: fields)).write
  output.putStr ("Content-Length: " ++ toString text.utf8ByteSize ++ "\r\n\r\n" ++ text)
  output.flush

partial def converse (input output : IO.FS.Stream) (here : Path) (phase : Server.Phase) :
    IO Bool := do
  match phase with
  | .ended orderly => return orderly
  | phase =>
      let (phase, response) ← phase.handle disk here (← readMessage input)
      match response with
      | some response => send output response
      | none => pure ()
      converse input output here phase

def print (report : CommandLine.Report) : IO UInt32 := do
  for line in report.lines do
    IO.println line
  match report.failure with
  | some message =>
      IO.eprintln message
      return 1
  | none => return 0

def usage : String :=
  "Usage: elm-navigator [-v] <serve | symbols FILE | query [--root ROOT] QUERY | help>"

def run (command : CommandLine.Command) : IO UInt32 := do
  let here ← workingDir
  match command with
  | .symbols file => print (← CommandLine.printSymbols disk here file)
  | .query root text => print (← CommandLine.printQuery disk here root text)
  | .serve =>
      if ← converse (← IO.getStdin) (← IO.getStdout) here .greeting then return 0
      else
        IO.eprintln "LSP server error: disconnected"
        return 1

end Program
end ElmNavigator

open ElmNavigator in
def main (args : List String) : IO UInt32 := do
  match CommandLine.read args with
  | .run command => Program.run command
  | .help =>
      IO.println Program.usage
      return 0
  | .usageError =>
      IO.eprintln Program.usage
      return 2
