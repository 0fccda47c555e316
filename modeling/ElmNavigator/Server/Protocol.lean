import ElmNavigator.Server.Capabilities
import ElmNavigator.Server.Message
import ElmNavigator.Workspace.Session

/-!
# What the editor asks for

Requests and notifications are decoded from their method and parameters.  One that is not served or
has parameters of the wrong shape decodes to nothing.
-/

namespace ElmNavigator
namespace Server

open Json

inductive Request where
  | definition (uri : Uri) (line column : Nat)
  | documentSymbols (uri : Uri)
  | workspaceSymbols (query : String)
deriving Repr, DecidableEq

inductive Notice where
  | opened (uri : Uri) (text : String)
  | edited (uri : Uri) (changes : List Change)
  | saved (uri : Uri) (text : Option String)
  | closed (uri : Uri)
  | configured (settings : Settings)
  | filesChanged (events : List FileEvent)
deriving Repr, DecidableEq

structure Greeting where
  folders : List Uri
  rootUri : Option Uri
  options : Option Json

/-! ## Shapes -/

def uri? (value : Json) : Option Uri := do
  let text ← value.string?
  Uri.parse? text

def position? (value : Json) : Option (Nat × Nat) := do
  let [line, column] ← value.record? ["line", "character"] | none
  let line ← required unsigned32? line
  let column ← required unsigned32? column
  return (line, column)

def range? (value : Json) : Option Range := do
  let [start, stop] ← value.record? ["start", "end"] | none
  let (startLine, startColumn) ← required position? start
  let (endLine, endColumn) ← required position? stop
  return { startLine, startColumn, endLine, endColumn }

def change? (value : Json) : Option Change := do
  let [range, length, text] ← value.record? ["range", "rangeLength", "text"] | none
  let range ← maybe range? range
  let _ ← maybe unsigned32? length
  let text ← required string? text
  return { range, text }

def document? (value : Json) : Option Uri := do
  let [uri] ← value.record? ["uri"] | none
  required uri? uri

def versionedDocument? (value : Json) : Option Uri := do
  let [uri, version] ← value.record? ["uri", "version"] | none
  let uri ← required uri? uri
  let _ ← required signed32? version
  return uri

def documentItem? (value : Json) : Option (Uri × String) := do
  let [uri, language, version, text] ← value.record? ["uri", "languageId", "version", "text"] | none
  let uri ← required uri? uri
  let _ ← required string? language
  let _ ← required signed32? version
  let text ← required string? text
  return (uri, text)

/-- A change of a file; numbers other than those for created and deleted count as changed. -/
def fileEvent? (value : Json) : Option FileEvent := do
  let [uri, type] ← value.record? ["uri", "type"] | none
  let uri ← required uri? uri
  let type ← required signed32? type
  let change := if type = 1 then .created else if type = 3 then .deleted else .changed
  return { uri, change }

/-- Tokens for progress reports, which are accepted and not used. -/
def progressToken? : Json -> Option Unit
  | .string _ => some ()
  | value => value.signed32?.map fun _ => ()

def progressTokens? (fields : List (String × Json)) : Option Unit := do
  let _ ← maybe progressToken? (lookup? fields "workDoneToken")
  let _ ← maybe progressToken? (lookup? fields "partialResultToken")

def folder? (value : Json) : Option Uri := do
  let [uri, name] ← value.record? ["uri", "name"] | none
  let uri ← required uri? uri
  let _ ← required string? name
  return uri

def trace : Form :=
  .oneOf ["off", "messages", "verbose"]

def clientInfo : Form :=
  .record [.must "name" .text, .may "version" .text]

def greetingFields : List Field :=
  [.may "processId" .count, .may "rootPath" .text, .must "capabilities" capabilities,
    .may "trace" trace, .may "clientInfo" clientInfo, .may "locale" .text]

/-! ## Messages -/

def Request.ofMethod? (method : String) (params : Json) : Option Request := do
  let fields ← params.object?
  match method with
  | "textDocument/definition" =>
      let uri ← required document? (lookup? fields "textDocument")
      let (line, column) ← required position? (lookup? fields "position")
      progressTokens? fields
      return .definition uri line column
  | "textDocument/documentSymbol" =>
      let uri ← required document? (lookup? fields "textDocument")
      progressTokens? fields
      return .documentSymbols uri
  | "workspace/symbol" =>
      let query ← required string? (lookup? fields "query")
      progressTokens? fields
      return .workspaceSymbols query
  | _ => none

def Notice.ofMethod? (method : String) (params : Json) : Option Notice :=
  match method with
  | "textDocument/didOpen" => do
      let [document] ← params.record? ["textDocument"] | none
      let (uri, text) ← required documentItem? document
      return .opened uri text
  | "textDocument/didChange" => do
      let [document, changes] ← params.record? ["textDocument", "contentChanges"] | none
      let uri ← required versionedDocument? document
      let changes ← required (list? change?) changes
      return .edited uri changes
  | "textDocument/didSave" => do
      let [document, text] ← params.record? ["textDocument", "text"] | none
      let uri ← required document? document
      let text ← maybe string? text
      return .saved uri text
  | "textDocument/didClose" => do
      let [document] ← params.record? ["textDocument"] | none
      let uri ← required document? document
      return .closed uri
  | "workspace/didChangeConfiguration" => do
      let [settings] ← params.record? ["settings"] | none
      let settings ← required Settings.ofJson? settings
      return .configured settings
  | "workspace/didChangeWatchedFiles" => do
      let [changes] ← params.record? ["changes"] | none
      let events ← required (list? fileEvent?) changes
      return .filesChanged events
  | _ => none

def Greeting.ofParams? (params : Json) : Option Greeting := do
  let fields ← params.object?
  let rootUri ← maybe uri? (lookup? fields "rootUri")
  let options ← maybe some (lookup? fields "initializationOptions")
  let folders ← maybe (list? folder?) (lookup? fields "workspaceFolders")
  let _ ← maybe progressToken? (lookup? fields "workDoneToken")
  guard (Form.record greetingFields params)
  return { folders := folders.getD [], rootUri, options }

/-- The workspace root: the first folder or the root URI that is a path, or else a directory. -/
def Greeting.root (g : Greeting) (workingDir : Path) : Path :=
  ((g.folders ++ g.rootUri.toList).findSome? FileUri.toPath?).getD workingDir

/-- The settings to start with; malformed ones are ignored. -/
def Greeting.settings (g : Greeting) : Settings :=
  (g.options.bind Settings.ofJson?).getD .default

/-! ## Results -/

def positionJson (line column : Nat) : Json :=
  .object [("line", .integer line), ("character", .integer column)]

def rangeJson (r : Range) : Json :=
  .object [("start", positionJson r.startLine r.startColumn),
    ("end", positionJson r.endLine r.endColumn)]

def locationJson (s : Symbol) : Json :=
  .object [("uri", .string s.uri.text), ("range", rangeJson s.range)]

def symbolJson (s : Symbol) : Json :=
  .object [("name", .string s.name), ("kind", .integer s.kind.code), ("location", locationJson s),
    ("containerName", .string s.container)]

def capabilitiesJson : Json :=
  .object [
    ("textDocumentSync", .object [("openClose", .bool true), ("change", .integer 2),
      ("save", .bool true)]),
    ("definitionProvider", .bool true),
    ("documentSymbolProvider", .bool true),
    ("workspaceSymbolProvider", .bool true)]

end Server
end ElmNavigator
