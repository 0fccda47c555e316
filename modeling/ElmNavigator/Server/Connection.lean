import ElmNavigator.Server.Protocol

/-!
# A connection to an editor

A connection starts with a handshake: the editor asks to initialize, the server answers with what it
is able to do, and the next message has to confirm it.  Then requests and notifications are handled
one at a time against one session.  After a request to shut down has been answered, the only message
expected is the one to exit.  Any breach of this order ends the connection.

What the server does with a message is one thing, which messages reach it another.  To a session the
notification to exit is one like any other that it does not know.  It is the connection that delivers
nothing behind it, and nothing behind what is not a message at all.
-/

namespace ElmNavigator
namespace Server

inductive Phase where
  | greeting
  /-- The handshake has been answered; its parameters are looked at once it is confirmed. -/
  | confirming (params : Json)
  | serving (session : Session)
  | leaving
  /-- The connection has ended; `orderly` if the editor shut it down. -/
  | ended (orderly : Bool)

namespace Phase

def confirmed (workingDir : Path) (params : Json) : Phase :=
  match Greeting.ofParams? params with
  | some g => .serving (.new (g.root workingDir) g.settings)
  | none => .ended false

def greet : Message -> Phase × Option Response
  | .request id method params =>
      if method = "initialize" then
        (.confirming params, some (.ok id (.object [("capabilities", capabilitiesJson)])))
      else
        (.greeting, some { id, answer := .error Response.notInitialized
                                  ("expected initialize request, got " ++ method) })
  | .notification method _ => (if method = "exit" then .ended false else .greeting, none)
  | .response => (.ended false, none)

def confirm (workingDir : Path) (params : Json) : Message -> Phase
  | .notification "initialized" _ => confirmed workingDir params
  | _ => .ended false

def leave (message : Message) : Phase :=
  .ended message.isExit

end Phase

variable {m : Type -> Type} [Monad m]

def Request.serve (disk : Files m) (request : Request) (s : Session) : m (Json × Session) :=
  match request with
  | .definition uri line column => do
      let (found, s) ← s.definition disk uri line column
      return ((found.map locationJson).getD .null, s)
  | .documentSymbols uri => do
      let symbols ← s.documentSymbols disk uri
      return (.array (symbols.map symbolJson), s)
  | .workspaceSymbols query => do
      let (symbols, s) ← s.workspaceSymbols disk query
      return (.array (symbols.map symbolJson), s)

def Notice.serve (disk : Files m) (notice : Notice) (s : Session) : m Session :=
  match notice with
  | .opened uri text => return s.openDocument uri text
  | .edited uri changes => return s.changeDocument uri changes
  | .saved uri text => s.saveDocument disk uri text
  | .closed uri => return s.closeDocument uri
  | .configured settings => return s.reconfigure settings
  | .filesChanged events => s.filesChanged disk events

def serveMessage (disk : Files m) (message : Message) (s : Session) :
    m (Phase × Option Response) :=
  match message with
  | .request id method params =>
      if method = "shutdown" then return (.leaving, some (.ok id .null))
      else
        match Request.ofMethod? method params with
        | none => return (.serving s, some (.unsupported id method))
        | some request => do
            let (value, s) ← request.serve disk s
            return (.serving s, some (.ok id value))
  | .notification method params =>
      match Notice.ofMethod? method params with
      | none => return (.serving s, none)
      | some notice => do
          let s ← notice.serve disk s
          return (.serving s, none)
  | .response => return (.serving s, none)

namespace Phase

/-- Handles a message that is delivered to the server. -/
def receive (disk : Files m) (workingDir : Path) (message : Message) (phase : Phase) :
    m (Phase × Option Response) :=
  match phase with
  | .greeting => return greet message
  | .confirming params => return (confirm workingDir params message, none)
  | .serving s => serveMessage disk message s
  | .leaving => return (leave message, none)
  | .ended orderly => return (.ended orderly, none)

/-- Where a connection is when nothing more is delivered. -/
def cutOff : Phase -> Phase
  | .ended orderly => .ended orderly
  | _ => .ended false

/-- Handles what comes in next on a connection, which may not be a message. -/
def handle (disk : Files m) (workingDir : Path) (arrived : Option Message) (phase : Phase) :
    m (Phase × Option Response) :=
  match arrived with
  | none => return (phase.cutOff, none)
  | some message => do
      let (next, response) ← phase.receive disk workingDir message
      return (if message.isExit then next.cutOff else next, response)

end Phase

end Server
end ElmNavigator
