import ElmNavigator.Json.Form

/-!
# Messages

The server and the editor exchange requests, which are answered, responses and notifications.
-/

namespace ElmNavigator
namespace Server

inductive RequestId where
  | number (i : Int)
  | text (s : String)
deriving Repr, DecidableEq

inductive Message where
  | request (id : RequestId) (method : String) (params : Json)
  | notification (method : String) (params : Json)
  | response

inductive Answer where
  | result (value : Json)
  | error (code : Int) (message : String)

structure Response where
  id : RequestId
  answer : Answer

namespace RequestId

/-- Identifiers are integers of 32 bits or strings. -/
def ofJson? : Json -> Option RequestId
  | .string s => some (.text s)
  | value => value.signed32?.map .number

def toJson : RequestId -> Json
  | .number i => .integer i
  | .text s => .string s

end RequestId

namespace Response

def notInitialized : Int := -32002

def methodNotFound : Int := -32601

def ok (id : RequestId) (value : Json) : Response :=
  { id, answer := .result value }

def unsupported (id : RequestId) (method : String) : Response :=
  { id, answer := .error methodNotFound ("unsupported request: " ++ method) }

def toJson (r : Response) : Json :=
  match r.answer with
  | .result value => .object [("id", r.id.toJson), ("result", value)]
  | .error code message =>
      .object [("id", r.id.toJson),
        ("error", .object [("code", .integer code), ("message", .string message)])]

end Response

namespace Message

def isExit : Message -> Bool
  | .notification method _ => method == "exit"
  | _ => false

def responseError : Json.Form :=
  .record [.must "code" .code, .must "message" .text, .mayEnd "data" .any]

/-- A message by its fields: an identifier and a method make a request, an identifier alone a
response, and a method alone a notification. -/
def ofJson (value : Json) : Option Message :=
  match value with
  | .object fields =>
      let id := (Json.lookup? fields "id").bind RequestId.ofJson?
      let method := (Json.lookup? fields "method").bind Json.string?
      let params := (Json.lookup? fields "params").getD .null
      let error := (Json.lookup? fields "error").getD .null
      match id, method, responseError.orNull error with
      | some id, some method, _ => some (.request id method params)
      | some _, none, true => some .response
      | _, some method, _ => some (.notification method params)
      | _, _, _ => none
  | _ => none

end Message
end Server
end ElmNavigator
