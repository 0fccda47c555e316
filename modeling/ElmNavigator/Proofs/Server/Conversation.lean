import ElmNavigator.Proofs.Server.ParameterForms
import ElmNavigator.Server.Connection

/-!
# Conversations

A connection that is being served handles one message after the other.  Each request is answered
once, under its own identifier, until the editor asks to shut down, and nothing else is answered.
Messages that cannot be served are passed over without a trace in the session.

The disk may change while messages are handled: its state is that of a state monad, and any access
may move it on.
-/

namespace ElmNavigator
namespace Server

/-! ## Messages -/

namespace Message

def requestId? : Message -> Option RequestId
  | .request id _ _ => some id
  | _ => none

def asksShutdown : Message -> Bool
  | .request _ method _ => method == "shutdown"
  | _ => false

/-- Requests and notifications whose method is not known or whose parameters are not of the form of
the method. -/
def rejected : Message -> Bool
  | .request _ method params =>
      method != "shutdown" && !Forms.admits Forms.requests method params
  | .notification method params => !Forms.admits Forms.notices method params
  | .response => false

def refusal? : Message -> Option Response
  | .request id method _ => some (.unsupported id method)
  | _ => none

end Message

/-- The messages up to the first request to shut down, and that one. -/
def heard : List Message -> List Message
  | [] => []
  | message :: messages =>
      if message.asksShutdown then [message] else message :: heard messages

/-- What is delivered of all that comes in: the messages before anything that is none, and none
behind the notification to exit. -/
def delivered : List (Option Message) -> List Message
  | [] => []
  | none :: _ => []
  | some message :: arrivals =>
      if message.isExit then [message] else message :: delivered arrivals

/-! ## Runs of a connection -/

namespace Phase

/-- Handles the given one after the other, with what is answered to each. -/
def handleEach {m : Type -> Type} [Monad m] {alpha : Type}
    (step : alpha -> Phase -> m (Phase × Option Response)) :
    List alpha -> Phase -> m (Phase × List (Option Response))
  | [], phase => return (phase, [])
  | first :: others, phase => do
      let (phase, response) ← step first phase
      let (last, responses) ← handleEach step others phase
      return (last, response :: responses)

section

variable {σ : Type} (disk : Files (StateM σ)) (workingDir : Path)

def answers (messages : List Message) (phase : Phase) (world : σ) : List (Option Response) :=
  ((handleEach (receive disk workingDir) messages phase).run world).1.2

def reached (messages : List Message) (phase : Phase) (world : σ) : Phase × σ :=
  let result := (handleEach (receive disk workingDir) messages phase).run world
  (result.1.1, result.2)

/-- What is answered to each of the things that come in. -/
def replies (arrivals : List (Option Message)) (phase : Phase) (world : σ) :
    List (Option Response) :=
  ((handleEach (handle disk workingDir) arrivals phase).run world).1.2

theorem answers_cons (message : Message) (messages : List Message) (phase : Phase) (world : σ) :
    phase.answers disk workingDir (message :: messages) world =
      let result := (phase.receive disk workingDir message).run world
      result.1.2 :: result.1.1.answers disk workingDir messages result.2 :=
  rfl

theorem reached_cons (message : Message) (messages : List Message) (phase : Phase) (world : σ) :
    phase.reached disk workingDir (message :: messages) world =
      let result := (phase.receive disk workingDir message).run world
      result.1.1.reached disk workingDir messages result.2 :=
  rfl

theorem replies_none (arrivals : List (Option Message)) (phase : Phase) (world : σ) :
    phase.replies disk workingDir (none :: arrivals) world =
      none :: phase.cutOff.replies disk workingDir arrivals world :=
  rfl

theorem replies_some (message : Message) (arrivals : List (Option Message)) (phase : Phase)
    (world : σ) :
    phase.replies disk workingDir (some message :: arrivals) world =
      let result := (phase.receive disk workingDir message).run world
      let next := if message.isExit then result.1.1.cutOff else result.1.1
      result.1.2 :: next.replies disk workingDir arrivals result.2 :=
  rfl

theorem reached_append (before after : List Message) (phase : Phase) (world : σ) :
    phase.reached disk workingDir (before ++ after) world =
      let middle := phase.reached disk workingDir before world
      middle.1.reached disk workingDir after middle.2 := by
  induction before generalizing phase world with
  | nil => rfl
  | cons message before ih => exact ih _ _

end

end Phase

section

variable {σ : Type} (disk : Files (StateM σ)) (workingDir : Path)

/-! ## One message -/

theorem serveMessage_answer (message : Message) (s : Session) (world : σ) :
    ((serveMessage disk message s).run world).1.2.map Response.id = message.requestId? := by
  cases message with
  | request id method params =>
      rw [serveMessage]
      split
      · rfl
      · split <;> rfl
  | notification method params =>
      rw [serveMessage]
      split <;> rfl
  | response => rfl

theorem serveMessage_of_asksShutdown {message : Message} (h : message.asksShutdown = true)
    (s : Session) (world : σ) : ((serveMessage disk message s).run world).1.1 = .leaving := by
  cases message with
  | request id method params =>
      rw [serveMessage, if_pos (eq_of_beq h)]
      rfl
  | notification method params => exact absurd h Bool.false_ne_true
  | response => exact absurd h Bool.false_ne_true

theorem serveMessage_of_not_asksShutdown {message : Message} (h : message.asksShutdown = false)
    (s : Session) (world : σ) :
    exists t, ((serveMessage disk message s).run world).1.1 = .serving t := by
  cases message with
  | request id method params =>
      rw [serveMessage, if_neg (by simpa [Message.asksShutdown] using h)]
      split <;> exact ⟨_, rfl⟩
  | notification method params =>
      rw [serveMessage]
      split <;> exact ⟨_, rfl⟩
  | response => exact ⟨s, rfl⟩

theorem serveMessage_of_rejected {message : Message} (h : message.rejected = true) (s : Session) :
    serveMessage disk message s = pure (.serving s, message.refusal?) := by
  cases message with
  | request id method params =>
      rcases Bool.and_eq_true_iff.mp h with ⟨hmethod, hform⟩
      have hnone : Request.ofMethod? method params = none := by
        rw [← Option.not_isSome_iff_eq_none, Request.ofMethod?_isSome]
        simpa using hform
      rw [serveMessage, if_neg (by simpa using hmethod), hnone]
      rfl
  | notification method params =>
      have hnone : Notice.ofMethod? method params = none := by
        rw [← Option.not_isSome_iff_eq_none, Notice.ofMethod?_isSome]
        simpa [Message.rejected] using h
      rw [serveMessage, hnone]
      rfl
  | response => exact absurd h Bool.false_ne_true

namespace Phase

def isOver : Phase -> Bool
  | .leaving => true
  | .ended _ => true
  | _ => false

theorem receive_of_isOver {phase : Phase} (h : phase.isOver = true) (message : Message) (world : σ) :
    exists next, next.isOver = true ∧
      (phase.receive disk workingDir message).run world = ((next, none), world) := by
  cases phase with
  | leaving => exact ⟨leave message, rfl, rfl⟩
  | ended orderly => exact ⟨.ended orderly, rfl, rfl⟩
  | greeting => exact absurd h Bool.false_ne_true
  | confirming params => exact absurd h Bool.false_ne_true
  | serving s => exact absurd h Bool.false_ne_true

theorem exists_cutOff (phase : Phase) : exists orderly, phase.cutOff = .ended orderly := by
  unfold cutOff
  split <;> exact ⟨_, rfl⟩

/-! ## Whole conversations -/

theorem answers_of_isOver {phase : Phase} (h : phase.isOver = true) (messages : List Message)
    (world : σ) :
    phase.answers disk workingDir messages world = List.replicate messages.length none := by
  induction messages generalizing phase world with
  | nil => rfl
  | cons message messages ih =>
      rcases receive_of_isOver disk workingDir h message world with ⟨next, hnext, hreceive⟩
      rw [answers_cons, hreceive]
      exact congrArg (none :: ·) (ih hnext world)

theorem answers_serving (messages : List Message) (s : Session) (world : σ) :
    (answers disk workingDir messages (.serving s) world).map (Option.map Response.id) =
      (heard messages).map Message.requestId? ++
        List.replicate (messages.length - (heard messages).length) none := by
  induction messages generalizing s world with
  | nil => rfl
  | cons message messages ih =>
      have hanswer := serveMessage_answer disk message s world
      rw [answers_cons, heard, List.map_cons]
      cases hlast : message.asksShutdown with
      | true =>
          have hleaving := serveMessage_of_asksShutdown disk hlast s world
          have hover : Phase.leaving.isOver = true := rfl
          have hrest := answers_of_isOver disk workingDir hover messages
            ((serveMessage disk message s).run world).2
          simp [receive, hanswer, hleaving, hrest]
      | false =>
          rcases serveMessage_of_not_asksShutdown disk hlast s world with ⟨t, ht⟩
          have hrest := ih t ((serveMessage disk message s).run world).2
          simp [receive, hanswer, ht, hrest]

theorem reached_serving {messages : List Message}
    (h : forall message, message ∈ messages -> message.asksShutdown = false) (s : Session)
    (world : σ) :
    exists t later,
      reached disk workingDir messages (.serving s) world = (.serving t, later) := by
  induction messages generalizing s world with
  | nil => exact ⟨s, world, rfl⟩
  | cons message messages ih =>
      have hmessage := h message List.mem_cons_self
      rcases serveMessage_of_not_asksShutdown disk hmessage s world with ⟨t, ht⟩
      rw [reached_cons]
      simp only [receive, ht]
      exact ih (fun _ hmem => h _ (List.mem_cons_of_mem _ hmem)) t _

theorem replies_ended (orderly : Bool) (arrivals : List (Option Message)) (world : σ) :
    replies disk workingDir arrivals (.ended orderly) world =
      List.replicate arrivals.length none := by
  induction arrivals with
  | nil => rfl
  | cons arrived arrivals ih =>
      cases arrived with
      | none => exact congrArg (none :: ·) ih
      | some message =>
          rw [replies_some]
          cases message.isExit <;> exact congrArg (none :: ·) ih

/-- A connection answers what the server answers to the messages that are delivered, and nothing
else. -/
theorem replies_eq_answers_delivered (arrivals : List (Option Message)) (phase : Phase)
    (world : σ) :
    phase.replies disk workingDir arrivals world =
      phase.answers disk workingDir (delivered arrivals) world ++
        List.replicate (arrivals.length - (delivered arrivals).length) none := by
  induction arrivals generalizing phase world with
  | nil => rfl
  | cons arrived arrivals ih =>
      cases arrived with
      | none =>
          rcases exists_cutOff phase with ⟨orderly, hcut⟩
          rw [replies_none, hcut, replies_ended]
          rfl
      | some message =>
          rw [replies_some, delivered]
          cases message.isExit with
          | true =>
              rcases exists_cutOff ((phase.receive disk workingDir message).run world).1.1 with
                ⟨orderly, hcut⟩
              simp only [if_true, hcut, replies_ended, answers_cons]
              rfl
          | false =>
              simp [answers_cons, ih]

end Phase

/-- Requests are answered once each and in order, under their identifiers, up to the first that asks
to shut down, and no other message is answered.  A message that is rejected leaves the session and
the disk as all messages before it have left them. -/
theorem requests_answered_once (s : Session) (world : σ) :
    (forall messages,
      (Phase.answers disk workingDir messages (.serving s) world).map (Option.map Response.id) =
        (heard messages).map Message.requestId? ++
          List.replicate (messages.length - (heard messages).length) none) ∧
    forall messages message,
      (forall earlier, earlier ∈ messages -> earlier.asksShutdown = false) ->
      message.rejected = true ->
      exists t later,
        Phase.reached disk workingDir messages (.serving s) world = (.serving t, later) ∧
        Phase.reached disk workingDir (messages ++ [message]) (.serving s) world =
          (.serving t, later) := by
  refine ⟨fun messages => Phase.answers_serving disk workingDir messages s world, ?_⟩
  intro messages message hopen hrejected
  rcases Phase.reached_serving disk workingDir hopen s world with ⟨t, later, hreached⟩
  refine ⟨t, later, hreached, ?_⟩
  rw [Phase.reached_append, hreached, Phase.reached_cons]
  simp only [Phase.receive, serveMessage_of_rejected disk hrejected]
  rfl

end

def countingDisk : Files (StateM Nat) where
  read _ := do
    modify (· + 1)
    return .error .notFound
  find _ _ _ _ := do
    modify (· + 1)
    return .ok []

/-- The notification to exit is passed over, and what is delivered behind it is answered. -/
theorem requests_answered_once_mixed :
    let search : Json := .object [("query", .string "view")]
    let misconfigured : Message :=
      .notification "workspace/didChangeConfiguration" (.object [("settings", .bool true)])
    let asked : List Message := [.request (.number 1) "workspace/symbol" search, misconfigured]
    let exit : Message := .notification "exit" .null
    let farewell : List Message :=
      [.request (.text "b") "textDocument/hover" .null, .request (.number 2) "shutdown" .null,
        .request (.number 3) "workspace/symbol" search]
    let phase : Phase := .serving (.new (Path.ofString "/w") .default)
    (phase.answers countingDisk (Path.ofString "/") (asked ++ exit :: farewell) 0).map
        (Option.map Response.id) =
      [some (.number 1), none, none, some (.text "b"), some (.number 2), none] ∧
    misconfigured.rejected = true ∧ exit.rejected = true ∧
    exists t later, phase.reached countingDisk (Path.ofString "/") asked 0 = (.serving t, later) ∧
      phase.reached countingDisk (Path.ofString "/") (asked ++ [exit]) 0 =
        (.serving t, later) := by
  intro search misconfigured asked exit farewell phase
  have hexit : exit.rejected = true := by decide
  have hmain := requests_answered_once countingDisk (Path.ofString "/")
    (.new (Path.ofString "/w") .default) 0
  refine ⟨(hmain.1 _).trans (by decide), by decide, hexit, hmain.2 asked exit ?_ hexit⟩
  simp [asked, misconfigured, Message.asksShutdown]

end Server
end ElmNavigator
