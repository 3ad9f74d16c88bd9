import HttpUtils.Asio
import HttpUtils.RequestParser
import HttpUtils.Library.PartialRun
import HttpUtils.Library.WaitableTimer

/-!
# `http_server_session` and `https_server_session`

One state for both classes; `ServerKind` tells them apart where their code differs. An asynchronous operation
is outstanding from the call that starts it until its handler runs. Asio may run the handlers of outstanding
operations, with any result, and the queued completions of the timer in any order: each is an `Event`, and so
are the calls from outside, `stop_all` of the manager and the reply callback.
-/

namespace HttpUtils
set_option autoImplicit false

open WaitableTimer

inductive ServerKind where
  | http | https
  deriving DecidableEq, Repr

/-- The argument of `on_timeout`. -/
inductive Phase where
  | doHandshake | readRequest | handleRequest | writeReply
  deriving DecidableEq, Repr

/-- What a phase waits for. `handle` lasts from the call of the request handler to the first reply that
`on_reply` accepts. -/
inductive Operation where
  | handshake | readSome | handle | write
  deriving DecidableEq, Repr

def Phase.operation : Phase → Operation
  | .doHandshake => .handshake
  | .readRequest => .readSome
  | .handleRequest => .handle
  | .writeReply => .write

/-- A wait on the timer: its phase, and the number of the operation that it was set for. -/
structure Wait where
  phase : Phase
  guards : ℕ
  deriving DecidableEq, Repr

/-- What a session does that is seen from outside. -/
inductive Effect where
  | stopped
  | started (id : ℕ) (op : Operation)
  | finished (id : ℕ)
  | invokedHandler (req : Request)
  | assignedReplyStr
  | timedOut (phase : Phase)
  deriving DecidableEq, Repr

def Effect.isHandled : Effect → Bool
  | .invokedHandler _ => true
  | _ => false

structure Session where
  kind : ServerKind
  mRequest : Request
  mRequestParser : HttpRequestParser
  mReply : Reply
  mReplyStr : Bytes := []
  mStopped : Bool := false
  mConTimer : Timer Wait := {}
  /-- What the calls of `expires_from_now` have returned. -/
  rearmed : List ℕ := []
  /-- The manager holds the session. -/
  managed : Bool := true
  outstanding : List (ℕ × Operation) := []
  nextId : ℕ := 0
  history : List Effect := []

namespace Session

def emit (s : Session) (x : Effect) : Session := { s with history := s.history ++ [x] }

def cancelTimer (s : Session) : Session := { s with mConTimer := s.mConTimer.cancel }

/-- `stop()`: the socket is shut down, and `https` cancels its timer first. The `shutdown` of a tls stream waits for
the answer of the peer; here it is one step. -/
def stop (s : Session) : Session :=
  match s.kind with
  | .http => s.emit .stopped
  | .https => s.cancelTimer.emit .stopped

/-- `m_session_mgr.stop(self)`. -/
def managerStop (s : Session) : Session := stop { s with managed := false }

def begin (s : Session) (op : Operation) : Session :=
  emit { s with outstanding := s.outstanding ++ [(s.nextId, op)], nextId := s.nextId + 1 } (.started s.nextId op)

def finish (s : Session) (id : ℕ) : Session :=
  emit { s with outstanding := s.outstanding.filter fun x => x.1 ≠ id } (.finished id)

/-- `expires_from_now` and `async_wait`, as every phase begins. -/
def withTimeout (s : Session) (phase : Phase) (andThen : Session → Session) : Session :=
  let (timer, cancelled) := s.mConTimer.expiresFromNow
  let s := { s with mConTimer := timer, rearmed := s.rearmed ++ [cancelled] }
  if cancelled ≠ 0 then s.managerStop
  else andThen { s with mConTimer := s.mConTimer.asyncWait ⟨phase, s.nextId⟩ }

def doHandshake (s : Session) : Session := s.withTimeout .doHandshake fun s => s.begin .handshake

def doRead (s : Session) : Session := s.withTimeout .readRequest fun s => s.begin .readSome

def doWrite (s : Session) : Session :=
  let s := match s.kind with
    | .http => s.cancelTimer
    | .https => s
  s.withTimeout .writeReply fun s =>
    (emit { s with mReplyStr := s.mReply.toBytes } .assignedReplyStr).begin .write

def onTimeout (s : Session) (phase : Phase) : Session := managerStop
    (emit { s with mStopped := true } (.timedOut phase))

def handleRequest (s : Session) : Session :=
  let s := s.cancelTimer
  let (request, parser) := s.mRequestParser.moveReq
  withTimeout { s with mRequest := request, mRequestParser := parser } .handleRequest fun s =>
    (s.begin .handle).emit (.invokedHandler s.mRequest)

/-- An accepted reply ends the operation `handle`. -/
def onReply (s : Session) (reply : Reply) : Session :=
  if s.mStopped then s
  else
    let s := s.cancelTimer
    doWrite { s with mReply := reply, outstanding := s.outstanding.filter fun x => x.2 ≠ .handle }

def onHandshake (s : Session) : IoResult → Session
  | .ok _ => s.cancelTimer.doRead
  | .error _ => s.cancelTimer.managerStop

def onReadSome (s : Session) : IoResult → Session
  | .ok data =>
    let s := s.cancelTimer
    let (result, parser) := s.mRequestParser.parse data
    let s := { s with mRequestParser := parser }
    match result with
    | .good => s.handleRequest
    | .bad =>
      doWrite { s with
        mStopped := match s.kind with
          | .http => true
          | .https => s.mStopped
        mReply := stockReply .badRequest }
    | .indeterminate => s.doRead
  | .error ec => if ec ≠ .operationAborted then s.cancelTimer.managerStop else s.cancelTimer

def onWrite (s : Session) : IoResult → Session
  | .ok _ => s.cancelTimer.managerStop
  | .error ec => if ec ≠ .operationAborted then s.cancelTimer.managerStop else s.cancelTimer

/-- `m_buffer` has 8192 bytes, and a read that succeeds has read something. -/
def bufferSize : ℕ := 8192

inductive Event where
  | serverStop
  | expire
  | runWait (i : ℕ)
  | complete (id : ℕ) (result : IoResult)
  | reply (r : Reply)
  deriving DecidableEq, Repr

def handler (s : Session) : Operation → IoResult → Option Session
  | .handshake, result => some (s.onHandshake result)
  | .readSome, .ok data =>
    if data ≠ [] ∧ data.length ≤ bufferSize then some (s.onReadSome (.ok data)) else none
  | .readSome, .error ec => some (s.onReadSome (.error ec))
  | .write, result => some (s.onWrite result)
  | .handle, _ => none

/-- The request handler has been given the reply callback. -/
def handled (s : Session) : Bool := s.history.any Effect.isHandled

def step (s : Session) : Event → Option Session
  | .serverStop => if s.managed then some s.managerStop else none
  | .expire => some { s with mConTimer := s.mConTimer.expire }
  | .runWait i =>
    (s.mConTimer.take i).map fun c =>
      let s := { s with mConTimer := c.2 }
      match c.1.2 with
      | .expired => s.onTimeout c.1.1.phase
      | .aborted => s
  | .complete id result => (s.outstanding.lookup id).bind fun op => (s.finish id).handler op result
  | .reply r => if s.handled then some (s.onReply r) else none

def run (s : Session) (events : List Event) : Option Session := PartialRun.run step s events

end Session

/-- A new session after `start()`. The fields of `m_request` and `m_reply` that nobody initialises are
arguments. -/
def serverSession (kind : ServerKind) (mRequest : Request) (major minor : Int) (mReply : Reply) : Session :=
  let s : Session := { kind, mRequest, mReply, mRequestParser := httpRequestParser major minor }
  match kind with
  | .http => s.doRead
  | .https => s.doHandshake

end HttpUtils
