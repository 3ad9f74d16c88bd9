import HttpUtils.Asio
import HttpUtils.RequestParser
import HttpUtils.Library.PartialRun
import HttpUtils.Library.WaitableTimer

/-!
# `http_client` and `https_client`

One state for both classes; `ClientKind` tells them apart where their code differs. The handlers form one chain
of operations, each started by the handler of the one before. The operation of the chain is pending until its
result is there, and its handler is queued from then on until it runs. `close()` ends a pending operation of the
socket with an error and leaves a queued handler as it is; it does not reach the resolver.
-/

namespace HttpUtils
set_option autoImplicit false

open WaitableTimer

inductive ClientKind where
  | http | https
  deriving DecidableEq, Repr

inductive ClientOperation where
  | resolve | connect | handshake
  | write (data : Bytes)
  | read
  deriving DecidableEq, Repr

inductive Chain where
  | idle
  | pending (op : ClientOperation)
  | queued (op : ClientOperation) (result : IoResult)
  deriving DecidableEq, Repr

/-- What a client does that is seen from outside, and what it is told. -/
inductive ClientEffect where
  | started (op : ClientOperation)
  | expired
  | timedOut
  | received (data : Bytes)
  | parsed (result : ResultType) (reply : Reply)
  | calledBack (err : Bytes) (reply : Reply)
  deriving DecidableEq, Repr

structure Client where
  kind : ClientKind
  mReqStr : Bytes
  mRepParser : HttpReplyParser
  mTimer : Timer Unit := {}
  chain : Chain := .idle
  /-- `m_socket` has a descriptor. -/
  isOpen : Bool := false
  history : List ClientEffect := []

/-- `error_code::message()`. -/
abbrev Messages := ErrorCode → Bytes

namespace Client

def emit (s : Client) (x : ClientEffect) : Client := { s with history := s.history ++ [x] }

def start (s : Client) (op : ClientOperation) : Client := emit { s with chain := .pending op } (.started op)

/-- `m_socket.close()`. -/
def close (s : Client) : Client :=
  { s with
    isOpen := false
    chain := match s.chain with
      | .pending .resolve => .pending .resolve
      | .pending op => .queued op (.error .operationAborted)
      | c => c }

/-- `https` shuts the stream down and leaves the socket open. -/
def invokeCallback (s : Client) (err : Bytes) : Client :=
  let s := emit { s with mTimer := s.mTimer.cancel } (.calledBack err s.mRepParser.mReply)
  match s.kind with
  | .http => s.close
  | .https => s

def onTimeout (s : Client) : Completion → Client
  | .expired => (s.emit .timedOut).invokeCallback (ascii "timeout")
  | .aborted => s

def run (s : Client) : Client :=
  let s := s.start .resolve
  { s with mTimer := s.mTimer.expiresFromNow.1.asyncWait () }

variable (message : Messages)

/-- `async_connect` opens a socket that is closed. -/
def handleResolve (s : Client) : IoResult → Client
  | .error ec => s.invokeCallback (message ec)
  | .ok _ => start { s with isOpen := true } .connect

def handleConnect (s : Client) : IoResult → Client
  | .error ec => s.invokeCallback (message ec)
  | .ok _ =>
    match s.kind with
    | .http => s.start (.write s.mReqStr)
    | .https => s.start .handshake

def handleHandshake (s : Client) : IoResult → Client
  | .error ec => s.invokeCallback (message ec)
  | .ok _ => s.start (.write s.mReqStr)

def handleWriteRequest (s : Client) : IoResult → Client
  | .error ec => s.invokeCallback (message ec)
  | .ok _ => s.start .read

def handleReadContent (s : Client) : IoResult → Client
  | .error ec => if ec = .eof then s.invokeCallback [] else s.invokeCallback (message ec)
  | .ok data =>
    let (result, parser) := s.mRepParser.parse data
    let s := emit (emit { s with mRepParser := parser } (.received data)) (.parsed result parser.mReply)
    if result = .bad then s.invokeCallback (ascii "invalid reply") else s.start .read

def handler (s : Client) : ClientOperation → IoResult → Client
  | .resolve => s.handleResolve message
  | .connect => s.handleConnect message
  | .handshake => s.handleHandshake message
  | .write _ => s.handleWriteRequest message
  | .read => s.handleReadContent message

/-- `m_content_read_buffer` has 4096 bytes, and a read that succeeds has read something. -/
def contentBufferSize : ℕ := 4096

inductive Event where
  | expire
  | runWait (i : ℕ)
  | ready (result : IoResult)
  | deliver
  deriving DecidableEq, Repr

/-- The results that a pending operation may have. On a closed socket it fails. -/
def Possible (s : Client) (op : ClientOperation) : IoResult → Bool
  | .error _ => true
  | .ok data =>
    (op = .resolve ∨ s.isOpen) ∧ (op = .read → data ≠ [] ∧ data.length ≤ contentBufferSize)

def step (s : Client) : Event → Option Client
  | .expire =>
    if s.mTimer.pending = [] then none else some (emit { s with mTimer := s.mTimer.expire } .expired)
  | .runWait i => (s.mTimer.take i).map fun c => onTimeout { s with mTimer := c.2 } c.1.2
  | .ready result =>
    match s.chain with
    | .pending op => if s.Possible op result then some { s with chain := .queued op result } else none
    | _ => none
  | .deliver =>
    match s.chain with
    | .queued op result => some (handler message { s with chain := .idle } op result)
    | _ => none

end Client

/-- A new client after `run()`. The status code that nobody initialises is an argument. -/
def httpClient (kind : ClientKind) (serverUrl serverPort : Bytes) (req : Request) (statusCode : ℕ) : Client :=
  let s : Client :=
    { kind, mReqStr := req.toBytes serverUrl serverPort, mRepParser := httpReplyParser statusCode }
  s.run

end HttpUtils
