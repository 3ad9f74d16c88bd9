import HttpUtils.Client.HttpClient
import HttpUtils.Session.ServerSession
import HttpUtils.Library.ByteStream

/-!
# A client and the server session it talks to

The two are connected by a stream in each direction: tcp, or tls over it. The session is spawned when the server
accepts the connection. The request handler of the server answers through the reply callback, with a reply that
depends on the request that it was given: at once or later.
-/

namespace HttpUtils
set_option autoImplicit false

open ByteStream

inductive Scheme where
  | http | https
  deriving DecidableEq, Repr

def Scheme.client : Scheme → ClientKind
  | .http => .http
  | .https => .https

def Scheme.server : Scheme → ServerKind
  | .http => .http
  | .https => .https

structure Exchange where
  scheme : Scheme
  client : Client
  /-- The connection is established. -/
  connected : Bool := false
  session : Option Session := none
  request : Stream UInt8 := {}
  reply : Stream UInt8 := {}
  /-- The reply that the request handler has not given to the callback yet. -/
  due : Option Reply := none

namespace Exchange

/-- The handshake is not done: a tls stream refuses `shutdown` until then. -/
def beforeTls (s : Client) : Bool :=
  match s.kind, s.chain with
  | .https, .pending .resolve | .https, .pending .connect | .https, .pending .handshake => true
  | .https, .queued .resolve _ | .https, .queued .connect _ => true
  | _, _ => false

/-- What client `s` does is heard on its stream. `async_connect` makes a new connection, also after the caller was
told something. -/
def hearRequest (s : Client) (c : Stream UInt8) : ClientEffect → Stream UInt8
  | .started .connect => {}
  | .started (.write data) => c.write data
  | .calledBack _ _ => if beforeTls s then c else c.shut
  | _ => c

def hearReply (mReplyStr : Bytes) (c : Stream UInt8) : Effect → Stream UInt8
  | .assignedReplyStr => c.write mReplyStr
  | .stopped => c.shut
  | _ => c

variable (app : Request → Reply) (message : Messages)

def hearRequestHandler (due : Option Reply) : Effect → Option Reply
  | .invokedHandler req => some (app req)
  | _ => due

def clientStep (x : Exchange) (e : Client.Event) : Option Exchange :=
  (x.client.step message e).map fun t =>
    { x with
      client := t
      request := (t.history.drop x.client.history.length).foldl (hearRequest x.client) x.request }

def sessionStep (x : Exchange) (e : Session.Event) : Option Exchange :=
  x.session.bind fun s => (s.step e).map fun t =>
    { x with
      session := some t
      reply := (t.history.drop s.history.length).foldl (hearReply t.mReplyStr) x.reply
      due := (t.history.drop s.history.length).foldl (hearRequestHandler app) x.due }

def awaits (x : Exchange) (id : ℕ) (op : Operation) : Bool :=
  match x.session with
  | some s => s.outstanding.lookup id = some op
  | none => false

def isWriting (x : Exchange) : Bool :=
  match x.client.chain with
  | .pending (.write _) => true
  | _ => false

/-- The last five are faults: a time limit that is reached, an operation that fails, and a server that is shut
down. -/
inductive Event where
  | resolve
  | connect
  | accept (mRequest : Request) (major minor : Int) (mReply : Reply)
  | clientHandshake
  | serverHandshake (id : ℕ)
  | sendRequest (n : ℕ)
  | requestSent
  | receiveRequest (id n : ℕ)
  | answer
  | sendReply (n : ℕ)
  | replySent (id : ℕ)
  | receiveReply (n : ℕ)
  | replyEnds
  | deliver
  | clientWait (i : ℕ)
  | serverWait (i : ℕ)
  | clientExpires
  | serverExpires
  | clientFails (ec : ErrorCode)
  | serverFails (id : ℕ) (ec : ErrorCode)
  | serverStops
  deriving DecidableEq, Repr

def Event.isFault : Event → Bool
  | .clientExpires | .serverExpires | .clientFails _ | .serverFails _ _ | .serverStops => true
  | _ => false

def step (x : Exchange) : Event → Option Exchange
  | .resolve => if x.client.chain = .pending .resolve then x.clientStep message (.ready (.ok [])) else none
  | .connect =>
    if x.client.chain = .pending .connect then
      (x.clientStep message (.ready (.ok []))).map fun x => { x with connected := true }
    else none
  | .accept mRequest major minor mReply =>
    if x.connected = true ∧ x.session.isNone then
      some { x with session := some (serverSession x.scheme.server mRequest major minor mReply) }
    else none
  | .clientHandshake =>
    if x.client.chain = .pending .handshake ∧ x.session.isSome then x.clientStep message (.ready (.ok [])) else none
  | .serverHandshake id =>
    if x.awaits id .handshake ∧ .started .handshake ∈ x.client.history then x.sessionStep app (.complete id (.ok []))
    else none
  | .sendRequest n => (x.request.send n).map fun c => { x with request := c }
  | .requestSent =>
    if x.isWriting ∧ x.request.unsent = [] then x.clientStep message (.ready (.ok [])) else none
  | .receiveRequest id n =>
    if x.awaits id .readSome then
      (x.request.receive n).bind fun c => sessionStep app { x with request := c.2 } (.complete id (.ok c.1))
    else none
  | .answer => x.due.bind fun reply => sessionStep app { x with due := none } (.reply reply)
  | .sendReply n => (x.reply.send n).map fun c => { x with reply := c }
  | .replySent id =>
    if x.awaits id .write ∧ x.reply.unsent = [] then x.sessionStep app (.complete id (.ok [])) else none
  | .receiveReply n =>
    if x.client.chain = .pending .read then
      (x.reply.receive n).bind fun c => clientStep message { x with reply := c.2 } (.ready (.ok c.1))
    else none
  | .replyEnds =>
    if x.client.chain = .pending .read ∧ x.reply.atEnd then x.clientStep message (.ready (.error .eof)) else none
  | .deliver => x.clientStep message .deliver
  | .clientWait i => x.clientStep message (.runWait i)
  | .serverWait i => x.sessionStep app (.runWait i)
  | .clientExpires => x.clientStep message .expire
  | .serverExpires => x.sessionStep app .expire
  | .clientFails ec => x.clientStep message (.ready (.error ec))
  | .serverFails id ec => x.sessionStep app (.complete id (.error ec))
  | .serverStops => x.sessionStep app .serverStop

end Exchange

def exchange (scheme : Scheme) (serverUrl serverPort : Bytes) (req : Request) (statusCode : ℕ) : Exchange where
  scheme
  client := httpClient scheme.client serverUrl serverPort req statusCode

end HttpUtils
