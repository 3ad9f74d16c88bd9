import HttpUtils.Exchange.Exchange
import HttpUtils.Server

/-!
# A server and all its peers

Any number of clients of this program, each with its connection, and any other peers: what those do to their
sessions is up to them. The server accepts connections in any order, and is stopped as a whole.
-/

namespace HttpUtils
set_option autoImplicit false

open ByteStream

structure Asked where
  serverUrl : Bytes
  serverPort : Bytes
  req : Request
  /-- The status code that nobody initialises. -/
  statusCode : ℕ
  deriving DecidableEq, Repr

structure Peer where
  asked : Asked
  client : Client
  connected : Bool := false
  /-- The number of the session that was accepted for it. -/
  number : Option ℕ := none
  request : Stream UInt8 := {}
  reply : Stream UInt8 := {}
  due : Option Reply := none

structure Network where
  scheme : Scheme
  server : Server
  peers : List Peer := []

def Peer.session (p : Peer) (sessions : List Session) : Option Session := p.number.bind fun k => sessions[k]?

def Exchange.Event.isOwn : Exchange.Event → Bool
  | .accept _ _ _ _ | .serverStops => false
  | _ => true

namespace Network

def exchange (x : Network) (p : Peer) : Exchange :=
  ⟨x.scheme, p.client, p.connected, p.session x.server.sessions, p.request, p.reply, p.due⟩

variable (app : Request → Reply) (message : Messages)

def hear (s t : List Session) (p : Peer) : Peer :=
  match p.session s, p.session t with
  | some c, some d =>
    { p with
      reply := (d.history.drop c.history.length).foldl (Exchange.hearReply d.mReplyStr) p.reply
      due := (d.history.drop c.history.length).foldl (Exchange.hearRequestHandler app) p.due }
  | _, _ => p

def put (x : Network) (i : ℕ) (p : Peer) (y : Exchange) : Network :=
  { x with
    server := { x.server with
      sessions := match p.number, y.session with
        | some k, some c => x.server.sessions.set k c
        | _, _ => x.server.sessions }
    peers := x.peers.set i { p with
      client := y.client
      connected := y.connected
      request := y.request
      reply := y.reply
      due := y.due } }

def isStranger (x : Network) : Server.Event → Bool
  | .session k _ => x.peers.all fun p => p.number ≠ some k
  | _ => true

inductive Event where
  | join (a : Asked)
  | accept (i : ℕ) (mRequest : Request) (major minor : Int) (mReply : Reply)
  | exchange (i : ℕ) (e : Exchange.Event)
  | server (e : Server.Event)
  deriving DecidableEq, Repr

/-- Faults of strangers do not count. Over tls it is one that they connect: to stop a session, the server waits for
the `close_notify` of its peer, and does nothing else. -/
def Event.isFault (scheme : Scheme) : Event → Bool
  | .exchange _ e => e.isFault
  | .server .stop => true
  | .server (.accept _ _ _ _) => scheme = .https
  | _ => false

/-- The event brings nobody else to the network. -/
def Event.isInside : Event → Bool
  | .exchange _ _ | .accept _ _ _ _ _ => true
  | _ => false

def joined (x : Network) (asked : Asked) : Peer where
  asked
  client := httpClient x.scheme.client asked.serverUrl asked.serverPort asked.req asked.statusCode

def step (x : Network) : Event → Option Network
  | .join a => some { x with peers := x.peers ++ [x.joined a] }
  | .accept i mRequest major minor mReply =>
    x.peers[i]?.bind fun p =>
      if p.connected = true ∧ p.number = none ∧ x.server.isOpen = true then
        (x.server.step (.accept mRequest major minor mReply)).map fun server =>
          { x with server, peers := x.peers.set i { p with number := some x.server.sessions.length } }
      else none
  | .exchange i e =>
    x.peers[i]?.bind fun p =>
      if e.isOwn then ((x.exchange p).step app message e).map fun y => x.put i p y else none
  | .server e =>
    if x.isStranger e then
      (x.server.step e).map fun server =>
        { x with server, peers := x.peers.map (hear app x.server.sessions server.sessions) }
    else none

end Network

def network (scheme : Scheme) : Network := { scheme, server := server scheme.server }

/-! ### Steps of the server -/

namespace Server

inductive Went (e : Event) (k : ℕ) (c : Session) : Session → Prop where
  | stays : Went e k c c
  | steps {e' : Session.Event} {d : Session} (hEvent : e = .session k e') (hStep : c.step e' = some d) : Went e k c d
  | stops (hEvent : e = .stop) (hManaged : c.managed = true) : Went e k c c.managerStop

theorem sessions_onAccept (s : Server) (accepted : Option Session) :
    (s.onAccept accepted).sessions = if s.isOpen then s.sessions ++ accepted.toList else s.sessions := by
  unfold onAccept
  split <;> rfl

theorem onAccept_getElem? (s : Server) (accepted : Option Session) {k : ℕ} {c : Session}
    (h : s.sessions[k]? = some c) :
    (s.onAccept accepted).sessions[k]? = some c := by
  obtain ⟨hLt, -⟩ := List.getElem?_eq_some_iff.mp h
  rw [sessions_onAccept]
  split
  · rw [List.getElem?_append_left hLt, h]
  · exact h

theorem session_eq_some {s t : Server} {j : ℕ} {e : Session.Event} (hStep : s.step (.session j e) = some t) :
    ∃ c d, s.sessions[j]? = some c ∧ e ≠ .serverStop ∧ c.step e = some d ∧
      t = { s with sessions := s.sessions.set j d } := by
  cases e with
  | serverStop => cases hStep
  | _ =>
    obtain ⟨c, hGet, hMap⟩ := Option.bind_eq_some_iff.mp hStep
    obtain ⟨d, hd, rfl⟩ := Option.map_eq_some_iff.mp hMap
    exact ⟨c, d, hGet, by simp, hd, rfl⟩

theorem step_went {s t : Server} {e : Event} (hStep : s.step e = some t) {k : ℕ} {c : Session}
    (hGet : s.sessions[k]? = some c) : ∃ d, t.sessions[k]? = some d ∧ Went e k c d := by
  cases e with
  | accept mRequest major minor mReply =>
    obtain ⟨-, hSome⟩ := Option.ite_none_right_eq_some.mp hStep
    obtain rfl := Option.some.inj hSome
    exact ⟨c, onAccept_getElem? s _ hGet, .stays⟩
  | acceptError =>
    obtain ⟨-, hSome⟩ := Option.ite_none_right_eq_some.mp hStep
    obtain rfl := Option.some.inj hSome
    exact ⟨c, onAccept_getElem? s _ hGet, .stays⟩
  | stop =>
    obtain rfl := Option.some.inj hStep
    refine ⟨if c.managed then c.managerStop else c, ?_, ?_⟩
    · simp only [stop, stopAll, List.getElem?_map, hGet, Option.map_some]
    · split
      · rename_i hManaged
        exact .stops rfl hManaged
      · exact .stays
  | session j e' =>
    obtain ⟨c', d, hGet', -, hd, rfl⟩ := session_eq_some hStep
    by_cases hHere : j = k
    · subst hHere
      obtain rfl := Option.some.inj (hGet.symm.trans hGet')
      obtain ⟨hLt, -⟩ := List.getElem?_eq_some_iff.mp hGet
      exact ⟨d, by rw [List.getElem?_set_self hLt], .steps rfl hd⟩
    · exact ⟨c, by rw [List.getElem?_set_ne hHere, hGet], .stays⟩

end Server

end HttpUtils
