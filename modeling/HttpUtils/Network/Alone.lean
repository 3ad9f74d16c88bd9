import HttpUtils.Network.Network
import HttpUtils.Exchange.Safety
import HttpUtils.Library.Components

/-!
# Nobody sees the others

Whatever a network does, each of its peers sees a run of an exchange of its own, and its server a run of its own.
-/

namespace HttpUtils
set_option autoImplicit false

open ByteStream

namespace Server

theorem step_frame {s t : Server} {e : Event} (hStep : s.step e = some t) :
    t.kind = s.kind ∧ s.sessions.length ≤ t.sessions.length := by
  have hAccept (accepted : Option Session) :
      (s.onAccept accepted).kind = s.kind ∧ s.sessions.length ≤ (s.onAccept accepted).sessions.length := by
    unfold onAccept
    split
    · exact ⟨rfl, by simp⟩
    · exact ⟨rfl, Nat.le_refl _⟩
  cases e with
  | accept mRequest major minor mReply =>
    obtain ⟨-, hSome⟩ := Option.ite_none_right_eq_some.mp hStep
    exact Option.some.inj hSome ▸ hAccept _
  | acceptError =>
    obtain ⟨-, hSome⟩ := Option.ite_none_right_eq_some.mp hStep
    exact Option.some.inj hSome ▸ hAccept none
  | stop =>
    obtain rfl := Option.some.inj hStep
    exact ⟨rfl, by simp [stop, stopAll]⟩
  | session j e' =>
    obtain ⟨c, d, -, -, -, rfl⟩ := session_eq_some hStep
    exact ⟨rfl, by simp⟩

end Server

variable {app : Request → Reply} {message : Messages}

/-! ### The session of an exchange -/

namespace Exchange

inductive SessionGoes : Option Session → Option Session → Prop where
  | stays (c : Option Session) : SessionGoes c c
  | steps {s t : Session} {e : Session.Event} (hOther : e ≠ .serverStop) (hStep : s.step e = some t) :
    SessionGoes (some s) (some t)

theorem SessionGoes.isSome {c d : Option Session} (h : SessionGoes c d) : d.isSome = c.isSome := by
  cases h <;> rfl

variable {x y : Exchange}

theorem clientStep_session {e : Client.Event} (hStep : x.clientStep message e = some y) :
    y.scheme = x.scheme ∧ SessionGoes x.session y.session := by
  obtain ⟨t, -, rfl⟩ := clientStep_eq_some.mp hStep
  exact ⟨rfl, .stays _⟩

theorem sessionStep_session {e : Session.Event} (hStep : x.sessionStep app e = some y) (hOther : e ≠ .serverStop) :
    y.scheme = x.scheme ∧ SessionGoes x.session y.session := by
  obtain ⟨s, hSession, hMap⟩ := Option.bind_eq_some_iff.mp hStep
  obtain ⟨t, ht, rfl⟩ := Option.map_eq_some_iff.mp hMap
  rw [hSession]
  exact ⟨rfl, .steps hOther ht⟩

theorem own_session {e : Event} (hOwn : e.isOwn = true) (hStep : x.step app message e = some y) :
    y.scheme = x.scheme ∧ SessionGoes x.session y.session := by
  cases e with
  | accept mRequest major minor mReply => cases hOwn
  | serverStops => cases hOwn
  | resolve | requestSent | clientHandshake | replyEnds =>
    obtain ⟨-, hStep⟩ := Option.ite_none_right_eq_some.mp hStep
    exact clientStep_session hStep
  | connect =>
    obtain ⟨-, hStep⟩ := Option.ite_none_right_eq_some.mp hStep
    obtain ⟨z, hz, rfl⟩ := Option.map_eq_some_iff.mp hStep
    exact clientStep_session (y := z) hz
  | serverHandshake id =>
    obtain ⟨-, hStep⟩ := Option.ite_none_right_eq_some.mp hStep
    exact sessionStep_session hStep (by simp)
  | replySent id =>
    obtain ⟨-, hStep⟩ := Option.ite_none_right_eq_some.mp hStep
    exact sessionStep_session hStep (by simp)
  | sendRequest n | sendReply n =>
    obtain ⟨c, -, rfl⟩ := Option.map_eq_some_iff.mp hStep
    exact ⟨rfl, .stays _⟩
  | receiveRequest id n =>
    obtain ⟨-, hStep⟩ := Option.ite_none_right_eq_some.mp hStep
    obtain ⟨c, -, hStep⟩ := Option.bind_eq_some_iff.mp hStep
    exact sessionStep_session (x := { x with request := c.2 }) hStep (by simp)
  | answer =>
    obtain ⟨rep, -, hStep⟩ := Option.bind_eq_some_iff.mp hStep
    exact sessionStep_session (x := { x with due := none }) hStep (by simp)
  | receiveReply n =>
    obtain ⟨-, hStep⟩ := Option.ite_none_right_eq_some.mp hStep
    obtain ⟨c, -, hStep⟩ := Option.bind_eq_some_iff.mp hStep
    exact clientStep_session (x := { x with reply := c.2 }) hStep
  | deliver | clientWait i | clientExpires | clientFails ec => exact clientStep_session hStep
  | serverWait i | serverExpires | serverFails id ec => exact sessionStep_session hStep (by simp)

end Exchange


namespace Network

/-- Each accepted session belongs to one peer at most. -/
structure Wired (x : Network) : Prop where
  kind : x.server.kind = x.scheme.server
  bound : ∀ p ∈ x.peers, ∀ k, p.number = some k → k < x.server.sessions.length
  apart : ∀ (i j : ℕ) (p q : Peer) (k : ℕ), x.peers[i]? = some p → x.peers[j]? = some q → p.number = some k →
    q.number = some k → i = j

inductive Sees (app : Request → Reply) (message : Messages) (x : Network) (e : Event) (p : Peer) (y : Network)
    (q : Peer) :
    Prop where
  | nothing (hSame : y.exchange q = x.exchange p)
  | goes (e' : Exchange.Event) (hFault : e'.isFault = true → e.isFault x.scheme = true)
      (hStep : (x.exchange p).step app message e' = some (y.exchange q))

theorem exchange_eq {x : Network} {p : Peer} {c : Option Session} (h : p.session x.server.sessions = c) :
    x.exchange p = ⟨x.scheme, p.client, p.connected, c, p.request, p.reply, p.due⟩ := by
  rw [← h]
  rfl

theorem session_of_wired {x : Network} (h : x.Wired) {p : Peer} (hp : p ∈ x.peers) :
    p.number = none ∧ p.session x.server.sessions = none ∨
      ∃ k c, p.number = some k ∧ x.server.sessions[k]? = some c ∧ p.session x.server.sessions = some c := by
  cases hNumber : p.number with
  | none => exact .inl ⟨rfl, by rw [Peer.session, hNumber]; rfl⟩
  | some k =>
    have hLt := h.bound p hp k hNumber
    refine .inr ⟨k, x.server.sessions[k], rfl, List.getElem?_eq_getElem hLt, ?_⟩
    rw [Peer.session, hNumber]
    exact List.getElem?_eq_getElem hLt

variable {x y : Network}

theorem wired_network (scheme : Scheme) : (network scheme).Wired where
  kind := rfl
  bound _ hp := nomatch hp
  apart _ _ _ _ _ hp := nomatch hp

/-! ### The steps, one by one -/

theorem Wired.server (h : x.Wired) {e : Server.Event} (hStranger : x.isStranger e = true) {server : Server}
    (hStep : x.server.step e = some server) {p : Peer} (hp : p ∈ x.peers) :
    Sees app message x (.server e) p
      { x with server, peers := x.peers.map (hear app x.server.sessions server.sessions) }
      (hear app x.server.sessions server.sessions p) := by
  rcases session_of_wired h hp with ⟨hNumber, hNone⟩ | ⟨k, c, hNumber, hGet, hSome⟩
  · have hSame : hear app x.server.sessions server.sessions p = p := by simp only [hear, hNone]
    rw [hSame]
    refine .nothing ?_
    simp only [exchange, Peer.session, hNumber, Option.bind_none]
  · obtain ⟨d, hGet', hWent⟩ := Server.step_went hStep hGet
    have hSome' : p.session server.sessions = some d := by rw [Peer.session, hNumber]; exact hGet'
    cases hWent with
    | stays =>
      have hSame : hear app x.server.sessions server.sessions p = p := by
        simp only [hear, hSome, hSome', List.drop_length, List.foldl_nil]
      rw [hSame]
      refine .nothing ?_
      simp only [exchange, hSome, hSome']
    | steps hEvent _ =>
      subst hEvent
      have hOther := List.all_eq_true.mp hStranger p hp
      simp [hNumber] at hOther
    | stops hEvent hManaged =>
      refine .goes .serverStops (fun _ => by rw [hEvent]; rfl) ?_
      have hSession : (x.exchange p).session = some c := hSome
      have hStop : c.step .serverStop = some c.managerStop := if_pos hManaged
      show (x.exchange p).sessionStep app .serverStop = _
      rw [Exchange.sessionStep, hSession, Option.bind_some, hStop, Option.map_some]
      have hHear : hear app x.server.sessions server.sessions p = { p with
          reply := (c.managerStop.history.drop c.history.length).foldl
            (Exchange.hearReply c.managerStop.mReplyStr) p.reply
          due := (c.managerStop.history.drop c.history.length).foldl (Exchange.hearRequestHandler app) p.due } := by
        simp only [hear, hSome, hSome']
      have hAfter : Peer.session (hear app x.server.sessions server.sessions p)
          server.sessions = some c.managerStop := by
        rw [hHear]
        exact hSome'
      rw [exchange_eq (x := ⟨x.scheme, server, _⟩) hAfter, hHear]
      rfl

structure Moves (app : Request → Reply) (message : Messages) (x : Network) (i : ℕ) (e : Exchange.Event)
    (y : Network) :
    Prop where
  length : y.peers.length = x.peers.length
  here : ∀ p, x.peers[i]? = some p → ∃ p', y.peers[i]? = some p' ∧ p'.asked = p.asked ∧
    (x.exchange p).step app message e = some (y.exchange p')
  others : ∀ j q, i ≠ j → x.peers[j]? = some q → y.peers[j]? = some q ∧ y.exchange q = x.exchange q

theorem Wired.accept (h : x.Wired) {i : ℕ} {p : Peer} (hGet : x.peers[i]? = some p) (hConnected : p.connected = true)
    (hNumber : p.number = none) (hOpen : x.server.isOpen = true) {mRequest : Request} {major minor : Int}
    {mReply : Reply}
    {server : Server} (hStep : x.server.step (.accept mRequest major minor mReply) = some server) :
    Moves app message x i (.accept mRequest major minor mReply)
      { x with server, peers := x.peers.set i { p with number := some x.server.sessions.length } } := by
  obtain ⟨-, hSome⟩ := Option.ite_none_right_eq_some.mp hStep
  obtain rfl := Option.some.inj hSome
  have hSessions := Server.sessions_onAccept x.server (some (serverSession x.server.kind mRequest major minor mReply))
  rw [if_pos hOpen, Option.toList_some] at hSessions
  refine ⟨List.length_set, ?_, ?_⟩
  · intro q hq
    obtain rfl := Option.some.inj (hGet.symm.trans hq)
    obtain ⟨hLt, -⟩ := List.getElem?_eq_some_iff.mp hGet
    refine ⟨_, List.getElem?_set_self hLt, rfl, ?_⟩
    have hNone : p.session x.server.sessions = none := by rw [Peer.session, hNumber]; rfl
    have hNew : Peer.session { p with number := some x.server.sessions.length }
        (x.server.onAccept (some (serverSession x.server.kind mRequest major minor mReply))).sessions =
          some (serverSession x.server.kind mRequest major minor mReply) := by
      rw [Peer.session, hSessions]
      simp
    rw [exchange_eq hNone, exchange_eq hNew, h.kind]
    simp only [Exchange.step, hConnected]
    rfl
  · intro j q hHere hq
    refine ⟨by rw [List.getElem?_set_ne hHere, hq], ?_⟩
    rcases session_of_wired h (List.mem_of_getElem? hq) with ⟨hNumber', hNone⟩ | ⟨k, c, hNumber', hGet', hSome'⟩
    · rw [exchange_eq hNone]
      refine exchange_eq ?_
      rw [Peer.session, hNumber']
      rfl
    · rw [exchange_eq hSome']
      refine exchange_eq ?_
      rw [Peer.session, hNumber']
      exact Server.onAccept_getElem? x.server _ hGet'

theorem Wired.put_sessions (h : x.Wired) {p : Peer} (hp : p ∈ x.peers) {z : Exchange}
    (hGoes : Exchange.SessionGoes (p.session x.server.sessions) z.session) (i : ℕ) :
    p.number = none ∧ z.session = none ∧ (x.put i p z).server.sessions = x.server.sessions ∨
      ∃ k c d, p.number = some k ∧ x.server.sessions[k]? = some c ∧ z.session = some d ∧
        Exchange.SessionGoes (some c) (some d) ∧ (x.put i p z).server.sessions = x.server.sessions.set k d := by
  have hSome := hGoes.isSome
  rcases session_of_wired h hp with ⟨hNumber, hNone⟩ | ⟨k, c, hNumber, hGet, hSession⟩
  · rw [hNone, Option.isSome_none, Option.isSome_eq_false_iff, Option.isNone_iff_eq_none] at hSome
    refine .inl ⟨hNumber, hSome, ?_⟩
    simp only [put, hNumber]
  · rw [hSession, Option.isSome_some, Option.isSome_iff_exists] at hSome
    obtain ⟨d, hd⟩ := hSome
    rw [hSession, hd] at hGoes
    refine .inr ⟨k, c, d, hNumber, hGet, hd, hGoes, ?_⟩
    simp only [put, hNumber, hd]

theorem Wired.exchange (h : x.Wired) {i : ℕ} {p : Peer} (hGet : x.peers[i]? = some p) {e : Exchange.Event}
    (hOwn : e.isOwn = true) {z : Exchange} (hStep : (x.exchange p).step app message e = some z) :
    Moves app message x i e (x.put i p z) := by
  obtain ⟨hScheme, hGoes⟩ := Exchange.own_session hOwn hStep
  have hPut := h.put_sessions (List.mem_of_getElem? hGet) hGoes i
  refine ⟨List.length_set, ?_, ?_⟩
  · intro q hq
    obtain rfl := Option.some.inj (hGet.symm.trans hq)
    obtain ⟨hLt, -⟩ := List.getElem?_eq_some_iff.mp hGet
    refine ⟨_, List.getElem?_set_self hLt, rfl, ?_⟩
    rw [hStep, exchange_eq (c := z.session)]
    · obtain ⟨scheme, client, connected, session, request, reply, due⟩ := z
      obtain rfl : scheme = x.scheme := hScheme
      rfl
    · rcases hPut with ⟨hNumber, hNone, -⟩ | ⟨k, c, d, hNumber, hGet', hSome, -, hSessions⟩
      · rw [Peer.session, hNumber, hNone]
        rfl
      · obtain ⟨hLt', -⟩ := List.getElem?_eq_some_iff.mp hGet'
        rw [Peer.session, hNumber, hSome, hSessions]
        exact List.getElem?_set_self hLt'
  · intro j q hHere hq
    refine ⟨by rw [put, List.getElem?_set_ne hHere, hq], exchange_eq ?_⟩
    rcases hPut with ⟨-, -, hSessions⟩ | ⟨k, c, d, hNumber, -, -, -, hSessions⟩
    · rw [hSessions]
    · rw [hSessions]
      cases hOther : q.number with
      | none =>
        rw [Peer.session, Peer.session, hOther]
        rfl
      | some k' =>
        have hNe : k ≠ k' := by
          rintro rfl
          exact hHere (h.apart i j p q k hGet hq hNumber hOther)
        simp only [Peer.session, hOther, Option.bind_some]
        rw [List.getElem?_set_ne hNe]

/-! ### Every step -/

theorem hear_number (s t : List Session) (p : Peer) : (hear app s t p).number = p.number ∧
    (hear app s t p).asked = p.asked := by
  unfold hear
  split <;> exact ⟨rfl, rfl⟩

/-- An event inside the network is one of a single peer. -/
theorem Wired.inside (h : x.Wired) {e : Event} (hInside : e.isInside = true) (hStep : x.step app message e = some y) :
    ∃ i p e', x.peers[i]? = some p ∧ (e'.isFault = true → e.isFault x.scheme = true) ∧
      Moves app message x i e' y := by
  cases e with
  | join a => cases hInside
  | server e => cases hInside
  | accept i mRequest major minor mReply =>
    obtain ⟨p, hGet, hStep⟩ := Option.bind_eq_some_iff.mp hStep
    obtain ⟨⟨hConnected, hNumber, hOpen⟩, hStep⟩ := Option.ite_none_right_eq_some.mp hStep
    obtain ⟨server, hServer, rfl⟩ := Option.map_eq_some_iff.mp hStep
    exact ⟨i, p, .accept mRequest major minor mReply, hGet, id,
      h.accept hGet hConnected hNumber hOpen hServer⟩
  | exchange i e =>
    obtain ⟨p, hGet, hStep⟩ := Option.bind_eq_some_iff.mp hStep
    obtain ⟨hOwn, hStep⟩ := Option.ite_none_right_eq_some.mp hStep
    obtain ⟨z, hz, rfl⟩ := Option.map_eq_some_iff.mp hStep
    exact ⟨i, p, e, hGet, id, h.exchange hGet hOwn hz⟩

/-- A peer sees nothing of what the others do, and a step of its exchange of what concerns it. -/
theorem Wired.sees (h : x.Wired) {e : Event} (hStep : x.step app message e = some y) {j : ℕ} {q : Peer}
    (hq : x.peers[j]? = some q) : ∃ q', y.peers[j]? = some q' ∧ q'.asked = q.asked ∧ Sees app message x e q y q' := by
  by_cases hInside : e.isInside = true
  · obtain ⟨i, p, e', -, hFault, hMoves⟩ := h.inside hInside hStep
    by_cases hHere : i = j
    · subst hHere
      obtain ⟨q', hq', hAsked, hGoes⟩ := hMoves.here q hq
      exact ⟨q', hq', hAsked, .goes e' hFault hGoes⟩
    · obtain ⟨hq', hSame⟩ := hMoves.others j q hHere hq
      exact ⟨q, hq', rfl, .nothing hSame⟩
  · cases e with
    | join a =>
      obtain rfl := Option.some.inj hStep
      obtain ⟨hLt, -⟩ := List.getElem?_eq_some_iff.mp hq
      exact ⟨q, by rw [List.getElem?_append_left hLt, hq], rfl, .nothing rfl⟩
    | accept i mRequest major minor mReply => exact absurd rfl hInside
    | exchange i e => exact absurd rfl hInside
    | server e =>
      obtain ⟨hStranger, hStep⟩ := Option.ite_none_right_eq_some.mp hStep
      obtain ⟨server, hServer, rfl⟩ := Option.map_eq_some_iff.mp hStep
      refine ⟨_, by rw [List.getElem?_map, hq, Option.map_some], ?_,
        h.server hStranger hServer (List.mem_of_getElem? hq)⟩
      exact (hear_number _ _ q).2

/-! ### Every run -/

theorem Wired.of_numbers (h : x.Wired) (hKind : y.server.kind = y.scheme.server)
    (hNumbers : y.peers.map Peer.number = x.peers.map Peer.number)
    (hLength : x.server.sessions.length ≤ y.server.sessions.length) : y.Wired := by
  have hBefore {i : ℕ} {p : Peer} (hp : y.peers[i]? = some p) : ∃ p', x.peers[i]? = some p' ∧
      p'.number = p.number := by
    have hGet : (x.peers.map Peer.number)[i]? = some p.number := by rw [← hNumbers, List.getElem?_map, hp]; rfl
    rw [List.getElem?_map, Option.map_eq_some_iff] at hGet
    exact hGet
  refine ⟨hKind, ?_, ?_⟩
  · intro p hp k hk
    obtain ⟨i, hi⟩ := List.mem_iff_getElem?.mp hp
    obtain ⟨p', hp', hSame⟩ := hBefore hi
    exact (h.bound p' (List.mem_of_getElem? hp') k (hSame.trans hk)).trans_le hLength
  · intro i j p q k hp hq hk hk'
    obtain ⟨p', hp', hSame⟩ := hBefore hp
    obtain ⟨q', hq', hSame'⟩ := hBefore hq
    exact h.apart i j p' q' k hp' hq' (hSame.trans hk) (hSame'.trans hk')

theorem Wired.accepted (h : x.Wired) {i : ℕ} {p : Peer} {server : Server} {c : Session}
    (hKind : server.kind = x.server.kind) (hSessions : server.sessions = x.server.sessions ++ [c]) :
    Wired { x with server, peers := x.peers.set i { p with number := some x.server.sessions.length } } := by
  have hOld {j : ℕ} {q : Peer} (hq : (x.peers.set i { p with number := some x.server.sessions.length })[j]? =
      some q) :
      i = j ∧ q.number = some x.server.sessions.length ∨ i ≠ j ∧ x.peers[j]? = some q := by
    by_cases hHere : i = j
    · subst hHere
      obtain ⟨hLt, -⟩ := List.getElem?_eq_some_iff.mp hq
      rw [List.length_set] at hLt
      rw [List.getElem?_set_self hLt] at hq
      exact .inl ⟨rfl, by rw [← Option.some.inj hq]⟩
    · rw [List.getElem?_set_ne hHere] at hq
      exact .inr ⟨hHere, hq⟩
  have hBound {j : ℕ} {q : Peer} {k : ℕ} (hq : x.peers[j]? = some q) (hk : q.number = some k) :
      k < x.server.sessions.length := h.bound q (List.mem_of_getElem? hq) k hk
  refine ⟨hKind.trans h.kind, ?_, ?_⟩
  · intro q hq k hk
    simp only [hSessions, List.length_append, List.length_singleton]
    obtain ⟨j, hj⟩ := List.mem_iff_getElem?.mp hq
    rcases hOld hj with ⟨-, hNew⟩ | ⟨-, hBefore⟩
    · rw [hNew] at hk
      have hEq := Option.some.inj hk
      omega
    · have hLt := hBound hBefore hk
      omega
  · intro j j' q q' k hq hq' hk hk'
    rcases hOld hq with ⟨rfl, hNew⟩ | ⟨-, hBefore⟩
    · rcases hOld hq' with ⟨rfl, -⟩ | ⟨-, hBefore'⟩
      · rfl
      · have hLt := hBound hBefore' hk'
        rw [hNew] at hk
        have hEq := Option.some.inj hk
        omega
    · rcases hOld hq' with ⟨rfl, hNew'⟩ | ⟨-, hBefore'⟩
      · have hLt := hBound hBefore hk
        rw [hNew'] at hk'
        have hEq := Option.some.inj hk'
        omega
      · exact h.apart j j' q q' k hBefore hBefore' hk hk'

theorem wired_step : PartialRun.Preserves (step app message) Wired := by
  intro x e y h hStep
  cases e with
  | join a =>
    obtain rfl := Option.some.inj hStep
    refine ⟨h.kind, ?_, ?_⟩
    · intro p hp k hk
      rcases List.mem_append.mp hp with hp | hp
      · exact h.bound p hp k hk
      · obtain rfl := List.mem_singleton.mp hp
        cases hk
    · have hOld {i : ℕ} {p : Peer} {k : ℕ} (hk : p.number = some k)
          (hp : (x.peers ++ [x.joined a])[i]? = some p) : x.peers[i]? = some p := by
        rcases Nat.lt_or_ge i x.peers.length with hLt | hGe
        · rwa [List.getElem?_append_left hLt] at hp
        · rw [List.getElem?_append_right hGe] at hp
          obtain rfl := List.mem_singleton.mp (List.mem_of_getElem? hp)
          cases hk
      intro i j p q k hp hq hk hk'
      exact h.apart i j p q k (hOld hk hp) (hOld hk' hq) hk hk'
  | accept i mRequest major minor mReply =>
    obtain ⟨p, hGet, hStep⟩ := Option.bind_eq_some_iff.mp hStep
    obtain ⟨⟨-, -, hOpen⟩, hStep⟩ := Option.ite_none_right_eq_some.mp hStep
    obtain ⟨server, hServer, rfl⟩ := Option.map_eq_some_iff.mp hStep
    obtain ⟨-, hSome⟩ := Option.ite_none_right_eq_some.mp hServer
    obtain rfl := Option.some.inj hSome
    refine h.accepted (c := serverSession x.server.kind mRequest major minor mReply) (Server.step_frame hServer).1 ?_
    rw [Server.sessions_onAccept, if_pos hOpen, Option.toList_some]
  | exchange i e =>
    obtain ⟨p, hGet, hStep⟩ := Option.bind_eq_some_iff.mp hStep
    obtain ⟨hOwn, hStep⟩ := Option.ite_none_right_eq_some.mp hStep
    obtain ⟨z, hz, rfl⟩ := Option.map_eq_some_iff.mp hStep
    obtain ⟨-, hGoes⟩ := Exchange.own_session hOwn hz
    refine h.of_numbers h.kind ?_ ?_
    · refine List.ext_getElem? fun j => ?_
      rw [put, List.getElem?_map, List.getElem?_map]
      by_cases hHere : i = j
      · subst hHere
        obtain ⟨hLt, -⟩ := List.getElem?_eq_some_iff.mp hGet
        rw [List.getElem?_set_self hLt, hGet]
        rfl
      · rw [List.getElem?_set_ne hHere]
    · rcases h.put_sessions (List.mem_of_getElem? hGet) hGoes i with
        ⟨-, -, hSessions⟩ | ⟨k, c, d, -, -, -, -, hSessions⟩
      · rw [hSessions]
      · rw [hSessions, List.length_set]
  | server e =>
    obtain ⟨hStranger, hStep⟩ := Option.ite_none_right_eq_some.mp hStep
    obtain ⟨server, hServer, rfl⟩ := Option.map_eq_some_iff.mp hStep
    obtain ⟨hKind, hLength⟩ := Server.step_frame hServer
    refine h.of_numbers (hKind.trans h.kind) ?_ hLength
    rw [List.map_map]
    exact List.map_congr_left fun p _ => (hear_number _ _ p).1

theorem step_scheme {e : Event} (hStep : x.step app message e = some y) : y.scheme = x.scheme := by
  cases e with
  | join a =>
    obtain rfl := Option.some.inj hStep
    rfl
  | accept i mRequest major minor mReply =>
    obtain ⟨p, -, hStep⟩ := Option.bind_eq_some_iff.mp hStep
    obtain ⟨-, hStep⟩ := Option.ite_none_right_eq_some.mp hStep
    obtain ⟨server, -, rfl⟩ := Option.map_eq_some_iff.mp hStep
    rfl
  | exchange i e =>
    obtain ⟨p, -, hStep⟩ := Option.bind_eq_some_iff.mp hStep
    obtain ⟨-, hStep⟩ := Option.ite_none_right_eq_some.mp hStep
    obtain ⟨z, -, rfl⟩ := Option.map_eq_some_iff.mp hStep
    rfl
  | server e =>
    obtain ⟨-, hStep⟩ := Option.ite_none_right_eq_some.mp hStep
    obtain ⟨server, -, rfl⟩ := Option.map_eq_some_iff.mp hStep
    rfl

theorem Wired.length (h : x.Wired) {e : Event} (hStep : x.step app message e = some y) (hOld : ∀ a, e ≠ .join a) :
    y.peers.length = x.peers.length := by
  cases e with
  | join a => exact absurd rfl (hOld a)
  | accept i mRequest major minor mReply =>
    obtain ⟨i, p, e', -, -, hMoves⟩ := h.inside rfl hStep
    exact hMoves.length
  | exchange i e =>
    obtain ⟨i, p, e', -, -, hMoves⟩ := h.inside rfl hStep
    exact hMoves.length
  | server e =>
    obtain ⟨-, hStep⟩ := Option.ite_none_right_eq_some.mp hStep
    obtain ⟨server, -, rfl⟩ := Option.map_eq_some_iff.mp hStep
    exact List.length_map _

theorem Wired.peer_step (h : x.Wired) {e : Event} (hStep : x.step app message e = some y) {q' : Peer}
    (hq' : q' ∈ y.peers) :
    (∃ a, e = .join a ∧ q' = x.joined a) ∨ ∃ q ∈ x.peers, q'.asked = q.asked ∧ Sees app message x e q y q' := by
  obtain ⟨j, hj⟩ := List.mem_iff_getElem?.mp hq'
  rcases Nat.lt_or_ge j x.peers.length with hLt | hGe
  · have hGet := List.getElem?_eq_getElem hLt
    obtain ⟨q'', hAfter, hAsked, hSees⟩ := h.sees hStep hGet
    obtain rfl := Option.some.inj (hj.symm.trans hAfter)
    exact .inr ⟨_, List.getElem_mem hLt, hAsked, hSees⟩
  · by_cases hJoin : ∃ a, e = .join a
    · obtain ⟨a, rfl⟩ := hJoin
      obtain rfl := Option.some.inj hStep
      rw [List.getElem?_append_right hGe] at hj
      exact .inl ⟨a, rfl, List.mem_singleton.mp (List.mem_of_getElem? hj)⟩
    · have hLength := h.length hStep fun a hEq => hJoin ⟨a, hEq⟩
      obtain ⟨hLt, -⟩ := List.getElem?_eq_some_iff.mp hj
      omega

/-- What an exchange takes part in, when the events of a network are those of `events`. -/
def Concerns (scheme : Scheme) (events : List Event) (e' : Exchange.Event) : Prop :=
  ∃ e ∈ events, e'.isFault = true → e.isFault scheme = true

/-- In every run of a network: each peer has seen a run of an exchange of its own, with no fault but those of the
network that concern it. -/
theorem reaches_exchange {scheme : Scheme} {events : List Event} {x : Network}
    (hRun : PartialRun.run (step app message) (network scheme) events = some x) :
    x.Wired ∧ x.scheme = scheme ∧ ∀ p ∈ x.peers, PartialRun.Reaches (Exchange.step app message)
    (Concerns scheme events)
      (HttpUtils.exchange scheme p.asked.serverUrl p.asked.serverPort p.asked.req p.asked.statusCode)
      (x.exchange p) := by
  have hAlong : PartialRun.Along (step app message) (fun _ e => e ∈ events) (network scheme) events :=
    PartialRun.along_of_forall_mem (fun e he _ => he) _
  refine hAlong.run (I := fun x => x.Wired ∧ x.scheme = scheme ∧ ∀ p ∈ x.peers,
    PartialRun.Reaches (Exchange.step app message) (Concerns scheme events)
      (HttpUtils.exchange scheme p.asked.serverUrl p.asked.serverPort p.asked.req p.asked.statusCode)
        (x.exchange p)) ?_
    ⟨wired_network scheme, rfl, fun p hp => nomatch hp⟩ hRun
  rintro x e y ⟨hWired, hScheme, hReaches⟩ hMem hStep
  refine ⟨wired_step x e y hWired hStep, (step_scheme hStep).trans hScheme, ?_⟩
  intro q' hq'
  rcases hWired.peer_step hStep hq' with ⟨a, rfl, rfl⟩ | ⟨q, hq, hAsked, hSees⟩
  · obtain rfl := Option.some.inj hStep
    subst hScheme
    exact .refl _
  · rw [hAsked]
    cases hSees with
    | nothing hSame => exact hSame ▸ hReaches q hq
    | goes e' hFault hGoes => exact (hReaches q hq).next ⟨e, hMem, hScheme ▸ hFault⟩ hGoes

end Network

end HttpUtils
