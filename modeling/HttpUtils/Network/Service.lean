import HttpUtils.Network.Alone
import HttpUtils.Exchange.Termination

/-!
# What a server does for each of its clients

Whatever the others do, what a client tells its caller comes from the reply to its own request; and without faults
every client is answered.
-/

namespace HttpUtils
set_option autoImplicit false

/-- The request can be sent, and so can every reply to it. -/
structure Asked.Fine (app : Request → Reply) (a : Asked) : Prop where
  req : a.req.Encodable a.serverUrl a.serverPort
  reply : ∀ q, q.Agrees a.req → (app q).Encodable

namespace Exchange

/-- The caller was told, once and without an error, what the handler replied to its request. -/
def Answered (app : Request → Reply) (r : Request) (x : Exchange) : Prop :=
  ∃ q rep, x.handedOver = [q] ∧ q.Agrees r ∧ x.client.answers = [([], rep)] ∧
    rep.statusCode = (app q).statusCode ∧ rep.content = (app q).content

def Unfailed (app : Request → Reply) (a : Asked) (x : Exchange) : Prop :=
  ∃ stage, x.Sound app a.req a.serverUrl a.serverPort stage [] x.client.got ∧
    x.Intact app a.req a.serverUrl a.serverPort stage [] x.client.got

variable {app : Request → Reply} {message : Messages} {a : Asked} {x y : Exchange} {e : Event}

theorem Unfailed.step (h : x.Unfailed app a) (ha : a.Fine app) (hClean : e.isFault = false)
    (hStep : x.step app message e = some y) : y.Unfailed app a ∧ y.Sooner x := by
  obtain ⟨stage, hSound, hIntact⟩ := h
  exact ⟨intact_step ha.req ha.reply hClean hSound hIntact hStep, sooner_step ha.req ha.reply hClean hSound
    hIntact hStep⟩

theorem Unfailed.goes_on (h : x.Unfailed app a) (ha : a.Fine app) (message : Messages) :
    x.Answered app a.req ∨ ∃ e, x.Proceeds app message e := by
  obtain ⟨stage, hSound, hIntact⟩ := h
  by_cases hIdle : x.client.chain = .idle
  · exact .inl (hIntact.answered hSound ha.reply hIdle)
  · exact .inr (hIntact.proceeds hSound hIdle)

end Exchange

namespace Network

variable {app : Request → Reply} {message : Messages} {x y : Network} {e : Event}

/-! ### Without faults -/

structure Unfailed (app : Request → Reply) (x : Network) : Prop where
  wired : x.Wired
  listening : x.server.isOpen = true ∧ x.server.accepting = true
  asked : ∀ p ∈ x.peers, p.asked.Fine app
  peers : ∀ p ∈ x.peers, (x.exchange p).Unfailed app p.asked

theorem listening_onAccept {s : Server} (h : s.isOpen = true ∧ s.accepting = true) (accepted : Option Session) :
    (s.onAccept accepted).isOpen = true ∧ (s.onAccept accepted).accepting = true := by
  unfold Server.onAccept
  rw [if_pos h.1]
  exact h

theorem listening_server {s t : Server} {e : Server.Event} (hOther : e ≠ .stop) (hStep : s.step e = some t)
    (h : s.isOpen = true ∧ s.accepting = true) : t.isOpen = true ∧ t.accepting = true := by
  cases e with
  | stop => exact absurd rfl hOther
  | accept mRequest major minor mReply =>
    obtain ⟨-, hSome⟩ := Option.ite_none_right_eq_some.mp hStep
    exact Option.some.inj hSome ▸ listening_onAccept h _
  | acceptError =>
    obtain ⟨-, hSome⟩ := Option.ite_none_right_eq_some.mp hStep
    exact Option.some.inj hSome ▸ listening_onAccept h none
  | session j e =>
    obtain ⟨c, d, -, -, -, rfl⟩ := Server.session_eq_some hStep
    exact h

theorem listening_step (hClean : e.isFault x.scheme = false) (hStep : x.step app message e = some y)
    (h : x.server.isOpen = true ∧ x.server.accepting = true) : y.server.isOpen = true ∧
      y.server.accepting = true := by
  cases e with
  | join a => exact Option.some.inj hStep ▸ h
  | accept i mRequest major minor mReply =>
    obtain ⟨p, -, hStep⟩ := Option.bind_eq_some_iff.mp hStep
    obtain ⟨-, hStep⟩ := Option.ite_none_right_eq_some.mp hStep
    obtain ⟨server, hServer, rfl⟩ := Option.map_eq_some_iff.mp hStep
    exact listening_server (by simp) hServer h
  | exchange i e =>
    obtain ⟨p, -, hStep⟩ := Option.bind_eq_some_iff.mp hStep
    obtain ⟨-, hStep⟩ := Option.ite_none_right_eq_some.mp hStep
    obtain ⟨z, -, rfl⟩ := Option.map_eq_some_iff.mp hStep
    exact h
  | server e =>
    obtain ⟨-, hStep⟩ := Option.ite_none_right_eq_some.mp hStep
    obtain ⟨server, hServer, rfl⟩ := Option.map_eq_some_iff.mp hStep
    refine listening_server ?_ hServer h
    rintro rfl
    cases hClean

theorem unfailed_of_run {scheme : Scheme} {events : List Event} (hClean : ∀ e ∈ events, e.isFault scheme = false)
    (hAsked : ∀ p ∈ x.peers, p.asked.Fine app)
    (hRun : PartialRun.run (step app message) (network scheme) events = some x) : x.Unfailed app := by
  obtain ⟨hWired, -, hReaches⟩ := reaches_exchange hRun
  have hAlong : PartialRun.Along (step app message) (fun _ e => e.isFault scheme = false) (network scheme) events :=
    PartialRun.along_of_forall_mem (fun e he _ => hClean e he) _
  refine ⟨hWired, ?_, hAsked, ?_⟩
  · refine (hAlong.run (I := fun x : Network =>
      x.scheme = scheme ∧ x.server.isOpen = true ∧ x.server.accepting = true) ?_ ⟨rfl, rfl, rfl⟩ hRun).2
    rintro x e y ⟨hScheme, h⟩ hClean hStep
    exact ⟨(step_scheme hStep).trans hScheme, listening_step (hScheme ▸ hClean) hStep h⟩
  · intro p hp
    obtain ⟨es, hEs, hOwn⟩ := hReaches p hp
    refine Exchange.exists_intact (hAsked p hp).req (hAsked p hp).reply ?_ hOwn
    intro e' he'
    obtain ⟨e, he, hFault⟩ := hEs e' he'
    rw [← Bool.not_eq_true]
    intro hBad
    exact absurd (hFault hBad) (by simp [hClean e he])

theorem Moves.exchanges {i : ℕ} {e' : Exchange.Event} (h : Moves app message x i e' y) {p : Peer}
    (hGet : x.peers[i]? = some p) :
    y.peers.map Peer.asked = x.peers.map Peer.asked ∧
      ∃ z, (x.exchange p).step app message e' = some z ∧ y.peers.map y.exchange = (x.peers.map x.exchange).set i
        z := by
  obtain ⟨p', hGet', hAsked, hGoes⟩ := h.here p hGet
  have hPeer (j : ℕ) : i ≠ j → y.peers[j]? = x.peers[j]? := by
    intro hNe
    cases hOther : x.peers[j]? with
    | none =>
      rw [List.getElem?_eq_none_iff] at hOther ⊢
      rw [h.length]
      exact hOther
    | some q => exact (h.others j q hNe hOther).1
  refine ⟨List.ext_getElem? fun j => ?_, _, hGoes, List.ext_getElem? fun j => ?_⟩
  · by_cases hHere : i = j
    · subst hHere
      rw [List.getElem?_map, List.getElem?_map, hGet, hGet', Option.map_some, Option.map_some, hAsked]
    · rw [List.getElem?_map, List.getElem?_map, hPeer j hHere]
  · by_cases hHere : i = j
    · subst hHere
      obtain ⟨hLt, -⟩ := List.getElem?_eq_some_iff.mp hGet
      rw [List.getElem?_set_self (by rwa [List.length_map]), List.getElem?_map, hGet', Option.map_some]
    · rw [List.getElem?_set_ne hHere, List.getElem?_map, List.getElem?_map, hPeer j hHere]
      cases hOther : x.peers[j]? with
      | none => rfl
      | some q => exact congrArg some (h.others j q hHere hOther).2

def Sooner (y x : Network) : Prop := PartialRun.OneGoes Exchange.Sooner (y.peers.map y.exchange)
    (x.peers.map x.exchange)

theorem wellFounded_sooner : WellFounded Sooner :=
  InvImage.wf (fun x : Network => x.peers.map x.exchange) (PartialRun.wellFounded_oneGoes Exchange.wellFounded_sooner)

theorem Unfailed.step (h : x.Unfailed app) (hClean : e.isFault x.scheme = false) (hInside : e.isInside = true)
    (hStep : x.step app message e = some y) :
    y.Unfailed app ∧ y.Sooner x ∧ y.peers.map Peer.asked = x.peers.map Peer.asked := by
  obtain ⟨i, p, e', hGet, hFault, hMoves⟩ := h.wired.inside hInside hStep
  obtain ⟨hAsked, z, hz, hExchanges⟩ := hMoves.exchanges hGet
  have hp := List.mem_of_getElem? hGet
  have hClean' : e'.isFault = false := by
    rw [← Bool.not_eq_true]
    intro hBad
    exact absurd (hFault hBad) (by simp [hClean])
  have hSooner := ((h.peers p hp).step (h.asked p hp) hClean' hz).2
  refine ⟨⟨wired_step x e y h.wired hStep, listening_step hClean hStep h.listening, ?_, ?_⟩, ?_, hAsked⟩
  · intro q hq
    have hMem : q.asked ∈ x.peers.map Peer.asked := hAsked ▸ List.mem_map_of_mem hq
    obtain ⟨q', hq', hSame⟩ := List.mem_map.mp hMem
    exact hSame ▸ h.asked q' hq'
  · intro q hq
    rcases h.wired.peer_step hStep hq with ⟨a, rfl, -⟩ | ⟨q', hq', hSame, hSees⟩
    · cases hInside
    · rw [hSame]
      cases hSees with
      | nothing hNothing => exact hNothing ▸ h.peers q' hq'
      | goes e'' hFault' hGoes =>
        refine ((h.peers q' hq').step (h.asked q' hq') ?_ hGoes).1
        rw [← Bool.not_eq_true]
        intro hBad
        exact absurd (hFault' hBad) (by simp [hClean])
  · refine ⟨i, x.exchange p, z, ?_, hSooner, hExchanges⟩
    rw [List.getElem?_map, hGet, Option.map_some]

/-- As long as a peer is not answered, something can happen. -/
theorem Unfailed.goes_on (h : x.Unfailed app) (message : Messages) :
    (∀ p ∈ x.peers, (x.exchange p).Answered app p.asked.req) ∨
    ∃ e y, e.isFault x.scheme = false ∧ e.isInside = true ∧ x.step app message e = some y := by
  by_cases hAll : ∀ p ∈ x.peers, (x.exchange p).Answered app p.asked.req
  · exact .inl hAll
  right
  push Not at hAll
  obtain ⟨p, hp, hNot⟩ := hAll
  obtain ⟨i, hGet⟩ := List.mem_iff_getElem?.mp hp
  obtain ⟨e, hClean, -, hSome⟩ := ((h.peers p hp).goes_on (h.asked p hp) message).resolve_left hNot
  obtain ⟨z, hz⟩ := Option.isSome_iff_exists.mp hSome
  by_cases hOwn : e.isOwn = true
  · refine ⟨.exchange i e, x.put i p z, hClean, rfl, ?_⟩
    rw [Network.step, hGet, Option.bind_some, if_pos hOwn, hz, Option.map_some]
  · cases e with
    | serverStops => cases hClean
    | accept mRequest major minor mReply =>
      obtain ⟨⟨hConnected, hNone⟩, -⟩ := Option.ite_none_right_eq_some.mp hz
      have hNumber : p.number = none := by
        rcases session_of_wired h.wired hp with ⟨hNumber, -⟩ | ⟨k, c, -, -, hSession⟩
        · exact hNumber
        · rw [exchange_eq hSession] at hNone
          cases hNone
      have hServer : x.server.step (.accept mRequest major minor mReply) =
          some (x.server.onAccept (some (serverSession x.server.kind mRequest major minor mReply))) :=
            if_pos h.listening.2
      refine ⟨.accept i mRequest major minor mReply, { x with
        server := x.server.onAccept (some (serverSession x.server.kind mRequest major minor mReply))
        peers := x.peers.set i { p with number := some x.server.sessions.length } }, rfl, rfl, ?_⟩
      rw [Network.step, hGet, Option.bind_some, if_pos ⟨hConnected, hNumber, h.listening.1⟩, hServer, Option.map_some]
    | _ => exact absurd rfl hOwn

end Network

open Network

/-- In every run of any number of clients with a server, whatever fails and whatever the other peers do: what a client
reads is a beginning of the handler's reply to its own request, and so is what it tells its caller. -/
theorem network_sound {scheme : Scheme} {app : Request → Reply} {message : Messages} {events : List Network.Event}
    {x : Network} (hRun : PartialRun.run (step app message) (network scheme) events = some x) {p : Peer}
    (hp : p ∈ x.peers) (hAsked : p.asked.Fine app) :
    ((x.exchange p).handedOver.length ≤ 1 ∧ ∀ q ∈ (x.exchange p).handedOver, q.Agrees p.asked.req) ∧
      (p.client.got = [] ∨ ∃ q ∈ (x.exchange p).handedOver, p.client.got <+: (app q).toBytes) ∧
      ∀ err rep, .calledBack err rep ∈ p.client.history →
        rep.content = [] ∨ ∃ q ∈ (x.exchange p).handedOver, rep.content <+: (app q).content := by
  obtain ⟨-, -, hReaches⟩ := reaches_exchange hRun
  obtain ⟨es, -, hOwn⟩ := hReaches p hp
  obtain ⟨stage, hSound⟩ := Exchange.exists_sound hAsked.req hAsked.reply hOwn
  exact hSound.tells

/-! ### Two clients of the echo server, and a stranger -/

theorem echo_fine {a : Asked} (hReq : a.req.Encodable a.serverUrl a.serverPort)
    (hContent : (echo a.req).content.length ≤ stringMaxSize)
    (hHead : (echo a.req).toBytes.length ≤ 32 * 1024 + (echo a.req).content.length) : a.Fine echo := by
  refine ⟨hReq, fun q hq => ?_⟩
  have hSame : echo q = echo a.req := by rw [echo, hq.uri, hq.body]; rfl
  rw [hSame]
  refine ⟨⟨.ok, rfl⟩, ?_, hContent, hHead⟩
  intro x hx
  obtain rfl : x = ⟨ascii "Content-Type", ascii "text"⟩ := by simpa [echo] using hx
  exact plain_of_name (by decide +kernel) ⟨by decide +kernel, by decide +kernel⟩

def firstAsked : Asked := ⟨ascii "localhost", ascii "80", putRequest, 0⟩

def secondAsked : Asked := ⟨ascii "localhost", ascii "80",
    { putRequest with uri := ascii "/b", body := ascii "other" }, 7⟩

theorem firstAsked_fine : firstAsked.Fine echo :=
  echo_fine putRequest_encodable (by decide +kernel) (by decide +kernel)

theorem secondAsked_fine : secondAsked.Fine echo := by
  refine echo_fine ⟨putRequest_encodable.method, ⟨ascii "b", by decide +kernel, by decide +kernel⟩,
    putRequest_encodable.major, putRequest_encodable.minor, putRequest_encodable.headers, putRequest_encodable.host,
    by decide +kernel, by decide +kernel⟩ (by decide +kernel) (by decide +kernel)

def crowdedStart : List Network.Event :=
  [.join firstAsked, .join secondAsked, .server (.accept ⟨[], [], 0, 0, [], []⟩ 0 0 ⟨0, [], []⟩),
    .server (.session 0 (.complete 0 (.ok (ascii "no http"))))]

def crowdedRun : List Network.Event :=
  crowdedStart ++ [.exchange 0 .resolve, .exchange 1 .resolve, .exchange 1 .deliver, .exchange 0 .deliver,
    .exchange 0 .connect, .exchange 1 .connect, .exchange 1 .deliver,
      .accept 1 ⟨[], [], 0, 0, [], []⟩ 0 0 ⟨0, [], []⟩,
    .exchange 0 .deliver, .accept 0 ⟨[], [], 0, 0, [], []⟩ 0 0 ⟨0, [], []⟩, .exchange 1 (.sendRequest 122),
    .exchange 0 (.sendRequest 125), .exchange 0 .requestSent, .exchange 0 .deliver, .exchange 1 .requestSent,
    .exchange 1 .deliver, .exchange 0 (.receiveRequest 0 125), .exchange 1 (.receiveRequest 0 122),
      .exchange 1 .answer,
    .exchange 0 .answer, .exchange 0 (.sendReply 94), .exchange 0 (.receiveReply 80), .exchange 0 .deliver,
      .server .stop,
    .exchange 0 (.receiveReply 14), .exchange 0 .deliver, .exchange 0 .replyEnds, .exchange 0 .deliver]

theorem crowdedRun_sound :
    ∃ x p rep, PartialRun.run (step echo fun _ => []) (network .http) crowdedRun = some x ∧ p ∈ x.peers ∧
      p.asked = firstAsked ∧ .calledBack [] rep ∈ p.client.history ∧
        rep.content = ascii "echo request uri: /a?b#c body: body" ∧
          ∃ q ∈ (x.exchange p).handedOver, rep.content <+: (echo q).content := by
  have hRuns : ((PartialRun.run (step echo fun _ => []) (network .http) crowdedRun).bind fun x =>
      x.peers[0]?.bind fun p =>
      (p.client.history.findSome? ClientEffect.answer).map fun answer => (p.asked, answer.1, answer.2.content)) =
        some (firstAsked, [], ascii "echo request uri: /a?b#c body: body") := by decide +kernel
  obtain ⟨x, hRun, hFirst⟩ := Option.bind_eq_some_iff.mp hRuns
  obtain ⟨p, hGet, hTold⟩ := Option.bind_eq_some_iff.mp hFirst
  obtain ⟨⟨err, rep⟩, hFound, hAnswer⟩ := Option.map_eq_some_iff.mp hTold
  obtain ⟨hAsked, hEmpty, hContent⟩ : p.asked = firstAsked ∧ err = [] ∧
    rep.content = ascii "echo request uri: /a?b#c body: body" := by
    simpa using hAnswer
  obtain ⟨effect, hMem, hSome⟩ := List.exists_of_findSome?_eq_some hFound
  cases effect with
  | calledBack err' rep' =>
    obtain ⟨rfl, rfl⟩ := Prod.mk.inj (Option.some.inj hSome)
    have hp := List.mem_of_getElem? hGet
    refine ⟨x, p, rep', hRun, hp, hAsked, hEmpty ▸ hMem, hContent, ?_⟩
    refine ((network_sound hRun hp (hAsked ▸ firstAsked_fine)).2.2 _ rep' hMem).resolve_left ?_
    rw [hContent]
    decide
  | _ => cases hSome

/-- Behind every run without faults, and if nobody else joins: whatever the order of the steps, every client comes to
the answer to its request. Strangers may have done anything, but over tls there are none. -/
theorem network_answers {scheme : Scheme} {app : Request → Reply} {message : Messages} {events : List Network.Event}
    {x : Network} (hRun : PartialRun.run (step app message) (network scheme) events = some x)
    (hClean : ∀ e ∈ events, e.isFault scheme = false) (hAsked : ∀ p ∈ x.peers, p.asked.Fine app) :
    PartialRun.Inevitable (step app message) (fun e => e.isFault scheme = false ∧ e.isInside = true)
      (fun y => y.peers.map Peer.asked = x.peers.map Peer.asked ∧
        ∀ p ∈ y.peers, (y.exchange p).Answered app p.asked.req) x := by
  obtain ⟨-, hScheme, -⟩ := reaches_exchange hRun
  refine PartialRun.inevitable_of_wellFounded wellFounded_sooner
    (I := fun y => y.Unfailed app ∧ y.scheme = scheme ∧ y.peers.map Peer.asked = x.peers.map Peer.asked) ?_ ?_
    ⟨unfailed_of_run hClean hAsked hRun, hScheme, rfl⟩
  · rintro y e z ⟨h, rfl, hSame⟩ ⟨hClean', hInside⟩ hStep
    obtain ⟨h', hSooner, hAsked'⟩ := h.step hClean' hInside hStep
    exact ⟨⟨h', step_scheme hStep, hAsked'.trans hSame⟩, hSooner⟩
  · rintro y ⟨h, rfl, hSame⟩
    rcases h.goes_on message with hAll | ⟨e, z, hClean', hInside, hStep⟩
    · exact .inl ⟨hSame, hAll⟩
    · exact .inr ⟨e, z, ⟨hClean', hInside⟩, hStep⟩

theorem crowdedStart_answers :
    ∃ x, PartialRun.run (step echo fun _ => []) (network .http) crowdedStart = some x ∧
      PartialRun.Inevitable (step echo fun _ => []) (fun e => e.isFault .http = false ∧ e.isInside = true)
        (fun y => y.peers.map Peer.asked = x.peers.map Peer.asked ∧
          ∀ p ∈ y.peers, (y.exchange p).Answered echo p.asked.req) x := by
  have hRuns : (PartialRun.run (step echo fun _ => []) (network .http) crowdedStart).map
      (fun x => x.peers.map Peer.asked) =
      some [firstAsked, secondAsked] := by decide +kernel
  obtain ⟨x, hRun, hAsked⟩ := Option.map_eq_some_iff.mp hRuns
  refine ⟨x, hRun, network_answers hRun (by decide) ?_⟩
  intro p hp
  have hMem : p.asked ∈ [firstAsked, secondAsked] := hAsked ▸ List.mem_map_of_mem hp
  rcases List.mem_cons.mp hMem with hFirst | hOther
  · exact hFirst ▸ firstAsked_fine
  · exact List.mem_singleton.mp hOther ▸ secondAsked_fine

end HttpUtils
