import HttpUtils.Midway
import HttpUtils.Client.Delivery

/-!
# A client that is sent one reply

The operations of the chain follow one another in a fixed order. What the client has read is what its parser was
given, and the read that is still queued.
-/

namespace HttpUtils
set_option autoImplicit false

open WaitableTimer

namespace Chain

def beforeWrite : Chain → Bool
  | .pending .resolve | .pending .connect | .pending .handshake => true
  | .queued .resolve _ | .queued .connect _ | .queued .handshake _ => true
  | _ => false

def held : Chain → Bytes
  | .queued .read (.ok data) => data
  | _ => []

end Chain

namespace Client

variable {message : Messages} {s t : Client}

def after (s : Client) : ClientOperation → ClientOperation
  | .resolve => .connect
  | .connect =>
    match s.kind with
    | .http => .write s.mReqStr
    | .https => .handshake
  | .handshake => .write s.mReqStr
  | .write _ | .read => .read

def got (s : Client) : Bytes := s.received.flatten ++ s.chain.held

def gains (s : Client) : Event → Bytes
  | .ready (.ok data) => if s.chain = .pending .read then data else []
  | _ => []

theorem invokeCallback_same (s : Client) (err : Bytes) :
    (s.invokeCallback err).mReqStr = s.mReqStr ∧ (s.invokeCallback err).kind = s.kind := by
  unfold invokeCallback
  dsimp only
  split
  · exact ⟨rfl, rfl⟩
  · exact ⟨rfl, rfl⟩

theorem handler_same (s : Client) (op : ClientOperation) (result : IoResult) :
    (s.handler message op result).mReqStr = s.mReqStr ∧ (s.handler message op result).kind = s.kind := by
  cases op with
  | read =>
    cases result with
    | error ec =>
      simp only [handler, handleReadContent]
      split
      · exact s.invokeCallback_same _
      · exact s.invokeCallback_same _
    | ok data =>
      simp only [handler, handleReadContent]
      split
      · exact invokeCallback_same _ _
      · exact ⟨rfl, rfl⟩
  | connect =>
    cases result with
    | error ec => exact s.invokeCallback_same _
    | ok data =>
      simp only [handler, handleConnect]
      split
      · exact ⟨rfl, rfl⟩
      · exact ⟨rfl, rfl⟩
  | _ =>
    cases result with
    | error ec => exact s.invokeCallback_same _
    | ok data => exact ⟨rfl, rfl⟩

theorem same_step {e : Event} (hStep : s.step message e = some t) : t.mReqStr = s.mReqStr ∧ t.kind = s.kind := by
  cases e with
  | expire =>
    simp only [step] at hStep
    split at hStep
    · cases hStep
    · obtain rfl := Option.some.inj hStep
      exact ⟨rfl, rfl⟩
  | runWait i =>
    obtain ⟨⟨⟨⟨⟩, c⟩, timer⟩, -, rfl⟩ := Option.map_eq_some_iff.mp hStep
    cases c with
    | aborted => exact ⟨rfl, rfl⟩
    | expired => exact invokeCallback_same _ _
  | ready result =>
    simp only [step] at hStep
    split at hStep
    · split at hStep
      · obtain rfl := Option.some.inj hStep
        exact ⟨rfl, rfl⟩
      · cases hStep
    · cases hStep
  | deliver =>
    simp only [step] at hStep
    split at hStep
    · obtain rfl := Option.some.inj hStep
      exact handler_same _ _ _
    · cases hStep

theorem deliver_goes {op : ClientOperation} {result : IoResult} (hChain : s.chain = .queued op result)
    (hAnswer : s.answer message op result = none) (hStep : s.step message .deliver = some t) :
    t.chain = .pending (s.after op) ∧ t.history = s.history ++ (s.heard op result ++ [.started (s.after op)]) ∧
      t.mRepParser = s.parserAfter op result ∧ t.mTimer = s.mTimer ∧ t.isOpen = (s.isOpen || op = .resolve) := by
  rw [step, hChain] at hStep
  obtain rfl := Option.some.inj hStep
  cases result with
  | error ec => cases op <;> cases hAnswer
  | ok data =>
    cases op with
    | read =>
      have hGoes : (s.mRepParser.parse data).1 ≠ .bad := by
        intro hBad
        simp [answer, hBad] at hAnswer
      simp only [handler, handleReadContent]
      rw [if_neg hGoes]
      simp [start, emit, heard, after, parserAfter]
    | connect =>
      simp only [handler, handleConnect, after]
      split <;> simp [start, emit, heard, parserAfter, *]
    | resolve => simp [handler, handleResolve, start, emit, heard, after, parserAfter]
    | handshake => simp [handler, handleHandshake, start, emit, heard, after, parserAfter]
    | write bytes => simp [handler, handleWriteRequest, start, emit, heard, after, parserAfter]

theorem received_eq {xs : List ClientEffect} (h : t.history = s.history ++ xs) :
    t.received = s.received ++ xs.filterMap ClientEffect.data := by
  rw [received, h, List.filterMap_append]
  rfl

theorem held_sameOperation {c d : Chain} (h : SameOperation c d) : d.held = c.held := by
  cases c with
  | idle =>
    obtain rfl : d = .idle := h
    rfl
  | pending op =>
    rcases h with rfl | ⟨ec, rfl⟩
    · rfl
    · cases op <;> rfl
  | queued op result =>
    obtain rfl : d = .queued op result := h
    rfl

theorem got_step {e : Event} (hStep : s.step message e = some t) : t.got = s.got ++ s.gains e := by
  cases step_took hStep with
  | @continues op result after _ hChain hAnswer chain timer parser history =>
    have hReceived := received_eq history
    rw [got, got, hReceived, chain, hChain]
    cases op <;> cases result <;> simp [heard, ClientEffect.data, Chain.held, gains]
  | @ends op result err _ hChain hAnswer chain timer parser history =>
    have hReceived := received_eq history
    rw [got, got, hReceived, chain, hChain]
    cases op <;> cases result <;> simp [heard, ClientEffect.data, Chain.held, gains]
  | timesOut hTake chain timer parser history =>
    have hReceived := received_eq history
    rw [got, got, hReceived, held_sameOperation chain]
    simp [ClientEffect.data, gains]
  | expires hPending chain timer parser history =>
    have hReceived := received_eq history
    rw [got, got, hReceived, chain]
    simp [ClientEffect.data, gains]
  | aborts hTake chain parser history =>
    rw [got, got, received, received, history, chain]
    simp [gains]
  | @completes op result _ hChain hPossible chain timer parser history =>
    rw [got, got, received, received, history, chain, hChain]
    cases op <;> cases result <;> simp [Chain.held, gains, hChain]

theorem heard_read {op : ClientOperation} {result : IoResult} {x : ClientEffect} (hx : x.data = none)
    (hChain : s.chain = .queued op result) (parser : t.mRepParser = s.parserAfter op result)
    (history : t.history = s.history ++ (s.heard op result ++ [x])) :
    t.mRepParser = s.mRepParser ∧ t.received = s.received ∨
      ∃ data, s.chain = .queued .read (.ok data) ∧ t.mRepParser = (s.mRepParser.parse data).2 ∧
        t.received = s.received ++ [data] := by
  have hReceived := received_eq history
  rw [List.filterMap_append, List.filterMap_cons, hx, List.filterMap_nil, List.append_nil] at hReceived
  cases result with
  | error ec =>
    refine .inl ⟨parser.trans (by cases op <;> rfl), ?_⟩
    cases op <;> exact hReceived.trans (List.append_nil _)
  | ok data =>
    cases op with
    | read => exact .inr ⟨data, hChain, parser, hReceived⟩
    | _ => exact .inl ⟨parser, hReceived.trans (List.append_nil _)⟩

theorem read_step {e : Event} (hStep : s.step message e = some t) :
    t.mRepParser = s.mRepParser ∧ t.received = s.received ∨
      ∃ data, s.chain = .queued .read (.ok data) ∧ t.mRepParser = (s.mRepParser.parse data).2 ∧
        t.received = s.received ++ [data] := by
  cases step_took hStep with
  | continues hChain hAnswer chain timer parser history => exact heard_read rfl hChain parser history
  | ends hChain hAnswer chain timer parser history => exact heard_read rfl hChain parser history
  | timesOut hTake chain timer parser history =>
    exact .inl ⟨parser, (received_eq history).trans (List.append_nil _)⟩
  | expires hPending chain timer parser history =>
    exact .inl ⟨parser, (received_eq history).trans (List.append_nil _)⟩
  | aborts hTake chain parser history =>
    refine .inl ⟨parser, ?_⟩
    rw [received, history]
    rfl
  | completes hChain hPossible chain timer parser history =>
    refine .inl ⟨parser, ?_⟩
    rw [received, history]
    rfl

theorem calledBack_step {e : Event} (hStep : s.step message e = some t) {err : Bytes} {rep : Reply}
    (hMem : .calledBack err rep ∈ t.history) : .calledBack err rep ∈ s.history ∨ rep = t.mRepParser.mReply := by
  have hHeard (op : ClientOperation) (result : IoResult) : .calledBack err rep ∉ s.heard op result := by
    unfold heard
    split <;> simp
  cases step_took hStep with
  | @continues op result _ _ hChain hAnswer chain timer parser history =>
    rw [history] at hMem
    exact .inl (by simpa [hHeard op result] using hMem)
  | @ends op result err' _ hChain hAnswer chain timer parser history =>
    rw [history] at hMem
    have hOr : .calledBack err rep ∈ s.history ∨ err = err' ∧ rep = t.mRepParser.mReply := by
      simpa [hHeard op result] using hMem
    exact hOr.imp id And.right
  | timesOut hTake chain timer parser history =>
    rw [history] at hMem
    have hOr : .calledBack err rep ∈ s.history ∨ err = ascii "timeout" ∧
        rep = s.mRepParser.mReply := by simpa using hMem
    exact hOr.imp id fun hRep => hRep.2.trans (by rw [parser])
  | expires hPending chain timer parser history =>
    rw [history] at hMem
    exact .inl (by simpa using hMem)
  | aborts hTake chain parser history => exact .inl (history ▸ hMem)
  | completes hChain hPossible chain timer parser history => exact .inl (history ▸ hMem)

end Client

end HttpUtils
