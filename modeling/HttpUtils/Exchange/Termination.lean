import HttpUtils.Exchange.Completion
import HttpUtils.Library.Inevitability

/-!
# An exchange without faults comes to its end

The reply of the handler may be of any length, so that the number of steps left is bounded only when it is known:
the measure has the answer first, and what is left to send and to run second.
-/

namespace HttpUtils
set_option autoImplicit false

open ByteStream WaitableTimer

def Chain.load : Chain → ℕ
  | .idle => 0
  | .queued .read (.error _) => 1
  | .pending .read => 2
  | .queued .read (.ok _) => 3
  | .queued (.write _) _ => 4
  | .pending (.write _) => 5
  | .queued .handshake _ => 6
  | .pending .handshake => 7
  | .queued .connect _ => 8
  | .pending .connect => 9
  | .queued .resolve _ => 10
  | .pending .resolve => 11

def Operation.load : Operation → ℕ
  | .handshake => 3
  | .readSome => 2
  | .handle | .write => 1

namespace Exchange

def sessionLoad (x : Exchange) : ℕ :=
  match x.session with
  | none => 4
  | some s => (s.outstanding.map fun op => op.2.load).sum

def unanswered (x : Exchange) : ℕ :=
  match x.session with
  | none => 1
  | some s => if s.outstanding.any fun op => op.2 ≠ .write then 1 else 0

def ticks (x : Exchange) : ℕ :=
  x.client.mTimer.size + match x.session with
    | none => 0
    | some s => s.mConTimer.size

def load (x : Exchange) : ℕ :=
  x.client.chain.load + x.sessionLoad + x.request.cost + x.reply.cost +
    if x.client.chain.beforeWrite then 3 * x.client.mReqStr.length else 0

/-- Every step of the exchange sets one wait at most. -/
def measure (x : Exchange) : ℕ × ℕ := (x.unanswered, 2 * x.load + x.ticks)

def Sooner (x y : Exchange) : Prop := Prod.Lex (· < ·) (· < ·) x.measure y.measure

variable {app : Request → Reply} {r : Request} {serverUrl serverPort : Bytes} {message : Messages} {x y : Exchange}
  {stage : Option Stage} {got : Bytes}

theorem sooner_of_load (hAnswer : y.unanswered = x.unanswered) (hLoad : y.load < x.load)
    (hTicks : y.ticks ≤ x.ticks + 1) :
    y.Sooner x := by
  rw [Sooner, measure, measure, hAnswer]
  exact .right _ (by omega)

theorem sooner_of_ticks (hAnswer : y.unanswered = x.unanswered) (hLoad : y.load = x.load)
    (hTicks : y.ticks < x.ticks) :
    y.Sooner x := by
  rw [Sooner, measure, measure, hAnswer, hLoad]
  exact .right _ (by omega)

/-! ### Steps of the client -/

theorem load_queued (op : ClientOperation) (result : IoResult) :
    (Chain.queued op result).load ≤ (Chain.pending op).load + 1 ∧
      (Chain.queued op result).beforeWrite = (Chain.pending op).beforeWrite ∧
        ((∀ data, op = .read → result ≠ .ok data) → (Chain.queued op result).load < (Chain.pending op).load) := by
  cases op with
  | read =>
    cases result with
    | ok data => exact ⟨Nat.le_refl _, rfl, fun hNot => absurd rfl (hNot data rfl)⟩
    | error ec => exact ⟨by simp [Chain.load], rfl, fun _ => by simp [Chain.load]⟩
  | _ => exact ⟨by simp [Chain.load], rfl, fun _ => by simp [Chain.load]⟩

theorem sooner_ready {op : ClientOperation} (hChain : x.client.chain = .pending op) {result : IoResult}
    (hResult : ∀ data, op = .read → result ≠ .ok data) (hStep : x.clientStep message (.ready result) = some y) :
    y.Sooner x := by
  obtain rfl := clientStep_ready hChain hStep
  obtain ⟨-, hSame, hLess⟩ := load_queued op result
  refine sooner_of_load rfl ?_ (Nat.le_succ _)
  simp only [load, hChain, hSame, sessionLoad]
  have hLess := hLess hResult
  omega

theorem sooner_receiveReply {n : ℕ} {data : Bytes} {c : Stream UInt8} (hChain : x.client.chain = .pending .read)
    (hReceive : x.reply.receive n = some (data, c))
    (hStep : clientStep message { x with reply := c } (.ready (.ok data)) = some y) : y.Sooner x := by
  obtain rfl := clientStep_ready (x := { x with reply := c }) hChain hStep
  obtain ⟨hMore, hSame, -⟩ := load_queued .read (.ok data)
  have hCost := Stream.cost_receive hReceive
  refine sooner_of_load rfl ?_ (Nat.le_succ _)
  simp only [load, hChain, hSame, sessionLoad]
  omega

theorem sooner_clientWait {i : ℕ} (h : x.client.Going) (hStep : x.clientStep message (.runWait i) = some y) :
    y.Sooner x := by
  obtain ⟨t, ht, rfl⟩ := clientStep_eq_some.mp hStep
  obtain ⟨⟨⟨⟨⟩, c⟩, timer⟩, hTake, hRan⟩ := Option.map_eq_some_iff.mp ht
  have hSize := Timer.size_of_take hTake
  cases c with
  | expired => exact absurd (Timer.mem_of_take hTake) (h.timer ())
  | aborted =>
    have hRan : { x.client with mTimer := timer } = t := hRan
    subst hRan
    rw [List.drop_length]
    refine sooner_of_ticks rfl rfl ?_
    simp only [ticks]
    omega

theorem size_deliver {s t : Client} (h : s.step message .deliver = some t) : t.mTimer.size ≤ s.mTimer.size := by
  cases Client.step_took h with
  | continues _ _ _ timer _ _ => rw [timer]
  | ends _ _ _ timer _ _ => rw [timer, Timer.size_cancel]

theorem load_after (s : Client) (op : ClientOperation) (data : Bytes) (c : Stream UInt8) :
    (Chain.pending (s.after op)).load + (hearRequest s c (.started (s.after op))).cost +
        (if (Chain.pending (s.after op)).beforeWrite then 3 * s.mReqStr.length else 0) <
      (Chain.queued op (.ok data)).load + c.cost +
        if (Chain.queued op (.ok data)).beforeWrite then 3 * s.mReqStr.length else 0 := by
  have hWrite := c.cost_write s.mReqStr
  cases op with
  | connect =>
    cases hKind : s.kind with
    | http =>
      simp [Client.after, hKind, Chain.load, Chain.beforeWrite, hearRequest]
      omega
    | https => simp [Client.after, hKind, Chain.load, Chain.beforeWrite, hearRequest]
  | handshake =>
    simp [Client.after, Chain.load, Chain.beforeWrite, hearRequest]
    omega
  | resolve =>
    simp only [Client.after, Chain.load, Chain.beforeWrite, hearRequest, Stream.cost_new, if_true]
    simp
    omega
  | _ => simp [Client.after, Chain.load, Chain.beforeWrite, hearRequest]

theorem sooner_deliver (h : x.Intact app r serverUrl serverPort stage [] x.client.got)
    (hSound : x.Sound app r serverUrl serverPort stage [] x.client.got) (hApp : ∀ q, q.Agrees r → (app q).Encodable)
    (hStep : x.clientStep message .deliver = some y) : y.Sooner x := by
  obtain ⟨t, ht, rfl⟩ := clientStep_eq_some.mp hStep
  obtain ⟨op, result, hChain⟩ := exists_queued ht
  obtain ⟨hReqStr, -⟩ := Client.same_step ht
  cases result with
  | error ec =>
    obtain ⟨rfl, rfl⟩ := h.going.errors op ec hChain
    obtain ⟨-, hIdle, -, hHistory⟩ := h.going.ends hChain ht
    have hCost := x.request.cost_shut
    refine sooner_of_load rfl ?_ ?_
    · have hStream : (t.history.drop x.client.history.length).foldl (hearRequest x.client)
        x.request = x.request.shut := by
        rw [hHistory, List.drop_left]
        simp [hearRequest, beforeTls, hChain]
      simp only [load, hChain, hIdle, hStream, sessionLoad, Chain.load, Chain.beforeWrite, Bool.false_eq_true,
        if_false]
      omega
    · exact Nat.le_succ_of_le (Nat.add_le_add_right (size_deliver ht) _)
  | ok data =>
    have hAnswer : x.client.answer message op (.ok data) = none := hSound.goes_on hApp hChain
    obtain ⟨hNext, hHistory, -, hTimer, -⟩ := Client.deliver_goes hChain hAnswer ht
    refine sooner_of_load rfl ?_ ?_
    · have hStream : (t.history.drop x.client.history.length).foldl (hearRequest x.client) x.request =
          hearRequest x.client x.request (.started (x.client.after op)) := by
        rw [hHistory, List.drop_left, List.foldl_append, hearRequest_heard]
        rfl
      have hMove := load_after x.client op data x.request
      simp only [load, hChain, hNext, hStream, sessionLoad, hReqStr]
      omega
    · simp only [ticks, hTimer]
      omega

/-! ### Steps of the session -/

def stageLoad : Option Stage → ℕ × ℕ
  | none => (4, 1)
  | some (.handshake _) => (3, 1)
  | some (.read _ _) => (2, 1)
  | some (.handle _ _) => (1, 1)
  | some (.write _ _) => (1, 0)
  | some (.ended _) => (0, 0)

theorem At.load (h : x.At r stage) : x.sessionLoad = (stageLoad stage).1 ∧ x.unanswered = (stageLoad stage).2 := by
  cases stage with
  | none =>
    have hNone : x.session = none := h
    simp [sessionLoad, unanswered, hNone, stageLoad]
  | some st =>
    obtain ⟨s, hSession, hAt⟩ := h
    cases hAt with
    | handshake hOp _ _ => simp [sessionLoad, unanswered, hSession, hOp, Operation.load, stageLoad]
    | read hOp _ _ => simp [sessionLoad, unanswered, hSession, hOp, Operation.load, stageLoad]
    | handle hOp _ _ => simp [sessionLoad, unanswered, hSession, hOp, Operation.load, stageLoad]
    | write hOp _ _ => simp [sessionLoad, unanswered, hSession, hOp, Operation.load, stageLoad]
    | ended hOp _ _ _ => simp [sessionLoad, unanswered, hSession, hOp, stageLoad]

theorem ticks_sessionStep {id : ℕ} {data : Bytes} (hStep : x.sessionStep app (.complete id (.ok data)) = some y) :
    y.ticks ≤ x.ticks + 1 := by
  obtain ⟨s, hSession, hMap⟩ := Option.bind_eq_some_iff.mp hStep
  obtain ⟨t, ht, rfl⟩ := Option.map_eq_some_iff.mp hMap
  have hBegan {phase : Phase} {op : Operation} {before after : List Effect}
      (h : s.Began (.complete id (.ok data)) phase op before after t) : t.mConTimer.size ≤ s.mConTimer.size + 1 := by
    have hSame := Timer.size_cancel s.mConTimer
    rw [h.timer]
    simp only [Timer.asyncWait, Timer.size, List.length_append, List.length_singleton] at hSame ⊢
    omega
  have hSize : t.mConTimer.size ≤ s.mConTimer.size + 1 := by
    cases Session.step_took ht with
    | reads _ h _ => exact hBegan h
    | handles _ h _ => exact hBegan h
    | refuses _ h => exact hBegan h
    | rests _ hRested =>
      rw [hRested.cancelled id _ rfl, Timer.size_cancel]
      exact Nat.le_succ _
  simp only [ticks, hSession]
  omega

theorem sooner_session {stage' : Option Stage} {id : ℕ} {data : Bytes} {c : Stream UInt8}
    (hx : x.At r stage) (hy : y.At r stage')
    (hStep : sessionStep app { x with request := c } (.complete id (.ok data)) = some y)
    (hAnswer : (stageLoad stage').2 = (stageLoad stage).2)
    (hLess : (stageLoad stage').1 + c.cost + y.reply.cost < (stageLoad stage).1 + x.request.cost + x.reply.cost) :
    y.Sooner x := by
  obtain ⟨hLoad, hOpen⟩ := hx.load
  obtain ⟨hLoad', hOpen'⟩ := hy.load
  obtain ⟨hClient, hRequest, -, -⟩ := sessionStep_frame hStep
  refine sooner_of_load (by rw [hOpen, hOpen', hAnswer]) ?_
    (ticks_sessionStep (x := { x with request := c }) hStep)
  simp only [load, hLoad, hLoad', hClient, hRequest]
  omega

theorem sooner_serverWait {i : ℕ} (h : x.Unexpired) (hStep : x.sessionStep app (.runWait i) = some y) :
    y.Sooner x := by
  obtain ⟨s, hSession, hMap⟩ := Option.bind_eq_some_iff.mp hStep
  obtain ⟨t, ht, rfl⟩ := Option.map_eq_some_iff.mp hMap
  obtain ⟨⟨⟨w, c⟩, timer⟩, hTake, hRan⟩ := Option.map_eq_some_iff.mp ht
  have hSize := Timer.size_of_take hTake
  cases c with
  | expired => exact absurd (Timer.mem_of_take hTake) (h s hSession w)
  | aborted =>
    have hRan : { s with mConTimer := timer } = t := hRan
    subst hRan
    rw [List.drop_length]
    refine sooner_of_ticks ?_ ?_ ?_
    · simp only [unanswered, hSession]
    · simp only [load, sessionLoad, hSession]
      rfl
    · simp only [ticks, hSession]
      omega

/-! ### Every run without faults -/

theorem sooner_step (hReq : r.Encodable serverUrl serverPort) (hApp : ∀ q, q.Agrees r → (app q).Encodable) {e : Event}
    (hClean : e.isFault = false) (hSound : x.Sound app r serverUrl serverPort stage [] x.client.got)
    (h : x.Intact app r serverUrl serverPort stage [] x.client.got) (hStep : x.step app message e = some y) :
    y.Sooner x := by
  cases e with
  | clientExpires => cases hClean
  | serverExpires => cases hClean
  | clientFails ec => cases hClean
  | serverFails id ec => cases hClean
  | serverStops => cases hClean
  | resolve =>
    obtain ⟨hChain, hStep⟩ := Option.ite_none_right_eq_some.mp hStep
    exact sooner_ready hChain (by simp) hStep
  | connect =>
    obtain ⟨hChain, hStep⟩ := Option.ite_none_right_eq_some.mp hStep
    obtain ⟨z, hz, rfl⟩ := Option.map_eq_some_iff.mp hStep
    exact sooner_ready (y := z) hChain (by simp) hz
  | accept mRequest major minor mReply =>
    obtain ⟨⟨-, hNone⟩, hStep⟩ := Option.ite_none_right_eq_some.mp hStep
    obtain rfl := Option.some.inj hStep
    have hNone' : x.session = none := by simpa using hNone
    obtain ⟨phase, op, -, hOp, hStart⟩ := serverSession_eq x.scheme.server mRequest major minor mReply
    rw [hStart]
    refine sooner_of_load ?_ ?_ ?_
    · rcases hOp with rfl | rfl <;> simp [unanswered, hNone']
    · rcases hOp with rfl | rfl <;> simp [load, sessionLoad, hNone', Operation.load]
    · simp [ticks, hNone', Timer.size]
  | clientHandshake =>
    obtain ⟨⟨hChain, -⟩, hStep⟩ := Option.ite_none_right_eq_some.mp hStep
    exact sooner_ready hChain (by simp) hStep
  | serverHandshake id =>
    obtain ⟨⟨hAwaits, -⟩, hStep⟩ := Option.ite_none_right_eq_some.mp hStep
    obtain ⟨id', hSound', rfl, hReply, -⟩ := hSound.handshake hAwaits hStep
    exact sooner_session (c := x.request) hSound.atStage hSound'.atStage hStep rfl (by simp [hReply, stageLoad])
  | sendRequest n =>
    obtain ⟨c, hSend, rfl⟩ := Option.map_eq_some_iff.mp hStep
    have hCost := Stream.cost_send hSend
    refine sooner_of_load rfl ?_ (Nat.le_succ _)
    simp only [load, sessionLoad]
    omega
  | requestSent =>
    obtain ⟨⟨hWriting, hSent⟩, hStep⟩ := Option.ite_none_right_eq_some.mp hStep
    obtain ⟨bytes, hChain⟩ := isWriting_iff.mp hWriting
    exact sooner_ready hChain (by simp) hStep
  | receiveRequest id n =>
    obtain ⟨hAwaits, hStep⟩ := Option.ite_none_right_eq_some.mp hStep
    obtain ⟨⟨data, c⟩, hReceive, hStep⟩ := Option.bind_eq_some_iff.mp hStep
    have hCost := Stream.cost_receive hReceive
    obtain ⟨-, hReply, g, id', rfl, hNext⟩ := (hSound.receiveRequest hReceive).readSome hReq hAwaits hStep
    have hReply : y.reply = x.reply := hReply
    rcases hNext with ⟨q, hSound', -⟩ | ⟨hSound', -⟩
    · exact sooner_session hSound.atStage hSound'.atStage hStep rfl (by simp only [hReply, stageLoad]; omega)
    · exact sooner_session hSound.atStage hSound'.atStage hStep rfl (by simp only [hReply, stageLoad]; omega)
  | answer =>
    obtain ⟨rep, hDue, hStep⟩ := Option.bind_eq_some_iff.mp hStep
    obtain ⟨id, q, rfl, ⟨hDeaf, -⟩ | ⟨id', hSound', -⟩⟩ := hSound.answer hDue hStep
    · exact absurd h.listening hDeaf
    · refine .left _ _ ?_
      show y.unanswered < x.unanswered
      rw [hSound.atStage.load.2, hSound'.atStage.load.2]
      exact Nat.one_pos
  | sendReply n =>
    obtain ⟨c, hSend, rfl⟩ := Option.map_eq_some_iff.mp hStep
    have hCost := Stream.cost_send hSend
    refine sooner_of_load rfl ?_ (Nat.le_succ _)
    simp only [load, sessionLoad]
    omega
  | replySent id =>
    obtain ⟨⟨hAwaits, hSent⟩, hStep⟩ := Option.ite_none_right_eq_some.mp hStep
    obtain ⟨q, rfl, hSound', hReply, -⟩ := hSound.replySent hAwaits hStep
    have hCost := x.reply.cost_shut
    exact sooner_session (c := x.request) hSound.atStage hSound'.atStage hStep rfl
      (by simp only [hReply, stageLoad]; omega)
  | receiveReply n =>
    obtain ⟨hChain, hStep⟩ := Option.ite_none_right_eq_some.mp hStep
    obtain ⟨⟨data, c⟩, hReceive, hStep⟩ := Option.bind_eq_some_iff.mp hStep
    exact sooner_receiveReply hChain hReceive hStep
  | replyEnds =>
    obtain ⟨⟨hChain, -⟩, hStep⟩ := Option.ite_none_right_eq_some.mp hStep
    exact sooner_ready hChain (by simp) hStep
  | deliver => exact sooner_deliver h hSound hApp hStep
  | clientWait i => exact sooner_clientWait h.going hStep
  | serverWait i => exact sooner_serverWait h.unexpired hStep

theorem wellFounded_sooner : WellFounded Sooner :=
  InvImage.wf measure (Prod.instWellFoundedRelation.wf)

end Exchange

open Exchange

/-- Without faults every run comes to its end, whatever the order of its events: the caller is told, once and
without an error, the status and the content of the handler's reply. -/
theorem exchange_answers {scheme : Scheme} {serverUrl serverPort : Bytes} {r : Request} {app : Request → Reply}
    (hReq : r.Encodable serverUrl serverPort) (hApp : ∀ q, q.Agrees r → (app q).Encodable) (statusCode : ℕ)
    (message : Messages) :
    PartialRun.Inevitable (step app message) (fun e => e.isFault = false)
      (fun x => ∃ q rep, x.handedOver = [q] ∧ q.Agrees r ∧ x.client.answers = [([], rep)] ∧
        rep.statusCode = (app q).statusCode ∧ rep.content = (app q).content)
      (exchange scheme serverUrl serverPort r statusCode) := by
  refine PartialRun.inevitable_of_wellFounded wellFounded_sooner
    (I := fun x : Exchange => ∃ stage, x.Sound app r serverUrl serverPort stage [] x.client.got ∧
      x.Intact app r serverUrl serverPort stage [] x.client.got) ?_ ?_
    ⟨none, sound_exchange scheme statusCode, intact_exchange scheme statusCode⟩
  · rintro x e y ⟨stage, hSound, hIntact⟩ hClean hStep
    exact ⟨intact_step hReq hApp hClean hSound hIntact hStep, sooner_step hReq hApp hClean hSound hIntact hStep⟩
  · rintro x ⟨stage, hSound, hIntact⟩
    by_cases hIdle : x.client.chain = .idle
    · exact .inl (hIntact.answered hSound hApp hIdle)
    · have hProceeds : ∃ e, x.Proceeds app message e := hIntact.proceeds hSound hIdle
      obtain ⟨e, hClean, -, hSome⟩ := hProceeds
      obtain ⟨y, hy⟩ := Option.isSome_iff_exists.mp hSome
      exact .inr ⟨e, y, hClean, hy⟩

theorem echo_answers :
    PartialRun.Inevitable (step echo fun _ => []) (fun e => e.isFault = false)
      (fun x => ∃ q rep, x.handedOver = [q] ∧ q.Agrees putRequest ∧ x.client.answers = [([], rep)] ∧
        rep.statusCode = (echo q).statusCode ∧ rep.content = (echo q).content)
      (exchange .http (ascii "localhost") (ascii "80") putRequest 0) :=
  exchange_answers putRequest_encodable echo_encodable 0 _

end HttpUtils
