import HttpUtils.Exchange.Safety

/-!
# An exchange without faults

When no operation fails and no time limit is reached, the client tells its caller the reply of the request
handler, once.
-/

namespace HttpUtils
set_option autoImplicit false

open ByteStream WaitableTimer

def ClientOperation.rank : ClientOperation → ℕ
  | .resolve => 0
  | .connect => 1
  | .handshake => 2
  | .write _ => 3
  | .read => 4

def Chain.place : Chain → ℕ
  | .pending op => 2 * op.rank
  | .queued op _ => 2 * op.rank + 1
  | .idle => 10

namespace Client

variable {message : Messages} {s t : Client}

def answers (s : Client) : List (Bytes × Reply) := s.history.filterMap ClientEffect.answer

/-- Nothing has failed, and the caller is told at the end. -/
structure Going (s : Client) : Prop where
  timer : ∀ w, (w, .expired) ∉ s.mTimer.queued
  opened : 2 ≤ s.chain.place → s.chain ≠ .idle → s.isOpen = true
  shaken : s.kind = .https → 4 ≤ s.chain.place → .started .handshake ∈ s.history
  errors : ∀ op ec, s.chain = .queued op (.error ec) → op = .read ∧ ec = .eof
  unanswered : s.chain ≠ .idle → s.answers = []
  answered : s.chain = .idle → s.answers = [([], s.mRepParser.mReply)]

theorem answers_append {xs : List ClientEffect} (h : t.history = s.history ++ xs) :
    t.answers = s.answers ++ xs.filterMap ClientEffect.answer := by
  rw [answers, h, List.filterMap_append]
  rfl

theorem answer_heard (s : Client) (op : ClientOperation) (result : IoResult) :
    (s.heard op result).filterMap ClientEffect.answer = [] := by
  unfold heard
  split
  · rfl
  · rfl

theorem Going.ready (h : s.Going) {op : ClientOperation} (hChain : s.chain = .pending op) {result : IoResult}
    (hResult : ∀ ec, result = .error ec → op = .read ∧ ec = .eof) : Going { s with chain := .queued op result } where
  timer := h.timer
  opened hPlace _ := by
    refine h.opened ?_ (by simp [hChain])
    rw [hChain]
    simp only [Chain.place] at hPlace ⊢
    omega
  shaken hKind hPlace := by
    refine h.shaken hKind ?_
    rw [hChain]
    simp only [Chain.place] at hPlace ⊢
    omega
  errors op' ec hQueued := by
    cases hQueued
    exact hResult ec rfl
  unanswered _ := h.unanswered (by simp [hChain])
  answered hIdle := nomatch hIdle

theorem Going.runWait (h : s.Going) {i : ℕ} (hStep : s.step message (.runWait i) = some t) :
    t.Going ∧ t.chain = s.chain ∧ t.history = s.history ∧ t.mRepParser = s.mRepParser ∧ t.kind = s.kind := by
  obtain ⟨⟨⟨⟨⟩, c⟩, timer⟩, hTake, rfl⟩ := Option.map_eq_some_iff.mp hStep
  cases c with
  | expired => exact absurd (Timer.mem_of_take hTake) (h.timer ())
  | aborted =>
    obtain ⟨-, rfl⟩ := Timer.take_eq_some.mp hTake
    refine ⟨⟨?_, h.opened, h.shaken, h.errors, h.unanswered, h.answered⟩, rfl, rfl, rfl, rfl⟩
    intro w hw
    exact h.timer w (List.mem_of_mem_eraseIdx hw)

theorem Going.continues (h : s.Going) {op : ClientOperation} {result : IoResult}
    (hChain : s.chain = .queued op result)
    (hAnswer : s.answer message op result = none) (hStep : s.step message .deliver = some t) : t.Going := by
  obtain ⟨hNext, hHistory, -, hTimer, hOpen⟩ := deliver_goes hChain hAnswer hStep
  obtain ⟨-, hKind⟩ := same_step hStep
  have hPlace : s.chain.place = 2 * op.rank + 1 := by rw [hChain]; rfl
  refine ⟨by rw [hTimer]; exact h.timer, fun _ _ => ?_, fun hHttps hLate => ?_, ?_, fun _ => ?_, ?_⟩
  · rw [hOpen]
    cases op with
    | resolve => simp
    | _ =>
      rw [h.opened (by rw [hPlace]; simp [ClientOperation.rank]) (by simp [hChain])]
      rfl
  · rw [hHistory]
    have hKind' : s.kind = .https := hKind.symm.trans hHttps
    have hBefore (hNow : 4 ≤ s.chain.place) : .started .handshake ∈ s.history ++
        (s.heard op result ++ [.started (s.after op)]) :=
      List.mem_append_left _ (h.shaken hKind' hNow)
    cases op with
    | resolve =>
      rw [hNext] at hLate
      cases (show ¬ 4 ≤ 2 by omega) hLate
    | connect =>
      have hAfter : s.after .connect = .handshake := by simp [after, hKind']
      simp [hAfter]
    | handshake => exact hBefore (by rw [hPlace]; simp [ClientOperation.rank])
    | write bytes => exact hBefore (by rw [hPlace]; simp [ClientOperation.rank])
    | read => exact hBefore (by rw [hPlace]; simp [ClientOperation.rank])
  · intro op' ec hQueued
    rw [hNext] at hQueued
    cases hQueued
  · rw [answers_append hHistory, List.filterMap_append, answer_heard, h.unanswered (by simp [hChain])]
    rfl
  · intro hIdle
    rw [hNext] at hIdle
    cases hIdle

theorem Going.ends (h : s.Going) (hChain : s.chain = .queued .read (.error .eof))
    (hStep : s.step message .deliver = some t) :
    t.Going ∧ t.chain = .idle ∧ t.mRepParser = s.mRepParser ∧
      t.history = s.history ++ [.calledBack [] s.mRepParser.mReply] := by
  have hAnswer : s.answer message .read (.error .eof) = some [] := rfl
  cases step_took hStep with
  | @continues op result after _ hChain' hAnswer' chain timer parser history =>
    rw [hChain] at hChain'
    cases hChain'
    cases hAnswer'
  | @ends op result err _ hChain' hAnswer' chain timer parser history =>
    rw [hChain] at hChain'
    cases hChain'
    obtain rfl := Option.some.inj hAnswer'
    have hParser : t.mRepParser = s.mRepParser := parser
    have hHistory : t.history = s.history ++ [.calledBack [] s.mRepParser.mReply] := by
      rw [history, hParser]
      rfl
    obtain ⟨-, hKind⟩ := same_step hStep
    refine ⟨⟨?_, fun _ hNot => absurd chain hNot, fun hHttps _ => ?_, ?_, fun hNot =>
      absurd chain hNot, fun _ => ?_⟩, chain,
      hParser, hHistory⟩
    · intro w hw
      rw [timer] at hw
      exact h.timer w (Timer.expired_cancel.mp hw)
    · rw [hHistory]
      refine List.mem_append_left _ (h.shaken (hKind.symm.trans hHttps) ?_)
      rw [hChain]
      simp [Chain.place, ClientOperation.rank]
    · intro op' ec hQueued
      rw [chain] at hQueued
      cases hQueued
    · rw [answers_append hHistory, h.unanswered (by simp [hChain]), hParser]
      rfl

end Client

namespace Exchange

variable (app : Request → Reply) (r : Request) (serverUrl serverPort : Bytes)

/-- How far the session is with the reply. -/
def Smooth (x : Exchange) (got : Bytes) : Option Stage → Prop
  | none => x.reply.ended = false
  | some (.handshake _) => x.reply.ended = false ∧ x.scheme = .https
  | some (.read _ g) => x.reply.ended = false ∧ g ≠ r.toBytes serverUrl serverPort
  | some (.handle _ q) => x.reply.ended = false ∧ x.due = some (app q)
  | some (.write _ q) => x.reply.ended = false ∧ x.reply.Delivers got (app q).toBytes
  | some (.ended qs) =>
    x.reply.ended = true ∧ x.reply.unsent = [] ∧ ∃ q, qs = [q] ∧ x.reply.Delivers got (app q).toBytes

def Unexpired (x : Exchange) : Prop := ∀ s, x.session = some s → ∀ w, (w, .expired) ∉ s.mConTimer.queued

/-- Nothing has failed and nothing was lost; `sent` and `got` are as in `Sound`. -/
structure Intact (x : Exchange) (stage : Option Stage) (sent got : Bytes) : Prop where
  going : x.client.Going
  kind : x.client.kind = x.scheme.client
  listening : x.Listening
  unexpired : x.Unexpired
  connected : 3 ≤ x.client.chain.place → x.connected = true
  request : ∀ g, Stage.got stage = some g → x.request.Delivers (g ++ sent) (x.written r serverUrl serverPort)
  requestOpen : x.client.chain ≠ .idle → x.request.ended = false
  requestSent : 7 ≤ x.client.chain.place → x.client.chain ≠ .idle → x.request.unsent = []
  smooth : x.Smooth app r serverUrl serverPort got stage
  finished : x.client.chain = .queued .read (.error .eof) ∨ x.client.chain = .idle →
    ∃ q, stage = some (.ended [q]) ∧ got = (app q).toBytes

variable {app r serverUrl serverPort} {message : Messages} {x y : Exchange} {stage : Option Stage} {sent got : Bytes}

/-! ### Steps of the client -/

theorem clientStep_ready {op : ClientOperation} (hChain : x.client.chain = .pending op) {result : IoResult}
    (hStep : x.clientStep message (.ready result) = some y) :
    y = { x with client := { x.client with chain := .queued op result } } := by
  obtain ⟨t, ht, rfl⟩ := clientStep_eq_some.mp hStep
  simp only [Client.step, hChain] at ht
  split at ht
  · obtain rfl := Option.some.inj ht
    simp
  · cases ht

theorem written_ready {op : ClientOperation} (hChain : x.client.chain = .pending op) (result : IoResult)
    (connected : Bool) :
    written r serverUrl serverPort { x with client := { x.client with chain := .queued op result }, connected } =
      x.written r serverUrl serverPort := by
  unfold written
  rw [hChain]
  cases op <;> rfl

theorem Intact.ready (h : x.Intact app r serverUrl serverPort stage [] got) {op : ClientOperation}
    (hChain : x.client.chain = .pending op) {result : IoResult}
    (hResult : ∀ ec, result = .error ec → op = .read ∧ ec = .eof ∧ x.reply.atEnd = true)
    {b : Bool} (hConnected : x.connected = true ∨ op = .connect → b = true)
    (hSent : (∃ bytes, op = .write bytes) → x.request.unsent = []) :
    Intact app r serverUrl serverPort
      { x with client := { x.client with chain := .queued op result }, connected := b } stage [] got where
  going := h.going.ready hChain fun ec hEc => ⟨(hResult ec hEc).1, (hResult ec hEc).2.1⟩
  kind := h.kind
  listening := h.listening
  unexpired := h.unexpired
  connected hPlace := by
    by_cases hOp : op = .connect
    · exact hConnected (.inr hOp)
    · refine hConnected (.inl (h.connected ?_))
      rw [hChain]
      simp only [Chain.place] at hPlace ⊢
      cases op <;> simp [ClientOperation.rank] at hPlace hOp ⊢
  request g hg := by
    rw [written_ready hChain]
    exact h.request g hg
  requestOpen _ := h.requestOpen (by simp [hChain])
  requestSent hPlace _ := by
    cases op with
    | write bytes => exact hSent ⟨bytes, rfl⟩
    | read => exact h.requestSent (by rw [hChain]; simp [Chain.place, ClientOperation.rank]) (by simp [hChain])
    | _ => simp [Chain.place, ClientOperation.rank] at hPlace
  smooth := h.smooth
  finished hEnd := by
    rcases hEnd with hEof | hIdle
    · simp only [Chain.queued.injEq] at hEof
      obtain ⟨-, -, hAtEnd⟩ := hResult .eof hEof.2
      obtain ⟨hEnded, hEmpty⟩ := Stream.atEnd_iff.mp hAtEnd
      have hSmooth := h.smooth
      cases stage with
      | none => cases hEnded.symm.trans hSmooth
      | some st =>
        cases st with
        | ended qs =>
          obtain ⟨-, hUnsent, q, rfl, hDelivers⟩ := hSmooth
          exact ⟨q, rfl, hDelivers.got_eq (by simp [Stream.rest, hEmpty, hUnsent])⟩
        | _ => cases hEnded.symm.trans hSmooth.1
    · cases hIdle

theorem ended_hearRequest (s : Client) {c : Stream UInt8} (hOpen : c.ended = false) (op : ClientOperation) :
    (hearRequest s c (.started op)).ended = false := by
  cases op with
  | write data => exact (Stream.ended_write c data).trans hOpen
  | connect => rfl
  | _ => exact hOpen

theorem exists_queued {t : Client} (h : x.client.step message .deliver = some t) :
    ∃ op result, x.client.chain = .queued op result := by
  simp only [Client.step] at h
  split at h
  · exact ⟨_, _, ‹_›⟩
  · cases h

/-- A handler without an error goes on: the parser refuses nothing. -/
theorem Sound.goes_on (h : x.Sound app r serverUrl serverPort stage sent x.client.got)
    (hApp : ∀ q, q.Agrees r → (app q).Encodable) {op : ClientOperation} {data : Bytes}
    (hChain : x.client.chain = .queued op (.ok data)) : x.client.answer message op (.ok data) = none := by
  cases op with
  | read =>
    have hRead : x.client.received.flatten ++ data <+: x.client.got := by
      rw [Client.got, hChain]
      exact List.prefix_rfl
    exact if_neg (h.has_next hApp (h.reads data hChain) hRead).2
  | _ => rfl

theorem Intact.deliver (h : x.Intact app r serverUrl serverPort stage [] x.client.got)
    (hSound : x.Sound app r serverUrl serverPort stage [] x.client.got) (hApp : ∀ q, q.Agrees r → (app q).Encodable)
    (hStep : x.clientStep message .deliver = some y) :
    y.Intact app r serverUrl serverPort stage [] y.client.got := by
  obtain ⟨t, ht, rfl⟩ := clientStep_eq_some.mp hStep
  have hGot : t.got = x.client.got := (Client.got_step ht).trans (List.append_nil _)
  obtain ⟨hReqStr, hKind⟩ := Client.same_step ht
  obtain ⟨op, result, hChain⟩ := exists_queued ht
  have hPlace : x.client.chain.place = 2 * op.rank + 1 := by rw [hChain]; rfl
  have hBusy : x.client.chain ≠ .idle := by simp [hChain]
  show Intact _ _ _ _ _ stage [] t.got
  rw [hGot]
  cases result with
  | error ec =>
    obtain ⟨rfl, rfl⟩ := h.going.errors op ec hChain
    obtain ⟨hGoing, hIdle, hParser, hHistory⟩ := h.going.ends hChain ht
    have hEnd := h.finished (.inl hChain)
    refine { h with
      going := hGoing
      kind := hKind.trans h.kind
      connected := fun _ => h.connected (by rw [hPlace]; simp [ClientOperation.rank])
      request := ?_
      requestOpen := fun hNot => absurd hIdle hNot
      requestSent := fun _ hNot => absurd hIdle hNot
      finished := fun _ => hEnd }
    intro g hg
    obtain ⟨q, rfl, -⟩ := hEnd
    cases hg
  | ok data =>
    have hAnswer : x.client.answer message op (.ok data) = none := hSound.goes_on hApp hChain
    obtain ⟨hNext, hHistory, -⟩ := Client.deliver_goes hChain hAnswer ht
    have hStream : (t.history.drop x.client.history.length).foldl (hearRequest x.client) x.request =
        hearRequest x.client x.request (.started (x.client.after op)) := by
      rw [hHistory, List.drop_left, List.foldl_append, hearRequest_heard]
      rfl
    have hRunning : t.chain ≠ .idle := by simp [hNext]
    rw [hStream]
    refine { h with
      going := h.going.continues hChain hAnswer ht
      kind := hKind.trans h.kind
      connected := ?_, request := ?_, requestOpen := ?_, requestSent := ?_, finished := ?_ }
    · intro hLate
      refine h.connected ?_
      rw [hNext] at hLate
      rw [hPlace]
      cases op <;> simp [Chain.place, Client.after, ClientOperation.rank] at hLate ⊢
    · intro g hg
      have hNow := h.request g hg
      rw [written, hChain] at hNow
      rw [written, hNext]
      have hWrite : x.client.after op = .write x.client.mReqStr → (Chain.queued op (.ok data)).beforeWrite = true →
          (hearRequest x.client x.request (.started (x.client.after op))).Delivers (g ++ [])
            (if (Chain.pending (x.client.after op)).beforeWrite then [] else r.toBytes serverUrl serverPort) := by
        intro hAfter hBefore
        rw [hBefore, if_pos rfl] at hNow
        rw [hAfter, hSound.reqStr]
        exact hNow.write (h.requestOpen hBusy) _
      cases op with
      | resolve => exact hNow.renew
      | handshake => exact hWrite rfl rfl
      | connect =>
        cases hScheme : x.client.kind with
        | http =>
          refine hWrite ?_ rfl
          simp [Client.after, hScheme]
        | https =>
          have hAfter : x.client.after .connect = .handshake := by simp [Client.after, hScheme]
          rw [hAfter]
          exact hNow
      | write bytes => exact hNow
      | read => exact hNow
    · intro _
      exact ended_hearRequest _ (h.requestOpen hBusy) _
    · intro hLate _
      have hRead : op = .read ∨ ∃ bytes, op = .write bytes := by
        rw [hNext] at hLate
        cases op with
        | read => exact .inl rfl
        | write bytes => exact .inr ⟨bytes, rfl⟩
        | resolve => simp [Chain.place, Client.after, ClientOperation.rank] at hLate
        | handshake => simp [Chain.place, Client.after, ClientOperation.rank] at hLate
        | connect =>
          cases hScheme : x.client.kind <;> simp [Chain.place, Client.after, ClientOperation.rank, hScheme] at hLate
      have hSent := h.requestSent (by rw [hPlace]; rcases hRead with rfl | ⟨bytes, rfl⟩ <;>
          simp [ClientOperation.rank]) hBusy
      rcases hRead with rfl | ⟨bytes, rfl⟩
      · exact hSent
      · exact hSent
    · rintro (hEof | hIdle)
      · rw [hNext] at hEof
        cases hEof
      · exact absurd hIdle hRunning

/-! ### Steps of the session -/

theorem Unexpired.next (h : x.Unexpired) {e : Session.Event} (hOther : e ≠ .expire)
    (hStep : x.sessionStep app e = some y) : y.Unexpired := by
  obtain ⟨s, hSession, hMap⟩ := Option.bind_eq_some_iff.mp hStep
  obtain ⟨t, ht, rfl⟩ := Option.map_eq_some_iff.mp hMap
  intro u hu w hw
  obtain rfl := Option.some.inj hu
  exact h s hSession w (Session.expired_step hOther ht hw)

theorem Intact.session (h : x.Intact app r serverUrl serverPort stage sent got) {e : Session.Event}
    {due : Option Reply} (hOther : e ≠ .expire) (hStep : sessionStep app { x with due } e = some y)
    (hListening : x.Listening → y.Listening) {stage' : Option Stage}
    (hRequest : ∀ g, Stage.got stage' = some g → x.request.Delivers g (x.written r serverUrl serverPort))
    (hSmooth : y.Smooth app r serverUrl serverPort got stage') (hNotOver : ∀ q, stage ≠ some (.ended [q])) :
    y.Intact app r serverUrl serverPort stage' [] got := by
  obtain ⟨hClient, hStream, hConnected, hScheme⟩ := sessionStep_frame hStep
  have hWritten : y.written r serverUrl serverPort = x.written r serverUrl serverPort := by
    rw [written, hClient]
    rfl
  have hUnexpired : Unexpired { x with due } := h.unexpired
  refine ⟨hClient ▸ h.going, ?_, hListening h.listening, hUnexpired.next hOther hStep, ?_, ?_, ?_, ?_, hSmooth, ?_⟩
  · rw [hClient, hScheme]
    exact h.kind
  · rw [hClient, hConnected]
    exact h.connected
  · intro g hg
    rw [List.append_nil, hStream, hWritten]
    exact hRequest g hg
  · rw [hClient, hStream]
    exact h.requestOpen
  · rw [hClient, hStream]
    exact h.requestSent
  · rw [hClient]
    intro hEnd
    obtain ⟨q, hOver, -⟩ := h.finished hEnd
    exact absurd hOver (hNotOver q)

theorem Intact.serverWait (h : x.Intact app r serverUrl serverPort stage [] got) {i : ℕ}
    (hStep : x.sessionStep app (.runWait i) = some y) :
    y.Intact app r serverUrl serverPort stage [] got := by
  have hUnexpired := h.unexpired.next (by simp) hStep
  obtain ⟨s, hSession, hMap⟩ := Option.bind_eq_some_iff.mp hStep
  obtain ⟨t, ht, rfl⟩ := Option.map_eq_some_iff.mp hMap
  obtain ⟨⟨⟨w, c⟩, timer⟩, hTake, hRan⟩ := Option.map_eq_some_iff.mp ht
  cases c with
  | expired => exact absurd (Timer.mem_of_take hTake) (h.unexpired s hSession w)
  | aborted =>
    have hRan : { s with mConTimer := timer } = t := hRan
    subst hRan
    simp only [List.drop_length, List.foldl_nil] at hUnexpired ⊢
    refine { h with listening := ?_, unexpired := hUnexpired }
    exact Listening.next h.listening hSession (t := { s with mConTimer := timer }) rfl rfl

theorem Intact.clientWait (h : x.Intact app r serverUrl serverPort stage [] x.client.got) {i : ℕ}
    (hStep : x.clientStep message (.runWait i) = some y) : y.Intact app r serverUrl serverPort stage []
      y.client.got := by
  obtain ⟨t, ht, rfl⟩ := clientStep_eq_some.mp hStep
  obtain ⟨hGoing, hChain, hHistory, -, hKind⟩ := h.going.runWait ht
  have hGot : t.got = x.client.got := (Client.got_step ht).trans (List.append_nil _)
  rw [hHistory, List.drop_length]
  show Intact _ _ _ _ _ stage [] t.got
  rw [hGot]
  refine { h with
    going := hGoing
    kind := hKind.trans h.kind
    connected := ?_, request := ?_, requestOpen := ?_, requestSent := ?_, finished := ?_ }
  · show 3 ≤ t.chain.place → _
    rw [hChain]
    exact h.connected
  · intro g hg
    rw [written]
    show Stream.Delivers _ _ (if t.chain.beforeWrite then [] else _)
    rw [hChain]
    exact h.request g hg
  · show t.chain ≠ .idle → _
    rw [hChain]
    exact h.requestOpen
  · show 7 ≤ t.chain.place → t.chain ≠ .idle → _
    rw [hChain]
    exact h.requestSent
  · show t.chain = _ ∨ t.chain = _ → _
    rw [hChain]
    exact h.finished

theorem Smooth.send (h : x.Smooth app r serverUrl serverPort got stage) {n : ℕ} {c : Stream UInt8}
    (hSend : x.reply.send n = some c) : Smooth app r serverUrl serverPort { x with reply := c } got stage := by
  obtain ⟨-, hEnded, hLess⟩ := Stream.send_spec hSend
  rcases stage with _ | id | ⟨id, g⟩ | ⟨id, q⟩ | ⟨id, q⟩ | qs
  · exact hEnded.trans h
  · exact ⟨hEnded.trans h.1, h.2⟩
  · exact ⟨hEnded.trans h.1, h.2⟩
  · exact ⟨hEnded.trans h.1, h.2⟩
  · exact ⟨hEnded.trans h.1, h.2.send hSend⟩
  · rw [h.2.1] at hLess
    cases hLess

theorem Smooth.receive (h : x.Smooth app r serverUrl serverPort got stage) {n : ℕ} {data : Bytes} {c : Stream UInt8}
    (hReceive : x.reply.receive n = some (data, c)) :
    Smooth app r serverUrl serverPort { x with reply := c } (got ++ data) stage := by
  obtain ⟨-, hUnsent, hEnded, -⟩ := Stream.receive_spec hReceive
  rcases stage with _ | id | ⟨id, g⟩ | ⟨id, q⟩ | ⟨id, q⟩ | qs
  · exact hEnded.trans h
  · exact ⟨hEnded.trans h.1, h.2⟩
  · exact ⟨hEnded.trans h.1, h.2⟩
  · exact ⟨hEnded.trans h.1, h.2⟩
  · exact ⟨hEnded.trans h.1, h.2.receive hReceive⟩
  · obtain ⟨hOver, hSent, q, rfl, hDelivers⟩ := h
    exact ⟨hEnded.trans hOver, hUnsent.trans hSent, q, rfl, hDelivers.receive hReceive⟩

theorem isWriting_iff : x.isWriting = true ↔ ∃ bytes, x.client.chain = .pending (.write bytes) := by
  unfold isWriting
  split
  · rename_i bytes hChain
    exact iff_of_true rfl ⟨bytes, hChain⟩
  · rename_i hOther
    refine iff_of_false (by simp) ?_
    rintro ⟨bytes, hChain⟩
    exact hOther bytes hChain

theorem Intact.accept (h : x.Intact app r serverUrl serverPort none [] got) {kind : ServerKind} {mRequest : Request}
    {major minor : Int} {mReply : Reply} {st : Stage} (hGot : Stage.got (some st) = some [])
    (hStage : st = .read 0 [] ∨ st = .handshake 0 ∧ x.scheme = .https) :
    Intact app r serverUrl serverPort
    { x with session := some (serverSession kind mRequest major minor mReply) } (some st) []
      got := by
  obtain ⟨phase, op, -, -, hStart⟩ := serverSession_eq kind mRequest major minor mReply
  rw [hStart]
  refine { h with listening := ?_, unexpired := ?_, request := ?_, smooth := ?_, finished := ?_ }
  · intro s hs
    obtain rfl := Option.some.inj hs
    rfl
  · intro s hs w hw
    obtain rfl := Option.some.inj hs
    cases hw
  · intro g hg
    obtain rfl := Option.some.inj (hGot.symm.trans hg)
    exact h.request [] rfl
  · rcases hStage with rfl | ⟨rfl, hScheme⟩
    · exact ⟨h.smooth, by simp [Request.toBytes, crlf, ascii]⟩
    · exact ⟨h.smooth, hScheme⟩
  · intro hEnd
    obtain ⟨q, hOver, -⟩ := h.finished hEnd
    cases hOver

/-! ### Every run without faults -/

theorem intact_step (hReq : r.Encodable serverUrl serverPort) (hApp : ∀ q, q.Agrees r → (app q).Encodable) {e : Event}
    (hClean : e.isFault = false) (hSound : x.Sound app r serverUrl serverPort stage [] x.client.got)
    (h : x.Intact app r serverUrl serverPort stage [] x.client.got) (hStep : x.step app message e = some y) :
    ∃ stage', y.Sound app r serverUrl serverPort stage' [] y.client.got ∧
      y.Intact app r serverUrl serverPort stage' [] y.client.got := by
  have hEmpty : [] ≠ r.toBytes serverUrl serverPort := by simp [Request.toBytes, crlf, ascii]
  have hReady {op : ClientOperation} {result : IoResult} (hChain : x.client.chain = .pending op)
      (hGains : x.client.gains (.ready result) = []) (hStep : x.clientStep message (.ready result) = some y)
      (hResult : ∀ ec, result = .error ec → op = .read ∧ ec = .eof ∧ x.reply.atEnd = true) (hOther : op ≠ .connect)
      (hSent : (∃ bytes, op = .write bytes) → x.request.unsent = []) :
      ∃ stage', y.Sound app r serverUrl serverPort stage' [] y.client.got ∧
        y.Intact app r serverUrl serverPort stage' [] y.client.got := by
    have hSound' := Sound.clientStep (e := .ready result) (by rwa [hGains, List.append_nil]) hApp hStep
    have hGot : y.client.got = x.client.got := by
      obtain ⟨t, ht, rfl⟩ := clientStep_eq_some.mp hStep
      exact (Client.got_step ht).trans (by rw [hGains, List.append_nil])
    refine ⟨stage, hSound', ?_⟩
    rw [hGot]
    obtain rfl := clientStep_ready hChain hStep
    exact h.ready hChain hResult (b := x.connected) (fun hSome => hSome.resolve_right hOther) hSent
  cases e with
  | clientExpires => cases hClean
  | serverExpires => cases hClean
  | clientFails ec => cases hClean
  | serverFails id ec => cases hClean
  | serverStops => cases hClean
  | resolve =>
    obtain ⟨hChain, hStep⟩ := Option.ite_none_right_eq_some.mp hStep
    exact hReady hChain (gains_ready_nil _) hStep (by simp) (by simp) (by simp)
  | connect =>
    obtain ⟨hChain, hStep⟩ := Option.ite_none_right_eq_some.mp hStep
    obtain ⟨z, hz, rfl⟩ := Option.map_eq_some_iff.mp hStep
    have hSound' := Sound.clientStep (e := .ready (.ok [])) (by rwa [gains_ready_nil, List.append_nil]) hApp hz
    have hGot : z.client.got = x.client.got := by
      obtain ⟨t, ht, rfl⟩ := clientStep_eq_some.mp hz
      exact (Client.got_step ht).trans (by rw [gains_ready_nil, List.append_nil])
    refine ⟨stage, hSound'.connected true, ?_⟩
    show Intact _ _ _ _ _ stage [] z.client.got
    rw [hGot]
    obtain rfl := clientStep_ready hChain hz
    exact h.ready hChain (by simp) (b := true) (fun _ => rfl) (by simp)
  | accept mRequest major minor mReply =>
    obtain ⟨⟨-, hNone⟩, hStep⟩ := Option.ite_none_right_eq_some.mp hStep
    obtain rfl := Option.some.inj hStep
    cases stage with
    | some st =>
      obtain ⟨s, hSession, -⟩ := hSound.atStage
      rw [hSession] at hNone
      cases hNone
    | none =>
      obtain ⟨st, hAt, hGot, hHttp, hHttps⟩ := at_serverSession (r := r) x.scheme.server mRequest major minor mReply
      refine ⟨some st, hSound.accept hAt hGot, h.accept hGot ?_⟩
      cases hScheme : x.scheme with
      | http => exact .inl (hHttp (by rw [hScheme]; rfl))
      | https => exact .inr ⟨hHttps (by rw [hScheme]; rfl), rfl⟩
  | clientHandshake =>
    obtain ⟨⟨hChain, -⟩, hStep⟩ := Option.ite_none_right_eq_some.mp hStep
    exact hReady hChain (gains_ready_nil _) hStep (by simp) (by simp) (by simp)
  | serverHandshake id =>
    obtain ⟨⟨hAwaits, -⟩, hStep⟩ := Option.ite_none_right_eq_some.mp hStep
    obtain ⟨id', hSound', rfl, hReply, hListening⟩ := hSound.handshake hAwaits hStep
    rw [(sessionStep_frame hStep).1]
    refine ⟨_, hSound', h.session (by simp) hStep hListening ?_ ?_ (by simp)⟩
    · intro g hg
      obtain rfl := Option.some.inj hg
      exact h.request [] rfl
    · exact ⟨hReply ▸ h.smooth.1, hEmpty⟩
  | sendRequest n =>
    obtain ⟨c, hSend, rfl⟩ := Option.map_eq_some_iff.mp hStep
    obtain ⟨-, hEnded, hLess⟩ := Stream.send_spec hSend
    refine ⟨stage, hSound.sendRequest hSend, { h with
      request := fun g hg => (h.request g hg).send hSend
      requestOpen := fun hBusy => hEnded.trans (h.requestOpen hBusy)
      requestSent := ?_ }⟩
    intro hLate hBusy
    rw [h.requestSent hLate hBusy] at hLess
    cases hLess
  | requestSent =>
    obtain ⟨⟨hWriting, hSent⟩, hStep⟩ := Option.ite_none_right_eq_some.mp hStep
    obtain ⟨bytes, hChain⟩ := isWriting_iff.mp hWriting
    exact hReady hChain (gains_ready_nil _) hStep (by simp) (by simp) fun _ => hSent
  | receiveRequest id n =>
    obtain ⟨hAwaits, hStep⟩ := Option.ite_none_right_eq_some.mp hStep
    obtain ⟨⟨data, c⟩, hReceive, hStep⟩ := Option.bind_eq_some_iff.mp hStep
    obtain ⟨-, hUnsent, hEnded, -⟩ := Stream.receive_spec hReceive
    have hSent : Intact app r serverUrl serverPort { x with request := c } stage data x.client.got :=
      { h with
        request := fun g hg => (List.append_nil g ▸ h.request g hg).receive hReceive
        requestOpen := fun hBusy => hEnded.trans (h.requestOpen hBusy)
        requestSent := fun hLate hBusy => hUnsent.trans (h.requestSent hLate hBusy) }
    obtain ⟨hListening, hReply, g, id', rfl, hNext⟩ := (hSound.receiveRequest hReceive).readSome hReq hAwaits hStep
    rw [(sessionStep_frame hStep).1]
    have hOpen : y.reply.ended = false := hReply ▸ h.smooth.1
    rcases hNext with ⟨q, hSound', hDue⟩ | ⟨hSound', hMore⟩
    · exact ⟨_, hSound', hSent.session (by simp) hStep hListening (fun g hg => (by cases hg)) ⟨hOpen, hDue⟩ (by simp)⟩
    · refine ⟨_, hSound', hSent.session (by simp) hStep hListening ?_ ⟨hOpen, hMore⟩ (by simp)⟩
      intro g' hg'
      obtain rfl := Option.some.inj hg'
      exact hSent.request g rfl
  | answer =>
    obtain ⟨rep, hDue, hStep⟩ := Option.bind_eq_some_iff.mp hStep
    obtain ⟨id, q, rfl, ⟨hDeaf, -⟩ | ⟨id', hSound', hListening, hGot, hRest, hReply⟩⟩ := hSound.answer hDue hStep
    · exact absurd h.listening hDeaf
    · rw [(sessionStep_frame hStep).1]
      refine ⟨_, hSound', h.session (by simp) hStep (fun _ => hListening) (fun g hg => (by cases hg)) ⟨?_, ?_⟩
        (by simp)⟩
      · rw [hReply, Stream.ended_write]
        exact h.smooth.1
      · rw [hReply]
        refine Stream.Delivers.write ?_ h.smooth.1 _
        show x.client.got ++ x.reply.rest = []
        rw [hGot, hRest]
        rfl
  | sendReply n =>
    obtain ⟨c, hSend, rfl⟩ := Option.map_eq_some_iff.mp hStep
    exact ⟨stage, hSound.sendReply hSend, { h with smooth := h.smooth.send hSend }⟩
  | replySent id =>
    obtain ⟨⟨hAwaits, hSent⟩, hStep⟩ := Option.ite_none_right_eq_some.mp hStep
    obtain ⟨q, rfl, hSound', hReply, hListening⟩ := hSound.replySent hAwaits hStep
    rw [(sessionStep_frame hStep).1]
    refine ⟨_, hSound', h.session (by simp) hStep hListening (fun g hg => (by cases hg)) ?_ (by simp)⟩
    rw [Smooth, hReply]
    exact ⟨rfl, rfl, q, rfl, h.smooth.2.shut hSent⟩
  | receiveReply n =>
    obtain ⟨hChain, hStep⟩ := Option.ite_none_right_eq_some.mp hStep
    obtain ⟨⟨data, c⟩, hReceive, hStep⟩ := Option.bind_eq_some_iff.mp hStep
    have hGains : x.client.gains (.ready (.ok data)) = data := if_pos hChain
    have hRead : Intact app r serverUrl serverPort { x with reply := c } stage [] (x.client.got ++ data) :=
      { h with
        smooth := h.smooth.receive hReceive
        finished := fun hEnd => by simp [hChain] at hEnd }
    have hSound' := hSound.receive hReceive
    rw [← hGains] at hSound'
    refine ⟨stage, Sound.clientStep hSound' hApp hStep, ?_⟩
    have hGot : y.client.got = x.client.got ++ data := by
      obtain ⟨t, ht, rfl⟩ := clientStep_eq_some.mp hStep
      exact (Client.got_step ht).trans (by rw [hGains])
    rw [hGot]
    obtain rfl := clientStep_ready (x := { x with reply := c }) hChain hStep
    exact hRead.ready hChain (by simp) (b := x.connected) (fun hSome => hSome.resolve_right (by simp)) (by simp)
  | replyEnds =>
    obtain ⟨⟨hChain, hAtEnd⟩, hStep⟩ := Option.ite_none_right_eq_some.mp hStep
    exact hReady hChain rfl hStep (by rintro ec ⟨⟩; exact ⟨rfl, rfl, hAtEnd⟩) (by simp) (by simp)
  | deliver =>
    have hGains : x.client.got ++ x.client.gains .deliver = x.client.got := List.append_nil _
    exact ⟨stage, Sound.clientStep (hGains.symm ▸ hSound) hApp hStep, h.deliver hSound hApp hStep⟩
  | clientWait i =>
    have hGains : x.client.got ++ x.client.gains (.runWait i) = x.client.got := List.append_nil _
    exact ⟨stage, Sound.clientStep (hGains.symm ▸ hSound) hApp hStep, h.clientWait hStep⟩
  | serverWait i =>
    have hSound' := hSound.outside rfl hStep
    have hIntact := h.serverWait hStep
    rw [(sessionStep_frame hStep).1]
    exact ⟨stage, hSound', hIntact⟩

/-! ### Something can always happen -/

def Event.isWait : Event → Bool
  | .clientWait _ | .serverWait _ => true
  | _ => false

/-- The exchange goes on: the event is neither a fault nor the end of a wait that was aborted. -/
def Proceeds (app : Request → Reply) (message : Messages) (x : Exchange) (e : Event) : Prop :=
  e.isFault = false ∧ e.isWait = false ∧ (x.step app message e).isSome = true

theorem exists_clientStep {e : Client.Event} {t : Client} (h : x.client.step message e = some t) :
    (x.clientStep message e).isSome = true := by
  rw [clientStep, h]
  rfl

theorem exists_sessionStep {e : Session.Event} {s t : Session} (hSession : x.session = some s)
    (h : s.step e = some t) :
    (x.sessionStep app e).isSome = true := by
  rw [sessionStep, hSession, Option.bind_some, h]
  rfl

theorem exists_ready {op : ClientOperation} (hChain : x.client.chain = .pending op) {result : IoResult}
    (hPossible : x.client.Possible op result = true) : (x.clientStep message (.ready result)).isSome = true := by
  refine exists_clientStep (t := { x.client with chain := .queued op result }) ?_
  rw [Client.step, hChain]
  exact if_pos hPossible

theorem proceeds_accept (h : x.Intact app r serverUrl serverPort none sent got)
    (hSound : x.Sound app r serverUrl serverPort none sent got) (hPlace : 3 ≤ x.client.chain.place) :
    x.Proceeds app message (.accept ⟨[], [], 0, 0, [], []⟩ 0 0 ⟨0, [], []⟩) := by
  have hNone : x.session = none := hSound.atStage
  refine ⟨rfl, rfl, ?_⟩
  simp [step, h.connected hPlace, hNone]

theorem Intact.session_proceeds {st : Stage} (h : x.Intact app r serverUrl serverPort (some st) [] got)
    (hSound : x.Sound app r serverUrl serverPort (some st) [] got) (hChain : x.client.chain = .pending .read)
    (hOpen : x.reply.ended = false) : ∃ e, x.Proceeds app message e := by
  obtain ⟨s, hSession, hAt⟩ := hSound.atStage
  have hSmooth := h.smooth
  have hAwaits {id : ℕ} {op : Operation} (hOp : s.outstanding = [(id, op)]) : x.awaits id op = true := by
    simp [awaits, hSession, hOp]
  cases hAt with
  | @handshake id hOp hHas hHanded =>
    have hKind : x.client.kind = .https := by
      rw [h.kind, hSmooth.2]
      rfl
    have hShaken := h.going.shaken hKind (by rw [hChain]; simp [Chain.place, ClientOperation.rank])
    refine ⟨.serverHandshake id, rfl, rfl, ?_⟩
    rw [step, if_pos ⟨hAwaits hOp, hShaken⟩]
    exact exists_sessionStep hSession (t := (s.finish id).onHandshake (.ok []))
      (by simp [Session.step, hOp, Session.handler])
  | @read id g hOp hHas hHanded =>
    have hDelivers := h.request g rfl
    have hSent := h.requestSent (by rw [hChain]; simp [Chain.place, ClientOperation.rank]) (by simp [hChain])
    have hFlying : x.request.inFlight ≠ [] := by
      intro hNone
      have hAll := hDelivers.got_eq (by rw [Stream.rest, hNone, hSent]; rfl)
      rw [List.append_nil, written, hChain] at hAll
      exact hSmooth.2 hAll
    obtain ⟨a, c, hReceive⟩ := Stream.exists_receive hFlying
    refine ⟨.receiveRequest id 1, rfl, rfl, ?_⟩
    rw [step, if_pos (hAwaits hOp), hReceive, Option.bind_some]
    refine exists_sessionStep (x := { x with request := c }) hSession (t := (s.finish id).onReadSome (.ok [a])) ?_
    simp [Session.step, hOp, Session.handler, Session.bufferSize]
  | @handle id q hOp hHanded hAgrees =>
    refine ⟨.answer, rfl, rfl, ?_⟩
    rw [step, hSmooth.2, Option.bind_some]
    refine exists_sessionStep (x := { x with due := none }) hSession (t := s.onReply (app q)) ?_
    rw [Session.step, if_pos (Session.handled_of_handedOver hHanded)]
  | @write id q hOp hHanded hAgrees =>
    by_cases hSent : x.reply.unsent = []
    · refine ⟨.replySent id, rfl, rfl, ?_⟩
      rw [step, if_pos ⟨hAwaits hOp, hSent⟩]
      exact exists_sessionStep hSession (t := (s.finish id).onWrite (.ok []))
        (by simp [Session.step, hOp, Session.handler])
    · obtain ⟨c, hSend⟩ := Stream.exists_send hSent
      refine ⟨.sendReply 1, rfl, rfl, ?_⟩
      rw [step, hSend]
      rfl
  | ended hOp hHanded hLength hAgrees =>
    rw [hSmooth.1] at hOpen
    cases hOpen

theorem Intact.proceeds (h : x.Intact app r serverUrl serverPort stage [] got)
    (hSound : x.Sound app r serverUrl serverPort stage [] got) (hBusy : x.client.chain ≠ .idle) :
    ∃ e, x.Proceeds app message e := by
  cases hChain : x.client.chain with
  | idle => exact absurd hChain hBusy
  | queued op result =>
    refine ⟨.deliver, rfl, rfl, ?_⟩
    refine exists_clientStep (t := Client.handler message { x.client with chain := .idle } op result) ?_
    rw [Client.step, hChain]
  | pending op =>
    have hPlace : x.client.chain.place = 2 * op.rank := by rw [hChain]; rfl
    have hOpened (hLate : 1 ≤ op.rank) : x.client.isOpen = true := h.going.opened (by omega) hBusy
    cases op with
    | resolve =>
      refine ⟨.resolve, rfl, rfl, ?_⟩
      rw [step, if_pos hChain]
      exact exists_ready hChain (by simp [Client.Possible])
    | connect =>
      refine ⟨.connect, rfl, rfl, ?_⟩
      rw [step, if_pos hChain, Option.isSome_map]
      exact exists_ready hChain (by simp [Client.Possible, hOpened (by simp [ClientOperation.rank])])
    | handshake =>
      cases stage with
      | none => exact ⟨_, proceeds_accept h hSound (by rw [hPlace]; simp [ClientOperation.rank])⟩
      | some st =>
        obtain ⟨s, hSession, -⟩ := hSound.atStage
        refine ⟨.clientHandshake, rfl, rfl, ?_⟩
        rw [step, if_pos ⟨hChain, by simp [hSession]⟩]
        exact exists_ready hChain (by simp [Client.Possible, hOpened (by simp [ClientOperation.rank])])
    | write bytes =>
      by_cases hSent : x.request.unsent = []
      · refine ⟨.requestSent, rfl, rfl, ?_⟩
        rw [step, if_pos ⟨isWriting_iff.mpr ⟨bytes, hChain⟩, hSent⟩]
        exact exists_ready hChain (by simp [Client.Possible, hOpened (by simp [ClientOperation.rank])])
      · obtain ⟨c, hSend⟩ := Stream.exists_send hSent
        refine ⟨.sendRequest 1, rfl, rfl, ?_⟩
        rw [step, hSend]
        rfl
    | read =>
      have hReads (data : Bytes) (hSome : data ≠ []) (hShort : data.length ≤ Client.contentBufferSize) :
          x.client.Possible .read (.ok data) = true := by
        simp [Client.Possible, hOpened (by simp [ClientOperation.rank]), hSome, hShort]
      by_cases hFlying : x.reply.inFlight = []
      · cases hEnded : x.reply.ended with
        | true =>
          refine ⟨.replyEnds, rfl, rfl, ?_⟩
          rw [step, if_pos ⟨hChain, Stream.atEnd_iff.mpr ⟨hEnded, hFlying⟩⟩]
          exact exists_ready hChain rfl
        | false =>
          cases stage with
          | none => exact ⟨_, proceeds_accept h hSound (by rw [hPlace]; simp [ClientOperation.rank])⟩
          | some st => exact h.session_proceeds hSound hChain hEnded
      · obtain ⟨a, c, hReceive⟩ := Stream.exists_receive hFlying
        refine ⟨.receiveReply 1, rfl, rfl, ?_⟩
        rw [step, if_pos hChain, hReceive, Option.bind_some]
        exact exists_ready (x := { x with reply := c }) hChain
          (hReads [a] (by simp) (by simp [Client.contentBufferSize]))

/-- At the end the client has read the whole reply. -/
theorem Intact.answered (h : x.Intact app r serverUrl serverPort stage [] x.client.got)
    (hSound : x.Sound app r serverUrl serverPort stage [] x.client.got) (hApp : ∀ q, q.Agrees r → (app q).Encodable)
    (hIdle : x.client.chain = .idle) :
    ∃ q rep, x.handedOver = [q] ∧ q.Agrees r ∧ x.client.answers = [([], rep)] ∧
      rep.statusCode = (app q).statusCode ∧ rep.content = (app q).content := by
  obtain ⟨q, rfl, hGot⟩ := h.finished (.inr hIdle)
  have hAgrees := hSound.atStage.handedOver.2 q (by simp [Stage.handedOver, Stage.handed])
  have hRead : x.client.received.flatten = (app q).toBytes := by
    rw [← hGot, Client.got, hIdle]
    exact (List.append_nil _).symm
  obtain ⟨-, hEnd⟩ := (hApp q hAgrees).holds hSound.has (hRead ▸ List.prefix_rfl)
  exact ⟨q, _, hSound.atStage.handedOver_eq, hAgrees, h.going.answered hIdle, hEnd hRead⟩

theorem intact_exchange (scheme : Scheme) (statusCode : ℕ) :
    (exchange scheme serverUrl serverPort r statusCode).Intact app r serverUrl serverPort none [] [] where
  going :=
    ⟨by simp [exchange, httpClient, Client.run, Client.start, Client.emit, Timer.expiresFromNow, Timer.cancel,
      Timer.settle,
        Timer.asyncWait], fun hLate => (nomatch hLate), fun _ hLate => (nomatch hLate), fun _ _ hChain =>
          (nomatch hChain),
      fun _ => rfl, fun hIdle => (nomatch hIdle)⟩
  kind := rfl
  listening s hs := nomatch hs
  unexpired s hs := nomatch hs
  connected hLate := nomatch hLate
  request g hg := by
    obtain rfl := Option.some.inj hg
    rfl
  requestOpen _ := rfl
  requestSent hLate := nomatch hLate
  smooth := rfl
  finished hEnd := by
    rcases hEnd with hEnd | hEnd
    · cases hEnd
    · cases hEnd

theorem exists_intact {scheme : Scheme} {statusCode : ℕ} {events : List Event}
    (hReq : r.Encodable serverUrl serverPort)
    (hApp : ∀ q, q.Agrees r → (app q).Encodable) (hClean : ∀ e ∈ events, e.isFault = false)
    (hRun : PartialRun.run (step app message) (exchange scheme serverUrl serverPort r statusCode) events = some x) :
    ∃ stage, x.Sound app r serverUrl serverPort stage [] x.client.got ∧
      x.Intact app r serverUrl serverPort stage [] x.client.got := by
  have hAlong : PartialRun.Along (step app message) (fun _ e => e.isFault = false)
      (exchange scheme serverUrl serverPort r statusCode) events :=
        PartialRun.along_of_forall_mem (fun e he _ => hClean e he) _
  refine hAlong.run (I := fun x : Exchange => ∃ stage, x.Sound app r serverUrl serverPort stage [] x.client.got ∧
    x.Intact app r serverUrl serverPort stage [] x.client.got) ?_
    ⟨none, sound_exchange scheme statusCode, intact_exchange scheme statusCode⟩ hRun
  rintro x e y ⟨stage, hSound, hIntact⟩ hFree hStep
  exact intact_step hReq hApp hFree hSound hIntact hStep

end Exchange

open Exchange

/-- In every run without faults: as long as the caller was told nothing the exchange goes on, and what it is told,
once and without an error, is the status and the content of the reply that the handler made of its request. -/
theorem exchange_completes {scheme : Scheme} {serverUrl serverPort : Bytes} {r : Request} {statusCode : ℕ}
    {app : Request → Reply} {message : Messages} {events : List Event} {x : Exchange}
    (hReq : r.Encodable serverUrl serverPort) (hApp : ∀ q, q.Agrees r → (app q).Encodable)
    (hClean : ∀ e ∈ events, e.isFault = false)
    (hRun : PartialRun.run (step app message) (exchange scheme serverUrl serverPort r statusCode) events = some x) :
    x.client.answers = [] ∧ (∃ e, x.Proceeds app message e) ∨
      ∃ q rep, x.handedOver = [q] ∧ q.Agrees r ∧ x.client.answers = [([], rep)] ∧
        rep.statusCode = (app q).statusCode ∧ rep.content = (app q).content := by
  obtain ⟨stage, hSound, hIntact⟩ := exists_intact hReq hApp hClean hRun
  by_cases hIdle : x.client.chain = .idle
  · exact .inr (hIntact.answered hSound hApp hIdle)
  · exact .inl ⟨hIntact.going.unanswered hIdle, hIntact.proceeds hSound hIdle⟩

/-- A run of the two https classes to its end. -/
def wholeExchange : List Event :=
  [.resolve, .deliver, .connect, .deliver, .accept ⟨[], [], 0, 0, [], []⟩ 0 0 ⟨0, [], []⟩, .clientHandshake, .deliver,
    .serverHandshake 0, .sendRequest 125, .requestSent, .deliver, .receiveRequest 1 50, .serverWait 0,
      .receiveRequest 2 75,
    .answer, .sendReply 94, .receiveReply 80, .deliver, .replySent 4, .receiveReply 14, .deliver, .replyEnds,
      .deliver]

theorem wholeExchange_completes :
    ∃ x, PartialRun.run (step echo fun _ => []) (exchange .https (ascii "localhost") (ascii "80") putRequest 0)
        wholeExchange = some x ∧
      ∃ q rep, q.Agrees putRequest ∧ x.client.answers = [([], rep)] ∧ rep.statusCode = 200 ∧
        rep.content = (echo q).content := by
  have hRuns : ((PartialRun.run (step echo fun _ => [])
      (exchange .https (ascii "localhost") (ascii "80") putRequest 0)
      wholeExchange).map fun x => x.client.answers.length) = some 1 := by decide +kernel
  obtain ⟨x, hRun, hTold⟩ := Option.map_eq_some_iff.mp hRuns
  refine ⟨x, hRun, ?_⟩
  rcases exchange_completes putRequest_encodable echo_encodable (by decide) hRun with ⟨hNone, -⟩ | hEnd
  · rw [hNone] at hTold
    cases hTold
  · obtain ⟨q, rep, -, hAgrees, hAnswers, hStatus, hContent⟩ := hEnd
    exact ⟨q, rep, hAgrees, hAnswers, hStatus, hContent⟩

end HttpUtils
