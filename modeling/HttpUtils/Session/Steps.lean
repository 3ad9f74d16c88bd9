import HttpUtils.Session.ServerSession

/-!
# What an event does to a session

Some events make the session go on: a handshake or a read that succeeds, and a reply that is accepted. Each of
them cancels the timer, sets it for the next phase and starts one operation. No other event starts anything.
-/

namespace HttpUtils
set_option autoImplicit false

open WaitableTimer

def Effect.starts : Effect → Bool
  | .started _ _ | .invokedHandler _ | .assignedReplyStr => true
  | _ => false

namespace Session

/-- The operation with this number is the handshake or a read. -/
def Inputs (s : Session) (id : ℕ) : Prop :=
  s.outstanding.lookup id = some .handshake ∨ s.outstanding.lookup id = some .readSome

def Progress (s : Session) : Event → Prop
  | .complete id (.ok _) => s.Inputs id
  | .reply _ => s.mStopped = false
  | _ => False

def rest (s : Session) : Event → List (ℕ × Operation)
  | .complete id _ => s.outstanding.filter fun x => x.1 ≠ id
  | .reply _ => if s.mStopped then s.outstanding else s.outstanding.filter fun x => x.2 ≠ .handle
  | _ => s.outstanding

theorem rest_sublist (s : Session) (e : Event) : (s.rest e).Sublist s.outstanding := by
  cases e with
  | complete id result => exact List.filter_sublist
  | reply r =>
    simp only [rest]
    split
    · exact List.Sublist.refl _
    · exact List.filter_sublist
  | _ => exact List.Sublist.refl _

structure Began (s : Session) (e : Event) (phase : Phase) (op : Operation) (before after : List Effect)
    (t : Session) :
    Prop where
  timer : t.mConTimer = s.mConTimer.cancel.asyncWait ⟨phase, s.nextId⟩
  outstanding : t.outstanding = s.rest e ++ [(s.nextId, op)]
  nextId : t.nextId = s.nextId + 1
  history : t.history = s.history ++ (before ++ .started s.nextId op :: after)
  kind : t.kind = s.kind

structure Rested (s : Session) (e : Event) (effects : List Effect) (t : Session) : Prop where
  outstanding : t.outstanding = s.rest e
  nextId : t.nextId = s.nextId
  history : t.history = s.history ++ effects
  quiet : ∀ x ∈ effects, Effect.starts x = false
  live : ∀ w, t.mConTimer.Live w → s.mConTimer.Live w
  pending : ∀ w ∈ t.mConTimer.pending, w ∈ s.mConTimer.pending
  cancelled : ∀ id result, e = .complete id result → t.mConTimer = s.mConTimer.cancel
  kind : t.kind = s.kind

inductive Took (s : Session) : Event → Session → Prop where
  | reads {id : ℕ} {data : Bytes} {t : Session} (hInput : s.Inputs id)
      (hBegan : s.Began (.complete id (.ok data)) .readRequest .readSome [.finished id] [] t)
      (hStopped : t.mStopped = s.mStopped) : s.Took (.complete id (.ok data)) t
  | handles {id : ℕ} {data : Bytes} {t : Session} (hInput : s.Inputs id)
      (hBegan : s.Began (.complete id (.ok data)) .handleRequest .handle [.finished id]
        [.invokedHandler t.mRequest] t)
      (hStopped : t.mStopped = s.mStopped) : s.Took (.complete id (.ok data)) t
  | refuses {id : ℕ} {data : Bytes} {t : Session} (hInput : s.Inputs id)
      (hBegan : s.Began (.complete id (.ok data)) .writeReply .write [.finished id, .assignedReplyStr] [] t) :
      s.Took (.complete id (.ok data)) t
  | replies {r : Reply} {t : Session} (hOpen : s.mStopped = false) (hHandled : s.handled = true)
      (hBegan : s.Began (.reply r) .writeReply .write [.assignedReplyStr] [] t) : s.Took (.reply r) t
  | rests {e : Event} {effects : List Effect} {t : Session} (hRests : ¬ s.Progress e)
    (hRested : s.Rested e effects t) :
      s.Took e t

/-! ### The functions of the session -/

theorem withTimeout_eq {s : Session} (h : s.mConTimer.pending = []) (phase : Phase) (andThen : Session → Session) :
    s.withTimeout phase andThen =
      andThen { s with
        rearmed := s.rearmed ++ [0]
        mConTimer := s.mConTimer.cancel.asyncWait ⟨phase, s.nextId⟩ } := by
  simp [withTimeout, Timer.expiresFromNow_of_idle h]

theorem doWrite_eq {s : Session} (h : s.mConTimer.pending = []) :
    s.doWrite =
      (emit { s with
        rearmed := s.rearmed ++ [0]
        mConTimer := s.mConTimer.cancel.asyncWait ⟨.writeReply, s.nextId⟩
        mReplyStr := s.mReply.toBytes } .assignedReplyStr).begin .write := by
  unfold doWrite
  split
  · rw [withTimeout_eq (s := s.cancelTimer) rfl]
    simp [cancelTimer]
  · rw [withTimeout_eq h]

theorem managerStop_rested {s t : Session} {e : Event} {effects : List Effect} (h : s.Rested e effects t) :
    s.Rested e (effects ++ [.stopped]) t.managerStop := by
  obtain ⟨hOutstanding, hNextId, hHistory, hQuiet, hLive, hPending, hCancelled, hKind⟩ := h
  have hQuiet' : ∀ x ∈ effects ++ [.stopped], Effect.starts x = false := by
    intro x hx
    rcases List.mem_append.mp hx with hx | hx
    · exact hQuiet x hx
    · obtain rfl := List.mem_singleton.mp hx
      rfl
  unfold managerStop stop
  cases hCase : t.kind with
  | http =>
    refine ⟨hOutstanding, hNextId, ?_, hQuiet', hLive, hPending, hCancelled, ?_⟩
    · simp [emit, hHistory]
    · simpa [emit, hCase] using hKind
  | https =>
    refine ⟨hOutstanding, hNextId, ?_, hQuiet', ?_, ?_, ?_, ?_⟩
    · simp [emit, cancelTimer, hHistory]
    · intro w hw
      exact hLive w (.inr (Timer.live_cancel.mp hw))
    · intro w hw
      cases hw
    · intro id result hEvent
      simp [emit, cancelTimer, hCancelled id result hEvent]
    · simpa [emit, cancelTimer, hCase] using hKind

/-! ### The handlers -/

theorem reads_of_doRead {s u : Session} {id : ℕ} {data : Bytes} (hInput : s.Inputs id)
    (hTimer : u.mConTimer = s.mConTimer.cancel) (hOutstanding : u.outstanding = s.rest (.complete id (.ok data)))
    (hNextId : u.nextId = s.nextId) (hHistory : u.history = s.history ++ [.finished id]) (hKind : u.kind = s.kind)
    (hStopped : u.mStopped = s.mStopped) : s.Took (.complete id (.ok data)) u.doRead := by
  have hIdle : u.mConTimer.pending = [] := by rw [hTimer, Timer.pending_cancel]
  rw [doRead, withTimeout_eq hIdle]
  refine .reads hInput ⟨?_, ?_, ?_, ?_, hKind⟩ hStopped
  · simp [begin, emit, hTimer, hNextId]
  · simp [begin, emit, hOutstanding, hNextId]
  · simp [begin, emit, hNextId]
  · simp [begin, emit, hHistory, hNextId]

theorem onReadSome_took {s : Session} {id : ℕ} {data : Bytes} (hInput : s.Inputs id) :
    s.Took (.complete id (.ok data)) ((s.finish id).onReadSome (.ok data)) := by
  unfold onReadSome
  dsimp only
  generalize (s.finish id).cancelTimer.mRequestParser.parse data = x
  split
  · unfold handleRequest
    dsimp only
    rw [withTimeout_eq rfl]
    refine .handles hInput ⟨?_, rfl, rfl, ?_, rfl⟩ rfl
    · simp [begin, emit, finish, cancelTimer]
    · simp [begin, emit, finish, cancelTimer]
  · rw [doWrite_eq rfl]
    refine .refuses hInput ⟨?_, rfl, rfl, ?_, rfl⟩
    · simp [begin, emit, finish, cancelTimer]
    · simp [begin, emit, finish, cancelTimer]
  · exact reads_of_doRead hInput rfl rfl rfl rfl rfl rfl

theorem rested_finish (s : Session) (id : ℕ) (result : IoResult) :
    s.Rested (.complete id result) [.finished id] (s.finish id).cancelTimer where
  outstanding := rfl
  nextId := rfl
  history := rfl
  quiet := by simp [Effect.starts]
  live w hw := .inr (Timer.live_cancel.mp hw)
  pending w hw := nomatch hw
  cancelled _ _ _ := rfl
  kind := rfl

theorem handler_took {s t : Session} {id : ℕ} {op : Operation} {result : IoResult}
    (hOp : s.outstanding.lookup id = some op) (h : (s.finish id).handler op result = some t) :
    s.Took (.complete id result) t := by
  have hStop := managerStop_rested (rested_finish s id result)
  have hError (ec : ErrorCode) : ¬ s.Progress (.complete id (.error ec)) := not_false
  cases op with
  | handle => cases h
  | handshake =>
    obtain rfl := Option.some.inj h
    cases result with
    | ok data => exact reads_of_doRead (.inl hOp) rfl rfl rfl rfl rfl rfl
    | error ec => exact .rests (hError ec) hStop
  | readSome =>
    cases result with
    | ok data =>
      simp only [handler] at h
      split at h
      · obtain rfl := Option.some.inj h
        exact onReadSome_took (.inr hOp)
      · cases h
    | error ec =>
      obtain rfl := Option.some.inj h
      simp only [onReadSome]
      split
      · exact .rests (hError ec) hStop
      · exact .rests (hError ec) (rested_finish s id _)
  | write =>
    obtain rfl := Option.some.inj h
    cases result with
    | ok data =>
      refine .rests ?_ hStop
      rintro (hInput | hInput) <;>
        · rw [hOp] at hInput
          cases hInput
    | error ec =>
      simp only [onWrite]
      split
      · exact .rests (hError ec) hStop
      · exact .rests (hError ec) (rested_finish s id _)

theorem rested_refl {s : Session} {e : Event} (hRest : s.rest e = s.outstanding)
    (hOther : ∀ id result, e ≠ .complete id result) {timer : Timer Wait}
    (hLive : ∀ w, timer.Live w → s.mConTimer.Live w) (hPending : ∀ w ∈ timer.pending, w ∈ s.mConTimer.pending)
    (mStopped : Bool) : s.Rested e [] { s with mConTimer := timer, mStopped } where
  outstanding := hRest.symm
  nextId := rfl
  history := (List.append_nil _).symm
  quiet := by simp
  live := hLive
  pending := hPending
  cancelled id result hEvent := absurd hEvent (hOther id result)
  kind := rfl

theorem step_took {s t : Session} {e : Event} (h : s.step e = some t) : s.Took e t := by
  cases e with
  | serverStop =>
    simp only [step] at h
    split at h
    · obtain rfl := Option.some.inj h
      exact .rests id (managerStop_rested (rested_refl rfl (by simp) (fun _ hw => hw) (fun _ hw => hw) s.mStopped))
    · cases h
  | expire =>
    obtain rfl := Option.some.inj h
    exact .rests id (rested_refl rfl (by simp) (fun _ hw => Timer.live_expire.mp hw) (fun _ hw => nomatch hw)
      s.mStopped)
  | runWait i =>
    obtain ⟨⟨⟨w, c⟩, timer⟩, hTake, rfl⟩ := Option.map_eq_some_iff.mp h
    have hLive : ∀ w, timer.Live w → s.mConTimer.Live w := fun _ hw => Timer.live_of_take hTake hw
    have hPending : ∀ w ∈ timer.pending, w ∈ s.mConTimer.pending := by
      obtain ⟨-, rfl⟩ := Timer.take_eq_some.mp hTake
      exact fun _ hw => hw
    cases c with
    | aborted => exact .rests id (rested_refl rfl (by simp) hLive hPending s.mStopped)
    | expired =>
      have hTimedOut : s.Rested (.runWait i) [.timedOut w.phase]
          (emit { s with mConTimer := timer, mStopped := true } (.timedOut w.phase)) := by
        obtain ⟨hOutstanding, hNextId, -, -, hLive', hPending', hCancelled, hKind⟩ :=
          rested_refl (s := s) (e := .runWait i) rfl (by simp) hLive hPending true
        exact ⟨hOutstanding, hNextId, rfl, by simp [Effect.starts], hLive', hPending', hCancelled, hKind⟩
      exact .rests id (managerStop_rested hTimedOut)
  | complete id result =>
    obtain ⟨op, hOp, hHandler⟩ := Option.bind_eq_some_iff.mp h
    exact handler_took hOp hHandler
  | reply r =>
    simp only [step] at h
    split at h
    · rename_i hHandled
      obtain rfl := Option.some.inj h
      unfold onReply
      cases hStopped : s.mStopped with
      | true =>
        rw [if_pos rfl]
        refine .rests (by simp [Progress, hStopped])
          (rested_refl ?_ (by simp) (fun _ hw => hw) (fun _ hw => hw) s.mStopped)
        simp [rest, hStopped]
      | false =>
        rw [if_neg (by simp)]
        dsimp only
        rw [doWrite_eq rfl]
        refine .replies hStopped hHandled ⟨?_, ?_, rfl, ?_, rfl⟩
        · simp [begin, emit, cancelTimer]
        · simp [begin, emit, cancelTimer, rest, hStopped]
        · simp [begin, emit, cancelTimer]
    · cases h

theorem stopped_managerStop (s : Session) : .stopped ∈ s.managerStop.history := by
  unfold managerStop stop
  split <;> simp [emit, cancelTimer]

theorem managed_managerStop (s : Session) : s.managerStop.managed = false := by
  unfold managerStop stop
  split <;> rfl

/-- An event at which the session does not go on: it is stopped, or its timer and the operation that has been
aborted are all that changes. -/
inductive Halts (s : Session) : Event → Session → Prop where
  | stops {e : Event} (u : Session) : s.Halts e u.managerStop
  | expires : s.Halts .expire { s with mConTimer := s.mConTimer.expire }
  | drops {i : ℕ} {w : Wait} {timer : Timer Wait} (hTake : s.mConTimer.take i = some ((w, .aborted), timer)) :
      s.Halts (.runWait i) { s with mConTimer := timer }
  | ignores {r : Reply} (hStopped : s.mStopped = true) : s.Halts (.reply r) s
  | aborts {id : ℕ} : s.Halts (.complete id (.error .operationAborted)) (s.finish id).cancelTimer

theorem step_halts {s t : Session} {e : Event} (hStep : s.step e = some t) (hRests : ¬ s.Progress e) :
    s.Halts e t := by
  cases e with
  | serverStop =>
    simp only [step] at hStep
    split at hStep
    · obtain rfl := Option.some.inj hStep
      exact .stops s
    · cases hStep
  | expire =>
    obtain rfl := Option.some.inj hStep
    exact .expires
  | runWait i =>
    obtain ⟨⟨⟨w, c⟩, timer⟩, hTake, rfl⟩ := Option.map_eq_some_iff.mp hStep
    cases c with
    | aborted => exact .drops hTake
    | expired => exact .stops _
  | complete id result =>
    obtain ⟨op, hOp, hHandler⟩ := Option.bind_eq_some_iff.mp hStep
    cases result with
    | ok data =>
      cases op with
      | handle => cases hHandler
      | handshake => exact absurd (.inl hOp) hRests
      | readSome => exact absurd (.inr hOp) hRests
      | write =>
        obtain rfl := Option.some.inj hHandler
        exact .stops _
    | error ec =>
      cases op with
      | handle => cases hHandler
      | handshake =>
        obtain rfl := Option.some.inj hHandler
        exact .stops _
      | readSome =>
        obtain rfl := Option.some.inj hHandler
        simp only [onReadSome]
        split
        · exact .stops _
        · rename_i hAborted
          rw [not_not.mp hAborted]
          exact .aborts
      | write =>
        obtain rfl := Option.some.inj hHandler
        simp only [onWrite]
        split
        · exact .stops _
        · rename_i hAborted
          rw [not_not.mp hAborted]
          exact .aborts
  | reply r =>
    simp only [step] at hStep
    split at hStep
    · obtain rfl := Option.some.inj hStep
      have hStopped : s.mStopped = true := by simpa [Progress] using hRests
      rw [onReply, if_pos hStopped]
      exact .ignores hStopped
    · cases hStep

end Session

theorem serverSession_eq (kind : ServerKind) (mRequest : Request) (major minor : Int) (mReply : Reply) :
    ∃ phase op, phase.operation = op ∧ (op = .handshake ∨ op = .readSome) ∧
      serverSession kind mRequest major minor mReply =
        { kind, mRequest, mReply
          mRequestParser := httpRequestParser major minor
          mConTimer := ⟨[⟨phase, 0⟩], []⟩
          rearmed := [0]
          outstanding := [(0, op)]
          nextId := 1
          history := [.started 0 op] } := by
  cases kind with
  | http => exact ⟨.readRequest, .readSome, rfl, .inr rfl, rfl⟩
  | https => exact ⟨.doHandshake, .handshake, rfl, .inl rfl, rfl⟩

/-! ### A session to look at -/

def getRequest : Bytes := ascii "GET / HTTP/1.1\r\n\r\n"

def bareSession (kind : ServerKind) : Session := serverSession kind ⟨[], [], 0, 0, [], []⟩ 0 0 ⟨0, [], []⟩

end HttpUtils
