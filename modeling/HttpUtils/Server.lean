import HttpUtils.Session.Steps

/-!
# `http_server` and `https_server`

The sessions of a server, numbered as they were accepted; the manager holds some of them. The handlers run one
at a time.
-/

namespace HttpUtils
set_option autoImplicit false

open WaitableTimer

structure Server where
  kind : ServerKind
  /-- `m_acceptor.is_open()` -/
  isOpen : Bool := true
  /-- An `async_accept` is outstanding. -/
  accepting : Bool := true
  sessions : List Session := []

namespace Server

/-- The handler of `async_accept`, with the new session unless there was an error. -/
def onAccept (s : Server) (accepted : Option Session) : Server :=
  if s.isOpen then { s with sessions := s.sessions ++ accepted.toList }
  else { s with accepting := false }

/-- `stop_all` of the manager. -/
def stopAll (s : Server) : Server :=
  { s with sessions := s.sessions.map fun c => if c.managed then c.managerStop else c }

def stop (s : Server) : Server := stopAll { s with isOpen := false }

def getSessionCount (s : Server) : ℕ := s.sessions.countP fun c => c.managed

/-- An accepted connection comes with the fields that its session leaves uninitialised. -/
inductive Event where
  | accept (mRequest : Request) (major minor : Int) (mReply : Reply)
  | acceptError
  | stop
  | session (i : ℕ) (e : Session.Event)
  deriving DecidableEq, Repr

def step (s : Server) : Event → Option Server
  | .accept mRequest major minor mReply =>
    if s.accepting then some (s.onAccept (some (serverSession s.kind mRequest major minor mReply))) else none
  | .acceptError => if s.accepting then some (s.onAccept none) else none
  | .stop => some s.stop
  | .session _ .serverStop => none
  | .session i e => s.sessions[i]?.bind fun c => (c.step e).map fun c => { s with sessions := s.sessions.set i c }

/-- What holds of a new session and is kept by its steps holds of every session. -/
theorem sessions_step {I : Session → Prop} {s t : Server} {e : Event}
    (hNew : ∀ mRequest major minor mReply, I (serverSession s.kind mRequest major minor mReply))
    (hStop : ∀ c, I c → I c.managerStop) (hSession : ∀ i e' c c', e = .session i e' → I c →
      c.step e' = some c' → I c')
    (hs : ∀ c ∈ s.sessions, I c) (hStep : s.step e = some t) : ∀ c ∈ t.sessions, I c := by
  have hAccept (accepted : Option Session) (hAccepted : ∀ c ∈ accepted, I c) :
      ∀ c ∈ (s.onAccept accepted).sessions, I c := by
    unfold onAccept
    split
    · intro c hc
      rcases List.mem_append.mp hc with hc | hc
      · exact hs c hc
      · exact hAccepted c (Option.mem_toList.mp hc)
    · exact hs
  cases e with
  | accept mRequest major minor mReply =>
    simp only [step] at hStep
    split at hStep
    · obtain rfl := Option.some.inj hStep
      refine hAccept _ ?_
      rintro c hc
      obtain rfl := Option.some.inj hc
      exact hNew mRequest major minor mReply
    · cases hStep
  | acceptError =>
    simp only [step] at hStep
    split at hStep
    · obtain rfl := Option.some.inj hStep
      exact hAccept none fun c hc => nomatch hc
    · cases hStep
  | stop =>
    obtain rfl := Option.some.inj hStep
    intro c hc
    obtain ⟨d, hd, rfl⟩ := List.mem_map.mp hc
    split
    · exact hStop d (hs d hd)
    · exact hs d hd
  | session i e' =>
    have hStep' : (s.sessions[i]?.bind fun c => (c.step e').map fun c =>
        { s with sessions := s.sessions.set i c }) = some t := by
      cases e' with
      | serverStop => cases hStep
      | _ => exact hStep
    obtain ⟨c, hGet, hMap⟩ := Option.bind_eq_some_iff.mp hStep'
    obtain ⟨c', hc', rfl⟩ := Option.map_eq_some_iff.mp hMap
    intro d hd
    rcases List.mem_or_eq_of_mem_set hd with hd | rfl
    · exact hs d hd
    · exact hSession i e' c d rfl (hs c (List.mem_of_getElem? hGet)) hc'

end Server

/-- A server after `run()`. -/
def server (kind : ServerKind) : Server := { kind }

/-! ### No session is left behind -/

namespace Session

def Watched (s : Session) : Prop := s.managed = true → ∃ w, s.mConTimer.Live w

def Guarded (s : Session) : Prop :=
  s.mConTimer.pending ≠ [] ∨
    ∃ i w t, s.mConTimer.queued[i]? = some (w, .expired) ∧ s.step (.runWait i) = some t ∧ t.managed = false

theorem Began.watched {s t : Session} {e : Event} {phase : Phase} {op : Operation} {before after : List Effect}
    (h : s.Began e phase op before after t) : t.Watched := by
  intro _
  exact ⟨⟨phase, s.nextId⟩, by rw [h.timer, Timer.live_asyncWait]; exact .inr rfl⟩

theorem watched_managerStop (s : Session) : s.managerStop.Watched := by
  intro hManaged
  rw [managed_managerStop] at hManaged
  cases hManaged

theorem watched_step {s t : Session} {e : Event} (hs : s.Watched)
    (hAborted : ∀ id, e ≠ .complete id (.error .operationAborted))
    (hStep : s.step e = some t) : t.Watched := by
  cases step_took hStep with
  | reads _ hBegan _ => exact hBegan.watched
  | handles _ hBegan _ => exact hBegan.watched
  | refuses _ hBegan => exact hBegan.watched
  | replies _ _ hBegan => exact hBegan.watched
  | rests hRests _ =>
    cases step_halts hStep hRests with
    | stops u => exact u.watched_managerStop
    | ignores _ => exact hs
    | aborts => exact absurd rfl (hAborted _)
    | expires =>
      intro hManaged
      obtain ⟨w, hLive⟩ := hs hManaged
      exact ⟨w, Timer.live_expire.mpr hLive⟩
    | drops hTake =>
      intro hManaged
      obtain ⟨w, hLive⟩ := hs hManaged
      exact ⟨w, (Timer.live_take_aborted hTake).mpr hLive⟩

theorem Watched.guarded {s : Session} (h : s.Watched) (hManaged : s.managed = true) : s.Guarded := by
  obtain ⟨w, hPending | hQueued⟩ := h hManaged
  · exact .inl (List.ne_nil_of_mem hPending)
  · right
    obtain ⟨i, hGet⟩ := List.mem_iff_getElem?.mp hQueued
    refine ⟨i, w, onTimeout { s with mConTimer := { s.mConTimer with queued := s.mConTimer.queued.eraseIdx i } }
      w.phase,
      hGet, ?_, managed_managerStop _⟩
    rw [step, Timer.take, hGet]
    rfl

theorem watched_serverSession (kind : ServerKind) (mRequest : Request) (major minor : Int) (mReply : Reply) :
    (serverSession kind mRequest major minor mReply).Watched := by
  obtain ⟨phase, op, -, -, hStart⟩ := serverSession_eq kind mRequest major minor mReply
  intro _
  rw [hStart]
  exact ⟨⟨phase, 0⟩, .inl List.mem_cons_self⟩

end Session

namespace Server

/-- Every session that the manager holds will be taken out of it. -/
def NoLeak (s : Server) : Prop := ∀ c ∈ s.sessions, c.managed = true → c.Guarded

def NoOperation (s : Server) : Prop :=
  ∀ c ∈ s.sessions, c.mConTimer.pending = [] ∧ c.mConTimer.queued = [] ∧ ∀ x ∈ c.outstanding, x.2 = .handle

theorem NoLeak.count {s : Server} (h : s.NoLeak) (hNone : s.NoOperation) : s.getSessionCount = 0 := by
  rw [getSessionCount, List.countP_eq_zero]
  intro c hc hManaged
  obtain ⟨hPending, hQueued, -⟩ := hNone c hc
  rcases h c hc hManaged with hSome | ⟨i, w, t, hGet, -⟩
  · exact hSome hPending
  · rw [hQueued] at hGet
    cases hGet

end Server

open Server

/-- In every run without `operation_aborted`. -/
theorem no_session_leak (kind : ServerKind) {events : List Server.Event}
    (hErrors : ∀ i id, .session i (.complete id (.error .operationAborted)) ∉ events) :
    PartialRun.Always Server.step (fun s => s.NoLeak ∧ (s.NoOperation → s.getSessionCount = 0)) (server kind)
      events := by
  have hAlong : PartialRun.Along Server.step
      (fun _ e => ∀ i id, e ≠ .session i (.complete id (.error .operationAborted))) (server kind) events := by
    apply PartialRun.along_of_forall_mem
    rintro e he _ i id rfl
    exact hErrors i id he
  have hWatched : PartialRun.Always Server.step (fun s => ∀ c ∈ s.sessions, c.Watched) (server kind) events := by
    refine hAlong.always ?_ (fun c hc => nomatch hc)
    intro s e t hs hErrors hStep
    refine sessions_step (Session.watched_serverSession s.kind) (fun c _ => c.watched_managerStop) ?_ hs hStep
    rintro i e' c c' rfl hc hStep'
    refine Session.watched_step hc ?_ hStep'
    rintro id rfl
    exact hErrors i id rfl
  intro before after s hSplit hRun
  have hNoLeak : s.NoLeak := fun c hc hManaged => (hWatched before after s hSplit hRun c hc).guarded hManaged
  exact ⟨hNoLeak, hNoLeak.count⟩

/-- A connection that never sends anything. -/
theorem no_session_leak_of_silence :
    PartialRun.Always Server.step (fun s => s.NoLeak ∧ (s.NoOperation → s.getSessionCount = 0)) (server .http)
      [.accept ⟨[], [], 0, 0, [], []⟩ 0 0 ⟨0, [], []⟩, .session 0 .expire, .session 0 (.runWait 0)] :=
  no_session_leak .http (by simp)

end HttpUtils
