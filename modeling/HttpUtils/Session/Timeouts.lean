import HttpUtils.Session.Steps

/-!
# Timeouts and the phases they guard

The handler that ends a phase cancels the timer, but an expiry whose completion is queued already is not
recalled: it stops the session in whatever phase it runs.
-/

namespace HttpUtils
set_option autoImplicit false

open WaitableTimer

namespace Session

def Guards (s : Session) (w : Wait) : Prop := (w.guards, w.phase.operation) ∈ s.outstanding

def TimeoutsInPhase (s : Session) : Prop := ∀ w, (w, .expired) ∈ s.mConTimer.queued → s.Guards w

/-- The event ends an operation whose wait has expired already. -/
def EndsExpired (s : Session) (e : Event) : Prop :=
  ∃ w, (w, .expired) ∈ s.mConTimer.queued ∧ (w.guards, w.phase.operation) ∉ s.rest e

structure Numbered (s : Session) : Prop where
  fresh : ∀ x ∈ s.outstanding, x.1 < s.nextId
  pending : ∀ w ∈ s.mConTimer.pending, s.Guards w

theorem Began.guards {s t : Session} {e : Event} {phase : Phase} {before after : List Effect}
    (h : s.Began e phase phase.operation before after t) {w : Wait} (hw : w ∈ t.mConTimer.pending) : t.Guards w := by
  rw [h.timer] at hw
  obtain rfl : w = ⟨phase, s.nextId⟩ := by simpa [Timer.asyncWait] using hw
  rw [Guards, h.outstanding]
  simp

theorem Began.expired_iff {s t : Session} {e : Event} {phase : Phase} {op : Operation} {before after : List Effect}
    (h : s.Began e phase op before after t) (w : Wait) :
    (w, .expired) ∈ t.mConTimer.queued ↔ (w, .expired) ∈ s.mConTimer.queued := by
  rw [h.timer, Timer.queued_asyncWait, Timer.expired_cancel]

theorem Began.numbered {s t : Session} {e : Event} {phase : Phase} {op : Operation} {before after : List Effect}
    (h : s.Began e phase op before after t) (hOp : phase.operation = op) (hs : s.Numbered) : t.Numbered := by
  subst hOp
  refine ⟨?_, fun w hw => h.guards hw⟩
  intro x hx
  rw [h.outstanding, List.mem_append, List.mem_singleton] at hx
  rw [h.nextId]
  rcases hx with hx | rfl
  · exact Nat.lt_succ_of_lt (hs.fresh x ((s.rest_sublist e).subset hx))
  · exact Nat.lt_succ_self _

theorem Began.timeouts_iff {s t : Session} {e : Event} {phase : Phase} {op : Operation} {before after : List Effect}
    (h : s.Began e phase op before after t) (hs : s.Numbered) (hSafe : s.TimeoutsInPhase) :
    t.TimeoutsInPhase ↔ ¬ s.EndsExpired e := by
  have hOld {w : Wait} (hw : (w, .expired) ∈ s.mConTimer.queued) :
      t.Guards w ↔ (w.guards, w.phase.operation) ∈ s.rest e := by
    have hLt : w.guards < s.nextId := hs.fresh _ (hSafe w hw)
    rw [Guards, h.outstanding, List.mem_append, List.mem_singleton, Prod.mk.injEq]
    constructor
    · rintro (hRest | ⟨hId, -⟩)
      · exact hRest
      · omega
    · exact .inl
  constructor
  · rintro hTimeouts ⟨w, hw, hEnded⟩
    exact hEnded ((hOld hw).mp (hTimeouts w ((h.expired_iff w).mpr hw)))
  · intro hKept w hw
    rw [h.expired_iff] at hw
    rw [hOld hw]
    by_contra hEnded
    exact hKept ⟨w, hw, hEnded⟩

theorem rest_eq_or_complete {s : Session} {e : Event} (h : ¬ s.Progress e) :
    s.rest e = s.outstanding ∨ ∃ id result, e = .complete id result := by
  cases e with
  | complete id result => exact .inr ⟨id, result, rfl⟩
  | reply r =>
    have hStopped : s.mStopped = true := by simpa [Progress] using h
    simp [rest, hStopped]
  | _ => exact .inl rfl

theorem Rested.numbered {s t : Session} {e : Event} {effects : List Effect} (h : s.Rested e effects t)
    (hRests : ¬ s.Progress e) (hs : s.Numbered) : t.Numbered := by
  refine ⟨?_, ?_⟩
  · intro x hx
    rw [h.outstanding] at hx
    rw [h.nextId]
    exact hs.fresh x ((s.rest_sublist e).subset hx)
  · intro w hw
    rw [Guards, h.outstanding]
    rcases rest_eq_or_complete hRests with hRest | ⟨id, result, rfl⟩
    · rw [hRest]
      exact hs.pending w (h.pending w hw)
    · rw [h.cancelled id result rfl] at hw
      cases hw

theorem Rested.timeouts_iff {s t : Session} {e : Event} {effects : List Effect} (h : s.Rested e effects t)
    (hRests : ¬ s.Progress e) (hs : s.Numbered) (hSafe : s.TimeoutsInPhase) :
    t.TimeoutsInPhase ↔ ¬ s.EndsExpired e := by
  rcases rest_eq_or_complete hRests with hRest | ⟨id, result, rfl⟩
  · refine iff_of_true ?_ ?_
    · intro w hw
      rw [Guards, h.outstanding, hRest]
      exact (h.live w (.inr hw)).elim (hs.pending w) (hSafe w)
    · rintro ⟨w, hw, hEnded⟩
      rw [hRest] at hEnded
      exact hEnded (hSafe w hw)
  · have hQueued (w : Wait) : (w, .expired) ∈ t.mConTimer.queued ↔ (w, .expired) ∈ s.mConTimer.queued := by
      rw [h.cancelled id result rfl, Timer.expired_cancel]
    constructor
    · rintro hTimeouts ⟨w, hw, hEnded⟩
      have hGuards := hTimeouts w ((hQueued w).mpr hw)
      rw [Guards, h.outstanding] at hGuards
      exact hEnded hGuards
    · intro hKept w hw
      rw [Guards, h.outstanding]
      by_contra hEnded
      exact hKept ⟨w, (hQueued w).mp hw, hEnded⟩

theorem numbered_step : PartialRun.Preserves step Numbered := by
  intro s e t hs hStep
  cases step_took hStep with
  | reads _ hBegan _ => exact hBegan.numbered rfl hs
  | handles _ hBegan _ => exact hBegan.numbered rfl hs
  | refuses _ hBegan => exact hBegan.numbered rfl hs
  | replies _ _ hBegan => exact hBegan.numbered rfl hs
  | rests hRests hRested => exact hRested.numbered hRests hs

theorem timeouts_step {s t : Session} {e : Event} (hs : s.Numbered) (hSafe : s.TimeoutsInPhase)
    (hStep : s.step e = some t) : t.TimeoutsInPhase ↔ ¬ s.EndsExpired e := by
  cases step_took hStep with
  | reads _ hBegan _ => exact hBegan.timeouts_iff hs hSafe
  | handles _ hBegan _ => exact hBegan.timeouts_iff hs hSafe
  | refuses _ hBegan => exact hBegan.timeouts_iff hs hSafe
  | replies _ _ hBegan => exact hBegan.timeouts_iff hs hSafe
  | rests hRests hRested => exact hRested.timeouts_iff hRests hs hSafe

end Session

open Session

/-- In every order of events, a timeout finds its operation outstanding exactly while no event ends an
operation whose wait has expired before. -/
theorem timeouts_in_phase_iff (kind : ServerKind) (mRequest : Request) (major minor : Int) (mReply : Reply)
    (events : List Event) :
    PartialRun.Always step TimeoutsInPhase (serverSession kind mRequest major minor mReply) events ↔
      PartialRun.Along step (fun s e => ∀ t, s.step e = some t → ¬ s.EndsExpired e)
        (serverSession kind mRequest major minor mReply) events := by
  obtain ⟨phase, op, hOp, -, hStart⟩ := serverSession_eq kind mRequest major minor mReply
  rw [hStart]
  refine PartialRun.always_iff_along numbered_step (fun s e t hs hSafe hStep => timeouts_step hs hSafe hStep) ?_
    ?_ events
  · refine ⟨by simp, ?_⟩
    intro w hw
    obtain rfl := List.mem_singleton.mp hw
    simp [Guards, hOp]
  · intro w hw
    cases hw

/-- A read that has expired stops the session while its request is being handled. -/
theorem expiredRead_stops_handling :
    ¬ PartialRun.Always step TimeoutsInPhase (bareSession .http) [.expire, .complete 0 (.ok getRequest)] ∧
      ((bareSession .http).run [.expire, .complete 0 (.ok getRequest), .runWait 0]).map
          (fun s => (s.history, s.outstanding)) =
        some
          ([.started 0 .readSome, .finished 0, .started 1 .handle, .invokedHandler ⟨[], ascii "/", 1, 1, [], []⟩,
              .timedOut .readRequest, .stopped],
            [(1, .handle)]) := by
  refine ⟨?_, by decide +kernel⟩
  intro h
  have hRun : ((bareSession .http).run [.expire, .complete 0 (.ok getRequest)]).map
      (fun s => (s.mConTimer.queued, s.outstanding)) =
        some ([(⟨.readRequest, 0⟩, .expired)], [(1, .handle)]) := by decide +kernel
  obtain ⟨t, ht, hState⟩ := Option.map_eq_some_iff.mp hRun
  obtain ⟨hQueued, hOutstanding⟩ := Prod.mk.inj hState
  have hGuards := h _ [] t (List.append_nil _).symm ht ⟨.readRequest, 0⟩ (by rw [hQueued]; simp)
  rw [Guards, hOutstanding] at hGuards
  simp at hGuards

end HttpUtils
