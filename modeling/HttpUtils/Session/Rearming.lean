import HttpUtils.Session.Steps

/-!
# Setting the timer again

A value of `expires_from_now` other than 0 is the number of waits that the call has cancelled, and the session stops
itself there.
-/

namespace HttpUtils
set_option autoImplicit false

open WaitableTimer

namespace Session

variable {s : Session}

/-- No call has found a wait, and one at most is pending. -/
structure Healthy (s : Session) : Prop where
  rearmed : ∀ n ∈ s.rearmed, n = 0
  pending : s.mConTimer.pending.length ≤ 1

theorem withTimeout_healthy (hRearmed : ∀ n ∈ s.rearmed, n = 0) (hIdle : s.mConTimer.pending = []) (phase : Phase)
    {andThen : Session → Session} (hTimer : ∀ s, (andThen s).mConTimer = s.mConTimer)
    (hSame : ∀ s, (andThen s).rearmed = s.rearmed) : (s.withTimeout phase andThen).Healthy := by
  rw [withTimeout_eq hIdle]
  constructor
  · rw [hSame]
    intro n hn
    rcases List.mem_append.mp hn with hn | hn
    · exact hRearmed n hn
    · exact List.mem_singleton.mp hn
  · rw [hTimer]
    simp [Timer.asyncWait]

theorem doRead_healthy (hRearmed : ∀ n ∈ s.rearmed, n = 0) (hIdle : s.mConTimer.pending = []) : s.doRead.Healthy :=
  withTimeout_healthy hRearmed hIdle .readRequest (fun _ => rfl) fun _ => rfl

theorem doWrite_healthy (hRearmed : ∀ n ∈ s.rearmed, n = 0) (hIdle : s.mConTimer.pending = []) :
    s.doWrite.Healthy := by
  unfold doWrite
  cases s.kind with
  | http => exact withTimeout_healthy (s := s.cancelTimer) hRearmed rfl .writeReply (fun _ => rfl) fun _ => rfl
  | https => exact withTimeout_healthy hRearmed hIdle .writeReply (fun _ => rfl) fun _ => rfl

theorem handleRequest_healthy (hRearmed : ∀ n ∈ s.rearmed, n = 0) : s.handleRequest.Healthy := by
  unfold handleRequest
  apply withTimeout_healthy
  · exact hRearmed
  · rfl
  · intro s
    rfl
  · intro s
    rfl

theorem onReadSome_healthy (hRearmed : ∀ n ∈ s.rearmed, n = 0) (data : Bytes) :
    (s.onReadSome (.ok data)).Healthy := by
  unfold onReadSome
  dsimp only
  split
  · exact handleRequest_healthy hRearmed
  · exact doWrite_healthy hRearmed rfl
  · exact doRead_healthy hRearmed rfl

theorem Healthy.quiet (h : s.Healthy) {t : Session} (hSame : t.rearmed = s.rearmed)
    (hPending : t.mConTimer.pending.length ≤ s.mConTimer.pending.length) : t.Healthy :=
  ⟨hSame ▸ h.rearmed, Nat.le_trans hPending h.pending⟩

theorem rearmed_managerStop (s : Session) : s.managerStop.rearmed = s.rearmed := by
  unfold managerStop stop
  dsimp only
  split <;> rfl

theorem pending_managerStop (s : Session) : s.managerStop.mConTimer.pending.length ≤ s.mConTimer.pending.length := by
  unfold managerStop stop
  dsimp only
  split
  · exact Nat.le_refl _
  · exact Nat.zero_le _

theorem Healthy.ends (h : s.Healthy) : s.cancelTimer.managerStop.Healthy :=
  h.quiet (rearmed_managerStop _) (Nat.le_trans (pending_managerStop _) (Nat.zero_le _))

theorem Healthy.cancelled (h : s.Healthy) : s.cancelTimer.Healthy := h.quiet rfl (Nat.zero_le _)

theorem handler_healthy {t : Session} {op : Operation} {result : IoResult} (h : s.Healthy)
    (hHandler : s.handler op result = some t) : t.Healthy := by
  cases op with
  | handle => cases hHandler
  | handshake =>
    obtain rfl := Option.some.inj hHandler
    cases result with
    | ok data => exact doRead_healthy h.rearmed rfl
    | error ec => exact h.ends
  | readSome =>
    cases result with
    | ok data =>
      simp only [handler] at hHandler
      split at hHandler
      · obtain rfl := Option.some.inj hHandler
        exact onReadSome_healthy h.rearmed data
      · cases hHandler
    | error ec =>
      obtain rfl := Option.some.inj hHandler
      simp only [onReadSome]
      split
      · exact h.ends
      · exact h.cancelled
  | write =>
    obtain rfl := Option.some.inj hHandler
    cases result with
    | ok data => exact h.ends
    | error ec =>
      simp only [onWrite]
      split
      · exact h.ends
      · exact h.cancelled

theorem onReply_healthy (h : s.Healthy) (r : Reply) : (s.onReply r).Healthy := by
  unfold onReply
  split
  · exact h
  · exact doWrite_healthy h.rearmed rfl

theorem healthy_step : PartialRun.Preserves step Healthy := by
  intro s e t h hStep
  cases e with
  | complete id result =>
    obtain ⟨op, -, hHandler⟩ := Option.bind_eq_some_iff.mp hStep
    have hFinished : (s.finish id).Healthy := ⟨h.rearmed, h.pending⟩
    exact handler_healthy hFinished hHandler
  | reply r =>
    simp only [step] at hStep
    split at hStep
    · obtain rfl := Option.some.inj hStep
      exact onReply_healthy h r
    · cases hStep
  | serverStop =>
    simp only [step] at hStep
    split at hStep
    · obtain rfl := Option.some.inj hStep
      exact h.quiet (rearmed_managerStop s) (pending_managerStop s)
    · cases hStep
  | expire =>
    obtain rfl := Option.some.inj hStep
    exact h.quiet rfl (Nat.zero_le _)
  | runWait i =>
    obtain ⟨⟨⟨w, c⟩, timer⟩, hTake, rfl⟩ := Option.map_eq_some_iff.mp hStep
    obtain ⟨-, rfl⟩ := Timer.take_eq_some.mp hTake
    cases c with
    | aborted => exact h.quiet rfl (Nat.le_refl _)
    | expired => exact h.quiet (rearmed_managerStop _) (pending_managerStop _)

end Session

open Session

theorem healthy_serverSession (kind : ServerKind) (mRequest : Request) (major minor : Int) (mReply : Reply) :
    (serverSession kind mRequest major minor mReply).Healthy := by
  unfold serverSession
  cases kind with
  | http => exact doRead_healthy (by simp) rfl
  | https => exact withTimeout_healthy (by simp) rfl .doHandshake (fun _ => rfl) fun _ => rfl

/-- In every order of events each call of `expires_from_now` returns 0, and one wait at most is pending. -/
theorem rearming_finds_no_wait (kind : ServerKind) (mRequest : Request) (major minor : Int) (mReply : Reply)
    (events : List Session.Event) :
    PartialRun.Always Session.step (fun s => (∀ n ∈ s.rearmed, n = 0) ∧ s.mConTimer.pending.length ≤ 1)
      (serverSession kind mRequest major minor mReply) events :=
  healthy_step.always (fun _ hs => ⟨hs.rearmed, hs.pending⟩) (healthy_serverSession kind mRequest major minor mReply)
    events

end HttpUtils
