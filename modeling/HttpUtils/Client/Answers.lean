import HttpUtils.Client.Steps

/-!
# How often the caller is answered

The chain of operations ends with one call of `m_callback`, and the timeout makes one of its own. Neither looks
at whether the other was there before, and a timeout does not keep the chain from going on.
-/

namespace HttpUtils
set_option autoImplicit false

open WaitableTimer

namespace ClientEffect

def isCallback : ClientEffect → Bool
  | .calledBack _ _ => true
  | _ => false

def isTimeout : ClientEffect → Bool
  | .timedOut => true
  | _ => false

def isStart : ClientEffect → Bool
  | .started _ => true
  | _ => false

end ClientEffect

namespace Client

def callbacks (s : Client) : ℕ := s.history.countP ClientEffect.isCallback

def timeouts (s : Client) : ℕ := s.history.countP ClientEffect.isTimeout

/-- No operation and no wait is pending or queued. -/
def Quiescent (s : Client) : Prop := s.chain = .idle ∧ s.mTimer.size = 0

def CalledOnce (s : Client) : Prop := s.callbacks ≤ 1 ∧ (s.Quiescent → s.callbacks = 1)

/-- After a call of `m_callback` no operation is started. -/
def QuietAfterAnswer (s : Client) : Prop :=
  s.history.Pairwise fun x y => x.isCallback = true → y.isStart = false

variable (message : Messages)

/-- The chain ends after the timeout has run, or the timeout runs after the chain has ended. -/
def AnswersAgain (s : Client) : Event → Prop
  | .deliver => s.timeouts ≠ 0 ∧ ∃ op result, s.chain = .queued op result ∧ s.answer message op result ≠ none
  | .runWait i => s.chain = .idle ∧ s.mTimer.queued[i]? = some ((), .expired)
  | _ => False

/-- The chain goes on after an answer. -/
def GoesOn (s : Client) : Event → Prop
  | .deliver => s.callbacks ≠ 0 ∧ ∃ op result, s.chain = .queued op result ∧ s.answer message op result = none
  | _ => False

/-- There is one answer for the end of the chain and one for each timeout, of which there is at most one. -/
structure Counted (s : Client) : Prop where
  ended : s.chain = .idle → s.callbacks = 1 + s.timeouts
  going : s.chain ≠ .idle → s.callbacks = s.timeouts
  waits : s.mTimer.size + s.timeouts ≤ 1

variable {message}

theorem heard_quiet (s : Client) (op : ClientOperation) (result : IoResult) :
    (s.heard op result).countP ClientEffect.isCallback = 0 ∧ (s.heard op result).countP ClientEffect.isTimeout = 0 ∧
      ∀ x ∈ s.heard op result, x.isStart = false := by
  unfold heard
  split <;> simp [ClientEffect.isCallback, ClientEffect.isTimeout, ClientEffect.isStart]

theorem callbacks_append {s t : Client} {xs : List ClientEffect} (h : t.history = s.history ++ xs) :
    t.callbacks = s.callbacks + xs.countP ClientEffect.isCallback := by
  rw [callbacks, callbacks, h, List.countP_append]

theorem timeouts_append {s t : Client} {xs : List ClientEffect} (h : t.history = s.history ++ xs) :
    t.timeouts = s.timeouts + xs.countP ClientEffect.isTimeout := by
  rw [timeouts, timeouts, h, List.countP_append]

theorem SameOperation.idle_iff {c d : Chain} (h : SameOperation c d) : d = .idle ↔ c = .idle := by
  cases c with
  | idle => exact iff_of_true h rfl
  | pending op =>
    rcases h with rfl | ⟨result, rfl⟩ <;> simp
  | queued op result =>
    obtain rfl : d = .queued op result := h
    simp

theorem Took.counts {s t : Client} {e : Event} (h : s.Took message e t) (hs : s.Counted) : t.Counted := by
  obtain ⟨hEnded, hGoing, hWaits⟩ := hs
  cases h with
  | @continues op result after _ hChain hAnswer chain timer parser history =>
    obtain ⟨hCall, hTime, -⟩ := s.heard_quiet op result
    have hCalls : t.callbacks = s.callbacks := by
      rw [callbacks_append history, List.countP_append, hCall]
      rfl
    have hTimes : t.timeouts = s.timeouts := by
      rw [timeouts_append history, List.countP_append, hTime]
      rfl
    have hSame := hGoing (by simp [hChain])
    refine ⟨by simp [chain], fun _ => by omega, ?_⟩
    rw [timer, hTimes]
    exact hWaits
  | @ends op result err _ hChain hAnswer chain timer parser history =>
    obtain ⟨hCall, hTime, -⟩ := s.heard_quiet op result
    have hCalls : t.callbacks = s.callbacks + 1 := by
      rw [callbacks_append history, List.countP_append, hCall]
      rfl
    have hTimes : t.timeouts = s.timeouts := by
      rw [timeouts_append history, List.countP_append, hTime]
      rfl
    have hSame := hGoing (by simp [hChain])
    refine ⟨fun _ => by omega, fun hNot => absurd chain hNot, ?_⟩
    rw [timer, Timer.size_cancel, hTimes]
    exact hWaits
  | @timesOut i timer' _ hTake chain timer parser history =>
    have hCalls : t.callbacks = s.callbacks + 1 := callbacks_append history
    have hTimes : t.timeouts = s.timeouts + 1 := timeouts_append history
    have hSize := Timer.size_of_take hTake
    refine ⟨?_, ?_, ?_⟩
    · intro hIdle
      have hSame := hEnded (chain.idle_iff.mp hIdle)
      omega
    · intro hRuns
      have hSame := hGoing fun hIdle => hRuns (chain.idle_iff.mpr hIdle)
      omega
    · rw [timer, Timer.size_cancel]
      omega
  | expires hPending chain timer parser history =>
    have hCalls : t.callbacks = s.callbacks := callbacks_append history
    have hTimes : t.timeouts = s.timeouts := timeouts_append history
    refine ⟨?_, ?_, ?_⟩
    · rw [chain, hCalls, hTimes]
      exact hEnded
    · rw [chain, hCalls, hTimes]
      exact hGoing
    · rw [timer, Timer.size_expire, hTimes]
      exact hWaits
  | aborts hTake chain parser history =>
    have hCalls : t.callbacks = s.callbacks := congrArg (List.countP _) history
    have hTimes : t.timeouts = s.timeouts := congrArg (List.countP _) history
    have hSize := Timer.size_of_take hTake
    refine ⟨?_, ?_, by omega⟩
    · rw [chain, hCalls, hTimes]
      exact hEnded
    · rw [chain, hCalls, hTimes]
      exact hGoing
  | completes hChain hPossible chain timer parser history =>
    have hCalls : t.callbacks = s.callbacks := congrArg (List.countP _) history
    have hTimes : t.timeouts = s.timeouts := congrArg (List.countP _) history
    have hSame := hGoing (by simp [hChain])
    refine ⟨by simp [chain], fun _ => by omega, ?_⟩
    rw [timer, hTimes]
    exact hWaits

theorem counted_step : PartialRun.Preserves (step message) Counted := by
  intro s e t hs hStep
  exact (step_took hStep).counts hs

theorem calledOnce_iff {s : Client} (h : s.Counted) : s.CalledOnce ↔ ¬ (s.chain = .idle ∧ s.timeouts ≠ 0) := by
  obtain ⟨hEnded, hGoing, hWaits⟩ := h
  constructor
  · rintro ⟨hOnce, -⟩ ⟨hIdle, hSome⟩
    have hCalls := hEnded hIdle
    omega
  · intro hNever
    by_cases hIdle : s.chain = .idle
    · have hCalls := hEnded hIdle
      have hNone : s.timeouts = 0 := by
        by_contra hSome
        exact hNever ⟨hIdle, hSome⟩
      exact ⟨by omega, fun _ => by omega⟩
    · have hCalls := hGoing hIdle
      exact ⟨by omega, fun hQuiet => absurd hQuiet.1 hIdle⟩

theorem calledOnce_step {s t : Client} {e : Event} (hs : s.Counted) (hOnce : s.CalledOnce)
    (hStep : s.step message e = some t) : t.CalledOnce ↔ ¬ s.AnswersAgain message e := by
  have hTook := step_took hStep
  rw [calledOnce_iff (hTook.counts hs), not_iff_not]
  rw [calledOnce_iff hs] at hOnce
  cases hTook with
  | @continues op result after _ hChain hAnswer chain timer parser history =>
    refine iff_of_false (by simp [chain]) ?_
    rintro ⟨-, op', result', hChain', hSome⟩
    obtain ⟨rfl, rfl⟩ := Chain.queued.inj (hChain.symm.trans hChain')
    exact hSome hAnswer
  | @ends op result err _ hChain hAnswer chain timer parser history =>
    have hTimes : t.timeouts = s.timeouts := by
      rw [timeouts_append history, List.countP_append, (s.heard_quiet op result).2.1]
      rfl
    rw [hTimes, and_iff_right chain]
    constructor
    · intro hSome
      exact ⟨hSome, op, result, hChain, by simp [hAnswer]⟩
    · exact And.left
  | @timesOut i timer' _ hTake chain timer parser history =>
    have hTimes : t.timeouts = s.timeouts + 1 := timeouts_append history
    have hQueued := (Timer.take_eq_some.mp hTake).1
    rw [chain.idle_iff, hTimes]
    constructor
    · rintro ⟨hIdle, -⟩
      exact ⟨hIdle, hQueued⟩
    · rintro ⟨hIdle, -⟩
      exact ⟨hIdle, Nat.succ_ne_zero _⟩
  | expires hPending chain timer parser history =>
    have hTimes : t.timeouts = s.timeouts := timeouts_append history
    rw [chain, hTimes]
    exact iff_of_false hOnce id
  | aborts hTake chain parser history =>
    have hTimes : t.timeouts = s.timeouts := congrArg (List.countP _) history
    have hQueued := (Timer.take_eq_some.mp hTake).1
    rw [chain, hTimes]
    refine iff_of_false hOnce ?_
    rintro ⟨-, hExpired⟩
    rw [hQueued] at hExpired
    cases hExpired
  | completes hChain hPossible chain timer parser history => exact iff_of_false (by simp [chain]) id

theorem quietAfterAnswer_append {s t : Client} {xs : List ClientEffect} (h : t.history = s.history ++ xs)
    (hs : s.QuietAfterAnswer) (hQuiet : ∀ x ∈ xs, x.isStart = false) : t.QuietAfterAnswer := by
  rw [QuietAfterAnswer, h, List.pairwise_append]
  refine ⟨hs, ?_, fun x _ y hy _ => hQuiet y hy⟩
  exact List.pairwise_of_forall_mem_list fun x _ y hy _ => hQuiet y hy

theorem quietAfterAnswer_step {s t : Client} {e : Event} (hs : s.QuietAfterAnswer)
    (hStep : s.step message e = some t) :
    t.QuietAfterAnswer ↔ ¬ s.GoesOn message e := by
  cases step_took hStep with
  | @continues op result after _ hChain hAnswer chain timer parser history =>
    obtain ⟨hCall, -, hStart⟩ := s.heard_quiet op result
    have hGoes : ¬ s.GoesOn message .deliver ↔ ∀ x ∈ s.history, x.isCallback = false := by
      have hNone : s.callbacks = 0 ↔ ∀ x ∈ s.history, x.isCallback = false := by
        rw [callbacks, List.countP_eq_zero]
        simp
      rw [← hNone]
      constructor
      · intro hNot
        by_contra hSome
        exact hNot ⟨hSome, op, result, hChain, hAnswer⟩
      · rintro hZero ⟨hSome, -⟩
        exact hSome hZero
    rw [hGoes, QuietAfterAnswer, history, List.pairwise_append]
    constructor
    · rintro ⟨-, -, hCross⟩ x hx
      by_contra hCallback
      have hStarted := hCross x hx (.started after) (by simp) (by simpa using hCallback)
      cases hStarted
    · intro hNever
      refine ⟨hs, ?_, ?_⟩
      · have hHeard : ∀ x ∈ s.heard op result ++ [ClientEffect.started after], x.isCallback = false := by
          intro x hx
          rcases List.mem_append.mp hx with hx | hx
          · simpa using List.countP_eq_zero.mp hCall x hx
          · obtain rfl := List.mem_singleton.mp hx
            rfl
        refine List.pairwise_of_forall_mem_list fun x hx y _ hCallback => ?_
        rw [hHeard x hx] at hCallback
        cases hCallback
      · intro x hx y _ hCallback
        rw [hNever x hx] at hCallback
        cases hCallback
  | @ends op result err _ hChain hAnswer chain timer parser history =>
    refine iff_of_true (quietAfterAnswer_append history hs ?_) ?_
    · intro x hx
      rcases List.mem_append.mp hx with hx | hx
      · exact (s.heard_quiet op result).2.2 x hx
      · obtain rfl := List.mem_singleton.mp hx
        rfl
    · rintro ⟨-, op', result', hChain', hNone⟩
      obtain ⟨rfl, rfl⟩ := Chain.queued.inj (hChain.symm.trans hChain')
      rw [hAnswer] at hNone
      cases hNone
  | timesOut hTake chain timer parser history =>
    exact iff_of_true (quietAfterAnswer_append history hs (by simp [ClientEffect.isStart])) id
  | expires hPending chain timer parser history =>
    exact iff_of_true (quietAfterAnswer_append history hs (by simp [ClientEffect.isStart])) id
  | aborts hTake chain parser history =>
    exact iff_of_true (quietAfterAnswer_append (history.trans (List.append_nil _).symm) hs (by simp)) id
  | completes hChain hPossible chain timer parser history =>
    exact iff_of_true (quietAfterAnswer_append (history.trans (List.append_nil _).symm) hs (by simp)) id

end Client

open Client

/-- A client calls back once, and once for all when nothing is left to run, exactly while the chain does not end
after the timeout has run, nor the timeout run after the chain has ended. -/
theorem called_once_iff (message : Messages) (kind : ClientKind) (serverUrl serverPort : Bytes) (req : Request)
    (statusCode : ℕ) (events : List Event) :
    PartialRun.Always (step message) CalledOnce (httpClient kind serverUrl serverPort req statusCode) events ↔
      PartialRun.Along (step message) (fun s e => ∀ t, s.step message e = some t → ¬ s.AnswersAgain message e)
        (httpClient kind serverUrl serverPort req statusCode) events := by
  have hCounted : (httpClient kind serverUrl serverPort req statusCode).Counted :=
    ⟨fun hIdle => (by cases hIdle), fun _ => rfl, Nat.le_refl 1⟩
  apply PartialRun.always_iff_along counted_step (fun s e t hs hOnce hStep => calledOnce_step hs hOnce hStep) hCounted
  rw [calledOnce_iff hCounted]
  rintro ⟨hIdle, -⟩
  cases hIdle

/-! ### A client to look at -/

def posixMessage : Messages
  | .operationAborted => ascii "Operation canceled"
  | .eof => ascii "End of file"
  | .other 104 => ascii "Connection reset by peer"
  | .other _ => ascii "Unknown error"

def getClient (kind : ClientKind) : Client :=
  httpClient kind (ascii "localhost") (ascii "80") ⟨ascii "GET", ascii "/", 1, 1, [], []⟩ 0

def connected (kind : ClientKind) : List Event :=
  [.ready (.ok []), .deliver, .ready (.ok []), .deliver, .ready (.ok []), .deliver] ++
    match kind with
    | .http => []
    | .https => [.ready (.ok []), .deliver]

/-- The read that the timeout has aborted answers once more. -/
theorem abortedRead_answers :
    ¬ PartialRun.Always (step posixMessage) CalledOnce (getClient .http)
    (connected .http ++ [.expire, .runWait 0, .deliver]) ∧
      (PartialRun.run (step posixMessage) (getClient .http) (connected .http ++ [.expire, .runWait 0, .deliver])).map
          (fun s => s.history.filter ClientEffect.isCallback) =
        some [.calledBack (ascii "timeout") ⟨0, [], []⟩, .calledBack (ascii "Operation canceled") ⟨0, [], []⟩] := by
  refine ⟨?_, by decide +kernel⟩
  intro h
  have hRun : (PartialRun.run (step posixMessage) (getClient .http)
      (connected .http ++ [.expire, .runWait 0, .deliver])).map
      callbacks = some 2 := by decide +kernel
  obtain ⟨t, ht, hCalls⟩ := Option.map_eq_some_iff.mp hRun
  have hOnce := (h _ [] t (List.append_nil _).symm ht).1
  omega

/-- A client is quiet after it has answered exactly while no operation that succeeds is delivered then. -/
theorem quiet_after_answer_iff (message : Messages) (kind : ClientKind) (serverUrl serverPort : Bytes) (req : Request)
    (statusCode : ℕ) (events : List Event) :
    PartialRun.Always (step message) QuietAfterAnswer (httpClient kind serverUrl serverPort req statusCode) events ↔
      PartialRun.Along (step message) (fun s e => ∀ t, s.step message e = some t → ¬ s.GoesOn message e)
        (httpClient kind serverUrl serverPort req statusCode) events := by
  have hTrivial : PartialRun.Preserves (step message) fun _ => True := fun _ _ _ _ _ => trivial
  apply PartialRun.always_iff_along hTrivial (fun s e t _ hs hStep => quietAfterAnswer_step hs hStep) trivial
  exact List.pairwise_singleton _ _

/-- The resolver goes on after the timeout, and the request is written to a new connection. -/
theorem resolvedLate_writes :
    ¬ PartialRun.Always (step posixMessage) QuietAfterAnswer (getClient .http)
        [.expire, .runWait 0, .ready (.ok []), .deliver, .ready (.ok []), .deliver] ∧
      (PartialRun.run (step posixMessage) (getClient .http)
          [.expire, .runWait 0, .ready (.ok []), .deliver, .ready (.ok []), .deliver]).map (·.history) =
        some
          [.started .resolve, .expired, .timedOut, .calledBack (ascii "timeout") ⟨0, [], []⟩, .started .connect,
            .started (.write (ascii "GET / HTTP/1.1\r\nHost: localhost\r\nAccept: */*\r\nConnection: close\r\n" ++
              ascii "Content-Length: 0\r\n\r\n"))] := by
  refine ⟨?_, by decide +kernel⟩
  intro h
  have hRun : (PartialRun.run (step posixMessage) (getClient .http)
      [.expire, .runWait 0, .ready (.ok []), .deliver, .ready (.ok []), .deliver]).map
        (fun s => decide (s.history.Pairwise fun x y => x.isCallback = true → y.isStart = false)) = some false := by
    decide +kernel
  obtain ⟨t, ht, hNot⟩ := Option.map_eq_some_iff.mp hRun
  exact of_decide_eq_false hNot (h _ [] t (List.append_nil _).symm ht)

end HttpUtils
