import HttpUtils.Session.Replies

/-!
# One request for each session

A read is started by the handshake or by the read before it. The request handler is called by a read as well,
and starts none.
-/

namespace HttpUtils
set_option autoImplicit false

open WaitableTimer

def Effect.isReadStart : Effect → Bool
  | .started _ .readSome => true
  | _ => false

theorem Effect.isReadStart_of_starts {x : Effect} (h : x.starts = false) : x.isReadStart = false := by
  cases x <;> first | rfl | cases h

namespace Session

def isRead (x : ℕ × Operation) : Bool := x.2 == .readSome

structure OneRequest (s : Session) : Prop where
  reads : s.outstanding.countP isRead ≤ 1
  once : s.history.countP Effect.isHandled ≤ 1
  idle : s.handled = true → s.outstanding.countP isRead = 0
  never : s.history.Pairwise fun x y => x.isHandled = true → y.isReadStart = false

/-- A read completes, and `parse` returns `result` for it. -/
def Reads (result : ResultType) (s : Session) (e : Event) : Prop :=
  ∃ id data, e = .complete id (.ok data) ∧ s.outstanding.lookup id = some .readSome ∧
    (s.mRequestParser.parse data).1 = result

/-- The request handler is only called when `parse` has just returned good, and with the request that it
accepted. -/
def HandsOver (s : Session) (e : Event) (t : Session) : Prop :=
  ∀ req, .invokedHandler req ∈ t.history.drop s.history.length →
    ∃ id data, e = .complete id (.ok data) ∧ s.outstanding.lookup id = some .readSome ∧
      (s.mRequestParser.parse data).1 = .good ∧ req = (s.mRequestParser.parse data).2.mReq

def readEffects (s : Session) (id : ℕ) (data : Bytes) : List Effect :=
  match (s.mRequestParser.parse data).1 with
  | .good => [.finished id, .started s.nextId .handle, .invokedHandler (s.mRequestParser.parse data).2.mReq]
  | .bad => [.finished id, .assignedReplyStr, .started s.nextId .write]
  | .indeterminate => [.finished id, .started s.nextId .readSome]

theorem history_onReadSome (s : Session) (id : ℕ) (data : Bytes) :
    ((s.finish id).onReadSome (.ok data)).history = s.history ++ s.readEffects id data := by
  have hParse : (s.finish id).cancelTimer.mRequestParser.parse data = s.mRequestParser.parse data := rfl
  simp only [onReadSome, readEffects, hParse]
  generalize s.mRequestParser.parse data = x
  obtain ⟨result, parser⟩ := x
  cases result with
  | good =>
    dsimp only
    unfold handleRequest
    dsimp only
    rw [withTimeout_eq rfl]
    simp [begin, emit, finish, cancelTimer, HttpRequestParser.moveReq]
  | bad =>
    dsimp only
    rw [doWrite_eq rfl]
    simp [begin, emit, finish, cancelTimer]
  | indeterminate =>
    dsimp only
    rw [doRead, withTimeout_eq rfl]
    simp [begin, emit, finish, cancelTimer]

theorem history_onHandshake (s : Session) (id : ℕ) (data : Bytes) :
    ((s.finish id).onHandshake (.ok data)).history = s.history ++ [.finished id, .started s.nextId .readSome] := by
  rw [onHandshake, doRead, withTimeout_eq rfl]
  simp [begin, emit, finish, cancelTimer]

theorem step_handshake {s : Session} {id : ℕ} {data : Bytes} (hOp : s.outstanding.lookup id = some .handshake) :
    s.step (.complete id (.ok data)) = some ((s.finish id).onHandshake (.ok data)) := by
  rw [step, hOp]
  rfl

theorem step_readSome {s t : Session} {id : ℕ} {data : Bytes} (hOp : s.outstanding.lookup id = some .readSome)
    (hStep : s.step (.complete id (.ok data)) = some t) : t = (s.finish id).onReadSome (.ok data) := by
  rw [step, hOp, Option.bind_some, handler] at hStep
  split at hStep
  · exact (Option.some.inj hStep).symm
  · cases hStep

theorem handsOver_step {s t : Session} {e : Event} (hStep : s.step e = some t) : s.HandsOver e t := by
  have hQuiet {xs : List Effect} (history : t.history = s.history ++ xs) (h : ∀ req, .invokedHandler req ∉ xs) :
      s.HandsOver e t := by
    intro req hMem
    rw [history, List.drop_left] at hMem
    exact absurd hMem (h req)
  cases step_took hStep with
  | reads hInput hBegan _ => exact hQuiet hBegan.history (by simp)
  | refuses hInput hBegan => exact hQuiet hBegan.history (by simp)
  | replies _ _ hBegan => exact hQuiet hBegan.history (by simp)
  | rests _ hRested =>
    apply hQuiet hRested.history
    intro req hMem
    have hStarts := hRested.quiet _ hMem
    cases hStarts
  | @handles id data _ hInput hBegan _ =>
    rcases hInput with hOp | hOp
    · obtain rfl := Option.some.inj ((step_handshake hOp).symm.trans hStep)
      exact hQuiet (s.history_onHandshake id data) (by simp)
    · obtain rfl := step_readSome hOp hStep
      intro req hMem
      rw [history_onReadSome, List.drop_left, readEffects] at hMem
      split at hMem
      · rename_i hGood
        exact ⟨id, data, rfl, hOp, hGood, by simpa using hMem⟩
      · simp at hMem
      · simp at hMem

/-! ### Reads -/

theorem isRead_le_isInput (l : List (ℕ × Operation)) : l.countP isRead ≤ l.countP isInput := by
  apply List.countP_mono_left
  intro x _ hx
  simp only [isRead, isInput, Bool.or_eq_true] at hx ⊢
  exact .inr hx

theorem noInput_step : PartialRun.Preserves step fun s => s.outstanding.countP isInput = 0 := by
  intro s e t hs hStep
  have hLe := (s.rest_sublist e).countP_le (p := isInput)
  cases step_took hStep with
  | reads hInput _ _ => exact absurd hs hInput.countP_ne_zero
  | handles hInput _ _ => exact absurd hs hInput.countP_ne_zero
  | refuses hInput _ => exact absurd hs hInput.countP_ne_zero
  | replies _ _ hBegan => exact hBegan.no_input (by omega) rfl
  | rests _ hRested =>
    rw [hRested.outstanding]
    omega

theorem judged_step {s t : Session} {e : Event} {result : ResultType} (hs : s.Reading) (hStep : s.step e = some t)
    (hReads : s.Reads result e) (hJudged : result ≠ .indeterminate) : t.outstanding.countP isInput = 0 := by
  obtain ⟨id, data, rfl, hOp, hResult⟩ := hReads
  have hNone := hs.none_left (.inr hOp) (.ok data)
  cases step_took hStep with
  | handles _ hBegan _ => exact hBegan.no_input hNone rfl
  | refuses _ hBegan => exact hBegan.no_input hNone rfl
  | rests hRests _ => exact absurd (.inr hOp) hRests
  | reads hInput hBegan _ =>
    have hHistory := hBegan.history
    obtain rfl := step_readSome hOp hStep
    rw [history_onReadSome, List.append_cancel_left_eq, readEffects, hResult] at hHistory
    cases result with
    | indeterminate => exact absurd rfl hJudged
    | good => simp at hHistory
    | bad => simp at hHistory

theorem not_reads_of_noInput {s : Session} {e : Event} {result : ResultType} (h : s.outstanding.countP isInput = 0) :
    ¬ s.Reads result e := by
  rintro ⟨id, data, rfl, hOp, -⟩
  exact Inputs.countP_ne_zero (.inr hOp) h

/-- No run both accepts a request and refuses one. -/
theorem not_accepts_and_refuses {s : Session} (hs : s.Reading) (events : List Event) :
    ¬ (PartialRun.Occurs step (Session.Reads .good) s events ∧ PartialRun.Occurs step (Session.Reads .bad) s
      events) := by
  apply PartialRun.not_occurs_both noInput_step reading_step _ _ _ hs
  · rintro s e t hs hStep (hGood | hBad)
    · exact judged_step hs hStep hGood (by simp)
    · exact judged_step hs hStep hBad (by simp)
  · intro s e _ hNone
    exact ⟨not_reads_of_noInput hNone, not_reads_of_noInput hNone⟩
  · rintro s e ⟨⟨id, data, rfl, -, hGood⟩, id', data', hSame, -, hBad⟩
    obtain ⟨rfl, hData⟩ := Event.complete.inj hSame
    cases hData
    rw [hGood] at hBad
    cases hBad

/-! ### The invariant -/

theorem countP_handled {s : Session} (h : s.handled = false) : s.history.countP Effect.isHandled = 0 := by
  rw [List.countP_eq_zero]
  intro x hx
  exact List.any_eq_false.mp h x hx

theorem pairwise_append {s : Session} {xs : List Effect} (hs : s.OneRequest)
    (hHandled : xs.any Effect.isHandled = false)
    (hRead : s.handled = false ∨ ∀ x ∈ xs, x.isReadStart = false) :
    (s.history ++ xs).Pairwise fun x y => x.isHandled = true → y.isReadStart = false := by
  rw [List.pairwise_append]
  refine ⟨hs.never, ?_, ?_⟩
  · refine List.pairwise_of_forall_mem_list fun x hx y _ hIs => absurd hIs (List.any_eq_false.mp hHandled x hx)
  · intro x hx y hy hIs
    rcases hRead with hNever | hQuiet
    · exact absurd hIs (List.any_eq_false.mp hNever x hx)
    · exact hQuiet y hy

theorem oneRequest_step {s t : Session} {e : Event} (hs : s.Reading) (hOne : s.OneRequest)
    (hStep : s.step e = some t) :
    t.OneRequest := by
  have hReading := reading_step s e t hs hStep
  have hReads : t.outstanding.countP isRead ≤ 1 := Nat.le_trans (isRead_le_isInput _) hReading.single
  have hIdle : t.handled = true → t.outstanding.countP isRead = 0 := by
    intro hHandled
    have hLe := isRead_le_isInput t.outstanding
    by_contra hSome
    have hFirst := (hReading.first (by omega)).1
    rw [hHandled] at hFirst
    cases hFirst
  cases step_took hStep with
  | @reads id data _ hInput hBegan _ =>
    have hHandled := (hs.first_of_inputs hInput).1
    refine ⟨hReads, ?_, hIdle, ?_⟩
    · rw [hBegan.history, List.countP_append, countP_handled hHandled]
      simp [Effect.isHandled]
    · rw [hBegan.history]
      exact pairwise_append hOne rfl (.inl hHandled)
  | @handles id data _ hInput hBegan _ =>
    have hHandled := (hs.first_of_inputs hInput).1
    refine ⟨hReads, ?_, hIdle, ?_⟩
    · rw [hBegan.history, List.countP_append, countP_handled hHandled]
      simp [List.countP_cons, Effect.isHandled]
    · have hFront : (s.history ++ ([.finished id, .started s.nextId .handle] : List Effect)).Pairwise
          fun x y => x.isHandled = true → y.isReadStart = false := pairwise_append hOne rfl (.inl hHandled)
      have hLast : t.history = (s.history ++ [.finished id, .started s.nextId .handle]) ++
          [.invokedHandler t.mRequest] := by
        rw [hBegan.history]
        simp
      rw [hLast, List.pairwise_append]
      refine ⟨hFront, List.pairwise_singleton _ _, ?_⟩
      intro x _ y hy _
      obtain rfl := List.mem_singleton.mp hy
      rfl
  | @refuses id data _ hInput hBegan =>
    have hHandled := (hs.first_of_inputs hInput).1
    refine ⟨hReads, ?_, hIdle, ?_⟩
    · rw [hBegan.history, List.countP_append, countP_handled hHandled]
      simp [Effect.isHandled]
    · rw [hBegan.history]
      exact pairwise_append hOne rfl (.inl hHandled)
  | @replies r _ hOpen _ hBegan =>
    have hOnce := hOne.once
    refine ⟨hReads, ?_, hIdle, ?_⟩
    · rw [hBegan.history, List.countP_append]
      simpa [List.countP_cons, Effect.isHandled] using hOnce
    · rw [hBegan.history]
      exact pairwise_append hOne rfl (.inr (by simp [Effect.isReadStart]))
  | @rests _ effects _ hRests hRested =>
    obtain ⟨-, hHandle⟩ := quiet_effects hRested.quiet
    have hOnce := hOne.once
    refine ⟨hReads, ?_, hIdle, ?_⟩
    · have hNone : effects.countP Effect.isHandled = 0 := by
        rw [List.countP_eq_zero]
        exact List.any_eq_false.mp hHandle
      rw [hRested.history, List.countP_append]
      omega
    · rw [hRested.history]
      exact pairwise_append hOne hHandle (.inr fun x hx => Effect.isReadStart_of_starts (hRested.quiet x hx))

theorem reading_serverSession (kind : ServerKind) (mRequest : Request) (major minor : Int) (mReply : Reply) :
    (serverSession kind mRequest major minor mReply).Reading ∧
    (serverSession kind mRequest major minor mReply).OneRequest := by
  obtain ⟨phase, op, -, hInput, hStart⟩ := serverSession_eq kind mRequest major minor mReply
  rw [hStart]
  rcases hInput with rfl | rfl <;>
    exact ⟨⟨by simp [isInput], fun _ => ⟨rfl, rfl⟩, by simp [assignedForWrite_cons, assignedForWrite_nil]⟩,
      by simp [isRead], by simp [Effect.isHandled], fun hHandled => (by cases hHandled), List.pairwise_singleton _ _⟩

end Session

open Session

/-- In every run: at most one read is outstanding, the handler is called at most once, when `parse` has just
accepted the request that it gets, no read is outstanding or started from then on, and no run both accepts a
request and refuses one. -/
theorem one_request_per_session (kind : ServerKind) (mRequest : Request) (major minor : Int) (mReply : Reply)
    (events : List Event) :
    PartialRun.Always step OneRequest (serverSession kind mRequest major minor mReply) events ∧
      PartialRun.Along step (fun s e => ∀ t, s.step e = some t → s.HandsOver e t)
        (serverSession kind mRequest major minor mReply) events ∧
      ¬ (PartialRun.Occurs step (Session.Reads .good) (serverSession kind mRequest major minor mReply) events ∧
        PartialRun.Occurs step (Session.Reads .bad) (serverSession kind mRequest major minor mReply) events) := by
  have hStart := reading_serverSession kind mRequest major minor mReply
  refine ⟨?_, ?_, not_accepts_and_refuses hStart.1 events⟩
  · have hStep : PartialRun.Preserves step fun s => s.Reading ∧ s.OneRequest := by
      rintro s e t ⟨hs, hOne⟩ hStep
      exact ⟨reading_step s e t hs hStep, oneRequest_step hs hOne hStep⟩
    exact hStep.always (fun s hs => hs.2) hStart events
  · exact PartialRun.along_of_forall (fun s e t hStep => handsOver_step hStep) _ _

end HttpUtils
