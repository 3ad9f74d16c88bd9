import HttpUtils.Midway
import HttpUtils.Session.Isolation
import HttpUtils.Session.OneRequest

/-!
# A session that is sent one request

How far the session has come with the request `r`, of which it reads one piece after another, and what each event
makes of it: its operations follow one another, and the handler gets what was sent.
-/

namespace HttpUtils
set_option autoImplicit false

open WaitableTimer

inductive Stage where
  | handshake (id : ℕ)
  /-- The bytes that were read. -/
  | read (id : ℕ) (got : Bytes)
  | handle (id : ℕ) (q : Request)
  | write (id : ℕ) (q : Request)
  | ended (qs : List Request)
  deriving DecidableEq, Repr

def Stage.handed : Stage → List Request
  | .handshake _ | .read _ _ => []
  | .handle _ q | .write _ q => [q]
  | .ended qs => qs

namespace Session

inductive At (r : Request) (s : Session) : Stage → Prop where
  | handshake {id : ℕ} (hOp : s.outstanding = [(id, .handshake)]) (hHas : s.mRequestParser.Has [])
      (hHanded : s.handedOver = []) : s.At r (.handshake id)
  | read {id : ℕ} {got : Bytes} (hOp : s.outstanding = [(id, .readSome)]) (hHas : s.mRequestParser.Has got)
      (hHanded : s.handedOver = []) : s.At r (.read id got)
  | handle {id : ℕ} {q : Request} (hOp : s.outstanding = [(id, .handle)]) (hHanded : s.handedOver = [q])
      (hAgrees : q.Agrees r) : s.At r (.handle id q)
  | write {id : ℕ} {q : Request} (hOp : s.outstanding = [(id, .write)]) (hHanded : s.handedOver = [q])
      (hAgrees : q.Agrees r) : s.At r (.write id q)
  | ended {qs : List Request} (hOp : s.outstanding = []) (hHanded : s.handedOver = qs) (hLength : qs.length ≤ 1)
      (hAgrees : ∀ q ∈ qs, q.Agrees r) : s.At r (.ended qs)

variable {r : Request} {s t : Session} {stage : Stage} {id : ℕ}

theorem At.handedOver (h : s.At r stage) :
    s.handedOver = stage.handed ∧ stage.handed.length ≤ 1 ∧ ∀ q ∈ stage.handed, q.Agrees r := by
  cases h with
  | handshake hOp hHas hHanded => exact ⟨hHanded, by simp [Stage.handed], by simp [Stage.handed]⟩
  | read hOp hHas hHanded => exact ⟨hHanded, by simp [Stage.handed], by simp [Stage.handed]⟩
  | handle hOp hHanded hAgrees => exact ⟨hHanded, by simp [Stage.handed], by simpa [Stage.handed] using hAgrees⟩
  | write hOp hHanded hAgrees => exact ⟨hHanded, by simp [Stage.handed], by simpa [Stage.handed] using hAgrees⟩
  | ended hOp hHanded hLength hAgrees => exact ⟨hHanded, hLength, hAgrees⟩

theorem At.congr (h : s.At r stage) (hOp : t.outstanding = s.outstanding)
    (hParser : t.mRequestParser = s.mRequestParser)
    (hHanded : t.handedOver = s.handedOver) : t.At r stage := by
  cases h with
  | handshake hOp' hHas hHanded' => exact .handshake (hOp.trans hOp') (hParser ▸ hHas) (hHanded.trans hHanded')
  | read hOp' hHas hHanded' => exact .read (hOp.trans hOp') (hParser ▸ hHas) (hHanded.trans hHanded')
  | handle hOp' hHanded' hAgrees => exact .handle (hOp.trans hOp') (hHanded.trans hHanded') hAgrees
  | write hOp' hHanded' hAgrees => exact .write (hOp.trans hOp') (hHanded.trans hHanded') hAgrees
  | ended hOp' hHanded' hLength hAgrees => exact .ended (hOp.trans hOp') (hHanded.trans hHanded') hLength hAgrees

theorem handedOver_append {xs : List Effect} (h : t.history = s.history ++ xs) :
    t.handedOver = s.handedOver ++ xs.filterMap Effect.request := by
  rw [Session.handedOver, h, List.filterMap_append]
  rfl

theorem handled_of_handedOver {q : Request} (h : s.handedOver = [q]) : s.handled = true := by
  have hMem : q ∈ s.handedOver := by simp [h]
  obtain ⟨x, hx, hRequest⟩ := List.mem_filterMap.mp hMem
  cases x with
  | invokedHandler req => exact List.any_eq_true.mpr ⟨_, hx, rfl⟩
  | _ => cases hRequest

theorem Rested.handedOver {e : Event} {effects : List Effect} (h : s.Rested e effects t) :
    t.handedOver = s.handedOver := by
  have hQuiet : effects.filterMap Effect.request = [] :=
    List.filterMap_eq_nil_iff.mpr fun x hx => Effect.request_of_starts (h.quiet x hx)
  rw [handedOver_append h.history, hQuiet, List.append_nil]

@[simp] theorem mRequestParser_managerStop (s : Session) : s.managerStop.mRequestParser = s.mRequestParser := by
  unfold managerStop stop
  split <;> rfl

def Event.isOutside : Event → Bool
  | .serverStop | .expire | .runWait _ => true
  | _ => false

theorem mRequestParser_step {e : Event} (hOutside : e.isOutside = true) (hStep : s.step e = some t) :
    t.mRequestParser = s.mRequestParser := by
  cases e with
  | complete id result => cases hOutside
  | reply rep => cases hOutside
  | serverStop =>
    simp only [step] at hStep
    split at hStep
    · obtain rfl := Option.some.inj hStep
      exact mRequestParser_managerStop s
    · cases hStep
  | expire =>
    obtain rfl := Option.some.inj hStep
    rfl
  | runWait i =>
    obtain ⟨⟨⟨w, c⟩, timer⟩, -, rfl⟩ := Option.map_eq_some_iff.mp hStep
    cases c with
    | aborted => rfl
    | expired => exact mRequestParser_managerStop _

theorem At.outside (h : s.At r stage) {e : Event} (hOutside : e.isOutside = true) (hStep : s.step e = some t) :
    t.At r stage ∧ ∃ xs, t.history = s.history ++ xs ∧ ∀ x ∈ xs, x.starts = false := by
  have hParser := mRequestParser_step hOutside hStep
  have hRests : ¬ s.Progress e := by cases e <;> first | exact id | cases hOutside
  have hRest : s.rest e = s.outstanding := by cases e <;> first | rfl | cases hOutside
  cases step_took hStep with
  | reads hInput _ _ => exact absurd hInput hRests
  | handles hInput _ _ => exact absurd hInput hRests
  | refuses hInput _ => exact absurd hInput hRests
  | replies hOpen _ _ => exact absurd hOpen hRests
  | rests _ hRested =>
    exact ⟨h.congr (hRested.outstanding.trans hRest) hParser hRested.handedOver, _, hRested.history, hRested.quiet⟩

theorem lookup_only {id' : ℕ} {op op' : Operation} (hOp : s.outstanding = [(id', op')])
    (hLookup : s.outstanding.lookup id = some op) : id' = id ∧ op' = op := by
  rw [hOp] at hLookup
  obtain ⟨a, b, hSplit, -⟩ := List.lookup_eq_some_iff.mp hLookup
  cases a with
  | nil =>
    have hHead := (List.cons_eq_cons.mp hSplit).1
    exact ⟨congrArg Prod.fst hHead, congrArg Prod.snd hHead⟩
  | cons y a => simp at hSplit

theorem At.fails (h : s.At r stage) {ec : ErrorCode} (hStep : s.step (.complete id (.error ec)) = some t) :
    t.At r (.ended stage.handed) ∧ (∀ id' q, stage ≠ .handle id' q) ∧
      ∃ xs, t.history = s.history ++ xs ∧ ∀ x ∈ xs, x.starts = false := by
  obtain ⟨hHanded, hLength, hAgrees⟩ := h.handedOver
  have hRests : ¬ s.Progress (.complete id (.error ec)) := not_false
  have hNone : s.rest (.complete id (.error ec)) = [] := by
    obtain ⟨op, hLookup, hHandler⟩ := Option.bind_eq_some_iff.mp hStep
    have hOnly {id' : ℕ} {op' : Operation} (hOp : s.outstanding = [(id', op')]) :
        s.rest (.complete id (.error ec)) = [] := by
      obtain ⟨rfl, -⟩ := lookup_only hOp hLookup
      simp [rest, hOp]
    cases h with
    | handshake hOp hHas hHanded => exact hOnly hOp
    | read hOp hHas hHanded => exact hOnly hOp
    | handle hOp hHanded hAgrees => exact hOnly hOp
    | write hOp hHanded hAgrees => exact hOnly hOp
    | ended hOp hHanded hLength hAgrees => simp [rest, hOp]
  cases step_took hStep with
  | rests _ hRested =>
    refine ⟨.ended (hRested.outstanding.trans hNone) (hRested.handedOver.trans hHanded) hLength hAgrees, ?_, _,
      hRested.history, hRested.quiet⟩
    rintro id' q rfl
    cases h with
    | handle hOp _ _ =>
      obtain ⟨op, hLookup, hHandler⟩ := Option.bind_eq_some_iff.mp hStep
      obtain ⟨-, rfl⟩ := lookup_only hOp hLookup
      cases hHandler

theorem At.shakes (h : s.At r stage) {data : Bytes} (hLookup : s.outstanding.lookup id = some .handshake)
    (hStep : s.step (.complete id (.ok data)) = some t) :
    stage = .handshake id ∧ t.At r (.read s.nextId []) ∧
      t.history = s.history ++ [.finished id, .started s.nextId .readSome] ∧ t.mStopped = s.mStopped := by
  obtain rfl := Option.some.inj ((step_handshake hLookup).symm.trans hStep)
  have hRead : (s.finish id).onHandshake (.ok data) =
      begin { (s.finish id).cancelTimer with
        rearmed := s.rearmed ++ [0]
        mConTimer := s.mConTimer.cancel.asyncWait ⟨.readRequest, s.nextId⟩ } .readSome := by
    rw [onHandshake, doRead, withTimeout_eq rfl]
    simp [finish, emit, cancelTimer]
  have hHistory := s.history_onHandshake id data
  cases h with
  | handshake hOp hHas hHanded =>
    obtain ⟨rfl, -⟩ := lookup_only hOp hLookup
    refine ⟨rfl, .read ?_ ?_ ?_, hHistory, ?_⟩
    · rw [hRead]
      simp [begin, emit, finish, cancelTimer, hOp]
    · rw [hRead]
      exact hHas
    · rw [handedOver_append hHistory, hHanded]
      rfl
    · rw [hRead]
      rfl
  | read hOp hHas hHanded => cases (lookup_only hOp hLookup).2
  | handle hOp hHanded hAgrees => cases (lookup_only hOp hLookup).2
  | write hOp hHanded hAgrees => cases (lookup_only hOp hLookup).2
  | ended hOp hHanded hLength hAgrees =>
    rw [hOp] at hLookup
    cases hLookup

/-- What a read makes of a session whose parser does not refuse it. -/
theorem onReadSome_spec (hRead : s.outstanding = [(id, .readSome)]) (data : Bytes)
    (hGoes : (s.mRequestParser.parse data).1 ≠ .bad) :
    ((s.finish id).onReadSome (.ok data)).mStopped = s.mStopped ∧
      ((s.finish id).onReadSome (.ok data)).outstanding =
        [(s.nextId, if (s.mRequestParser.parse data).1 = .good then .handle else .readSome)] ∧
      ((s.mRequestParser.parse data).1 = .indeterminate →
        ((s.finish id).onReadSome (.ok data)).mRequestParser = (s.mRequestParser.parse data).2) := by
  have hParse : (s.finish id).cancelTimer.mRequestParser.parse data = s.mRequestParser.parse data := rfl
  simp only [onReadSome, hParse]
  revert hGoes
  generalize s.mRequestParser.parse data = x
  obtain ⟨result, parser⟩ := x
  intro hGoes
  cases result with
  | bad => exact absurd rfl hGoes
  | good =>
    dsimp only
    unfold handleRequest
    dsimp only
    rw [withTimeout_eq rfl]
    simp [begin, emit, finish, cancelTimer, hRead]
  | indeterminate =>
    dsimp only
    rw [doRead, withTimeout_eq rfl]
    simp [begin, emit, finish, cancelTimer, hRead]

theorem At.reads (h : s.At r stage) {serverUrl serverPort data : Bytes} (hReq : r.Encodable serverUrl serverPort)
    (hLookup : s.outstanding.lookup id = some .readSome) (hStep : s.step (.complete id (.ok data)) = some t) :
    ∃ got, stage = .read id got ∧ (got ++ data <+: r.toBytes serverUrl serverPort →
      t.mStopped = s.mStopped ∧
        (got ++ data = r.toBytes serverUrl serverPort ∧ (∃ q, t.At r (.handle s.nextId q) ∧
            t.history = s.history ++ [.finished id, .started s.nextId .handle, .invokedHandler q]) ∨
          got ++ data ≠ r.toBytes serverUrl serverPort ∧ t.At r (.read s.nextId (got ++ data)) ∧
            t.history = s.history ++ [.finished id, .started s.nextId .readSome])) := by
  have hSome : data ≠ [] := by
    intro hNone
    rw [step, hLookup, Option.bind_some, handler, if_neg (by simp [hNone])] at hStep
    cases hStep
  obtain rfl := step_readSome hLookup hStep
  cases h with
  | @read id' got hOp hHas hHanded =>
    obtain ⟨rfl, -⟩ := lookup_only hOp hLookup
    refine ⟨got, rfl, fun hPrefix => ?_⟩
    have hHistory := s.history_onReadSome id' data
    obtain ⟨hNext, hResult⟩ := hReq.arrives hHas hSome hPrefix
    have hGoes : (s.mRequestParser.parse data).1 ≠ .bad := by
      rcases hResult with ⟨-, hGood, -⟩ | ⟨-, hIndeterminate⟩
      · simp [hGood]
      · simp [hIndeterminate]
    obtain ⟨hStopped, hOutstanding, hParser⟩ := onReadSome_spec hOp data hGoes
    refine ⟨hStopped, ?_⟩
    rcases hResult with ⟨hEnd, hGood, hAgrees⟩ | ⟨hEnd, hIndeterminate⟩
    · rw [readEffects, hGood] at hHistory
      rw [if_pos hGood] at hOutstanding
      refine .inl ⟨hEnd, _, .handle hOutstanding ?_ hAgrees, hHistory⟩
      rw [handedOver_append hHistory, hHanded]
      rfl
    · rw [readEffects, hIndeterminate] at hHistory
      rw [if_neg (by simp [hIndeterminate])] at hOutstanding
      refine .inr ⟨hEnd, .read hOutstanding ?_ ?_, hHistory⟩
      · rw [hParser hIndeterminate]
        exact hNext
      · rw [handedOver_append hHistory, hHanded]
        rfl
  | handshake hOp hHas hHanded => cases (lookup_only hOp hLookup).2
  | handle hOp hHanded hAgrees => cases (lookup_only hOp hLookup).2
  | write hOp hHanded hAgrees => cases (lookup_only hOp hLookup).2
  | ended hOp hHanded hLength hAgrees =>
    rw [hOp] at hLookup
    cases hLookup

theorem At.replies {q : Request} (h : s.At r (.handle id q)) {rep : Reply} (hStep : s.step (.reply rep) = some t) :
    s.mStopped = true ∧ t = s ∨
      s.mStopped = false ∧ t.At r (.write s.nextId q) ∧ t.mReplyStr = rep.toBytes ∧ t.mStopped = false ∧
        t.history = s.history ++ [.assignedReplyStr, .started s.nextId .write] := by
  simp only [step] at hStep
  split at hStep
  · obtain rfl := Option.some.inj hStep
    unfold onReply
    split
    · rename_i hStopped
      exact .inl ⟨hStopped, rfl⟩
    · rename_i hOpen
      right
      dsimp only
      rw [doWrite_eq rfl]
      cases h with
      | handle hOp hHanded hAgrees =>
        have hOpen' : s.mStopped = false := by simpa using hOpen
        refine ⟨hOpen', .write ?_ ?_ hAgrees, rfl, hOpen', ?_⟩
        · simp [begin, emit, cancelTimer, hOp]
        · simp only [Session.handedOver] at hHanded
          simp [Session.handedOver, begin, emit, cancelTimer, Effect.request, hHanded]
        · simp [begin, emit, cancelTimer]
  · cases hStep

theorem managerStop_spec (s : Session) :
    s.managerStop.outstanding = s.outstanding ∧ s.managerStop.history = s.history ++ [.stopped] ∧
      s.managerStop.mStopped = s.mStopped ∧ ∀ w, (w, .expired) ∈ s.managerStop.mConTimer.queued →
      (w, .expired) ∈ s.mConTimer.queued := by
  unfold managerStop stop
  split
  · exact ⟨rfl, rfl, rfl, fun _ hw => hw⟩
  · exact ⟨rfl, rfl, rfl, fun _ hw => Timer.expired_cancel.mp hw⟩

theorem At.writes (h : s.At r stage) {data : Bytes} (hLookup : s.outstanding.lookup id = some .write)
    (hStep : s.step (.complete id (.ok data)) = some t) :
    (∃ q, stage = .write id q ∧ t.At r (.ended [q])) ∧ t.history = s.history ++ [.finished id, .stopped] ∧
      t.mStopped = s.mStopped := by
  rw [step, hLookup, Option.bind_some] at hStep
  obtain rfl := Option.some.inj hStep
  obtain ⟨hOutstanding, hHistory, hStopped, -⟩ := managerStop_spec (s.finish id).cancelTimer
  have hHistory' : ((s.finish id).onWrite (.ok data)).history = s.history ++ [.finished id, .stopped] := by
    rw [onWrite, hHistory]
    simp [finish, emit, cancelTimer]
  refine ⟨?_, hHistory', hStopped⟩
  cases h with
  | @write id' q hOp hHanded hAgrees =>
    obtain ⟨rfl, -⟩ := lookup_only hOp hLookup
    refine ⟨q, rfl, .ended ?_ ?_ (Nat.le_refl _) (by simpa using hAgrees)⟩
    · rw [onWrite, hOutstanding]
      simp [finish, emit, cancelTimer, hOp]
    · rw [handedOver_append hHistory', hHanded]
      rfl
  | handshake hOp hHas hHanded => cases (lookup_only hOp hLookup).2
  | read hOp hHas hHanded => cases (lookup_only hOp hLookup).2
  | handle hOp hHanded hAgrees => cases (lookup_only hOp hLookup).2
  | ended hOp hHanded hLength hAgrees =>
    rw [hOp] at hLookup
    cases hLookup

/-- Only the clock makes a wait expire. -/
theorem expired_step {e : Event} (hOther : e ≠ .expire) (hStep : s.step e = some t) {w : Wait}
    (hw : (w, .expired) ∈ t.mConTimer.queued) : (w, .expired) ∈ s.mConTimer.queued := by
  have hBegan {phase : Phase} {op : Operation} {before after : List Effect} (h : s.Began e phase op before after t) :
      (w, .expired) ∈ s.mConTimer.queued := by
    rw [h.timer, Timer.queued_asyncWait] at hw
    exact Timer.expired_cancel.mp hw
  cases step_took hStep with
  | reads _ h _ => exact hBegan h
  | handles _ h _ => exact hBegan h
  | refuses _ h => exact hBegan h
  | replies _ _ h => exact hBegan h
  | rests hRests hRested =>
    cases e with
    | expire => exact absurd rfl hOther
    | complete id result =>
      rw [hRested.cancelled id result rfl] at hw
      exact Timer.expired_cancel.mp hw
    | serverStop =>
      simp only [step] at hStep
      split at hStep
      · obtain rfl := Option.some.inj hStep
        exact (managerStop_spec s).2.2.2 w hw
      · cases hStep
    | reply rep =>
      have hStopped : s.mStopped = true := by simpa [Progress] using hRests
      simp only [step] at hStep
      split at hStep
      · obtain rfl := Option.some.inj hStep
        rwa [onReply, if_pos hStopped] at hw
      · cases hStep
    | runWait i =>
      obtain ⟨⟨⟨v, c⟩, timer⟩, hTake, rfl⟩ := Option.map_eq_some_iff.mp hStep
      obtain ⟨-, rfl⟩ := Timer.take_eq_some.mp hTake
      cases c with
      | aborted => exact List.mem_of_mem_eraseIdx hw
      | expired => exact List.mem_of_mem_eraseIdx ((managerStop_spec _).2.2.2 w hw)

end Session

end HttpUtils
