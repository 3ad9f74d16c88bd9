import HttpUtils.Session.OneRequest
import Mathlib.Data.List.InsertIdx

/-!
# `http` and `https` sessions side by side

After its handshake an `https` session does what an `http` session does, with every operation one number
higher, until one of them stops. The wait of the handshake may still be queued at its timer.
-/

namespace HttpUtils
set_option autoImplicit false

open WaitableTimer

/-- What is seen of a session. -/
inductive Action where
  | read
  | handle (req : Request)
  | write (bytes : Bytes)
  | stop
  deriving DecidableEq, Repr

def Action.isStop (x : Action) : Bool := x == .stop

def Wait.next (w : Wait) : Wait := { w with guards := w.guards + 1 }

def Effect.next : Effect → Effect
  | .started id op => .started (id + 1) op
  | .finished id => .finished (id + 1)
  | x => x

namespace Session

def Event.next (k : ℕ) : Event → Event
  | .complete id result => .complete (id + 1) result
  | .runWait i => .runWait (i + k)
  | e => e

/-- The two sessions get the same events, and `https` runs the aborted wait of its handshake at any time. -/
inductive SameEvents : List (Wait × Completion) → List Event → List Event → Prop where
  | nil (queued : List (Wait × Completion)) : SameEvents queued [] []
  | cons {queued : List (Wait × Completion)} {events events' : List Event} (e : Event)
      (h : SameEvents queued events events') : SameEvents queued (e :: events) (e.next queued.length :: events')
  | aborted {w : Wait} {events events' : List Event} (h : SameEvents [] events events') :
      SameEvents [(w, .aborted)] events (.runWait 0 :: events')

/-- A write sends `m_reply_str` as it is when the write starts. -/
def action (t : Session) : Effect → Option Action
  | .started _ .readSome => some .read
  | .started _ .write => some (.write t.mReplyStr)
  | .invokedHandler req => some (.handle req)
  | .stopped => some .stop
  | _ => none

def newActions (s t : Session) : List Action := (t.history.drop s.history.length).filterMap t.action

/-- The visible actions of a run up to the first stop. -/
def actions (s : Session) (events : List Event) : List Action :=
  PartialRun.upTo Action.isStop (PartialRun.outputs step newActions s events)

def nextOperation (x : ℕ × Operation) : ℕ × Operation := (x.1 + 1, x.2)

def nextCompletion (x : Wait × Completion) : Wait × Completion := (x.1.next, x.2)

structure Recorded (s s' : Session) : Prop where
  history : s'.history = [.started 0 .handshake, .finished 0] ++ s.history.map Effect.next
  mReplyStr : s'.mReplyStr = s.mReplyStr

structure Alike (queued : List (Wait × Completion)) (s s' : Session) : Prop extends Recorded s s' where
  http : s.kind = .http
  https : s'.kind = .https
  mRequestParser : s'.mRequestParser = s.mRequestParser
  managed : s'.managed = s.managed
  outstanding : s'.outstanding = s.outstanding.map nextOperation
  nextId : s'.nextId = s.nextId + 1
  waiting : s'.mConTimer.pending = s.mConTimer.pending.map Wait.next
  queued : s'.mConTimer.queued = queued ++ s.mConTimer.queued.map nextCompletion

def Alongside (queued : List (Wait × Completion)) (s s' : Session) : Prop :=
  Recorded s s' ∧ (.stopped ∈ s.history ∨ Alike queued s s')

theorem Alike.alongside {queued : List (Wait × Completion)} {s s' : Session} (h : Alike queued s s') :
    Alongside queued s s' := ⟨h.toRecorded, .inr h⟩

/-! ### The functions of the two sessions -/

section

variable {queued : List (Wait × Completion)} {s s' : Session}

theorem Recorded.emit {x : Effect} (h : Recorded s s') : Recorded (s.emit x) (s'.emit x.next) := by
  refine ⟨?_, h.mReplyStr⟩
  simp [Session.emit, h.history]

theorem Alike.emit {x : Effect} (h : Alike queued s s') : Alike queued (s.emit x) (s'.emit x.next) where
  toRecorded := h.toRecorded.emit
  http := h.http
  https := h.https
  mRequestParser := h.mRequestParser
  managed := h.managed
  outstanding := h.outstanding
  nextId := h.nextId
  waiting := h.waiting
  queued := h.queued

theorem settle_next {t t' : Timer Wait} (hWaiting : t'.pending = t.pending.map Wait.next)
    (hQueued : t'.queued = queued ++ t.queued.map nextCompletion) (c : Completion) :
    (t'.settle c).queued = queued ++ (t.settle c).queued.map nextCompletion := by
  simp [Timer.settle, hWaiting, hQueued, nextCompletion, Function.comp_def]

theorem Alike.settle (h : Alike queued s s') (c : Completion) :
    Alike queued { s with mConTimer := s.mConTimer.settle c } { s' with mConTimer := s'.mConTimer.settle c } :=
  { h with
    waiting := rfl
    queued := settle_next h.waiting h.queued c }

theorem Alike.cancelTimer (h : Alike queued s s') : Alike queued s.cancelTimer s'.cancelTimer := h.settle .aborted

theorem Alike.asyncWait (h : Alike queued s s') (phase : Phase) :
    Alike queued { s with mConTimer := s.mConTimer.asyncWait ⟨phase, s.nextId⟩ }
      { s' with mConTimer := s'.mConTimer.asyncWait ⟨phase, s'.nextId⟩ } :=
  { h with
    waiting := by simp [Timer.asyncWait, h.waiting, h.nextId, Wait.next]
    queued := h.queued }

theorem Alike.begin (h : Alike queued s s') (op : Operation) : Alike queued (s.begin op) (s'.begin op) := by
  have hStarted : Alike queued
      { s with outstanding := s.outstanding ++ [(s.nextId, op)], nextId := s.nextId + 1 }
      { s' with outstanding := s'.outstanding ++ [(s'.nextId, op)], nextId := s'.nextId + 1 } :=
    { h with
      outstanding := by simp [h.outstanding, h.nextId, nextOperation]
      nextId := by rw [h.nextId] }
  have hEmit := hStarted.emit (x := .started s.nextId op)
  rw [Session.begin, Session.begin, h.nextId]
  rw [h.nextId] at hEmit
  exact hEmit

theorem Alike.finish (h : Alike queued s s') (id : ℕ) : Alike queued (s.finish id) (s'.finish (id + 1)) := by
  have hFiltered : Alike queued { s with outstanding := s.outstanding.filter fun x => x.1 ≠ id }
      { s' with outstanding := s'.outstanding.filter fun x => x.1 ≠ id + 1 } :=
    { h with
      outstanding := by simp [h.outstanding, List.filter_map, Function.comp_def, nextOperation] }
  exact hFiltered.emit

theorem Alike.idle (h : Alike queued s s') (hIdle : s.mConTimer.pending = []) : s'.mConTimer.pending = [] := by
  rw [h.waiting, hIdle, List.map_nil]

theorem Alike.armed (h : Alike queued s s') (phase : Phase) :
    Alike queued { s with rearmed := s.rearmed ++ [0], mConTimer := s.mConTimer.cancel.asyncWait ⟨phase, s.nextId⟩ }
      { s' with
        rearmed := s'.rearmed ++ [0]
        mConTimer := s'.mConTimer.cancel.asyncWait ⟨phase, s'.nextId⟩ } :=
  { h.cancelTimer.asyncWait phase with }

theorem Alike.doRead (h : Alike queued s s') (hIdle : s.mConTimer.pending = []) :
    Alike queued s.doRead s'.doRead := by
  rw [Session.doRead, Session.doRead, withTimeout_eq hIdle, withTimeout_eq (h.idle hIdle)]
  exact (h.armed .readRequest).begin .readSome

/-- `http` cancels its timer here, which has no wait pending. -/
theorem Alike.doWrite (h : Alike queued s s') (hIdle : s.mConTimer.pending = []) (hReply : s'.mReply = s.mReply) :
    Alike queued s.doWrite s'.doWrite := by
  rw [doWrite_eq hIdle, doWrite_eq (h.idle hIdle)]
  have hAssigned : Alike queued { s with mReplyStr := s.mReply.toBytes } { s' with mReplyStr := s'.mReply.toBytes } :=
    { h with mReplyStr := by rw [hReply] }
  have hEmit := (hAssigned.armed .writeReply).emit (x := .assignedReplyStr)
  exact hEmit.begin .write

theorem Alike.handleRequest (h : Alike queued s s') : Alike queued s.handleRequest s'.handleRequest := by
  have hMoved (request : Request) (parser : HttpRequestParser) : Alike queued
      { s.cancelTimer with mRequest := request, mRequestParser := parser }
      { s'.cancelTimer with mRequest := request, mRequestParser := parser } :=
    { h.cancelTimer with mRequestParser := rfl }
  unfold Session.handleRequest
  dsimp only
  rw [h.cancelTimer.mRequestParser, withTimeout_eq rfl, withTimeout_eq rfl]
  exact (((hMoved _ _).armed .handleRequest).begin .handle).emit (x := .invokedHandler _)

theorem Alike.managerStop (h : Alike queued s s') : Alongside queued s.managerStop s'.managerStop := by
  have hEmit := h.toRecorded.emit (x := .stopped)
  unfold Session.managerStop Session.stop
  rw [h.http, h.https]
  refine ⟨⟨hEmit.history, hEmit.mReplyStr⟩, .inl ?_⟩
  simp [Session.emit]

theorem Alike.onTimeout (h : Alike queued s s') (phase : Phase) :
    Alongside queued (s.onTimeout phase) (s'.onTimeout phase) := by
  have hMarked : Alike queued { s with mStopped := true } { s' with mStopped := true } := { h with }
  exact (hMarked.emit (x := .timedOut phase)).managerStop

theorem Alike.onReadSome (h : Alike queued s s') (result : IoResult) :
    Alongside queued (s.onReadSome result) (s'.onReadSome result) := by
  cases result with
  | error ec =>
    simp only [Session.onReadSome]
    split
    · exact h.cancelTimer.managerStop
    · exact h.cancelTimer.alongside
  | ok data =>
    have hParsed (p : HttpRequestParser) :
        Alike queued { s.cancelTimer with mRequestParser := p } { s'.cancelTimer with mRequestParser := p } :=
      { h.cancelTimer with mRequestParser := rfl }
    have hParse : s'.cancelTimer.mRequestParser.parse data = s.cancelTimer.mRequestParser.parse data := by
      rw [h.cancelTimer.mRequestParser]
    simp only [Session.onReadSome, hParse]
    generalize s.cancelTimer.mRequestParser.parse data = x
    obtain ⟨result, parser⟩ := x
    apply Alike.alongside
    cases result with
    | good => exact (hParsed parser).handleRequest
    | bad =>
      have hRefused (a b : Bool) : Alike queued
          { s.cancelTimer with mRequestParser := parser, mStopped := a, mReply := stockReply .badRequest }
          { s'.cancelTimer with mRequestParser := parser, mStopped := b, mReply := stockReply .badRequest } :=
        { hParsed parser with }
      exact (hRefused _ _).doWrite rfl rfl
    | indeterminate => exact (hParsed parser).doRead rfl

theorem Alike.onWrite (h : Alike queued s s') (result : IoResult) :
    Alongside queued (s.onWrite result) (s'.onWrite result) := by
  cases result with
  | ok data => exact h.cancelTimer.managerStop
  | error ec =>
    simp only [Session.onWrite]
    split
    · exact h.cancelTimer.managerStop
    · exact h.cancelTimer.alongside

theorem Alike.onReply (h : Alike queued s s') (hOpen : s'.mStopped = s.mStopped) (r : Reply) :
    Alongside queued (s.onReply r) (s'.onReply r) := by
  apply Alike.alongside
  unfold Session.onReply
  rw [hOpen]
  split
  · exact h
  · have hAnswered : Alike queued
        { s.cancelTimer with mReply := r, outstanding := s.outstanding.filter fun x => x.2 ≠ .handle }
        { s'.cancelTimer with mReply := r, outstanding := s'.outstanding.filter fun x => x.2 ≠ .handle } :=
      { h.cancelTimer with
        outstanding := by
          rw [h.outstanding, List.filter_map]
          rfl }
    exact hAnswered.doWrite rfl rfl

theorem lookup_next (l : List (ℕ × Operation)) (id : ℕ) : (l.map nextOperation).lookup (id + 1) = l.lookup id := by
  induction l with
  | nil => rfl
  | cons x l ih =>
    obtain ⟨n, op⟩ := x
    rw [List.map_cons, nextOperation, List.lookup_cons, List.lookup_cons, ih]
    simp

end

/-! ### `m_stopped` -/

theorem mStopped_onReadSome {s : Session} (hKind : s.kind = .https) (data : Bytes) :
    (s.onReadSome (.ok data)).mStopped = s.mStopped := by
  simp only [Session.onReadSome]
  generalize s.cancelTimer.mRequestParser.parse data = x
  obtain ⟨result, parser⟩ := x
  cases result with
  | good =>
    unfold Session.handleRequest
    dsimp only
    rw [withTimeout_eq rfl]
    rfl
  | bad =>
    dsimp only
    rw [doWrite_eq rfl]
    simp [Session.begin, Session.emit, Session.cancelTimer, hKind]
  | indeterminate =>
    dsimp only
    rw [Session.doRead, withTimeout_eq rfl]
    rfl

/-- Only a timeout, which stops the session, and a bad request of `http` set `m_stopped`. -/
theorem mStopped_step {s t : Session} {e : Event} (hStep : s.step e = some t) :
    t.mStopped = s.mStopped ∨ .stopped ∈ t.history ∨
      s.kind = .http ∧ ∃ id data, e = .complete id (.ok data) ∧ s.Inputs id := by
  cases step_took hStep with
  | reads _ _ hStopped => exact .inl hStopped
  | handles _ _ hStopped => exact .inl hStopped
  | @refuses id data _ hInput _ =>
    cases hKind : s.kind with
    | http => exact .inr (.inr ⟨rfl, id, data, rfl, hInput⟩)
    | https =>
      rcases hInput with hOp | hOp
      · obtain rfl := Option.some.inj ((step_handshake hOp).symm.trans hStep)
        rw [Session.onHandshake, Session.doRead, withTimeout_eq rfl]
        exact .inl rfl
      · obtain rfl := step_readSome hOp hStep
        exact .inl (mStopped_onReadSome (s := s.finish id) hKind data)
  | @replies r _ hOpen hHandled _ =>
    rw [step, if_pos hHandled, onReply, if_neg (by simp [hOpen])] at hStep
    obtain rfl := Option.some.inj hStep
    dsimp only
    rw [doWrite_eq rfl]
    exact .inl rfl
  | rests hRests _ =>
    cases step_halts hStep hRests with
    | stops u => exact .inr (.inl u.stopped_managerStop)
    | _ => exact .inl rfl

/-- `m_stopped` is set where no request handler is called and none will be. -/
def Refused (s : Session) : Prop := s.mStopped = true → s.handled = false ∧ s.outstanding.countP isInput = 0

theorem refused_step {s t : Session} {e : Event} (hs : s.Reading) (hRefused : s.Refused) (hStep : s.step e = some t)
    (hRunning : .stopped ∉ t.history) : t.Refused := by
  intro hMark
  have hMarked := mStopped_step hStep
  cases step_took hStep with
  | reads hInput _ hStopped => exact absurd (hRefused (hStopped ▸ hMark)).2 hInput.countP_ne_zero
  | handles hInput _ hStopped => exact absurd (hRefused (hStopped ▸ hMark)).2 hInput.countP_ne_zero
  | refuses hInput hBegan =>
    refine ⟨?_, hBegan.no_input (hs.none_left hInput _) rfl⟩
    rw [handled_append hBegan.history, (hs.first_of_inputs hInput).1]
    rfl
  | replies hOpen _ _ =>
    rcases hMarked with hSame | hStop | ⟨-, id, data, hEvent, -⟩
    · rw [hSame, hOpen] at hMark
      cases hMark
    · exact absurd hStop hRunning
    · cases hEvent
  | rests hRests hRested =>
    rcases hMarked with hSame | hStop | ⟨-, id, data, rfl, hInput⟩
    · obtain ⟨hHandled, hNone⟩ := hRefused (hSame ▸ hMark)
      have hLe := (s.rest_sublist e).countP_le (p := isInput)
      refine ⟨?_, ?_⟩
      · rw [handled_append hRested.history, hHandled, (quiet_effects hRested.quiet).2]
        rfl
      · rw [hRested.outstanding]
        omega
    · exact absurd hStop hRunning
    · exact absurd hInput hRests

theorem history_step {s t : Session} {e : Event} (hStep : s.step e = some t) : ∃ xs, t.history = s.history ++ xs := by
  cases step_took hStep with
  | reads _ hBegan _ => exact ⟨_, hBegan.history⟩
  | handles _ hBegan _ => exact ⟨_, hBegan.history⟩
  | refuses _ hBegan => exact ⟨_, hBegan.history⟩
  | replies _ _ hBegan => exact ⟨_, hBegan.history⟩
  | rests _ hRested => exact ⟨_, hRested.history⟩

/-! ### One step -/

section

variable {queued : List (Wait × Completion)} {s s' t t' : Session}

theorem Recorded.handled (h : Recorded s s') : s'.handled = s.handled := by
  have hNext (x : Effect) : x.next.isHandled = x.isHandled := by cases x <;> rfl
  rw [Session.handled, Session.handled, h.history, List.any_append, List.any_map]
  have hComp : Effect.isHandled ∘ Effect.next = Effect.isHandled := funext hNext
  rw [hComp]
  rfl

theorem Recorded.newActions (hs : Recorded s s') (ht : Recorded t t') : newActions s' t' = newActions s t := by
  have hAction (x : Effect) : t'.action x.next = t.action x := by
    cases x with
    | started id op => cases op <;> simp [action, Effect.next, ht.mReplyStr]
    | _ => rfl
  have hDrop : t'.history.drop s'.history.length = (t.history.drop s.history.length).map Effect.next := by
    rw [hs.history, ht.history, List.length_append, List.length_map, ← List.drop_drop, List.drop_left, List.map_drop]
  rw [Session.newActions, Session.newActions, hDrop, List.filterMap_map]
  congr 1
  exact funext hAction

/-- One side by side with the other and still running. -/
structure Lockstep (queued : List (Wait × Completion)) (s s' : Session) : Prop extends Alike queued s s' where
  reading : s.Reading
  refused : s.Refused
  unmarked : s'.mStopped = false
  running : .stopped ∉ s.history

theorem Lockstep.open (h : Lockstep queued s s') (hHandled : s.handled = true) : s'.mStopped = s.mStopped := by
  cases hMark : s.mStopped with
  | false => exact h.unmarked
  | true =>
    rw [(h.refused hMark).1] at hHandled
    cases hHandled

theorem Alike.runWait (h : Alike queued s s') (i : ℕ) :
    (s.step (.runWait i) = none ∧ s'.step (.runWait (i + queued.length)) = none) ∨
      ∃ t t', s.step (.runWait i) = some t ∧ s'.step (.runWait (i + queued.length)) = some t' ∧
        Alongside queued t t' := by
  have hGet : s'.mConTimer.queued[i + queued.length]? = s.mConTimer.queued[i]?.map nextCompletion := by
    rw [h.queued, List.getElem?_append_right (by omega), Nat.add_sub_cancel, List.getElem?_map]
  have hErased : Alike queued
      { s with mConTimer := { s.mConTimer with queued := s.mConTimer.queued.eraseIdx i } }
      { s' with mConTimer := { s'.mConTimer with queued := s'.mConTimer.queued.eraseIdx (i + queued.length) } } :=
    { h with
      queued := by
        rw [h.queued, List.eraseIdx_append_of_length_le (by omega), Nat.add_sub_cancel, List.eraseIdx_map] }
  simp only [step, Timer.take, hGet]
  cases s.mConTimer.queued[i]? with
  | none => exact .inl ⟨rfl, rfl⟩
  | some x =>
    obtain ⟨w, c⟩ := x
    refine .inr ⟨_, _, rfl, rfl, ?_⟩
    cases c with
    | aborted => exact hErased.alongside
    | expired => exact hErased.onTimeout w.phase

theorem Alike.handler (h : Alike queued s s') (op : Operation) (result : IoResult) :
    (s.handler op result = none ∧ s'.handler op result = none) ∨
      ∃ t t', s.handler op result = some t ∧ s'.handler op result = some t' ∧ Alongside queued t t' := by
  cases op with
  | handle => exact .inl ⟨rfl, rfl⟩
  | write => exact .inr ⟨_, _, rfl, rfl, h.onWrite result⟩
  | handshake =>
    refine .inr ⟨_, _, rfl, rfl, ?_⟩
    cases result with
    | ok data => exact (h.cancelTimer.doRead rfl).alongside
    | error ec => exact h.cancelTimer.managerStop
  | readSome =>
    cases result with
    | error ec => exact .inr ⟨_, _, rfl, rfl, h.onReadSome _⟩
    | ok data =>
      simp only [Session.handler]
      split
      · exact .inr ⟨_, _, rfl, rfl, h.onReadSome _⟩
      · exact .inl ⟨rfl, rfl⟩

/-- An event is possible for both or for neither, and does the same. -/
theorem Lockstep.step (h : Lockstep queued s s') (e : Event) :
    (s.step e = none ∧ s'.step (e.next queued.length) = none) ∨
      ∃ t t', s.step e = some t ∧ s'.step (e.next queued.length) = some t' ∧ Alongside queued t t' := by
  cases e with
  | serverStop =>
    simp only [Session.step, Event.next, h.managed]
    split
    · exact .inr ⟨_, _, rfl, rfl, h.managerStop⟩
    · exact .inl ⟨rfl, rfl⟩
  | expire => exact .inr ⟨_, _, rfl, rfl, (h.settle .expired).alongside⟩
  | runWait i => exact h.runWait i
  | complete id result =>
    simp only [Session.step, Event.next, h.outstanding, lookup_next]
    cases s.outstanding.lookup id with
    | none => exact .inl ⟨rfl, rfl⟩
    | some op => exact (h.toAlike.finish id).handler op result
  | reply r =>
    simp only [Session.step, Event.next, h.handled]
    split
    · rename_i hHandled
      exact .inr ⟨_, _, rfl, rfl, h.onReply (h.open hHandled) r⟩
    · exact .inl ⟨rfl, rfl⟩

theorem Lockstep.next (h : Lockstep queued s s') {e : Event} (hStep : s.step e = some t)
    (hStep' : s'.step (e.next queued.length) = some t') (hAlike : Alike queued t t')
    (hRunning : .stopped ∉ t.history) :
    Lockstep queued t t' := by
  refine ⟨hAlike, reading_step s e t h.reading hStep, refused_step h.reading h.refused hStep hRunning, ?_, hRunning⟩
  have hRunning' : .stopped ∉ t'.history := by
    have hNext (x : Effect) (hx : x.next = .stopped) : x = .stopped := by
      cases x <;> first | rfl | cases hx
    rw [hAlike.history, List.mem_append, List.mem_map]
    rintro (hMem | ⟨x, hMem, hx⟩)
    · simp at hMem
    · exact hRunning (hNext x hx ▸ hMem)
  rcases mStopped_step hStep' with hSame | hStop | ⟨hKind, -⟩
  · rw [hSame, h.unmarked]
  · exact absurd hStop hRunning'
  · rw [h.https] at hKind
    cases hKind

theorem Lockstep.aborted {w : Wait} (h : Lockstep [(w, .aborted)] s s') :
    ∃ t', s'.step (.runWait 0) = some t' ∧ newActions s' t' = [] ∧ Lockstep [] s t' := by
  refine ⟨{ s' with mConTimer := { s'.mConTimer with queued := s.mConTimer.queued.map nextCompletion } }, ?_, ?_, ?_⟩
  · simp [Session.step, Timer.take, h.queued]
  · simp [newActions]
  · exact { h with queued := rfl }

theorem stop_mem_newActions {e : Event} (hStep : s.step e = some t) (hRunning : .stopped ∉ s.history)
    (hStop : .stopped ∈ t.history) : .stop ∈ newActions s t := by
  obtain ⟨xs, hHistory⟩ := history_step hStep
  rw [hHistory, List.mem_append] at hStop
  rw [newActions, hHistory, List.drop_left, List.mem_filterMap]
  exact ⟨.stopped, hStop.resolve_left hRunning, rfl⟩

theorem newActions_running (s : Session) (hRunning : .stopped ∉ t.history) : ∀ x ∈ newActions s t,
    x.isStop = false := by
  intro x hx
  obtain ⟨y, hMem, hAction⟩ := List.mem_filterMap.mp hx
  have hy : y ≠ .stopped := by
    rintro rfl
    exact hRunning (List.mem_of_mem_drop hMem)
  cases y with
  | stopped => exact absurd rfl hy
  | started id op => cases op <;> cases hAction <;> rfl
  | invokedHandler req => cases hAction; rfl
  | _ => cases hAction

/-- As long as the two are in lockstep they act alike, up to the first stop. -/
theorem Lockstep.actions {events events' : List Event} (hSame : SameEvents queued events events')
    (h : Lockstep queued s s') : s'.actions events' = s.actions events := by
  induction hSame generalizing s s' with
  | nil queued => rfl
  | aborted _ ih =>
    obtain ⟨t', hStep', hNone, hNext⟩ := h.aborted
    rw [Session.actions, PartialRun.outputs_cons_of_step hStep', hNone, List.nil_append]
    exact ih hNext
  | cons e _ ih =>
    rcases h.step e with ⟨hNone, hNone'⟩ | ⟨t, t', hStep, hStep', hRecorded, hEither⟩
    · rw [Session.actions, Session.actions, PartialRun.outputs_cons_of_none hNone,
        PartialRun.outputs_cons_of_none hNone']
    · rw [Session.actions, Session.actions, PartialRun.outputs_cons_of_step hStep,
        PartialRun.outputs_cons_of_step hStep',
        h.toRecorded.newActions hRecorded]
      by_cases hStop : .stopped ∈ t.history
      · have hMem := stop_mem_newActions hStep h.running hStop
        rw [PartialRun.upTo_append_of_mem hMem rfl, PartialRun.upTo_append_of_mem hMem rfl]
      · have hRunning := newActions_running s hStop
        rw [PartialRun.upTo_append_of_none hRunning, PartialRun.upTo_append_of_none hRunning]
        congr 1
        exact ih (h.next hStep hStep' (hEither.resolve_left hStop) hStop)

end

/-! ### The handshake -/

def handshakeWait : Wait := ⟨.doHandshake, 0⟩

structure Handshaking (new s : Session) : Prop where
  state : s = { new with mConTimer := s.mConTimer }
  timer : s.mConTimer = ⟨[handshakeWait], []⟩ ∨ s.mConTimer = ⟨[], [(handshakeWait, .expired)]⟩

def Past (s : Session) : Prop := ((∀ x ∈ s.outstanding, x.1 ≠ 0) ∧ s.nextId ≠ 0) ∨ .stopped ∈ s.history

theorem Began.past {s t : Session} {e : Event} {phase : Phase} {op : Operation} {before after : List Effect}
    (h : s.Began e phase op before after t) (hs : s.Past) : t.Past := by
  rcases hs with ⟨hNumbers, hNext⟩ | hStop
  · left
    refine ⟨?_, by rw [h.nextId]; exact Nat.succ_ne_zero _⟩
    intro x hx
    rw [h.outstanding, List.mem_append, List.mem_singleton] at hx
    rcases hx with hx | rfl
    · exact hNumbers x ((s.rest_sublist e).subset hx)
    · exact hNext
  · right
    rw [h.history]
    exact List.mem_append_left _ hStop

theorem past_step : PartialRun.Preserves step Past := by
  intro s e t hs hStep
  cases step_took hStep with
  | reads _ hBegan _ => exact hBegan.past hs
  | handles _ hBegan _ => exact hBegan.past hs
  | refuses _ hBegan => exact hBegan.past hs
  | replies _ _ hBegan => exact hBegan.past hs
  | rests _ hRested =>
    rcases hs with ⟨hNumbers, hNext⟩ | hStop
    · left
      rw [hRested.outstanding, hRested.nextId]
      exact ⟨fun x hx => hNumbers x ((s.rest_sublist e).subset hx), hNext⟩
    · right
      rw [hRested.history]
      exact List.mem_append_left _ hStop

section

variable {mRequest : Request} {major minor : Int} {mReply : Reply} {s t : Session}

theorem Handshaking.step {e : Event} (hs : Handshaking (serverSession .https mRequest major minor mReply) s)
    (hStep : s.step e = some t) : Handshaking (serverSession .https mRequest major minor mReply) t ∨ t.Past := by
  obtain ⟨hState, hTimer⟩ := hs
  cases e with
  | serverStop =>
    simp only [Session.step] at hStep
    split at hStep
    · obtain rfl := Option.some.inj hStep
      exact .inr (.inr s.stopped_managerStop)
    · cases hStep
  | expire =>
    obtain rfl := Option.some.inj hStep
    refine .inl ⟨?_, .inr ?_⟩
    · conv_lhs => rw [hState]
    · rcases hTimer with hTimer | hTimer <;>
        · simp only [hTimer]
          rfl
  | runWait i =>
    obtain ⟨⟨⟨w, c⟩, timer⟩, hTake, rfl⟩ := Option.map_eq_some_iff.mp hStep
    have hMem := Timer.mem_of_take hTake
    obtain rfl : c = .expired := by
      rcases hTimer with hTimer | hTimer <;> rw [hTimer] at hMem
      · cases hMem
      · exact congrArg Prod.snd (List.mem_singleton.mp hMem)
    exact .inr (.inr (stopped_managerStop _))
  | complete id result =>
    obtain ⟨op, hOp, hHandler⟩ := Option.bind_eq_some_iff.mp hStep
    have hOutstanding : s.outstanding = [(0, .handshake)] := by rw [hState]; rfl
    rw [hOutstanding, List.lookup_cons, List.lookup_nil] at hOp
    split at hOp
    · obtain rfl := Option.some.inj hOp
      obtain rfl := Option.some.inj hHandler
      rename_i hId
      obtain rfl := eq_of_beq hId
      cases result with
      | ok data =>
        refine .inr (.inl ?_)
        rw [Session.onHandshake, Session.doRead, withTimeout_eq rfl, hState]
        simp [begin, emit, Session.finish, Session.cancelTimer, serverSession, doHandshake, withTimeout,
          Timer.expiresFromNow]
      | error ec => exact .inr (.inr (stopped_managerStop _))
    · cases hOp
  | reply r =>
    have hHandled : s.handled = false := by rw [hState]; rfl
    simp [Session.step, hHandled] at hStep

theorem Handshaking.lockstep {data : Bytes} (hs : Handshaking (serverSession .https mRequest major minor mReply) s)
    (hStep : s.step (.complete 0 (.ok data)) = some t) :
    Lockstep t.mConTimer.queued (serverSession .http mRequest major minor mReply) t := by
  obtain ⟨hState, hTimer⟩ := hs
  have hOp : s.outstanding.lookup 0 = some .handshake := by rw [hState]; rfl
  obtain rfl := Option.some.inj ((step_handshake hOp).symm.trans hStep)
  rw [onHandshake, Session.doRead, withTimeout_eq rfl, hState]
  exact {
    history := rfl
    mReplyStr := rfl
    http := rfl
    https := rfl
    mRequestParser := rfl
    managed := rfl
    outstanding := rfl
    nextId := rfl
    waiting := rfl
    queued := (List.append_nil _).symm
    reading := (reading_serverSession .http mRequest major minor mReply).1
    refused := fun hMark => by cases hMark
    unmarked := rfl
    running := by simp [serverSession, Session.doRead, withTimeout, Timer.expiresFromNow, begin, Session.emit] }

end

end Session

open Session

/-- After any run of `https` to the end of its handshake, as long as it has not stopped: what follows is seen
as from an `http` session, up to the first stop. -/
theorem sessions_agree (mRequest : Request) (major minor : Int) (mReply : Reply) {before : List Event} {data : Bytes}
    {t : Session} (hHandshake : (serverSession .https mRequest major minor mReply).run
    (before ++ [.complete 0 (.ok data)]) = some t)
    (hRunning : .stopped ∉ t.history) {events events' : List Event}
    (hSame : SameEvents t.mConTimer.queued events events') :
    t.actions events' = (serverSession .http mRequest major minor mReply).actions events := by
  obtain ⟨s, hBefore, hLast⟩ := PartialRun.run_append_eq_some.mp hHandshake
  rw [PartialRun.run_singleton] at hLast
  have hStep : PartialRun.Preserves step fun s =>
      Handshaking (serverSession .https mRequest major minor mReply) s ∨ s.Past := by
    intro u e v hu hStep
    rcases hu with hu | hu
    · exact hu.step hStep
    · exact .inr (past_step u e v hu hStep)
  rcases hStep.run (.inl ⟨rfl, .inl rfl⟩) hBefore with hs | ⟨hNumbers, -⟩ | hStop
  · exact (hs.lockstep hLast).actions hSame
  · obtain ⟨op, hOp, -⟩ := Option.bind_eq_some_iff.mp hLast
    obtain ⟨a, b, hSplit, -⟩ := List.lookup_eq_some_iff.mp hOp
    exact absurd rfl (hNumbers (0, op) (by rw [hSplit]; simp))
  · obtain ⟨xs, hHistory⟩ := history_step hLast
    rw [hHistory] at hRunning
    exact absurd (List.mem_append_left _ hStop) hRunning

/-- A request, two replies, and the wait of the handshake between them. -/
theorem sessions_agree_on_getRequest :
    (((bareSession .https).finish 0).onHandshake (.ok [])).actions
        [.complete 1 (.ok getRequest), .reply ⟨200, [], []⟩, .runWait 0, .reply ⟨404, [], []⟩] =
      (bareSession .http).actions [.complete 0 (.ok getRequest), .reply ⟨200, [], []⟩, .reply ⟨404, [], []⟩] := by
  have hSame : SameEvents (((bareSession .https).finish 0).onHandshake (.ok [])).mConTimer.queued
      [.complete 0 (.ok getRequest), .reply ⟨200, [], []⟩, .reply ⟨404, [], []⟩]
      [.complete 1 (.ok getRequest), .reply ⟨200, [], []⟩, .runWait 0, .reply ⟨404, [], []⟩] := by
    refine .cons (.complete 0 _) (.cons (.reply _) ?_)
    exact .aborted (w := handshakeWait) (.cons (.reply _) (.nil _))
  have hShaken : (bareSession .https).run ([] ++ [.complete 0 (.ok [])]) =
      some (((bareSession .https).finish 0).onHandshake (.ok [])) := rfl
  exact sessions_agree ⟨[], [], 0, 0, [], []⟩ 0 0 ⟨0, [], []⟩ hShaken (by decide +kernel) hSame

end HttpUtils
