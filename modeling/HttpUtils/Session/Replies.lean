import HttpUtils.Session.Steps

/-!
# Replies and writes

Every reply that `on_reply` accepts starts a write of its own. `m_stopped` does not count them.
-/

namespace HttpUtils
set_option autoImplicit false

def Effect.isWrite : Effect → Bool
  | .started _ .write => true
  | _ => false

theorem Effect.isWrite_of_starts {x : Effect} (h : x.starts = false) : x.isWrite = false := by
  cases x <;> first | rfl | cases h

/-- Between the start of a write and its end the string is not assigned. -/
def StableReplyStr (h : List Effect) : Prop :=
  ∀ a b c id, h = a ++ .started id .write :: (b ++ .assignedReplyStr :: c) → .finished id ∈ b

/-- The string is only assigned for the write that starts next. -/
def AssignedForWrite (h : List Effect) : Prop :=
  ∀ a c, h = a ++ .assignedReplyStr :: c → ∃ id c', c = .started id .write :: c'

theorem AssignedForWrite.append {h xs : List Effect} (hh : AssignedForWrite h) (hxs : AssignedForWrite xs) :
    AssignedForWrite (h ++ xs) := by
  intro a c hSplit
  rcases List.append_eq_append_iff.mp hSplit with ⟨d, -, hTail⟩ | ⟨d, hFront, hTail⟩
  · exact hxs d c hTail
  · cases d with
    | nil => exact hxs [] c hTail.symm
    | cons x d =>
      obtain ⟨rfl, rfl⟩ := List.cons_eq_cons.mp hTail
      obtain ⟨id, c', rfl⟩ := hh a d hFront
      exact ⟨id, c' ++ xs, rfl⟩

theorem assignedForWrite_nil : AssignedForWrite [] := by
  intro a c hSplit
  simp at hSplit

theorem assignedForWrite_cons {x : Effect} {xs : List Effect} :
    AssignedForWrite (x :: xs) ↔ (x = .assignedReplyStr → ∃ id c, xs = .started id .write :: c) ∧
      AssignedForWrite xs := by
  constructor
  · intro h
    refine ⟨?_, fun a c hSplit => h (x :: a) c (by rw [hSplit]; rfl)⟩
    rintro rfl
    exact h [] xs rfl
  · rintro ⟨hHere, hRest⟩ a c hSplit
    cases a with
    | nil =>
      obtain ⟨rfl, rfl⟩ := List.cons_eq_cons.mp hSplit
      exact hHere rfl
    | cons y a => exact hRest a c (List.cons_eq_cons.mp hSplit).2

theorem assignedForWrite_of_starts {xs : List Effect} (h : ∀ x ∈ xs, x.starts = false) : AssignedForWrite xs := by
  rintro a c rfl
  have hStart := h .assignedReplyStr (by simp)
  cases hStart

theorem AssignedForWrite.stable {h : List Effect} (hh : AssignedForWrite h) (hOne : h.countP Effect.isWrite ≤ 1) :
    StableReplyStr h := by
  intro a b c id hSplit
  obtain ⟨id', c', rfl⟩ := hh (a ++ .started id .write :: b) c (by rw [hSplit]; simp)
  rw [hSplit] at hOne
  simp [List.countP_append, List.countP_cons, Effect.isWrite] at hOne
  omega

namespace Session

def writes (s : Session) : ℕ := s.history.countP Effect.isWrite

/-- At most one `async_write`, and its string stays. -/
def OneReply (s : Session) : Prop := s.writes ≤ 1 ∧ StableReplyStr s.history

/-- A reply is accepted after a write was started. -/
def RepliesAgain (s : Session) (e : Event) : Prop := ∃ r, e = .reply r ∧ s.mStopped = false ∧ s.writes ≠ 0

def isInput (x : ℕ × Operation) : Bool := x.2 == .handshake || x.2 == .readSome

structure Reading (s : Session) : Prop where
  single : s.outstanding.countP isInput ≤ 1
  first : s.outstanding.countP isInput ≠ 0 → s.handled = false ∧ s.writes = 0
  assigned : AssignedForWrite s.history

theorem Inputs.mem {s : Session} {id : ℕ} (h : s.Inputs id) : ∃ op, (id, op) ∈ s.outstanding ∧
    isInput (id, op) = true := by
  rcases h with h | h <;>
    · obtain ⟨a, b, hSplit, -⟩ := List.lookup_eq_some_iff.mp h
      rw [hSplit]
      exact ⟨_, List.mem_append_right _ List.mem_cons_self, rfl⟩

theorem Inputs.countP_ne_zero {s : Session} {id : ℕ} (h : s.Inputs id) : s.outstanding.countP isInput ≠ 0 := by
  obtain ⟨op, hMem, hIs⟩ := h.mem
  intro hNone
  have hNot := List.countP_eq_zero.mp hNone _ hMem
  exact hNot hIs

theorem Reading.first_of_inputs {s : Session} (h : s.Reading) {id : ℕ} (hInput : s.Inputs id) :
    s.handled = false ∧ s.writes = 0 := h.first hInput.countP_ne_zero

/-- The input that completes was the only one. -/
theorem Reading.none_left {s : Session} (h : s.Reading) {id : ℕ} (hInput : s.Inputs id) (result : IoResult) :
    (s.rest (.complete id result)).countP isInput = 0 := by
  obtain ⟨op, hMem, hIs⟩ := hInput.mem
  have hOne := h.single
  obtain ⟨a, b, hSplit⟩ := List.append_of_mem hMem
  have hRest : s.rest (.complete id result) = a.filter (fun x => x.1 ≠ id) ++ b.filter fun x => x.1 ≠ id := by
    simp only [rest, hSplit, List.filter_append]
    simp
  rw [hSplit, List.countP_append, List.countP_cons_of_pos hIs] at hOne
  rw [hRest, List.countP_append]
  have hA : (a.filter fun x => x.1 ≠ id).countP isInput ≤ a.countP isInput := List.filter_sublist.countP_le
  have hB : (b.filter fun x => x.1 ≠ id).countP isInput ≤ b.countP isInput := List.filter_sublist.countP_le
  omega

theorem writes_append {s t : Session} {xs : List Effect} (h : t.history = s.history ++ xs) :
    t.writes = s.writes + xs.countP Effect.isWrite := by
  rw [writes, writes, h, List.countP_append]

theorem handled_append {s t : Session} {xs : List Effect} (h : t.history = s.history ++ xs) :
    t.handled = (s.handled || xs.any Effect.isHandled) := by
  rw [handled, handled, h, List.any_append]

theorem quiet_effects {xs : List Effect} (h : ∀ x ∈ xs, x.starts = false) :
    xs.countP Effect.isWrite = 0 ∧ xs.any Effect.isHandled = false := by
  constructor
  · rw [List.countP_eq_zero]
    intro x hx
    simp [Effect.isWrite_of_starts (h x hx)]
  · rw [List.any_eq_false]
    intro x hx
    have hStarts := h x hx
    cases x <;> simp [Effect.starts, Effect.isHandled] at hStarts ⊢

theorem Began.no_input {s t : Session} {e : Event} {phase : Phase} {op : Operation} {before after : List Effect}
    (h : s.Began e phase op before after t) (hRest : (s.rest e).countP isInput = 0)
    (hOp : isInput (s.nextId, op) = false) :
    t.outstanding.countP isInput = 0 := by
  rw [h.outstanding, List.countP_append, hRest]
  simp [hOp]

theorem reading_of_no_input {t : Session} (h : t.outstanding.countP isInput = 0)
    (hAssigned : AssignedForWrite t.history) :
    t.Reading := ⟨by omega, fun hSome => absurd h hSome, hAssigned⟩

theorem reading_step : PartialRun.Preserves step Reading := by
  intro s e t hs hStep
  cases step_took hStep with
  | @reads id data _ hInput hBegan _ =>
    obtain ⟨hHandled, hWrites⟩ := hs.first_of_inputs hInput
    have hNone := hs.none_left hInput (.ok data)
    refine ⟨?_, fun _ => ⟨?_, ?_⟩, ?_⟩
    · rw [hBegan.outstanding, List.countP_append, hNone]
      simp [isInput]
    · rw [handled_append hBegan.history, hHandled]
      rfl
    · rw [writes_append hBegan.history, hWrites]
      rfl
    · rw [hBegan.history]
      exact hs.assigned.append (by simp [assignedForWrite_cons, assignedForWrite_nil])
  | @handles id data _ hInput hBegan _ =>
    refine reading_of_no_input (hBegan.no_input (hs.none_left hInput _) rfl) ?_
    rw [hBegan.history]
    exact hs.assigned.append (by simp [assignedForWrite_cons, assignedForWrite_nil])
  | @refuses id data _ hInput hBegan =>
    refine reading_of_no_input (hBegan.no_input (hs.none_left hInput _) rfl) ?_
    rw [hBegan.history]
    exact hs.assigned.append (by simp [assignedForWrite_cons, assignedForWrite_nil])
  | @replies r _ hOpen hHandled hBegan =>
    refine reading_of_no_input (hBegan.no_input ?_ rfl) ?_
    · by_contra hSome
      have hMore := (s.rest_sublist (.reply r)).countP_le (p := isInput)
      have hFirst := (hs.first (by omega)).1
      rw [hHandled] at hFirst
      cases hFirst
    · rw [hBegan.history]
      exact hs.assigned.append (by simp [assignedForWrite_cons, assignedForWrite_nil])
  | rests hRests hRested =>
    obtain ⟨hWrite, hHandle⟩ := quiet_effects hRested.quiet
    have hLe := (s.rest_sublist e).countP_le (p := isInput)
    rw [← hRested.outstanding] at hLe
    have hSingle := hs.single
    refine ⟨by omega, fun hSome => ?_, ?_⟩
    · rw [writes_append hRested.history, handled_append hRested.history, hWrite, hHandle]
      have hFirst := hs.first (by omega)
      simp [hFirst.1, hFirst.2]
    · rw [hRested.history]
      exact hs.assigned.append (assignedForWrite_of_starts hRested.quiet)

theorem oneReply_iff {s : Session} (h : s.Reading) : s.OneReply ↔ s.writes ≤ 1 :=
  and_iff_left_of_imp h.assigned.stable

theorem oneReply_step {s t : Session} {e : Event} (hs : s.Reading) (hOne : s.OneReply) (hStep : s.step e = some t) :
    t.OneReply ↔ ¬ s.RepliesAgain e := by
  rw [oneReply_iff (reading_step s e t hs hStep)]
  have hLe := hOne.1
  have hComplete (id : ℕ) (result : IoResult) : ¬ s.RepliesAgain (.complete id result) := by
    rintro ⟨r, hEvent, -⟩
    cases hEvent
  cases step_took hStep with
  | @reads id data _ hInput hBegan _ =>
    refine iff_of_true ?_ (hComplete _ _)
    rw [writes_append hBegan.history]
    simpa [Effect.isWrite] using hLe
  | @handles id data _ hInput hBegan _ =>
    refine iff_of_true ?_ (hComplete _ _)
    rw [writes_append hBegan.history]
    simpa [List.countP_cons, Effect.isWrite] using hLe
  | @refuses id data _ hInput hBegan =>
    refine iff_of_true ?_ (hComplete _ _)
    rw [writes_append hBegan.history, (hs.first_of_inputs hInput).2]
    simp [List.countP_cons, Effect.isWrite]
  | @replies r _ hOpen hHandled hBegan =>
    have hWrites : t.writes = s.writes + 1 := by
      rw [writes_append hBegan.history]
      simp [List.countP_cons, Effect.isWrite]
    rw [hWrites]
    constructor
    · rintro hFirst ⟨r', -, -, hSome⟩
      omega
    · intro hNever
      by_contra hMore
      exact hNever ⟨r, rfl, hOpen, by omega⟩
  | rests hRests hRested =>
    refine iff_of_true ?_ ?_
    · rw [writes_append hRested.history, (quiet_effects hRested.quiet).1]
      exact hLe
    · rintro ⟨r, rfl, hOpen, -⟩
      exact hRests hOpen

end Session

open Session

/-- A session writes once, from a string that stays, exactly while no reply is accepted after a write was
started. -/
theorem one_reply_iff (kind : ServerKind) (mRequest : Request) (major minor : Int) (mReply : Reply)
    (events : List Event) :
    PartialRun.Always step OneReply (serverSession kind mRequest major minor mReply) events ↔
      PartialRun.Along step (fun s e => ∀ t, s.step e = some t → ¬ s.RepliesAgain e)
        (serverSession kind mRequest major minor mReply) events := by
  obtain ⟨phase, op, -, hInput, hStart⟩ := serverSession_eq kind mRequest major minor mReply
  rw [hStart]
  have hReading : Reading
      { kind, mRequest, mReply
        mRequestParser := httpRequestParser major minor
        mConTimer := ⟨[⟨phase, 0⟩], []⟩
        rearmed := [0]
        outstanding := [(0, op)]
        nextId := 1
        history := [.started 0 op] } := by
    rcases hInput with rfl | rfl <;>
      exact ⟨by simp [isInput], fun _ => ⟨rfl, rfl⟩, by simp [assignedForWrite_cons, assignedForWrite_nil]⟩
  refine PartialRun.always_iff_along reading_step (fun s e t hs hOne hStep => oneReply_step hs hOne hStep)
    hReading ?_ events
  rw [oneReply_iff hReading]
  rcases hInput with rfl | rfl <;> simp [writes, Effect.isWrite]

/-- A second reply starts a second write, over the string of the first. -/
theorem secondReply_writes :
    ¬ PartialRun.Always step OneReply (bareSession .https)
        [.complete 0 (.ok []), .complete 1 (.ok getRequest), .reply ⟨200, [], []⟩, .reply ⟨404, [], []⟩] ∧
      ((bareSession .https).run
          [.complete 0 (.ok []), .complete 1 (.ok getRequest), .reply ⟨200, [], []⟩, .reply ⟨404, [], []⟩]).map
            (·.history) =
        some
          [.started 0 .handshake, .finished 0, .started 1 .readSome, .finished 1, .started 2 .handle,
            .invokedHandler ⟨[], ascii "/", 1, 1, [], []⟩, .assignedReplyStr, .started 3 .write, .assignedReplyStr,
            .started 4 .write] := by
  refine ⟨?_, by decide +kernel⟩
  intro h
  have hRun : ((bareSession .https).run
      [.complete 0 (.ok []), .complete 1 (.ok getRequest), .reply ⟨200, [], []⟩, .reply ⟨404, [], []⟩]).map writes =
        some 2 := by decide +kernel
  obtain ⟨t, ht, hWrites⟩ := Option.map_eq_some_iff.mp hRun
  have hOne := (h _ [] t (List.append_nil _).symm ht).1
  omega

end HttpUtils
