import HttpUtils.Session.Steps

/-!
# After `stop()`

`stop()` leaves no mark that the handlers look at: `m_stopped` is set by a timeout and, in `http`, by a bad
request, and only `on_reply` reads it.
-/

namespace HttpUtils
set_option autoImplicit false

def Effect.isActivity : Effect → Bool
  | .started _ .readSome | .started _ .write | .invokedHandler _ => true
  | _ => false

theorem Effect.isActivity_of_starts {x : Effect} (h : x.starts = false) : x.isActivity = false := by
  cases x <;> first | rfl | cases h

namespace Session

def QuietAfterStop (s : Session) : Prop := ∀ a b, s.history = a ++ .stopped :: b → ∀ x ∈ b, x.isActivity = false

def Revives (s : Session) (e : Event) : Prop := .stopped ∈ s.history ∧ s.Progress e

theorem quietAfterStop_append {s t : Session} {xs : List Effect} (h : t.history = s.history ++ xs)
    (hStop : .stopped ∉ xs) (hActive : ∃ x ∈ xs, x.isActivity = true) :
    t.QuietAfterStop ↔ .stopped ∉ s.history := by
  constructor
  · intro ht hMem
    obtain ⟨a, b, hSplit⟩ := List.append_of_mem hMem
    obtain ⟨x, hx, hActivity⟩ := hActive
    have hQuiet := ht a (b ++ xs) (by rw [h, hSplit, List.append_assoc, List.cons_append]) x
        (List.mem_append_right _ hx)
    rw [hQuiet] at hActivity
    cases hActivity
  · intro hNever a b hSplit
    have hMem : Effect.stopped ∈ s.history ++ xs := by
      rw [← h, hSplit]
      simp
    exact absurd (List.mem_append.mp hMem) (by simp [hNever, hStop])

theorem quietAfterStop_quiet {s t : Session} {xs : List Effect} (h : t.history = s.history ++ xs)
    (hs : s.QuietAfterStop) (hQuiet : ∀ x ∈ xs, x.starts = false) : t.QuietAfterStop := by
  intro a b hSplit x hx
  rw [h] at hSplit
  rcases List.append_eq_append_iff.mp hSplit with ⟨c, -, hTail⟩ | ⟨c, hHistory, hTail⟩
  · apply Effect.isActivity_of_starts
    apply hQuiet
    rw [hTail]
    exact List.mem_append_right _ (List.mem_cons_of_mem _ hx)
  · cases c with
    | nil =>
      apply Effect.isActivity_of_starts
      apply hQuiet
      rw [← List.nil_append xs, ← hTail]
      exact List.mem_cons_of_mem _ hx
    | cons d c =>
      obtain ⟨rfl, rfl⟩ := List.cons_eq_cons.mp hTail
      rcases List.mem_append.mp hx with hx | hx
      · exact hs a c hHistory x hx
      · exact Effect.isActivity_of_starts (hQuiet x hx)

theorem quietAfterStop_step {s t : Session} {e : Event} (hs : s.QuietAfterStop) (hStep : s.step e = some t) :
    t.QuietAfterStop ↔ ¬ s.Revives e := by
  have hGoes (hProgress : s.Progress e) : ¬ s.Revives e ↔ .stopped ∉ s.history := by
    rw [Revives, and_iff_left hProgress]
  cases step_took hStep with
  | reads hInput hBegan _ =>
    rw [hGoes hInput]
    exact quietAfterStop_append hBegan.history (by simp) (by simp [Effect.isActivity])
  | handles hInput hBegan _ =>
    rw [hGoes hInput]
    exact quietAfterStop_append hBegan.history (by simp) (by simp [Effect.isActivity])
  | refuses hInput hBegan =>
    rw [hGoes hInput]
    exact quietAfterStop_append hBegan.history (by simp) (by simp [Effect.isActivity])
  | replies hOpen _ hBegan =>
    rw [hGoes hOpen]
    exact quietAfterStop_append hBegan.history (by simp) (by simp [Effect.isActivity])
  | rests hRests hRested =>
    refine iff_of_true (quietAfterStop_quiet hRested.history hs hRested.quiet) ?_
    rintro ⟨-, hProgress⟩
    exact hRests hProgress

end Session

open Session

/-- A stopped session stays stopped exactly while no read or handshake succeeds and no reply is accepted
behind the stop. -/
theorem quiet_after_stop_iff (kind : ServerKind) (mRequest : Request) (major minor : Int) (mReply : Reply)
    (events : List Event) :
    PartialRun.Always step QuietAfterStop (serverSession kind mRequest major minor mReply) events ↔
      PartialRun.Along step (fun s e => ∀ t, s.step e = some t → ¬ s.Revives e)
        (serverSession kind mRequest major minor mReply) events := by
  have hTrivial : PartialRun.Preserves step fun _ => True := fun _ _ _ _ _ => trivial
  refine PartialRun.always_iff_along hTrivial (fun s e t _ hs hStep => quietAfterStop_step hs hStep) trivial ?_ events
  obtain ⟨phase, op, -, -, hStart⟩ := serverSession_eq kind mRequest major minor mReply
  rw [hStart]
  intro a b hSplit
  have hMem : Effect.stopped ∈ [Effect.started 0 op] := by
    rw [show [Effect.started 0 op] = _ from hSplit]
    simp
  simp at hMem

/-- A read that had succeeded before the server stopped hands its request over, and the reply is written. -/
theorem queuedRead_revives :
    ¬ PartialRun.Always step QuietAfterStop (bareSession .http) [.serverStop, .complete 0 (.ok getRequest)] ∧
      ((bareSession .http).run [.serverStop, .complete 0 (.ok getRequest), .reply ⟨200, [], []⟩]).map (·.history) =
        some
          [.started 0 .readSome, .stopped, .finished 0, .started 1 .handle,
            .invokedHandler ⟨[], ascii "/", 1, 1, [], []⟩, .assignedReplyStr, .started 2 .write] := by
  refine ⟨?_, by decide +kernel⟩
  intro h
  have hRun : ((bareSession .http).run [.serverStop, .complete 0 (.ok getRequest)]).map (·.history) =
      some ([.started 0 .readSome] ++ .stopped :: [.finished 0, .started 1 .handle,
        .invokedHandler ⟨[], ascii "/", 1, 1, [], []⟩]) := by decide +kernel
  obtain ⟨t, ht, hHistory⟩ := Option.map_eq_some_iff.mp hRun
  have hQuiet := h _ [] t (List.append_nil _).symm ht _ _ hHistory
      (.invokedHandler ⟨[], ascii "/", 1, 1, [], []⟩) (by simp)
  cases hQuiet

end HttpUtils
