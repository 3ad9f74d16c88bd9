import HttpUtils.Library.PartialRun
import Mathlib.Data.Finset.Basic

/-!
# `http_session_manager` and its threads

The set of sessions is only touched under the lock. The calls of `c->start()` and `c->stop()` come behind it,
and other threads may run in between.
-/

namespace HttpUtils
set_option autoImplicit false

universe u

variable {T : Type u}

/-- What the manager calls outside of its lock. -/
inductive LifeCall (T : Type u) where
  | start (c : T)
  | stop (c : T)
  deriving DecidableEq, Repr

structure HttpSessionManager (T : Type u) where
  mSessions : Finset T := ∅
  /-- What each thread has still to call before it returns. -/
  threads : List (List (LifeCall T))
  /-- All calls so far. -/
  called : List (LifeCall T) := []
  deriving DecidableEq

namespace HttpSessionManager

/-- Thread `k` calls the manager and runs its locked section, or makes the next call behind it. The set is in the
order of its pointers, which may be any. -/
inductive Event (T : Type u) where
  | start (k : ℕ) (c : T)
  | stop (k : ℕ) (c : T)
  | stopAll (k : ℕ) (conCopys : List T)
  | act (k : ℕ)
  deriving DecidableEq, Repr

section

variable [DecidableEq T]

def locked (s : HttpSessionManager T) (k : ℕ) (mSessions : Finset T) (calls : List (LifeCall T)) :
    Option (HttpSessionManager T) :=
  if s.threads[k]? = some [] then some { s with mSessions, threads := s.threads.set k calls } else none

def step (s : HttpSessionManager T) : Event T → Option (HttpSessionManager T)
  | .start k c => s.locked k (insert c s.mSessions) [.start c]
  | .stop k c => s.locked k (s.mSessions.erase c) [.stop c]
  | .stopAll k conCopys =>
    if conCopys.Nodup ∧ conCopys.toFinset = s.mSessions then s.locked k ∅ (conCopys.map .stop) else none
  | .act k =>
    match s.threads[k]? with
    | some (x :: calls) => some { s with threads := s.threads.set k calls, called := s.called ++ [x] }
    | _ => none

/-! ### What a step does -/

structure Locks (s : HttpSessionManager T) (k : ℕ) (calls : List (LifeCall T)) (t : HttpSessionManager T) : Prop where
  idle : s.threads[k]? = some []
  threads : t.threads = s.threads.set k calls
  called : t.called = s.called
  starts : ∀ c, .start c ∈ calls → calls = [.start c] ∧ c ∈ t.mSessions
  removes : ∀ c ∈ s.mSessions, c ∉ t.mSessions → .stop c ∈ calls

structure Acts (s : HttpSessionManager T) (k : ℕ) (x : LifeCall T) (calls : List (LifeCall T))
    (t : HttpSessionManager T) :
    Prop where
  waiting : s.threads[k]? = some (x :: calls)
  threads : t.threads = s.threads.set k calls
  called : t.called = s.called ++ [x]
  mSessions : t.mSessions = s.mSessions

inductive Took (s : HttpSessionManager T) : Event T → HttpSessionManager T → Prop where
  | locks {e : Event T} {k : ℕ} {calls : List (LifeCall T)} {t : HttpSessionManager T} (hCall : ∀ k, e ≠ .act k)
      (hLocks : s.Locks k calls t) : s.Took e t
  | acts {k : ℕ} {x : LifeCall T} {calls : List (LifeCall T)} {t : HttpSessionManager T}
    (hActs : s.Acts k x calls t) :
      s.Took (.act k) t

theorem locked_eq_some {s t : HttpSessionManager T} {k : ℕ} {mSessions : Finset T} {calls : List (LifeCall T)} :
    s.locked k mSessions calls = some t ↔
      s.threads[k]? = some [] ∧ t = { s with mSessions, threads := s.threads.set k calls } := by
  unfold locked
  split
  · rename_i hIdle
    rw [Option.some_inj, and_iff_right hIdle, eq_comm]
  · rename_i hBusy
    simp [hBusy]

theorem step_took {s t : HttpSessionManager T} {e : Event T} (hStep : s.step e = some t) : s.Took e t := by
  cases e with
  | start k c =>
    obtain ⟨hIdle, rfl⟩ := locked_eq_some.mp hStep
    refine .locks (by simp) ⟨hIdle, rfl, rfl, ?_, ?_⟩
    · intro d hd
      obtain rfl := LifeCall.start.inj (List.mem_singleton.mp hd)
      exact ⟨rfl, Finset.mem_insert_self d s.mSessions⟩
    · intro d hd hGone
      exact absurd (Finset.mem_insert_of_mem hd) hGone
  | stop k c =>
    obtain ⟨hIdle, rfl⟩ := locked_eq_some.mp hStep
    refine .locks (by simp) ⟨hIdle, rfl, rfl, by simp, ?_⟩
    intro d hd hGone
    by_contra hOther
    have hNe : d ≠ c := fun hEq => hOther (by rw [hEq]; exact List.mem_singleton_self _)
    exact hGone (Finset.mem_erase.mpr ⟨hNe, hd⟩)
  | stopAll k conCopys =>
    simp only [step] at hStep
    split at hStep
    · rename_i hCopied
      obtain ⟨hIdle, rfl⟩ := locked_eq_some.mp hStep
      refine .locks (by simp) ⟨hIdle, rfl, rfl, by simp, ?_⟩
      intro d hd _
      rw [← hCopied.2, List.mem_toFinset] at hd
      exact List.mem_map_of_mem hd
    · cases hStep
  | act k =>
    simp only [step] at hStep
    split at hStep
    · rename_i x calls hWaiting
      obtain rfl := Option.some.inj hStep
      exact .acts ⟨hWaiting, rfl, rfl, rfl⟩
    · cases hStep

end

/-! ### What is still to be called, and what runs -/

/-- Some thread has still to make the call. -/
def ToCall (s : HttpSessionManager T) (x : LifeCall T) : Prop := ∃ calls ∈ s.threads, x ∈ calls

def ToCallBeside (s : HttpSessionManager T) (k : ℕ) (x : LifeCall T) : Prop :=
  ∃ i calls, i ≠ k ∧ s.threads[i]? = some calls ∧ x ∈ calls

theorem toCall_iff {s : HttpSessionManager T} {k : ℕ} {calls : List (LifeCall T)} (h : s.threads[k]? = some calls)
    {x : LifeCall T} : s.ToCall x ↔ x ∈ calls ∨ s.ToCallBeside k x := by
  constructor
  · rintro ⟨p, hp, hx⟩
    obtain ⟨i, hi⟩ := List.mem_iff_getElem?.mp hp
    by_cases hNe : i = k
    · rw [hNe, h] at hi
      obtain rfl := Option.some.inj hi
      exact .inl hx
    · exact .inr ⟨i, p, hNe, hi, hx⟩
  · rintro (hx | ⟨i, p, -, hi, hx⟩)
    · exact ⟨calls, List.mem_of_getElem? h, hx⟩
    · exact ⟨p, List.mem_of_getElem? hi, hx⟩

theorem getElem?_set_calls {s : HttpSessionManager T} {k : ℕ} {old calls : List (LifeCall T)}
    (h : s.threads[k]? = some old) : (s.threads.set k calls)[k]? = some calls := by
  obtain ⟨hLt, -⟩ := List.getElem?_eq_some_iff.mp h
  rw [List.getElem?_set_self hLt]

theorem toCallBeside_set {s t : HttpSessionManager T} {k : ℕ} {calls : List (LifeCall T)}
    (h : t.threads = s.threads.set k calls) {x : LifeCall T} : t.ToCallBeside k x ↔ s.ToCallBeside k x := by
  have hSame {i : ℕ} (hNe : i ≠ k) : t.threads[i]? = s.threads[i]? := by
    rw [h, List.getElem?_set_ne hNe.symm]
  constructor
  · rintro ⟨i, p, hNe, hi, hx⟩
    exact ⟨i, p, hNe, hSame hNe ▸ hi, hx⟩
  · rintro ⟨i, p, hNe, hi, hx⟩
    exact ⟨i, p, hNe, (hSame hNe).trans hi, hx⟩

theorem Locks.toCall {s t : HttpSessionManager T} {k : ℕ} {calls : List (LifeCall T)} (h : s.Locks k calls t)
    {x : LifeCall T} : t.ToCall x ↔ s.ToCall x ∨ x ∈ calls := by
  have hSet : t.threads[k]? = some calls := by rw [h.threads, getElem?_set_calls h.idle]
  rw [toCall_iff hSet, toCall_iff h.idle, toCallBeside_set h.threads]
  simp [or_comm]

theorem Acts.toCall {s t : HttpSessionManager T} {k : ℕ} {x : LifeCall T} {calls : List (LifeCall T)}
    (h : s.Acts k x calls t) {y : LifeCall T} : s.ToCall y ↔ y = x ∨ t.ToCall y := by
  have hSet : t.threads[k]? = some calls := by rw [h.threads, getElem?_set_calls h.waiting]
  rw [toCall_iff hSet, toCall_iff h.waiting, toCallBeside_set h.threads, List.mem_cons, or_assoc]

def Running (called : List (LifeCall T)) (c : T) : Prop := ∃ a b, called = a ++ .start c :: b ∧ .stop c ∉ b

theorem running_concat {called : List (LifeCall T)} {x : LifeCall T} {c : T} :
    Running (called ++ [x]) c ↔ x = .start c ∨ (x ≠ .stop c ∧ Running called c) := by
  constructor
  · rintro ⟨a, b, hSplit, hNone⟩
    rcases List.eq_nil_or_concat b with rfl | ⟨b, y, rfl⟩
    · exact .inl (List.singleton_inj.mp (List.append_inj_right' hSplit rfl))
    · right
      rw [List.concat_eq_append] at hSplit hNone
      rw [← List.cons_append, ← List.append_assoc] at hSplit
      obtain ⟨rfl, hLast⟩ := List.append_inj' hSplit rfl
      obtain rfl := List.singleton_inj.mp hLast
      rw [List.mem_append, not_or, List.mem_singleton] at hNone
      exact ⟨fun hEq => hNone.2 hEq.symm, a, b, rfl, hNone.1⟩
  · rintro (rfl | ⟨hNe, a, b, rfl, hNone⟩)
    · exact ⟨called, [], rfl, List.not_mem_nil⟩
    · refine ⟨a, b ++ [x], by simp, ?_⟩
      rw [List.mem_append, not_or, List.mem_singleton]
      exact ⟨hNone, fun hEq => hNe hEq.symm⟩

/-- A later `stop_all` reaches every session that runs. -/
def Registered (s : HttpSessionManager T) : Prop := ∀ c, Running s.called c → c ∈ s.mSessions

/-- Every call of the manager has returned. -/
def Returned (s : HttpSessionManager T) : Prop := ∀ calls ∈ s.threads, calls = []

theorem Returned.not_toCall {s : HttpSessionManager T} (h : s.Returned) (x : LifeCall T) : ¬ s.ToCall x := by
  rintro ⟨calls, hMem, hx⟩
  rw [h calls hMem] at hx
  cases hx

structure Tracked (s : HttpSessionManager T) : Prop where
  running : ∀ c, Running s.called c → c ∈ s.mSessions ∨ s.ToCall (.stop c)
  starting : ∀ c, s.ToCall (.start c) → c ∈ s.mSessions

theorem Tracked.registered {s : HttpSessionManager T} (h : s.Tracked) (hReturned : s.Returned) : s.Registered := by
  intro c hRunning
  exact (h.running c hRunning).resolve_right (hReturned.not_toCall _)

theorem Acts.tracked {s t : HttpSessionManager T} {k : ℕ} {x : LifeCall T} {calls : List (LifeCall T)}
    (h : s.Acts k x calls t) (hs : s.Tracked) : t.Tracked := by
  refine ⟨?_, ?_⟩
  · intro c hRunning
    rw [h.called, running_concat] at hRunning
    rw [h.mSessions]
    rcases hRunning with rfl | ⟨hNe, hRunning⟩
    · exact .inl (hs.starting c (h.toCall.mpr (.inl rfl)))
    · rcases hs.running c hRunning with hMem | hStop
      · exact .inl hMem
      · exact .inr ((h.toCall.mp hStop).resolve_left fun hEq => hNe hEq.symm)
  · intro c hStart
    rw [h.mSessions]
    exact hs.starting c (h.toCall.mpr (.inr hStart))

theorem Locks.tracked {s t : HttpSessionManager T} {k : ℕ} {calls : List (LifeCall T)} (h : s.Locks k calls t)
    (hs : s.Tracked) (hKeeps : ∀ c ∈ s.mSessions, c ∉ t.mSessions → ¬ s.ToCall (.start c)) : t.Tracked := by
  refine ⟨?_, ?_⟩
  · intro c hRunning
    rw [h.called] at hRunning
    by_cases hMem : c ∈ t.mSessions
    · exact .inl hMem
    · right
      rw [h.toCall]
      rcases hs.running c hRunning with hMem' | hStop
      · exact .inr (h.removes c hMem' hMem)
      · exact .inl hStop
  · intro c hStart
    rcases h.toCall.mp hStart with hStart | hStart
    · by_contra hGone
      exact hKeeps c (hs.starting c hStart) hGone hStart
    · exact (h.starts c hStart).2

section

variable [DecidableEq T]

theorem tracked_step {s t : HttpSessionManager T} {e : Event T} (hs : s.Tracked)
    (hKeeps : ∀ c ∈ s.mSessions, c ∉ t.mSessions → ¬ s.ToCall (.start c)) (hStep : s.step e = some t) :
      t.Tracked := by
  cases step_took hStep with
  | locks _ hLocks => exact hLocks.tracked hs hKeeps
  | acts hActs => exact hActs.tracked hs

/-! ### The calls that are under way return -/

/-- All calls under way return, in some order, and no other is made. -/
def Drains (s t : HttpSessionManager T) : Prop :=
  ∃ ks : List ℕ, PartialRun.run step s (ks.map .act) = some t ∧ t.Returned

theorem Tracked.drained {s t : HttpSessionManager T} (hs : s.Tracked) (h : s.Drains t) : t.Registered := by
  obtain ⟨ks, hRun, hReturned⟩ := h
  have hAlong : PartialRun.Along step (fun _ (e : Event T) => ∃ k, e = .act k) s (ks.map .act) := by
    apply PartialRun.along_of_forall_mem
    intro e he _
    obtain ⟨k, -, rfl⟩ := List.mem_map.mp he
    exact ⟨k, rfl⟩
  refine Tracked.registered (hAlong.run ?_ hs hRun) hReturned
  rintro s _ t hs ⟨k, rfl⟩ hStep
  refine tracked_step hs ?_ hStep
  intro c hMem hGone
  cases step_took hStep with
  | locks hCall _ => exact absurd rfl (hCall k)
  | acts hActs =>
    rw [hActs.mSessions] at hGone
    exact absurd hMem hGone

/-- `c->start()` is all that its thread has to call. -/
def StartsAlone (s : HttpSessionManager T) : Prop := ∀ calls ∈ s.threads, ∀ c, .start c ∈ calls → calls = [.start c]

theorem startsAlone_step : PartialRun.Preserves step (StartsAlone (T := T)) := by
  intro s e t hs hStep calls hMem c hStart
  cases step_took hStep with
  | locks _ hLocks =>
    rw [hLocks.threads] at hMem
    rcases List.mem_or_eq_of_mem_set hMem with hMem | rfl
    · exact hs calls hMem c hStart
    · exact (hLocks.starts c hStart).1
  | acts hActs =>
    rw [hActs.threads] at hMem
    rcases List.mem_or_eq_of_mem_set hMem with hMem | rfl
    · exact hs calls hMem c hStart
    · have hAlone := hs _ (List.mem_of_getElem? hActs.waiting) c (List.mem_cons_of_mem _ hStart)
      rw [(List.cons_eq_cons.mp hAlone).2] at hStart
      cases hStart

theorem step_act {s : HttpSessionManager T} {k : ℕ} {x : LifeCall T} {calls : List (LifeCall T)}
    (h : s.threads[k]? = some (x :: calls)) :
    s.step (.act k) = some { s with threads := s.threads.set k calls, called := s.called ++ [x] } := by
  simp only [step, h]

def finished (s : HttpSessionManager T) (k : ℕ) (calls : List (LifeCall T)) : HttpSessionManager T :=
  { s with threads := s.threads.set k [], called := s.called ++ calls }

theorem run_thread {s : HttpSessionManager T} {k : ℕ} {calls : List (LifeCall T)} (h : s.threads[k]? = some calls) :
    PartialRun.run step s (List.replicate calls.length (.act k)) = some (s.finished k calls) := by
  induction calls generalizing s with
  | nil =>
    obtain ⟨hLt, hGet⟩ := List.getElem?_eq_some_iff.mp h
    have hSame : s.threads.set k [] = s.threads := by rw [← hGet, List.set_getElem_self]
    rw [finished, hSame, List.append_nil]
    rfl
  | cons x calls ih =>
    rw [List.length_cons, List.replicate_succ, PartialRun.run_cons_of_step (step_act h), ih (getElem?_set_calls h)]
    simp [finished]

theorem run_others (s : HttpSessionManager T) (j m : ℕ) :
    ∃ (ks : List ℕ) (t : HttpSessionManager T), PartialRun.run step s (ks.map .act) = some t ∧
      t.mSessions = s.mSessions ∧
      ∀ i, t.threads[i]? = if i < m ∧ i ≠ j then s.threads[i]?.map (fun _ => []) else s.threads[i]? := by
  induction m with
  | zero => exact ⟨[], s, rfl, rfl, by simp⟩
  | succ m ih =>
    obtain ⟨ks, t, hRun, hSessions, hThreads⟩ := ih
    have hHere : t.threads[m]? = s.threads[m]? := by rw [hThreads, if_neg (by omega)]
    cases hGet : s.threads[m]? with
    | none =>
      refine ⟨ks, t, hRun, hSessions, ?_⟩
      intro i
      rw [hThreads]
      by_cases hi : i = m
      · rw [hi, hGet]
        simp
      · congr 1
        simp only [eq_iff_iff]
        omega
    | some calls =>
      rw [hGet] at hHere
      by_cases hj : m = j
      · refine ⟨ks, t, hRun, hSessions, ?_⟩
        intro i
        rw [hThreads]
        congr 1
        simp only [eq_iff_iff]
        omega
      · refine ⟨ks ++ List.replicate calls.length m, t.finished m calls, ?_, hSessions, ?_⟩
        · rw [List.map_append, List.map_replicate, PartialRun.run_append_of_run hRun, run_thread hHere]
        · intro i
          by_cases hi : i = m
          · rw [hi, finished, getElem?_set_calls hHere, if_pos (by omega), hGet]
            rfl
          · rw [finished, List.getElem?_set_ne (Ne.symm hi), hThreads]
            congr 1
            simp only [eq_iff_iff]
            omega

/-- A session that its thread has still to start, and that the set no longer holds, ends up running unseen. -/
theorem exists_drained {s : HttpSessionManager T} {c : T} (hs : s.StartsAlone) (hStart : s.ToCall (.start c))
    (hGone : c ∉ s.mSessions) : ∃ t, s.Drains t ∧ ¬ t.Registered := by
  obtain ⟨calls, hMem, hx⟩ := hStart
  obtain rfl := hs calls hMem c hx
  obtain ⟨j, hGet⟩ := List.mem_iff_getElem?.mp hMem
  obtain ⟨ks, t, hRun, hSessions, hThreads⟩ := s.run_others j s.threads.length
  have hj : t.threads[j]? = some [.start c] := by rw [hThreads, if_neg (by omega), hGet]
  refine ⟨t.finished j [.start c], ⟨ks ++ [j], ?_, ?_⟩, ?_⟩
  · rw [List.map_append, PartialRun.run_append_of_run hRun]
    exact (PartialRun.run_singleton t _).trans (step_act hj)
  · intro p hp
    obtain ⟨i, hi⟩ := List.mem_iff_getElem?.mp hp
    by_cases hNe : i = j
    · rw [hNe, finished, getElem?_set_calls hj] at hi
      exact (Option.some.inj hi).symm
    · rw [finished, List.getElem?_set_ne (Ne.symm hNe), hThreads] at hi
      split at hi
      · obtain ⟨q, -, hq⟩ := Option.map_eq_some_iff.mp hi
        exact hq.symm
      · rename_i hOut
        obtain ⟨hLt, -⟩ := List.getElem?_eq_some_iff.mp hi
        exact absurd ⟨hLt, hNe⟩ hOut
  · intro hRegistered
    have hRunning : Running (t.called ++ [.start c]) c := running_concat.mpr (.inl rfl)
    have hHeld := hRegistered c hRunning
    exact hGone (hSessions ▸ hHeld)

end

end HttpSessionManager

open HttpSessionManager

/-- A manager that `n` threads use. -/
def httpSessionManager (T : Type u) (n : ℕ) : HttpSessionManager T := { threads := List.replicate n [] }

/-- In every interleaving, and however the calls under way return: what runs is registered, exactly while no
thread takes a session out of the set that another one has just inserted and is about to start. -/
theorem registered_iff [DecidableEq T] (n : ℕ) (events : List (Event T)) :
    PartialRun.Always step (fun s => ∀ t, s.Drains t → t.Registered) (httpSessionManager T n) events ↔
      PartialRun.Along step
        (fun s e => ∀ t, s.step e = some t → ∀ c ∈ s.mSessions, c ∉ t.mSessions → ¬ s.ToCall (.start c))
        (httpSessionManager T n) events := by
  have hEmpty : (httpSessionManager T n).Returned := fun calls hMem => List.eq_of_mem_replicate hMem
  constructor
  · intro hAlways
    refine hAlways.along startsAlone_step ?_ ?_
    · intro s e hs _ hNext t hStep c hMem hGone hStart
      have hStart' : t.ToCall (.start c) := by
        cases step_took hStep with
        | locks _ hLocks => exact hLocks.toCall.mpr (.inl hStart)
        | acts hActs => exact absurd (hActs.mSessions ▸ hMem) hGone
      obtain ⟨u, hDrains, hNot⟩ := exists_drained (startsAlone_step s e t hs hStep) hStart' hGone
      exact hNot (hNext t hStep u hDrains)
    · intro calls hMem c hStart
      rw [hEmpty calls hMem] at hStart
      cases hStart
  · intro hAlong
    have hTracked : PartialRun.Always step Tracked (httpSessionManager T n) events := by
      refine hAlong.always (fun s e t hs hKeeps hStep => tracked_step hs (hKeeps t hStep) hStep) ⟨?_, ?_⟩
      · rintro c ⟨a, b, hSplit, -⟩
        simp [httpSessionManager] at hSplit
      · intro c hStart
        exact absurd hStart (hEmpty.not_toCall _)
    intro before after s hSplit hRun t hDrains
    exact (hTracked before after s hSplit hRun).drained hDrains

/-- `stop_all` runs between the insertion of a session and its `start()`. -/
theorem stopAll_between :
    ¬ ∀ (events : List (Event ℕ)) (t : HttpSessionManager ℕ),
      PartialRun.run step (httpSessionManager ℕ 2) events = some t → t.Returned → t.Registered := by
  intro h
  have hRun : PartialRun.run step (httpSessionManager ℕ 2) [.start 0 7, .stopAll 1 [7], .act 1, .act 0] =
      some ⟨∅, [[], []], [.stop 7, .start 7]⟩ := by decide +kernel
  have hRegistered := h _ _ hRun (by simp [Returned]) 7 ⟨[.stop 7], [], rfl, List.not_mem_nil⟩
  simp at hRegistered

end HttpUtils
