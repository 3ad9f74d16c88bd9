import Mathlib.Data.List.Basic

/-!
# A waitable timer

A wait on a timer is pending until the timer expires or is cancelled. Its completion is queued then, and runs
at any later time: nothing that is done to the timer reaches a queued completion.
-/

namespace WaitableTimer
set_option autoImplicit false

universe u

variable {α : Type u}

inductive Completion where
  | expired | aborted
  deriving DecidableEq, Repr

structure Timer (α : Type u) where
  pending : List α := []
  queued : List (α × Completion) := []
  deriving DecidableEq, Repr

namespace Timer

/-- Every pending wait completes in the same way. -/
def settle (t : Timer α) (c : Completion) : Timer α := ⟨[], t.queued ++ t.pending.map fun a => (a, c)⟩

def cancel (t : Timer α) : Timer α := t.settle .aborted

def expire (t : Timer α) : Timer α := t.settle .expired

/-- A new expiry time, and the number of waits that it cancelled. -/
def expiresFromNow (t : Timer α) : Timer α × ℕ := (t.cancel, t.pending.length)

def asyncWait (t : Timer α) (a : α) : Timer α := { t with pending := t.pending ++ [a] }

/-- The queued completion number `i` is taken out to run. -/
def take (t : Timer α) (i : ℕ) : Option ((α × Completion) × Timer α) :=
  t.queued[i]?.map fun c => (c, { t with queued := t.queued.eraseIdx i })

/-- The waits whose handlers have not run. -/
def size (t : Timer α) : ℕ := t.pending.length + t.queued.length

def Live (t : Timer α) (a : α) : Prop := a ∈ t.pending ∨ (a, .expired) ∈ t.queued

@[simp] theorem cancel_cancel (t : Timer α) : t.cancel.cancel = t.cancel := by simp [cancel, settle]

theorem expiresFromNow_of_idle {t : Timer α} (h : t.pending = []) : t.expiresFromNow = (t.cancel, 0) := by
  simp [expiresFromNow, h]

@[simp] theorem pending_cancel (t : Timer α) : t.cancel.pending = [] := rfl

@[simp] theorem expired_cancel {t : Timer α} {a : α} : (a, .expired) ∈ t.cancel.queued ↔
    (a, .expired) ∈ t.queued := by
  simp [cancel, settle]

@[simp] theorem queued_asyncWait (t : Timer α) (a : α) : (t.asyncWait a).queued = t.queued := rfl

@[simp] theorem live_cancel {t : Timer α} {a : α} : t.cancel.Live a ↔ (a, .expired) ∈ t.queued := by
  simp [Live, cancel, settle]

@[simp] theorem live_expire {t : Timer α} {a : α} : t.expire.Live a ↔ t.Live a := by
  simp [Live, expire, settle, or_comm]

@[simp] theorem live_asyncWait {t : Timer α} {a b : α} : (t.asyncWait b).Live a ↔ t.Live a ∨ a = b := by
  simp only [Live, asyncWait, List.mem_append, List.mem_singleton, or_assoc, or_comm]

@[simp] theorem size_settle (t : Timer α) (c : Completion) : (t.settle c).size = t.size := by
  simp [size, settle, Nat.add_comm]

@[simp] theorem size_cancel (t : Timer α) : t.cancel.size = t.size := size_settle t _

@[simp] theorem size_expire (t : Timer α) : t.expire.size = t.size := size_settle t _

theorem take_eq_some {t t' : Timer α} {i : ℕ} {c : α × Completion} :
    t.take i = some (c, t') ↔ t.queued[i]? = some c ∧ t' = { t with queued := t.queued.eraseIdx i } := by
  simp only [take, Option.map_eq_some_iff, Prod.mk.injEq]
  constructor
  · rintro ⟨d, hd, rfl, rfl⟩
    exact ⟨hd, rfl⟩
  · rintro ⟨hc, rfl⟩
    exact ⟨c, hc, rfl, rfl⟩

theorem mem_of_take {t t' : Timer α} {i : ℕ} {c : α × Completion} (h : t.take i = some (c, t')) : c ∈ t.queued :=
  List.mem_of_getElem? (take_eq_some.mp h).1

theorem size_of_take {t t' : Timer α} {i : ℕ} {c : α × Completion} (h : t.take i = some (c, t')) :
    t.size = t'.size + 1 := by
  obtain ⟨hGet, rfl⟩ := take_eq_some.mp h
  obtain ⟨hLt, -⟩ := List.getElem?_eq_some_iff.mp hGet
  have hErase := List.length_eraseIdx_of_lt hLt
  simp only [size, hErase]
  omega

theorem live_of_take {t t' : Timer α} {i : ℕ} {c : α × Completion} (h : t.take i = some (c, t')) {a : α}
    (hLive : t'.Live a) : t.Live a := by
  obtain ⟨-, rfl⟩ := take_eq_some.mp h
  exact hLive.imp id List.mem_of_mem_eraseIdx

theorem live_take_aborted {t t' : Timer α} {i : ℕ} {a : α} (h : t.take i = some ((a, .aborted), t')) {b : α} :
    t'.Live b ↔ t.Live b := by
  refine ⟨live_of_take h, ?_⟩
  obtain ⟨hGet, rfl⟩ := take_eq_some.mp h
  rintro (hPending | hQueued)
  · exact .inl hPending
  · right
    obtain ⟨j, hLt, hj⟩ := List.mem_iff_getElem.mp hQueued
    refine List.mem_eraseIdx_iff_getElem.mpr ⟨j, hLt, ?_, hj⟩
    rintro rfl
    rw [List.getElem?_eq_getElem hLt, hj] at hGet
    cases hGet

end Timer

end WaitableTimer
