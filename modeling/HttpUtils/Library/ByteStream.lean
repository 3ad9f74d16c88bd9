import Mathlib.Data.List.Basic
import Mathlib.Data.Nat.Notation

/-!
# One direction of a connection

What was written is sent in pieces of any size, and received in pieces of any size, in order. The writer can shut
the stream: what was not sent by then is lost, and the reader sees the end when nothing is in flight.
-/

namespace ByteStream
set_option autoImplicit false

universe u

variable {α : Type u}

structure Stream (α : Type u) where
  unsent : List α := []
  inFlight : List α := []
  ended : Bool := false
  deriving DecidableEq, Repr

namespace Stream

/-- Nothing is written any more when the stream is shut. -/
def write (c : Stream α) (data : List α) : Stream α :=
  if c.ended then c else { c with unsent := c.unsent ++ data }

def shut (c : Stream α) : Stream α := { c with unsent := [], ended := true }

def send (c : Stream α) (n : ℕ) : Option (Stream α) :=
  if 0 < n ∧ n ≤ c.unsent.length then
    some { c with unsent := c.unsent.drop n, inFlight := c.inFlight ++ c.unsent.take n }
  else none

def receive (c : Stream α) (n : ℕ) : Option (List α × Stream α) :=
  if 0 < n ∧ n ≤ c.inFlight.length then some (c.inFlight.take n, { c with inFlight := c.inFlight.drop n }) else none

def atEnd (c : Stream α) : Bool := c.ended && c.inFlight.isEmpty

/-- What is still on its way. -/
def rest (c : Stream α) : List α := c.inFlight ++ c.unsent

@[simp] theorem rest_new : ({} : Stream α).rest = [] := rfl

theorem rest_write {c : Stream α} (h : c.ended = false) (data : List α) : (c.write data).rest = c.rest ++ data := by
  simp [write, h, rest]

theorem ended_write (c : Stream α) (data : List α) : (c.write data).ended = c.ended := by
  unfold write
  split <;> rfl

theorem rest_shut (c : Stream α) : c.shut.rest <+: c.rest := by
  rw [rest, shut, List.append_nil]
  exact List.prefix_append _ _

theorem rest_shut_of_sent {c : Stream α} (h : c.unsent = []) : c.shut.rest = c.rest := by simp [rest, shut, h]

theorem send_spec {c d : Stream α} {n : ℕ} (h : c.send n = some d) :
    d.rest = c.rest ∧ d.ended = c.ended ∧ d.unsent.length < c.unsent.length := by
  unfold send at h
  split at h
  · rename_i hSome
    obtain rfl := Option.some.inj h
    refine ⟨by simp [rest], rfl, ?_⟩
    rw [List.length_drop]
    omega
  · cases h

theorem receive_spec {c d : Stream α} {n : ℕ} {data : List α} (h : c.receive n = some (data, d)) :
    data ++ d.rest = c.rest ∧ d.unsent = c.unsent ∧ d.ended = c.ended ∧ data ≠ [] := by
  unfold receive at h
  split at h
  · rename_i hSome
    obtain ⟨rfl, rfl⟩ := Prod.mk.inj (Option.some.inj h)
    refine ⟨?_, rfl, rfl, ?_⟩
    · simp [rest, ← List.append_assoc]
    · intro hNone
      have hLength := congrArg List.length hNone
      rw [List.length_take, List.length_nil] at hLength
      omega
  · cases h

theorem exists_send {c : Stream α} (h : c.unsent ≠ []) : ∃ d, c.send 1 = some d := by
  have hPos := List.length_pos_iff.mpr h
  exact ⟨_, if_pos ⟨Nat.one_pos, hPos⟩⟩

theorem exists_receive {c : Stream α} (h : c.inFlight ≠ []) : ∃ a d, c.receive 1 = some ([a], d) := by
  obtain ⟨a, l, hSplit⟩ := List.exists_cons_of_ne_nil h
  refine ⟨a, { c with inFlight := l }, ?_⟩
  simp [receive, hSplit]

theorem atEnd_iff {c : Stream α} : c.atEnd = true ↔ c.ended = true ∧ c.inFlight = [] := by simp [atEnd]

/-! ### The steps that are left -/

/-- Each element has to be sent, if it was not yet, and received. -/
def cost (c : Stream α) : ℕ := 3 * c.unsent.length + 2 * c.inFlight.length

@[simp] theorem cost_new : ({} : Stream α).cost = 0 := rfl

theorem cost_write (c : Stream α) (data : List α) : (c.write data).cost ≤ c.cost + 3 * data.length := by
  unfold write cost
  split
  · omega
  · simp only [List.length_append]
    omega

theorem cost_shut (c : Stream α) : c.shut.cost ≤ c.cost := by simp [shut, cost]

theorem cost_send {c d : Stream α} {n : ℕ} (h : c.send n = some d) : d.cost < c.cost := by
  unfold send at h
  split at h
  · obtain rfl := Option.some.inj h
    simp only [cost, List.length_drop, List.length_append, List.length_take]
    omega
  · cases h

theorem cost_receive {c d : Stream α} {n : ℕ} {data : List α} (h : c.receive n = some (data, d)) :
    d.cost + 2 ≤ c.cost := by
  unfold receive at h
  split at h
  · obtain ⟨-, rfl⟩ := Prod.mk.inj (Option.some.inj h)
    simp only [cost, List.length_drop]
    omega
  · cases h

/-! ### What the reader has -/

/-- `got` was received, and with what is on its way it begins `text`. -/
def Carries (c : Stream α) (got text : List α) : Prop := got ++ c.rest <+: text

/-- Nothing was lost. -/
def Delivers (c : Stream α) (got text : List α) : Prop := got ++ c.rest = text

variable {c d : Stream α} {got text data : List α} {n : ℕ}

theorem Carries.received (h : c.Carries got text) : got <+: text := (List.prefix_append _ _).trans h

theorem Carries.send (h : c.Carries got text) (hSend : c.send n = some d) : d.Carries got text := by
  rw [Carries, (send_spec hSend).1]
  exact h

theorem Carries.receive (h : c.Carries got text) (hReceive : c.receive n = some (data, d)) :
    d.Carries (got ++ data) text := by
  rw [Carries, List.append_assoc, (receive_spec hReceive).1]
  exact h

theorem Carries.shut (h : c.Carries got text) : c.shut.Carries got text :=
  (List.prefix_append_right_inj got).mpr c.rest_shut |>.trans h

theorem Carries.mono (h : c.Carries got text) {text' : List α} (hText : text <+: text') : c.Carries got text' :=
  List.IsPrefix.trans h hText

theorem Carries.renew (h : c.Carries got []) : ({} : Stream α).Carries got [] := by
  obtain ⟨rfl, -⟩ := List.append_eq_nil_iff.mp (List.prefix_nil.mp h)
  exact List.prefix_rfl

theorem Carries.write (h : c.Carries got []) (data : List α) : (c.write data).Carries got data := by
  obtain ⟨rfl, hRest⟩ := List.append_eq_nil_iff.mp (List.prefix_nil.mp h)
  rw [Carries, List.nil_append]
  cases hEnded : c.ended with
  | true =>
    have hSame : c.write data = c := by simp [Stream.write, hEnded]
    rw [hSame, hRest]
    exact List.nil_prefix
  | false =>
    rw [rest_write hEnded, hRest]
    exact List.prefix_rfl

theorem Delivers.renew (h : c.Delivers got []) : ({} : Stream α).Delivers got [] := by
  obtain ⟨rfl, -⟩ := List.append_eq_nil_iff.mp h
  rfl

theorem Delivers.write (h : c.Delivers got []) (hOpen : c.ended = false) (data : List α) :
    (c.write data).Delivers got data := by
  obtain ⟨rfl, hRest⟩ := List.append_eq_nil_iff.mp h
  rw [Delivers, rest_write hOpen, hRest]
  rfl

/-- Nothing is on its way any more. -/
theorem Delivers.got_eq (h : c.Delivers got text) (hRest : c.rest = []) : got = text := by
  rw [Delivers, hRest, List.append_nil] at h
  exact h

theorem Delivers.send (h : c.Delivers got text) (hSend : c.send n = some d) : d.Delivers got text := by
  rw [Delivers, (send_spec hSend).1]
  exact h

theorem Delivers.receive (h : c.Delivers got text) (hReceive : c.receive n = some (data, d)) :
    d.Delivers (got ++ data) text := by
  rw [Delivers, List.append_assoc, (receive_spec hReceive).1]
  exact h

theorem Delivers.shut (h : c.Delivers got text) (hSent : c.unsent = []) : c.shut.Delivers got text := by
  rw [Delivers, rest_shut_of_sent hSent]
  exact h

end Stream

end ByteStream
