import HttpUtils.HttpPacket
import Mathlib.Tactic.IntervalCases

/-! # Decimal numbers, as the encoders write and the parser reads them -/

namespace HttpUtils
set_option autoImplicit false

/-- The number read from the digits `s` behind a number `n`. -/
def digitsValue (n : ℕ) (s : Bytes) : ℕ := s.foldl (fun n c => n * 10 + (c - '0').toNat) n

theorem digitsValue_append (n : ℕ) (a b : Bytes) : digitsValue n (a ++ b) = digitsValue (digitsValue n a) b :=
  List.foldl_append

theorem le_digitsValue (n : ℕ) (s : Bytes) : n ≤ digitsValue n s := by
  induction s generalizing n with
  | nil => exact Nat.le_refl n
  | cons c s ih => exact Nat.le_trans (by omega) (ih (n * 10 + (c - '0').toNat))

theorem digit_spec {d : ℕ} (h : d < 10) :
    isNum (Nat.digitChar d).toNat.toUInt8 = true ∧ ((Nat.digitChar d).toNat.toUInt8 - '0').toNat = d ∧
      ((Nat.digitChar d).toNat.toUInt8 = '0' → d = 0) := by
  interval_cases d <;> decide

theorem decimal_eq (n : ℕ) :
    decimal n = (if n < 10 then [] else decimal (n / 10)) ++ [(Nat.digitChar (n % 10)).toNat.toUInt8] := by
  unfold decimal
  rw [Nat.toDigits_eq_if (by decide)]
  by_cases hn : n < 10
  · simp [hn, Nat.mod_eq_of_lt hn]
  · simp [hn]

theorem decimal_spec (n : ℕ) :
    digitsValue 0 (decimal n) = n ∧ (∀ c ∈ decimal n, isNum c = true) ∧
      ∃ c s, decimal n = c :: s ∧ (c = '0' → n = 0) := by
  induction n using Nat.strong_induction_on with
  | _ n ih =>
    obtain ⟨hNum, hValue, hZero⟩ := digit_spec (Nat.mod_lt n (by decide : 10 > 0))
    by_cases hn : n < 10
    · have hEq := decimal_eq n
      rw [if_pos hn, List.nil_append] at hEq
      rw [hEq]
      rw [Nat.mod_eq_of_lt hn] at hNum hValue hZero ⊢
      refine ⟨?_, fun c hc => ?_, _, [], rfl, hZero⟩
      · simp only [digitsValue, List.foldl_cons, List.foldl_nil, hValue]
        omega
      · rw [List.mem_singleton.mp hc]
        exact hNum
    · obtain ⟨hFront, hNums, c, s, hHead, hNonzero⟩ := ih (n / 10) (by omega)
      have hEq := decimal_eq n
      rw [if_neg hn] at hEq
      rw [hEq]
      refine ⟨?_, fun d hd => ?_, c, s ++ [(Nat.digitChar (n % 10)).toNat.toUInt8], ?_,
        fun hc => ?_⟩
      · rw [digitsValue_append, hFront]
        simp only [digitsValue, List.foldl_cons, List.foldl_nil, hValue]
        omega
      · rcases List.mem_append.mp hd with hd | hd
        · exact hNums d hd
        · rw [List.mem_singleton.mp hd]
          exact hNum
      · rw [hHead, List.cons_append]
      · have hDiv := hNonzero hc
        omega

theorem digitsValue_prefix {n : ℕ} {u w : Bytes} {c : UInt8} (h : decimal n = u ++ c :: w) :
    digitsValue 0 u * 10 + (c - '0').toNat ≤ n := by
  have hValue := (decimal_spec n).1
  rw [h, digitsValue_append] at hValue
  have hLe := le_digitsValue (digitsValue 0 u * 10 + (c - '0').toNat) w
  calc digitsValue 0 u * 10 + (c - '0').toNat ≤ digitsValue (digitsValue 0 u) (c :: w) := hLe
    _ = n := hValue

end HttpUtils
