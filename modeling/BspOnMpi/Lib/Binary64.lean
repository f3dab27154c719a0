import Mathlib.Data.Nat.Log
import Mathlib.Tactic.Ring

/-! Natural numbers in binary64. The bit pattern of a natural number in the 64-bit floating-point
format: eleven bits of exponent above fifty-two bits of fraction. Numbers up to 2^53 are
represented exactly; larger ones lose their last bits. -/

namespace BspOnMpi.Lib.Binary64

def encode (k : ℕ) : ℕ :=
  if k = 0 then 0
  else
    let e := Nat.log 2 k
    let m := if e ≤ 52 then k * 2 ^ (52 - e) else k / 2 ^ (e - 52)
    (1023 + e) * 2 ^ 52 + (m - 2 ^ 52)

def decode (b : ℕ) : ℕ :=
  if b = 0 then 0
  else
    let e := b / 2 ^ 52 - 1023
    let m := b % 2 ^ 52 + 2 ^ 52
    if e ≤ 52 then m / 2 ^ (52 - e) else m * 2 ^ (e - 52)

theorem fields {e m : ℕ} (hm : 2 ^ 52 ≤ m ∧ m < 2 ^ 53) :
    ((1023 + e) * 2 ^ 52 + (m - 2 ^ 52)) / 2 ^ 52 = 1023 + e ∧
      ((1023 + e) * 2 ^ 52 + (m - 2 ^ 52)) % 2 ^ 52 = m - 2 ^ 52 := by
  omega

theorem scaled {k : ℕ} (hk : k ≠ 0) (he : Nat.log 2 k ≤ 52) :
    2 ^ 52 ≤ k * 2 ^ (52 - Nat.log 2 k) ∧ k * 2 ^ (52 - Nat.log 2 k) < 2 ^ 53 := by
  have hlow := Nat.pow_log_le_self 2 hk
  have hhigh := Nat.lt_pow_succ_log_self (b := 2) (by decide) k
  have hpos : 0 < 2 ^ (52 - Nat.log 2 k) := Nat.two_pow_pos _
  constructor
  · calc 2 ^ 52 = 2 ^ Nat.log 2 k * 2 ^ (52 - Nat.log 2 k) := by rw [← Nat.pow_add]; congr 1; omega
      _ ≤ k * 2 ^ (52 - Nat.log 2 k) := Nat.mul_le_mul_right _ hlow
  · calc k * 2 ^ (52 - Nat.log 2 k) < 2 ^ (Nat.log 2 k + 1) * 2 ^ (52 - Nat.log 2 k) :=
        Nat.mul_lt_mul_of_pos_right hhigh hpos
      _ = 2 ^ 53 := by rw [← Nat.pow_add]; congr 1; omega

theorem log_le_of_lt {k : ℕ} (hk : k < 2 ^ 53) : Nat.log 2 k ≤ 52 := by
  rcases Nat.eq_zero_or_pos k with rfl | hpos
  · decide
  · exact Nat.le_of_lt_succ (Nat.log_lt_of_lt_pow (by omega) hk)

theorem decode_encode {k : ℕ} (hk : k ≤ 2 ^ 53) : decode (encode k) = k := by
  rcases Nat.lt_or_eq_of_le hk with hlt | rfl
  · rcases Nat.eq_zero_or_pos k with rfl | hpos
    · decide
    · have he := log_le_of_lt hlt
      have hm := scaled (by omega) he
      obtain ⟨hexp, hfrac⟩ := fields (e := Nat.log 2 k) hm
      have hne : (1023 + Nat.log 2 k) * 2 ^ 52 + (k * 2 ^ (52 - Nat.log 2 k) - 2 ^ 52) ≠ 0 := by
        omega
      have hencode : encode k =
          (1023 + Nat.log 2 k) * 2 ^ 52 + (k * 2 ^ (52 - Nat.log 2 k) - 2 ^ 52) := by
        simp only [encode, if_neg (show k ≠ 0 by omega), if_pos he]
      have hsub : 1023 + Nat.log 2 k - 1023 = Nat.log 2 k := Nat.add_sub_cancel_left _ _
      rw [hencode, decode, if_neg hne, hexp, hfrac, hsub]
      simp only [if_pos he, Nat.sub_add_cancel hm.1]
      exact Nat.mul_div_cancel _ (Nat.two_pow_pos _)
  · have hlog : Nat.log 2 (2 ^ 53) = 53 := Nat.log_pow (by decide) 53
    have hencode : encode (2 ^ 53) = 1076 * 2 ^ 52 := by
      rw [encode, hlog]
      decide
    rw [hencode]
    decide

theorem encode_lt {k : ℕ} (hk : k ≤ 2 ^ 53) : encode k < 2 ^ 64 := by
  rcases Nat.lt_or_eq_of_le hk with hlt | rfl
  · rcases Nat.eq_zero_or_pos k with rfl | hpos
    · decide
    · have he := log_le_of_lt hlt
      have hm := scaled (show k ≠ 0 by omega) he
      simp only [encode, if_neg (show k ≠ 0 by omega), if_pos he]
      omega
  · have hlog : Nat.log 2 (2 ^ 53) = 53 := Nat.log_pow (by decide) 53
    rw [encode, hlog]
    decide

example : encode 1 = 0x3FF0000000000000 ∧ encode 7 = 0x401C000000000000 := by decide

end BspOnMpi.Lib.Binary64
