import LittlePenguin.Lib.Bytes
import Mathlib.Data.Nat.Digits.Lemmas

/-!
# Decimal numerals

The text of a number (`decimal`): its digits in base ten, the most significant
one first, without leading zeros. Read as a number again (`undecimal`), it is
the number it was made from, so that different numbers have different texts.
-/

namespace Lib

/-- The character of a digit. -/
def digit (d : ℕ) : UInt8 := UInt8.ofNat (48 + d)

/-- The text of a number. -/
def decimal (n : ℕ) : Bytes :=
  if n = 0 then [digit 0] else (Nat.digits 10 n).reverse.map digit

/-- The number a text of digits stands for. -/
def undecimal (text : Bytes) : ℕ := Nat.ofDigits 10 (text.reverse.map fun c => c.toNat - 48)

theorem toNat_digit {d : ℕ} (h : d < 10) : (digit d).toNat = 48 + d := by
  rw [digit, UInt8.toNat_ofNat']
  omega

theorem undecimal_decimal (n : ℕ) : undecimal (decimal n) = n := by
  rw [undecimal, decimal]
  split_ifs with hn
  · rw [hn]
    rfl
  · have hdigits : ∀ d ∈ Nat.digits 10 n, (digit d).toNat - 48 = d := fun d hd => by
      rw [toNat_digit (Nat.digits_lt_base (by decide) hd), Nat.add_sub_cancel_left]
    rw [← List.map_reverse, List.reverse_reverse, List.map_map]
    refine (congrArg _ (List.map_congr_left hdigits)).trans ?_
    rw [List.map_id', Nat.ofDigits_digits]

theorem decimal_injective : Function.Injective decimal :=
  Function.LeftInverse.injective undecimal_decimal

/-- A text has nothing but digits. -/
theorem mem_decimal {n : ℕ} {c : UInt8} (h : c ∈ decimal n) : 48 ≤ c.toNat ∧ c.toNat ≤ 57 := by
  have hdigit : ∃ d < 10, c = digit d := by
    rw [decimal] at h
    split_ifs at h with hn
    · exact ⟨0, by decide, List.mem_singleton.1 h⟩
    · obtain ⟨d, hd, rfl⟩ := List.mem_map.1 h
      exact ⟨d, Nat.digits_lt_base (by decide) (List.mem_reverse.1 hd), rfl⟩
  obtain ⟨d, hd, rfl⟩ := hdigit
  rw [toNat_digit hd]
  omega

theorem length_decimal (n : ℕ) : (decimal n).length = max 1 (Nat.digits 10 n).length := by
  rw [decimal]
  split_ifs with hn
  · rw [hn, Nat.digits_zero]
    rfl
  · have hlen : 0 < (Nat.digits 10 n).length :=
      List.length_pos_iff.2 (Nat.digits_ne_nil_iff_ne_zero.2 hn)
    rw [List.length_map, List.length_reverse, max_eq_right hlen]

/-- Larger numbers do not have shorter texts. -/
theorem length_decimal_le {m n : ℕ} (h : m ≤ n) : (decimal m).length ≤ (decimal n).length := by
  rw [length_decimal, length_decimal]
  exact max_le_max_left 1 (Nat.le_length_digits_le 10 m n h)

/-- A number below a power of ten has at most that many digits. -/
theorem length_decimal_le_of_lt {n k : ℕ} (hk : 0 < k) (h : n < 10 ^ k) :
    (decimal n).length ≤ k := by
  rw [length_decimal]
  exact max_le hk ((Nat.digits_length_le_iff (by decide) n).2 h)

end Lib
