import EndlessHole.Lib.Usize
import Mathlib.Data.Nat.Bitwise

/-!
# A `usize` word as a set of bits

A bit set keeps one bit per element in `usize` words. Its operations are word arithmetic:
`trailing_zeros` of the complement finds the lowest clear bit, `|` with a power of two sets a
bit, `&` with the complement of one clears it, and `&` with a power of two tests it. Each fact
here says what such a word is bit by bit, in `Nat.testBit`, for a word below `2^64`:

* `trailingZeros_spec`: `trailingZeros x` is the lowest set bit of a nonzero word;
* `testBit_max_sub`: `usize::MAX - x` is the complement `!x`;
* `and_two_pow_ne_zero`: `x & (1 << b) != 0` is bit `b` of `x`;
* `testBit_and_max_sub_two_pow`: `x & !(1 << b)` is `x` without bit `b`.
-/

namespace Usize

theorem bits_eq : bits = 64 := rfl

theorem max_eq : max = 2 ^ 64 - 1 := rfl

theorem trailingZeros_go_spec :
    ∀ (k x : Nat), x ≠ 0 → x < 2 ^ k →
      trailingZeros.go k x < k ∧ x.testBit (trailingZeros.go k x) ∧
        ∀ j < trailingZeros.go k x, x.testBit j = false := by
  intro k
  induction k with
  | zero =>
    intro x hx hlt
    omega
  | succ k ih =>
    intro x hx hlt
    rw [trailingZeros.go]
    split
    · -- bit 0 is set
      rename_i hodd
      exact ⟨Nat.succ_pos k, by simp [hodd], fun j hj => absurd hj (Nat.not_lt_zero j)⟩
    · -- bit 0 is clear: the count goes on in `x / 2`, one bit up
      rename_i heven
      obtain ⟨hlt', hbit, hbelow⟩ := ih (x / 2) (by omega) (by rw [Nat.pow_succ] at hlt; omega)
      refine ⟨by omega, ?_, ?_⟩
      · rw [Nat.add_comm, Nat.testBit_succ]
        exact hbit
      · intro j hj
        cases j with
        | zero => simpa using heven
        | succ j =>
          rw [Nat.testBit_succ]
          exact hbelow j (by omega)

/-- `trailingZeros x` of a nonzero word is its lowest set bit. -/
theorem trailingZeros_spec {x : Nat} (hx : x ≠ 0) (hlt : x < 2 ^ 64) :
    trailingZeros x < 64 ∧ x.testBit (trailingZeros x) ∧
      ∀ j < trailingZeros x, x.testBit j = false :=
  trailingZeros_go_spec 64 x hx hlt

theorem testBit_max_sub {x : Nat} (hx : x < 2 ^ 64) (j : Nat) :
    (max - x).testBit j = (decide (j < 64) && !x.testBit j) := by
  have hmax : max - x = 2 ^ 64 - (x + 1) := by
    simp only [max]
    omega
  rw [hmax, Nat.testBit_two_pow_sub_succ hx]

theorem testBit_of_lt {x j : Nat} (hx : x < 2 ^ 64) (hj : 64 ≤ j) : x.testBit j = false :=
  Nat.testBit_eq_false_of_lt (lt_of_lt_of_le hx (Nat.pow_le_pow_right (by decide) hj))

/-- `x & (1 << b) != 0` is bit `b` of `x`. -/
theorem and_two_pow_ne_zero (x b : Nat) : x &&& 2 ^ b ≠ 0 ↔ x.testBit b = true := by
  constructor
  · intro hne
    by_contra hbit
    apply hne
    apply Nat.eq_of_testBit_eq
    intro i
    rw [Nat.testBit_and, Nat.testBit_two_pow, Nat.zero_testBit]
    by_cases hi : b = i
    · subst hi
      simpa using hbit
    · simp [hi]
  · intro hbit hzero
    have h := congrArg (Nat.testBit · b) hzero
    simp only [Nat.testBit_and, Nat.testBit_two_pow_self, hbit, Bool.and_self,
      Nat.zero_testBit] at h
    exact Bool.noConfusion h

theorem testBit_and_max_sub_two_pow {x b : Nat} (hx : x < 2 ^ 64) (hb : b < 64) (j : Nat) :
    (x &&& (max - 2 ^ b)).testBit j = (x.testBit j && decide (j ≠ b)) := by
  rw [Nat.testBit_and, testBit_max_sub (Nat.pow_lt_pow_right (by decide) hb), Nat.testBit_two_pow]
  by_cases hj : j < 64
  · by_cases hjb : b = j
    · subst hjb
      simp
    · simp [hj, hjb, Ne.symm hjb]
  · simp [hj, testBit_of_lt hx (Nat.le_of_not_lt hj)]

theorem or_two_pow_lt {x b : Nat} (hx : x < 2 ^ 64) (hb : b < 64) : x ||| 2 ^ b < 2 ^ 64 :=
  Nat.or_lt_two_pow hx (Nat.pow_lt_pow_right (by decide) hb)

theorem and_lt {x : Nat} (hx : x < 2 ^ 64) (y : Nat) : x &&& y < 2 ^ 64 :=
  lt_of_le_of_lt Nat.and_le_left hx

/-- `^` with `2^j` sets bit `j` of a multiple of `2^(j+1)`: the upper buddy of a block at an even
multiple of its size. -/
theorem xor_two_pow_of_mod {x j : Nat} (h : x % 2 ^ (j + 1) = 0) : x ^^^ 2 ^ j = x + 2 ^ j := by
  obtain ⟨q, rfl⟩ := Nat.dvd_of_mod_eq_zero h
  have hx : 2 ^ (j + 1) * q = (2 * q) <<< j := by
    rw [Nat.shiftLeft_eq, pow_succ]
    ring
  have hpow : (2 : Nat) ^ j = 1 <<< j := by rw [Nat.shiftLeft_eq, one_mul]
  rw [hx, hpow, ← Nat.shiftLeft_xor_distrib, Nat.xor_one_of_even (even_two_mul q), Nat.shiftLeft_eq,
    Nat.shiftLeft_eq, Nat.shiftLeft_eq]
  ring

end Usize
