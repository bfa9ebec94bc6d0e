import Mathlib.Data.Nat.Basic
import Mathlib.Data.List.Rotate
import Mathlib.Tactic.IntervalCases
import Mathlib.Tactic.Ring

/-!
# Integer and pointer operations of a 64-bit target

Machine words are modelled by `Nat`, and each operation of the standard library that a model
uses is a definition here, with the documented behaviour on a 64-bit target:

* `checkedNextPowerOfTwo n` is `usize::checked_next_power_of_two`: the least power of two at
  least `n`, or `none` when that power does not fit in 64 bits;
* `alignOffset p a` is `<*const u8>::align_offset(a)`: the number of bytes to add to `p` to
  reach a multiple of `a` (for byte pointers the offset is always exact);
* `alignUp x a` is the rounding up `(x + a - 1) & !(a - 1)` that code writes by hand for a
  power of two `a`;
* `wrappingAdd`, `saturatingAdd`, `wrappingSub`, `shl`, `max` and `trailingZeros` of `usize`, and
  `U32.leadingZeros`, `U32.shl` and `U32.rotateLeft`: the word operations of the logger, the
  handle allocator, the handle map, the device tree's registers and the memory map.

The lemmas are the facts about these that the models use: where the result lies, and that it is
aligned. A `u32` is also seen as its four bytes, most significant first (`U32.bytes`): rotating
it left by a byte rotates that list (`bytes_iterate_rotateLeft`), and shifting a value of `d`
bytes up by `32 - 8 * d` bits moves its bytes to the top (`bytes_shl`).
-/

namespace Usize

/-- `usize::checked_next_power_of_two` on a 64-bit target. -/
def checkedNextPowerOfTwo (n : Nat) : Option Nat :=
  if n ≤ 2 ^ 63 then some n.nextPowerOfTwo else none

theorem checkedNextPowerOfTwo_eq_some {n m : Nat} :
    checkedNextPowerOfTwo n = some m ↔ n ≤ 2 ^ 63 ∧ m = n.nextPowerOfTwo := by
  unfold checkedNextPowerOfTwo
  constructor
  · intro h
    split_ifs at h with hn
    exact ⟨hn, (Option.some.inj h).symm⟩
  · rintro ⟨hn, rfl⟩
    exact if_pos hn

theorem two_pow_log2_nextPowerOfTwo (n : Nat) : 2 ^ n.nextPowerOfTwo.log2 = n.nextPowerOfTwo := by
  obtain ⟨k, hk⟩ := Nat.isPowerOfTwo_nextPowerOfTwo n
  rw [hk, Nat.log2_two_pow]

/-- `ptr.align_offset(align)` for a byte pointer at address `p`. -/
def alignOffset (p align : Nat) : Nat :=
  (align - p % align) % align

theorem add_alignOffset_mod {p align : Nat} (h : 0 < align) : (p + alignOffset p align) % align = 0 := by
  unfold alignOffset
  have hlt : p % align < align := Nat.mod_lt _ h
  by_cases h0 : p % align = 0
  · rw [h0, Nat.sub_zero, Nat.mod_self, Nat.add_zero, h0]
  · rw [Nat.mod_eq_of_lt (by omega : align - p % align < align)]
    have hp : p = align * (p / align) + p % align := (Nat.div_add_mod p align).symm
    have : p + (align - p % align) = align * (p / align + 1) := by
      rw [Nat.mul_add, Nat.mul_one]; omega
    rw [this, Nat.mul_mod_right]

theorem alignOffset_mod (p align : Nat) : alignOffset (p % align) align = alignOffset p align := by
  simp [alignOffset]

/-- Round `x` up to a multiple of the power of two `align`, as `(x + align - 1) & !(align - 1)`.
On `Nat` the mask is the rounding down of the sum. -/
def alignUp (x align : Nat) : Nat :=
  (x + align - 1) / align * align

theorem le_alignUp {x align : Nat} (h : 0 < align) : x ≤ alignUp x align := by
  unfold alignUp
  have := Nat.lt_div_mul_add (a := x + align - 1) h
  omega

theorem alignUp_lt {x align : Nat} (h : 0 < align) : alignUp x align < x + align := by
  unfold alignUp
  have := Nat.div_mul_le_self (x + align - 1) align
  omega

theorem alignUp_mod {x align : Nat} : alignUp x align % align = 0 := by
  simp [alignUp]

theorem alignUp_mono {x y align : Nat} (h : x ≤ y) : alignUp x align ≤ alignUp y align := by
  unfold alignUp
  exact Nat.mul_le_mul_right _ (Nat.div_le_div_right (by omega))

theorem alignUp_of_mod_eq_zero {x align : Nat} (h : 0 < align) (hx : x % align = 0) :
    alignUp x align = x := by
  unfold alignUp
  obtain ⟨q, rfl⟩ := Nat.dvd_of_mod_eq_zero hx
  have : (align * q + align - 1) / align = q := by
    rw [show align * q + align - 1 = (align - 1) + align * q by omega,
      Nat.add_mul_div_left _ _ h, Nat.div_eq_of_lt (by omega), Nat.zero_add]
  rw [this, Nat.mul_comm]

theorem alignUp_add_mul {x k align : Nat} (h : 0 < align) :
    alignUp (align * k + x) align = align * k + alignUp x align := by
  unfold alignUp
  have : align * k + x + align - 1 = (x + align - 1) + align * k := by omega
  rw [this, Nat.add_mul_div_left _ _ h, Nat.add_mul]
  ring

def bits : Nat := 64

def max : Nat := 2 ^ 64 - 1

/-- `usize::wrapping_add`, and `fetch_add` on an `AtomicUsize`. -/
def wrappingAdd (a b : Nat) : Nat := (a + b) % 2 ^ 64

/-- `usize::saturating_add`: the sum, or `usize::MAX` where it would overflow. -/
def saturatingAdd (a b : Nat) : Nat := min (a + b) max

/-- `x << k` on `usize` for `k < 64`: the bits shifted past bit 63 are dropped. -/
def shl (x k : Nat) : Nat := x * 2 ^ k % 2 ^ 64

/-- `usize::wrapping_sub`. -/
def wrappingSub (a b : Nat) : Nat := (a % 2 ^ 64 + (2 ^ 64 - b % 2 ^ 64)) % 2 ^ 64

/-- `usize::trailing_zeros`: the number of zero bits below the lowest one (64 for zero). -/
def trailingZeros (x : Nat) : Nat := go 64 x
where
  go : Nat → Nat → Nat
    | 0, _ => 0
    | k + 1, x => if x % 2 = 1 then 0 else 1 + go k (x / 2)

end Usize

namespace U32

/-- `u32::leading_zeros`. -/
def leadingZeros (x : Nat) : Nat := if x = 0 then 32 else 31 - Nat.log2 x

/-- `x << k` on `u32` for `k < 32`: the bits shifted past bit 31 are dropped. -/
def shl (x k : Nat) : Nat := x * 2 ^ k % 2 ^ 32

/-- `u32::rotate_left`: the bits shifted past bit 31 come back in at bit 0. -/
def rotateLeft (x k : Nat) : Nat :=
  x * 2 ^ (k % 32) % 2 ^ 32 + x % 2 ^ 32 / 2 ^ (32 - k % 32)

/-! ### Bytes -/

/-- The four bytes of a `u32`, most significant first. -/
def bytes (x : Nat) : List Nat := [x / 2 ^ 24 % 256, x / 2 ^ 16 % 256, x / 2 ^ 8 % 256, x % 256]

@[simp] theorem length_bytes (x : Nat) : (bytes x).length = 4 := rfl

theorem getElem_bytes_three (x : Nat) : (bytes x)[3] = x % 256 := rfl

theorem rotateLeft_eight (x : Nat) : rotateLeft x 8 = x % 2 ^ 24 * 256 + x / 2 ^ 24 % 256 := by
  show x * 2 ^ 8 % 2 ^ 32 + x % 2 ^ 32 / 2 ^ 24 = _
  omega

theorem rotateLeft_eight_lt (x : Nat) : rotateLeft x 8 < 2 ^ 32 := by
  rw [rotateLeft_eight]
  omega

theorem bytes_digits {b3 b2 b1 b0 : Nat} (h3 : b3 < 256) (h2 : b2 < 256) (h1 : b1 < 256)
    (h0 : b0 < 256) : bytes (b3 * 2 ^ 24 + b2 * 2 ^ 16 + b1 * 2 ^ 8 + b0) = [b3, b2, b1, b0] := by
  simp only [bytes, List.cons.injEq, and_true]
  omega

theorem mod_eq_digits (x : Nat) : x % 2 ^ 32 =
    x / 2 ^ 24 % 256 * 2 ^ 24 + x / 2 ^ 16 % 256 * 2 ^ 16 + x / 2 ^ 8 % 256 * 2 ^ 8 + x % 256 := by
  omega

theorem rotateLeft_eight_digits {b3 b2 b1 b0 : Nat} (h3 : b3 < 256) (h2 : b2 < 256)
    (h1 : b1 < 256) (h0 : b0 < 256) :
    rotateLeft (b3 * 2 ^ 24 + b2 * 2 ^ 16 + b1 * 2 ^ 8 + b0) 8 =
      b2 * 2 ^ 24 + b1 * 2 ^ 16 + b0 * 2 ^ 8 + b3 := by
  rw [rotateLeft_eight]
  omega

theorem bytes_rotateLeft_eight (x : Nat) : bytes (rotateLeft x 8) = (bytes x).rotate 1 := by
  -- the rotation reads only the low 32 bits, which the four bytes are
  have hmod : rotateLeft x 8 = rotateLeft (x % 2 ^ 32) 8 := by
    rw [rotateLeft_eight, rotateLeft_eight]
    omega
  rw [hmod, mod_eq_digits, rotateLeft_eight_digits (by omega) (by omega) (by omega) (by omega),
    bytes_digits (by omega) (by omega) (by omega) (by omega)]
  rfl

theorem bytes_iterate_rotateLeft (x k : Nat) :
    bytes ((rotateLeft · 8)^[k] x) = (bytes x).rotate k := by
  induction k with
  | zero => simp
  | succ k ih => rw [Function.iterate_succ_apply', bytes_rotateLeft_eight, ih, List.rotate_rotate]

theorem iterate_rotateLeft_lt {x : Nat} (hx : x < 2 ^ 32) (k : Nat) :
    (rotateLeft · 8)^[k] x < 2 ^ 32 := by
  cases k with
  | zero => exact hx
  | succ k =>
    rw [Function.iterate_succ_apply']
    exact rotateLeft_eight_lt _

theorem eq_of_bytes_eq {x y : Nat} (hx : x < 2 ^ 32) (hy : y < 2 ^ 32) (h : bytes x = bytes y) :
    x = y := by
  rw [← Nat.mod_eq_of_lt hx, ← Nat.mod_eq_of_lt hy, mod_eq_digits, mod_eq_digits]
  simp only [bytes, List.cons.injEq, and_true] at h
  omega

/-- A value of `d` bytes shifted up by the other `4 - d` bytes: its bytes come first, then
zeros. -/
theorem bytes_shl {d x : Nat} (hd : 1 ≤ d ∧ d ≤ 4) (hx : x < 2 ^ (8 * d)) :
    bytes (shl x (32 - 8 * d)) = (bytes x).drop (4 - d) ++ List.replicate (4 - d) 0 := by
  obtain ⟨h1, h4⟩ := hd
  interval_cases d <;> simp [bytes, shl] at hx ⊢ <;> omega

theorem take_bytes {d x : Nat} (hd : d ≤ 4) (hx : x < 2 ^ (8 * d)) :
    (bytes x).take (4 - d) = List.replicate (4 - d) 0 := by
  interval_cases d <;> simp [bytes] at hx ⊢ <;> omega

end U32
