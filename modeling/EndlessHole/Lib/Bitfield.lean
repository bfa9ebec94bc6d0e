import Mathlib
import EndlessHole.Lib.Fault

/-!
# Unsigned arithmetic with and without overflow checks, and `bitfield`'s accessors

Rust checks unsigned arithmetic for overflow when `overflow-checks` is on, as it is in the debug
profile: a difference below zero, a sum of `w` bits or more and a shift by `w` bits or more
panic. With the checks off the result wraps, and a shift takes its amount modulo `w`. The flag
`checks` says which; a word of `w` bits is a `Nat` below `2 ^ w`, and a `usize` has 64 bits.

* `Checked.sub`, `Checked.add`, `Checked.shl` and `Checked.shr` on words of `w` bits, with a lemma
  for each in range and the lemmas for an overflow with the checks on and off;
* `Bitfield.bitRange` and `Bitfield.setBitRange` are `BitRange::bit_range` and
  `BitRangeMut::set_bit_range` of the `bitfield` crate (0.17) for an unsigned storage and an
  unsigned value, as the getters and setters that `bitfield!` generates call them;
* `bitRange_panics_of_wide`: with the checks on, reading a field wider than the value type
  panics, where the getter computes how far to shift the value to clear what lies above the
  field.
-/

namespace Checked

variable {ε : Type} (checks : Bool) (w : Nat)

/-- An operation that overflowed: a panic with the checks on, the wrapped result `r` without. -/
def overflow (r : Nat) : Except (Fault ε) Nat :=
  if checks then .error .panic else .ok r

/-- `a - b` on words of `w` bits. -/
def sub (a b : Nat) : Except (Fault ε) Nat :=
  if b ≤ a then .ok (a - b) else overflow checks (a + 2 ^ w - b)

/-- `a + b` on words of `w` bits. -/
def add (a b : Nat) : Except (Fault ε) Nat :=
  if a + b < 2 ^ w then .ok (a + b) else overflow checks ((a + b) % 2 ^ w)

/-- `a << s` on a word of `w` bits: the bits shifted past bit `w - 1` are dropped. -/
def shl (a s : Nat) : Except (Fault ε) Nat :=
  if s < w then .ok (a * 2 ^ s % 2 ^ w) else overflow checks (a * 2 ^ (s % w) % 2 ^ w)

/-- `a >> s` on a word of `w` bits. -/
def shr (a s : Nat) : Except (Fault ε) Nat :=
  if s < w then .ok (a / 2 ^ s) else overflow checks (a / 2 ^ (s % w))

variable {checks w} {a b s : Nat}

@[simp] theorem sub_of_le (h : b ≤ a) : (sub checks w a b : Except (Fault ε) Nat) = .ok (a - b) :=
  if_pos h

@[simp] theorem add_of_lt (h : a + b < 2 ^ w) :
    (add checks w a b : Except (Fault ε) Nat) = .ok (a + b) :=
  if_pos h

@[simp] theorem shl_of_lt (h : s < w) :
    (shl checks w a s : Except (Fault ε) Nat) = .ok (a * 2 ^ s % 2 ^ w) :=
  if_pos h

@[simp] theorem shr_of_lt (h : s < w) : (shr checks w a s : Except (Fault ε) Nat) = .ok (a / 2 ^ s) :=
  if_pos h

theorem sub_panics (h : a < b) : (sub true w a b : Except (Fault ε) Nat) = .error .panic := by
  rw [sub, if_neg (Nat.not_le.2 h)]
  rfl

theorem sub_wraps (h : a < b) : (sub false w a b : Except (Fault ε) Nat) = .ok (a + 2 ^ w - b) := by
  rw [sub, if_neg (Nat.not_le.2 h)]
  rfl

theorem shl_wraps (h : w ≤ s) :
    (shl false w a s : Except (Fault ε) Nat) = .ok (a * 2 ^ (s % w) % 2 ^ w) := by
  rw [shl, if_neg (Nat.not_lt.2 h)]
  rfl

theorem shr_wraps (h : w ≤ s) : (shr false w a s : Except (Fault ε) Nat) = .ok (a / 2 ^ (s % w)) := by
  rw [shr, if_neg (Nat.not_lt.2 h)]
  rfl

end Checked

namespace Bitfield

variable {ε : Type} (checks : Bool)

/-- `BitRange::bit_range(msb, lsb)` of a `bits`-bit unsigned storage `x` into a `valueBits`-bit
unsigned value: shift the field up to the top and back down to bit `0`, truncate it to the value
type (`as`), then shift it up and down again by `valueBits - (msb - lsb + 1)` to clear what lies
above the field. -/
def bitRange (bits valueBits x msb lsb : Nat) : Except (Fault ε) Nat := do
  let up ← Checked.sub checks 64 (← Checked.sub checks 64 bits msb) 1
  let down ← Checked.add checks 64 up lsb
  let field := (← Checked.shr checks bits (← Checked.shl checks bits x up) down) % 2 ^ valueBits
  let clear ← Checked.sub checks 64 valueBits (← Checked.add checks 64 (← Checked.sub checks 64 msb lsb) 1)
  Checked.shr checks valueBits (← Checked.shl checks valueBits field clear) clear

/-- `BitRangeMut::set_bit_range(msb, lsb, value)` on a `bits`-bit unsigned storage `x`: a mask of
the field, made by shifting all ones up, down and up again, clears the field and lets the value,
shifted to `lsb`, in. -/
def setBitRange (bits x msb lsb value : Nat) : Except (Fault ε) Nat := do
  let up ← Checked.sub checks 64 (← Checked.sub checks 64 bits msb) 1
  let down ← Checked.add checks 64 up lsb
  let mask ← Checked.shl checks bits
    (← Checked.shr checks bits (← Checked.shl checks bits (2 ^ bits - 1) up) down) lsb
  let shifted ← Checked.shl checks bits value lsb
  pure ((x &&& (2 ^ bits - 1 - mask)) ||| (shifted &&& mask))

/-- A getter of a field wider than its value type panics when the checks are on: every shift
that places the field is in range, but `valueBits - (msb - lsb + 1)` is below zero. -/
theorem bitRange_panics_of_wide {bits valueBits x msb lsb : Nat} (hmsb : msb < bits)
    (hbits : bits < 2 ^ 64) (hlsb : lsb ≤ msb) (hwide : valueBits < msb - lsb + 1) :
    (bitRange true bits valueBits x msb lsb : Except (Fault ε) Nat) = .error .panic := by
  have hup : 1 ≤ bits - msb := by omega
  have hdown : bits - msb - 1 + lsb < 2 ^ 64 := by omega
  have hwidth : msb - lsb + 1 < 2 ^ 64 := by omega
  simp only [bitRange, Checked.sub_of_le (Nat.le_of_lt hmsb), Checked.sub_of_le hup,
    Checked.add_of_lt hdown, Checked.shl_of_lt (show bits - msb - 1 < bits by omega),
    Checked.shr_of_lt (show bits - msb - 1 + lsb < bits by omega), Checked.sub_of_le hlsb,
    Checked.add_of_lt hwidth, Checked.sub_panics hwide, Fault.ok_bind, Fault.error_bind]

end Bitfield
