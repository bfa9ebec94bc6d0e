import EndlessHole.Lib.Fault
import Mathlib

/-!
# Big-endian words and C strings in byte strings

Binary formats store 32-bit words in big-endian order, pad fields to whole words with zero bytes,
and end strings with a NUL byte. A reader of such a format is given the bytes from some offset
on; this library states what reading a word and scanning a string give back on the bytes a
writer produced:

* `u32be x` are the four bytes of `x`, most significant first; `ReadsU32BE read` says that
  `read` takes the value of the first four bytes and fails on fewer, and then
  `ReadsU32BE.read_u32be` reads `x` back from `u32be x ++ rest`; `readU32BE` is such a reader;
  `u64be`, `ReadsU64BE` and `readU64BE` are the same for 64-bit words;
* `pad4 bytes` pads `bytes` with zeros to a multiple of four;
* `cstrLen bytes` is the length of the string before the first NUL, and `cstrLen_append_nul`
  finds it after a string with no NUL; `fromBytesUntilNul` is the string itself, if there is a
  NUL;
* `sliceFrom` and `slice` are Rust's range indexing `&s[lo..]` and `&s[lo..hi]`, which panic
  when the range does not lie in the slice.
-/

namespace Bytes

/-- The four bytes of `x`, most significant first. -/
def u32be (x : Nat) : List UInt8 :=
  [UInt8.ofNat (x / 2 ^ 24), UInt8.ofNat (x / 2 ^ 16), UInt8.ofNat (x / 2 ^ 8), UInt8.ofNat x]

/-- The value of four bytes, most significant first. -/
def ofBE (b0 b1 b2 b3 : UInt8) : Nat :=
  b0.toNat * 2 ^ 24 + b1.toNat * 2 ^ 16 + b2.toNat * 2 ^ 8 + b3.toNat

/-- `read` reads a big-endian 32-bit word from the start of its bytes, and fails (`none`) when
there are fewer than four. -/
structure ReadsU32BE (read : List UInt8 → Option Nat) : Prop where
  four : ∀ b0 b1 b2 b3 rest, read (b0 :: b1 :: b2 :: b3 :: rest) = some (ofBE b0 b1 b2 b3)
  short : ∀ bytes, bytes.length < 4 → read bytes = none

/-- The reader of big-endian words: the first four bytes, most significant first, and `none` on
fewer. -/
def readU32BE : List UInt8 → Option Nat
  | b0 :: b1 :: b2 :: b3 :: _ => some (ofBE b0 b1 b2 b3)
  | _ => none

theorem readsU32BE_readU32BE : ReadsU32BE readU32BE where
  four _ _ _ _ _ := rfl
  short bytes h := by
    match bytes, h with
    | [], _ => rfl
    | [_], _ => rfl
    | [_, _], _ => rfl
    | [_, _, _], _ => rfl
    | _ :: _ :: _ :: _ :: _, h => simp only [List.length_cons] at h; omega

@[simp] theorem length_u32be (x : Nat) : (u32be x).length = 4 := rfl

theorem ofBE_u32be_mod (x : Nat) :
    ofBE (UInt8.ofNat (x / 2 ^ 24)) (UInt8.ofNat (x / 2 ^ 16)) (UInt8.ofNat (x / 2 ^ 8))
      (UInt8.ofNat x) = x % 2 ^ 32 := by
  simp only [ofBE, UInt8.toNat_ofNat']
  omega

theorem ofBE_u32be {x : Nat} (h : x < 2 ^ 32) :
    ofBE (UInt8.ofNat (x / 2 ^ 24)) (UInt8.ofNat (x / 2 ^ 16)) (UInt8.ofNat (x / 2 ^ 8))
      (UInt8.ofNat x) = x := by
  rw [ofBE_u32be_mod, Nat.mod_eq_of_lt h]

theorem ReadsU32BE.read_u32be {read : List UInt8 → Option Nat} (hread : ReadsU32BE read)
    {x : Nat} (h : x < 2 ^ 32) (rest : List UInt8) : read (u32be x ++ rest) = some x := by
  rw [u32be, List.cons_append, List.cons_append, List.cons_append, List.cons_append,
    List.nil_append, hread.four, ofBE_u32be h]

theorem length_flatMap_u32be (ws : List Nat) : (ws.flatMap u32be).length = 4 * ws.length := by
  induction ws with
  | nil => rfl
  | cons w ws ih =>
    rw [List.flatMap_cons, List.length_append, ih, length_u32be, List.length_cons]
    omega

theorem flatMap_u32be_eq_append {ws : List Nat} {i : Nat} (hi : i < ws.length) :
    ws.flatMap u32be =
      (ws.take i).flatMap u32be ++ u32be (ws.getD i 0) ++ (ws.drop (i + 1)).flatMap u32be := by
  conv => lhs; rw [← List.take_append_drop i ws, List.drop_eq_getElem_cons hi]
  rw [List.flatMap_append, List.flatMap_cons, ← List.getElem_eq_getD 0, List.append_assoc]

theorem length_flatMap_of_length_eq {β : Type} {f : β → List UInt8} {k : Nat}
    (hf : ∀ x, (f x).length = k) (l : List β) : (l.flatMap f).length = k * l.length := by
  induction l with
  | nil => simp
  | cons x l ih =>
    rw [List.flatMap_cons, List.length_append, ih, hf, List.length_cons, Nat.mul_succ,
      Nat.add_comm]

theorem drop_flatMap_of_length_eq {β : Type} {f : β → List UInt8} {k : Nat}
    (hf : ∀ x, (f x).length = k) {l : List β} {i : Nat} (hi : i < l.length) :
    (l.flatMap f).drop (k * i) = f l[i] ++ (l.drop (i + 1)).flatMap f := by
  have hpre : ((l.take i).flatMap f).length = k * i := by
    rw [length_flatMap_of_length_eq hf, List.length_take_of_le hi.le]
  conv => lhs; rw [← List.take_append_drop i l, List.drop_eq_getElem_cons hi]
  rw [List.flatMap_append, List.flatMap_cons, List.drop_left' hpre]

/-- The eight bytes of `x`, most significant first. -/
def u64be (x : Nat) : List UInt8 := u32be (x / 2 ^ 32) ++ u32be x

/-- `read` reads a big-endian 64-bit word from the start of its bytes, and fails (`none`) when
there are fewer than eight. -/
structure ReadsU64BE (read : List UInt8 → Option Nat) : Prop where
  eight : ∀ b0 b1 b2 b3 b4 b5 b6 b7 rest,
    read (b0 :: b1 :: b2 :: b3 :: b4 :: b5 :: b6 :: b7 :: rest) =
      some (ofBE b0 b1 b2 b3 * 2 ^ 32 + ofBE b4 b5 b6 b7)
  short : ∀ bytes, bytes.length < 8 → read bytes = none

def readU64BE : List UInt8 → Option Nat
  | b0 :: b1 :: b2 :: b3 :: b4 :: b5 :: b6 :: b7 :: _ =>
    some (ofBE b0 b1 b2 b3 * 2 ^ 32 + ofBE b4 b5 b6 b7)
  | _ => none

theorem readsU64BE_readU64BE : ReadsU64BE readU64BE where
  eight _ _ _ _ _ _ _ _ _ := rfl
  short bytes h := by
    unfold readU64BE
    split
    · simp only [List.length_cons] at h
      omega
    · rfl

@[simp] theorem length_u64be (x : Nat) : (u64be x).length = 8 := rfl

theorem ReadsU64BE.read_u64be {read : List UInt8 → Option Nat} (hread : ReadsU64BE read)
    {x : Nat} (h : x < 2 ^ 64) (rest : List UInt8) : read (u64be x ++ rest) = some x := by
  simp only [u64be, u32be, List.cons_append, List.nil_append]
  rw [hread.eight, ofBE_u32be_mod, ofBE_u32be_mod]
  congr 1
  omega

/-- `bytes` padded with zeros to a multiple of four bytes. -/
def pad4 (bytes : List UInt8) : List UInt8 :=
  bytes ++ List.replicate ((4 - bytes.length % 4) % 4) 0

theorem length_pad4 (bytes : List UInt8) :
    (pad4 bytes).length = bytes.length + (4 - bytes.length % 4) % 4 := by
  simp [pad4]

/-- The length of the C string at the start of `bytes`: the bytes before the first NUL, or all of
them. -/
def cstrLen (bytes : List UInt8) : Nat := (bytes.takeWhile (· != 0)).length

@[simp] theorem cstrLen_nil : cstrLen [] = 0 := rfl

theorem cstrLen_cons (b : UInt8) (bytes : List UInt8) :
    cstrLen (b :: bytes) = if b = 0 then 0 else cstrLen bytes + 1 := by
  by_cases hb : b = 0 <;> simp [cstrLen, hb]

theorem takeWhile_append_nul {s : List UInt8} (hs : (0 : UInt8) ∉ s) (rest : List UInt8) :
    (s ++ 0 :: rest).takeWhile (· != 0) = s := by
  have hall : s.takeWhile (· != 0) = s :=
    List.takeWhile_eq_self_iff.2 fun x hx => by simpa using fun e : x = 0 => hs (e ▸ hx)
  rw [List.takeWhile_append, hall, if_pos rfl]
  simp

theorem cstrLen_append_nul {s : List UInt8} (hs : (0 : UInt8) ∉ s) (rest : List UInt8) :
    cstrLen (s ++ 0 :: rest) = s.length := by
  rw [cstrLen, takeWhile_append_nul hs]

/-- `CStr::from_bytes_until_nul`: the bytes before the first NUL, or `none` when there is no
NUL. -/
def fromBytesUntilNul (bytes : List UInt8) : Option (List UInt8) :=
  if (0 : UInt8) ∈ bytes then some (bytes.takeWhile (· != 0)) else none

theorem fromBytesUntilNul_append_nul {s : List UInt8} (hs : (0 : UInt8) ∉ s)
    (rest : List UInt8) : fromBytesUntilNul (s ++ 0 :: rest) = some s := by
  rw [fromBytesUntilNul, if_pos (by simp), takeWhile_append_nul hs]

/-- Every byte string is a run of NUL-terminated strings with no NUL inside, then a tail with no
NUL. -/
theorem exists_nul_terminated (bytes : List UInt8) :
    ∃ (ss : List (List UInt8)) (tail : List UInt8), (∀ s ∈ ss, (0 : UInt8) ∉ s) ∧
      (0 : UInt8) ∉ tail ∧ bytes = ss.flatMap (· ++ [0]) ++ tail := by
  induction bytes with
  | nil => exact ⟨[], [], by simp, by simp, rfl⟩
  | cons b rest ih =>
    obtain ⟨ss, tail, hss, htail, rfl⟩ := ih
    by_cases hb : b = 0
    · -- `b` ends an empty string in front of the others
      subst hb
      refine ⟨[] :: ss, tail, ?_, htail, by simp⟩
      simpa using hss
    · cases ss with
      | nil => exact ⟨[], b :: tail, by simp, by simp [Ne.symm hb, htail], by simp⟩
      | cons s ss =>
        refine ⟨(b :: s) :: ss, tail, ?_, htail, by simp⟩
        simp only [List.mem_cons, forall_eq_or_imp] at hss ⊢
        exact ⟨by simp [Ne.symm hb, hss.1], hss.2⟩

/-- The bytes of an ASCII string, as a byte string literal `b"..."` has them. -/
def ascii (s : String) : List UInt8 := s.toList.map fun c => UInt8.ofNat c.toNat

/-! ## Range indexing -/

section Slices

variable {α ε : Type}

/-- `&s[lo..]`: the elements from `lo` on; panics when `lo` is past the end. -/
def sliceFrom (s : List α) (lo : Nat) : Except (Fault ε) (List α) :=
  if lo ≤ s.length then .ok (s.drop lo) else .error .panic

/-- `&s[lo..hi]`: the elements from `lo` up to `hi`; panics unless `lo ≤ hi ≤ s.len()`. -/
def slice (s : List α) (lo hi : Nat) : Except (Fault ε) (List α) :=
  if lo ≤ hi ∧ hi ≤ s.length then .ok ((s.take hi).drop lo) else .error .panic

theorem slice_eq_ok {s x : List α} {lo hi : Nat} (h : (slice s lo hi : Except (Fault ε) _) = .ok x) :
    lo ≤ hi ∧ hi ≤ s.length ∧ x = (s.take hi).drop lo := by
  unfold slice at h
  split at h
  · cases h
    exact ⟨by omega, by omega, rfl⟩
  · cases h

theorem sliceFrom_of_le {s : List α} {lo : Nat} (h : lo ≤ s.length) :
    (sliceFrom s lo : Except (Fault ε) _) = .ok (s.drop lo) :=
  if_pos h

theorem lt_length_of_drop_eq_cons {s rest : List α} {lo : Nat} {a : α}
    (h : s.drop lo = a :: rest) : lo < s.length := by
  by_contra hle
  rw [List.drop_eq_nil_of_le (by omega)] at h
  cases h

theorem length_le_of_drop_eq {s pre rest : List α} {lo : Nat} (h : s.drop lo = pre ++ rest) :
    pre.length ≤ s.length - lo := by
  rw [← List.length_drop, h, List.length_append]
  omega

theorem drop_add_of_drop_eq {s pre rest : List α} {lo : Nat} (h : s.drop lo = pre ++ rest) :
    s.drop (lo + pre.length) = rest := by
  rw [← List.drop_drop, h, List.drop_left' rfl]

theorem slice_of_drop_eq {s mid post : List α} {lo : Nat} (hlo : lo ≤ s.length)
    (h : s.drop lo = mid ++ post) :
    (slice s lo (lo + mid.length) : Except (Fault ε) _) = .ok mid := by
  have hlen : lo + mid.length ≤ s.length := by
    have := length_le_of_drop_eq h
    omega
  rw [slice, if_pos ⟨by omega, hlen⟩, ← List.take_drop, h, List.take_left' rfl]

end Slices

end Bytes
