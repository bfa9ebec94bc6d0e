import EndlessHole.Lib.Bytes

/-!
# The flattened device tree iterator

The structure block of a flattened device tree (`fdt.rs`, `iter.rs` and `mod.rs` of
`kernel_core/src/platform/device_tree`) is a stream of big-endian 32-bit tokens, each followed by
its payload: a node's name with a NUL, a property's length, name offset and data, padded to four
bytes. `FlattenedTreeIter` walks it with one byte offset, `current_offset`.

The model keeps the two slices the iterator reads, `structure` (here `structureBlock`) and
`strings`, and the iterator as that device tree and its offset. `BigEndian::read_u32` of the
`byteorder` crate is a parameter `readU32`, with `none` where it panics; what it computes is
stated where a proof needs it (`Bytes.ReadsU32BE`). Every index out of range of the source is a
panic of the model, through `Bytes.slice`, `Bytes.sliceFrom` and `readU32`.
-/

namespace EndlessHole.Platform

namespace Fdt

/-- `fdt::TokenType`, the values that delimit the structure block. -/
inductive TokenType where
  | beginNode
  | endNode
  | prop
  | nop
  | «end»
  | unknown (x : Nat)
  deriving DecidableEq, Repr

/-- `TokenType::from(u32)`. -/
def TokenType.ofU32 : Nat → TokenType
  | 0x01 => .beginNode
  | 0x02 => .endNode
  | 0x03 => .prop
  | 0x04 => .nop
  | 0x09 => .end
  | x => .unknown x

/-- `fdt::Token`, what the iterator yields. -/
inductive Token where
  | startNode (name : List UInt8)
  | endNode
  | property (name data : List UInt8)
  deriving DecidableEq, Repr

end Fdt

open Fdt

/-- The slices of a `DeviceTree` that its iterators read. -/
structure DeviceTree where
  structureBlock : List UInt8
  strings : List UInt8
  deriving DecidableEq, Repr

structure FlattenedTreeIter where
  dt : DeviceTree
  currentOffset : Nat
  deriving DecidableEq, Repr

def DeviceTree.iterStructure (dt : DeviceTree) : FlattenedTreeIter := ⟨dt, 0⟩

/-- `pad_end_4b`: `numBytes` rounded up to a multiple of four. -/
def padEnd4b (numBytes : Nat) : Nat :=
  numBytes + if numBytes % 4 = 0 then 0 else 4 - numBytes % 4

/-- The `while` loop of `next` that moves `nameEnd` on while the byte there exists and is not
NUL. -/
def scanName (bytes : List UInt8) (nameEnd : Nat) : Nat :=
  match h : bytes[nameEnd]? with
  | some b => if b != 0 then scanName bytes (nameEnd + 1) else nameEnd
  | none => nameEnd
termination_by bytes.length - nameEnd
decreasing_by
  have := (List.getElem?_eq_some_iff.1 h).1
  omega

theorem le_padEnd4b (n : Nat) : n ≤ padEnd4b n := by
  unfold padEnd4b
  omega

theorem padEnd4b_le (n : Nat) : padEnd4b n ≤ n + 3 := by
  unfold padEnd4b
  split <;> omega

theorem scanName_eq (bytes : List UInt8) (nameEnd : Nat) :
    scanName bytes nameEnd = nameEnd + Bytes.cstrLen (bytes.drop nameEnd) := by
  fun_induction scanName bytes nameEnd with
  | case1 i b h hb ih =>
    have hi : i < bytes.length := (List.getElem?_eq_some_iff.1 h).1
    have hget : bytes[i] = b := (List.getElem?_eq_some_iff.1 h).2
    rw [ih, List.drop_eq_getElem_cons hi, hget, Bytes.cstrLen_cons, if_neg (by simpa using hb)]
    omega
  | case2 i b h hb =>
    have hi : i < bytes.length := (List.getElem?_eq_some_iff.1 h).1
    have hget : bytes[i] = b := (List.getElem?_eq_some_iff.1 h).2
    rw [List.drop_eq_getElem_cons hi, hget, Bytes.cstrLen_cons, if_pos (by simpa using hb)]
    omega
  | case3 i h =>
    rw [List.drop_eq_nil_of_le (by simpa using h)]
    simp

theorem le_scanName (bytes : List UInt8) (nameEnd : Nat) : nameEnd ≤ scanName bytes nameEnd := by
  rw [scanName_eq]
  omega

namespace FlattenedTreeIter

variable (readU32 : List UInt8 → Option Nat)

/-- `BigEndian::read_u32`, which panics on a slice of fewer than four bytes. -/
def readAt (bytes : List UInt8) : Except (Fault Empty) Nat :=
  match readU32 bytes with
  | some x => .ok x
  | none => .error .panic

/-- `Iterator::next`: the next token and the iterator after it; `none` at `FDT_END`. -/
def next (it : FlattenedTreeIter) : Except (Fault Empty) (Option Token × FlattenedTreeIter) := do
  let s := it.dt.structureBlock
  -- `&self.dt.structure[(self.current_offset - 4)..]`, after `current_offset += 4`
  if _h : it.currentOffset ≤ it.dt.structureBlock.length then
    let currentOffset := it.currentOffset + 4
    let token ← readAt readU32 (s.drop it.currentOffset)
    match TokenType.ofU32 token with
    | .beginNode =>
      let nameEnd := scanName s currentOffset
      let name ← Bytes.slice s currentOffset nameEnd
      pure (some (.startNode name), { it with currentOffset := padEnd4b (nameEnd + 1) })
    | .endNode => pure (some .endNode, { it with currentOffset := currentOffset })
    | .prop =>
      let length ← readAt readU32 (← Bytes.sliceFrom s currentOffset)
      let currentOffset := currentOffset + 4
      let nameOffset ← readAt readU32 (← Bytes.sliceFrom s currentOffset)
      let currentOffset := currentOffset + 4
      let nameEnd := scanName it.dt.strings nameOffset
      let name ← Bytes.slice it.dt.strings nameOffset nameEnd
      let data ← Bytes.slice s currentOffset (currentOffset + length)
      pure (some (.property name data),
        { it with currentOffset := currentOffset + padEnd4b length })
    | .nop => next { it with currentOffset := currentOffset }
    | .end => pure (none, { it with currentOffset := currentOffset })
    | .unknown _ => .error .panic
  else .error .panic
termination_by it.dt.structureBlock.length + 4 - it.currentOffset

theorem readAt_eq_ok {bytes : List UInt8} {x : Nat} :
    readAt readU32 bytes = .ok x ↔ readU32 bytes = some x := by
  unfold readAt
  split <;> simp_all

variable {readU32} in
theorem readAt_u32be (hread : Bytes.ReadsU32BE readU32) {rest : List UInt8} {x : Nat}
    (hx : x < 2 ^ 32) : readAt readU32 (Bytes.u32be x ++ rest) = .ok x :=
  (readAt_eq_ok readU32).2 (hread.read_u32be hx rest)

/-- `it'` is ahead of `it` on the same tree, at most four bytes past the end of its structure
block: what each call of `next` does, and what the loops over `next` measure. -/
def Advances (it it' : FlattenedTreeIter) : Prop :=
  it'.dt = it.dt ∧ it.currentOffset < it'.currentOffset ∧
    it'.currentOffset ≤ it.dt.structureBlock.length + 4

theorem Advances.trans {it₁ it₂ it₃ : FlattenedTreeIter} (h₁ : Advances it₁ it₂)
    (h₂ : Advances it₂ it₃) : Advances it₁ it₃ := by
  obtain ⟨hdt₁, hlt₁, hle₁⟩ := h₁
  obtain ⟨hdt₂, hlt₂, hle₂⟩ := h₂
  rw [hdt₁] at hle₂
  exact ⟨hdt₂.trans hdt₁, by omega, hle₂⟩

theorem next_progress {it it' : FlattenedTreeIter} {t : Option Token}
    (h : next readU32 it = .ok (t, it')) : Advances it it' := by
  -- on the bytes left, as `next` recurses at each `FDT_NOP`
  induction hm : it.dt.structureBlock.length + 4 - it.currentOffset using Nat.strong_induction_on
    generalizing it with
  | _ m ih =>
  rw [next] at h
  split at h
  case isFalse => cases h
  case isTrue hin =>
  obtain ⟨token, -, h⟩ := Fault.bind_eq_ok.1 h
  split at h
  case h_1 =>
    obtain ⟨name, hname, h⟩ := Fault.bind_eq_ok.1 h
    obtain ⟨-, rfl⟩ := Prod.mk.inj (Except.ok.inj h)
    have hend := (Bytes.slice_eq_ok hname).2.1
    have hstart := le_scanName it.dt.structureBlock (it.currentOffset + 4)
    have hpad := padEnd4b_le (scanName it.dt.structureBlock (it.currentOffset + 4) + 1)
    have hpad' := le_padEnd4b (scanName it.dt.structureBlock (it.currentOffset + 4) + 1)
    exact ⟨rfl, by dsimp only; omega, by dsimp only; omega⟩
  case h_2 =>
    obtain ⟨-, rfl⟩ := Prod.mk.inj (Except.ok.inj h)
    exact ⟨rfl, by dsimp only; omega, by dsimp only; omega⟩
  case h_3 =>
    simp only [Fault.bind_eq_ok] at h
    obtain ⟨_, _, length, _, _, _, _, _, _, _, data, hdata, h⟩ := h
    obtain ⟨-, rfl⟩ := Prod.mk.inj (Except.ok.inj h)
    have hend := (Bytes.slice_eq_ok hdata).2.1
    have hpad := padEnd4b_le length
    exact ⟨rfl, by dsimp only; omega, by dsimp only; omega⟩
  case h_4 =>
    have hnop : Advances it { it with currentOffset := it.currentOffset + 4 } :=
      ⟨rfl, by dsimp only; omega, by dsimp only; omega⟩
    exact hnop.trans (ih _ (by dsimp only; omega) h rfl)
  case h_5 =>
    obtain ⟨-, rfl⟩ := Prod.mk.inj (Except.ok.inj h)
    exact ⟨rfl, by dsimp only; omega, by dsimp only; omega⟩
  case h_6 => cases h

/-- The `for token in self` loop of `skip_node`, at nesting depth `depth`: it returns once the
depth comes back to zero, or when the iterator ends. -/
def skipNodeLoop (it : FlattenedTreeIter) (depth : Nat) : Except (Fault Empty) FlattenedTreeIter :=
  match h : next readU32 it with
  | .ok (some (.startNode _), it') => skipNodeLoop it' (depth + 1)
  | .ok (some .endNode, it') =>
    let depth := depth - 1
    if depth = 0 then pure it' else skipNodeLoop it' depth
  | .ok (some (.property _ _), it') => skipNodeLoop it' depth
  | .ok (none, it') => pure it'
  | .error e => .error e
termination_by it.dt.structureBlock.length + 5 - it.currentOffset
decreasing_by
  all_goals
    obtain ⟨hdt, hlt, hle⟩ := next_progress readU32 h
    rw [hdt]
    omega

theorem skipNodeLoop_of_next {it it' : FlattenedTreeIter} {t : Option Token} (depth : Nat)
    (h : next readU32 it = .ok (t, it')) :
    skipNodeLoop readU32 it depth =
      match t with
      | some (.startNode _) => skipNodeLoop readU32 it' (depth + 1)
      | some .endNode => if depth - 1 = 0 then pure it' else skipNodeLoop readU32 it' (depth - 1)
      | some (.property _ _) => skipNodeLoop readU32 it' depth
      | none => pure it' := by
  rw [skipNodeLoop]
  split <;> rename_i heq <;> rw [h] at heq <;> cases heq <;> rfl

/-- `skip_node`, called right after the iterator yielded the `StartNode` of the node to skip. -/
def skipNode (it : FlattenedTreeIter) : Except (Fault Empty) FlattenedTreeIter :=
  skipNodeLoop readU32 it 1

theorem skipNodeLoop_progress {it it' : FlattenedTreeIter} {depth : Nat}
    (h : skipNodeLoop readU32 it depth = .ok it') : Advances it it' := by
  induction hm : it.dt.structureBlock.length + 5 - it.currentOffset using Nat.strong_induction_on
    generalizing it depth with
  | _ m ih =>
  rw [skipNodeLoop] at h
  split at h
  case h_5 => cases h
  all_goals
    rename_i it₁ hnext
    have hadv := next_progress readU32 hnext
    have hlt : it₁.dt.structureBlock.length + 5 - it₁.currentOffset < m := by
      obtain ⟨hdt, hlt, hle⟩ := hadv
      rw [hdt]
      omega
  case h_1 => exact hadv.trans (ih _ hlt h rfl)
  case h_2 =>
    dsimp only at h
    split at h
    · cases h
      exact hadv
    · exact hadv.trans (ih _ hlt h rfl)
  case h_3 => exact hadv.trans (ih _ hlt h rfl)
  case h_4 =>
    cases h
    exact hadv

end FlattenedTreeIter

end EndlessHole.Platform
