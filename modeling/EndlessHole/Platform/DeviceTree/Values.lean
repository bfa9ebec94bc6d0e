import EndlessHole.Platform.DeviceTree.Iter
import EndlessHole.Lib.Usize
import EndlessHole.Lib.Iterator

/-!
# Property values

`Value::parse` of `kernel_core/src/platform/device_tree/mod.rs` types a property's bytes by the
property's name, as section 2.3 of the devicetree specification types the standard properties:
`compatible` is a list of strings, `model`, `status` and `device_type` are strings, `phandle`,
`#address-cells`, `#size-cells` and `virtual-reg` are 32-bit words, `reg` is an array of
address and size pairs, and anything else stays bytes. The `as_*` accessors return the payload
of one kind or a `ParseError::UnexpectedType` that names the property.

`RegistersIter` and `StringListIter` (`iter.rs`) walk the two compound values. A word is read
with `BigEndian::read_u32`, the parameter `readU32` of the iterator's model, which panics
(`none`) on fewer than four bytes.

`StringList::contains` is documented as membership in the list but searches the bytes
(`contains_is_substring_search`): it finds a piece of one string, or one that runs across a NUL.
-/

namespace EndlessHole.Platform

open Bytes

/-- The bytes of a `reg` property, with the number of 32-bit cells of an address and of a
size. -/
structure Registers where
  data : List UInt8
  addressCells : Nat
  sizeCells : Nat
  deriving DecidableEq, Repr

structure StringList where
  data : List UInt8
  deriving DecidableEq, Repr

inductive Value where
  | u32 (v : Nat)
  | u64 (v : Nat)
  | phandle (v : Nat)
  | string (s : List UInt8)
  | stringList (l : StringList)
  | bytes (data : List UInt8)
  | reg (regs : Registers)
  deriving DecidableEq, Repr

inductive ParseError where
  | propertyNotFound (name : String)
  | nodeNotFound (path : String)
  | unexpectedType (name : List UInt8) (value : Value) (expectedType : String)
  | unexpectedValue (name : List UInt8) (value : Value) (reason : String)
  deriving DecidableEq, Repr

namespace Value

variable (readU32 : List UInt8 → Option Nat)

/-- `Value::parse`. -/
def parse (name bytes : List UInt8) (addressCells sizeCells : Nat) :
    Except (Fault Empty) Value :=
  if name = ascii "compatible" then pure (.stringList ⟨bytes⟩)
  else if name = ascii "model" ∨ name = ascii "status" ∨ name = ascii "device_type" then
    pure (match fromBytesUntilNul bytes with
      | some s => .string s
      | none => .bytes bytes)
  else if name = ascii "phandle" then .phandle <$> FlattenedTreeIter.readAt readU32 bytes
  else if name = ascii "#address-cells" ∨ name = ascii "#size-cells" ∨
      name = ascii "virtual-reg" then
    .u32 <$> FlattenedTreeIter.readAt readU32 bytes
  else if name = ascii "reg" then pure (.reg ⟨bytes, addressCells, sizeCells⟩)
  else pure (.bytes bytes)

def intoU32 : Value → Option Nat
  | .u32 v => some v
  | _ => none

def intoU64 : Value → Option Nat
  | .u64 v => some v
  | _ => none

def intoPhandle : Value → Option Nat
  | .phandle v => some v
  | _ => none

def intoString : Value → Option (List UInt8)
  | .string s => some s
  | _ => none

def intoStrings : Value → Option StringList
  | .stringList l => some l
  | _ => none

def intoBytes : Value → Option (List UInt8)
  | .bytes data => some data
  | _ => none

def intoReg : Value → Option Registers
  | .reg regs => some regs
  | _ => none

/-- The `as_*` accessors: the payload that `into` finds, or `UnexpectedType` with the property's
name, the value and `expectedType`. -/
def asKind {α : Type} (into : Value → Option α) (expectedType : String) (v : Value)
    (name : List UInt8) : Except ParseError α :=
  match into v with
  | some x => .ok x
  | none => .error (.unexpectedType name v expectedType)

def asU32 (v : Value) (name : List UInt8) : Except ParseError Nat := asKind intoU32 "u32" v name

def asU64 (v : Value) (name : List UInt8) : Except ParseError Nat := asKind intoU64 "u64" v name

def asPhandle (v : Value) (name : List UInt8) : Except ParseError Nat :=
  asKind intoPhandle "phandle" v name

def asString (v : Value) (name : List UInt8) : Except ParseError (List UInt8) :=
  asKind intoString "string" v name

def asStrings (v : Value) (name : List UInt8) : Except ParseError StringList :=
  asKind intoStrings "stringlist" v name

def asBytes (v : Value) (name : List UInt8) : Except ParseError (List UInt8) :=
  asKind intoBytes "bytes" v name

def asReg (v : Value) (name : List UInt8) : Except ParseError Registers :=
  asKind intoReg "reg" v name

end Value

/-! ## Strings -/

namespace StringList

/-- `StringList::contains`: whether `s` occurs in the bytes; `windows` panics on an empty `s`. -/
def contains (l : StringList) (s : List UInt8) : Except (Fault Empty) Bool := do
  Fault.assert (s.length != 0)
  pure ((List.range (l.data.length + 1 - s.length)).any fun i => (l.data.drop i).take s.length == s)

theorem any_window_eq_true_iff (data s : List UInt8) :
    ((List.range (data.length + 1 - s.length)).any fun i => (data.drop i).take s.length == s) =
      true ↔ s <:+: data := by
  rw [List.any_eq_true]
  constructor
  · rintro ⟨i, -, hi⟩
    rw [← beq_iff_eq.1 hi]
    exact (List.take_prefix _ _).isInfix.trans (List.drop_suffix _ _).isInfix
  · rintro ⟨a, b, rfl⟩
    refine ⟨a.length, ?_, ?_⟩
    · simp only [List.mem_range, List.length_append]
      omega
    · rw [List.append_assoc, List.drop_left, List.take_left, beq_self_eq_true]

theorem contains_eq (l : StringList) (s : List UInt8) :
    l.contains s = if s = [] then .error .panic else .ok (decide (s <:+: l.data)) := by
  unfold contains
  by_cases hs : s = []
  · subst hs
    rfl
  · have hlen : (s.length != 0) = true := by simpa using hs
    rw [hlen, Fault.assert_true, Fault.ok_bind, if_neg hs]
    congr 1
    exact Bool.eq_iff_iff.2 ((any_window_eq_true_iff l.data s).trans decide_eq_true_iff.symm)

end StringList

structure StringListIter where
  data : List UInt8
  currentOffset : Nat
  deriving DecidableEq, Repr

def StringList.iter (l : StringList) : StringListIter := ⟨l.data, 0⟩

/-- `StringListIter::next`: the string up to the next NUL; `None` at the end of the data, or
where no NUL is left. -/
def StringListIter.next (it : StringListIter) :
    Except (Fault Empty) (Option (List UInt8) × StringListIter) :=
  if it.currentOffset ≥ it.data.length then pure (none, it)
  else do
    let rest ← sliceFrom it.data it.currentOffset
    match fromBytesUntilNul rest with
    | some s => pure (some s, { it with currentOffset := it.currentOffset + (s.length + 1) })
    | none => pure (none, it)

namespace StringListIter

theorem next_of_drop_eq {it : StringListIter} {s rest : List UInt8}
    (h : it.data.drop it.currentOffset = s ++ 0 :: rest) (hs : (0 : UInt8) ∉ s) :
    it.next = .ok (some s, { it with currentOffset := it.currentOffset + (s.length + 1) }) := by
  have hlt : it.currentOffset < it.data.length := by
    have := length_le_of_drop_eq (h.trans (List.append_nil _).symm)
    simp only [List.length_append, List.length_cons] at this
    omega
  simp only [next, if_neg (Nat.not_le.2 hlt), sliceFrom_of_le hlt.le, Fault.ok_bind, h,
    fromBytesUntilNul_append_nul hs]
  rfl

theorem next_of_nul_free {it : StringListIter} (h : (0 : UInt8) ∉ it.data.drop it.currentOffset) :
    it.next = .ok (none, it) := by
  unfold next
  split
  · rfl
  · rename_i hlt
    rw [sliceFrom_of_le (by omega), Fault.ok_bind]
    simp only [fromBytesUntilNul, if_neg h]
    rfl

theorem yields_of_drop_eq {ss : List (List UInt8)} (hss : ∀ s ∈ ss, (0 : UInt8) ∉ s) :
    ∀ {it : StringListIter} {rest : List UInt8},
      it.data.drop it.currentOffset = ss.flatMap (· ++ [0]) ++ rest →
      Iterator.Yields next it ss ⟨it.data, it.currentOffset + (ss.flatMap (· ++ [0])).length⟩ := by
  induction ss with
  | nil =>
    intro it rest _
    simp
  | cons s ss ih =>
    intro it rest h
    simp only [List.mem_cons, forall_eq_or_imp] at hss
    have hdrop : it.data.drop it.currentOffset = s ++ 0 :: (ss.flatMap (· ++ [0]) ++ rest) := by
      rw [h, List.flatMap_cons]
      simp
    have hrest : it.data.drop (it.currentOffset + (s.length + 1)) =
        ss.flatMap (· ++ [0]) ++ rest := by
      rw [← List.drop_drop, hdrop]
      simp
    have hoff : it.currentOffset + ((s :: ss).flatMap (· ++ [0])).length =
        it.currentOffset + (s.length + 1) + (ss.flatMap (· ++ [0])).length := by
      simp only [List.flatMap_cons, List.length_append, List.length_singleton]
      omega
    rw [hoff]
    exact Iterator.Yields.cons (next_of_drop_eq hdrop hss.1)
      (@ih hss.2 ⟨it.data, it.currentOffset + (s.length + 1)⟩ rest hrest)

end StringListIter

/-- Over bytes made of NUL-terminated strings and a tail with no NUL, the iterator yields exactly
the strings. -/
theorem StringList.iter_yields_exactly {l : StringList} {ss : List (List UInt8)}
    {tail : List UInt8} (hss : ∀ s ∈ ss, (0 : UInt8) ∉ s) (htail : (0 : UInt8) ∉ tail)
    (hdata : l.data = ss.flatMap (· ++ [0]) ++ tail) :
    Iterator.YieldsExactly StringListIter.next l.iter ss := by
  have hrun := @StringListIter.yields_of_drop_eq ss hss l.iter tail (by simp [iter, hdata])
  refine ⟨_, hrun, _, StringListIter.next_of_nul_free ?_⟩
  simpa [iter, hdata] using htail

/-- For every string list the iterator never panics: it yields the NUL-terminated strings of the
bytes, in order, and drops a tail that has no NUL. -/
theorem StringList.iter_yields_nul_terminated (l : StringList) :
    ∃ (ss : List (List UInt8)) (tail : List UInt8), (∀ s ∈ ss, (0 : UInt8) ∉ s) ∧
      (0 : UInt8) ∉ tail ∧ l.data = ss.flatMap (· ++ [0]) ++ tail ∧
      Iterator.YieldsExactly StringListIter.next l.iter ss := by
  obtain ⟨ss, tail, hss, htail, hdata⟩ := exists_nul_terminated l.data
  exact ⟨ss, tail, hss, htail, hdata, iter_yields_exactly hss htail hdata⟩

theorem infix_of_mem_strings {ss : List (List UInt8)} {t : List UInt8} (tail : List UInt8)
    (ht : t ∈ ss) : t <:+: ss.flatMap (· ++ [0]) ++ tail := by
  have hmem : t ++ [0] ∈ ss.map (· ++ [0]) := List.mem_map_of_mem ht
  rw [List.flatMap_def]
  exact ((List.prefix_append t [0]).isInfix.trans (List.infix_of_mem_flatten hmem)).trans
    (List.prefix_append _ tail).isInfix

/-- `StringList::contains`, documented as telling whether `s` is in the list of strings, searches
the bytes instead: for a non-empty `s` it answers whether `s` occurs anywhere in them, inside a
string or across the NUL between two, and it panics on an empty `s`. The bytes of every list are
the NUL-terminated strings its iterator yields, without panicking, and a tail with no NUL; and
`contains` finds every non-empty piece of one of those strings, whether or not it is one of
them. -/
theorem contains_is_substring_search (l : StringList) (s : List UInt8) :
    l.contains s = (if s = [] then .error .panic else .ok (decide (s <:+: l.data))) ∧
    ∃ (ss : List (List UInt8)) (tail : List UInt8), (∀ x ∈ ss, (0 : UInt8) ∉ x) ∧
      (0 : UInt8) ∉ tail ∧ l.data = ss.flatMap (· ++ [0]) ++ tail ∧
      Iterator.YieldsExactly StringListIter.next l.iter ss ∧
      (s ≠ [] → (∃ t ∈ ss, s <:+: t) → l.contains s = .ok true) := by
  obtain ⟨ss, tail, hss, htail, hdata, hyields⟩ := StringList.iter_yields_nul_terminated l
  refine ⟨StringList.contains_eq l s, ss, tail, hss, htail, hdata, hyields, ?_⟩
  rintro hs ⟨t, ht, hst⟩
  have hpiece : s <:+: l.data := hdata ▸ hst.trans (infix_of_mem_strings tail ht)
  rw [StringList.contains_eq, if_neg hs, decide_eq_true hpiece]

/-- The one string of `virtio,mmio` and its NUL is not `mmio`, and `contains` finds `mmio`
there. -/
theorem contains_is_substring_search_virtio :
    ascii "mmio" ∉ [ascii "virtio,mmio"] ∧
      (StringList.mk (ascii "virtio,mmio" ++ [0])).contains (ascii "mmio") = .ok true := by
  refine ⟨by decide, ?_⟩
  rw [(contains_is_substring_search _ _).1]
  decide

/-! ## Registers -/

structure RegistersIter where
  regs : Registers
  offset : Nat
  deriving DecidableEq, Repr

def Registers.iter (regs : Registers) : RegistersIter := ⟨regs, 0⟩

namespace RegistersIter

variable (readU32 : List UInt8 → Option Nat)

/-- One of the two `for` loops of `next`: shift `cells` words from `offset` into `acc`, and stop
with `None` once the offset has passed the end of the data. Returns the offset it reached. -/
def readCells (data : List UInt8) : (cells acc offset : Nat) → Except (Fault Empty) (Option Nat × Nat)
  | 0, acc, offset => pure (some acc, offset)
  | cells + 1, acc, offset => do
    let word ← FlattenedTreeIter.readAt readU32 (← sliceFrom data offset)
    let acc := Usize.shl acc 32 ||| word
    let offset := offset + 4
    if offset > data.length then pure (none, offset) else readCells data cells acc offset

section Cells

variable {readU32} (hread : ReadsU32BE readU32) {data : List UInt8}
include hread

theorem readCells_succ_of_drop_eq {cells acc offset w : Nat} {rest : List UInt8}
    (hw : w < 2 ^ 32) (h : data.drop offset = u32be w ++ rest) :
    readCells readU32 data (cells + 1) acc offset =
      readCells readU32 data cells (Usize.shl acc 32 ||| w) (offset + 4) := by
  have hlen : offset + 4 ≤ data.length := by
    have := length_le_of_drop_eq h
    rw [length_u32be] at this
    omega
  rw [readCells, sliceFrom_of_le (by omega), Fault.ok_bind, h,
    FlattenedTreeIter.readAt_u32be hread hw, Fault.ok_bind, if_neg (by omega)]

theorem readCells_succ_of_short {cells acc offset : Nat} (hle : offset ≤ data.length)
    (hshort : data.length < offset + 4) :
    Fault.IsPanic (readCells readU32 data (cells + 1) acc offset) := by
  have hnone : readU32 (data.drop offset) = none := hread.short _ (by simp; omega)
  rw [readCells, sliceFrom_of_le hle, Fault.ok_bind, FlattenedTreeIter.readAt, hnone]
  exact Fault.isPanic_bind rfl

theorem readCells_of_drop_eq {ws : List Nat} (hws : ∀ w ∈ ws, w < 2 ^ 32) :
    ∀ {acc offset : Nat} {rest : List UInt8}, data.drop offset = ws.flatMap u32be ++ rest →
      readCells readU32 data ws.length acc offset =
        .ok (some (ws.foldl (fun a w => Usize.shl a 32 ||| w) acc), offset + 4 * ws.length) := by
  induction ws with
  | nil =>
    intro acc offset rest _
    rfl
  | cons w ws ih =>
    intro acc offset rest h
    simp only [List.mem_cons, forall_eq_or_imp] at hws
    rw [List.flatMap_cons, List.append_assoc] at h
    have hrest : data.drop (offset + 4) = ws.flatMap u32be ++ rest := by
      simpa using drop_add_of_drop_eq h
    rw [List.length_cons, readCells_succ_of_drop_eq hread hws.1 h, ih hws.2 hrest, List.foldl_cons,
      Nat.mul_succ, Nat.add_comm (4 * ws.length) 4, Nat.add_assoc]

/-- Four bytes at the offset, whatever they are: the read succeeds, and the bounds check after
it cannot fire, since the offset it checks is at most the length the read needed. -/
theorem readCells_succ_of_le {cells acc offset : Nat} (h : offset + 4 ≤ data.length) :
    ∃ w, readCells readU32 data (cells + 1) acc offset =
      readCells readU32 data cells (Usize.shl acc 32 ||| w) (offset + 4) := by
  have hlen : 4 ≤ (data.drop offset).length := by
    rw [List.length_drop]
    omega
  obtain ⟨b0, b1, b2, b3, rest, hdrop⟩ :
      ∃ b0 b1 b2 b3 rest, data.drop offset = b0 :: b1 :: b2 :: b3 :: rest := by
    match data.drop offset, hlen with
    | b0 :: b1 :: b2 :: b3 :: rest, _ => exact ⟨b0, b1, b2, b3, rest, rfl⟩
  refine ⟨ofBE b0 b1 b2 b3, ?_⟩
  rw [readCells, sliceFrom_of_le (by omega), Fault.ok_bind, hdrop, FlattenedTreeIter.readAt,
    hread.four]
  simp only [Fault.ok_bind, if_neg (Nat.not_lt.2 h)]

theorem readCells_ok_of_le :
    ∀ {cells acc offset : Nat}, offset + 4 * cells ≤ data.length →
      ∃ v, readCells readU32 data cells acc offset = .ok (some v, offset + 4 * cells) := by
  intro cells
  induction cells with
  | zero =>
    intro acc offset _
    exact ⟨acc, rfl⟩
  | succ cells ih =>
    intro acc offset hle
    obtain ⟨w, hw⟩ : ∃ w, readCells readU32 data (cells + 1) acc offset =
        readCells readU32 data cells (Usize.shl acc 32 ||| w) (offset + 4) :=
      readCells_succ_of_le hread (by omega)
    obtain ⟨v, hv⟩ := @ih (Usize.shl acc 32 ||| w) (offset + 4) (by omega)
    refine ⟨v, ?_⟩
    rw [hw, hv, Nat.mul_succ, Nat.add_comm (4 * cells) 4, Nat.add_assoc]

/-- Fewer bytes from the offset than `cells` words take: one of the reads panics. The loop's
`None` exit never comes first, because its check follows a read that needed the bytes. -/
theorem readCells_panics_of_short :
    ∀ {cells acc offset : Nat}, offset ≤ data.length → data.length < offset + 4 * cells →
      Fault.IsPanic (readCells readU32 data cells acc offset) := by
  intro cells
  induction cells with
  | zero =>
    intro acc offset _ hshort
    omega
  | succ cells ih =>
    intro acc offset hle hshort
    by_cases hword : data.length < offset + 4
    · exact readCells_succ_of_short hread hle hword
    · obtain ⟨w, hw⟩ : ∃ w, readCells readU32 data (cells + 1) acc offset =
          readCells readU32 data cells (Usize.shl acc 32 ||| w) (offset + 4) :=
        readCells_succ_of_le hread (by omega)
      rw [hw]
      exact ih (by omega) (by omega)

end Cells

/-- `RegistersIter::next`: the next address and size. -/
def next (it : RegistersIter) : Except (Fault Empty) (Option (Nat × Nat) × RegistersIter) :=
  if it.offset ≥ it.regs.data.length then pure (none, it)
  else do
    let (address, offset) ← readCells readU32 it.regs.data it.regs.addressCells 0 it.offset
    match address with
    | none => pure (none, { it with offset := offset })
    | some address =>
      let (size, offset) ← readCells readU32 it.regs.data it.regs.sizeCells 0 offset
      match size with
      | none => pure (none, { it with offset := offset })
      | some size => pure (some (address, size), { it with offset := offset })

/-- The value of big-endian cells, shifted in one by one as `next` reads them. -/
def cellsValue (ws : List Nat) : Nat := ws.foldl (fun a w => Usize.shl a 32 ||| w) 0

theorem next_of_end {it : RegistersIter} (h : it.regs.data.length ≤ it.offset) :
    it.next readU32 = .ok (none, it) := by
  rw [next, if_pos h]
  rfl

variable {readU32} (hread : ReadsU32BE readU32)
include hread

theorem next_of_drop_eq {it : RegistersIter} {address size : List Nat} {rest : List UInt8}
    (haddress : address.length = it.regs.addressCells) (hsize : size.length = it.regs.sizeCells)
    (hpos : 0 < it.regs.addressCells) (hws : ∀ w ∈ address ++ size, w < 2 ^ 32)
    (h : it.regs.data.drop it.offset = (address ++ size).flatMap u32be ++ rest) :
    it.next readU32 = .ok (some (cellsValue address, cellsValue size),
      { it with offset := it.offset + 4 * (it.regs.addressCells + it.regs.sizeCells) }) := by
  rw [List.flatMap_append, List.append_assoc] at h
  have hlt : it.offset < it.regs.data.length := by
    have := length_le_of_drop_eq h
    rw [length_flatMap_u32be] at this
    omega
  have hrest : it.regs.data.drop (it.offset + 4 * address.length) = size.flatMap u32be ++ rest := by
    have := drop_add_of_drop_eq h
    rwa [length_flatMap_u32be] at this
  simp only [List.mem_append] at hws
  rw [next, if_neg (Nat.not_le.2 hlt), ← haddress,
    readCells_of_drop_eq hread (fun w hw => hws w (.inl hw)) h, Fault.ok_bind]
  dsimp only
  rw [← hsize, readCells_of_drop_eq hread (fun w hw => hws w (.inr hw)) hrest, Fault.ok_bind]
  simp only [cellsValue, Nat.mul_add, Nat.add_assoc]
  rfl

/-- A trailing partial entry, fewer bytes left than one address and one size take: `next` panics
in one of its reads instead of ending the iteration. -/
theorem next_panics_of_partial_entry {it : RegistersIter} (hlt : it.offset < it.regs.data.length)
    (hshort : it.regs.data.length <
      it.offset + 4 * (it.regs.addressCells + it.regs.sizeCells)) :
    Fault.IsPanic (it.next readU32) := by
  rw [next, if_neg (Nat.not_le.2 hlt)]
  by_cases haddress : it.regs.data.length < it.offset + 4 * it.regs.addressCells
  · exact Fault.isPanic_bind (readCells_panics_of_short hread hlt.le haddress)
  · -- the address is read whole, and the size runs past the end
    obtain ⟨address, haddr⟩ : ∃ v, readCells readU32 it.regs.data it.regs.addressCells 0 it.offset =
        .ok (some v, it.offset + 4 * it.regs.addressCells) :=
      readCells_ok_of_le hread (Nat.le_of_not_lt haddress)
    rw [haddr, Fault.ok_bind]
    exact Fault.isPanic_bind (readCells_panics_of_short hread (Nat.le_of_not_lt haddress) (by omega))

theorem yields_of_drop_eq {regs : Registers} {entries : List (List Nat × List Nat)}
    (hentries : ∀ e ∈ entries, e.1.length = regs.addressCells ∧ e.2.length = regs.sizeCells ∧
      ∀ w ∈ e.1 ++ e.2, w < 2 ^ 32) (hpos : 0 < regs.addressCells) :
    ∀ {offset : Nat} {rest : List UInt8},
      regs.data.drop offset = entries.flatMap (fun e => (e.1 ++ e.2).flatMap u32be) ++ rest →
      Iterator.Yields (next readU32) ⟨regs, offset⟩
        (entries.map fun e => (cellsValue e.1, cellsValue e.2))
        ⟨regs, offset + 4 * (regs.addressCells + regs.sizeCells) * entries.length⟩ := by
  induction entries with
  | nil =>
    intro offset rest _
    simp
  | cons e entries ih =>
    intro offset rest h
    simp only [List.mem_cons, forall_eq_or_imp] at hentries
    obtain ⟨⟨haddress, hsize, hws⟩, hentries⟩ := hentries
    rw [List.flatMap_cons, List.append_assoc] at h
    have hlen : ((e.1 ++ e.2).flatMap u32be).length =
        4 * (regs.addressCells + regs.sizeCells) := by
      rw [length_flatMap_u32be, List.length_append, haddress, hsize]
    have hrest := drop_add_of_drop_eq h
    rw [hlen] at hrest
    have hoff : offset + 4 * (regs.addressCells + regs.sizeCells) * (entries.length + 1) =
        offset + 4 * (regs.addressCells + regs.sizeCells) +
          4 * (regs.addressCells + regs.sizeCells) * entries.length := by
      rw [Nat.mul_succ]
      omega
    rw [List.map_cons, List.length_cons, hoff]
    exact Iterator.Yields.cons (next_of_drop_eq hread haddress hsize hpos hws h)
      (ih hentries hrest)

end RegistersIter

/-- Over data made of whole entries, each `addressCells` and then `sizeCells` big-endian words,
the iterator yields exactly one address and size per entry, in order. -/
theorem Registers.iter_yields_exactly {readU32 : List UInt8 → Option Nat}
    (hread : ReadsU32BE readU32) {regs : Registers} {entries : List (List Nat × List Nat)}
    (hentries : ∀ e ∈ entries, e.1.length = regs.addressCells ∧ e.2.length = regs.sizeCells ∧
      ∀ w ∈ e.1 ++ e.2, w < 2 ^ 32) (hpos : 0 < regs.addressCells)
    (hdata : regs.data = entries.flatMap (fun e => (e.1 ++ e.2).flatMap u32be)) :
    Iterator.YieldsExactly (RegistersIter.next readU32) regs.iter
      (entries.map fun e => (RegistersIter.cellsValue e.1, RegistersIter.cellsValue e.2)) := by
  have hrun := @RegistersIter.yields_of_drop_eq readU32 hread regs entries hentries hpos 0 []
    (by simp [hdata])
  have hlen : regs.data.length = 4 * (regs.addressCells + regs.sizeCells) * entries.length := by
    rw [hdata, List.length_flatMap,
      List.map_congr_left (g := fun _ => 4 * (regs.addressCells + regs.sizeCells)) fun e he => by
        rw [length_flatMap_u32be, List.length_append, (hentries e he).1, (hentries e he).2.1],
      List.map_const', List.sum_replicate_nat, Nat.mul_comm]
  refine ⟨_, hrun, _, RegistersIter.next_of_end readU32 ?_⟩
  simp [hlen]

/-- The last entry of a `reg` property of one-cell addresses and sizes is cut after its address:
the first `next` yields the whole entry, and the second panics reading the size, past the end of
the data, where the iteration should end. -/
theorem registers_iter_panics_on_partial_entry :
    (Registers.iter ⟨[0, 0, 0, 1, 0, 0, 0, 2, 0, 0, 0, 3], 1, 1⟩).next readU32BE =
        .ok (some (1, 2), ⟨⟨[0, 0, 0, 1, 0, 0, 0, 2, 0, 0, 0, 3], 1, 1⟩, 8⟩) ∧
      Fault.IsPanic (RegistersIter.next readU32BE ⟨⟨[0, 0, 0, 1, 0, 0, 0, 2, 0, 0, 0, 3], 1, 1⟩, 8⟩) :=
  ⟨rfl, RegistersIter.next_panics_of_partial_entry readsU32BE_readU32BE (by decide) (by decide)⟩

end EndlessHole.Platform
