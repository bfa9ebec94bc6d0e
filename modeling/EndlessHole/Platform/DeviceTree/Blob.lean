import EndlessHole.Platform.DeviceTree.Parse
import EndlessHole.Lib.Iterator

/-!
# The blob: its header, and the memory reservation block

`DeviceTree::from_bytes` of `kernel_core/src/platform/device_tree/mod.rs` checks the header of a
flattened device tree blob (`fdt::BlobHeader`) and cuts the blob into its blocks at the offsets
and sizes the header gives: the memory reservation block, the structure block and the strings
block. `MemRegionIter` (`iter.rs`) walks the memory reservation block: pairs of big-endian 64-bit
addresses and sizes, ended by a pair of zeros.

* `fromBytes_encodeBlob`: a blob laid out as the specification's section 5 lays it out, with a
  header that points at its blocks, is cut back into those blocks;
* `MemRegionIter.forData_yields_exactly`: over the entries of a memory reservation block and its
  terminator, the iterator yields exactly the entries;
* `from_bytes_parses_laid_out_blob`: with `iter_structure` on the tree's encoding
  (`FlattenedTreeIter.yields_tree_tokens`), a laid out blob is read back whole.

Header words are read by `BigEndian::read_u32` and entries by `BigEndian::read_u64`, the
parameters `readU32` and `readU64`.
-/

namespace EndlessHole.Platform

open Bytes

/-- `fdt::BlobHeader`: the bytes of the blob from its start. -/
structure BlobHeader where
  buf : List UInt8

/-- `fdt::HEADER_SIZE`. -/
def headerSize : Nat := 10 * 4

/-- `fdt::HEADER_EXPECTED_MAGIC`. -/
def headerExpectedMagic : Nat := 0xd00dfeed

namespace BlobHeader

variable (readU32 : List UInt8 → Option Nat) (h : BlobHeader)

/-- `BigEndian::read_u32(&self.buf[offset..])`: the accessors differ only in the offset. -/
def word (offset : Nat) : Except (Fault Empty) Nat := do
  FlattenedTreeIter.readAt readU32 (← sliceFrom h.buf offset)

def totalSize : Except (Fault Empty) Nat := h.word readU32 4

def magic : Except (Fault Empty) Nat := h.word readU32 0

def offDtStruct : Except (Fault Empty) Nat := h.word readU32 8

def offDtStrings : Except (Fault Empty) Nat := h.word readU32 12

def offMemRsvmap : Except (Fault Empty) Nat := h.word readU32 16

def sizeDtStrings : Except (Fault Empty) Nat := h.word readU32 32

def sizeDtStructs : Except (Fault Empty) Nat := h.word readU32 36

variable {readU32 h}

theorem word_of_eq_append (hread : ReadsU32BE readU32) {pre rest : List UInt8} {offset x : Nat}
    (hbuf : h.buf = pre ++ u32be x ++ rest) (hoff : pre.length = offset) (hx : x < 2 ^ 32) :
    h.word readU32 offset = .ok x := by
  have hdrop : h.buf.drop offset = u32be x ++ rest := by
    rw [hbuf, List.append_assoc, ← hoff, List.drop_left]
  have hle : offset ≤ h.buf.length := by
    rw [hbuf, ← hoff]
    simp only [List.length_append]
    omega
  rw [word, sliceFrom_of_le hle, Fault.ok_bind, hdrop, FlattenedTreeIter.readAt_u32be hread hx]

end BlobHeader

/-- What `from_bytes` makes of a blob: the tree (its structure and strings blocks), the header, and
the memory reservation block. -/
structure Blob where
  header : BlobHeader
  dt : DeviceTree
  memMap : List UInt8

namespace DeviceTree

variable (readU32 : List UInt8 → Option Nat)

/-- `DeviceTree::from_bytes`, with `from_bytes_and_header`: the checks of the magic value and of
the total size, then the blocks at the header's offsets. -/
def fromBytes (buf : List UInt8) : Except (Fault Empty) Blob := do
  let header : BlobHeader := ⟨buf⟩
  Fault.assert ((← header.magic readU32) == headerExpectedMagic)
  Fault.assert ((← header.totalSize readU32) == buf.length)
  let strStart ← header.offDtStrings readU32
  let strEnd := strStart + (← header.sizeDtStrings readU32)
  let structsStart ← header.offDtStruct readU32
  let structsEnd := structsStart + (← header.sizeDtStructs readU32)
  let strings ← slice buf strStart strEnd
  let structureBlock ← slice buf structsStart structsEnd
  let memMap ← slice buf (← header.offMemRsvmap readU32) (← header.offDtStruct readU32)
  pure ⟨header, ⟨structureBlock, strings⟩, memMap⟩

end DeviceTree

/-! ## Laying out a blob -/

/-- The header of a blob whose memory reservation block, structure block and strings block follow
the header in that order. The version fields are those of version 17. -/
def blobHeaderWords (memMap structureBlock strings : List UInt8) : List Nat :=
  let offDtStruct := headerSize + memMap.length
  let offDtStrings := offDtStruct + structureBlock.length
  [headerExpectedMagic, offDtStrings + strings.length, offDtStruct, offDtStrings, headerSize, 17,
    16, 0, strings.length, structureBlock.length]

/-- A blob as section 5 of the specification lays it out. -/
def encodeBlob (memMap structureBlock strings : List UInt8) : List UInt8 :=
  (blobHeaderWords memMap structureBlock strings).flatMap u32be ++ memMap ++ structureBlock ++
    strings

theorem length_encodeBlob (memMap structureBlock strings : List UInt8) :
    (encodeBlob memMap structureBlock strings).length =
      headerSize + memMap.length + structureBlock.length + strings.length := by
  simp [encodeBlob, blobHeaderWords, headerSize]
  omega

section RoundTrip

variable {memMap structureBlock strings : List UInt8}

theorem blobHeaderWords_lt (hsize : (encodeBlob memMap structureBlock strings).length < 2 ^ 32) :
    ∀ w ∈ blobHeaderWords memMap structureBlock strings, w < 2 ^ 32 := by
  rw [length_encodeBlob] at hsize
  intro w hw
  simp only [blobHeaderWords, List.mem_cons, List.not_mem_nil, or_false] at hw
  rcases hw with rfl | rfl | rfl | rfl | rfl | rfl | rfl | rfl | rfl | rfl <;>
    simp only [headerExpectedMagic, headerSize] at hsize ⊢ <;> omega

variable {readU32 : List UInt8 → Option Nat} (hread : ReadsU32BE readU32)
include hread

theorem word_encodeBlob (hsize : (encodeBlob memMap structureBlock strings).length < 2 ^ 32)
    {i : Nat} (hi : i < 10) :
    BlobHeader.word readU32 ⟨encodeBlob memMap structureBlock strings⟩ (4 * i) =
      .ok ((blobHeaderWords memMap structureBlock strings).getD i 0) := by
  set ws := blobHeaderWords memMap structureBlock strings with hws
  have hlen : i < ws.length := by simpa [hws, blobHeaderWords] using hi
  have hbuf : encodeBlob memMap structureBlock strings =
      (ws.take i).flatMap u32be ++ u32be (ws.getD i 0) ++
        ((ws.drop (i + 1)).flatMap u32be ++ memMap ++ structureBlock ++ strings) := by
    rw [encodeBlob, ← hws, flatMap_u32be_eq_append hlen]
    simp only [List.append_assoc]
  have hoff : ((ws.take i).flatMap u32be).length = 4 * i := by
    rw [length_flatMap_u32be, List.length_take, Nat.min_eq_left hlen.le]
  have hmem : ws.getD i 0 ∈ ws := by
    rw [← List.getElem_eq_getD 0]
    exact List.getElem_mem hlen
  exact BlobHeader.word_of_eq_append hread hbuf hoff (blobHeaderWords_lt hsize _ hmem)

/-- `from_bytes` cuts a laid out blob back into its blocks. -/
theorem fromBytes_encodeBlob (hsize : (encodeBlob memMap structureBlock strings).length < 2 ^ 32) :
    DeviceTree.fromBytes readU32 (encodeBlob memMap structureBlock strings) =
      .ok ⟨⟨encodeBlob memMap structureBlock strings⟩, ⟨structureBlock, strings⟩, memMap⟩ := by
  set buf := encodeBlob memMap structureBlock strings with hbuf
  have hw := fun i (hi : i < 10) => word_encodeBlob hread hsize hi
  have hmagic : (BlobHeader.mk buf).magic readU32 = .ok headerExpectedMagic := hw 0 (by decide)
  have htotal : (BlobHeader.mk buf).totalSize readU32 = .ok buf.length := by
    rw [hbuf, length_encodeBlob]
    exact hw 1 (by decide)
  have hstruct : (BlobHeader.mk buf).offDtStruct readU32 = .ok (headerSize + memMap.length) :=
    hw 2 (by decide)
  have hstrings : (BlobHeader.mk buf).offDtStrings readU32 =
      .ok (headerSize + memMap.length + structureBlock.length) := hw 3 (by decide)
  have hrsvmap : (BlobHeader.mk buf).offMemRsvmap readU32 = .ok headerSize := hw 4 (by decide)
  have hsizeStrings : (BlobHeader.mk buf).sizeDtStrings readU32 = .ok strings.length :=
    hw 8 (by decide)
  have hsizeStructs : (BlobHeader.mk buf).sizeDtStructs readU32 = .ok structureBlock.length :=
    hw 9 (by decide)
  have hheader : ((blobHeaderWords memMap structureBlock strings).flatMap u32be).length =
      headerSize := by
    rw [length_flatMap_u32be]
    rfl
  have hlen : buf.length = headerSize + memMap.length + structureBlock.length + strings.length :=
    length_encodeBlob memMap structureBlock strings
  have hsliceStrings : (slice buf (headerSize + memMap.length + structureBlock.length)
      (headerSize + memMap.length + structureBlock.length + strings.length) :
        Except (Fault Empty) _) = .ok strings := by
    refine @slice_of_drop_eq _ _ buf strings [] _ (by omega) ?_
    rw [hbuf, encodeBlob, List.drop_left' (by simp only [List.length_append, hheader]),
      List.append_nil]
  have hsliceStructure : (slice buf (headerSize + memMap.length)
      (headerSize + memMap.length + structureBlock.length) : Except (Fault Empty) _) =
        .ok structureBlock := by
    refine @slice_of_drop_eq _ _ buf structureBlock strings _ (by omega) ?_
    rw [hbuf, encodeBlob, List.append_assoc,
      List.drop_left' (by simp only [List.length_append, hheader])]
  have hsliceMemMap : (slice buf headerSize (headerSize + memMap.length) :
      Except (Fault Empty) _) = .ok memMap := by
    refine @slice_of_drop_eq _ _ buf memMap (structureBlock ++ strings) _ (by omega) ?_
    rw [hbuf, encodeBlob, List.append_assoc, List.append_assoc, List.drop_left' hheader]
  simp only [DeviceTree.fromBytes, hmagic, htotal, hstruct, hstrings, hrsvmap, hsizeStrings,
    hsizeStructs, Fault.ok_bind, beq_self_eq_true, Fault.assert_true, hsliceStrings,
    hsliceStructure, hsliceMemMap]
  rfl

end RoundTrip

/-! ## The memory reservation block -/

structure MemRegionIter where
  data : List UInt8
  currentOffset : Nat
  deriving DecidableEq, Repr

namespace MemRegionIter

/-- `MemRegionIter::for_data`. -/
def forData (data : List UInt8) : MemRegionIter := ⟨data, 0⟩

variable (readU64 : List UInt8 → Option Nat)

/-- `Iterator::next`: the next address and size, or `None` at a pair of zeros. -/
def next (it : MemRegionIter) : Except (Fault Empty) (Option (Nat × Nat) × MemRegionIter) := do
  let addr ← FlattenedTreeIter.readAt readU64 (← sliceFrom it.data it.currentOffset)
  let it := { it with currentOffset := it.currentOffset + 8 }
  let size ← FlattenedTreeIter.readAt readU64 (← sliceFrom it.data it.currentOffset)
  let it := { it with currentOffset := it.currentOffset + 8 }
  if addr == 0 && size == 0 then pure (none, it) else pure (some (addr, size), it)

end MemRegionIter

/-- `DeviceTree::iter_reserved_memory_regions`. -/
def Blob.iterReservedMemoryRegions (b : Blob) : MemRegionIter := MemRegionIter.forData b.memMap

/-- An entry of the memory reservation block: its address, then its size. -/
def encodeEntry (e : Nat × Nat) : List UInt8 := u64be e.1 ++ u64be e.2

namespace MemRegionIter

section Entries

variable {readU64 : List UInt8 → Option Nat} (hread : ReadsU64BE readU64)
include hread

theorem readAt_u64be {rest : List UInt8} {x : Nat} (hx : x < 2 ^ 64) :
    FlattenedTreeIter.readAt readU64 (u64be x ++ rest) = .ok x :=
  (FlattenedTreeIter.readAt_eq_ok readU64).2 (hread.read_u64be hx rest)

/-- At an entry, `next` reads its address and size and moves past it; it yields the entry unless
both are zero. -/
theorem next_of_drop_eq {it : MemRegionIter} {e : Nat × Nat} {rest : List UInt8}
    (he : e.1 < 2 ^ 64 ∧ e.2 < 2 ^ 64) (h : it.data.drop it.currentOffset = encodeEntry e ++ rest) :
    next readU64 it =
      .ok (if e.1 == 0 && e.2 == 0 then none else some e, ⟨it.data, it.currentOffset + 16⟩) := by
  have hlen : it.currentOffset + 16 ≤ it.data.length := by
    have := length_le_of_drop_eq h
    simp only [encodeEntry, List.length_append, length_u64be] at this
    omega
  have hsize : it.data.drop (it.currentOffset + 8) = u64be e.2 ++ rest := by
    have := drop_add_of_drop_eq (h.trans (List.append_assoc _ _ _))
    rwa [length_u64be] at this
  rw [encodeEntry, List.append_assoc] at h
  simp only [next, sliceFrom_of_le (show it.currentOffset ≤ it.data.length by omega),
    sliceFrom_of_le (show it.currentOffset + 8 ≤ it.data.length by omega), Fault.ok_bind, h, hsize,
    readAt_u64be hread he.1, readAt_u64be hread he.2]
  split <;> rfl

theorem yields_of_drop_eq {es : List (Nat × Nat)}
    (hes : ∀ e ∈ es, e ≠ (0, 0) ∧ e.1 < 2 ^ 64 ∧ e.2 < 2 ^ 64) :
    ∀ {it : MemRegionIter} {rest : List UInt8},
      it.data.drop it.currentOffset = es.flatMap encodeEntry ++ rest →
      Iterator.Yields (next readU64) it es ⟨it.data, it.currentOffset + 16 * es.length⟩ := by
  induction es with
  | nil =>
    intro it rest _
    simp
  | cons e es ih =>
    intro it rest h
    simp only [List.mem_cons, forall_eq_or_imp] at hes
    rw [List.flatMap_cons, List.append_assoc] at h
    have hyield : (if e.1 == 0 && e.2 == 0 then none else some e) = some e := by
      rw [if_neg]
      intro hzero
      simp only [Bool.and_eq_true, beq_iff_eq] at hzero
      exact hes.1.1 (Prod.ext hzero.1 hzero.2)
    have hrest : it.data.drop (it.currentOffset + 16) = es.flatMap encodeEntry ++ rest := by
      have := drop_add_of_drop_eq h
      rwa [encodeEntry, List.length_append, length_u64be] at this
    have hoff : it.currentOffset + 16 * (es.length + 1) = it.currentOffset + 16 + 16 * es.length := by
      omega
    rw [List.length_cons, hoff]
    refine Iterator.Yields.cons ?_ (@ih hes.2 ⟨it.data, it.currentOffset + 16⟩ rest hrest)
    rw [next_of_drop_eq hread hes.1.2 h, hyield]

/-- Over a memory reservation block of entries and a terminating pair of zeros, the iterator
yields exactly the entries. -/
theorem forData_yields_exactly {es : List (Nat × Nat)} (rest : List UInt8)
    (hes : ∀ e ∈ es, e ≠ (0, 0) ∧ e.1 < 2 ^ 64 ∧ e.2 < 2 ^ 64) :
    Iterator.YieldsExactly (next readU64)
      (forData (es.flatMap encodeEntry ++ encodeEntry (0, 0) ++ rest)) es := by
  set data := es.flatMap encodeEntry ++ encodeEntry (0, 0) ++ rest with hdata
  have hrun := @yields_of_drop_eq readU64 hread es hes (forData data) (encodeEntry (0, 0) ++ rest)
    (by simp [forData, data])
  have hend : data.drop (0 + 16 * es.length) = encodeEntry (0, 0) ++ rest := by
    rw [hdata, Nat.zero_add, List.append_assoc, List.drop_left']
    simp [encodeEntry, Nat.mul_comm]
  have hnext := @next_of_drop_eq readU64 hread ⟨data, 0 + 16 * es.length⟩ (0, 0) rest
    (by decide) hend
  exact ⟨_, hrun, _, hnext⟩

end Entries

end MemRegionIter

/-! ## A whole blob -/

/-- A blob laid out as section 5 of the specification lays it out, in fewer than `2 ^ 32` bytes:
a memory reservation block of entries, none a pair of zeros, and its terminator, the encoding of
a well-formed tree, and its strings block. `from_bytes` accepts it and cuts out its blocks,
`iter_reserved_memory_regions` yields exactly the entries, and `iter_structure` yields exactly the
tree's tokens, then `None`. -/
theorem from_bytes_parses_laid_out_blob {readU32 readU64 : List UInt8 → Option Nat}
    (hread32 : ReadsU32BE readU32) (hread64 : ReadsU64BE readU64) {T : Fdt.Node}
    {bs : List Fdt.Block} {es : List (Nat × Nat)} (rest strings : List UInt8)
    (hT : T.WellFormed strings) (hbs : bs.map Fdt.Block.item = T.items ++ [.end])
    (hes : ∀ e ∈ es, e ≠ (0, 0) ∧ e.1 < 2 ^ 64 ∧ e.2 < 2 ^ 64)
    (hsize : (encodeBlob (es.flatMap encodeEntry ++ encodeEntry (0, 0) ++ rest)
      (Fdt.encodeBlocks bs) strings).length < 2 ^ 32) :
    ∃ b, DeviceTree.fromBytes readU32
        (encodeBlob (es.flatMap encodeEntry ++ encodeEntry (0, 0) ++ rest) (Fdt.encodeBlocks bs)
          strings) = .ok b ∧
      b.dt = ⟨Fdt.encodeBlocks bs, strings⟩ ∧
      Iterator.YieldsExactly (MemRegionIter.next readU64) b.iterReservedMemoryRegions es ∧
      Iterator.YieldsExactly (FlattenedTreeIter.next readU32) b.dt.iterStructure T.tokens := by
  obtain ⟨it, hrun, hend⟩ :=
    @FlattenedTreeIter.yields_tree_tokens readU32 hread32 ⟨Fdt.encodeBlocks bs, strings⟩ T bs hT hbs
      rfl
  refine ⟨_, fromBytes_encodeBlob hread32 hsize, rfl,
    MemRegionIter.forData_yields_exactly hread64 rest hes, ⟨it, ?_, _, hend⟩⟩
  exact FlattenedTreeIter.yields_iff.1 hrun

/-- A reservation of one page at `0x4000_0000`, and the sample tree with its property names. -/
theorem from_bytes_parses_laid_out_blob_sample :
    ReadsU32BE readU32BE ∧ ReadsU64BE readU64BE ∧
      FlattenedTreeIter.sampleTree.WellFormed [0x61, 0, 0x62, 0] ∧
      FlattenedTreeIter.sampleBlocks.map Fdt.Block.item =
        FlattenedTreeIter.sampleTree.items ++ [.end] ∧
      (∀ e ∈ [(0x4000_0000, 0x1000)], e ≠ (0, 0) ∧ e.1 < 2 ^ 64 ∧ e.2 < 2 ^ 64) ∧
      (encodeBlob ([(0x4000_0000, 0x1000)].flatMap encodeEntry ++ encodeEntry (0, 0) ++ [])
        (Fdt.encodeBlocks FlattenedTreeIter.sampleBlocks) [0x61, 0, 0x62, 0]).length < 2 ^ 32 ∧
      ∃ b, DeviceTree.fromBytes readU32BE
          (encodeBlob ([(0x4000_0000, 0x1000)].flatMap encodeEntry ++ encodeEntry (0, 0) ++ [])
            (Fdt.encodeBlocks FlattenedTreeIter.sampleBlocks) [0x61, 0, 0x62, 0]) = .ok b ∧
        b.dt = ⟨Fdt.encodeBlocks FlattenedTreeIter.sampleBlocks, [0x61, 0, 0x62, 0]⟩ ∧
        Iterator.YieldsExactly (MemRegionIter.next readU64BE) b.iterReservedMemoryRegions
          [(0x4000_0000, 0x1000)] ∧
        Iterator.YieldsExactly (FlattenedTreeIter.next readU32BE) b.dt.iterStructure
          FlattenedTreeIter.sampleTree.tokens := by
  have hsize : (encodeBlob ([(0x4000_0000, 0x1000)].flatMap encodeEntry ++ encodeEntry (0, 0) ++ [])
      (Fdt.encodeBlocks FlattenedTreeIter.sampleBlocks) [0x61, 0, 0x62, 0]).length < 2 ^ 32 := by
    decide +kernel
  exact ⟨readsU32BE_readU32BE, readsU64BE_readU64BE, by decide, by decide, by decide, hsize,
    from_bytes_parses_laid_out_blob readsU32BE_readU32BE readsU64BE_readU64BE [] [0x61, 0, 0x62, 0]
      (by decide) (by decide) (by decide) hsize⟩

end EndlessHole.Platform
