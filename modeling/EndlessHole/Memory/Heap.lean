import EndlessHole.Memory.Basic

/-!
# The heap allocator

`HeapAllocator` of `kernel_core/src/memory/heap.rs`, the kernel's `GlobalAlloc`: a free list of
blocks carved out of pages from a page allocator. Each free block starts with a `FreeHeader`
(its size and the link to the next block); each allocation is a block that starts with padding,
then an `AllocatedHeader` (the size the block keeps and the block's address) right before the
data, so that `dealloc` finds the block from the data pointer.

The model keeps

* `freeList`: the blocks on the free list, head first (the `next` links of the `FreeHeader`s
  become the order of the list);
* `mem`: the words of memory the headers are written to, by address: the `size` word of a
  `FreeHeader`, and the two words of an `AllocatedHeader`;
* `pageAllocator`: the state of the page allocator once `init` has run (`Once<&PA>`).

Both headers are 16 bytes with alignment 8, so `Layout::new::<AllocatedHeader>()` is
`(16, 8)` and `size_of::<FreeHeader>()` is 16.
-/

namespace EndlessHole.Memory

/-- A `core::alloc::Layout`: a size and an alignment that is a power of two. -/
structure Layout where
  size : Nat
  align : Nat
  align_isPowerOfTwo : align.isPowerOfTwo
  deriving DecidableEq

namespace Layout

theorem align_pos (l : Layout) : 0 < l.align := by
  obtain ⟨k, hk⟩ := l.align_isPowerOfTwo
  rw [hk]
  exact Nat.two_pow_pos k

/-- `Layout::from_size_align(size, 2^k)`. -/
def ofSizeAlign (size k : Nat) : Layout := ⟨size, 2 ^ k, ⟨k, rfl⟩⟩

end Layout

/-- The size of both headers, `size_of::<AllocatedHeader>()` and `size_of::<FreeHeader>()`. -/
def headerSize : Nat := 16

def headerAlign : Nat := 8

/-- `MIN_PAGE_ALLOCATION`: the fewest pages added to the heap when it runs out of free blocks. -/
def minPageAllocation : Nat := 4

/-- `header_padding_max`: the padding `alloc` reserves between the `AllocatedHeader` and the
data. -/
def headerPaddingMax (layout : Layout) : Nat :=
  if layout.align ≤ headerAlign then 0
  else if layout.align = headerSize then headerAlign
  else layout.align - headerSize

structure HeapAllocator (σ : Type) where
  pageAllocator : Option σ
  freeList : List Nat
  mem : Nat → Nat

namespace HeapAllocator

variable {σ : Type} (P : PageAllocator σ)

def new (s : σ) (mem : Nat → Nat) : HeapAllocator σ := ⟨some s, [], mem⟩

/-- `try_remove_fit`: unlink the first block on `blocks` whose recorded size is at least
`desiredSize`. Returns the block and the list without it. -/
def tryRemoveFit (mem : Nat → Nat) (desiredSize : Nat) : List Nat → Option (Nat × List Nat)
  | [] => none
  | b :: rest =>
    if desiredSize ≤ mem b then some (b, rest)
    else (tryRemoveFit mem desiredSize rest).map fun (found, rest') => (found, b :: rest')

/-- `is_free`: whether `ptr` lies inside a block on the free list, by the blocks' recorded
sizes. -/
def isFree (mem : Nat → Nat) (blocks : List Nat) (ptr : Nat) : Bool :=
  blocks.any fun b => decide (b ≤ ptr ∧ ptr < b + mem b)

variable (h : HeapAllocator σ)

/-- Write a `FreeHeader` of `size` at `block` and push the block on the free list
(`push_free_block`). -/
def pushFreeBlock (block size : Nat) : HeapAllocator σ :=
  { h with freeList := block :: h.freeList, mem := Function.update h.mem block size }

def writeAllocatedHeader (header size block : Nat) : HeapAllocator σ :=
  { h with mem := Function.update (Function.update h.mem header size) (header + 8) block }

/-- Where `alloc` takes its block from: a block of the free list, or fresh pages. `none` when
there is neither (`alloc` then returns null). Returns the block's size, its address and the
state after. -/
def takeBlock (layout : Layout) (requiredBlockSize : Nat) :
    Except (Fault Empty) (Option (Nat × Nat × HeapAllocator σ)) :=
  match tryRemoveFit h.mem requiredBlockSize h.freeList with
  | some (block, rest) => do
    let blockSize := h.mem block
    Fault.assert (requiredBlockSize ≤ blockSize)
    pure (some (blockSize, block, { h with freeList := rest }))
  | none =>
    match h.pageAllocator with
    | none => pure none
    | some s => do
      let pageCount := max ((requiredBlockSize + P.pageSize.bytes - 1) / P.pageSize.bytes)
        minPageAllocation
      -- layout alignments greater than a page are unsupported
      Fault.assert (layout.align ≤ P.pageSize.bytes)
      match P.allocate s pageCount with
      | .ok (pages, s') =>
        let block := PhysicalAddress.toPtr pages
        Fault.assert (block != 0)
        pure (some (pageCount * P.pageSize.bytes, block, { h with pageAllocator := some s' }))
      | .error _ => pure none

/-- The second half of `alloc`, once it holds a block of `totalBlockSize` bytes at `block`:
place the header and the data, and put back the rest of the block if it is larger than a
`FreeHeader`. -/
def allocInBlock (layout : Layout) (totalBlockSize block : Nat) :
    Except (Fault Empty) (Nat × HeapAllocator σ) := do
  let paddingRequired := Usize.alignOffset (block + headerSize) layout.align
  Fault.assert (paddingRequired ≤ headerPaddingMax layout)
  let actualBlockSize := headerSize + paddingRequired + layout.size
  let h := if totalBlockSize - actualBlockSize > headerSize then
      let restOffset := Usize.alignUp actualBlockSize headerAlign
      h.pushFreeBlock (block + restOffset) (totalBlockSize - restOffset)
    else h
  let header := block + paddingRequired
  pure (header + headerSize, h.writeAllocatedHeader header actualBlockSize block)

/-- `GlobalAlloc::alloc`: the data pointer, or `0` (null). -/
def alloc (layout : Layout) : Except (Fault Empty) (Nat × HeapAllocator σ) := do
  let betweenHeaderAndDataPaddingMax := headerPaddingMax layout
  let requiredBlockSize := headerSize + betweenHeaderAndDataPaddingMax + layout.size
  match ← h.takeBlock P layout requiredBlockSize with
  | none => pure (0, h)
  | some (totalBlockSize, block, h') => h'.allocInBlock layout totalBlockSize block

def dealloc (ptr : Nat) (layout : Layout) : Except (Fault Empty) (HeapAllocator σ) :=
  if ptr = 0 then pure h
  else do
    let header := ptr - headerSize
    let blockClaimedSize := h.mem header
    let minSize := headerSize + layout.size
    let maxSize := headerPaddingMax layout + minSize
    Fault.assert (minSize ≤ blockClaimedSize && blockClaimedSize ≤ maxSize)
    let freeBlock := h.mem (header + 8)
    Fault.assert (!isFree h.mem h.freeList freeBlock)
    pure (h.pushFreeBlock freeBlock blockClaimedSize)

/-! ## Padding beyond `header_padding_max` -/

/-- The page allocator of the heap's tests: the mock allocator of 512 pages of 4 KiB. -/
def mockPages : PageAllocator MockPageAllocator := MockPageAllocator.allocator .fourKiB 512

/-- A fresh heap over `mockPages`, before anything is written to memory. -/
def fresh : HeapAllocator MockPageAllocator := new ⟨0x10_0000, []⟩ fun _ => 0

/-- An allocation of 8 bytes aligned to 8 takes fresh pages and puts the rest of them back at
offset 24. That rest is the first fit for 1 byte aligned to 32; its `AllocatedHeader` would end
at offset 40, 8 past a multiple of 32, so the data needs 24 bytes of padding, more than the 16
of `header_padding_max`, and `alloc` panics. -/
theorem alloc_padding_exceeds_max :
    (do
      let (_, h) ← fresh.alloc mockPages (Layout.ofSizeAlign 8 3)
      pure h.freeList : Except (Fault Empty) _) = .ok [PhysicalAddress.toPtr 0x10_0018] ∧
    Fault.IsPanic (do
      let (_, h) ← fresh.alloc mockPages (Layout.ofSizeAlign 8 3)
      h.alloc mockPages (Layout.ofSizeAlign 1 5)) := by
  decide +kernel

end HeapAllocator

end EndlessHole.Memory
