import EndlessHole.Memory.Basic

/-!
# The buddy page allocator

`BuddyPageAllocator MAX_ORDER` of `kernel_core/src/memory/buddy.rs`. The state is the region
`[baseAddr, endAddr)`, the page size, and one free list per order below `MAX_ORDER`; a free list
is the list of the blocks on it, head first (the `next_block` links of the `FreeHeader`s become
the order of the list). Every indexing `self.free_blocks[order]` goes through `freeList`, which
panics at an order of `MAX_ORDER` or more, as the array index does.

The operations are the sequential behaviour of the lock-free code: a compare-exchange that
succeeds on its first try.

* `popFree`, `pushFree`, `tryRemoveBuddy`, `blockInFreeList`, `splitBlockToSize`, `buddyOf`;
* `new` and `addMemoryRegion`, with the loop `addBlocks` that carves a region into blocks;
* `allocate` and `free` of the `PageAllocator` implementation; pointers and physical addresses
  are converted as in the kernel build.
-/

namespace EndlessHole.Memory

/-- The state of a `BuddyPageAllocator<MAX_ORDER>`. -/
structure BuddyPageAllocator (MAX_ORDER : Nat) where
  baseAddr : Nat
  endAddr : Nat
  pageSize : PageSize
  /-- The blocks on the free list of each order, head first. -/
  freeBlocks : Nat → List Nat

namespace BuddyPageAllocator

variable {MAX_ORDER : Nat} (a : BuddyPageAllocator MAX_ORDER)

/-- `self.free_blocks[order]`: indexing past the array panics. -/
def freeList (order : Nat) : Except (Fault Error) (List Nat) :=
  if order < MAX_ORDER then .ok (a.freeBlocks order) else .error .panic

def setFreeList (order : Nat) (l : List Nat) : BuddyPageAllocator MAX_ORDER :=
  { a with freeBlocks := Function.update a.freeBlocks order l }

/-- `pop_free`: take the block at the head of the free list of `order`, if there is one. -/
def popFree (order : Nat) : Except (Fault Error) (Option Nat × BuddyPageAllocator MAX_ORDER) := do
  match ← a.freeList order with
  | [] => pure (none, a)
  | b :: rest => pure (some b, a.setFreeList order rest)

/-- `push_free`: put `block` at the head of the free list of `order`. -/
def pushFree (order block : Nat) : Except (Fault Error) (BuddyPageAllocator MAX_ORDER) := do
  Fault.assert (block % a.pageSize.bytes == 0)
  let l ← a.freeList order
  pure (a.setFreeList order (block :: l))

/-- `try_remove_buddy`: unlink `buddy` from the free list of `order`; `true` when it was on it. -/
def tryRemoveBuddy (order buddy : Nat) :
    Except (Fault Error) (Bool × BuddyPageAllocator MAX_ORDER) := do
  let l ← a.freeList order
  if buddy ∈ l then pure (true, a.setFreeList order (l.erase buddy)) else pure (false, a)

/-- `block_in_free_list`: whether `block` is on the free list of `order`. -/
def blockInFreeList (order block : Nat) : Except (Fault Error) Bool := do
  let l ← a.freeList order
  pure (l.contains block)

/-- `split_block_to_size`: while `currentOrder > desiredOrder`, lower `currentOrder` and free the
upper half of the block at that order. The block itself stays where it is. -/
def splitBlockToSize (a : BuddyPageAllocator MAX_ORDER) (block desiredOrder : Nat) :
    (currentOrder : Nat) → Except (Fault Error) (BuddyPageAllocator MAX_ORDER)
  | 0 => pure a
  | c + 1 =>
    if desiredOrder < c + 1 then do
      let a' ← a.pushFree c (block + 2 ^ c * a.pageSize.bytes)
      a'.splitBlockToSize block desiredOrder c
    else pure a

/-- `buddy_of`: the block whose offset from `base_addr` differs from that of `block` in the bit
of `2^order` pages. -/
def buddyOf (block order : Nat) : Except (Fault Error) Nat := do
  -- `offset_from(..).try_into().unwrap()` panics on a block below `base_addr`
  Fault.assert (a.baseAddr ≤ block)
  let offset := block - a.baseAddr
  let buddyOffset := offset ^^^ (a.pageSize.bytes * 2 ^ order)
  let ptr := a.baseAddr + buddyOffset
  Fault.assert (ptr != 0)
  pure ptr

/-- The loop of `allocate`: `pop_free` at `actualOrder` and then at each order above it, until
a block is found or `actualOrder` reaches `MAX_ORDER`. Returns the block and its order. -/
def allocLoop (a : BuddyPageAllocator MAX_ORDER) (actualOrder : Nat) :
    Except (Fault Error) (Nat × Nat × BuddyPageAllocator MAX_ORDER) :=
  if actualOrder < MAX_ORDER then do
    match ← a.popFree actualOrder with
    | (some free, a') => pure (free, actualOrder, a')
    | (none, a') => allocLoop a' (actualOrder + 1)
  else throw (.error .outOfMemory)
termination_by MAX_ORDER - actualOrder

def allocate (numPages : Nat) : Except (Fault Error) (Nat × BuddyPageAllocator MAX_ORDER) := do
  Fault.ensure (0 < numPages) .invalidSize
  let some blockSize := Usize.checkedNextPowerOfTwo numPages | throw (.error .outOfMemory)
  let order := blockSize.log2
  let (freeBlock, actualOrder, a') ← a.allocLoop order
  let a'' ← a'.splitBlockToSize freeBlock order actualOrder
  pure (PhysicalAddress.ofPtr freeBlock, a'')

def free (pages numPages : Nat) : Except (Fault Error) (BuddyPageAllocator MAX_ORDER) := do
  let block := PhysicalAddress.toPtr pages
  Fault.ensure (block != 0) .unknownPtr
  Fault.ensure (0 < numPages) .invalidSize
  Fault.ensure (a.baseAddr ≤ block && block < a.endAddr) .unknownPtr
  let some blockSize := Usize.checkedNextPowerOfTwo numPages | throw (.error .invalidSize)
  let order := blockSize.log2
  Fault.ensure (order < MAX_ORDER) .invalidSize
  let buddy ← a.buddyOf block order
  let (removed, a) ← a.tryRemoveBuddy order buddy
  if removed then
    a.pushFree (order + 1) block
  else do
    Fault.ensure (!(← a.blockInFreeList order block)) .unknownPtr
    Fault.ensure (!(← a.blockInFreeList (order + 1) block)) .unknownPtr
    Fault.ensure (!(← a.blockInFreeList (order + 1) buddy)) .unknownPtr
    a.pushFree order block

/-- `BuddyPageAllocator::new`: the region `[memoryStart, memoryStart + memoryLength)`, with every
free list empty. -/
def new (pageSize : PageSize) (memoryStart memoryLength : Nat) :
    Except (Fault Error) (BuddyPageAllocator MAX_ORDER) := do
  let pageLen := pageSize.bytes
  Fault.assert (memoryStart % pageLen == 0)
  Fault.assert (memoryLength % pageLen == 0)
  pure ⟨memoryStart, memoryStart + memoryLength, pageSize, fun _ => []⟩

/-- The `while` loop of `add_memory_region`: push a block of `order` at `blockStart` while one
fits in the bytes left, and otherwise go down an order; stop when no bytes are left, or when not
even a page fits. `block_len` is the `usize` product `(1 << order) * page_len`, which panics when
it reaches `2 ^ 64`, as overflow checks make it do in the debug profile. -/
def addBlocks (a : BuddyPageAllocator MAX_ORDER) (blockStart remainingBytes order : Nat) :
    Except (Fault Error) (BuddyPageAllocator MAX_ORDER) :=
  if remainingBytes > 0 then
    let blockLen := 2 ^ order * a.pageSize.bytes
    if blockLen ≥ 2 ^ 64 then .error .panic
    else if remainingBytes ≥ blockLen then do
      let a' ← a.pushFree order blockStart
      addBlocks a' (blockStart + blockLen) (remainingBytes - blockLen) order
    else
      -- `order.checked_sub(1)`, and `break` at order `0`
      match order with
      | 0 => pure a
      | newOrder + 1 => addBlocks a blockStart remainingBytes newOrder
  else pure a
termination_by (remainingBytes, order)
decreasing_by
  · have := Nat.mul_pos (Nat.two_pow_pos order) a.pageSize.bytes_pos
    exact Prod.Lex.left _ _ (by omega)
  · exact Prod.Lex.right _ (Nat.lt_succ_self _)

/-- `add_memory_region`: `false` when the region holds no whole page past its first page boundary;
otherwise the blocks of the loop, from that boundary on, for `region_length` bytes. -/
def addMemoryRegion (regionStart regionLength : Nat) :
    Except (Fault Error) (Bool × BuddyPageAllocator MAX_ORDER) := do
  Fault.assert (regionLength > 0)
  Fault.assert (regionStart != 0)
  Fault.assert (regionStart ≥ a.baseAddr && regionStart < a.endAddr)
  Fault.assert (regionStart + regionLength ≤ a.endAddr)
  let pageLen := a.pageSize.bytes
  let startAlignmentPadding := Usize.alignOffset regionStart pageLen
  if regionLength < pageLen || regionLength - startAlignmentPadding < pageLen then
    pure (false, a)
  else do
    -- the loop starts with all of `region_length` left, not `region_length` less the padding
    let a' ← a.addBlocks (regionStart + startAlignmentPadding) regionLength (MAX_ORDER - 1)
    pure (true, a')

/-! ## Facts about single operations -/

section Ops

variable {a}

theorem freeList_of_lt {order : Nat} (h : order < MAX_ORDER) : a.freeList order = .ok (a.freeBlocks order) := by
  simp [freeList, h]

theorem freeList_of_le {order : Nat} (h : MAX_ORDER ≤ order) : a.freeList order = .error .panic := by
  simp [freeList, Nat.not_lt.2 h]

theorem pushFree_isPanic_of_le {order : Nat} (block : Nat) (h : MAX_ORDER ≤ order) :
    Fault.IsPanic (a.pushFree order block) := by
  unfold pushFree
  cases hc : (block % a.pageSize.bytes == 0)
  · exact Fault.isPanic_bind (by simp [Fault.IsPanic])
  · simp only [Fault.assert_true, Fault.ok_bind, freeList_of_le h]
    rfl

theorem blockInFreeList_isPanic_of_le {order : Nat} (block : Nat) (h : MAX_ORDER ≤ order) :
    Fault.IsPanic (a.blockInFreeList order block) := by
  simp only [blockInFreeList, freeList_of_le h]
  rfl

theorem blockInFreeList_of_lt {order block : Nat} (h : order < MAX_ORDER) :
    a.blockInFreeList order block = .ok ((a.freeBlocks order).contains block) := by
  simp [blockInFreeList, freeList_of_lt h]

theorem tryRemoveBuddy_of_lt {order buddy : Nat} (h : order < MAX_ORDER) :
    a.tryRemoveBuddy order buddy =
      if buddy ∈ a.freeBlocks order then .ok (true, a.setFreeList order ((a.freeBlocks order).erase buddy))
      else .ok (false, a) := by
  simp only [tryRemoveBuddy, freeList_of_lt h, Fault.ok_bind]
  split <;> rfl

@[simp] theorem setFreeList_pageSize (order : Nat) (l : List Nat) :
    (a.setFreeList order l).pageSize = a.pageSize := rfl

theorem pushFree_of_lt {order block : Nat} (halign : block % a.pageSize.bytes = 0)
    (h : order < MAX_ORDER) :
    a.pushFree order block = .ok (a.setFreeList order (block :: a.freeBlocks order)) := by
  simp [pushFree, halign, freeList_of_lt h]

end Ops

/-! ## The loop of `add_memory_region`, one pass at a time -/

section Loop

variable {a}

theorem addBlocks_of_zero {blockStart remainingBytes order : Nat} (h : remainingBytes = 0) :
    a.addBlocks blockStart remainingBytes order = .ok a := by
  rw [addBlocks.eq_def, if_neg (by omega)]
  rfl

theorem addBlocks_push {blockStart remainingBytes order : Nat} (hpos : 0 < remainingBytes)
    (hlen : 2 ^ order * a.pageSize.bytes < 2 ^ 64)
    (hfit : 2 ^ order * a.pageSize.bytes ≤ remainingBytes)
    (halign : blockStart % a.pageSize.bytes = 0) (horder : order < MAX_ORDER) :
    a.addBlocks blockStart remainingBytes order =
      (a.setFreeList order (blockStart :: a.freeBlocks order)).addBlocks
        (blockStart + 2 ^ order * a.pageSize.bytes) (remainingBytes - 2 ^ order * a.pageSize.bytes)
        order := by
  rw [addBlocks.eq_def, if_pos hpos]
  dsimp only
  rw [if_neg (Nat.not_le.2 hlen), if_pos hfit, pushFree_of_lt halign horder, Fault.ok_bind]

theorem addBlocks_succ_of_lt {blockStart remainingBytes order : Nat} (hpos : 0 < remainingBytes)
    (hlen : 2 ^ (order + 1) * a.pageSize.bytes < 2 ^ 64)
    (hshort : remainingBytes < 2 ^ (order + 1) * a.pageSize.bytes) :
    a.addBlocks blockStart remainingBytes (order + 1) = a.addBlocks blockStart remainingBytes order := by
  rw [addBlocks, if_pos hpos]
  dsimp only
  rw [if_neg (Nat.not_le.2 hlen), if_neg (Nat.not_le.2 hshort)]

/-- Fewer bytes left than a block of order `k + 1` takes: from any order above `k` whose blocks
fit in a `usize`, the loop goes down to `k` without pushing anything. -/
theorem addBlocks_of_lt_pow {blockStart remainingBytes k order : Nat} (hpos : 0 < remainingBytes)
    (hshort : remainingBytes < 2 ^ (k + 1) * a.pageSize.bytes) (hk : k ≤ order)
    (hlen : 2 ^ order * a.pageSize.bytes < 2 ^ 64) :
    a.addBlocks blockStart remainingBytes order = a.addBlocks blockStart remainingBytes k := by
  induction order, hk using Nat.le_induction with
  | base => rfl
  | succ order hk ih =>
    have hpow : 2 ^ (k + 1) * a.pageSize.bytes ≤ 2 ^ (order + 1) * a.pageSize.bytes :=
      Nat.mul_le_mul_right _ (Nat.pow_le_pow_right (by decide) (by omega))
    have hdown : 2 ^ order * a.pageSize.bytes ≤ 2 ^ (order + 1) * a.pageSize.bytes :=
      Nat.mul_le_mul_right _ (Nat.pow_le_pow_right (by decide) (Nat.le_succ order))
    rw [addBlocks_succ_of_lt hpos hlen (by omega), ih (by omega)]

end Loop

/-! ## The blocks of a region -/

/-- `bs` are blocks, as orders and starts, laid end to end from `s` to `e`. -/
def Tiles (pageLen : Nat) : Nat → List (Nat × Nat) → Nat → Prop
  | s, [], e => e = s
  | s, kb :: bs, e => kb.2 = s ∧ Tiles pageLen (s + 2 ^ kb.1 * pageLen) bs e

/-- Each block of `bs` pushed, in order, on the free list of its order. -/
def pushAll (a : BuddyPageAllocator MAX_ORDER) (bs : List (Nat × Nat)) :
    BuddyPageAllocator MAX_ORDER :=
  bs.foldl (fun a kb => a.setFreeList kb.1 (kb.2 :: a.freeBlocks kb.1)) a

theorem mul_add_sub_div_mul {r m p : Nat} (hp : 0 < p) (h : m * p ≤ r) :
    m * p + (r - m * p) / p * p = r / p * p := by
  have hm : m ≤ r / p := (Nat.le_div_iff_mul_le hp).2 h
  have hdiv : (r - m * p) / p = r / p - m := by
    rw [Nat.mul_comm m p, Nat.sub_mul_div r p m]
  rw [hdiv, Nat.sub_mul]
  have := Nat.mul_le_mul_right p hm
  omega

/-- The loop of `add_memory_region`, from an order whose blocks fit in a `usize`, pushes blocks of
at most that order, laid end to end from the start for the whole pages of the bytes it is given. -/
theorem addBlocks_spec {blockStart remainingBytes order : Nat}
    (halign : blockStart % a.pageSize.bytes = 0) (horder : order < MAX_ORDER)
    (hlen : 2 ^ order * a.pageSize.bytes < 2 ^ 64) :
    ∃ bs, a.addBlocks blockStart remainingBytes order = .ok (a.pushAll bs) ∧
      Tiles a.pageSize.bytes blockStart bs
        (blockStart + remainingBytes / a.pageSize.bytes * a.pageSize.bytes) ∧
      ∀ kb ∈ bs, kb.1 ≤ order := by
  fun_induction addBlocks a blockStart remainingBytes order with
  | case1 a blockStart remainingBytes order hpos blockLen hover =>
    exact absurd hlen (Nat.not_lt.2 hover)
  | case2 a blockStart remainingBytes order hpos blockLen _ hfit ih =>
    have hnext : (blockStart + blockLen) %
        (a.setFreeList order (blockStart :: a.freeBlocks order)).pageSize.bytes = 0 := by
      rw [setFreeList_pageSize, Nat.add_mod, halign, Nat.mul_mod_left, Nat.zero_mod]
    obtain ⟨bs, hrun, htiles, hle⟩ := ih _ hnext horder hlen
    rw [setFreeList_pageSize] at htiles
    refine ⟨(order, blockStart) :: bs, ?_, ⟨rfl, ?_⟩, ?_⟩
    · rw [pushFree_of_lt halign horder, Fault.ok_bind, hrun]
      rfl
    · have hsum := mul_add_sub_div_mul a.pageSize.bytes_pos hfit
      rwa [Nat.add_assoc, hsum] at htiles
    · simp only [List.mem_cons, forall_eq_or_imp]
      exact ⟨le_refl _, hle⟩
  | case3 a blockStart remainingBytes hpos blockLen _ hshort =>
    have hzero : remainingBytes / a.pageSize.bytes = 0 := Nat.div_eq_of_lt (by simpa [blockLen] using hshort)
    refine ⟨[], rfl, ?_, by simp⟩
    simp [Tiles, hzero]
  | case4 a blockStart remainingBytes hpos newOrder blockLen _ hshort ih =>
    have hdown : 2 ^ newOrder * a.pageSize.bytes < 2 ^ 64 :=
      lt_of_le_of_lt (Nat.mul_le_mul_right _ (Nat.pow_le_pow_right (by decide) (Nat.le_succ newOrder)))
        hlen
    obtain ⟨bs, hrun, htiles, hle⟩ := ih halign (by omega) hdown
    exact ⟨bs, hrun, htiles, fun kb hkb => Nat.le_succ_of_le (hle kb hkb)⟩
  | case5 a blockStart remainingBytes order hzero =>
    refine ⟨[], rfl, ?_, by simp⟩
    simp [Tiles, show remainingBytes = 0 by omega]

/-- A region that passes the checks of `add_memory_region` and holds a page past its first page
boundary is carved into blocks laid end to end from that boundary, for the whole pages of
`region_length`. -/
theorem addMemoryRegion_spec {regionStart regionLength : Nat} (hmax : 0 < MAX_ORDER)
    (hblock : 2 ^ (MAX_ORDER - 1) * a.pageSize.bytes < 2 ^ 64)
    (hlen : 0 < regionLength) (hnull : regionStart ≠ 0)
    (hin : a.baseAddr ≤ regionStart ∧ regionStart < a.endAddr)
    (hend : regionStart + regionLength ≤ a.endAddr)
    (hpage : Usize.alignOffset regionStart a.pageSize.bytes + a.pageSize.bytes ≤ regionLength) :
    ∃ bs, a.addMemoryRegion regionStart regionLength = .ok (true, a.pushAll bs) ∧
      Tiles a.pageSize.bytes (regionStart + Usize.alignOffset regionStart a.pageSize.bytes) bs
        (regionStart + Usize.alignOffset regionStart a.pageSize.bytes +
          regionLength / a.pageSize.bytes * a.pageSize.bytes) ∧
      ∀ kb ∈ bs, kb.1 < MAX_ORDER := by
  have halign := @Usize.add_alignOffset_mod regionStart _ a.pageSize.bytes_pos
  obtain ⟨bs, hrun, htiles, hle⟩ :=
    @addBlocks_spec MAX_ORDER a _ regionLength _ halign (Nat.sub_lt hmax Nat.one_pos) hblock
  refine ⟨bs, ?_, htiles, fun kb hkb => by have := hle kb hkb; omega⟩
  have hcheck : (regionLength < a.pageSize.bytes ||
      regionLength - Usize.alignOffset regionStart a.pageSize.bytes < a.pageSize.bytes) = false := by
    simp only [Bool.or_eq_false_iff, decide_eq_false_iff_not]
    omega
  have hnull' : (regionStart != 0) = true := by simpa using hnull
  simp only [addMemoryRegion, hlen, hnull', hin, hend, decide_true, Bool.and_self,
    Fault.assert_true, Fault.ok_bind, hcheck, hrun]
  rfl

/-! ## The buddy invariant -/

/-- The end of the block of order `k` at `b`, `2^k` pages further on. -/
def blockEnd (k b : Nat) : Nat := b + 2 ^ k * a.pageSize.bytes

/-- Every free block with its order: the free lists of the orders below `MAX_ORDER`, one after
the other. -/
def freeBlockList : List (Nat × Nat) :=
  (List.range MAX_ORDER).flatMap fun k => (a.freeBlocks k).map fun b => (k, b)

/-- The buddy invariant: a free block of order `k` starts at an offset from `base_addr` that is
a multiple of `2^k` pages, and no two free blocks share a page. -/
def BuddyInvariant : Prop :=
  (∀ kb ∈ a.freeBlockList,
      a.baseAddr ≤ kb.2 ∧ (kb.2 - a.baseAddr) % (2 ^ kb.1 * a.pageSize.bytes) = 0) ∧
    a.freeBlockList.Pairwise fun x y => a.blockEnd x.1 x.2 ≤ y.2 ∨ a.blockEnd y.1 y.2 ≤ x.2

instance : Decidable a.BuddyInvariant := inferInstanceAs (Decidable (_ ∧ _))

/-! ## What `add_memory_region` does wrong

The loop of `add_memory_region` starts at the first page boundary of the region but is given all
of `region_length` (`addMemoryRegion_spec`), so its blocks run past the region's end by the
padding; and it carves the largest block that fits from wherever it is, whether or not that place
is aligned to the block's size. -/

/-- Eight pages at `0xffff_0000_4000_0000`, with every free list empty. -/
def eightPages : BuddyPageAllocator 16 where
  baseAddr := kernelTag + 0x4000_0000
  endAddr := kernelTag + 0x4000_8000
  pageSize := .fourKiB
  freeBlocks _ := []

/-- `eightPages` as `new` makes it, and the region of two pages that starts half a page
in. `add_memory_region` adds it, and its one free block is the block of order 1 at page 1: it ends
half a page past the region, on a page that was never added, and page 1 is not a multiple of two
pages from `base_addr`, so the buddy invariant fails. -/
theorem add_memory_region_overruns_region :
    ((do
      let a ← (new .fourKiB (kernelTag + 0x4000_0000) 0x8000 :
        Except (Fault Error) (BuddyPageAllocator 16))
      let (added, a) ← a.addMemoryRegion (kernelTag + 0x4000_0800) 0x2000
      pure (added, a.freeBlockList, decide a.BuddyInvariant,
        decide (kernelTag + 0x4000_0800 + 0x2000 < a.blockEnd 1 (kernelTag + 0x4000_1000)))) :
        Except (Fault Error) _) =
      .ok (true, [(1, kernelTag + 0x4000_1000)], false, true) := by
  have hnew : (new .fourKiB (kernelTag + 0x4000_0000) 0x8000 :
      Except (Fault Error) (BuddyPageAllocator 16)) = .ok eightPages := rfl
  -- the padding is half a page, and the loop is given all `0x2000` bytes from the boundary
  have hregion : eightPages.addMemoryRegion (kernelTag + 0x4000_0800) 0x2000 =
      (do let a ← eightPages.addBlocks (kernelTag + 0x4000_1000) 0x2000 15; pure (true, a)) := rfl
  have hloop : eightPages.addBlocks (kernelTag + 0x4000_1000) 0x2000 15 =
      .ok (eightPages.setFreeList 1 [kernelTag + 0x4000_1000]) := by
    rw [addBlocks_of_lt_pow (k := 1) (by decide) (by decide) (by decide) (by decide),
      addBlocks_push (by decide) (by decide) (by decide) (by decide) (by decide),
      addBlocks_of_zero (by decide)]
    rfl
  rw [hnew, Fault.ok_bind, hregion, hloop]
  decide +kernel

/-! ## What `free` does wrong

`free` merges a block with its buddy and pushes the merged block at `block`, the address that was
freed, whether that is the lower or the upper half; and it indexes the free list of `order + 1`
without checking `order + 1 < MAX_ORDER`. -/

/-- Freeing a block of the largest order panics once it passes the checks before `buddy_of`:
if its buddy is free, the merged block is pushed at order `MAX_ORDER`, and if not, the double-free
check reads the free list of order `MAX_ORDER`. -/
theorem free_top_order_panics (pages numPages : Nat) (hpos : 0 < numPages)
    (hle : numPages ≤ 2 ^ 63) (horder : numPages.nextPowerOfTwo.log2 + 1 = MAX_ORDER)
    (hbase : 0 < a.baseAddr)
    (hrange : a.baseAddr ≤ PhysicalAddress.toPtr pages ∧ PhysicalAddress.toPtr pages < a.endAddr)
    (hlive : PhysicalAddress.toPtr pages ∉ a.freeBlocks numPages.nextPowerOfTwo.log2) :
    Fault.IsPanic (a.free pages numPages) := by
  set order := numPages.nextPowerOfTwo.log2 with horder_def
  set block := PhysicalAddress.toPtr pages with hblock
  have hlt : order < MAX_ORDER := by omega
  have hblock0 : (block != 0) = true := by simp; omega
  have hbuddy : a.buddyOf block order =
      .ok (a.baseAddr + ((block - a.baseAddr) ^^^ (a.pageSize.bytes * 2 ^ order))) := by
    have hne : (a.baseAddr + ((block - a.baseAddr) ^^^ (a.pageSize.bytes * 2 ^ order)) != 0) = true := by
      simp; omega
    simp only [buddyOf, decide_eq_true hrange.1, Fault.assert_true, Fault.ok_bind, hne]
    rfl
  simp only [free, ← hblock, hblock0, Fault.ensure_true, Fault.ok_bind, decide_eq_true hpos,
    hrange.1, hrange.2, decide_true, Bool.and_self, Usize.checkedNextPowerOfTwo, hle,
    if_true, ← horder_def, decide_eq_true hlt, hbuddy, tryRemoveBuddy_of_lt hlt]
  split
  · -- the buddy was free: the merged block goes to order `MAX_ORDER`
    simp only [Fault.ok_bind, if_true]
    exact pushFree_isPanic_of_le block (by omega)
  · -- the buddy is allocated: the second double-free check indexes order `MAX_ORDER`
    simp only [Fault.ok_bind, Bool.false_eq_true, if_false, blockInFreeList_of_lt hlt]
    simp only [List.contains_eq_mem, hlive, decide_false, Bool.not_false, Fault.ensure_true,
      Fault.ok_bind]
    exact Fault.isPanic_bind (blockInFreeList_isPanic_of_le block (by omega))

/-- Two pages at `0xffff_0000_4000_0000` managed with `MAX_ORDER = 2`, and nothing free: the
state after the one block of order 1 was allocated. -/
def twoPagesAllocated : BuddyPageAllocator 2 where
  baseAddr := kernelTag + 0x4000_0000
  endAddr := kernelTag + 0x4000_2000
  pageSize := .fourKiB
  freeBlocks _ := []

theorem free_top_order_panics_two_pages :
    (0 < 2 ∧ 2 ≤ 2 ^ 63 ∧ (Nat.nextPowerOfTwo 2).log2 + 1 = 2 ∧ 0 < twoPagesAllocated.baseAddr ∧
      (twoPagesAllocated.baseAddr ≤ PhysicalAddress.toPtr 0x4000_0000 ∧
        PhysicalAddress.toPtr 0x4000_0000 < twoPagesAllocated.endAddr) ∧
      PhysicalAddress.toPtr 0x4000_0000 ∉
        twoPagesAllocated.freeBlocks (Nat.nextPowerOfTwo 2).log2) ∧
    Fault.IsPanic (twoPagesAllocated.free 0x4000_0000 2) :=
  ⟨by decide +kernel, free_top_order_panics twoPagesAllocated 0x4000_0000 2 (by decide) (by decide)
    (by decide +kernel) (by decide) (by decide) (by decide +kernel)⟩

/-- Four pages at `0xffff_0000_4000_0000`, free as one block of order 2. -/
def fourPageRegion : BuddyPageAllocator 16 where
  baseAddr := kernelTag + 0x4000_0000
  endAddr := kernelTag + 0x4000_4000
  pageSize := .fourKiB
  freeBlocks k := if k = 2 then [kernelTag + 0x4000_0000] else []

/-- From `fourPageRegion`, which satisfies the buddy invariant, allocations of 1, 1 and 2 pages
return pages 0, 1 and 2; freeing page 0 and then page 1 merges them into a block of order 1
pushed at page 1, the upper buddy. The invariant no longer holds, and the new free block covers
page 2, which is still allocated. -/
theorem free_merges_at_upper_buddy :
    fourPageRegion.BuddyInvariant ∧
    ((do
      let (p0, a) ← fourPageRegion.allocate 1
      let (p1, a) ← a.allocate 1
      let (p2, a) ← a.allocate 2
      let a ← a.free p0 1
      let a ← a.free p1 1
      pure (p0, p1, p2, a.freeBlocks 1, decide a.BuddyInvariant,
        decide (PhysicalAddress.toPtr p2 < a.blockEnd 1 (PhysicalAddress.toPtr p1))) :
        Except (Fault Error) _) =
      .ok (0x4000_0000, 0x4000_1000, 0x4000_2000, [kernelTag + 0x4000_1000], false, true)) := by
  decide +kernel

/-- The double-free check of `free` looks at four places only. When the buddy is not free at
`order`, a block passes it whenever neither the block nor its buddy is on the free lists of
`order` and `order + 1`, and is pushed as freed, wherever else its pages may be free. -/
theorem free_of_unlisted (pages numPages buddy : Nat) (hpos : 0 < numPages)
    (hle : numPages ≤ 2 ^ 63) (horder : numPages.nextPowerOfTwo.log2 + 1 < MAX_ORDER)
    (hnull : PhysicalAddress.toPtr pages ≠ 0)
    (hrange : a.baseAddr ≤ PhysicalAddress.toPtr pages ∧ PhysicalAddress.toPtr pages < a.endAddr)
    (halign : PhysicalAddress.toPtr pages % a.pageSize.bytes = 0)
    (hbuddy : a.buddyOf (PhysicalAddress.toPtr pages) numPages.nextPowerOfTwo.log2 = .ok buddy)
    (hunlisted : buddy ∉ a.freeBlocks numPages.nextPowerOfTwo.log2 ∧
      PhysicalAddress.toPtr pages ∉ a.freeBlocks numPages.nextPowerOfTwo.log2 ∧
      PhysicalAddress.toPtr pages ∉ a.freeBlocks (numPages.nextPowerOfTwo.log2 + 1) ∧
      buddy ∉ a.freeBlocks (numPages.nextPowerOfTwo.log2 + 1)) :
    a.free pages numPages =
      .ok (a.setFreeList numPages.nextPowerOfTwo.log2
        (PhysicalAddress.toPtr pages :: a.freeBlocks numPages.nextPowerOfTwo.log2)) := by
  set order := numPages.nextPowerOfTwo.log2 with horder_def
  set block := PhysicalAddress.toPtr pages with hblock
  obtain ⟨hbuddy₀, hblock₀, hblock₁, hbuddy₁⟩ := hunlisted
  have hblock0 : (block != 0) = true := by simpa using hnull
  simp only [free, ← hblock, hblock0, Fault.ensure_true, Fault.ok_bind, decide_eq_true hpos,
    hrange.1, hrange.2, decide_true, Bool.and_self, Usize.checkedNextPowerOfTwo, hle,
    if_true, ← horder_def, decide_eq_true (show order < MAX_ORDER by omega), hbuddy,
    tryRemoveBuddy_of_lt (show order < MAX_ORDER by omega), if_neg hbuddy₀,
    blockInFreeList_of_lt (show order < MAX_ORDER by omega), blockInFreeList_of_lt horder,
    List.contains_eq_mem, hblock₀, hblock₁, hbuddy₁, decide_false, Bool.not_false,
    Bool.false_eq_true, if_false]
  exact pushFree_of_lt halign (by omega)

/-- Four pages at `0xffff_0000_4000_0000` added as one region, which makes them one free block of
order 2 at page 0, as the buddy invariant wants. Page 1 is free, inside that block, and was never
handed out; `free` of it as one page succeeds, and page 1 is then both on the free list of order
0 and inside the free block of order 2. -/
theorem free_accepts_page_inside_free_block :
    ((do
      let a ← (new .fourKiB (kernelTag + 0x4000_0000) 0x4000 :
        Except (Fault Error) (BuddyPageAllocator 16))
      let (_, a) ← a.addMemoryRegion (kernelTag + 0x4000_0000) 0x4000
      let before := (a.freeBlockList, decide a.BuddyInvariant)
      let a ← a.free 0x4000_1000 1
      pure (before, a.freeBlockList, decide a.BuddyInvariant)) : Except (Fault Error) _) =
      .ok (([(2, kernelTag + 0x4000_0000)], true),
        [(0, kernelTag + 0x4000_1000), (2, kernelTag + 0x4000_0000)], false) := by
  have hnew : (new .fourKiB (kernelTag + 0x4000_0000) 0x4000 :
      Except (Fault Error) (BuddyPageAllocator 16)) =
        .ok ⟨kernelTag + 0x4000_0000, kernelTag + 0x4000_4000, .fourKiB, fun _ => []⟩ := rfl
  have hregion : (⟨kernelTag + 0x4000_0000, kernelTag + 0x4000_4000, .fourKiB, fun _ => []⟩ :
      BuddyPageAllocator 16).addMemoryRegion (kernelTag + 0x4000_0000) 0x4000 =
        (do
          let a ← (⟨kernelTag + 0x4000_0000, kernelTag + 0x4000_4000, .fourKiB, fun _ => []⟩ :
            BuddyPageAllocator 16).addBlocks (kernelTag + 0x4000_0000) 0x4000 15
          pure (true, a)) := rfl
  have hloop : (⟨kernelTag + 0x4000_0000, kernelTag + 0x4000_4000, .fourKiB, fun _ => []⟩ :
      BuddyPageAllocator 16).addBlocks (kernelTag + 0x4000_0000) 0x4000 15 =
        .ok ((⟨kernelTag + 0x4000_0000, kernelTag + 0x4000_4000, .fourKiB, fun _ => []⟩ :
          BuddyPageAllocator 16).setFreeList 2 [kernelTag + 0x4000_0000]) := by
    rw [addBlocks_of_lt_pow (k := 2) (by decide) (by decide) (by decide) (by decide),
      addBlocks_push (by decide) (by decide) (by decide) (by decide) (by decide),
      addBlocks_of_zero (by decide)]
  rw [hnew, Fault.ok_bind, hregion, hloop]
  decide +kernel

end BuddyPageAllocator

end EndlessHole.Memory
