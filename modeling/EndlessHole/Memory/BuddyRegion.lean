import EndlessHole.Memory.BuddyInvariant

/-!
# A region added to a new buddy allocator

The kernel makes its page allocator with `BuddyPageAllocator::new` over all of memory and hands
it the first free region with `add_memory_region` (`kernel/src/memory.rs`). The loop of
`add_memory_region` carves the largest block that fits from wherever it is and goes down an order
when none does, so the orders of its blocks never grow and each block starts at a multiple of its
size from where the loop started (`addBlocks_aligned`). A region that starts on a page, at a
multiple of the largest block from `base_addr`, is then carved into aligned blocks that tile its
whole pages (`Tiles.pairwiseDisjoint_cover`), and every run of allocations and frees from
there shares out exactly those pages (`add_memory_region_seeds_allocator`).
-/

namespace EndlessHole.Memory

namespace BuddyPageAllocator

open Regions

variable {MAX_ORDER : Nat} {a : BuddyPageAllocator MAX_ORDER}

/-- Blocks laid end to end from `s` to `e` share no page and cover `[s, e)`. -/
theorem Tiles.pairwiseDisjoint_cover : ∀ {s e : Nat} {bs : List (Nat × Nat)}, Tiles a.pageSize.bytes s bs e →
    s ≤ e ∧ PairwiseDisjoint a.blockRegion bs ∧ cover a.blockRegion bs = Set.Ico s e
  | s, e, [], h => by
    have he : e = s := h
    subst he
    exact ⟨le_rfl, List.Pairwise.nil, by simp⟩
  | s, e, (k, b) :: bs, h => by
    obtain ⟨hb, h⟩ := h
    obtain ⟨hle, hdisj, hcover⟩ := Tiles.pairwiseDisjoint_cover h
    have hb : b = s := hb
    subst hb
    have hregion : a.blockRegion (k, b) = Set.Ico b (b + 2 ^ k * a.pageSize.bytes) := rfl
    have hapart : Disjoint (a.blockRegion (k, b)) (cover a.blockRegion bs) := by
      rw [hcover, hregion]
      exact Set.Ico_disjoint_Ico_same
    refine ⟨by omega, List.pairwise_cons.2 ⟨disjoint_cover_iff.1 hapart, hdisj⟩, ?_⟩
    rw [cover_cons, hcover, hregion, Set.Ico_union_Ico_eq_Ico (by omega) hle]

theorem mod_pageSize_of_aligned (hbase : a.baseAddr % a.pageSize.bytes = 0) {x order : Nat}
    (hx : a.baseAddr ≤ x) (halign : (x - a.baseAddr) % (2 ^ order * a.pageSize.bytes) = 0) :
    x % a.pageSize.bytes = 0 := by
  apply Nat.mod_eq_zero_of_dvd
  have hdiff : a.pageSize.bytes ∣ x - a.baseAddr :=
    (Dvd.intro_left _ rfl : a.pageSize.bytes ∣ 2 ^ order * a.pageSize.bytes).trans
      (Nat.dvd_of_mod_eq_zero halign)
  rw [show x = a.baseAddr + (x - a.baseAddr) by omega]
  exact Nat.dvd_add (Nat.dvd_of_mod_eq_zero hbase) hdiff

/-- The loop of `add_memory_region`, from a start at a multiple of `2^order` pages from
`base_addr`, keeps every free block aligned to its size: a block it pushes starts where the loop
is, and the loop goes on from the block's end at the same order or from the same place an order
down. -/
theorem addBlocks_aligned (hbase : a.baseAddr % a.pageSize.bytes = 0)
    {blockStart remainingBytes order : Nat} (hstart : a.baseAddr ≤ blockStart)
    (halign : (blockStart - a.baseAddr) % (2 ^ order * a.pageSize.bytes) = 0)
    (horder : order < MAX_ORDER) (ha : ∀ kb ∈ a.freeBlockList, a.Aligned kb) :
    ∀ {a' : BuddyPageAllocator MAX_ORDER}, a.addBlocks blockStart remainingBytes order = .ok a' →
      ∀ kb ∈ a'.freeBlockList, a'.Aligned kb := by
  fun_induction addBlocks a blockStart remainingBytes order with
  | case1 a blockStart remainingBytes order hpos blockLen hover =>
    intro a' h
    cases h
  | case2 a blockStart remainingBytes order hpos blockLen _ hfit ih =>
    intro a' h
    have hlen : blockLen = 2 ^ order * a.pageSize.bytes := rfl
    rw [pushFree_of_lt (mod_pageSize_of_aligned hbase hstart halign) horder, Fault.ok_bind] at h
    refine ih (a.setFreeList order (blockStart :: a.freeBlocks order)) hbase
      (by simp only [setFreeList_baseAddr]; omega) ?_ horder ?_ h
    · rw [setFreeList_baseAddr, setFreeList_pageSize,
        show blockStart + blockLen - a.baseAddr = blockStart - a.baseAddr + 2 ^ order * a.pageSize.bytes
          by omega, Nat.add_mod_right, halign]
    · intro kb hkb
      have hal : (a.setFreeList order (blockStart :: a.freeBlocks order)).Aligned = a.Aligned :=
        aligned_congr rfl rfl
      rw [hal]
      rcases List.mem_cons.1 ((a.freeBlockList_push horder).mem_iff.1 hkb) with rfl | hkb
      · exact ⟨hstart, halign⟩
      · exact ha kb hkb
  | case3 a blockStart remainingBytes hpos blockLen _ hshort =>
    intro a' h
    cases h
    exact ha
  | case4 a blockStart remainingBytes hpos newOrder blockLen _ hshort ih =>
    have hdvd : 2 ^ newOrder * a.pageSize.bytes ∣ 2 ^ (newOrder + 1) * a.pageSize.bytes :=
      Nat.mul_dvd_mul_right (Nat.pow_dvd_pow 2 (Nat.le_succ newOrder)) _
    have halign' : (blockStart - a.baseAddr) % (2 ^ newOrder * a.pageSize.bytes) = 0 := by
      rw [← Nat.mod_mod_of_dvd _ hdvd, halign, Nat.zero_mod]
    intro a' h
    exact ih hbase hstart halign' (by omega) ha h
  | case5 a blockStart remainingBytes order hzero =>
    intro a' h
    cases h
    exact ha

/-- `add_memory_region` of a region that starts on a page and holds one: the loop from the
region's start, with all of `region_length`. -/
theorem addMemoryRegion_of_page_aligned {regionStart regionLength : Nat} {a' : BuddyPageAllocator MAX_ORDER}
    (hnull : regionStart ≠ 0) (hin : a.baseAddr ≤ regionStart)
    (hend : regionStart + regionLength ≤ a.endAddr) (hpage : regionStart % a.pageSize.bytes = 0)
    (hlen : a.pageSize.bytes ≤ regionLength)
    (hrun : a.addBlocks regionStart regionLength (MAX_ORDER - 1) = .ok a') :
    a.addMemoryRegion regionStart regionLength = .ok (true, a') := by
  have hpad : Usize.alignOffset regionStart a.pageSize.bytes = 0 := by
    simp [Usize.alignOffset, hpage]
  have hpos := a.pageSize.bytes_pos
  have hcheck : (regionLength < a.pageSize.bytes ||
      regionLength - 0 < a.pageSize.bytes) = false := by
    simp only [Bool.or_eq_false_iff, decide_eq_false_iff_not]
    omega
  have hnull' : (regionStart != 0) = true := by simpa using hnull
  have hlt : (regionStart ≥ a.baseAddr && regionStart < a.endAddr) = true := by
    simp only [Bool.and_eq_true, decide_eq_true_eq]
    omega
  simp only [addMemoryRegion, show regionLength > 0 by omega, hnull', hlt, hend, hpad, hcheck,
    decide_true, Fault.assert_true, Fault.ok_bind, Nat.add_zero, hrun]
  rfl

/-- For every `MAX_ORDER` whose largest block fits in a `usize`, every buddy allocator that `new`
makes over page-aligned memory, and every region of it
that holds a page, starts at a multiple of the largest block (`2^(MAX_ORDER-1)` pages) from the
start of memory, and lies in the kernel's half of the address space: `add_memory_region` adds the
region, its free blocks own exactly the region's whole pages, and over every run of allocations
and of frees of held blocks that do not merge at an upper buddy from there, the buddy invariant
holds and the held and the free blocks together own exactly those pages, sharing none. -/
theorem add_memory_region_seeds_allocator (hmax : 0 < MAX_ORDER) (pageSize : PageSize)
    (hblock : 2 ^ (MAX_ORDER - 1) * pageSize.bytes < 2 ^ 64)
    {memoryStart memoryLength regionStart regionLength : Nat}
    (hmemory : memoryStart % pageSize.bytes = 0 ∧ memoryLength % pageSize.bytes = 0)
    (hregion : memoryStart ≤ regionStart ∧ regionStart + regionLength ≤ memoryStart + memoryLength)
    (halign : (regionStart - memoryStart) % (2 ^ (MAX_ORDER - 1) * pageSize.bytes) = 0)
    (hpage : pageSize.bytes ≤ regionLength)
    (hkernel : kernelTag ≤ regionStart ∧ regionStart + regionLength ≤ kernelTag + 2 ^ 48) :
    ∃ a : BuddyPageAllocator MAX_ORDER,
      (do
        let a ← new pageSize memoryStart memoryLength
        a.addMemoryRegion regionStart regionLength) = .ok (true, a) ∧
      a.freeMemory = Set.Ico regionStart (regionStart + regionLength / pageSize.bytes * pageSize.bytes) ∧
      ∀ s, Relation.ReflTransGen Call (a, []) s →
        s.1.BuddyInvariant ∧ s.1.Owners (heldBlocks s.2 ++ s.1.freeBlockList) ∧
          s.1.freeMemory ∪ cover s.1.blockRegion (heldBlocks s.2) =
            Set.Ico regionStart (regionStart + regionLength / pageSize.bytes * pageSize.bytes) := by
  set a₀ : BuddyPageAllocator MAX_ORDER :=
    ⟨memoryStart, memoryStart + memoryLength, pageSize, fun _ => []⟩ with ha₀
  have hnew : (new pageSize memoryStart memoryLength : Except (Fault Error) _) = .ok a₀ := by
    simp [new, hmemory.1, hmemory.2, ha₀]
  have hempty : a₀.freeBlockList = [] := by simp [freeBlockList, ha₀]
  have hpg : regionStart % pageSize.bytes = 0 :=
    mod_pageSize_of_aligned (a := a₀) hmemory.1 hregion.1 halign
  obtain ⟨bs, hrun, htiles, hle⟩ :=
    @addBlocks_spec MAX_ORDER a₀ _ regionLength _ hpg (Nat.sub_lt hmax Nat.one_pos) hblock
  have hlt : ∀ kb ∈ bs, kb.1 < MAX_ORDER := fun kb hkb => by
    have := hle kb hkb
    omega
  have haligned := addBlocks_aligned (a := a₀) hmemory.1 hregion.1 halign
    (Nat.sub_lt hmax Nat.one_pos) (by simp [hempty]) hrun
  obtain ⟨-, hdisj, hcover⟩ := Tiles.pairwiseDisjoint_cover (a := a₀) htiles
  have hperm : (a₀.pushAll bs).freeBlockList.Perm bs := by
    have hpush := a₀.freeBlockList_pushAll hlt
    rw [hempty, List.append_nil] at hpush
    exact hpush.trans (List.reverse_perm bs)
  have hregion' : (a₀.pushAll bs).blockRegion = a₀.blockRegion := blockRegion_congr (by simp)
  have hfree : (a₀.pushAll bs).freeMemory =
      Set.Ico regionStart (regionStart + regionLength / pageSize.bytes * pageSize.bytes) := by
    rw [freeMemory, cover_perm hperm, hregion', hcover]
  have hinv : (a₀.pushAll bs).BuddyInvariant :=
    buddyInvariant_iff_owners.2 ⟨haligned, hregion' ▸ hdisj.perm hperm.symm⟩
  have hkmem : (a₀.pushAll bs).freeMemory ⊆ Set.Ico kernelTag (kernelTag + 2 ^ 48) := by
    have hdown : regionLength / pageSize.bytes * pageSize.bytes ≤ regionLength := Nat.div_mul_le_self _ _
    rw [hfree]
    exact Set.Ico_subset_Ico hkernel.1 (by omega)
  refine ⟨a₀.pushAll bs, ?_, hfree, fun s hs => ?_⟩
  · have hnull : regionStart ≠ 0 := by
      have : 0 < kernelTag := by decide
      omega
    rw [hnew, Fault.ok_bind]
    exact addMemoryRegion_of_page_aligned hnull hregion.1 hregion.2 hpg hpage hrun
  · have hI := RunInv.of_run hinv hkmem hs
    exact ⟨hI.buddyInvariant, hI.owners, hI.memory.trans hfree⟩

/-- A new allocator of eight 4 KiB pages in the kernel's half of the address space, and all of
them added as one region. -/
theorem add_memory_region_seeds_allocator_eightPages :
    0 < 16 ∧ 2 ^ (16 - 1) * PageSize.fourKiB.bytes < 2 ^ 64 ∧
      (kernelTag + 0x4000_0000) % PageSize.fourKiB.bytes = 0 ∧
      0x8000 % PageSize.fourKiB.bytes = 0 ∧
    (kernelTag + 0x4000_0000 ≤ kernelTag + 0x4000_0000 ∧
      kernelTag + 0x4000_0000 + 0x8000 ≤ kernelTag + 0x4000_0000 + 0x8000) ∧
    (kernelTag + 0x4000_0000 - (kernelTag + 0x4000_0000)) % (2 ^ (16 - 1) * PageSize.fourKiB.bytes) = 0 ∧
    PageSize.fourKiB.bytes ≤ 0x8000 ∧
    (kernelTag ≤ kernelTag + 0x4000_0000 ∧ kernelTag + 0x4000_0000 + 0x8000 ≤ kernelTag + 2 ^ 48) ∧
    ∃ a : BuddyPageAllocator 16,
      (do
        let a ← new .fourKiB (kernelTag + 0x4000_0000) 0x8000
        a.addMemoryRegion (kernelTag + 0x4000_0000) 0x8000) = .ok (true, a) ∧
      a.freeMemory = Set.Ico (kernelTag + 0x4000_0000)
        (kernelTag + 0x4000_0000 + 0x8000 / PageSize.fourKiB.bytes * PageSize.fourKiB.bytes) ∧
      ∀ s, Relation.ReflTransGen Call (a, []) s →
        s.1.BuddyInvariant ∧ s.1.Owners (heldBlocks s.2 ++ s.1.freeBlockList) ∧
          s.1.freeMemory ∪ cover s.1.blockRegion (heldBlocks s.2) =
            Set.Ico (kernelTag + 0x4000_0000)
              (kernelTag + 0x4000_0000 + 0x8000 / PageSize.fourKiB.bytes * PageSize.fourKiB.bytes) := by
  have hk : kernelTag + 0x4000_0000 + 0x8000 ≤ kernelTag + 2 ^ 48 := by
    unfold kernelTag
    omega
  exact ⟨by decide, by decide, by decide, by decide, ⟨le_rfl, le_rfl⟩, by decide, by decide,
    ⟨Nat.le_add_right _ _, hk⟩,
    add_memory_region_seeds_allocator (by decide) .fourKiB (by decide) ⟨by decide, by decide⟩
      ⟨le_rfl, le_rfl⟩ (by decide) (by decide) ⟨Nat.le_add_right _ _, hk⟩⟩

end BuddyPageAllocator

end EndlessHole.Memory
