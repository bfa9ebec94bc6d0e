import EndlessHole.Memory.Buddy
import EndlessHole.Lib.Regions
import EndlessHole.Lib.Bits
import Mathlib

/-!
# What the buddy allocator keeps

The free blocks of `BuddyPageAllocator` as owners of memory: the block of order `k` at `b` owns
the pages `[b, b + 2^k pages)` (`blockRegion`), and the free memory is what the free blocks own
together (`freeMemory`). The buddy invariant says that the free blocks own disjoint regions, each
at a multiple of its size from `base_addr` (`buddyInvariant_iff`).

`allocate` pops the first free block at or above the order it needs and frees the upper halves
that `split_block_to_size` cuts off it; the halves and the block it returns tile the popped
block. `free` pushes the block back, merged with its buddy when that is free. A run of
allocations and frees, where each block freed is one that was handed out, keeps the free and
the handed-out blocks a partition of the memory the run started with, as long as `free` never
merges at an upper buddy (`free_merges_at_upper_buddy` is a run where it does).
-/

namespace EndlessHole.Memory

namespace BuddyPageAllocator

open Regions

variable {MAX_ORDER : Nat}

/-! ## Blocks as owners of memory -/

section Blocks

variable (a : BuddyPageAllocator MAX_ORDER)

/-- The pages of the block of order `kb.1` at `kb.2`. -/
def blockRegion (kb : Nat × Nat) : Set Nat := Set.Ico kb.2 (a.blockEnd kb.1 kb.2)

/-- Every page of every free block. -/
def freeMemory : Set Nat := cover a.blockRegion a.freeBlockList

/-- The block of order `kb.1` at `kb.2` starts at a multiple of its size from `base_addr`. -/
def Aligned (kb : Nat × Nat) : Prop :=
  a.baseAddr ≤ kb.2 ∧ (kb.2 - a.baseAddr) % (2 ^ kb.1 * a.pageSize.bytes) = 0

instance (kb : Nat × Nat) : Decidable (a.Aligned kb) := inferInstanceAs (Decidable (_ ∧ _))

@[simp] theorem setFreeList_baseAddr (k : Nat) (l : List Nat) :
    (a.setFreeList k l).baseAddr = a.baseAddr := rfl

@[simp] theorem setFreeList_endAddr (k : Nat) (l : List Nat) :
    (a.setFreeList k l).endAddr = a.endAddr := rfl

@[simp] theorem setFreeList_freeBlocks (k : Nat) (l : List Nat) :
    (a.setFreeList k l).freeBlocks = Function.update a.freeBlocks k l := rfl

theorem lt_blockEnd (k b : Nat) : b < a.blockEnd k b := by
  have := Nat.mul_pos (Nat.two_pow_pos k) a.pageSize.bytes_pos
  unfold blockEnd
  omega

theorem apart_iff_disjoint (x y : Nat × Nat) :
    (a.blockEnd x.1 x.2 ≤ y.2 ∨ a.blockEnd y.1 y.2 ≤ x.2) ↔
      Disjoint (a.blockRegion x) (a.blockRegion y) := by
  have hx := a.lt_blockEnd x.1 x.2
  have hy := a.lt_blockEnd y.1 y.2
  rw [blockRegion, blockRegion, Set.Ico_disjoint_Ico]
  omega

theorem blockRegion_succ (k b : Nat) :
    a.blockRegion (k + 1, b) =
      a.blockRegion (k, b) ∪ a.blockRegion (k, b + 2 ^ k * a.pageSize.bytes) := by
  have hk : 2 ^ (k + 1) * a.pageSize.bytes = 2 ^ k * a.pageSize.bytes + 2 ^ k * a.pageSize.bytes := by
    rw [pow_succ]
    ring
  simp only [blockRegion, blockEnd]
  rw [Set.Ico_union_Ico_eq_Ico (by omega) (by omega), hk, Nat.add_assoc]

theorem mem_freeBlockList {kb : Nat × Nat} :
    kb ∈ a.freeBlockList ↔ kb.1 < MAX_ORDER ∧ kb.2 ∈ a.freeBlocks kb.1 := by
  obtain ⟨k, b⟩ := kb
  simp [freeBlockList, and_comm]

end Blocks

/-- Blocks, as orders and starts, that own disjoint regions, each at a multiple of its size from
`base_addr`: the free blocks of an allocator, with the blocks it handed out. -/
structure Owners (a : BuddyPageAllocator MAX_ORDER) (bs : List (Nat × Nat)) : Prop where
  aligned : ∀ kb ∈ bs, a.Aligned kb
  disjoint : PairwiseDisjoint a.blockRegion bs

theorem Owners.perm {a : BuddyPageAllocator MAX_ORDER} {bs bs' : List (Nat × Nat)}
    (h : a.Owners bs) (hp : bs.Perm bs') : a.Owners bs' :=
  ⟨fun kb hkb => h.aligned kb (hp.mem_iff.2 hkb), h.disjoint.perm hp⟩

theorem Owners.sublist {a : BuddyPageAllocator MAX_ORDER} {bs bs' : List (Nat × Nat)}
    (h : a.Owners bs) (hs : bs'.Sublist bs) : a.Owners bs' :=
  ⟨fun kb hkb => h.aligned kb (hs.subset hkb), h.disjoint.sublist hs⟩

theorem buddyInvariant_iff_owners {a : BuddyPageAllocator MAX_ORDER} :
    a.BuddyInvariant ↔ a.Owners a.freeBlockList :=
  ⟨fun ⟨haligned, happart⟩ => ⟨haligned, happart.imp fun hxy => (a.apart_iff_disjoint _ _).1 hxy⟩,
    fun h => ⟨h.aligned, h.disjoint.imp fun hxy => (a.apart_iff_disjoint _ _).2 hxy⟩⟩

theorem blockRegion_congr {a a' : BuddyPageAllocator MAX_ORDER} (h : a'.pageSize = a.pageSize) :
    a'.blockRegion = a.blockRegion := by
  funext kb
  simp [blockRegion, blockEnd, h]

theorem aligned_congr {a a' : BuddyPageAllocator MAX_ORDER} (hb : a'.baseAddr = a.baseAddr)
    (h : a'.pageSize = a.pageSize) : a'.Aligned = a.Aligned := by
  funext kb
  simp [Aligned, hb, h]

theorem Owners.congr {a a' : BuddyPageAllocator MAX_ORDER} {bs : List (Nat × Nat)}
    (h : a.Owners bs) (hb : a'.baseAddr = a.baseAddr) (hp : a'.pageSize = a.pageSize) :
    a'.Owners bs := by
  refine ⟨fun kb hkb => ?_, ?_⟩
  · rw [aligned_congr hb hp]
    exact h.aligned kb hkb
  · rw [blockRegion_congr hp]
    exact h.disjoint

theorem Owners.cons {a : BuddyPageAllocator MAX_ORDER} {bs : List (Nat × Nat)} {kb : Nat × Nat}
    (h : a.Owners bs) (hal : a.Aligned kb) (hdisj : Disjoint (a.blockRegion kb) (cover a.blockRegion bs)) :
    a.Owners (kb :: bs) :=
  ⟨fun y hy => (List.mem_cons.1 hy).elim (fun hy => hy ▸ hal) (h.aligned y),
    List.pairwise_cons.2 ⟨disjoint_cover_iff.1 hdisj, h.disjoint⟩⟩

/-! ## How the free lists change -/

section FreeLists

variable (a : BuddyPageAllocator MAX_ORDER)

theorem freeBlockList_setFreeList {k : Nat} (hk : k < MAX_ORDER) (l : List Nat) :
    ((a.setFreeList k l).freeBlockList ++ (a.freeBlocks k).map (k, ·)).Perm
      (a.freeBlockList ++ l.map (k, ·)) := by
  have heq : (a.setFreeList k l).freeBlockList = (List.range MAX_ORDER).flatMap
      (Function.update (fun j => (a.freeBlocks j).map (j, ·)) k (l.map (k, ·))) := by
    refine List.flatMap_congr fun j _ => ?_
    by_cases hj : j = k
    · subst hj
      simp
    · simp [Function.update_of_ne hj]
  rw [heq]
  exact flatMap_update_perm List.nodup_range (List.mem_range.2 hk) _ _

theorem freeBlockList_push {k b : Nat} (hk : k < MAX_ORDER) :
    (a.setFreeList k (b :: a.freeBlocks k)).freeBlockList.Perm ((k, b) :: a.freeBlockList) := by
  have h := a.freeBlockList_setFreeList hk (b :: a.freeBlocks k)
  rw [List.map_cons] at h
  exact (List.perm_append_right_iff _).1 (h.trans List.perm_middle)

theorem freeBlockList_erase {k b : Nat} (hk : k < MAX_ORDER) (hb : b ∈ a.freeBlocks k) :
    a.freeBlockList.Perm ((k, b) :: (a.setFreeList k ((a.freeBlocks k).erase b)).freeBlockList) := by
  have h := a.freeBlockList_setFreeList hk ((a.freeBlocks k).erase b)
  have hl : ((a.freeBlocks k).map (k, ·)).Perm ((k, b) :: ((a.freeBlocks k).erase b).map (k, ·)) :=
    (List.perm_cons_erase hb).map _
  have h' := ((hl.append_left _).symm.trans h).symm.trans List.perm_middle
  exact (List.perm_append_right_iff _).1 h'

theorem freeBlockList_pop {k b : Nat} {rest : List Nat} (hk : k < MAX_ORDER)
    (h : a.freeBlocks k = b :: rest) :
    a.freeBlockList.Perm ((k, b) :: (a.setFreeList k rest).freeBlockList) := by
  have := a.freeBlockList_erase hk (h ▸ List.mem_cons_self)
  rwa [h, List.erase_cons_head] at this

theorem pushAll_cons (kb : Nat × Nat) (bs : List (Nat × Nat)) :
    a.pushAll (kb :: bs) = (a.setFreeList kb.1 (kb.2 :: a.freeBlocks kb.1)).pushAll bs := rfl

@[simp] theorem pushAll_pageSize (bs : List (Nat × Nat)) : (a.pushAll bs).pageSize = a.pageSize := by
  induction bs generalizing a with
  | nil => rfl
  | cons kb bs ih => rw [pushAll_cons, ih, setFreeList_pageSize]

@[simp] theorem pushAll_baseAddr (bs : List (Nat × Nat)) : (a.pushAll bs).baseAddr = a.baseAddr := by
  induction bs generalizing a with
  | nil => rfl
  | cons kb bs ih => rw [pushAll_cons, ih, setFreeList_baseAddr]

@[simp] theorem pushAll_endAddr (bs : List (Nat × Nat)) : (a.pushAll bs).endAddr = a.endAddr := by
  induction bs generalizing a with
  | nil => rfl
  | cons kb bs ih => rw [pushAll_cons, ih, setFreeList_endAddr]

theorem freeBlockList_pushAll {bs : List (Nat × Nat)} (hbs : ∀ kb ∈ bs, kb.1 < MAX_ORDER) :
    (a.pushAll bs).freeBlockList.Perm (bs.reverse ++ a.freeBlockList) := by
  induction bs generalizing a with
  | nil => rfl
  | cons kb bs ih =>
    rw [pushAll_cons]
    have hkb := hbs kb List.mem_cons_self
    refine (ih _ fun y hy => hbs y (List.mem_cons_of_mem _ hy)).trans ?_
    rw [List.reverse_cons, List.append_assoc, List.singleton_append]
    exact (a.freeBlockList_push hkb).append_left _

end FreeLists

/-! ## The steps of `allocate` -/

section Allocate

variable {a : BuddyPageAllocator MAX_ORDER}

theorem popFree_eq_ok {k : Nat} {r : Option Nat} {a' : BuddyPageAllocator MAX_ORDER}
    (h : a.popFree k = .ok (r, a')) :
    k < MAX_ORDER ∧ (r = none ∧ a.freeBlocks k = [] ∧ a' = a ∨
      ∃ b rest, r = some b ∧ a.freeBlocks k = b :: rest ∧ a' = a.setFreeList k rest) := by
  unfold popFree at h
  obtain ⟨l, hl, h⟩ := Fault.bind_eq_ok.1 h
  have hk : k < MAX_ORDER := by
    by_contra hk
    rw [freeList_of_le (by omega)] at hl
    cases hl
  rw [freeList_of_lt hk] at hl
  obtain rfl := Except.ok.inj hl
  refine ⟨hk, ?_⟩
  cases hfree : a.freeBlocks k with
  | nil =>
    rw [hfree] at h
    cases h
    exact .inl ⟨rfl, rfl, rfl⟩
  | cons b rest =>
    rw [hfree] at h
    cases h
    exact .inr ⟨b, rest, rfl, rfl, rfl⟩

theorem pushFree_eq_ok {k b : Nat} {a' : BuddyPageAllocator MAX_ORDER}
    (h : a.pushFree k b = .ok a') :
    b % a.pageSize.bytes = 0 ∧ k < MAX_ORDER ∧ a' = a.setFreeList k (b :: a.freeBlocks k) := by
  unfold pushFree at h
  obtain ⟨_, hassert, h⟩ := Fault.bind_eq_ok.1 h
  obtain ⟨l, hl, h⟩ := Fault.bind_eq_ok.1 h
  have hk : k < MAX_ORDER := by
    by_contra hk
    rw [freeList_of_le (by omega)] at hl
    cases hl
  rw [freeList_of_lt hk] at hl
  obtain rfl := Except.ok.inj hl
  exact ⟨by simpa using Fault.assert_eq_ok.1 hassert, hk, (Except.ok.inj h).symm⟩

theorem allocLoop_spec {order b K : Nat} {a' : BuddyPageAllocator MAX_ORDER}
    (h : a.allocLoop order = .ok (b, K, a')) :
    order ≤ K ∧ K < MAX_ORDER ∧ (∀ j, order ≤ j → j < K → a.freeBlocks j = []) ∧
      ∃ rest, a.freeBlocks K = b :: rest ∧ a' = a.setFreeList K rest := by
  induction a, order using allocLoop.induct with
  | case1 a order hlt ih =>
    rw [allocLoop, if_pos hlt] at h
    obtain ⟨⟨r, a₁⟩, hpop, h⟩ := Fault.bind_eq_ok.1 h
    obtain ⟨-, ⟨rfl, hnil, ha₁⟩ | ⟨b', rest, rfl, hcons, rfl⟩⟩ := popFree_eq_ok hpop
    · -- the list at `order` is empty: the loop goes on at `order + 1`
      rw [ha₁] at h
      obtain ⟨hle, hK, hempty, hrest⟩ := ih a h
      refine ⟨by omega, hK, fun j hj hjK => ?_, hrest⟩
      rcases Nat.eq_or_lt_of_le hj with rfl | hj
      · exact hnil
      · exact hempty j hj hjK
    · cases h
      exact ⟨le_refl _, hlt, fun j hj hjK => absurd hjK (by omega), rest, hcons, rfl⟩
  | case2 a order hge =>
    rw [allocLoop, if_neg hge] at h
    cases h

/-- The upper halves that `split_block_to_size` frees, as orders and starts: from order
`current - 1` down to `desired`, the half of order `c` at `2^c` pages past the block. -/
def splitHalves (pageLen block desired : Nat) : Nat → List (Nat × Nat)
  | 0 => []
  | c + 1 =>
    if desired < c + 1 then (c, block + 2 ^ c * pageLen) :: splitHalves pageLen block desired c
    else []

theorem splitHalves_self (pageLen block desired : Nat) :
    splitHalves pageLen block desired desired = [] := by
  cases desired with
  | zero => rfl
  | succ d => simp [splitHalves]

theorem splitHalves_succ {pageLen block desired c : Nat} (h : desired ≤ c) :
    splitHalves pageLen block desired (c + 1) =
      (c, block + 2 ^ c * pageLen) :: splitHalves pageLen block desired c := by
  rw [splitHalves, if_pos (by omega)]

theorem mem_splitHalves {pageLen block desired : Nat} :
    ∀ {c : Nat} {kb : Nat × Nat}, kb ∈ splitHalves pageLen block desired c →
      desired ≤ kb.1 ∧ kb.1 < c ∧ kb.2 = block + 2 ^ kb.1 * pageLen
  | 0, _, h => by simp [splitHalves] at h
  | c + 1, kb, h => by
    rw [splitHalves] at h
    split_ifs at h with hd
    · rcases List.mem_cons.1 h with rfl | h
      · exact ⟨by omega, by omega, rfl⟩
      · obtain ⟨h1, h2, h3⟩ := mem_splitHalves h
        exact ⟨h1, by omega, h3⟩
    · simp at h

theorem splitBlockToSize_eq_ok {b d : Nat} :
    ∀ {K : Nat} {a a' : BuddyPageAllocator MAX_ORDER}, a.splitBlockToSize b d K = .ok a' →
      a' = a.pushAll (splitHalves a.pageSize.bytes b d K) ∧
        ∀ kb ∈ splitHalves a.pageSize.bytes b d K, kb.1 < MAX_ORDER
  | 0, a, a', h => by
    cases h
    exact ⟨rfl, by simp [splitHalves]⟩
  | c + 1, a, a', h => by
    rw [splitBlockToSize] at h
    split_ifs at h with hd
    · obtain ⟨a₁, hpush, h⟩ := Fault.bind_eq_ok.1 h
      obtain ⟨-, hc, rfl⟩ := pushFree_eq_ok hpush
      obtain ⟨rfl, hlt⟩ := splitBlockToSize_eq_ok h
      rw [setFreeList_pageSize] at hlt ⊢
      rw [splitHalves, if_pos hd, pushAll_cons]
      refine ⟨rfl, fun kb hkb => ?_⟩
      rcases List.mem_cons.1 hkb with rfl | hkb
      · exact hc
      · exact hlt kb hkb
    · cases h
      rw [splitHalves, if_neg hd]
      exact ⟨rfl, by simp⟩

theorem allocate_eq_ok {numPages p : Nat} {a' : BuddyPageAllocator MAX_ORDER}
    (h : a.allocate numPages = .ok (p, a')) :
    ∃ b K rest, numPages.nextPowerOfTwo.log2 ≤ K ∧ K < MAX_ORDER ∧
      (∀ j, numPages.nextPowerOfTwo.log2 ≤ j → j < K → a.freeBlocks j = []) ∧
      a.freeBlocks K = b :: rest ∧ p = PhysicalAddress.ofPtr b ∧
      a' = (a.setFreeList K rest).pushAll
        (splitHalves a.pageSize.bytes b numPages.nextPowerOfTwo.log2 K) ∧
      ∀ kb ∈ splitHalves a.pageSize.bytes b numPages.nextPowerOfTwo.log2 K, kb.1 < MAX_ORDER := by
  unfold allocate at h
  obtain ⟨_, -, h⟩ := Fault.bind_eq_ok.1 h
  split at h
  · rename_i blockSize hsize
    obtain ⟨-, rfl⟩ := Usize.checkedNextPowerOfTwo_eq_some.1 hsize
    obtain ⟨⟨b, K, a₁⟩, hloop, h⟩ := Fault.bind_eq_ok.1 h
    obtain ⟨a₂, hsplit, h⟩ := Fault.bind_eq_ok.1 h
    cases h
    obtain ⟨hle, hK, hempty, rest, hcons, rfl⟩ := allocLoop_spec hloop
    obtain ⟨rfl, hlt⟩ := splitBlockToSize_eq_ok hsplit
    exact ⟨b, K, rest, hle, hK, hempty, hcons, rfl, by simp, by simpa using hlt⟩
  · cases h

end Allocate

/-! ## The blocks of `allocate` -/

section Split

variable (a : BuddyPageAllocator MAX_ORDER)

theorem disjoint_upper_half (k b : Nat) :
    Disjoint (a.blockRegion (k, b)) (a.blockRegion (k, b + 2 ^ k * a.pageSize.bytes)) := by
  simp only [blockRegion, blockEnd]
  exact Set.Ico_disjoint_Ico_same

/-- The block of order `d` that `allocate` returns and the halves that it frees tile the block
of order `K` it popped. -/
theorem splitHalves_tiles {b d K : Nat} (hdK : d ≤ K) :
    PairwiseDisjoint a.blockRegion ((d, b) :: splitHalves a.pageSize.bytes b d K) ∧
      cover a.blockRegion ((d, b) :: splitHalves a.pageSize.bytes b d K) = a.blockRegion (K, b) := by
  induction K, hdK using Nat.le_induction with
  | base => simp [splitHalves_self, PairwiseDisjoint]
  | succ K hdK ih =>
    obtain ⟨hdisj, hcover⟩ := ih
    rw [splitHalves_succ hdK]
    -- the new half lies past the block of order `K`, which holds the others
    have hfresh : ∀ y ∈ (d, b) :: splitHalves a.pageSize.bytes b d K,
        Disjoint (a.blockRegion (K, b + 2 ^ K * a.pageSize.bytes)) (a.blockRegion y) := fun y hy =>
      ((a.disjoint_upper_half K b).symm).mono_right ((subset_cover hy).trans hcover.le)
    refine ⟨?_, ?_⟩
    · have h := pairwiseDisjoint_append_fresh hdisj hfresh
        (List.pairwise_singleton _ (K, b + 2 ^ K * a.pageSize.bytes)) (by simp)
      exact h.perm (List.Perm.swap _ _ _)
    · rw [cover_cons, cover_cons, blockRegion_succ, ← hcover, cover_cons]
      exact Set.union_left_comm _ _ _ |>.trans (Set.union_comm _ _)

variable {a} in
theorem Aligned.of_le {k K b : Nat} (h : a.Aligned (K, b)) (hk : k ≤ K) : a.Aligned (k, b) := by
  refine ⟨h.1, Nat.mod_eq_zero_of_dvd (dvd_trans ?_ (Nat.dvd_of_mod_eq_zero h.2))⟩
  exact Nat.mul_dvd_mul_right (Nat.pow_dvd_pow 2 hk) _

variable {a} in
theorem Aligned.upper {k b : Nat} (h : a.Aligned (k, b)) :
    a.Aligned (k, b + 2 ^ k * a.pageSize.bytes) := by
  refine ⟨by have := h.1; omega, ?_⟩
  have h2 := h.2
  simp only at h2 ⊢
  rw [show b + 2 ^ k * a.pageSize.bytes - a.baseAddr = b - a.baseAddr + 2 ^ k * a.pageSize.bytes
    by have := h.1; simp only at this; omega, Nat.add_mod_right, h2]

theorem splitHalves_aligned {b d K : Nat} (hb : a.Aligned (K, b)) (hdK : d ≤ K) :
    ∀ kb ∈ (d, b) :: splitHalves a.pageSize.bytes b d K, a.Aligned kb := by
  intro kb hkb
  rcases List.mem_cons.1 hkb with rfl | hkb
  · exact hb.of_le hdK
  · obtain ⟨-, hlt, hkb2⟩ := mem_splitHalves hkb
    obtain ⟨k, b'⟩ := kb
    simp only at hkb2 hlt
    subst hkb2
    exact (hb.of_le hlt.le).upper

end Split

/-! ## `allocate` -/

section AllocateSpec

variable {a a' : BuddyPageAllocator MAX_ORDER}

/-- One allocation, over the free blocks and the blocks handed out before (`held`): the popped
block is carved into the block returned and the halves freed, so the blocks stay owners, and the
free memory loses exactly the block returned. -/
theorem Owners.allocate {held : List (Nat × Nat)} {d K b : Nat} {rest : List Nat}
    (hO : a.Owners (held ++ a.freeBlockList)) (hdK : d ≤ K) (hK : K < MAX_ORDER)
    (hcons : a.freeBlocks K = b :: rest)
    (hlt : ∀ kb ∈ splitHalves a.pageSize.bytes b d K, kb.1 < MAX_ORDER)
    (ha' : a' = (a.setFreeList K rest).pushAll (splitHalves a.pageSize.bytes b d K)) :
    a'.Owners ((d, b) :: held ++ a'.freeBlockList) ∧
      a'.freeMemory ∪ a.blockRegion (d, b) = a.freeMemory := by
  set H := splitHalves a.pageSize.bytes b d K
  set a₁ := a.setFreeList K rest
  have hpop : a.freeBlockList.Perm ((K, b) :: a₁.freeBlockList) := a.freeBlockList_pop hK hcons
  have hpush : a'.freeBlockList.Perm (H.reverse ++ a₁.freeBlockList) := by
    rw [ha']
    exact a₁.freeBlockList_pushAll hlt
  have hregion : a'.blockRegion = a.blockRegion := blockRegion_congr (by simp [ha', a₁])
  have haligned : a'.Aligned = a.Aligned := aligned_congr (by simp [ha', a₁]) (by simp [ha', a₁])
  have hO' : a.Owners ((K, b) :: (held ++ a₁.freeBlockList)) :=
    hO.perm ((hpop.append_left held).trans List.perm_middle)
  obtain ⟨htile, hcover⟩ := a.splitHalves_tiles (b := b) hdK
  have hcarve := pairwiseDisjoint_append_fresh (List.pairwise_cons.1 hO'.disjoint).2
    (List.pairwise_cons.1 hO'.disjoint).1 htile fun y hy => (subset_cover hy).trans hcover.le
  have hperm : ((d, b) :: held ++ a'.freeBlockList).Perm
      (((d, b) :: H) ++ (held ++ a₁.freeBlockList)) :=
    (((hpush.append_left held).trans
      (((List.reverse_perm H).append_right _).append_left held)).trans
        (List.perm_append_comm_assoc _ _ _)).cons (d, b)
  refine ⟨⟨fun kb hkb => ?_, ?_⟩, ?_⟩
  · rw [haligned]
    rcases List.mem_append.1 (hperm.mem_iff.1 hkb) with hkb | hkb
    · exact a.splitHalves_aligned (hO'.aligned _ List.mem_cons_self) hdK kb hkb
    · exact hO'.aligned kb (List.mem_cons_of_mem _ hkb)
  · rw [hregion]
    exact hcarve.perm hperm.symm
  · rw [freeMemory, freeMemory, hregion, cover_perm hpush, cover_perm hpop, cover_append, cover_cons,
      cover_perm (List.reverse_perm H), ← hcover, cover_cons]
    ext x
    simp only [Set.mem_union]
    tauto

/-- `allocate` hands out a block of `num_pages.next_power_of_two()` pages from the free block of
the lowest order that fits, keeps the buddy invariant, and takes exactly that block out of the
free memory. -/
theorem allocate_spec {numPages p : Nat} (hinv : a.BuddyInvariant)
    (h : a.allocate numPages = .ok (p, a')) :
    a'.baseAddr = a.baseAddr ∧ a'.endAddr = a.endAddr ∧ a'.pageSize = a.pageSize ∧
      a'.BuddyInvariant ∧
      ∃ b K, p = PhysicalAddress.ofPtr b ∧ (K, b) ∈ a.freeBlockList ∧
        numPages.nextPowerOfTwo.log2 ≤ K ∧
        (∀ j, numPages.nextPowerOfTwo.log2 ≤ j → j < K → a.freeBlocks j = []) ∧
        Set.Ico b (b + numPages.nextPowerOfTwo * a.pageSize.bytes) ⊆ a.freeMemory ∧
        a'.freeMemory = a.freeMemory \ Set.Ico b (b + numPages.nextPowerOfTwo * a.pageSize.bytes) := by
  obtain ⟨b, K, rest, hdK, hK, hempty, hcons, rfl, ha', hlt⟩ := allocate_eq_ok h
  obtain ⟨hO, hmem⟩ := Owners.allocate
    (show a.Owners ([] ++ a.freeBlockList) from buddyInvariant_iff_owners.1 hinv) hdK hK hcons hlt ha'
  have hO' : a'.Owners ((numPages.nextPowerOfTwo.log2, b) :: a'.freeBlockList) := hO
  have hblock : a.blockRegion (numPages.nextPowerOfTwo.log2, b) =
      Set.Ico b (b + numPages.nextPowerOfTwo * a.pageSize.bytes) := by
    rw [blockRegion, blockEnd, Usize.two_pow_log2_nextPowerOfTwo]
  have hregion : a'.blockRegion = a.blockRegion := blockRegion_congr (by simp [ha'])
  have hdisj : Disjoint (a.blockRegion (numPages.nextPowerOfTwo.log2, b)) a'.freeMemory := by
    have := hO'.disjoint.disjoint_cover
    rwa [freeMemory, ← hregion]
  subst ha'
  refine ⟨by simp, by simp, by simp, buddyInvariant_iff_owners.2 (hO'.sublist (List.sublist_cons_self _ _)),
    b, K, rfl, a.mem_freeBlockList.2 ⟨hK, by rw [hcons]; exact List.mem_cons_self⟩, hdK, hempty, ?_, ?_⟩
  · rw [← hblock, ← hmem]
    exact Set.subset_union_right
  · rw [← hblock, ← hmem, Set.union_sdiff_right, hdisj.symm.sdiff_eq_left]

/-- `fourPageRegion` after `allocate(1)`: the page returned, and the allocator. -/
def onePageAllocated : Nat × BuddyPageAllocator 16 :=
  Fault.okOr (fourPageRegion.allocate 1) (0, fourPageRegion)

theorem allocate_fourPageRegion : fourPageRegion.allocate 1 = .ok onePageAllocated :=
  Fault.eq_ok_okOr _ (by decide +kernel)

theorem allocate_spec_fourPageRegion :
    onePageAllocated.2.baseAddr = fourPageRegion.baseAddr ∧
      onePageAllocated.2.endAddr = fourPageRegion.endAddr ∧
      onePageAllocated.2.pageSize = fourPageRegion.pageSize ∧ onePageAllocated.2.BuddyInvariant ∧
      ∃ b K, onePageAllocated.1 = PhysicalAddress.ofPtr b ∧ (K, b) ∈ fourPageRegion.freeBlockList ∧
        (Nat.nextPowerOfTwo 1).log2 ≤ K ∧
        (∀ j, (Nat.nextPowerOfTwo 1).log2 ≤ j → j < K → fourPageRegion.freeBlocks j = []) ∧
        Set.Ico b (b + Nat.nextPowerOfTwo 1 * fourPageRegion.pageSize.bytes) ⊆
          fourPageRegion.freeMemory ∧
        onePageAllocated.2.freeMemory = fourPageRegion.freeMemory \
          Set.Ico b (b + Nat.nextPowerOfTwo 1 * fourPageRegion.pageSize.bytes) :=
  allocate_spec (by decide +kernel) allocate_fourPageRegion

end AllocateSpec

/-! ## When `allocate` fails -/

section Failures

variable {a : BuddyPageAllocator MAX_ORDER}

theorem allocLoop_of_empty {order : Nat}
    (h : ∀ j, order ≤ j → j < MAX_ORDER → a.freeBlocks j = []) :
    a.allocLoop order = .error (.error .outOfMemory) := by
  induction a, order using allocLoop.induct with
  | case1 a order hlt ih =>
    rw [allocLoop, if_pos hlt]
    simp only [popFree, freeList_of_lt hlt, h order le_rfl hlt, Fault.ok_bind]
    exact ih a fun j hj hjM => h j (by omega) hjM
  | case2 a order hge =>
    rw [allocLoop, if_neg hge]
    rfl

theorem allocLoop_of_mem {order : Nat}
    (h : ∃ j, order ≤ j ∧ j < MAX_ORDER ∧ a.freeBlocks j ≠ []) :
    ∃ r, a.allocLoop order = .ok r := by
  induction a, order using allocLoop.induct with
  | case1 a order hlt ih =>
    rw [allocLoop, if_pos hlt]
    cases hfree : a.freeBlocks order with
    | nil =>
      simp only [popFree, freeList_of_lt hlt, hfree, Fault.ok_bind]
      obtain ⟨j, hj, hjM, hne⟩ := h
      have hj' : order + 1 ≤ j := by
        rcases Nat.eq_or_lt_of_le hj with rfl | hj
        · exact absurd hfree hne
        · exact hj
      exact ih a ⟨j, hj', hjM, hne⟩
    | cons b rest =>
      simp only [popFree, freeList_of_lt hlt, hfree, Fault.ok_bind]
      exact ⟨_, rfl⟩
  | case2 a order hge =>
    obtain ⟨j, hj, hjM, -⟩ := h
    omega

theorem splitBlockToSize_of_aligned {b d : Nat} :
    ∀ {K : Nat} {a : BuddyPageAllocator MAX_ORDER}, b % a.pageSize.bytes = 0 → K ≤ MAX_ORDER →
      ∃ a', a.splitBlockToSize b d K = .ok a'
  | 0, a, _, _ => ⟨a, rfl⟩
  | c + 1, a, hb, hK => by
    rw [splitBlockToSize]
    split_ifs with hd
    · have hhalf : (b + 2 ^ c * a.pageSize.bytes) % a.pageSize.bytes = 0 := by
        rw [Nat.add_mul_mod_self_right, hb]
      rw [pushFree_of_lt hhalf (by omega), Fault.ok_bind]
      exact splitBlockToSize_of_aligned hb (by omega)
    · exact ⟨a, rfl⟩

/-- On an allocator that keeps the buddy invariant over page-aligned memory, `allocate` never
panics. It fails with `InvalidSize` for no pages, and with `OutOfMemory` when the size has no
power of two in a `usize` or no free block is of a large enough order; otherwise it returns. -/
theorem allocate_fails_only_when_no_block_fits (hinv : a.BuddyInvariant)
    (hbase : a.baseAddr % a.pageSize.bytes = 0) (numPages : Nat) :
    (numPages = 0 → a.allocate numPages = .error (.error .invalidSize)) ∧
      (0 < numPages →
        (2 ^ 63 < numPages ∨ ∀ kb ∈ a.freeBlockList, kb.1 < numPages.nextPowerOfTwo.log2) →
        a.allocate numPages = .error (.error .outOfMemory)) ∧
      (0 < numPages → numPages ≤ 2 ^ 63 →
        (∃ kb ∈ a.freeBlockList, numPages.nextPowerOfTwo.log2 ≤ kb.1) →
        ∃ r, a.allocate numPages = .ok r) := by
  refine ⟨fun h0 => ?_, fun hpos hnone => ?_, fun hpos hle hsome => ?_⟩
  · subst h0
    rfl
  · by_cases hle : numPages ≤ 2 ^ 63
    · -- every free list from the order of the size on is empty
      have hempty : ∀ j, numPages.nextPowerOfTwo.log2 ≤ j → j < MAX_ORDER → a.freeBlocks j = [] := by
        intro j hj hjM
        cases hfree : a.freeBlocks j with
        | nil => rfl
        | cons b rest =>
          have hkb : (j, b) ∈ a.freeBlockList :=
            a.mem_freeBlockList.2 ⟨hjM, by rw [hfree]; exact List.mem_cons_self⟩
          rcases hnone with hbig | hsmall
          · omega
          · exact absurd (hsmall _ hkb) (by simpa using hj)
      simp only [allocate, decide_eq_true hpos, Fault.ensure_true, Fault.ok_bind,
        Usize.checkedNextPowerOfTwo, if_pos hle, allocLoop_of_empty hempty]
      rfl
    · simp only [allocate, decide_eq_true hpos, Fault.ensure_true, Fault.ok_bind,
        Usize.checkedNextPowerOfTwo, if_neg hle]
      rfl
  · obtain ⟨⟨K, b⟩, hkb, hK⟩ := hsome
    have hmem := a.mem_freeBlockList.1 hkb
    obtain ⟨⟨b', K', a₁⟩, hloop⟩ := allocLoop_of_mem ⟨K, hK, hmem.1, List.ne_nil_of_mem hmem.2⟩
    obtain ⟨-, hK', -, rest, hcons, rfl⟩ := allocLoop_spec hloop
    -- the popped block is aligned to its size, so to a page
    have hal := (buddyInvariant_iff_owners.1 hinv).aligned (K', b')
      (a.mem_freeBlockList.2 ⟨hK', by rw [hcons]; exact List.mem_cons_self⟩)
    have hb : b' % a.pageSize.bytes = 0 := by
      have hoff : a.pageSize.bytes ∣ b' - a.baseAddr :=
        dvd_trans (Dvd.intro_left _ rfl) (Nat.dvd_of_mod_eq_zero hal.2)
      have hsum : b' = b' - a.baseAddr + a.baseAddr := by
        have := hal.1
        simp only at this
        omega
      rw [hsum]
      exact Nat.mod_eq_zero_of_dvd (dvd_add hoff (Nat.dvd_of_mod_eq_zero hbase))
    obtain ⟨a₂, hsplit⟩ := splitBlockToSize_of_aligned (a := a.setFreeList K' rest)
      (d := numPages.nextPowerOfTwo.log2) hb hK'.le
    refine ⟨(PhysicalAddress.ofPtr b', a₂), ?_⟩
    simp only [allocate, decide_eq_true hpos, Fault.ensure_true, Fault.ok_bind,
      Usize.checkedNextPowerOfTwo, if_pos hle, hloop, hsplit]
    rfl

theorem allocate_fails_only_when_no_block_fits_fourPageRegion :
    (8 = 0 → fourPageRegion.allocate 8 = .error (.error .invalidSize)) ∧
      (0 < 8 →
        (2 ^ 63 < 8 ∨ ∀ kb ∈ fourPageRegion.freeBlockList, kb.1 < (Nat.nextPowerOfTwo 8).log2) →
        fourPageRegion.allocate 8 = .error (.error .outOfMemory)) ∧
      (0 < 8 → 8 ≤ 2 ^ 63 →
        (∃ kb ∈ fourPageRegion.freeBlockList, (Nat.nextPowerOfTwo 8).log2 ≤ kb.1) →
        ∃ r, fourPageRegion.allocate 8 = .ok r) :=
  allocate_fails_only_when_no_block_fits (by decide +kernel) (by decide) 8

end Failures

/-! ## `free` -/

section Free

variable {a a' : BuddyPageAllocator MAX_ORDER}

/-- What a `free` that returns did: its block passed the range checks, and it was either merged
with its buddy, which was on the free list of its order, and pushed an order up, or pushed at its
order. -/
theorem free_eq_ok {pages numPages block order : Nat} (hblock : PhysicalAddress.toPtr pages = block)
    (horder : numPages.nextPowerOfTwo.log2 = order) (h : a.free pages numPages = .ok a') :
    a.baseAddr ≤ block ∧ block < a.endAddr ∧ order < MAX_ORDER ∧
      ∃ buddy, a.buddyOf block order = .ok buddy ∧
        (buddy ∈ a.freeBlocks order ∧ order + 1 < MAX_ORDER ∧
            a' = (a.setFreeList order ((a.freeBlocks order).erase buddy)).setFreeList (order + 1)
              (block :: (a.setFreeList order ((a.freeBlocks order).erase buddy)).freeBlocks
                (order + 1)) ∨
          buddy ∉ a.freeBlocks order ∧ a' = a.setFreeList order (block :: a.freeBlocks order)) := by
  subst hblock horder
  unfold free at h
  obtain ⟨_, -, h⟩ := Fault.bind_eq_ok.1 h
  obtain ⟨_, -, h⟩ := Fault.bind_eq_ok.1 h
  obtain ⟨_, hrange, h⟩ := Fault.bind_eq_ok.1 h
  have hrange' := Fault.ensure_eq_ok.1 hrange
  simp only [Bool.and_eq_true, decide_eq_true_eq] at hrange'
  split at h
  · rename_i blockSize hsize
    obtain ⟨-, rfl⟩ := Usize.checkedNextPowerOfTwo_eq_some.1 hsize
    obtain ⟨_, hlt, h⟩ := Fault.bind_eq_ok.1 h
    have hlt' : numPages.nextPowerOfTwo.log2 < MAX_ORDER := by
      simpa using Fault.ensure_eq_ok.1 hlt
    obtain ⟨buddy, hbuddy, h⟩ := Fault.bind_eq_ok.1 h
    obtain ⟨⟨removed, a₁⟩, hremove, h⟩ := Fault.bind_eq_ok.1 h
    refine ⟨hrange'.1, hrange'.2, hlt', buddy, hbuddy, ?_⟩
    rw [tryRemoveBuddy_of_lt hlt'] at hremove
    split_ifs at hremove with hmem
    · cases hremove
      obtain ⟨-, hlt'', rfl⟩ := pushFree_eq_ok h
      exact .inl ⟨hmem, hlt'', rfl⟩
    · cases hremove
      obtain ⟨_, -, h⟩ := Fault.bind_eq_ok.1 h
      obtain ⟨_, -, h⟩ := Fault.bind_eq_ok.1 h
      obtain ⟨_, -, h⟩ := Fault.bind_eq_ok.1 h
      obtain ⟨_, -, h⟩ := Fault.bind_eq_ok.1 h
      obtain ⟨_, -, h⟩ := Fault.bind_eq_ok.1 h
      obtain ⟨_, -, h⟩ := Fault.bind_eq_ok.1 h
      obtain ⟨-, -, rfl⟩ := pushFree_eq_ok h
      exact .inr ⟨hmem, rfl⟩
  · cases h

theorem buddyOf_of_aligned {block order buddy : Nat} (hal : a.Aligned (order + 1, block))
    (h : a.buddyOf block order = .ok buddy) : buddy = block + 2 ^ order * a.pageSize.bytes := by
  unfold buddyOf at h
  obtain ⟨_, -, h⟩ := Fault.bind_eq_ok.1 h
  obtain ⟨_, -, h⟩ := Fault.bind_eq_ok.1 h
  obtain rfl := (Except.ok.inj h).symm
  obtain ⟨s, hs⟩ : ∃ s, a.pageSize.bytes = 2 ^ s := by
    cases a.pageSize with
    | fourKiB => exact ⟨12, rfl⟩
    | sixteenKiB => exact ⟨14, rfl⟩
  have hmod : (block - a.baseAddr) % 2 ^ (order + s + 1) = 0 := by
    have h2 := hal.2
    simp only [hs, ← pow_add] at h2
    rwa [Nat.add_right_comm] at h2
  have hxor : (block - a.baseAddr) ^^^ (a.pageSize.bytes * 2 ^ order) =
      block - a.baseAddr + 2 ^ order * a.pageSize.bytes := by
    rw [hs, ← pow_add, Nat.add_comm s, Usize.xor_two_pow_of_mod hmod, pow_add]
  have hbase := hal.1
  simp only at hbase
  rw [hxor]
  omega

/-- One `free` of a held block, first among the owners, when it does not merge at an upper buddy:
the block goes back to the free blocks, merged with its buddy or not, so the blocks stay owners,
and the free memory gains exactly the block. -/
theorem Owners.free {held : List (Nat × Nat)} {pages numPages block order : Nat}
    (hO : a.Owners ((order, block) :: held ++ a.freeBlockList))
    (hblock : PhysicalAddress.toPtr pages = block) (horder : numPages.nextPowerOfTwo.log2 = order)
    (hlower : ∀ buddy, a.buddyOf block order = .ok buddy → buddy ∈ a.freeBlocks order →
      a.Aligned (order + 1, block))
    (h : a.free pages numPages = .ok a') :
    a'.baseAddr = a.baseAddr ∧ a'.endAddr = a.endAddr ∧ a'.pageSize = a.pageSize ∧
      a'.Owners (held ++ a'.freeBlockList) ∧
      a'.freeMemory = a.freeMemory ∪ a.blockRegion (order, block) := by
  obtain ⟨-, -, hlt, buddy, hbuddy, ⟨hmem, hlt', ha'⟩ | ⟨-, ha'⟩⟩ := free_eq_ok hblock horder h
  · -- merged with its buddy, which is the block right above it
    have hal := hlower buddy hbuddy hmem
    have hupper := buddyOf_of_aligned hal hbuddy
    set a₁ := a.setFreeList order ((a.freeBlocks order).erase buddy)
    have hregion : a'.blockRegion = a.blockRegion := blockRegion_congr (by rw [ha']; rfl)
    have hpop := a.freeBlockList_erase hlt hmem
    have hpush : a'.freeBlockList.Perm ((order + 1, block) :: a₁.freeBlockList) := by
      rw [ha']
      exact a₁.freeBlockList_push hlt'
    have hO' : a.Owners ((order, block) :: (order, buddy) :: (held ++ a₁.freeBlockList)) :=
      hO.perm (((hpop.append_left held).trans List.perm_middle).cons _)
    have hperm : (held ++ a'.freeBlockList).Perm ((order + 1, block) :: (held ++ a₁.freeBlockList)) :=
      (hpush.append_left held).trans List.perm_middle
    have hmerge : a.blockRegion (order + 1, block) ⊆
        a.blockRegion (order, block) ∪ a.blockRegion (order, buddy) := by
      rw [blockRegion_succ, hupper]
    subst ha'
    refine ⟨rfl, rfl, rfl, Owners.congr ?_ rfl rfl, ?_⟩
    · refine Owners.perm ⟨fun kb hkb => ?_, hO'.disjoint.merge hmerge⟩ hperm.symm
      rcases List.mem_cons.1 hkb with rfl | hkb
      · exact hal
      · exact hO'.aligned kb (List.mem_cons_of_mem _ (List.mem_cons_of_mem _ hkb))
    · rw [freeMemory, freeMemory, hregion, cover_perm hpush, cover_perm hpop, cover_cons,
        cover_cons, blockRegion_succ, ← hupper]
      ext x
      simp only [Set.mem_union]
      tauto
  · -- pushed at its order
    have hregion : a'.blockRegion = a.blockRegion := blockRegion_congr (by rw [ha']; rfl)
    have hpush : a'.freeBlockList.Perm ((order, block) :: a.freeBlockList) := by
      rw [ha']
      exact a.freeBlockList_push hlt
    have hperm : (held ++ a'.freeBlockList).Perm ((order, block) :: held ++ a.freeBlockList) :=
      (hpush.append_left held).trans List.perm_middle
    subst ha'
    refine ⟨rfl, rfl, rfl, (hO.perm hperm.symm).congr rfl rfl, ?_⟩
    rw [freeMemory, freeMemory, hregion, cover_perm hpush, cover_cons, Set.union_comm]

/-- `free` of a block that is aligned to its size and holds no free page keeps the buddy
invariant and adds exactly the block to the free memory, when it does not merge the block at an
upper buddy. -/
theorem free_spec {pages numPages : Nat} (hinv : a.BuddyInvariant)
    (halign : a.Aligned (numPages.nextPowerOfTwo.log2, PhysicalAddress.toPtr pages))
    (hheld : Disjoint (a.blockRegion (numPages.nextPowerOfTwo.log2, PhysicalAddress.toPtr pages))
      a.freeMemory)
    (hlower : ∀ buddy,
      a.buddyOf (PhysicalAddress.toPtr pages) numPages.nextPowerOfTwo.log2 = .ok buddy →
      buddy ∈ a.freeBlocks numPages.nextPowerOfTwo.log2 →
      a.Aligned (numPages.nextPowerOfTwo.log2 + 1, PhysicalAddress.toPtr pages))
    (h : a.free pages numPages = .ok a') :
    a'.baseAddr = a.baseAddr ∧ a'.endAddr = a.endAddr ∧ a'.pageSize = a.pageSize ∧
      a'.BuddyInvariant ∧
      a'.freeMemory = a.freeMemory ∪ Set.Ico (PhysicalAddress.toPtr pages)
        (PhysicalAddress.toPtr pages + numPages.nextPowerOfTwo * a.pageSize.bytes) := by
  have hO : a.Owners ((numPages.nextPowerOfTwo.log2, PhysicalAddress.toPtr pages) :: [] ++
      a.freeBlockList) :=
    (buddyInvariant_iff_owners.1 hinv).cons halign hheld
  obtain ⟨hb, he, hp, hO', hmem⟩ := Owners.free hO rfl rfl hlower h
  refine ⟨hb, he, hp, buddyInvariant_iff_owners.2 hO', ?_⟩
  rw [hmem, blockRegion, blockEnd, Usize.two_pow_log2_nextPowerOfTwo]

/-- `onePageAllocated` after its page is freed again. -/
def onePageFreed : BuddyPageAllocator 16 :=
  Fault.okOr (onePageAllocated.2.free onePageAllocated.1 1) fourPageRegion

theorem free_onePageAllocated : onePageAllocated.2.free onePageAllocated.1 1 = .ok onePageFreed :=
  Fault.eq_ok_okOr _ (by decide +kernel)

theorem onePageAllocated_held :
    Disjoint (onePageAllocated.2.blockRegion
        ((Nat.nextPowerOfTwo 1).log2, PhysicalAddress.toPtr onePageAllocated.1))
      onePageAllocated.2.freeMemory := by
  have hfree : onePageAllocated.2.freeBlockList =
      [(0, kernelTag + 0x4000_1000), (1, kernelTag + 0x4000_2000)] := by decide +kernel
  have hpage : onePageAllocated.2.pageSize = .fourKiB := by decide +kernel
  have hptr : PhysicalAddress.toPtr onePageAllocated.1 = kernelTag + 0x4000_0000 := by decide +kernel
  have hlog : (Nat.nextPowerOfTwo 1).log2 = 0 := by decide +kernel
  rw [freeMemory, hfree, disjoint_cover_iff]
  simp [blockRegion, blockEnd, hpage, hptr, hlog]

theorem free_spec_onePageAllocated :
    onePageFreed.baseAddr = onePageAllocated.2.baseAddr ∧
      onePageFreed.endAddr = onePageAllocated.2.endAddr ∧
      onePageFreed.pageSize = onePageAllocated.2.pageSize ∧ onePageFreed.BuddyInvariant ∧
      onePageFreed.freeMemory = onePageAllocated.2.freeMemory ∪
        Set.Ico (PhysicalAddress.toPtr onePageAllocated.1)
          (PhysicalAddress.toPtr onePageAllocated.1 +
            Nat.nextPowerOfTwo 1 * onePageAllocated.2.pageSize.bytes) :=
  free_spec (by decide +kernel) (by decide +kernel) onePageAllocated_held
    (fun _ _ _ => by decide +kernel) free_onePageAllocated

end Free

/-! ## Runs of allocations and frees -/

section Runs

/-- The blocks a client holds, as orders and physical addresses, as the allocator sees them. -/
def heldBlocks (held : List (Nat × Nat)) : List (Nat × Nat) :=
  held.map fun kp => (kp.1, PhysicalAddress.toPtr kp.2)

/-- A call a client makes, on the allocator and the blocks it holds: `allocate`, which hands it
the block at the address returned, of the order of its size; and `free` of a block it holds, with
a size of the same order, when the block is the lower half of its buddy pair or its buddy is not
free. -/
inductive Call : BuddyPageAllocator MAX_ORDER × List (Nat × Nat) →
    BuddyPageAllocator MAX_ORDER × List (Nat × Nat) → Prop
  | allocate {a a' : BuddyPageAllocator MAX_ORDER} {held : List (Nat × Nat)} {numPages p : Nat} :
      a.allocate numPages = .ok (p, a') →
      Call (a, held) (a', (numPages.nextPowerOfTwo.log2, p) :: held)
  | free {a a' : BuddyPageAllocator MAX_ORDER} {held : List (Nat × Nat)} {numPages pages : Nat} :
      (numPages.nextPowerOfTwo.log2, pages) ∈ held →
      (∀ buddy, a.buddyOf (PhysicalAddress.toPtr pages) numPages.nextPowerOfTwo.log2 = .ok buddy →
        buddy ∈ a.freeBlocks numPages.nextPowerOfTwo.log2 →
        a.Aligned (numPages.nextPowerOfTwo.log2 + 1, PhysicalAddress.toPtr pages)) →
      a.free pages numPages = .ok a' →
      Call (a, held) (a', held.erase (numPages.nextPowerOfTwo.log2, pages))

/-- What a run from `a₀` keeps: the allocator's region and page size, the held and the free
blocks as owners, and that together they own the memory that was free in `a₀`, which lies in
the kernel's half of the address space. -/
structure RunInv (a₀ : BuddyPageAllocator MAX_ORDER) (s : BuddyPageAllocator MAX_ORDER × List (Nat × Nat)) :
    Prop where
  baseAddr : s.1.baseAddr = a₀.baseAddr
  endAddr : s.1.endAddr = a₀.endAddr
  pageSize : s.1.pageSize = a₀.pageSize
  owners : s.1.Owners (heldBlocks s.2 ++ s.1.freeBlockList)
  memory : s.1.freeMemory ∪ cover s.1.blockRegion (heldBlocks s.2) = a₀.freeMemory
  kernel : a₀.freeMemory ⊆ Set.Ico kernelTag (kernelTag + 2 ^ 48)

variable {a₀ : BuddyPageAllocator MAX_ORDER}

theorem RunInv.toPtr_ofPtr {a : BuddyPageAllocator MAX_ORDER} {held : List (Nat × Nat)}
    (hI : RunInv a₀ (a, held)) {kb : Nat × Nat} (hkb : a.blockRegion kb ⊆ a.freeMemory) :
    PhysicalAddress.toPtr (PhysicalAddress.ofPtr kb.2) = kb.2 := by
  have hin : kb.2 ∈ a₀.freeMemory :=
    hI.memory ▸ Or.inl (hkb ⟨le_refl _, a.lt_blockEnd kb.1 kb.2⟩)
  exact PhysicalAddress.toPtr_ofPtr (hI.kernel hin).1 (hI.kernel hin).2

theorem RunInv.allocate {a a' : BuddyPageAllocator MAX_ORDER} {held : List (Nat × Nat)}
    {numPages p : Nat} (hI : RunInv a₀ (a, held)) (h : a.allocate numPages = .ok (p, a')) :
    RunInv a₀ (a', (numPages.nextPowerOfTwo.log2, p) :: held) := by
  obtain ⟨b, K, rest, hdK, hK, -, hcons, rfl, ha', hlt⟩ := allocate_eq_ok h
  obtain ⟨hO, hmem⟩ := Owners.allocate hI.owners hdK hK hcons hlt ha'
  have hregion : a'.blockRegion = a.blockRegion := blockRegion_congr (by simp [ha'])
  -- the block returned was free, so it is a kernel pointer
  have hptr := hI.toPtr_ofPtr (show a.blockRegion (numPages.nextPowerOfTwo.log2, b) ⊆ a.freeMemory
    from hmem ▸ Set.subset_union_right)
  have hheld : heldBlocks ((numPages.nextPowerOfTwo.log2, PhysicalAddress.ofPtr b) :: held) =
      (numPages.nextPowerOfTwo.log2, b) :: heldBlocks held := by
    simp only [heldBlocks, List.map_cons, hptr]
  refine ⟨?_, ?_, ?_, ?_, ?_, hI.kernel⟩
  · rw [ha', pushAll_baseAddr, setFreeList_baseAddr, hI.baseAddr]
  · rw [ha', pushAll_endAddr, setFreeList_endAddr, hI.endAddr]
  · rw [ha', pushAll_pageSize, setFreeList_pageSize, hI.pageSize]
  · simpa only [hheld] using hO
  · simp only [hheld, cover_cons, hregion]
    rw [← hI.memory, ← hmem, ← hregion, Set.union_assoc]

theorem RunInv.free {a a' : BuddyPageAllocator MAX_ORDER} {held : List (Nat × Nat)}
    {numPages pages : Nat} (hI : RunInv a₀ (a, held))
    (hmem : (numPages.nextPowerOfTwo.log2, pages) ∈ held)
    (hlower : ∀ buddy, a.buddyOf (PhysicalAddress.toPtr pages) numPages.nextPowerOfTwo.log2 = .ok buddy →
      buddy ∈ a.freeBlocks numPages.nextPowerOfTwo.log2 →
      a.Aligned (numPages.nextPowerOfTwo.log2 + 1, PhysicalAddress.toPtr pages))
    (h : a.free pages numPages = .ok a') :
    RunInv a₀ (a', held.erase (numPages.nextPowerOfTwo.log2, pages)) := by
  have hperm : (heldBlocks held).Perm ((numPages.nextPowerOfTwo.log2, PhysicalAddress.toPtr pages) ::
      heldBlocks (held.erase (numPages.nextPowerOfTwo.log2, pages))) :=
    (List.perm_cons_erase hmem).map _
  obtain ⟨hb, he, hp, hO, hfree⟩ := Owners.free (hI.owners.perm (hperm.append_right _)) rfl rfl hlower h
  have hregion : a'.blockRegion = a.blockRegion := blockRegion_congr hp
  refine ⟨hb.trans hI.baseAddr, he.trans hI.endAddr, hp.trans hI.pageSize, hO, ?_, hI.kernel⟩
  rw [← hI.memory, hfree, hregion, cover_perm hperm, cover_cons, Set.union_assoc]

theorem Call.runInv {s s' : BuddyPageAllocator MAX_ORDER × List (Nat × Nat)} (hcall : Call s s')
    (hI : RunInv a₀ s) : RunInv a₀ s' := by
  cases hcall with
  | allocate h => exact hI.allocate h
  | free hmem hlower h => exact hI.free hmem hlower h

theorem RunInv.buddyInvariant {s : BuddyPageAllocator MAX_ORDER × List (Nat × Nat)}
    (hI : RunInv a₀ s) : s.1.BuddyInvariant :=
  buddyInvariant_iff_owners.2 (hI.owners.sublist (List.sublist_append_right _ _))

/-- Every state a run reaches from an allocator that keeps the buddy invariant over kernel memory
keeps `RunInv`. -/
theorem RunInv.of_run (hinv : a₀.BuddyInvariant)
    (hkernel : a₀.freeMemory ⊆ Set.Ico kernelTag (kernelTag + 2 ^ 48))
    {s : BuddyPageAllocator MAX_ORDER × List (Nat × Nat)}
    (hrun : Relation.ReflTransGen Call (a₀, []) s) : RunInv a₀ s := by
  induction hrun with
  | refl => exact ⟨rfl, rfl, rfl, buddyInvariant_iff_owners.1 hinv, by simp [heldBlocks], hkernel⟩
  | tail _ hcall ih => exact hcall.runInv ih

/-- Over any run of allocations and of frees of held blocks that do not merge at an upper buddy,
from an allocator that keeps the buddy invariant over kernel memory: the buddy invariant holds,
the held blocks and the free blocks are aligned to their sizes and share no page, and together
they own exactly the memory that was free at the start. -/
theorem runs_partition_memory (hinv : a₀.BuddyInvariant)
    (hkernel : a₀.freeMemory ⊆ Set.Ico kernelTag (kernelTag + 2 ^ 48))
    {s : BuddyPageAllocator MAX_ORDER × List (Nat × Nat)}
    (hrun : Relation.ReflTransGen Call (a₀, []) s) :
    s.1.BuddyInvariant ∧ s.1.Owners (heldBlocks s.2 ++ s.1.freeBlockList) ∧
      s.1.freeMemory ∪ cover s.1.blockRegion (heldBlocks s.2) = a₀.freeMemory := by
  have hI := RunInv.of_run hinv hkernel hrun
  exact ⟨hI.buddyInvariant, hI.owners, hI.memory⟩

theorem fourPageRegion_kernel :
    fourPageRegion.freeMemory ⊆ Set.Ico kernelTag (kernelTag + 2 ^ 48) := by
  have hfree : fourPageRegion.freeBlockList = [(2, kernelTag + 0x4000_0000)] := by decide +kernel
  rw [freeMemory, hfree, cover_cons, cover_nil, Set.union_empty]
  refine Set.Ico_subset_Ico (Nat.le_add_right _ _) ?_
  show kernelTag + 0x4000_0000 + 2 ^ 2 * 4096 ≤ kernelTag + 2 ^ 48
  omega

theorem run_allocate_free :
    Relation.ReflTransGen Call (fourPageRegion, []) (onePageFreed, []) := by
  have hrun := Relation.ReflTransGen.tail (.single (Call.allocate allocate_fourPageRegion))
    (Call.free (List.mem_singleton.2 rfl) (fun _ _ _ => by decide +kernel) free_onePageAllocated)
  rwa [List.erase_cons_head] at hrun

theorem runs_partition_memory_allocate_free :
    onePageFreed.BuddyInvariant ∧ onePageFreed.Owners (heldBlocks [] ++ onePageFreed.freeBlockList) ∧
      onePageFreed.freeMemory ∪ cover onePageFreed.blockRegion (heldBlocks []) =
        fourPageRegion.freeMemory :=
  runs_partition_memory (by decide) fourPageRegion_kernel run_allocate_free

end Runs

end BuddyPageAllocator

end EndlessHole.Memory
