import EndlessHole.Memory.Heap
import EndlessHole.Lib.Regions
import Mathlib.Data.List.Basic

/-!
# The representation invariant of the heap

Every run of `alloc` and `dealloc` that does not panic, by a client that frees only what it
holds, with the layout it allocated it with, keeps the heap well formed
(`alloc_dealloc_keep_heapInv`):

* the cells of the heap, the blocks on the free list and the allocations the client holds, own
  pairwise disjoint regions `[B, align_up(B + S, 8))`, where `B` and `S` are the block and the
  size their header records (`HeapInv.disjoint`);
* those regions lie in pages the page allocator handed out (`HeapInv.pages`);
* a free block has room for its `FreeHeader`, and an allocation's data pointer is aligned for its
  layout and its data ends where the recorded size says, after the `AllocatedHeader`
  (`Cell.Valid`);
* so `dealloc` of a held pointer passes its size check and its double-free check
  (`dealloc_ok`).

What the heap needs from its page allocator is `GrantsFreshPages`: the pages it hands out are
page aligned and disjoint from all it handed out before.

The proof follows the data. A write to memory only changes what a cell reads if it lands among
the cell's header words, which lie in the cell's region (`Cell.read_eq_of_frame`). `alloc`
takes a block, from the free list or from fresh pages, whose region no other cell meets
(`Holding`), and carves the allocation and the rest out of it (`allocInBlock_holding`);
`dealloc` turns an allocation into a free block over the same region (`dealloc_heapInv`).
-/

namespace EndlessHole.Memory

namespace HeapAllocator

open Regions

/-- What owns a piece of the heap: a block on the free list, or an allocation the client holds,
by its data pointer and layout. -/
inductive Cell where
  | free (block : Nat)
  | live (ptr : Nat) (layout : Layout)
  deriving DecidableEq

theorem le_alignUp_headerAlign (x : Nat) : x ≤ Usize.alignUp x headerAlign :=
  Usize.le_alignUp (by decide)

namespace Cell

variable (mem : Nat → Nat)

def block : Cell → Nat
  | free b => b
  | live p _ => mem (p - headerSize + 8)

def size : Cell → Nat
  | free b => mem b
  | live p _ => mem (p - headerSize)

/-- The bytes a cell owns: from its block to the end its size records, rounded up to the
headers' alignment. -/
def region (c : Cell) : Set Nat :=
  Set.Ico (c.block mem) (Usize.alignUp (c.block mem + c.size mem) headerAlign)

def headerWords : Cell → List Nat
  | free b => [b]
  | live p _ => [p - headerSize, p - headerSize + 8]

/-- A well-formed cell. A free block is aligned for its `FreeHeader` and has room for it. An
allocation's block is aligned, its `AllocatedHeader` follows the padding right before the data,
the padding is at most `header_padding_max`, the data pointer is aligned for the layout, and the
recorded size covers header, padding and data. -/
def Valid : Cell → Prop
  | free b => b % headerAlign = 0 ∧ b + headerSize ≤ Usize.alignUp (b + mem b) headerAlign
  | live p l =>
    headerSize ≤ p ∧ mem (p - headerSize + 8) % headerAlign = 0 ∧
      mem (p - headerSize + 8) ≤ p - headerSize ∧
      mem (p - headerSize + 8) + mem (p - headerSize) = p + l.size ∧
      p - headerSize - mem (p - headerSize + 8) ≤ headerPaddingMax l ∧ p % l.align = 0

variable {mem}

theorem headerWords_subset_region {c : Cell} (hc : c.Valid mem) :
    ∀ a ∈ c.headerWords, a ∈ c.region mem := by
  cases c with
  | free b =>
    obtain ⟨_, hfits⟩ := hc
    simp only [headerWords, List.mem_singleton, forall_eq, region, block, size, Set.mem_Ico,
      headerSize] at hfits ⊢
    omega
  | live p l =>
    obtain ⟨hp, _, hle, hsum, _, _⟩ := hc
    have hup := le_alignUp_headerAlign (mem (p - headerSize + 8) + mem (p - headerSize))
    simp only [headerWords, List.mem_cons, List.not_mem_nil, or_false, forall_eq_or_imp,
      forall_eq, region, block, size, Set.mem_Ico, headerSize] at hp hle hsum hup ⊢
    omega

theorem read_eq_of_frame {c : Cell} {mem' : Nat → Nat} (h : ∀ a ∈ c.headerWords, mem' a = mem a) :
    c.block mem' = c.block mem ∧ c.size mem' = c.size mem := by
  cases c with
  | free b => simp_all [headerWords, block, size]
  | live p l => simp_all [headerWords, block, size]

theorem region_eq_of_frame {c : Cell} {mem' : Nat → Nat}
    (h : ∀ a ∈ c.headerWords, mem' a = mem a) : c.region mem' = c.region mem := by
  obtain ⟨hb, hs⟩ := read_eq_of_frame h
  simp only [region, hb, hs]

theorem valid_of_frame {c : Cell} {mem' : Nat → Nat} (h : ∀ a ∈ c.headerWords, mem' a = mem a)
    (hc : c.Valid mem) : c.Valid mem' := by
  cases c with
  | free b => simp_all [headerWords, Valid]
  | live p l => simp_all [headerWords, Valid]

theorem Valid.block_aligned {c : Cell} (hc : c.Valid mem) : c.block mem % headerAlign = 0 := by
  cases c with
  | free b => exact hc.1
  | live p l => exact hc.2.1

theorem frame_of_outside {c : Cell} {mem' : Nat → Nat} {X : Set Nat} (hc : c.Valid mem)
    (hX : Disjoint X (c.region mem)) (hout : ∀ a ∉ X, mem' a = mem a) :
    ∀ x ∈ c.headerWords, mem' x = mem x := fun x hx =>
  hout x fun hxX => Set.disjoint_left.1 hX hxX (headerWords_subset_region hc x hx)

end Cell

variable {σ : Type} (P : PageAllocator σ)

/-- The cells of the free blocks `frees` and of the allocations `allocs`. -/
def cellsOf (frees : List Nat) (allocs : List (Nat × Layout)) : List Cell :=
  frees.map .free ++ allocs.map fun x => .live x.1 x.2

/-- The cells of a heap whose client holds `live`: the free list, then the allocations. -/
def cells (h : HeapAllocator σ) (live : List (Nat × Layout)) : List Cell :=
  cellsOf h.freeList live

/-- The representation invariant, with `used s` the memory the page allocator in state `s` has
handed out. -/
structure HeapInv (used : σ → Set Nat) (h : HeapAllocator σ) (live : List (Nat × Layout)) :
    Prop where
  pages : ∃ s, h.pageAllocator = some s ∧ ∀ c ∈ cells h live, c.region h.mem ⊆ used s
  valid : ∀ c ∈ cells h live, c.Valid h.mem
  disjoint : PairwiseDisjoint (Cell.region h.mem) (cells h live)

/-- What the heap relies on from its page allocator, `used s` being the memory it has handed
out in state `s`: the pages of an allocation are page aligned, were not handed out before, and
are handed out afterwards. -/
structure GrantsFreshPages (used : σ → Set Nat) : Prop where
  aligned : ∀ {s n a s'}, P.allocate s n = .ok (a, s') →
    PhysicalAddress.toPtr a % P.pageSize.bytes = 0
  fresh : ∀ {s n a s'}, P.allocate s n = .ok (a, s') →
    Disjoint (Set.Ico (PhysicalAddress.toPtr a) (PhysicalAddress.toPtr a + n * P.pageSize.bytes))
      (used s)
  records : ∀ {s n a s'}, P.allocate s n = .ok (a, s') →
    used s ∪ Set.Ico (PhysicalAddress.toPtr a) (PhysicalAddress.toPtr a + n * P.pageSize.bytes) ⊆
      used s'

/-! ## The steps of `alloc` -/

theorem tryRemoveFit_spec {mem : Nat → Nat} {d : Nat} :
    ∀ {l : List Nat} {b : Nat} {rest : List Nat}, tryRemoveFit mem d l = some (b, rest) →
      b ∈ l ∧ d ≤ mem b ∧ rest = l.erase b
  | [], _, _, h => by simp [tryRemoveFit] at h
  | x :: l, b, rest, h => by
    unfold tryRemoveFit at h
    by_cases hx : d ≤ mem x
    · rw [if_pos hx, Option.some.injEq, Prod.mk.injEq] at h
      obtain ⟨rfl, rfl⟩ := h
      simp [hx]
    · rw [if_neg hx, Option.map_eq_some_iff] at h
      obtain ⟨⟨b', rest'⟩, hrec, heq⟩ := h
      rw [Prod.mk.injEq] at heq
      obtain ⟨rfl, rfl⟩ := heq
      obtain ⟨hb, hd, hrest⟩ := tryRemoveFit_spec hrec
      have hne : ¬(x == b') = true := by
        rw [beq_iff_eq]
        rintro rfl
        exact hx hd
      exact ⟨List.mem_cons_of_mem _ hb, hd, by rw [hrest, List.erase_cons_tail hne]⟩

/-- No block on the free list has room for `req` bytes, and the page allocator, if the heap has
one, refused the pages `alloc` asks it for: `req` bytes rounded up to whole pages, and at least
`MIN_PAGE_ALLOCATION` of them. -/
def Refused (h : HeapAllocator σ) (req : Nat) : Prop :=
  tryRemoveFit h.mem req h.freeList = none ∧
    ∀ s, h.pageAllocator = some s → ∃ e,
      P.allocate s (max ((req + P.pageSize.bytes - 1) / P.pageSize.bytes) minPageAllocation) =
        .error e

/-- The three ways `alloc` can come out of looking for a block: with none, when the free list
and the page allocator refused; with a block of the free list that is large enough; or with
fresh pages from the page allocator. -/
theorem takeBlock_cases {h : HeapAllocator σ} {layout : Layout} {req : Nat}
    {r : Option (Nat × Nat × HeapAllocator σ)} (hr : h.takeBlock P layout req = .ok r) :
    (r = none ∧ h.Refused P req) ∨
    (∃ b ∈ h.freeList, req ≤ h.mem b ∧
      r = some (h.mem b, b, { h with freeList := h.freeList.erase b })) ∨
    (∃ s n a s', h.pageAllocator = some s ∧ P.allocate s n = .ok (a, s') ∧
      req ≤ n * P.pageSize.bytes ∧
      r = some (n * P.pageSize.bytes, PhysicalAddress.toPtr a, { h with pageAllocator := some s' })) := by
  unfold takeBlock at hr
  split at hr
  · -- a block of the free list fits
    rename_i b rest hfit
    obtain ⟨hb, hd, rfl⟩ := tryRemoveFit_spec hfit
    simp only [Fault.assert, decide_eq_true hd, if_true, Fault.ok_bind, pure, Except.pure,
      Except.ok.injEq] at hr
    exact Or.inr (Or.inl ⟨b, hb, hd, hr.symm⟩)
  · rename_i hnofit
    split at hr
    · rename_i hnone
      simp only [pure, Except.pure, Except.ok.injEq] at hr
      exact Or.inl ⟨hr.symm, hnofit, fun s hs => by simp [hnone] at hs⟩
    · rename_i s hs
      set n := max ((req + P.pageSize.bytes - 1) / P.pageSize.bytes) minPageAllocation
      have hreq : req ≤ n * P.pageSize.bytes := by
        have h1 := Usize.le_alignUp (x := req) (P.pageSize.bytes_pos)
        have h2 : (req + P.pageSize.bytes - 1) / P.pageSize.bytes ≤ n := le_max_left _ _
        unfold Usize.alignUp at h1
        exact le_trans h1 (Nat.mul_le_mul_right _ h2)
      rcases Fault.bind_eq_ok.1 hr with ⟨_, -, hr⟩
      split at hr
      · rename_i a s' halloc
        rcases Fault.bind_eq_ok.1 hr with ⟨_, -, hr⟩
        simp only [pure, Except.pure, Except.ok.injEq] at hr
        exact Or.inr (Or.inr ⟨s, n, a, s', hs, halloc, hreq, hr.symm⟩)
      · rename_i e herr
        simp only [pure, Except.pure, Except.ok.injEq] at hr
        refine Or.inl ⟨hr.symm, hnofit, fun s₁ hs₁ => ⟨e, ?_⟩⟩
        obtain rfl : s₁ = s := Option.some.inj (hs₁.symm.trans hs)
        exact herr

theorem update_outside {mem : Nat → Nat} {X : Set Nat} {a v : Nat} (ha : a ∈ X) :
    ∀ x ∉ X, Function.update mem a v x = mem x := fun x hx =>
  Function.update_of_ne (by rintro rfl; exact hx ha) v mem

/-- The state of `alloc` once it has taken a block of `size` bytes at `block` out of the heap
`h` of a client that holds `live`: the rest of the heap is well formed, and the block is
aligned, lies in pages handed out and meets no cell. -/
structure Holding (used : σ → Set Nat) (h : HeapAllocator σ) (live : List (Nat × Layout))
    (size block : Nat) : Prop where
  inv : HeapInv used h live
  aligned : block % headerAlign = 0
  pages : ∀ s, h.pageAllocator = some s →
    Set.Ico block (Usize.alignUp (block + size) headerAlign) ⊆ used s
  apart : ∀ c ∈ cells h live,
    Disjoint (Set.Ico block (Usize.alignUp (block + size) headerAlign)) (c.region h.mem)

theorem cellsOf_append_perm (fs fs' : List Nat) (ys ys' : List (Nat × Layout)) :
    (cellsOf (fs ++ fs') (ys ++ ys')).Perm (cellsOf fs ys ++ cellsOf fs' ys') := by
  simp only [cellsOf, List.map_append, List.append_assoc]
  exact List.Perm.append_left _ (List.perm_append_comm_assoc _ _ _)

/-- Carving the held block into new cells: a heap `h'` that adds the free blocks `fs` and the
allocations `ys` and changes memory only inside the block is well formed if the new cells are
well formed, lie in the block and are apart. -/
theorem Holding.carve {used : σ → Set Nat} {h : HeapAllocator σ} {live : List (Nat × Layout)}
    {size block : Nat} (hh : Holding used h live size block) {h' : HeapAllocator σ}
    (fs : List Nat) (ys : List (Nat × Layout))
    (hpa : h'.pageAllocator = h.pageAllocator) (hfl : h'.freeList = fs ++ h.freeList)
    (hout : ∀ a ∉ Set.Ico block (Usize.alignUp (block + size) headerAlign), h'.mem a = h.mem a)
    (hvalid : ∀ c ∈ cellsOf fs ys, c.Valid h'.mem)
    (hsub : ∀ c ∈ cellsOf fs ys,
      c.region h'.mem ⊆ Set.Ico block (Usize.alignUp (block + size) headerAlign))
    (hdisj : PairwiseDisjoint (Cell.region h'.mem) (cellsOf fs ys)) :
    HeapInv used h' (ys ++ live) := by
  have hperm : (cells h' (ys ++ live)).Perm (cellsOf fs ys ++ cells h live) := by
    rw [cells, hfl]
    exact cellsOf_append_perm fs h.freeList ys live
  have hframe : ∀ c ∈ cells h live, ∀ x ∈ c.headerWords, h'.mem x = h.mem x := fun c hc =>
    Cell.frame_of_outside (hh.inv.valid c hc) (hh.apart c hc) hout
  have hregion : ∀ c ∈ cells h live, c.region h'.mem = c.region h.mem := fun c hc =>
    Cell.region_eq_of_frame (hframe c hc)
  obtain ⟨s, hs, hused⟩ := hh.inv.pages
  refine ⟨⟨s, hpa.trans hs, fun c hc => ?_⟩, fun c hc => ?_, ?_⟩
  · rcases List.mem_append.1 (hperm.subset hc) with hnew | hold
    · exact (hsub c hnew).trans (hh.pages s hs)
    · exact (hregion c hold).trans_subset (hused c hold)
  · rcases List.mem_append.1 (hperm.subset hc) with hnew | hold
    · exact hvalid c hnew
    · exact Cell.valid_of_frame (hframe c hold) (hh.inv.valid c hold)
  · refine PairwiseDisjoint.perm ?_ hperm.symm
    refine pairwiseDisjoint_append_fresh (hh.inv.disjoint.congr hregion) (fun c hc => ?_) hdisj hsub
    rw [hregion c hc]
    exact hh.apart c hc

theorem cells_erase_free {h : HeapAllocator σ} {live : List (Nat × Layout)} {b : Nat}
    (hb : b ∈ h.freeList) :
    cells { h with freeList := h.freeList.erase b } live = (cells h live).erase (.free b) := by
  have hinj : Function.Injective Cell.free := fun _ _ hxy => Cell.free.inj hxy
  simp only [cells, cellsOf]
  rw [List.map_erase hinj, List.erase_append_left _ (List.mem_map_of_mem hb)]

theorem alignUp_fresh_pages {a n : Nat} (ha : PhysicalAddress.toPtr a % P.pageSize.bytes = 0) :
    PhysicalAddress.toPtr a % headerAlign = 0 ∧
    Usize.alignUp (PhysicalAddress.toPtr a + n * P.pageSize.bytes) headerAlign =
      PhysicalAddress.toPtr a + n * P.pageSize.bytes := by
  have h8 : headerAlign ∣ P.pageSize.bytes := Nat.dvd_of_mod_eq_zero P.pageSize.bytes_mod_eight
  have hB : headerAlign ∣ PhysicalAddress.toPtr a := h8.trans (Nat.dvd_of_mod_eq_zero ha)
  have hend : headerAlign ∣ PhysicalAddress.toPtr a + n * P.pageSize.bytes :=
    Nat.dvd_add hB (h8.mul_left n)
  exact ⟨Nat.mod_eq_zero_of_dvd hB,
    Usize.alignUp_of_mod_eq_zero (by decide) (Nat.mod_eq_zero_of_dvd hend)⟩

theorem HeapInv.holding_of_erase {used : σ → Set Nat} {h₀ h : HeapAllocator σ}
    {live₀ live : List (Nat × Layout)} {c : Cell} (hinv : HeapInv used h₀ live₀)
    (hc : c ∈ cells h₀ live₀) (hcells : cells h live = (cells h₀ live₀).erase c)
    (hpa : h.pageAllocator = h₀.pageAllocator) (hmem : h.mem = h₀.mem) :
    Holding used h live (c.size h.mem) (c.block h.mem) := by
  obtain ⟨s, hs, hused⟩ := hinv.pages
  rw [hmem]
  refine ⟨⟨⟨s, hpa.trans hs, ?_⟩, ?_, ?_⟩, (hinv.valid c hc).block_aligned, ?_, ?_⟩
  · rw [hcells, hmem]
    exact fun c' hc' => hused c' (List.mem_of_mem_erase hc')
  · rw [hcells, hmem]
    exact fun c' hc' => hinv.valid c' (List.mem_of_mem_erase hc')
  · rw [hcells, hmem]
    exact hinv.disjoint.sublist List.erase_sublist
  · intro s₁ hs₁
    obtain rfl : s₁ = s := Option.some.inj (hs₁.symm.trans (hpa.trans hs))
    exact hused c hc
  · rw [hcells, hmem]
    exact fun c' hc' => hinv.disjoint.of_mem_erase hc hc'

theorem takeBlock_holding {used : σ → Set Nat} (hP : GrantsFreshPages P used)
    {h : HeapAllocator σ} {live : List (Nat × Layout)} (hinv : HeapInv used h live)
    {layout : Layout} {req T B : Nat} {h' : HeapAllocator σ}
    (hr : h.takeBlock P layout req = .ok (some (T, B, h'))) :
    Holding used h' live T B ∧ req ≤ T := by
  obtain ⟨s, hs, hused⟩ := hinv.pages
  rcases takeBlock_cases P hr with ⟨hnone, -⟩ | ⟨b, hb, hreq, hsome⟩ |
    ⟨s₀, n, a, s', hs₀, halloc, hreq, hsome⟩
  · cases hnone
  · -- a free block: its cell leaves the heap, and its region is the held block
    simp only [Option.some.injEq, Prod.mk.injEq] at hsome
    obtain ⟨rfl, rfl, rfl⟩ := hsome
    have hmem : Cell.free B ∈ cells h live := List.mem_append_left _ (List.mem_map_of_mem hb)
    exact ⟨hinv.holding_of_erase hmem (cells_erase_free hb) rfl rfl, hreq⟩
  · -- fresh pages: the heap is the same, over a page allocator that handed out more
    simp only [Option.some.injEq, Prod.mk.injEq] at hsome
    obtain ⟨rfl, rfl, rfl⟩ := hsome
    obtain rfl : s₀ = s := Option.some.inj (hs₀.symm.trans hs)
    obtain ⟨hB, hend⟩ := alignUp_fresh_pages P (n := n) (hP.aligned halloc)
    have hrecords := hP.records halloc
    refine ⟨⟨⟨⟨s', rfl, fun c hc => ?_⟩, hinv.valid, hinv.disjoint⟩, hB, ?_, ?_⟩, hreq⟩
    · exact (hused c hc).trans (Set.subset_union_left.trans hrecords)
    · intro s₁ hs₁
      obtain rfl : s₁ = s' := (Option.some.inj hs₁).symm
      rw [hend]
      exact Set.subset_union_right.trans hrecords
    · intro c hc
      rw [hend]
      exact (hP.fresh halloc).mono_right (hused c hc)

/-- The allocation `alloc` writes: with its `AllocatedHeader` at `block + pad`, recording the
size and the block, the allocation at `block + pad + 16` is well formed and owns the block up
to the end of its recorded size. -/
theorem writeAllocatedHeader_live (h : HeapAllocator σ) {layout : Layout} {block pad : Nat}
    (hblock : block % headerAlign = 0) (hpad : pad ≤ headerPaddingMax layout)
    (halign : (block + pad + headerSize) % layout.align = 0) :
    (Cell.live (block + pad + headerSize) layout).Valid
        (h.writeAllocatedHeader (block + pad) (headerSize + pad + layout.size) block).mem ∧
      (Cell.live (block + pad + headerSize) layout).region
        (h.writeAllocatedHeader (block + pad) (headerSize + pad + layout.size) block).mem =
      Set.Ico block (Usize.alignUp (block + (headerSize + pad + layout.size)) headerAlign) := by
  have hp : block + pad + headerSize - headerSize = block + pad := by omega
  have hne : block + pad ≠ block + pad + 8 := by omega
  simp only [Cell.Valid, Cell.region, Cell.block, Cell.size, writeAllocatedHeader, hp,
    Function.update_self, Function.update_of_ne hne]
  refine ⟨⟨?_, hblock, ?_, ?_, ?_, halign⟩, trivial⟩ <;> omega

/-- `alloc` carves the allocation, and the rest of the block when that is larger than a
`FreeHeader`, out of the block it holds: the heap stays well formed, with the new allocation
held by the client. -/
theorem allocInBlock_holding {used : σ → Set Nat} {h : HeapAllocator σ}
    {live : List (Nat × Layout)} {layout : Layout} {T B p : Nat} {h' : HeapAllocator σ}
    (hh : Holding used h live T B)
    (hreq : headerSize + headerPaddingMax layout + layout.size ≤ T)
    (hr : h.allocInBlock layout T B = .ok (p, h')) :
    HeapInv used h' ((p, layout) :: live) ∧ p ≠ 0 := by
  unfold allocInBlock at hr
  obtain ⟨_, hpad, hr⟩ := Fault.bind_eq_ok.1 hr
  rw [Fault.assert_eq_ok, decide_eq_true_iff] at hpad
  simp only [pure, Except.pure, Except.ok.injEq, Prod.mk.injEq] at hr
  obtain ⟨rfl, rfl⟩ := hr
  set pad := Usize.alignOffset (B + headerSize) layout.align
  have halign : (B + pad + headerSize) % layout.align = 0 := by
    rw [Nat.add_right_comm]
    exact Usize.add_alignOffset_mod layout.align_pos
  set u := Usize.alignUp (headerSize + pad + layout.size) headerAlign
  set v := Usize.alignUp (B + T) headerAlign
  have hliveEnd : Usize.alignUp (B + (headerSize + pad + layout.size)) headerAlign = B + u := by
    obtain ⟨k, hk⟩ := Nat.dvd_of_mod_eq_zero hh.aligned
    rw [hk]
    exact Usize.alignUp_add_mul (by decide)
  have h16 : headerSize = 16 := rfl
  have hB8 : B % 8 = 0 := hh.aligned
  have hBv : B + T ≤ v := le_alignUp_headerAlign (B + T)
  have hv8 : v % 8 = 0 := Usize.alignUp_mod
  have hu : headerSize + pad + layout.size ≤ u := le_alignUp_headerAlign _
  have hu' : u < headerSize + pad + layout.size + 8 := Usize.alignUp_lt (by decide)
  have hu8 : u % 8 = 0 := Usize.alignUp_mod
  have huv : B + u ≤ v := hliveEnd ▸ Usize.alignUp_mono (by omega)
  refine ⟨?_, by omega⟩
  have hhdr : B + pad ∈ Set.Ico B v := ⟨by omega, by omega⟩
  have hhdr8 : B + pad + 8 ∈ Set.Ico B v := ⟨by omega, by omega⟩
  have hliveSub : Set.Ico B (B + u) ⊆ Set.Ico B v := Set.Ico_subset_Ico le_rfl huv
  split_ifs with hrest
  · -- the rest of the block becomes a free block at `B + u`, right after the allocation
    have hR : B + u ∈ Set.Ico B v := ⟨by omega, by omega⟩
    obtain ⟨hlive, hregion⟩ := writeAllocatedHeader_live (h.pushFreeBlock (B + u) (T - u))
      hh.aligned hpad halign
    set mem' := ((h.pushFreeBlock (B + u) (T - u)).writeAllocatedHeader (B + pad)
      (headerSize + pad + layout.size) B).mem with hmem'
    have hmemR : mem' (B + u) = T - u := by
      simp only [hmem', writeAllocatedHeader, pushFreeBlock]
      rw [Function.update_of_ne (by omega), Function.update_of_ne (by omega), Function.update_self]
    have hRend : B + u + (T - u) = B + T := by omega
    have hfreeRegion : (Cell.free (B + u)).region mem' = Set.Ico (B + u) v := by
      simp only [Cell.region, Cell.block, Cell.size, hmemR, hRend, v]
    refine hh.carve [B + u] [(B + pad + headerSize, layout)] rfl rfl ?_ ?_ ?_ ?_
    · exact fun a ha => (update_outside hhdr8 a ha).trans
        ((update_outside hhdr a ha).trans (update_outside hR a ha))
    · simp only [cellsOf, List.map_cons, List.map_nil, List.cons_append, List.nil_append,
        List.mem_cons, List.not_mem_nil, or_false, forall_eq_or_imp, forall_eq]
      refine ⟨⟨by unfold headerAlign; omega, ?_⟩, hlive⟩
      show B + u + headerSize ≤ Usize.alignUp (B + u + mem' (B + u)) headerAlign
      rw [hmemR, hRend]
      omega
    · simp only [cellsOf, List.map_cons, List.map_nil, List.cons_append, List.nil_append,
        List.mem_cons, List.not_mem_nil, or_false, forall_eq_or_imp, forall_eq]
      rw [hfreeRegion, hregion, hliveEnd]
      exact ⟨Set.Ico_subset_Ico (by omega) le_rfl, hliveSub⟩
    · -- the allocation ends where the rest starts
      simp only [PairwiseDisjoint, cellsOf, List.map_cons, List.map_nil, List.cons_append,
        List.nil_append, List.pairwise_pair]
      rw [hfreeRegion, hregion, hliveEnd]
      exact Set.Ico_disjoint_Ico_same.symm
  · -- the allocation keeps the whole block
    obtain ⟨hlive, hregion⟩ := writeAllocatedHeader_live h hh.aligned hpad halign
    refine hh.carve [] [(B + pad + headerSize, layout)] rfl rfl ?_ ?_ ?_ ?_
    · exact fun a ha => (update_outside hhdr8 a ha).trans (update_outside hhdr a ha)
    · simp only [cellsOf, List.map_cons, List.map_nil, List.nil_append, List.mem_singleton,
        forall_eq]
      exact hlive
    · simp only [cellsOf, List.map_cons, List.map_nil, List.nil_append, List.mem_singleton,
        forall_eq]
      rw [hregion, hliveEnd]
      exact hliveSub
    · simp only [PairwiseDisjoint, cellsOf, List.map_cons, List.map_nil, List.nil_append,
        List.pairwise_singleton]

/-- `alloc` keeps the heap well formed. It returns null only when no free block fits and the page
allocator refused (or is missing), and then leaves the heap as it was; any other pointer joins
what the client holds. -/
theorem alloc_heapInv {used : σ → Set Nat} (hP : GrantsFreshPages P used) {h : HeapAllocator σ}
    {live : List (Nat × Layout)} (hinv : HeapInv used h live) {layout : Layout} {p : Nat}
    {h' : HeapAllocator σ} (hr : h.alloc P layout = .ok (p, h')) :
    (p ≠ 0 ∧ HeapInv used h' ((p, layout) :: live)) ∨
      (p = 0 ∧ h' = h ∧
        h.Refused P (headerSize + headerPaddingMax layout + layout.size)) := by
  unfold alloc at hr
  obtain ⟨r, htake, hr⟩ := Fault.bind_eq_ok.1 hr
  rcases r with _ | ⟨T, B, h''⟩
  · -- null: nothing was taken
    simp only [pure, Except.pure, Except.ok.injEq, Prod.mk.injEq] at hr
    obtain ⟨rfl, rfl⟩ := hr
    rcases takeBlock_cases P htake with ⟨-, hrefused⟩ | ⟨_, _, _, hsome⟩ | ⟨_, _, _, _, _, _, _, hsome⟩
    · exact Or.inr ⟨rfl, rfl, hrefused⟩
    · cases hsome
    · cases hsome
  · obtain ⟨hh, hreq⟩ := takeBlock_holding P hP hinv htake
    obtain ⟨hinv', hp⟩ := allocInBlock_holding hh hreq hr
    exact Or.inl ⟨hp, hinv'⟩

/-- Null does come back: on a fresh heap over the tests' page allocator of 512 pages, `alloc` of
2 MiB needs 513 pages, the page allocator refuses, and `alloc` returns null without
panicking. -/
theorem alloc_returns_null_when_pages_run_out :
    Except.map Prod.fst (fresh.alloc mockPages (Layout.ofSizeAlign 0x20_0000 3)) = .ok 0 := by
  decide +kernel

/-! ## `dealloc` -/

theorem cells_erase_live {h : HeapAllocator σ} {live : List (Nat × Layout)} {p : Nat}
    {layout : Layout} :
    cells h (live.erase (p, layout)) = (cells h live).erase (.live p layout) := by
  have hinj : Function.Injective fun x : Nat × Layout => Cell.live x.1 x.2 := fun x y hxy => by
    obtain ⟨h1, h2⟩ := Cell.live.inj hxy
    exact Prod.ext h1 h2
  have hnot : Cell.live p layout ∉ h.freeList.map .free := by simp
  simp only [cells, cellsOf]
  rw [List.map_erase hinj, List.erase_append_right _ hnot]

/-- `dealloc` of an allocation the client holds, with the layout it was allocated with, passes
the size check and the double-free check, and puts the allocation's block on the free list with
the size its header records. -/
theorem dealloc_ok {used : σ → Set Nat} {h : HeapAllocator σ} {live : List (Nat × Layout)}
    (hinv : HeapInv used h live) {p : Nat} {layout : Layout} (hp : (p, layout) ∈ live) :
    h.dealloc p layout = .ok (h.pushFreeBlock (h.mem (p - headerSize + 8)) (h.mem (p - headerSize))) := by
  have hmem : Cell.live p layout ∈ cells h live :=
    List.mem_append_right _ (List.mem_map_of_mem (f := fun x => Cell.live x.1 x.2) hp)
  obtain ⟨h16, hB8, hBle, hsum, hpad, -⟩ := hinv.valid _ hmem
  have hp0 : p ≠ 0 := by unfold headerSize at h16; omega
  rw [dealloc, if_neg hp0]
  dsimp only
  set B := h.mem (p - headerSize + 8)
  set A := h.mem (p - headerSize)
  -- the block lies in the allocation's region, which no free block's region meets
  have hBin : B ∈ (Cell.live p layout).region h.mem := by
    have := le_alignUp_headerAlign (B + A)
    refine ⟨le_rfl, ?_⟩
    show B < Usize.alignUp (B + A) headerAlign
    unfold headerSize at *
    omega
  have hnotFree : isFree h.mem h.freeList B = false := by
    rw [isFree, List.any_eq_false]
    intro b hb hin
    have hfree : Cell.free b ∈ cells h live := List.mem_append_left _ (List.mem_map_of_mem hb)
    have hdisj := hinv.disjoint.disjoint hfree hmem (by simp)
    have hup := le_alignUp_headerAlign (b + h.mem b)
    obtain ⟨hbB, hBlt⟩ := of_decide_eq_true hin
    exact Set.disjoint_left.1 hdisj ⟨hbB, by simp only [Cell.block, Cell.size]; omega⟩ hBin
  have hsize : (headerSize + layout.size ≤ A && A ≤ headerPaddingMax layout + (headerSize + layout.size)) = true := by
    simp only [Bool.and_eq_true, decide_eq_true_eq]
    omega
  simp only [hsize, hnotFree, Fault.assert_true, Bool.not_false, Fault.ok_bind]
  rfl

/-- `dealloc` of an allocation the client holds keeps the heap well formed: the allocation's
region becomes the region of a free block. -/
theorem dealloc_heapInv {used : σ → Set Nat} {h : HeapAllocator σ} {live : List (Nat × Layout)}
    (hinv : HeapInv used h live) {p : Nat} {layout : Layout} (hp : (p, layout) ∈ live)
    {h' : HeapAllocator σ} (hr : h.dealloc p layout = .ok h') :
    HeapInv used h' (live.erase (p, layout)) := by
  rw [dealloc_ok hinv hp, Except.ok.injEq] at hr
  subst hr
  have hmem : Cell.live p layout ∈ cells h live :=
    List.mem_append_right _ (List.mem_map_of_mem (f := fun x => Cell.live x.1 x.2) hp)
  obtain ⟨_, hB8, hBle, hsum, -, -⟩ := hinv.valid _ hmem
  have hh := hinv.holding_of_erase hmem cells_erase_live rfl rfl
  set B := h.mem (p - headerSize + 8)
  set A := h.mem (p - headerSize)
  have hA : headerSize ≤ A := by omega
  have hup := le_alignUp_headerAlign (B + A)
  have hB : B ∈ Set.Ico B (Usize.alignUp (B + A) headerAlign) := ⟨le_rfl, by unfold headerSize at hA; omega⟩
  have hregion : (Cell.free B).region (h.pushFreeBlock B A).mem =
      Set.Ico B (Usize.alignUp (B + A) headerAlign) := by
    simp only [Cell.region, Cell.block, Cell.size, pushFreeBlock, Function.update_self]
  refine hh.carve [B] [] rfl rfl (fun a ha => update_outside hB a ha) ?_ ?_ ?_
  · simp only [cellsOf, List.map_cons, List.map_nil, List.append_nil, List.mem_singleton,
      forall_eq]
    refine ⟨hB8, ?_⟩
    simp only [pushFreeBlock, Function.update_self]
    omega
  · simp only [cellsOf, List.map_cons, List.map_nil, List.append_nil, List.mem_singleton,
      forall_eq]
    exact hregion.subset
  · simp only [PairwiseDisjoint, cellsOf, List.map_cons, List.map_nil, List.append_nil,
      List.pairwise_singleton]

/-- What the client holds, under the invariant: a non-null pointer, aligned for its layout,
whose data lies in its block after its `AllocatedHeader` and ends where the header's size
says. -/
theorem HeapInv.live_spec {used : σ → Set Nat} {h : HeapAllocator σ}
    {live : List (Nat × Layout)} (hinv : HeapInv used h live) {p : Nat} {layout : Layout}
    (hp : (p, layout) ∈ live) :
    p ≠ 0 ∧ p % layout.align = 0 ∧ h.mem (p - headerSize + 8) + headerSize ≤ p ∧
      p + layout.size = h.mem (p - headerSize + 8) + h.mem (p - headerSize) := by
  have hmem : Cell.live p layout ∈ cells h live :=
    List.mem_append_right _ (List.mem_map_of_mem (f := fun x => Cell.live x.1 x.2) hp)
  obtain ⟨h16, -, hBle, hsum, -, halign⟩ := hinv.valid _ hmem
  unfold headerSize at *
  exact ⟨by omega, halign, by omega, hsum.symm⟩

/-! ## Runs -/

/-- One call, that does not panic, of a client that frees only what it holds, with the layout
it allocated it with: `alloc` of a non-null pointer, which the client then holds; `alloc` that
returns null; `dealloc` of a pointer the client holds. -/
inductive Call : HeapAllocator σ × List (Nat × Layout) → HeapAllocator σ × List (Nat × Layout) →
    Prop
  | alloc {h : HeapAllocator σ} {live : List (Nat × Layout)} {layout : Layout} {p : Nat}
      {h' : HeapAllocator σ} :
      h.alloc P layout = .ok (p, h') → p ≠ 0 → Call (h, live) (h', (p, layout) :: live)
  | allocNull {h : HeapAllocator σ} {live : List (Nat × Layout)} {layout : Layout}
      {h' : HeapAllocator σ} :
      h.alloc P layout = .ok (0, h') → Call (h, live) (h', live)
  | dealloc {h : HeapAllocator σ} {live : List (Nat × Layout)} {p : Nat} {layout : Layout}
      {h' : HeapAllocator σ} :
      (p, layout) ∈ live → h.dealloc p layout = .ok h' → Call (h, live) (h', live.erase (p, layout))

variable {used : σ → Set Nat}

theorem heapInv_new (s : σ) (mem : Nat → Nat) : HeapInv used (new s mem) [] :=
  ⟨⟨s, rfl, by simp [cells, cellsOf, new]⟩, by simp [cells, cellsOf, new], List.Pairwise.nil⟩

theorem Call.heapInv (hP : GrantsFreshPages P used) {st st' : HeapAllocator σ × List (Nat × Layout)}
    (hcall : Call P st st') (hinv : HeapInv used st.1 st.2) : HeapInv used st'.1 st'.2 := by
  cases hcall with
  | alloc hr hp =>
    rcases alloc_heapInv P hP hinv hr with ⟨-, hinv'⟩ | ⟨hp0, -⟩
    · exact hinv'
    · exact absurd hp0 hp
  | allocNull hr =>
    rcases alloc_heapInv P hP hinv hr with ⟨hp0, -⟩ | ⟨-, rfl, -⟩
    · exact absurd rfl hp0
    · exact hinv
  | dealloc hp hr => exact dealloc_heapInv hinv hp hr

theorem heapInv_of_run (hP : GrantsFreshPages P used) {s₀ : σ} {mem₀ : Nat → Nat}
    {st : HeapAllocator σ × List (Nat × Layout)}
    (hrun : Relation.ReflTransGen (Call P) (new s₀ mem₀, []) st) : HeapInv used st.1 st.2 := by
  induction hrun with
  | refl => exact heapInv_new s₀ mem₀
  | tail _ hcall ih => exact hcall.heapInv P hP ih

/-- The heap's representation invariant over every run of `alloc` and `dealloc` by a client
that frees only what it holds, with its own layout, over a page allocator that hands out fresh
page-aligned pages: the cells own disjoint regions in pages handed out, with room for their
headers; every pointer the client holds is non-null, aligned, and has its data in its own block
after its `AllocatedHeader`, and `dealloc` of it passes both its checks; `alloc` returns null
only when no free block fits and the page allocator refused, and then changes nothing. -/
theorem alloc_dealloc_keep_heapInv (hP : GrantsFreshPages P used) {s₀ : σ} {mem₀ : Nat → Nat}
    {h : HeapAllocator σ} {live : List (Nat × Layout)}
    (hrun : Relation.ReflTransGen (Call P) (new s₀ mem₀, []) (h, live)) :
    HeapInv used h live ∧
    (∀ p layout, (p, layout) ∈ live →
      p ≠ 0 ∧ p % layout.align = 0 ∧ h.mem (p - headerSize + 8) + headerSize ≤ p ∧
      p + layout.size = h.mem (p - headerSize + 8) + h.mem (p - headerSize) ∧
      h.dealloc p layout =
        .ok (h.pushFreeBlock (h.mem (p - headerSize + 8)) (h.mem (p - headerSize)))) ∧
    (∀ layout h', h.alloc P layout = .ok (0, h') →
      h' = h ∧ h.Refused P (headerSize + headerPaddingMax layout + layout.size)) := by
  have hinv : HeapInv used h live := heapInv_of_run P hP hrun
  refine ⟨hinv, fun p layout hp => ?_, fun layout h' hr => ?_⟩
  · obtain ⟨hp0, halign, hafter, hend⟩ := hinv.live_spec hp
    exact ⟨hp0, halign, hafter, hend, dealloc_ok hinv hp⟩
  · rcases alloc_heapInv P hP hinv hr with ⟨hp0, -⟩ | ⟨-, hh', hrefused⟩
    · exact absurd rfl hp0
    · exact ⟨hh', hrefused⟩

/-! ## A page allocator that hands out fresh pages -/

/-- A page allocator of `limit` pages of 4 KiB from the physical address `base`, handed out in
order and never reused; its state is the number of pages handed out. -/
def bumpPages (base limit : Nat) : PageAllocator Nat where
  pageSize := .fourKiB
  allocate s n := if s + n ≤ limit then .ok (base + s * 0x1000, s + n) else .error .outOfMemory
  free s _ _ := .ok s

/-- The memory `bumpPages base _` has handed out once it is in state `s`, as kernel pointers. -/
def bumpUsed (base s : Nat) : Set Nat :=
  Set.Ico (kernelTag + base) (kernelTag + base + s * 0x1000)

theorem bumpPages_allocate {base limit s n a s' : Nat}
    (h : (bumpPages base limit).allocate s n = .ok (a, s')) :
    s + n ≤ limit ∧ a = base + s * 0x1000 ∧ s' = s + n := by
  simp only [bumpPages] at h
  split_ifs at h with hle
  · simp only [Except.ok.injEq, Prod.mk.injEq] at h
    exact ⟨hle, h.1.symm, h.2.symm⟩

theorem bumpPages_grantsFreshPages {base limit : Nat} (hbase : base % 0x1000 = 0)
    (hlimit : base + limit * 0x1000 < 2 ^ 48) :
    GrantsFreshPages (bumpPages base limit) (bumpUsed base) := by
  have hptr : ∀ {s n a s'}, (bumpPages base limit).allocate s n = .ok (a, s') →
      PhysicalAddress.toPtr a = kernelTag + base + s * 0x1000 ∧ s' = s + n := by
    intro s n a s' h
    obtain ⟨hle, rfl, rfl⟩ := bumpPages_allocate h
    have hlt : base + s * 0x1000 < 2 ^ 48 :=
      calc base + s * 0x1000 ≤ base + limit * 0x1000 := by gcongr; omega
        _ < 2 ^ 48 := hlimit
    rw [PhysicalAddress.toPtr_of_lt hlt, Nat.add_assoc]
    exact ⟨rfl, rfl⟩
  have hbytes : (bumpPages base limit).pageSize.bytes = 0x1000 := rfl
  refine ⟨fun h => ?_, fun h => ?_, fun h => ?_⟩ <;> obtain ⟨hp, rfl⟩ := hptr h <;>
    rw [hp, hbytes]
  · unfold kernelTag
    omega
  · exact Set.Ico_disjoint_Ico_same.symm
  · rw [bumpUsed, bumpUsed, Set.Ico_union_Ico_eq_Ico (by omega) (by omega), Nat.add_mul,
      Nat.add_assoc (kernelTag + base)]

/-- The heap after `alloc(Layout(8, 8))` on a new heap over 16 fresh pages: four pages taken,
the `AllocatedHeader` at their start and the rest of them free after the 24 bytes used. -/
def allocatedOnce : HeapAllocator Nat :=
  ((⟨some 4, [], fun _ => 0⟩ : HeapAllocator Nat).pushFreeBlock
    (PhysicalAddress.toPtr 0x10_0000 + 24) 16360).writeAllocatedHeader
    (PhysicalAddress.toPtr 0x10_0000) 24 (PhysicalAddress.toPtr 0x10_0000)

/-- A run of one call: `alloc` of 8 bytes aligned to 8 on a new heap over 16 fresh pages. -/
theorem alloc_dealloc_keep_heapInv_one_alloc :
    GrantsFreshPages (bumpPages 0x10_0000 16) (bumpUsed 0x10_0000) ∧
    Relation.ReflTransGen (Call (bumpPages 0x10_0000 16)) (new 0 fun _ => 0, [])
      (allocatedOnce, [(PhysicalAddress.toPtr 0x10_0000 + 16, Layout.ofSizeAlign 8 3)]) ∧
    HeapInv (bumpUsed 0x10_0000) allocatedOnce
      [(PhysicalAddress.toPtr 0x10_0000 + 16, Layout.ofSizeAlign 8 3)] ∧
    (∀ p layout, (p, layout) ∈ [(PhysicalAddress.toPtr 0x10_0000 + 16, Layout.ofSizeAlign 8 3)] →
      p ≠ 0 ∧ p % layout.align = 0 ∧
      allocatedOnce.mem (p - headerSize + 8) + headerSize ≤ p ∧
      p + layout.size = allocatedOnce.mem (p - headerSize + 8) + allocatedOnce.mem (p - headerSize) ∧
      allocatedOnce.dealloc p layout = .ok (allocatedOnce.pushFreeBlock
        (allocatedOnce.mem (p - headerSize + 8)) (allocatedOnce.mem (p - headerSize)))) ∧
    (∀ layout h', allocatedOnce.alloc (bumpPages 0x10_0000 16) layout = .ok (0, h') →
      h' = allocatedOnce ∧
        allocatedOnce.Refused (bumpPages 0x10_0000 16)
          (headerSize + headerPaddingMax layout + layout.size)) := by
  have hP : GrantsFreshPages (bumpPages 0x10_0000 16) (bumpUsed 0x10_0000) :=
    bumpPages_grantsFreshPages (by decide) (by decide)
  have hrun : Relation.ReflTransGen (Call (bumpPages 0x10_0000 16)) (new 0 fun _ => 0, [])
      (allocatedOnce, [(PhysicalAddress.toPtr 0x10_0000 + 16, Layout.ofSizeAlign 8 3)]) :=
    Relation.ReflTransGen.single (Call.alloc rfl (by decide))
  exact ⟨hP, hrun, alloc_dealloc_keep_heapInv (bumpPages 0x10_0000 16) hP hrun⟩

end HeapAllocator

end EndlessHole.Memory
