import EndlessHole.Memory.PageTableWalk

/-!
# The translation that the page tables implement

With 4 KiB pages, the page tables of `kernel_core/src/memory/page_table.rs` implement a partial
function from 48-bit virtual addresses to physical addresses (`Represents`):
`physical_address_of` answers it for an address that carries the tag of the tables, and nothing
for any other address.

* `map_spec`: after a `map` of `count` blocks of `size` from `vs` to `ps` that returns, an
  address of the range, read below `2 ^ 48`, translates to `ps` plus its offset in the range
  (also read below `2 ^ 48`: `map` checks no physical range), every other address translates as
  before, and the range lies below `2 ^ 48`;
* `unmap_spec`: after an `unmap` that returns, the range translates to nothing;
* `empty_spec` and `runs_represent`: `PageTables::empty` implements the function that maps
  nothing, and every run of `map` and `unmap` calls that return implements the function the calls
  define (`overwrite`), with the tables apart in pages that the allocator handed out
  (`WellFormed`).

What is asked of the page allocator is `GrantsTablePages`: fresh page-aligned 4 KiB pages below
`2 ^ 48`.
-/

namespace EndlessHole.Memory

namespace PageTables

open PageTable HeapAllocator

/-- The level whose entries map a block of `size` with 4 KiB pages, where the walk ends. -/
def blockLevel : MapBlockSize → Nat
  | .page => 3
  | .smallBlock => 2
  | .largeBlock => 1

theorem lengthInBytes_fourKiB (size : MapBlockSize) :
    size.lengthInBytes .fourKiB = some (entryBytes (blockLevel size)) := by
  cases size <;> rfl

theorem blockLevel_pos (size : MapBlockSize) : 1 ≤ blockLevel size := by
  cases size <;> decide

theorem blockLevel_le (size : MapBlockSize) : blockLevel size ≤ 3 := by
  cases size <;> decide

theorem entryBytes_dvd_two_pow_48 (l : Nat) : entryBytes l ∣ 2 ^ 48 :=
  (entryBytes_dvd (Nat.zero_le l)).trans (entryBytes_dvd_tableBytes 0)

theorem add_mod_two_pow_48 {a q E : Nat} (hE : E ∣ 2 ^ 48) (ha : E ∣ a) (hq : q < E) :
    (a + q) % 2 ^ 48 = a % 2 ^ 48 + q := by
  obtain ⟨u, hu⟩ := (Nat.dvd_mod_iff hE).2 ha
  obtain ⟨v, hv⟩ := hE
  have hlt : E * u < E * v := by
    rw [← hu, ← hv]
    exact Nat.mod_lt a (by decide)
  have huv : E * (u + 1) ≤ E * v := Nat.mul_le_mul_left E (Nat.lt_of_mul_lt_mul_left hlt)
  have hfit : a % 2 ^ 48 + q < 2 ^ 48 := by
    rw [hu, hv]
    rw [Nat.mul_add, Nat.mul_one] at huv
    omega
  rw [← Nat.mod_add_mod, Nat.mod_eq_of_lt hfit]

variable {σ : Type} {P : PageAllocator σ} {used : σ → Set Nat}

/-! ## The walk of `map` and `unmap` -/

/-- `for_each_entry_of_size` with 4 KiB pages, whose callback writes entries that map each block
as `out` does: after its checks, the walk from the root. -/
theorem forEachEntryOfSize_spec (hP : GrantsTablePages P used) {pt pt' : PageTables σ}
    (hpt : FourKiBTables pt) (hinv : TreeInv used pt 4 0 pt.root) {vs ps count : Nat}
    {size : MapBlockSize} {create : Bool} {f : Nat → Except (Fault PageTable.Error) Nat}
    {out : Nat → Option Nat}
    (hf : ∀ {a e}, a % entryBytes (blockLevel size) = 0 → f a = .ok e →
      EntryMaps out (blockLevel size) e a)
    (h : pt.forEachEntryOfSize P vs ps count size create f = .ok pt') :
    Walked used out (entryBytes (blockLevel size)) 4 0 pt.root vs ps count pt pt' := by
  let w : Walker :=
    ⟨blockLevel size, entryBytes (blockLevel size), entryBytes (blockLevel size) / 4096, create, f⟩
  have hw : w.FourKiB := ⟨blockLevel_pos size, blockLevel_le size, rfl, rfl⟩
  -- with 4 KiB pages the checks of the request lead to the walk of `w`
  have hrun : (do
      Fault.ensure (0 < count && count * (entryBytes (blockLevel size) / 4096) < 2 ^ 64 &&
        count * (entryBytes (blockLevel size) / 4096) < 2 ^ 48) PageTable.Error.invalidCount
      Fault.ensure (vs % entryBytes (blockLevel size) == 0) (PageTable.Error.invalidAlignment vs)
      Fault.ensure (ps % entryBytes (blockLevel size) == 0) (PageTable.Error.invalidAlignment ps)
      w.step P 5 pt 0 pt.root vs ps count) = .ok pt' := by
    rw [← h]
    unfold forEachEntryOfSize
    rw [hpt.pageSize]
    cases size <;> rfl
  obtain ⟨_, -, hrun⟩ := Fault.bind_eq_ok.1 hrun
  obtain ⟨_, hvs, hrun⟩ := Fault.bind_eq_ok.1 hrun
  obtain ⟨_, hps, hrun⟩ := Fault.bind_eq_ok.1 hrun
  exact step_spec hP hw hf 3 0 pt.root vs ps count pt pt' rfl (Nat.zero_le _) hpt hinv
    (by simpa using Fault.ensure_eq_ok.1 hvs) (by simpa using Fault.ensure_eq_ok.1 hps) hrun

theorem map_entryMaps {size : MapBlockSize} {props : MemoryProperties} {a e : Nat}
    (ha : a % entryBytes (blockLevel size) = 0)
    (h : (match size with
      | .page => Entry.forPage a props
      | _ => Entry.forBlock a props) = .ok e) :
    EntryMaps (fun x => some (x % 2 ^ 48)) (blockLevel size) e a := by
  have hdvd := Nat.dvd_of_mod_eq_zero ha
  have h4096 : a % 4096 = 0 :=
    Nat.mod_eq_zero_of_dvd ((entryBytes_dvd (blockLevel_le size)).trans hdvd)
  refine .inr ⟨a % 2 ^ 48, ?_, fun q hq => ?_⟩
  · cases size with
    | page => exact .inl (decode_forPage h4096 h)
    | smallBlock => exact .inr (decode_forBlock h4096 (by decide) h)
    | largeBlock => exact .inr (decode_forBlock h4096 (by decide) h)
  · show some ((a + q) % 2 ^ 48) = _
    rw [add_mod_two_pow_48 (entryBytes_dvd_two_pow_48 _) hdvd hq]

theorem unmap_entryMaps {L a e : Nat} (h : (pure Entry.empty : Except (Fault PageTable.Error) Nat) = .ok e) :
    EntryMaps (fun _ => none) L e a := by
  cases h
  exact .inl ⟨decode_zero L, fun _ _ => rfl⟩

/-! ## The operations -/

variable (used) in
/-- Page tables with 4 KiB pages whose tables lie apart, in pages the allocator handed out. -/
structure WellFormed (pt : PageTables σ) : Prop where
  fourKiB : FourKiBTables pt
  tree : TreeInv used pt 4 0 pt.root

theorem physicalAddressOf_eq (pt : PageTables σ) (p : Nat) :
    pt.physicalAddressOf p =
      if isInKernelSpace p = pt.highTag then pt.lookup p pt.root 0 4 else .ok none := by
  unfold physicalAddressOf
  by_cases h : isInKernelSpace p = pt.highTag
  · simp [h]
  · simp [h]
    rfl

theorem Walked.wellFormed {out : Nat → Option Nat} {B vs ps count : Nat} {pt pt' : PageTables σ}
    (hw : Walked used out B 4 0 pt.root vs ps count pt pt') (hwf : WellFormed used pt) :
    WellFormed used pt' ∧ pt'.root = pt.root ∧ pt'.highTag = pt.highTag := by
  have hroot : pt'.root = pt.root := (congrArg PageTables.root hw.grows.shape).trans rfl
  refine ⟨⟨hw.grows.fourKiB hwf.fourKiB, hroot ▸ hw.grows.inv⟩, hroot,
    (congrArg PageTables.highTag hw.grows.shape).trans rfl⟩

theorem Walked.physicalAddressOf {out : Nat → Option Nat} {B vs ps count : Nat}
    {pt pt' : PageTables σ} (hw : Walked used out B 4 0 pt.root vs ps count pt pt')
    (hwf : WellFormed used pt) (p : Nat) :
    pt'.physicalAddressOf p =
      if isInKernelSpace p = pt.highTag ∧ vs % 2 ^ 48 ≤ p % 2 ^ 48 ∧
          p % 2 ^ 48 < vs % 2 ^ 48 + count * B then
        .ok (out (ps + (p % 2 ^ 48 - vs % 2 ^ 48)))
      else pt.physicalAddressOf p := by
  obtain ⟨-, hroot, htag⟩ := hw.wellFormed hwf
  rw [physicalAddressOf_eq, physicalAddressOf_eq, hroot, htag, hw.lookup p, tableBytes_zero]
  by_cases htagp : isInKernelSpace p = pt.highTag <;> simp [htagp]

theorem map_walked (hP : GrantsTablePages P used) {pt pt' : PageTables σ}
    (hwf : WellFormed used pt) {vs ps count : Nat} {size : MapBlockSize}
    {props : MemoryProperties} (h : pt.map P vs ps count size props = .ok pt') :
    Walked used (fun x => some (x % 2 ^ 48)) (entryBytes (blockLevel size)) 4 0 pt.root vs ps
      count pt pt' := by
  obtain ⟨_, -, h⟩ := Fault.bind_eq_ok.1 h
  exact forEachEntryOfSize_spec hP hwf.fourKiB hwf.tree (fun ha he => map_entryMaps ha he) h

theorem unmap_walked (hP : GrantsTablePages P used) {pt pt' : PageTables σ}
    (hwf : WellFormed used pt) {vs count : Nat} {size : MapBlockSize}
    (h : pt.unmap P vs count size = .ok pt') :
    Walked used (fun _ => none) (entryBytes (blockLevel size)) 4 0 pt.root vs 0 count pt pt' := by
  obtain ⟨_, -, h⟩ := Fault.bind_eq_ok.1 h
  exact forEachEntryOfSize_spec hP hwf.fourKiB hwf.tree (fun _ he => unmap_entryMaps he) h

/-- `map` of `count` blocks of `size` from `vs` to `ps`, when it returns: the range, read below
`2 ^ 48`, lies below `2 ^ 48`, its addresses translate to `ps` plus their offset in it (read below
`2 ^ 48`), and every other address translates as before; the tables stay well formed. -/
theorem map_spec (hP : GrantsTablePages P used) {pt pt' : PageTables σ} (hwf : WellFormed used pt)
    {vs ps count : Nat} {size : MapBlockSize} {props : MemoryProperties}
    (h : pt.map P vs ps count size props = .ok pt') :
    WellFormed used pt' ∧ pt'.highTag = pt.highTag ∧
      vs % 2 ^ 48 + count * entryBytes (blockLevel size) ≤ 2 ^ 48 ∧
      ∀ p, pt'.physicalAddressOf p =
        if isInKernelSpace p = pt.highTag ∧ vs % 2 ^ 48 ≤ p % 2 ^ 48 ∧
            p % 2 ^ 48 < vs % 2 ^ 48 + count * entryBytes (blockLevel size) then
          .ok (some ((ps + (p % 2 ^ 48 - vs % 2 ^ 48)) % 2 ^ 48))
        else pt.physicalAddressOf p := by
  have hw := map_walked hP hwf h
  obtain ⟨hwf', -, htag⟩ := hw.wellFormed hwf
  exact ⟨hwf', htag, hw.fits, hw.physicalAddressOf hwf⟩

/-- `unmap` of `count` blocks of `size` from `vs`, when it returns: the range, read below
`2 ^ 48`, lies below `2 ^ 48` and translates to nothing, and every other address translates as
before; the tables stay well formed. -/
theorem unmap_spec (hP : GrantsTablePages P used) {pt pt' : PageTables σ}
    (hwf : WellFormed used pt) {vs count : Nat} {size : MapBlockSize}
    (h : pt.unmap P vs count size = .ok pt') :
    WellFormed used pt' ∧ pt'.highTag = pt.highTag ∧
      vs % 2 ^ 48 + count * entryBytes (blockLevel size) ≤ 2 ^ 48 ∧
      ∀ p, pt'.physicalAddressOf p =
        if isInKernelSpace p = pt.highTag ∧ vs % 2 ^ 48 ≤ p % 2 ^ 48 ∧
            p % 2 ^ 48 < vs % 2 ^ 48 + count * entryBytes (blockLevel size) then .ok none
        else pt.physicalAddressOf p := by
  have hw := unmap_walked hP hwf h
  obtain ⟨hwf', -, htag⟩ := hw.wellFormed hwf
  exact ⟨hwf', htag, hw.fits, hw.physicalAddressOf hwf⟩

/-! ## Runs against the translation they define -/

/-- The page tables implement the translation `t` of 48-bit virtual addresses:
`physical_address_of` answers `t` of the low 48 bits of an address with the tag of the tables,
and nothing for any other address. -/
def Represents (pt : PageTables σ) (t : Nat → Option Nat) : Prop :=
  ∀ p, pt.physicalAddressOf p =
    .ok (if isInKernelSpace p = pt.highTag then t (p % 2 ^ 48) else none)

/-- The translation `t` with the `len` addresses from `v` sent to `g` of their offset from `v`. -/
def overwrite (t : Nat → Option Nat) (v len : Nat) (g : Nat → Option Nat) : Nat → Option Nat :=
  fun x => if v ≤ x ∧ x < v + len then g (x - v) else t x

/-- A call of `map` or `unmap` that returns, with the translation it defines from the one
before. -/
inductive Call (P : PageAllocator σ) :
    PageTables σ × (Nat → Option Nat) → PageTables σ × (Nat → Option Nat) → Prop
  | map {pt pt' : PageTables σ} {t : Nat → Option Nat} {vs ps count : Nat}
      {size : MapBlockSize} {props : MemoryProperties} :
      pt.map P vs ps count size props = .ok pt' →
      Call P (pt, t) (pt', overwrite t (vs % 2 ^ 48) (count * entryBytes (blockLevel size))
        fun d => some ((ps + d) % 2 ^ 48))
  | unmap {pt pt' : PageTables σ} {t : Nat → Option Nat} {vs count : Nat}
      {size : MapBlockSize} :
      pt.unmap P vs count size = .ok pt' →
      Call P (pt, t) (pt', overwrite t (vs % 2 ^ 48) (count * entryBytes (blockLevel size))
        fun _ => none)

theorem Call.represents (hP : GrantsTablePages P used)
    {s s' : PageTables σ × (Nat → Option Nat)} (hcall : Call P s s')
    (hwf : WellFormed used s.1) (hrep : s.1.Represents s.2) :
    WellFormed used s'.1 ∧ s'.1.Represents s'.2 := by
  cases hcall with
  | @map pt pt' t vs ps count size props h =>
    have hw := map_walked hP hwf h
    obtain ⟨hwf', -, htag⟩ := hw.wellFormed hwf
    refine ⟨hwf', fun p => ?_⟩
    rw [hw.physicalAddressOf hwf p, hrep p, htag]
    unfold overwrite
    split_ifs <;> simp_all
  | @unmap pt pt' t vs count size h =>
    have hw := unmap_walked hP hwf h
    obtain ⟨hwf', -, htag⟩ := hw.wellFormed hwf
    refine ⟨hwf', fun p => ?_⟩
    rw [hw.physicalAddressOf hwf p, hrep p, htag]
    unfold overwrite
    split_ifs <;> simp_all

/-- `PageTables::empty` makes a zeroed root table from the allocator: well formed, untagged, and
translating nothing. -/
theorem empty_spec (hP : GrantsTablePages P used) {s₀ : σ} {mem₀ : Nat → Nat}
    {pt : PageTables σ} (h : empty P s₀ mem₀ = .ok pt) :
    WellFormed used pt ∧ pt.highTag = false ∧ pt.Represents fun _ => none := by
  unfold empty at h
  dsimp only at h
  split at h
  · cases h
  · rename_i root pt₁ ha
    obtain ⟨hA, -, -, -, -, hused⟩ := allocateZeroed_spec hP ha
    unfold fromExisting at h
    obtain ⟨_, -, h⟩ := Fault.bind_eq_ok.1 h
    obtain ⟨_, -, h⟩ := Fault.bind_eq_ok.1 h
    cases h
    have hmem : pt₁.mem = zeroRange _ (PhysicalAddress.toPtr root) 4096 := congrArg PageTables.mem hA
    have hzero : ∀ j < 512, pt₁.mem (PhysicalAddress.toPtr root + 8 * j) = 0 := by
      intro j hj
      rw [hmem]
      exact if_pos (entry_mem_tableRegion _ hj)
    have hpt : FourKiBTables ⟨pt₁.allocator, pt₁.mem, P.pageSize.bytes / 8,
        PhysicalAddress.toPtr root, P.pageSize, false⟩ :=
      ⟨hP.pageSize, by rw [hP.pageSize]; rfl⟩
    have htables := tablesBelow_of_zero _ (n := 3) (l := 0) hpt.entriesPerPage hzero
    refine ⟨⟨hpt, ⟨?_, ?_⟩⟩, rfl, fun p => ?_⟩
    · rw [htables]
      exact List.pairwise_singleton _ _
    · intro T' hT'
      rw [htables, List.mem_singleton] at hT'
      rw [hT']
      exact hused
    · rw [physicalAddressOf_eq, lookup_of_zero _ hpt.pageSize (by decide) hzero]
      split_ifs <;> rfl

/-- Every run of `map` and `unmap` calls that return, from `PageTables::empty`, leaves the tables
well formed and implementing the translation that the calls define: `physical_address_of`
answers what the last `map` or `unmap` of an address said, and nothing if none did. -/
theorem runs_represent (hP : GrantsTablePages P used) {s₀ : σ} {mem₀ : Nat → Nat}
    {pt₀ : PageTables σ} (h₀ : empty P s₀ mem₀ = .ok pt₀)
    {s : PageTables σ × (Nat → Option Nat)}
    (hrun : Relation.ReflTransGen (Call P) (pt₀, fun _ => none) s) :
    WellFormed used s.1 ∧ s.1.Represents s.2 := by
  obtain ⟨hwf₀, -, hrep₀⟩ := empty_spec hP h₀
  induction hrun with
  | refl => exact ⟨hwf₀, hrep₀⟩
  | tail _ hcall ih => exact hcall.represents hP ih.1 ih.2

/-! ## Page tables over fresh pages -/

theorem bumpPages_grantsTablePages {base limit : Nat} (hbase : base % 0x1000 = 0)
    (hlimit : base + limit * 0x1000 < 2 ^ 48) :
    GrantsTablePages (bumpPages base limit) (bumpUsed base) := by
  refine ⟨bumpPages_grantsFreshPages hbase hlimit, rfl, fun h => ?_⟩
  obtain ⟨hle, rfl, -⟩ := bumpPages_allocate h
  exact Nat.lt_of_le_of_lt (by omega) hlimit

/-- The tables that `PageTables::empty` makes over sixteen fresh pages from `0x10_0000`. -/
def bumpEmpty : PageTables Nat :=
  ⟨1, zeroRange (fun _ => 0) (PhysicalAddress.toPtr 0x10_0000) 0x1000, 512,
    PhysicalAddress.toPtr 0x10_0000, .fourKiB, false⟩

theorem empty_bumpPages : empty (bumpPages 0x10_0000 16) 0 (fun _ => 0) = .ok bumpEmpty := rfl

/-- `bumpEmpty` after `map` of the 2 MiB block at `0x20_0000` to `0x4000_0000`. -/
def bumpMapped : PageTables Nat :=
  match bumpEmpty.map (bumpPages 0x10_0000 16) 0x20_0000 0x4000_0000 1 .smallBlock {} with
  | .ok pt => pt
  | .error _ => bumpEmpty

theorem map_bumpEmpty :
    bumpEmpty.map (bumpPages 0x10_0000 16) 0x20_0000 0x4000_0000 1 .smallBlock {} =
      .ok bumpMapped := rfl

/-- `bumpMapped` after `unmap` of the same block. -/
def bumpUnmapped : PageTables Nat :=
  match bumpMapped.unmap (bumpPages 0x10_0000 16) 0x20_0000 1 .smallBlock with
  | .ok pt => pt
  | .error _ => bumpMapped

theorem unmap_bumpMapped :
    bumpMapped.unmap (bumpPages 0x10_0000 16) 0x20_0000 1 .smallBlock = .ok bumpUnmapped := rfl

theorem bumpPages_sixteen : GrantsTablePages (bumpPages 0x10_0000 16) (bumpUsed 0x10_0000) :=
  bumpPages_grantsTablePages (by decide) (by decide)

theorem bumpEmpty_wellFormed : WellFormed (bumpUsed 0x10_0000) bumpEmpty :=
  (empty_spec bumpPages_sixteen empty_bumpPages).1

/-- `map_spec` for the 2 MiB block at `0x20_0000`, mapped to `0x4000_0000` in `bumpEmpty`. -/
theorem map_spec_bumpEmpty :
    WellFormed (bumpUsed 0x10_0000) bumpMapped ∧ bumpMapped.highTag = bumpEmpty.highTag ∧
      0x20_0000 % 2 ^ 48 + 1 * entryBytes (blockLevel .smallBlock) ≤ 2 ^ 48 ∧
      ∀ p, bumpMapped.physicalAddressOf p =
        if isInKernelSpace p = bumpEmpty.highTag ∧ 0x20_0000 % 2 ^ 48 ≤ p % 2 ^ 48 ∧
            p % 2 ^ 48 < 0x20_0000 % 2 ^ 48 + 1 * entryBytes (blockLevel .smallBlock) then
          .ok (some ((0x4000_0000 + (p % 2 ^ 48 - 0x20_0000 % 2 ^ 48)) % 2 ^ 48))
        else bumpEmpty.physicalAddressOf p :=
  map_spec bumpPages_sixteen bumpEmpty_wellFormed map_bumpEmpty

/-- `unmap_spec` for the same block, unmapped from `bumpMapped`. -/
theorem unmap_spec_bumpMapped :
    WellFormed (bumpUsed 0x10_0000) bumpUnmapped ∧ bumpUnmapped.highTag = bumpMapped.highTag ∧
      0x20_0000 % 2 ^ 48 + 1 * entryBytes (blockLevel .smallBlock) ≤ 2 ^ 48 ∧
      ∀ p, bumpUnmapped.physicalAddressOf p =
        if isInKernelSpace p = bumpMapped.highTag ∧ 0x20_0000 % 2 ^ 48 ≤ p % 2 ^ 48 ∧
            p % 2 ^ 48 < 0x20_0000 % 2 ^ 48 + 1 * entryBytes (blockLevel .smallBlock) then .ok none
        else bumpMapped.physicalAddressOf p :=
  unmap_spec bumpPages_sixteen
    ((map_walked bumpPages_sixteen bumpEmpty_wellFormed map_bumpEmpty).wellFormed
      bumpEmpty_wellFormed).1 unmap_bumpMapped

/-- `runs_represent` for the run of that `map` and that `unmap` from `PageTables::empty`. -/
theorem runs_represent_map_unmap :
    WellFormed (bumpUsed 0x10_0000) bumpUnmapped ∧ bumpUnmapped.Represents
      (overwrite (overwrite (fun _ => none) (0x20_0000 % 2 ^ 48)
        (1 * entryBytes (blockLevel .smallBlock)) fun d => some ((0x4000_0000 + d) % 2 ^ 48))
        (0x20_0000 % 2 ^ 48) (1 * entryBytes (blockLevel .smallBlock)) fun _ => none) :=
  runs_represent bumpPages_sixteen empty_bumpPages
    (.tail (.single (Call.map map_bumpEmpty)) (Call.unmap unmap_bumpMapped))

end PageTables

end EndlessHole.Memory
