import EndlessHole.Memory.PageTable
import EndlessHole.Memory.HeapInvariant
import Mathlib

/-!
# The tree of page tables, with 4 KiB pages

What the walk of `map` and `unmap` in `kernel_core/src/memory/page_table.rs` is proved from, for
the 4 KiB granule the kernel uses:

* the address arithmetic: an entry at level `l` maps `entryBytes l` bytes and a table
  `tableBytes l`, and `index_for_level` picks the digit of an address in base 512
  (`indexForLevel_fourKiB`);
* the raw entries that `map` writes decode to what they were built from (`decode_forTable`,
  `decode_forPage`, `decode_forBlock`), their attribute bits to the properties
  (`decode_attributes`, `block_and_page_entries_round_trip`);
* a lookup, and the list `tablesBelow`, read only the pages of the tables below the table they
  start from (`lookup_congr`, `tablesBelow_congr`);
* `TreeInv`: the tables below a table lie in pages of their own, all handed out by the page
  allocator. `Grows` says what a walk below a table may do: change the entries of those tables
  and take fresh pages. A change below one entry of a table is a `Grows` of the table
  (`grows_of_entry`), and the lookups through its other entries see nothing of it
  (`lookup_of_entry`);
* `nextTableForEntry_spec`: finding or creating the table below an entry changes no lookup.
-/

namespace EndlessHole.Memory

namespace PageTables

open PageTable Regions HeapAllocator

/-! ## Addresses with 4 KiB pages -/

/-- The bytes an entry at `level` maps with 4 KiB pages: `2 ^ 39` at level 0, one page at
level 3. -/
def entryBytes (level : Nat) : Nat := 2 ^ (39 - 9 * level)

/-- The bytes a table at `level` maps with its 512 entries. -/
def tableBytes (level : Nat) : Nat := 512 * entryBytes level

theorem tableBytes_zero : tableBytes 0 = 2 ^ 48 := rfl

theorem tableBytes_succ {l : Nat} (hl : l < 3) : tableBytes (l + 1) = entryBytes l := by
  unfold tableBytes entryBytes
  rw [show 39 - 9 * l = 9 + (39 - 9 * (l + 1)) by omega, Nat.pow_add]

theorem entryBytes_pos (l : Nat) : 0 < entryBytes l :=
  Nat.two_pow_pos _

theorem entryBytes_dvd {l l' : Nat} (h : l ≤ l') : entryBytes l' ∣ entryBytes l :=
  Nat.pow_dvd_pow 2 (by omega)

theorem entryBytes_dvd_tableBytes (l : Nat) : entryBytes l ∣ tableBytes l :=
  Dvd.intro_left 512 rfl

theorem indexForLevel_fourKiB (a : Nat) {l : Nat} (hl : l ≤ 3) :
    indexForLevel a l .fourKiB = .ok (a / entryBytes l % 512) := by
  interval_cases l <;> simp [indexForLevel, bitRange, entryBytes, Nat.shiftRight_eq_div_pow] <;>
    rfl

theorem pagesPerEntry_fourKiB {l : Nat} (hl : l ≤ 3) :
    pagesPerEntry l .fourKiB = .ok (entryBytes l / 4096) := by
  interval_cases l <;> rfl

theorem index_eq_offset_div (a l : Nat) :
    a / entryBytes l % 512 = a % tableBytes l / entryBytes l := by
  rw [tableBytes, Nat.mul_comm, Nat.mod_mul_right_div_self]

theorem offsetMask_fourKiB {l : Nat} (h1 : 1 ≤ l) (hl : l ≤ 3) (p : Nat) :
    ∃ m, offsetMask .fourKiB l = .ok m ∧ p &&& m = p % entryBytes l :=
  ⟨entryBytes l - 1, by interval_cases l <;> rfl, Nat.and_two_pow_sub_one_eq_mod p _⟩

/-! ## Raw entries -/

theorem testBit_addressBits (i : Nat) :
    addressBits.testBit i = (decide (12 ≤ i) && decide (i < 48)) := by
  have h : addressBits = (2 ^ 36 - 1) <<< 12 := by decide
  rw [h, Nat.testBit_shiftLeft, Nat.testBit_two_pow_sub_one]
  by_cases hi : 12 ≤ i
  · simp only [ge_iff_le, hi, decide_true, Bool.true_and]
    exact decide_eq_decide.mpr (by omega)
  · simp [hi]

theorem and_addressBits {a : Nat} (ha : a % 4096 = 0) : a &&& addressBits = a % 2 ^ 48 := by
  apply Nat.eq_of_testBit_eq
  intro i
  rw [Nat.testBit_and, testBit_addressBits, Nat.testBit_mod_two_pow]
  by_cases hi : i < 12
  · -- the low twelve bits of an aligned address are clear
    have hlow := Nat.testBit_mod_two_pow a 12 i
    rw [show (2 : Nat) ^ 12 = 4096 from rfl, ha, Nat.zero_testBit] at hlow
    simp only [hi, decide_true, Bool.true_and] at hlow
    simp [← hlow]
  · have hi' : 12 ≤ i := by omega
    simp [hi', Bool.and_comm]

theorem and_three_of_aligned {a : Nat} (ha : a % 4096 = 0) : a &&& 3 = 0 := by
  rw [show (3 : Nat) = 2 ^ 2 - 1 from rfl, Nat.and_two_pow_sub_one_eq_mod]
  omega

theorem encode_and_addressBits (p : MemoryProperties) : p.encode &&& addressBits = 0 := by
  obtain ⟨k, u, w, e, s⟩ := p
  cases k <;> cases u <;> cases w <;> cases e <;> cases s <;> decide

theorem encode_and_three (p : MemoryProperties) : p.encode &&& 3 = 0 := by
  obtain ⟨k, u, w, e, s⟩ := p
  cases k <;> cases u <;> cases w <;> cases e <;> cases s <;> decide

theorem decode_zero (l : Nat) : Entry.decode 0 l = .ok .empty := rfl

theorem decode_forTable {a e l : Nat} (ha : a % 4096 = 0) (hl : l ≠ 3)
    (h : Entry.forTable a = .ok e) : Entry.decode e l = .ok (.table (a % 2 ^ 48)) := by
  have he : e = 3 ||| (a &&& addressBits) := by
    simp only [Entry.forTable, Fault.bind_eq_ok, Fault.assert_eq_ok] at h
    obtain ⟨_, -, h⟩ := h
    exact (Except.ok.inj h).symm
  have h3 : e &&& 3 = 3 := by
    rw [he, Nat.and_or_distrib_right, Nat.and_assoc, show addressBits &&& 3 = 0 by decide,
      Nat.and_zero, Nat.or_zero]
    rfl
  have hA : e &&& addressBits = a % 2 ^ 48 := by
    rw [he, Nat.and_or_distrib_right, Nat.and_assoc, Nat.and_self, and_addressBits ha,
      show (3 : Nat) &&& addressBits = 0 by decide, Nat.zero_or]
  simp only [Entry.decode, h3, hA, hl, if_false]
  rfl

theorem decode_forPage {a e : Nat} {props : MemoryProperties} (ha : a % 4096 = 0)
    (h : Entry.forPage a props = .ok e) : Entry.decode e 3 = .ok (.page (a % 2 ^ 48)) := by
  have he : e = 3 ||| a ||| props.encode ||| 1 <<< 10 := by
    simp only [Entry.forPage, Fault.bind_eq_ok, Fault.assert_eq_ok] at h
    obtain ⟨_, -, h⟩ := h
    exact (Except.ok.inj h).symm
  have h3 : e &&& 3 = 3 := by
    simp only [he, Nat.and_or_distrib_right, and_three_of_aligned ha, encode_and_three]
    rfl
  have hA : e &&& addressBits = a % 2 ^ 48 := by
    simp only [he, Nat.and_or_distrib_right, and_addressBits ha, encode_and_addressBits]
    simp [show (3 : Nat) &&& addressBits = 0 by decide,
      show (1024 : Nat) &&& addressBits = 0 by decide]
  simp only [Entry.decode, h3, hA]
  rfl

theorem decode_forBlock {a e l : Nat} {props : MemoryProperties} (ha : a % 4096 = 0)
    (hl : l ≤ 2) (h : Entry.forBlock a props = .ok e) :
    Entry.decode e l = .ok (.block (a % 2 ^ 48)) := by
  have he : e = 1 ||| a ||| props.encode ||| 1 <<< 10 := by
    simp only [Entry.forBlock, Fault.bind_eq_ok, Fault.assert_eq_ok] at h
    obtain ⟨_, -, h⟩ := h
    exact (Except.ok.inj h).symm
  have h3 : e &&& 3 = 1 := by
    simp only [he, Nat.and_or_distrib_right, and_three_of_aligned ha, encode_and_three]
    rfl
  have hA : e &&& addressBits = a % 2 ^ 48 := by
    simp only [he, Nat.and_or_distrib_right, and_addressBits ha, encode_and_addressBits]
    simp [show (1 : Nat) &&& addressBits = 0 by decide,
      show (1024 : Nat) &&& addressBits = 0 by decide]
  simp only [Entry.decode, h3, hA, hl, if_true]
  rfl

/-! ## The attribute bits of an entry -/

theorem testBit_of_aligned {a j : Nat} (ha : a % 4096 = 0) (hj : j < 12) : a.testBit j = false := by
  have hlow := Nat.testBit_mod_two_pow a 12 j
  rw [show (2 : Nat) ^ 12 = 4096 from rfl, ha, Nat.zero_testBit] at hlow
  simp only [hj, decide_true, Bool.true_and] at hlow
  exact hlow.symm

/-- The bits `k` to `k + w - 1` of an entry made of a type, a page-aligned address below `2 ^ 48`,
the attribute bits `x` and the access flag are those of `x`, for a field between the type and the
access flag or above the address. -/
theorem field_of_entry {t a k w : Nat} (ht : t < 4) (ha : a % 4096 = 0) (hlt : a < 2 ^ 48)
    (hk : 2 ≤ k) (hkw : k + w ≤ 10 ∨ 48 ≤ k) (x : Nat) :
    ((t ||| a ||| x ||| 1 <<< 10) >>> k) &&& (2 ^ w - 1) = (x >>> k) &&& (2 ^ w - 1) := by
  apply Nat.eq_of_testBit_eq
  intro i
  simp only [Nat.testBit_and, Nat.testBit_shiftRight, Nat.testBit_or, Nat.testBit_two_pow_sub_one]
  by_cases hi : i < w
  · have htb : t.testBit (k + i) = false := by
      apply Nat.testBit_lt_two_pow
      calc t < 2 ^ 2 := ht
        _ ≤ 2 ^ (k + i) := Nat.pow_le_pow_right (by norm_num) (by omega)
    have hab : a.testBit (k + i) = false := by
      rcases hkw with h | h
      · exact testBit_of_aligned ha (by omega)
      · apply Nat.testBit_lt_two_pow
        calc a < 2 ^ 48 := hlt
          _ ≤ 2 ^ (k + i) := Nat.pow_le_pow_right (by norm_num) (by omega)
    have hflag : (1 <<< 10 : Nat).testBit (k + i) = false := by
      rw [Nat.one_shiftLeft, Nat.testBit_two_pow]
      exact decide_eq_false (by omega)
    rw [htb, hab, hflag, Bool.false_or, Bool.false_or, Bool.or_false]
  · simp [hi]

theorem Shareability.ofU64_encode (s : Shareability) : Shareability.ofU64 s.encode = .ok s := by
  cases s <;> rfl

theorem MemoryKind.ofU64_encode (k : MemoryKind) : MemoryKind.ofU64 k.encode = .ok k := by
  cases k <;> rfl

/-- `MemoryProperties::decode` reads back the properties a block or page entry was built with. -/
theorem decode_attributes {t a : Nat} (ht : t < 4) (ha : a % 4096 = 0) (hlt : a < 2 ^ 48)
    (p : MemoryProperties) : MemoryProperties.decode (t ||| a ||| p.encode ||| 1 <<< 10) = .ok p := by
  have hx : ((t ||| a ||| p.encode ||| 1 <<< 10) >>> 54) &&& 0x1 = (p.encode >>> 54) &&& 0x1 :=
    field_of_entry (w := 1) ht ha hlt (by norm_num) (.inr (by norm_num)) p.encode
  have hs : ((t ||| a ||| p.encode ||| 1 <<< 10) >>> 8) &&& 0b11 = (p.encode >>> 8) &&& 0b11 :=
    field_of_entry (w := 2) ht ha hlt (by norm_num) (.inl (by norm_num)) p.encode
  have hw : ((t ||| a ||| p.encode ||| 1 <<< 10) >>> 7) &&& 0x1 = (p.encode >>> 7) &&& 0x1 :=
    field_of_entry (w := 1) ht ha hlt (by norm_num) (.inl (by norm_num)) p.encode
  have hu : ((t ||| a ||| p.encode ||| 1 <<< 10) >>> 6) &&& 0x1 = (p.encode >>> 6) &&& 0x1 :=
    field_of_entry (w := 1) ht ha hlt (by norm_num) (.inl (by norm_num)) p.encode
  have hk : ((t ||| a ||| p.encode ||| 1 <<< 10) >>> 2) &&& 0b111 = (p.encode >>> 2) &&& 0b111 :=
    field_of_entry (w := 3) ht ha hlt (by norm_num) (.inl (by norm_num)) p.encode
  rw [MemoryProperties.decode]
  simp only [hx, hs, hw, hu, hk]
  obtain ⟨k, u, w, e, s⟩ := p
  cases k <;> cases u <;> cases w <;> cases e <;> cases s <;> rfl

/-- For every page-aligned address below `2 ^ 48` and all memory properties, `Entry::for_block` and
`Entry::for_page` build their entries without panicking, and the entries read back as what they
were built from: `Entry::decode` gives the block at levels 0 to 2 and the page at level 3, at the
address, and `MemoryProperties::decode` gives the properties. -/
theorem block_and_page_entries_round_trip (a : Nat) (ha : a % 4096 = 0) (hlt : a < 2 ^ 48)
    (props : MemoryProperties) :
    ∃ eb ep, Entry.forBlock a props = .ok eb ∧ Entry.forPage a props = .ok ep ∧
      (∀ l ≤ 2, Entry.decode eb l = .ok (.block a)) ∧ Entry.decode ep 3 = .ok (.page a) ∧
      MemoryProperties.decode eb = .ok props ∧ MemoryProperties.decode ep = .ok props := by
  have hassert : (a &&& 0xfff == 0) = true := by
    rw [show (0xfff : Nat) = 2 ^ 12 - 1 from rfl, Nat.and_two_pow_sub_one_eq_mod]
    simpa using ha
  have hblock : Entry.forBlock a props = .ok (1 ||| a ||| props.encode ||| 1 <<< 10) := by
    rw [Entry.forBlock, hassert, Fault.assert_true, Fault.ok_bind]
    rfl
  have hpage : Entry.forPage a props = .ok (3 ||| a ||| props.encode ||| 1 <<< 10) := by
    rw [Entry.forPage, hassert, Fault.assert_true, Fault.ok_bind]
    rfl
  have hmod : a % 2 ^ 48 = a := Nat.mod_eq_of_lt hlt
  refine ⟨_, _, hblock, hpage, fun l hl => ?_, ?_, decode_attributes (by norm_num) ha hlt props,
    decode_attributes (by norm_num) ha hlt props⟩
  · have hdecode := decode_forBlock ha hl hblock
    rwa [hmod] at hdecode
  · have hdecode := decode_forPage ha hpage
    rwa [hmod] at hdecode

/-- Device memory, writable, at 1 GiB. -/
theorem block_and_page_entries_round_trip_device :
    0x4000_0000 % 4096 = 0 ∧ 0x4000_0000 < 2 ^ 48 ∧
    ∃ eb ep, Entry.forBlock 0x4000_0000 { kind := .device, writable := true } = .ok eb ∧
      Entry.forPage 0x4000_0000 { kind := .device, writable := true } = .ok ep ∧
      (∀ l ≤ 2, Entry.decode eb l = .ok (.block 0x4000_0000)) ∧
      Entry.decode ep 3 = .ok (.page 0x4000_0000) ∧
      MemoryProperties.decode eb = .ok { kind := .device, writable := true } ∧
      MemoryProperties.decode ep = .ok { kind := .device, writable := true } :=
  ⟨by decide, by decide, block_and_page_entries_round_trip _ (by decide) (by decide) _⟩

variable {σ : Type}

/-! ## Lookups one level at a time -/

section Lookup

variable (pt : PageTables σ) {p T l n : Nat}

theorem lookup_of_empty (hps : pt.pageSize = .fourKiB) (hl : l ≤ 3)
    (h : Entry.decode (pt.mem (T + 8 * (p / entryBytes l % 512))) l = .ok .empty) :
    pt.lookup p T l (n + 1) = .ok none := by
  simp only [lookup, hps, indexForLevel_fourKiB p hl, Fault.ok_bind, h]
  rfl

theorem lookup_of_table {c : Nat} (hps : pt.pageSize = .fourKiB) (hl : l ≤ 3)
    (h : Entry.decode (pt.mem (T + 8 * (p / entryBytes l % 512))) l = .ok (.table c)) :
    pt.lookup p T l (n + 1) = pt.lookup p (PhysicalAddress.toPtr c) (l + 1) n := by
  simp only [lookup, hps, indexForLevel_fourKiB p hl, Fault.ok_bind, h]

theorem lookup_of_leaf {b : Nat} (hps : pt.pageSize = .fourKiB) (h1 : 1 ≤ l) (hl : l ≤ 3)
    (h : Entry.decode (pt.mem (T + 8 * (p / entryBytes l % 512))) l = .ok (.page b) ∨
      Entry.decode (pt.mem (T + 8 * (p / entryBytes l % 512))) l = .ok (.block b)) :
    pt.lookup p T l (n + 1) = .ok (some (b + p % entryBytes l)) := by
  obtain ⟨m, hm, hpm⟩ := offsetMask_fourKiB h1 hl p
  rcases h with h | h <;>
    simp only [lookup, hps, indexForLevel_fourKiB p hl, Fault.ok_bind, h, hm, hpm] <;> rfl

theorem lookup_succ_congr {pt' : PageTables σ} (hps : pt.pageSize = .fourKiB)
    (hps' : pt'.pageSize = .fourKiB) (hl : l ≤ 3)
    (hentry : pt'.mem (T + 8 * (p / entryBytes l % 512)) = pt.mem (T + 8 * (p / entryBytes l % 512)))
    (hchild : ∀ c, Entry.decode (pt.mem (T + 8 * (p / entryBytes l % 512))) l = .ok (.table c) →
      pt'.lookup p (PhysicalAddress.toPtr c) (l + 1) n =
        pt.lookup p (PhysicalAddress.toPtr c) (l + 1) n) :
    pt'.lookup p T l (n + 1) = pt.lookup p T l (n + 1) := by
  simp only [lookup, hps, hps', indexForLevel_fourKiB p hl, Fault.ok_bind, hentry]
  cases hd : Entry.decode (pt.mem (T + 8 * (p / entryBytes l % 512))) l with
  | error e => rfl
  | ok d =>
    cases d with
    | table c => simp [hchild c hd]
    | _ => rfl

end Lookup

/-! ## The tables below a table -/

/-- The page of the table at `T`. -/
def tableRegion (T : Nat) : Set Nat := Set.Ico T (T + 4096)

theorem entry_mem_tableRegion (T : Nat) {i : Nat} (hi : i < 512) : T + 8 * i ∈ tableRegion T := by
  simp only [tableRegion, Set.mem_Ico]
  omega

section Subtables

variable (pt : PageTables σ)

/-- The tables below the entry `i` of the table `T` at `level`, as `tablesBelow` lists them. -/
def subtables (n l T i : Nat) : List Nat :=
  match Entry.decode (pt.mem (T + 8 * i)) l with
  | .ok (.table c) => pt.tablesBelow n (l + 1) (PhysicalAddress.toPtr c)
  | _ => []

theorem tablesBelow_succ (n l T : Nat) :
    pt.tablesBelow (n + 1) l T =
      T :: (List.range pt.entriesPerPage).flatMap (pt.subtables n l T) :=
  rfl

theorem subtables_of_table {n l T i c : Nat}
    (h : Entry.decode (pt.mem (T + 8 * i)) l = .ok (.table c)) :
    pt.subtables n l T i = pt.tablesBelow n (l + 1) (PhysicalAddress.toPtr c) := by
  simp only [subtables, h]

theorem subtables_of_not_table {n l T i : Nat}
    (h : ∀ c, Entry.decode (pt.mem (T + 8 * i)) l ≠ .ok (.table c)) :
    pt.subtables n l T i = [] := by
  unfold subtables
  split
  · rename_i c hc
    exact absurd hc (h c)
  · rfl

theorem mem_tablesBelow_of_subtables {n l T i T' : Nat} (hi : i < pt.entriesPerPage)
    (h : T' ∈ pt.subtables n l T i) : T' ∈ pt.tablesBelow (n + 1) l T := by
  rw [tablesBelow_succ]
  exact List.mem_cons_of_mem _ (List.mem_flatMap.2 ⟨i, List.mem_range.2 hi, h⟩)

theorem tablesBelow_of_zero {n l N : Nat} (hepp : pt.entriesPerPage = 512)
    (hzero : ∀ j < 512, pt.mem (N + 8 * j) = 0) : pt.tablesBelow (n + 1) l N = [N] := by
  rw [tablesBelow_succ, hepp, List.flatMap_eq_nil_iff.2]
  intro j hj
  apply subtables_of_not_table
  intro c
  rw [hzero j (List.mem_range.1 hj), decode_zero]
  exact fun h => DecodedEntry.noConfusion (Except.ok.inj h)

theorem lookup_of_zero {N p l : Nat} (hps : pt.pageSize = .fourKiB) (hl : l ≤ 3)
    (hzero : ∀ j < 512, pt.mem (N + 8 * j) = 0) : ∀ n, pt.lookup p N l n = .ok none
  | 0 => rfl
  | _ + 1 => pt.lookup_of_empty hps hl (by rw [hzero _ (Nat.mod_lt _ (by decide)), decode_zero])

end Subtables

theorem tablesBelow_congr {pt pt' : PageTables σ} (hepp : pt.entriesPerPage = 512)
    (hepp' : pt'.entriesPerPage = 512) :
    ∀ {n l T : Nat}, (∀ T' ∈ pt.tablesBelow n l T, ∀ x ∈ tableRegion T', pt'.mem x = pt.mem x) →
      pt'.tablesBelow n l T = pt.tablesBelow n l T
  | 0, _, _, _ => rfl
  | n + 1, l, T, h => by
    rw [tablesBelow_succ, tablesBelow_succ, hepp', ← hepp]
    refine congrArg (T :: ·) (List.flatMap_congr fun i hi => ?_)
    have hi : i < 512 := hepp ▸ List.mem_range.1 hi
    have hentry : pt'.mem (T + 8 * i) = pt.mem (T + 8 * i) :=
      h T List.mem_cons_self _ (entry_mem_tableRegion T hi)
    unfold subtables
    rw [hentry]
    split
    · rename_i c hc
      apply tablesBelow_congr hepp hepp'
      intro T' hT'
      rw [← pt.subtables_of_table hc] at hT'
      exact h T' (pt.mem_tablesBelow_of_subtables (hepp ▸ hi) hT')
    · rfl

theorem lookup_congr {pt pt' : PageTables σ} (hps : pt.pageSize = .fourKiB)
    (hps' : pt'.pageSize = .fourKiB) (hepp : pt.entriesPerPage = 512) (p : Nat) :
    ∀ {n l T : Nat}, l + n ≤ 4 →
      (∀ T' ∈ pt.tablesBelow n l T, ∀ x ∈ tableRegion T', pt'.mem x = pt.mem x) →
      pt'.lookup p T l n = pt.lookup p T l n
  | 0, _, _, _, _ => rfl
  | n + 1, l, T, hln, h => by
    have hi : p / entryBytes l % 512 < 512 := Nat.mod_lt _ (by decide)
    apply pt.lookup_succ_congr hps hps' (by omega) (h T List.mem_cons_self _ (entry_mem_tableRegion T hi))
    intro c hc
    apply lookup_congr hps hps' hepp p (by omega)
    intro T' hT'
    rw [← pt.subtables_of_table hc] at hT'
    exact h T' (pt.mem_tablesBelow_of_subtables (hepp ▸ hi) hT')

/-! ## The invariant of a tree of tables, and what a walk may change -/

/-- Page tables with 4 KiB pages, as `PageTables::empty` makes them over a 4 KiB allocator. -/
structure FourKiBTables (pt : PageTables σ) : Prop where
  pageSize : pt.pageSize = .fourKiB
  entriesPerPage : pt.entriesPerPage = 512

variable (used : σ → Set Nat)

/-- The tables below `T` lie in pages of their own, which the page allocator handed out. -/
structure TreeInv (pt : PageTables σ) (n l T : Nat) : Prop where
  disjoint : PairwiseDisjoint tableRegion (pt.tablesBelow n l T)
  allocated : ∀ T' ∈ pt.tablesBelow n l T, tableRegion T' ⊆ used pt.allocator

/-- What a walk below the table `T` may do to the page tables: change memory only in the pages
of the tables below `T` and in pages it takes from the allocator, so that every table below `T`
afterwards was there before or lies in a fresh page; and keep the tables below `T` apart. -/
structure Grows (pt pt' : PageTables σ) (n l T : Nat) : Prop where
  shape : pt' = { pt with allocator := pt'.allocator, mem := pt'.mem }
  used_mono : used pt.allocator ⊆ used pt'.allocator
  frame : ∀ x ∈ used pt.allocator, (∀ T' ∈ pt.tablesBelow n l T, x ∉ tableRegion T') →
    pt'.mem x = pt.mem x
  tables : ∀ T' ∈ pt'.tablesBelow n l T,
    T' ∈ pt.tablesBelow n l T ∨ Disjoint (tableRegion T') (used pt.allocator)
  inv : TreeInv used pt' n l T

variable {used}

section Invariant

variable {pt : PageTables σ} {n l T : Nat}

theorem TreeInv.root_allocated (hinv : TreeInv used pt (n + 1) l T) :
    tableRegion T ⊆ used pt.allocator :=
  hinv.allocated T List.mem_cons_self

theorem TreeInv.root_disjoint (hinv : TreeInv used pt (n + 1) l T) {i T' : Nat}
    (hi : i < pt.entriesPerPage) (hT' : T' ∈ pt.subtables n l T i) :
    Disjoint (tableRegion T) (tableRegion T') := by
  have h := hinv.disjoint
  unfold PairwiseDisjoint at h
  rw [tablesBelow_succ, List.pairwise_cons] at h
  exact h.1 T' (List.mem_flatMap.2 ⟨i, List.mem_range.2 hi, hT'⟩)

theorem TreeInv.subtables_disjoint (hinv : TreeInv used pt (n + 1) l T) {i j : Nat}
    (hi : i < pt.entriesPerPage) (hj : j < pt.entriesPerPage) (hij : i ≠ j) :
    ∀ x ∈ pt.subtables n l T i, ∀ y ∈ pt.subtables n l T j,
      Disjoint (tableRegion x) (tableRegion y) := by
  have h := hinv.disjoint
  rw [tablesBelow_succ] at h
  exact (PairwiseDisjoint.sublist h (List.sublist_cons_self _ _)).flatMap_pieces
    (List.mem_range.2 hi) (List.mem_range.2 hj) hij

theorem TreeInv.subtables_allocated (hinv : TreeInv used pt (n + 1) l T) {i T' : Nat}
    (hi : i < pt.entriesPerPage) (hT' : T' ∈ pt.subtables n l T i) :
    tableRegion T' ⊆ used pt.allocator :=
  hinv.allocated T' (pt.mem_tablesBelow_of_subtables hi hT')

theorem TreeInv.child (hinv : TreeInv used pt (n + 1) l T) {i c : Nat}
    (hi : i < pt.entriesPerPage)
    (hc : Entry.decode (pt.mem (T + 8 * i)) l = .ok (.table c)) :
    TreeInv used pt n (l + 1) (PhysicalAddress.toPtr c) := by
  have h := hinv.disjoint
  unfold PairwiseDisjoint at h
  rw [tablesBelow_succ, List.pairwise_cons, List.pairwise_flatMap] at h
  refine ⟨?_, fun T' hT' => hinv.subtables_allocated hi ?_⟩
  · have hpiece := h.2.1 i (List.mem_range.2 hi)
    rwa [pt.subtables_of_table hc] at hpiece
  · rwa [pt.subtables_of_table hc]

theorem Grows.refl (hinv : TreeInv used pt n l T) : Grows used pt pt n l T :=
  ⟨rfl, subset_rfl, fun _ _ _ => rfl, fun _ h => .inl h, hinv⟩

theorem Grows.trans {pt₁ pt₂ : PageTables σ} (h₁ : Grows used pt pt₁ n l T)
    (h₂ : Grows used pt₁ pt₂ n l T) : Grows used pt pt₂ n l T where
  shape := by
    conv_lhs => rw [h₂.shape, h₁.shape]
  used_mono := h₁.used_mono.trans h₂.used_mono
  frame x hx hout := by
    rw [h₂.frame x (h₁.used_mono hx) fun T' hT' => ?_, h₁.frame x hx hout]
    rcases h₁.tables T' hT' with hold | hfresh
    · exact hout T' hold
    · exact fun hxT => Set.disjoint_left.1 hfresh hxT hx
  tables T' hT' := by
    rcases h₂.tables T' hT' with hold | hfresh
    · exact h₁.tables T' hold
    · exact .inr (hfresh.mono_right h₁.used_mono)
  inv := h₂.inv

theorem Grows.fourKiB {pt' : PageTables σ} (h : Grows used pt pt' n l T) (hpt : FourKiBTables pt) :
    FourKiBTables pt' :=
  ⟨(congrArg PageTables.pageSize h.shape).trans hpt.pageSize,
    (congrArg PageTables.entriesPerPage h.shape).trans hpt.entriesPerPage⟩

/-! ## A change below one entry -/

variable {pt' : PageTables σ} {i : Nat}

/-- Memory that changed only at the entry `i` of `T`, below that entry, or outside the pages the
allocator had handed out: the other entries of `T`, and the tables below them, are as they
were. -/
theorem agree_of_entry (hepp : pt.entriesPerPage = 512) (hinv : TreeInv used pt (n + 1) l T)
    (hi : i < 512)
    (hmem : ∀ x ∈ used pt.allocator, x ≠ T + 8 * i →
      (∀ T' ∈ pt.subtables n l T i, x ∉ tableRegion T') → pt'.mem x = pt.mem x)
    {j : Nat} (hj : j < 512) (hji : j ≠ i) :
    pt'.mem (T + 8 * j) = pt.mem (T + 8 * j) ∧
      ∀ T' ∈ pt.subtables n l T j, ∀ x ∈ tableRegion T', pt'.mem x = pt.mem x := by
  have hi' : i < pt.entriesPerPage := hepp ▸ hi
  have hj' : j < pt.entriesPerPage := hepp ▸ hj
  constructor
  · apply hmem _ (hinv.root_allocated (entry_mem_tableRegion T hj)) (by omega)
    intro T' hT' hx
    exact Set.disjoint_left.1 (hinv.root_disjoint hi' hT') (entry_mem_tableRegion T hj) hx
  · intro T' hT' x hx
    apply hmem x (hinv.subtables_allocated hj' hT' hx)
    · -- the entry `i` lies in the page of `T`, which no table below `T` meets
      rintro rfl
      exact Set.disjoint_left.1 (hinv.root_disjoint hj' hT') (entry_mem_tableRegion T hi) hx
    · intro T'' hT'' hx''
      exact Set.disjoint_left.1 (hinv.subtables_disjoint hj' hi' hji T' hT' T'' hT'') hx hx''

/-- A change of memory at the entry `i` of `T`, below that entry and in fresh pages, that keeps
the tables below that entry apart, old or fresh, and handed out, is a `Grows` of `T`. -/
theorem grows_of_entry (hepp : pt.entriesPerPage = 512) (hinv : TreeInv used pt (n + 1) l T)
    (hi : i < 512) (hshape : pt' = { pt with allocator := pt'.allocator, mem := pt'.mem })
    (hused : used pt.allocator ⊆ used pt'.allocator)
    (hmem : ∀ x ∈ used pt.allocator, x ≠ T + 8 * i →
      (∀ T' ∈ pt.subtables n l T i, x ∉ tableRegion T') → pt'.mem x = pt.mem x)
    (hnew : PairwiseDisjoint tableRegion (pt'.subtables n l T i))
    (hfresh : ∀ T' ∈ pt'.subtables n l T i,
      T' ∈ pt.subtables n l T i ∨ Disjoint (tableRegion T') (used pt.allocator))
    (hnewused : ∀ T' ∈ pt'.subtables n l T i, tableRegion T' ⊆ used pt'.allocator) :
    Grows used pt pt' (n + 1) l T := by
  have hepp' : pt'.entriesPerPage = 512 := (congrArg PageTables.entriesPerPage hshape).trans hepp
  have hi' : i < pt.entriesPerPage := hepp ▸ hi
  have hother : ∀ j ∈ List.range 512, j ≠ i → pt'.subtables n l T j = pt.subtables n l T j := by
    intro j hj hji
    obtain ⟨hentry, hbelow⟩ := agree_of_entry hepp hinv hi hmem (List.mem_range.1 hj) hji
    unfold subtables
    rw [hentry]
    split
    · rename_i c hc
      apply tablesBelow_congr hepp hepp'
      rw [← pt.subtables_of_table hc]
      exact hbelow
    · rfl
  have hlist : pt'.tablesBelow (n + 1) l T =
      T :: (List.range 512).flatMap (pt'.subtables n l T) := by
    rw [tablesBelow_succ, hepp']
  refine ⟨hshape, hused, fun x hx hout => ?_, fun T' hT' => ?_, ⟨?_, fun T' hT' => ?_⟩⟩
  · apply hmem x hx
    · rintro rfl
      exact hout T List.mem_cons_self (entry_mem_tableRegion T hi)
    · exact fun T' hT' => hout T' (pt.mem_tablesBelow_of_subtables hi' hT')
  · rw [hlist, List.mem_cons, List.mem_flatMap] at hT'
    rcases hT' with rfl | ⟨j, hj, hT'⟩
    · exact .inl List.mem_cons_self
    · by_cases hji : j = i
      · subst hji
        exact (hfresh T' hT').imp_left (pt.mem_tablesBelow_of_subtables hi')
      · rw [hother j hj hji] at hT'
        exact .inl (pt.mem_tablesBelow_of_subtables (hepp ▸ List.mem_range.1 hj) hT')
  · have hold := hinv.disjoint
    rw [tablesBelow_succ, hepp] at hold
    rw [hlist]
    refine pairwiseDisjoint_cons_flatMap_update List.nodup_range hold (fun y hy => ?_) hother hnew
      hfresh
    apply hinv.allocated
    rwa [tablesBelow_succ, hepp]
  · rw [hlist, List.mem_cons, List.mem_flatMap] at hT'
    rcases hT' with rfl | ⟨j, hj, hT'⟩
    · exact hinv.root_allocated.trans hused
    · by_cases hji : j = i
      · exact hnewused T' (hji ▸ hT')
      · rw [hother j hj hji] at hT'
        exact (hinv.subtables_allocated (hepp ▸ List.mem_range.1 hj) hT').trans hused

theorem lookup_of_entry (hpt : FourKiBTables pt) (hps' : pt'.pageSize = .fourKiB)
    (hinv : TreeInv used pt (n + 1) l T) (hi : i < 512) (hln : l + n < 4)
    (hmem : ∀ x ∈ used pt.allocator, x ≠ T + 8 * i →
      (∀ T' ∈ pt.subtables n l T i, x ∉ tableRegion T') → pt'.mem x = pt.mem x)
    {p : Nat} (hp : p / entryBytes l % 512 ≠ i) :
    pt'.lookup p T l (n + 1) = pt.lookup p T l (n + 1) := by
  have hj : p / entryBytes l % 512 < 512 := Nat.mod_lt _ (by decide)
  obtain ⟨hentry, hbelow⟩ := agree_of_entry hpt.entriesPerPage hinv hi hmem hj hp
  apply pt.lookup_succ_congr hpt.pageSize hps' (by omega) hentry
  intro c hc
  apply lookup_congr hpt.pageSize hps' hpt.entriesPerPage p (by omega)
  rw [← pt.subtables_of_table hc]
  exact hbelow

theorem Grows.lift {c : Nat} (hepp : pt.entriesPerPage = 512) (hinv : TreeInv used pt (n + 1) l T)
    (hi : i < 512) (hc : Entry.decode (pt.mem (T + 8 * i)) l = .ok (.table c))
    (h : Grows used pt pt' n (l + 1) (PhysicalAddress.toPtr c)) :
    Grows used pt pt' (n + 1) l T ∧ pt'.mem (T + 8 * i) = pt.mem (T + 8 * i) := by
  have hi' : i < pt.entriesPerPage := hepp ▸ hi
  have hsub := pt.subtables_of_table (n := n) hc
  -- the entry lies in the page of `T`, which no table below the entry meets
  have hentry : pt'.mem (T + 8 * i) = pt.mem (T + 8 * i) := by
    apply h.frame _ (hinv.root_allocated (entry_mem_tableRegion T hi))
    intro T' hT' hx
    rw [← hsub] at hT'
    exact Set.disjoint_left.1 (hinv.root_disjoint hi' hT') (entry_mem_tableRegion T hi) hx
  have hsub' := pt'.subtables_of_table (n := n) (hentry ▸ hc)
  refine ⟨grows_of_entry hepp hinv hi h.shape h.used_mono
    (fun x hx _ hout => h.frame x hx (hsub ▸ hout)) ?_ ?_ ?_, hentry⟩
  · rw [hsub']
    exact h.inv.disjoint
  · rw [hsub', hsub]
    exact h.tables
  · rw [hsub']
    exact h.inv.allocated

/-- After a walk below the table entry `i` of `T`, a lookup from `T` goes below that entry as
the walk left it, or through another entry as before. -/
theorem lookup_lift {c : Nat} (hpt : FourKiBTables pt) (hinv : TreeInv used pt (n + 1) l T)
    (hi : i < 512) (hln : l + n < 4)
    (hc : Entry.decode (pt.mem (T + 8 * i)) l = .ok (.table c))
    (h : Grows used pt pt' n (l + 1) (PhysicalAddress.toPtr c)) (p : Nat) :
    pt'.lookup p T l (n + 1) = if p / entryBytes l % 512 = i then
      pt'.lookup p (PhysicalAddress.toPtr c) (l + 1) n else pt.lookup p T l (n + 1) := by
  have hps' := (h.fourKiB hpt).pageSize
  split_ifs with hp
  · have hentry := (h.lift hpt.entriesPerPage hinv hi hc).2
    exact pt'.lookup_of_table hps' (by omega) (by rw [hp, hentry]; exact hc)
  · have hsub := pt.subtables_of_table (n := n) hc
    exact lookup_of_entry hpt hps' hinv hi hln (fun x hx _ hout => h.frame x hx (hsub ▸ hout)) hp

end Invariant

/-! ## Finding or creating the table below an entry -/

/-- What the page tables need from their page allocator: 4 KiB pages, page aligned and fresh
(`GrantsFreshPages`), at physical addresses below `2 ^ 48`. -/
structure GrantsTablePages (P : PageAllocator σ) (used : σ → Set Nat) : Prop where
  fresh : GrantsFreshPages P used
  pageSize : P.pageSize = .fourKiB
  below : ∀ {s k a s'}, P.allocate s k = .ok (a, s') → a < 2 ^ 48

variable {P : PageAllocator σ}

theorem allocateZeroed_spec (hP : GrantsTablePages P used) {pt pt₁ : PageTables σ} {a : Nat}
    (h : allocateZeroed P pt 1 = .ok (a, pt₁)) :
    pt₁ = { pt with
      allocator := pt₁.allocator, mem := zeroRange pt.mem (PhysicalAddress.toPtr a) 4096 } ∧
    a % 4096 = 0 ∧ a < 2 ^ 48 ∧
    Disjoint (tableRegion (PhysicalAddress.toPtr a)) (used pt.allocator) ∧
    used pt.allocator ⊆ used pt₁.allocator ∧
    tableRegion (PhysicalAddress.toPtr a) ⊆ used pt₁.allocator := by
  simp only [allocateZeroed, Fault.bind_eq_ok] at h
  obtain ⟨⟨a', s'⟩, halloc, h⟩ := h
  simp only [hP.pageSize, PageSize.bytes_fourKiB, Nat.one_mul] at h
  obtain ⟨rfl, rfl⟩ := h
  have hlt := hP.below halloc
  have haligned := hP.fresh.aligned halloc
  have hfresh := hP.fresh.fresh halloc
  have hrecords := hP.fresh.records halloc
  rw [hP.pageSize, PageSize.bytes_fourKiB] at haligned
  rw [hP.pageSize, PageSize.bytes_fourKiB, Nat.one_mul] at hfresh hrecords
  refine ⟨rfl, ?_, hlt, hfresh, Set.subset_union_left.trans hrecords,
    Set.subset_union_right.trans hrecords⟩
  rw [PhysicalAddress.toPtr_of_lt hlt] at haligned
  unfold kernelTag at haligned
  omega

/-- The table that `next_table_for_entry` creates below an empty entry: a fresh zeroed page,
through which every lookup finds nothing, as it did through the empty entry. -/
theorem nextTableForEntry_created {pt ptA : PageTables σ} {n l T i a e : Nat}
    (hpt : FourKiBTables pt) (hinv : TreeInv used pt (n + 1) l T) (hl : l ≤ 2) (hi : i < 512)
    (hd : Entry.decode (pt.mem (T + 8 * i)) l = .ok .empty)
    (hA : ptA = { pt with
      allocator := ptA.allocator, mem := zeroRange pt.mem (PhysicalAddress.toPtr a) 4096 })
    (haligned : a % 4096 = 0) (hlt : a < 2 ^ 48)
    (hfresh : Disjoint (tableRegion (PhysicalAddress.toPtr a)) (used pt.allocator))
    (hused : used pt.allocator ⊆ used ptA.allocator)
    (hnewused : tableRegion (PhysicalAddress.toPtr a) ⊆ used ptA.allocator)
    (he : Entry.forTable a = .ok e) :
    Grows used pt (ptA.write (T + 8 * i) e) (n + 1) l T ∧
      Entry.decode ((ptA.write (T + 8 * i) e).mem (T + 8 * i)) l = .ok (.table a) ∧
      ∀ p, l + n < 4 →
        (ptA.write (T + 8 * i) e).lookup p T l (n + 1) = pt.lookup p T l (n + 1) := by
  set N := PhysicalAddress.toPtr a
  set pt₁ := ptA.write (T + 8 * i) e
  have hmemA : ptA.mem = zeroRange pt.mem N 4096 := congrArg PageTables.mem hA
  have hshape : pt₁ = { pt with allocator := pt₁.allocator, mem := pt₁.mem } := by
    simp only [pt₁, write]
    rw [hA]
  have hps₁ : pt₁.pageSize = .fourKiB := (congrArg PageTables.pageSize hshape).trans hpt.pageSize
  have hepp₁ : pt₁.entriesPerPage = 512 :=
    (congrArg PageTables.entriesPerPage hshape).trans hpt.entriesPerPage
  have hentryT : T + 8 * i ∈ used pt.allocator :=
    hinv.root_allocated (entry_mem_tableRegion T hi)
  have hkeep : ∀ x ∈ used pt.allocator, x ≠ T + 8 * i → pt₁.mem x = pt.mem x := by
    intro x hx hne
    have hxN : x ∉ tableRegion N := fun hxN => Set.disjoint_left.1 hfresh hxN hx
    simp only [pt₁, write, Function.update_of_ne hne, hmemA, zeroRange]
    exact if_neg hxN
  have hzero : ∀ j < 512, pt₁.mem (N + 8 * j) = 0 := by
    intro j hj
    have hjN : N + 8 * j ∈ tableRegion N := entry_mem_tableRegion N hj
    have hne : N + 8 * j ≠ T + 8 * i := fun heq =>
      Set.disjoint_left.1 hfresh (heq ▸ hjN) hentryT
    simp only [pt₁, write, Function.update_of_ne hne, hmemA, zeroRange]
    exact if_pos hjN
  have hdecode : Entry.decode (pt₁.mem (T + 8 * i)) l = .ok (.table a) := by
    simp only [pt₁, write, Function.update_self]
    rw [decode_forTable haligned (by omega) he, Nat.mod_eq_of_lt hlt]
  have hsub : pt₁.subtables n l T i = [] ∨ pt₁.subtables n l T i = [N] := by
    rw [pt₁.subtables_of_table hdecode]
    cases n with
    | zero => exact .inl rfl
    | succ n => exact .inr (pt₁.tablesBelow_of_zero hepp₁ hzero)
  refine ⟨grows_of_entry hpt.entriesPerPage hinv hi hshape hused (fun x hx hne _ => hkeep x hx hne)
    ?_ ?_ ?_, hdecode, fun p hln => ?_⟩
  · rcases hsub with h | h <;> rw [h]
    · exact List.Pairwise.nil
    · exact List.pairwise_singleton _ _
  · intro T' hT'
    rcases hsub with h | h <;> rw [h] at hT'
    · simp at hT'
    · rw [List.mem_singleton.1 hT']
      exact .inr hfresh
  · intro T' hT'
    rcases hsub with h | h <;> rw [h] at hT'
    · simp at hT'
    · rw [List.mem_singleton.1 hT']
      exact hnewused
  · by_cases hp : p / entryBytes l % 512 = i
    · -- the lookup goes through the new table, empty like the entry was
      rw [pt.lookup_of_empty hpt.pageSize (by omega) (by rw [hp]; exact hd),
        pt₁.lookup_of_table hps₁ (by omega) (by rw [hp]; exact hdecode)]
      exact pt₁.lookup_of_zero hps₁ (by omega) hzero n
    · exact lookup_of_entry hpt hps₁ hinv hi hln (fun x hx hne _ => hkeep x hx hne) hp

/-- `next_table_for_entry` on the entry `i` of `T`: the entry then points to the table it
returns, and no lookup from `T` changes, whether the table was there or was just created. -/
theorem nextTableForEntry_spec (hP : GrantsTablePages P used) (w : Walker)
    {pt pt₁ : PageTables σ} {n l T i addr C : Nat} (hpt : FourKiBTables pt)
    (hinv : TreeInv used pt (n + 1) l T) (hl : l ≤ 2) (hi : i < 512)
    (h : w.nextTableForEntry P pt l addr (T + 8 * i) = .ok (C, pt₁)) :
    Grows used pt pt₁ (n + 1) l T ∧
      (∃ c, Entry.decode (pt₁.mem (T + 8 * i)) l = .ok (.table c) ∧
        C = PhysicalAddress.toPtr c) ∧
      ∀ p, l + n < 4 → pt₁.lookup p T l (n + 1) = pt.lookup p T l (n + 1) := by
  unfold Walker.nextTableForEntry at h
  cases hd : Entry.decode (pt.mem (T + 8 * i)) l with
  | error e => simp [hd] at h
  | ok d =>
    cases d with
    | table c =>
      simp only [hd, Fault.ok_bind] at h
      obtain ⟨rfl, rfl⟩ := h
      exact ⟨Grows.refl hinv, ⟨c, hd, rfl⟩, fun _ _ => rfl⟩
    | block b => simp [hd] at h
    | page b => simp [hd] at h
    | empty =>
      simp only [hd, Fault.ok_bind] at h
      split at h
      · rename_i hcreate
        cases ha : allocateZeroed P pt 1 with
        | error e => simp [ha] at h
        | ok r =>
          obtain ⟨a, ptA⟩ := r
          simp only [ha, Fault.bind_eq_ok] at h
          obtain ⟨e, he, h⟩ := h
          obtain ⟨rfl, rfl⟩ := h
          obtain ⟨hA, haligned, hlt, hfresh, hused, hnewused⟩ := allocateZeroed_spec hP ha
          obtain ⟨hgrows, hdecode, hlookup⟩ :=
            nextTableForEntry_created hpt hinv hl hi hd hA haligned hlt hfresh hused hnewused he
          exact ⟨hgrows, ⟨a, hdecode, rfl⟩, hlookup⟩
      · simp at h

end PageTables

end EndlessHole.Memory
