import EndlessHole.Memory.PageTableTree

/-!
# The walk of `map` and `unmap`

The walk of `for_each_entry_of_size` in `kernel_core/src/memory/page_table.rs`, with 4 KiB pages,
against what a lookup finds after it (`Walked`): the blocks it is given fit in the table it
starts from, a lookup of an address among them finds what the callback wrote for its block, and
a lookup of any other address finds what it found before. The leaf loop writes one entry per
block (`leafLoop_spec`), the entry loop hands the blocks to the entries of a table one after the
other (`entryLoop_spec`), and the whole walk follows by induction on the level (`step_spec`).

The entry loop computes `actual_blocks_in_next_level` by subtracting an index of the next level
from a number of blocks (the slip behind `map_across_gib_boundary_panics`). That index is at most
the number of blocks before the start of the range in the entry, so the entry is given at least
the blocks that fit in it, and more only when the range runs past its end. A walk below the
entry that returns has fitted what it was given, so the entry was given exactly what fits
(`fill_entry`): the slip shows as panics, never as a wrong translation.
-/

namespace EndlessHole.Memory

namespace PageTables

open PageTable HeapAllocator

/-! ## Offsets in a table -/

theorem mod_tableBytes (p l : Nat) :
    p % tableBytes l = p / entryBytes l % 512 * entryBytes l + p % entryBytes l := by
  rw [tableBytes, Nat.mul_comm 512, Nat.mod_mul, Nat.add_comm, Nat.mul_comm]

theorem le_index_iff {p l k : Nat} :
    k ≤ p / entryBytes l % 512 ↔ k * entryBytes l ≤ p % tableBytes l := by
  rw [index_eq_offset_div]
  exact Nat.le_div_iff_mul_le (entryBytes_pos l)

theorem index_lt_iff {p l k : Nat} :
    p / entryBytes l % 512 < k ↔ p % tableBytes l < k * entryBytes l := by
  rw [index_eq_offset_div]
  exact Nat.div_lt_iff_lt_mul (entryBytes_pos l)

theorem index_eq_iff {p l i : Nat} :
    p / entryBytes l % 512 = i ↔
      i * entryBytes l ≤ p % tableBytes l ∧ p % tableBytes l < (i + 1) * entryBytes l := by
  rw [← le_index_iff, ← index_lt_iff]
  omega

theorem add_mod_entryBytes (v y l : Nat) :
    (v + y) % entryBytes l = (v % tableBytes l + y) % entryBytes l := by
  rw [Nat.add_mod, Nat.add_mod (v % tableBytes l), tableBytes, Nat.mod_mul_left_mod]

/-- The blocks that the entry loop gives an entry, when they are not the last of the range, fill
it to its end. It gives `min(rest, blocks_per_entry - start)` blocks, where `start`, an index of
the next level, counts at most the blocks before the start of the range in the entry; the walk
below the entry fitted them, so they are exactly those up to its end. -/
theorem fill_entry {E E' B off start nbpe actual rest : Nat} (hBE' : B ≤ E')
    (hnbpe : nbpe * B = E) (hstart : start * E' ≤ off)
    (hactual : actual = min rest (nbpe - start)) (hlt : actual < rest)
    (hfit : off + actual * B ≤ E) : off + actual * B = E := by
  have hnbpe_start : actual = nbpe - start := by omega
  have hmul : actual * B = E - start * B := by rw [hnbpe_start, Nat.sub_mul, hnbpe]
  have hstartB : start * B ≤ start * E' := Nat.mul_le_mul_left _ hBE'
  omega

theorem eq_index_mul_add_mod {E a index : Nat} (hpos : index * E ≤ a ∧ a < (index + 1) * E) :
    a = index * E + a % E := by
  rw [← Nat.div_eq_of_lt_le hpos.1 hpos.2, Nat.div_add_mod']

theorem next_entry {E a index x : Nat} (hpos : index * E ≤ a ∧ a < (index + 1) * E)
    (hfit : a % E + x ≤ E) :
    a + x ≤ (index + 1) * E ∧
      (a % E + x = E → (index + 1) * E ≤ a + x ∧ a + x < (index + 1 + 1) * E) := by
  have hadec := eq_index_mul_add_mod hpos
  have hE1 : (index + 1) * E = index * E + E := Nat.succ_mul _ _
  have hE2 : (index + 1 + 1) * E = index * E + E + E := by rw [Nat.succ_mul, hE1]
  omega

/-! ## The walker -/

variable {σ : Type} {P : PageAllocator σ} {used : σ → Set Nat}

namespace Walker

/-- A walker for 4 KiB pages, as `for_each_entry_of_size` builds it: it ends at level 1, 2 or 3,
and a block is what an entry at that level maps. -/
structure FourKiB (w : Walker) : Prop where
  endLevel_pos : 1 ≤ w.endLevel
  endLevel_le : w.endLevel ≤ 3
  blockSizeInBytes : w.blockSizeInBytes = entryBytes w.endLevel
  blockSizeInPages : w.blockSizeInPages = entryBytes w.endLevel / 4096

end Walker

/-- The raw entry `e`, at `level`, maps the bytes of a block from `a` as `out` does: it is
empty and `out` has nothing there, or it is a block or page entry and `out` sends `a` to its
base. -/
def EntryMaps (out : Nat → Option Nat) (level e a : Nat) : Prop :=
  (Entry.decode e level = .ok .empty ∧ ∀ q < entryBytes level, out (a + q) = none) ∨
    ∃ b, (Entry.decode e level = .ok (.page b) ∨ Entry.decode e level = .ok (.block b)) ∧
      ∀ q < entryBytes level, out (a + q) = some (b + q)

/-- The callback of the walk writes, for each block, an entry that maps it as `out` does. -/
def Walker.Writes (w : Walker) (out : Nat → Option Nat) : Prop :=
  ∀ {a e}, a % w.blockSizeInBytes = 0 → w.f a = .ok e → EntryMaps out w.endLevel e a

theorem EntryMaps.not_table {out : Nat → Option Nat} {level e a : Nat}
    (h : EntryMaps out level e a) (c : Nat) : Entry.decode e level ≠ .ok (.table c) := by
  rcases h with ⟨hd, -⟩ | ⟨b, hd | hd, -⟩ <;> rw [hd] <;> simp

theorem lookup_of_entryMaps {pt : PageTables σ} {out : Nat → Option Nat} {L T p n e a : Nat}
    (hps : pt.pageSize = .fourKiB) (h1 : 1 ≤ L) (hL : L ≤ 3)
    (he : pt.mem (T + 8 * (p / entryBytes L % 512)) = e) (hmaps : EntryMaps out L e a) :
    pt.lookup p T L (n + 1) = .ok (out (a + p % entryBytes L)) := by
  have hr : p % entryBytes L < entryBytes L := Nat.mod_lt _ (entryBytes_pos L)
  rcases hmaps with ⟨hd, hout⟩ | ⟨b, hd, hout⟩
  · rw [pt.lookup_of_empty hps hL (he ▸ hd), hout _ hr]
  · rw [pt.lookup_of_leaf hps h1 hL (he ▸ hd), hout _ hr]

variable (used) in
/-- What a walk of `count` blocks of `B` bytes, from the virtual address `vs` and the physical
address `ps`, did below the table `T` at level `l`: it grew the tree below `T`, its blocks fit
in the table, and a lookup from `T` finds `out` on them and what it found before elsewhere. -/
structure Walked (out : Nat → Option Nat) (B n l T vs ps count : Nat)
    (pt pt' : PageTables σ) : Prop where
  grows : Grows used pt pt' n l T
  fits : vs % tableBytes l + count * B ≤ tableBytes l
  lookup : ∀ p, pt'.lookup p T l n =
    if vs % tableBytes l ≤ p % tableBytes l ∧ p % tableBytes l < vs % tableBytes l + count * B then
      .ok (out (ps + (p % tableBytes l - vs % tableBytes l)))
    else pt.lookup p T l n

/-! ## The end level -/

theorem write_entry_spec {pt : PageTables σ} {out : Nat → Option Nat} {n L T j e a : Nat}
    (hpt : FourKiBTables pt) (hinv : TreeInv used pt (n + 1) L T) (h1 : 1 ≤ L)
    (hL : L + n < 4) (hj : j < 512) (hmaps : EntryMaps out L e a) :
    Grows used pt (pt.write (T + 8 * j) e) (n + 1) L T ∧
      ∀ p, (pt.write (T + 8 * j) e).lookup p T L (n + 1) =
        if p / entryBytes L % 512 = j then .ok (out (a + p % entryBytes L))
        else pt.lookup p T L (n + 1) := by
  have hmem : ∀ x ∈ used pt.allocator, x ≠ T + 8 * j →
      (∀ T' ∈ pt.subtables n L T j, x ∉ tableRegion T') → (pt.write (T + 8 * j) e).mem x = pt.mem x :=
    fun x _ hne _ => Function.update_of_ne hne _ _
  -- the entry is no table entry, so no table lies below it any more
  have hsub : (pt.write (T + 8 * j) e).subtables n L T j = [] := by
    apply subtables_of_not_table
    simpa [write] using hmaps.not_table
  refine ⟨grows_of_entry hpt.entriesPerPage hinv hj rfl subset_rfl hmem ?_ ?_ ?_, fun p => ?_⟩
  · rw [hsub]
    exact List.Pairwise.nil
  · simp [hsub]
  · simp [hsub]
  · split_ifs with hp
    · exact lookup_of_entryMaps hpt.pageSize h1 (by omega) (by simp [write, hp]) hmaps
    · exact lookup_of_entry hpt (show (pt.write (T + 8 * j) e).pageSize = .fourKiB from hpt.pageSize)
        hinv hj hL hmem hp

section Leaf

variable {w : Walker} {out : Nat → Option Nat} (hw : w.FourKiB) (hwr : w.Writes out)
include hw hwr

/-- The loop of the end level writes, for the blocks `i, i + 1, ...`, the entries from
`start + i` on. -/
theorem leafLoop_spec {n T start ps : Nat} (hL : w.endLevel + n < 4)
    (hps : ps % entryBytes w.endLevel = 0) :
    ∀ (count i : Nat) (pt pt' : PageTables σ), FourKiBTables pt →
      TreeInv used pt (n + 1) w.endLevel T → start + i + count ≤ 512 →
      w.leafLoop pt T start ps i count = .ok pt' →
      Grows used pt pt' (n + 1) w.endLevel T ∧ ∀ p, pt'.lookup p T w.endLevel (n + 1) =
        if start + i ≤ p / entryBytes w.endLevel % 512 ∧
            p / entryBytes w.endLevel % 512 < start + i + count then
          .ok (out (ps + (p / entryBytes w.endLevel % 512 - start) * entryBytes w.endLevel +
            p % entryBytes w.endLevel))
        else pt.lookup p T w.endLevel (n + 1)
  | 0, i, pt, pt', hpt, hinv, _, h => by
    cases h
    exact ⟨Grows.refl hinv, fun p => by rw [if_neg (by omega)]⟩
  | count + 1, i, pt, pt', hpt, hinv, hle, h => by
    obtain ⟨e, he, h⟩ := Fault.bind_eq_ok.1 h
    rw [hw.blockSizeInBytes] at he
    have hmaps := hwr (by rw [hw.blockSizeInBytes]; simp [Nat.add_mod, hps]) he
    obtain ⟨hgrow, hlook⟩ :=
      write_entry_spec hpt hinv hw.endLevel_pos hL (by omega : start + i < 512) hmaps
    obtain ⟨hgrowR, hlookR⟩ := leafLoop_spec hL hps count (i + 1) _ pt'
      (hgrow.fourKiB hpt) hgrow.inv (by omega) h
    refine ⟨hgrow.trans hgrowR, fun p => ?_⟩
    rw [hlookR p, hlook p]
    split_ifs <;> first
      | rfl
      | omega
      | rw [show p / entryBytes w.endLevel % 512 - start = i by omega]

theorem walked_of_leafLoop {n T vs ps count : Nat} {pt pt' : PageTables σ}
    (hL : w.endLevel + n < 4) (hpt : FourKiBTables pt) (hinv : TreeInv used pt (n + 1) w.endLevel T)
    (hvs : vs % entryBytes w.endLevel = 0) (hps : ps % entryBytes w.endLevel = 0)
    (hfit : vs / entryBytes w.endLevel % 512 + count ≤ 512)
    (h : w.leafLoop pt T (vs / entryBytes w.endLevel % 512) ps 0 count = .ok pt') :
    Walked used out (entryBytes w.endLevel) (n + 1) w.endLevel T vs ps count pt pt' := by
  obtain ⟨hgrow, hlook⟩ := leafLoop_spec hw hwr hL hps count 0 pt pt' hpt hinv (by omega) h
  have hoff : vs % tableBytes w.endLevel =
      vs / entryBytes w.endLevel % 512 * entryBytes w.endLevel := by
    rw [mod_tableBytes, hvs, Nat.add_zero]
  refine ⟨hgrow, ?_, fun p => ?_⟩
  · rw [hoff, tableBytes, ← Nat.add_mul]
    exact Nat.mul_le_mul_right _ hfit
  · have hp := mod_tableBytes p w.endLevel
    rw [hlook p]
    simp only [Nat.add_zero, le_index_iff, index_lt_iff, hoff, Nat.add_mul]
    split_ifs with hin
    · -- the offset from `vs` is the offset of the block and the offset in the block
      have hle := Nat.mul_le_mul_right (entryBytes w.endLevel) (le_index_iff.2 hin.1)
      congr 2
      rw [Nat.sub_mul]
      omega
    · rfl

end Leaf

/-! ## The levels above -/

theorem entryLoop_done {w : Walker} {child : PageTables σ → Nat → Nat → Nat → Nat →
      Except (Fault PageTable.Error) (PageTables σ)} {pt pt' : PageTables σ}
    {l T vs ps count nbpe k index nb : Nat} (hnb : count ≤ nb)
    (h : w.entryLoop P child pt l T vs ps count nbpe k index nb = .ok pt') : pt' = pt := by
  rw [Walker.entryLoop.eq_def] at h
  simp only [if_neg (show ¬nb < count by omega)] at h
  exact (Except.ok.inj h).symm

section Entries

variable (hP : GrantsTablePages P used) {w : Walker} (hw : w.FourKiB) {out : Nat → Option Nat}
  {child : PageTables σ → Nat → Nat → Nat → Nat → Except (Fault PageTable.Error) (PageTables σ)}
  {n l T vs ps count nbpe : Nat} (hlL : l < w.endLevel) (hln : l + n < 4)
  (hvs : vs % entryBytes w.endLevel = 0) (hps : ps % entryBytes w.endLevel = 0)
  (hnbpe : nbpe * entryBytes w.endLevel = entryBytes l)
  (hchild : ∀ (pt₁ pt₂ : PageTables σ) (C vs' ps' c : Nat), FourKiBTables pt₁ →
    TreeInv used pt₁ n (l + 1) C → vs' % entryBytes w.endLevel = 0 →
    ps' % entryBytes w.endLevel = 0 → child pt₁ C vs' ps' c = .ok pt₂ →
    Walked used out (entryBytes w.endLevel) n (l + 1) C vs' ps' c pt₁ pt₂)
include hP hw hlL hln hvs hps hnbpe hchild

/-- The loop over the entries of a table above the end level. At entry `index`, `nb` blocks
have been handed out and the next one lies in that entry; each entry is given the blocks up to
its end or to the end of the range, and the walk below it maps them. -/
theorem entryLoop_spec :
    ∀ (k index nb : Nat) (pt pt' : PageTables σ), FourKiBTables pt →
      TreeInv used pt (n + 1) l T → index + k = 512 → nb ≤ count →
      vs % tableBytes l + nb * entryBytes w.endLevel ≤ tableBytes l →
      (nb < count → index * entryBytes l ≤ vs % tableBytes l + nb * entryBytes w.endLevel ∧
        vs % tableBytes l + nb * entryBytes w.endLevel < (index + 1) * entryBytes l) →
      w.entryLoop P child pt l T vs ps count nbpe k index nb = .ok pt' →
      Grows used pt pt' (n + 1) l T ∧
        vs % tableBytes l + count * entryBytes w.endLevel ≤ tableBytes l ∧
        ∀ p, pt'.lookup p T l (n + 1) =
          if vs % tableBytes l + nb * entryBytes w.endLevel ≤ p % tableBytes l ∧
              p % tableBytes l < vs % tableBytes l + count * entryBytes w.endLevel then
            .ok (out (ps + (p % tableBytes l - vs % tableBytes l)))
          else pt.lookup p T l (n + 1)
  | k, index, nb, pt, pt', hpt, hinv, hk, hnb, hle, hpos, h => by
    by_cases hlt : nb < count
    swap
    · -- every block is handed out
      obtain rfl := entryLoop_done (by omega) h
      obtain rfl : nb = count := by omega
      exact ⟨Grows.refl hinv, hle, fun p => by rw [if_neg (by omega)]⟩
    cases k with
    | zero =>
      -- past the last entry the bounds check fails
      rw [Walker.entryLoop.eq_1, if_pos hlt] at h
      obtain ⟨_, -, h⟩ := Fault.bind_eq_ok.1 h
      cases h
    | succ k =>
      rw [Walker.entryLoop.eq_2, if_pos hlt, hw.blockSizeInBytes] at h
      obtain ⟨_, hassert, h⟩ := Fault.bind_eq_ok.1 h
      obtain ⟨⟨C, pt₁⟩, hnext, h⟩ := Fault.bind_eq_ok.1 h
      obtain ⟨start, hstart, h⟩ := Fault.bind_eq_ok.1 h
      obtain ⟨pt₂, hrun, hloop⟩ := Fault.bind_eq_ok.1 h
      have hL3 := hw.endLevel_le
      set a := vs % tableBytes l + nb * entryBytes w.endLevel with ha
      set actual := min (count - nb) (nbpe - start) with hactual
      have hidx : index < 512 := by
        rw [← hpt.entriesPerPage]
        simpa using Fault.assert_eq_ok.1 hassert
      obtain ⟨hgrow₁, ⟨c, hc, rfl⟩, hlook₁⟩ :=
        nextTableForEntry_spec hP w hpt hinv (by omega) hidx hnext
      have hpt₁ := hgrow₁.fourKiB hpt
      have hinv₁ := hgrow₁.inv.child (hpt₁.entriesPerPage ▸ hidx) hc
      rw [hpt₁.pageSize, indexForLevel_fourKiB _ (by omega)] at hstart
      have hstart' := (Except.ok.inj hstart).symm
      have hwalk := hchild pt₁ pt₂ _ _ _ _ hpt₁ hinv₁ (by simp [Nat.add_mod, hvs])
        (by simp [Nat.add_mod, hps]) hrun
      obtain ⟨hgrow₂, -⟩ := hwalk.grows.lift hpt₁.entriesPerPage hgrow₁.inv hidx hc
      have hE : tableBytes (l + 1) = entryBytes l := tableBytes_succ (by omega)
      have hoffC : (vs + nb * entryBytes w.endLevel) % tableBytes (l + 1) = a % entryBytes l := by
        rw [hE, add_mod_entryBytes]
      have hfitC := hwalk.fits
      rw [hoffC, hE] at hfitC
      have hstartle : start * entryBytes (l + 1) ≤ a % entryBytes l := by
        have hdec := mod_tableBytes (vs + nb * entryBytes w.endLevel) (l + 1)
        rw [← hstart', hoffC] at hdec
        omega
      have hBle : entryBytes w.endLevel ≤ entryBytes (l + 1) :=
        Nat.le_of_dvd (entryBytes_pos _) (entryBytes_dvd (by omega))
      have hfull : nb + actual < count →
          a % entryBytes l + actual * entryBytes w.endLevel = entryBytes l := fun hmore =>
        fill_entry hBle hnbpe hstartle rfl (by omega) hfitC
      have hTB : (index + 1) * entryBytes l ≤ tableBytes l :=
        Nat.mul_le_mul_right (entryBytes l) (by omega : index + 1 ≤ 512)
      have hadec := eq_index_mul_add_mod (hpos hlt)
      obtain ⟨hnext_le, hnext⟩ := next_entry (hpos hlt) hfitC
      obtain ⟨hgrowR, hfits, hlookR⟩ := entryLoop_spec k (index + 1) (nb + actual) pt₂ pt'
        (hgrow₂.fourKiB hpt₁) hgrow₂.inv (by omega) (by omega)
        (by rw [Nat.add_mul nb actual]; omega)
        (fun hmore => by have := hnext (hfull hmore); rw [Nat.add_mul nb actual]; omega)
        hloop
      refine ⟨hgrow₁.trans (hgrow₂.trans hgrowR), hfits, fun p => ?_⟩
      have hp := mod_tableBytes p l
      have hcountB : nb * entryBytes w.endLevel + actual * entryBytes w.endLevel ≤
          count * entryBytes w.endLevel := by
        rw [← Nat.add_mul]
        exact Nat.mul_le_mul_right _ (by omega)
      rw [hlookR p, lookup_lift hpt₁ hgrow₁.inv hidx hln hc hwalk.grows p, Nat.add_mul nb actual]
      by_cases hip : p / entryBytes l % 512 = index
      · -- through this entry: the walk below it, for the blocks it was given
        have hback : pt₁.lookup p (PhysicalAddress.toPtr c) (l + 1) n = pt.lookup p T l (n + 1) := by
          rw [← hlook₁ p hln, pt₁.lookup_of_table hpt₁.pageSize (by omega) (by rw [hip]; exact hc)]
        rw [if_pos hip, hwalk.lookup p, hback, hoffC, hE]
        rw [hip] at hp
        split_ifs <;> first | rfl | omega | (congr 2; omega)
      · -- through another entry, which none of these blocks lies in
        have hout : ¬(index * entryBytes l ≤ p % tableBytes l ∧ p % tableBytes l < (index + 1) * entryBytes l) :=
          fun hin => hip (index_eq_iff.2 hin)
        rw [if_neg hip, hlook₁ p hln]
        split_ifs <;> first | rfl | omega

end Entries

theorem blocksPerEntry_mul {w : Walker} (hw : w.FourKiB) {l : Nat} (hl : l ≤ w.endLevel) :
    entryBytes l / 4096 / w.blockSizeInPages * entryBytes w.endLevel = entryBytes l := by
  have h3 := entryBytes_dvd hw.endLevel_le
  have h4096 : 4096 ∣ entryBytes w.endLevel := h3
  rw [hw.blockSizeInPages, Nat.div_div_eq_div_mul, Nat.mul_div_cancel' h4096,
    Nat.div_mul_cancel (entryBytes_dvd hl)]

/-- The walk from a table at level `l`, by induction on the levels below it: `step` checks the
count and finds the index of `vs`, then runs the entry loop above the end level, with the walk
of the next level below each entry, and the leaf loop at the end level. -/
theorem step_spec (hP : GrantsTablePages P used) {w : Walker} (hw : w.FourKiB)
    {out : Nat → Option Nat} (hwr : w.Writes out) :
    ∀ (n l T vs ps count : Nat) (pt pt' : PageTables σ), l + n = 3 → l ≤ w.endLevel →
      FourKiBTables pt → TreeInv used pt (n + 1) l T → vs % entryBytes w.endLevel = 0 →
      ps % entryBytes w.endLevel = 0 → w.step P (n + 2) pt l T vs ps count = .ok pt' →
      Walked used out (entryBytes w.endLevel) (n + 1) l T vs ps count pt pt'
  | n, l, T, vs, ps, count, pt, pt', hln, hlL, hpt, hinv, hvs, hps, h => by
    have hL3 := hw.endLevel_le
    rw [Walker.step] at h
    obtain ⟨_, -, h⟩ := Fault.bind_eq_ok.1 h
    obtain ⟨start, hstart, h⟩ := Fault.bind_eq_ok.1 h
    rw [hpt.pageSize, indexForLevel_fourKiB _ (by omega)] at hstart
    obtain rfl := Except.ok.inj hstart
    split at h
    · -- above the end level: the entry loop, with the walk of the next level below each entry
      rename_i hlt
      obtain ⟨perEntry, hper, h⟩ := Fault.bind_eq_ok.1 h
      rw [hpt.pageSize, pagesPerEntry_fourKiB (by omega)] at hper
      obtain rfl := Except.ok.inj hper
      cases n with
      | zero => omega
      | succ n =>
        have hchild : ∀ (pt₁ pt₂ : PageTables σ) (C vs' ps' c : Nat), FourKiBTables pt₁ →
            TreeInv used pt₁ (n + 1) (l + 1) C → vs' % entryBytes w.endLevel = 0 →
            ps' % entryBytes w.endLevel = 0 → w.step P (n + 2) pt₁ (l + 1) C vs' ps' c = .ok pt₂ →
            Walked used out (entryBytes w.endLevel) (n + 1) (l + 1) C vs' ps' c pt₁ pt₂ :=
          fun pt₁ pt₂ C vs' ps' c hpt₁ hinv₁ hvs' hps' hrun =>
            step_spec hP hw hwr n (l + 1) C vs' ps' c pt₁ pt₂ (by omega) (by omega) hpt₁ hinv₁ hvs'
              hps' hrun
        have hstart := index_eq_iff.1 (rfl : vs / entryBytes l % 512 = _)
        rw [hpt.entriesPerPage] at h
        obtain ⟨hgrow, hfits, hlook⟩ := entryLoop_spec hP hw hlt (by omega) hvs hps
          (blocksPerEntry_mul hw hlt.le) hchild _ _ 0 pt pt' hpt hinv (by omega) (Nat.zero_le _)
          (by simpa using (Nat.mod_lt vs (show 0 < tableBytes l from
            Nat.mul_pos (by decide) (entryBytes_pos l))).le)
          (fun _ => by simpa using hstart) h
        exact ⟨hgrow, hfits, fun p => by simpa using hlook p⟩
    · -- the end level: the leaf loop, once the blocks are known to fit in the table
      obtain rfl : l = w.endLevel := by omega
      obtain ⟨_, hfit, h⟩ := Fault.bind_eq_ok.1 h
      have hfit : vs / entryBytes w.endLevel % 512 + count ≤ 512 := by
        have h512 := Fault.assert_eq_ok.1 hfit
        rw [hpt.entriesPerPage] at h512
        simpa using h512
      exact walked_of_leafLoop hw hwr (by omega) hpt hinv hvs hps hfit h

end PageTables

end EndlessHole.Memory
