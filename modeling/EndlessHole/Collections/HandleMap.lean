import EndlessHole.Collections.HandleAllocator
import EndlessHole.Lib.Fault

/-!
# The handle map

`HandleMap<T>` of `kernel_core/src/collections/handle_map.rs`: a map from `u32` handles to
`Arc<T>` values, as a radix tree of tables of 256 words, with handles from a
`HandleAllocator`. A word of a table is `0` (empty), the address of a next-level table, or the
raw pointer of an `Arc<T>` in the leaf tables.

The model keeps the tables as memory, `mem t i` the word at index `i` of the table at address
`t`, and the root table at the address `table`. A value is the raw pointer of its `Arc`, never
`0`. `Box::new(Table::default())` takes a fresh zeroed table at `nextTable`. Reference counts
are left out: no operation here reads them.

A handle is turned into the path of table indices by shifting out the zero prefix that no handle
below `max_handle` has, and rotating one byte at a time. The shift drops the high bits of a
handle at or past `max_handle`, so such a handle reaches the slot of a handle in range
(`get_aliases_out_of_range_handle`).
-/

namespace EndlessHole.Collections

open HandleAllocator (Error)

/-- Memory of tables: `mem t i` is the word at index `i` of the table at address `t`. -/
abbrev TableMem := Nat → Nat → Nat

def TableMem.write (mem : TableMem) (t i v : Nat) : TableMem :=
  Function.update mem t (Function.update (mem t) i v)

@[simp] theorem TableMem.write_same (mem : TableMem) (t i v : Nat) : mem.write t i v t i = v := by
  simp [TableMem.write]

structure HandleMap where
  allocator : HandleAllocator
  mem : TableMem
  table : Nat
  nextTable : Nat
  handleZerosPrefixBitLength : Nat
  depth : Nat

namespace HandleMap

/-- `HandleMap::new`: the zero prefix is the leading zeros of `max_handle` rounded down to whole
bytes, and the tree has a level for each remaining byte. The root table is at `1`, the next
table at `2`, and all tables are zeroed. -/
def new (maxHandle : Nat) : HandleMap :=
  let extraBits := U32.leadingZeros maxHandle / 8 * 8
  { allocator := HandleAllocator.new maxHandle
    mem := fun _ _ => 0
    table := 1
    nextTable := 2
    handleZerosPrefixBitLength := extraBits
    depth := (32 - extraBits + 7) / 8 }

/-- The path of a handle: `(handle << handle_zeros_prefix_bit_length).rotate_left(8)`, whose
low byte is the index in the root table. -/
def pathOf (m : HandleMap) (handle : Nat) : Nat :=
  U32.rotateLeft (U32.shl handle m.handleZerosPrefixBitLength) 8

/-- The walk of `leaf_table_for_handle` down `levels` tables from `table`: the leaf table and
the index in it, or `None` where a next-level table is missing. -/
def walk (mem : TableMem) : Nat → Nat → Nat → Option (Nat × Nat)
  | 0, handle, table => some (table, handle % 256)
  | levels + 1, handle, table =>
    let next := mem table (handle % 256)
    if next = 0 then none else walk mem levels (U32.rotateLeft handle 8) next

def leafTableForHandle (m : HandleMap) (handle : Nat) : Option (Nat × Nat) :=
  walk m.mem (m.depth - 1) (m.pathOf handle) m.table

/-- `new_next_level_table` at index `i` of the table `t`: a fresh zeroed table, put in the slot
if the slot is still empty; otherwise the fresh table is dropped and the table in the slot is
used. Returns the table the walk goes on to. -/
def newNextLevelTable (m : HandleMap) (t i : Nat) : Nat × HandleMap :=
  let newTable := m.nextTable
  let m := { m with mem := Function.update m.mem newTable fun _ => 0, nextTable := newTable + 1 }
  if m.mem t i = 0 then (newTable, { m with mem := m.mem.write t i newTable })
  else (m.mem t i, m)

/-- The walk of `insert_self_referential` down `levels` tables from `table`, making each missing
next-level table. Returns the leaf table, the rotated handle and the state after. -/
def walkCreate : Nat → Nat → Nat → HandleMap → Nat × Nat × HandleMap
  | 0, handle, table, m => (table, handle, m)
  | levels + 1, handle, table, m =>
    let index := handle % 256
    let (next, m) :=
      if m.mem table index ≠ 0 then (m.mem table index, m) else m.newNextLevelTable table index
    walkCreate levels (U32.rotateLeft handle 8) next m

/-- `insert`: the handle of the new value, or `None` (`Err(value)`) when no handle is left. The
handle returned is the path after all its rotations, which is the handle taken for a handle below
`max_handle`. Panics if the leaf slot is not empty. -/
def insert (m : HandleMap) (value : Nat) : Except (Fault Empty) (Option Nat × HandleMap) :=
  match m.allocator.nextHandle with
  | none => pure (none, m)
  | some (handle, allocator) => do
    let (table, handle, m) :=
      walkCreate (m.depth - 1) (m.pathOf handle) m.table { m with allocator }
    let index := handle % 256
    let res := m.mem table index
    let m := { m with mem := m.mem.write table index value }
    Fault.assert (res = 0)
    pure (some handle, m)

def get (m : HandleMap) (handle : Nat) : Option Nat :=
  match m.leafTableForHandle handle with
  | none => none
  | some (table, leafIndex) =>
    let v := m.mem table leafIndex
    if v = 0 then none else some v

/-- `remove`: `take_value` empties the slot first, then `free_handle` runs; its error makes the
result `None`. -/
def remove (m : HandleMap) (handle : Nat) : Option Nat × HandleMap :=
  match m.leafTableForHandle handle with
  | none => (none, m)
  | some (table, leafIndex) =>
    let val := m.mem table leafIndex
    let m := { m with mem := m.mem.write table leafIndex 0 }
    match m.allocator.freeHandle handle with
    | .error _ => (none, m)
    | .ok allocator => (if val = 0 then none else some val, { m with allocator })

/-! ## The index path

The walks of `leaf_table_for_handle` and `insert_self_referential` take the table index at each
level from the low byte of the path, rotated a byte further at each level. `tableIndices` are
the indices of the tables on the way, root first, and `leafIndex` the index in the leaf table;
`descend` and `descendCreate` are the two walks driven by the list of indices. -/

/-- The index at level `i` of the walk for `handle`: the low byte of its path after `i` more
rotations. -/
def levelIndex (m : HandleMap) (handle i : Nat) : Nat :=
  (U32.rotateLeft · 8)^[i] (m.pathOf handle) % 256

def tableIndices (m : HandleMap) (handle : Nat) : List Nat :=
  (List.range (m.depth - 1)).map (m.levelIndex handle)

def leafIndex (m : HandleMap) (handle : Nat) : Nat := m.levelIndex handle (m.depth - 1)

/-- The indices of all `depth` levels. -/
def pathIndices (m : HandleMap) (handle : Nat) : List Nat :=
  (List.range m.depth).map (m.levelIndex handle)

/-- Follow the next-level tables at `indices` from `table`; `none` at an empty slot. -/
def descend (mem : TableMem) : List Nat → Nat → Option Nat
  | [], table => some table
  | i :: is, table => if mem table i = 0 then none else descend mem is (mem table i)

/-- Follow the next-level tables at `indices` from `table`, making each missing one. -/
def descendCreate : List Nat → Nat → HandleMap → Nat × HandleMap
  | [], table, m => (table, m)
  | i :: is, table, m =>
    let (next, m) :=
      if m.mem table i ≠ 0 then (m.mem table i, m) else m.newNextLevelTable table i
    descendCreate is next m

theorem range_map_iterate_succ (levels x : Nat) :
    (List.range (levels + 1)).map (fun i => (U32.rotateLeft · 8)^[i] x % 256) =
      x % 256 :: (List.range levels).map (fun i => (U32.rotateLeft · 8)^[i] (U32.rotateLeft x 8) % 256) := by
  rw [List.range_succ_eq_map, List.map_cons, List.map_map]
  rfl

theorem walk_eq_descend (mem : TableMem) :
    ∀ levels handle table, walk mem levels handle table =
      (descend mem ((List.range levels).map fun i => (U32.rotateLeft · 8)^[i] handle % 256) table).map
        fun t => (t, (U32.rotateLeft · 8)^[levels] handle % 256)
  | 0, handle, table => rfl
  | levels + 1, handle, table => by
    rw [walk, range_map_iterate_succ, descend]
    split
    · rfl
    · rw [walk_eq_descend mem levels, Function.iterate_succ_apply]

theorem walkCreate_eq_descendCreate :
    ∀ levels handle table (m : HandleMap), walkCreate levels handle table m =
      ((descendCreate ((List.range levels).map fun i => (U32.rotateLeft · 8)^[i] handle % 256)
        table m).1, (U32.rotateLeft · 8)^[levels] handle,
        (descendCreate ((List.range levels).map fun i => (U32.rotateLeft · 8)^[i] handle % 256)
          table m).2)
  | 0, handle, table, m => rfl
  | levels + 1, handle, table, m => by
    rw [walkCreate, range_map_iterate_succ, descendCreate]
    dsimp only
    rw [walkCreate_eq_descendCreate levels, Function.iterate_succ_apply]

theorem leafTableForHandle_eq (m : HandleMap) (handle : Nat) :
    m.leafTableForHandle handle =
      (descend m.mem (m.tableIndices handle) m.table).map (·, m.leafIndex handle) :=
  walk_eq_descend m.mem (m.depth - 1) (m.pathOf handle) m.table

/-- `insert_self_referential` walks the tables at the same `tableIndices`, making the missing
ones, writes the value at `leafIndex`, and returns the path after all its rotations. -/
theorem insert_of_nextHandle {m : HandleMap} {value handle table : Nat}
    {allocator : HandleAllocator} {m' : HandleMap} (h : m.allocator.nextHandle = some (handle, allocator))
    (hwalk : descendCreate (m.tableIndices handle) m.table { m with allocator } = (table, m')) :
    m.insert value =
      if m'.mem table (m.leafIndex handle) = 0 then
        .ok (some ((U32.rotateLeft · 8)^[m.depth - 1] (m.pathOf handle)),
          { m' with mem := m'.mem.write table (m.leafIndex handle) value })
      else .error .panic := by
  have hwalk' : descendCreate ((List.range (m.depth - 1)).map
      fun i => (U32.rotateLeft · 8)^[i] (m.pathOf handle) % 256) m.table { m with allocator } =
        (table, m') := hwalk
  rw [insert, h]
  dsimp only
  rw [walkCreate_eq_descendCreate, hwalk']
  dsimp only
  by_cases hzero : m'.mem table (m.leafIndex handle) = 0
  · rw [if_pos hzero]
    rw [leafIndex, levelIndex] at hzero
    simp only [hzero, decide_true, Fault.assert_true, Fault.ok_bind]
    rfl
  · rw [if_neg hzero]
    rw [leafIndex, levelIndex] at hzero
    simp only [hzero, decide_false, Fault.assert_false]
    rfl

section Path

/-! The prefix and the depth that `new` computes: `d` levels of a byte each, under a prefix of the
other `4 - d` bytes. -/

variable {m : HandleMap} {d : Nat} (hd : 1 ≤ d ∧ d ≤ 4) (hdepth : m.depth = d)
  (hshift : m.handleZerosPrefixBitLength = 32 - 8 * d)
include hd hdepth hshift

omit hdepth in
theorem bytes_iterate_pathOf {handle : Nat} (hh : handle < 2 ^ (8 * d)) (i : Nat) :
    U32.bytes ((U32.rotateLeft · 8)^[i] (m.pathOf handle)) =
      ((U32.bytes handle).drop (4 - d) ++ List.replicate (4 - d) 0).rotate (i + 1) := by
  rw [pathOf, hshift, ← Function.iterate_succ_apply (U32.rotateLeft · 8),
    U32.bytes_iterate_rotateLeft, U32.bytes_shl hd hh]

theorem iterate_pathOf {handle : Nat} (hh : handle < 2 ^ (8 * d)) :
    (U32.rotateLeft · 8)^[m.depth - 1] (m.pathOf handle) = handle := by
  -- the `d` bytes of the handle go round to the bottom, after its `4 - d` zero bytes
  have hrot : ((U32.bytes handle).drop (4 - d) ++ List.replicate (4 - d) 0).rotate d =
      List.replicate (4 - d) 0 ++ (U32.bytes handle).drop (4 - d) := by
    have hlen : ((U32.bytes handle).drop (4 - d)).length = d := by simp; omega
    have := List.rotate_append_length_eq ((U32.bytes handle).drop (4 - d)) (List.replicate (4 - d) 0)
    rwa [hlen] at this
  have hbytes : U32.bytes ((U32.rotateLeft · 8)^[m.depth - 1] (m.pathOf handle)) =
      U32.bytes handle := by
    rw [bytes_iterate_pathOf hd hshift hh, hdepth, Nat.sub_add_cancel hd.1, hrot,
      ← U32.take_bytes hd.2 hh, List.take_append_drop]
  have hpow : 2 ^ (8 * d) ≤ 2 ^ 32 := Nat.pow_le_pow_right (by decide) (by omega)
  exact U32.eq_of_bytes_eq (U32.iterate_rotateLeft_lt (U32.rotateLeft_eight_lt _) _) (by omega)
    hbytes

theorem levelIndex_eq {handle : Nat} (hh : handle < 2 ^ (8 * d)) {i : Nat} (hi : i < d) :
    ((U32.bytes handle).drop (4 - d))[i]? = some (m.levelIndex handle i) := by
  have hlow : (U32.bytes ((U32.rotateLeft · 8)^[i] (m.pathOf handle)))[3]? =
      some (m.levelIndex handle i) := rfl
  rw [bytes_iterate_pathOf hd hshift hh, List.getElem?_rotate (by simp)] at hlow
  have hpos : (3 + (i + 1)) % ((U32.bytes handle).drop (4 - d) ++ List.replicate (4 - d) 0).length =
      i := by
    have hfour : 4 - (4 - d) + (4 - d) = 4 := by omega
    simp only [List.length_append, List.length_drop, U32.length_bytes, List.length_replicate, hfour]
    omega
  rwa [hpos, List.getElem?_append_left (by simp; omega)] at hlow

theorem pathIndices_eq {handle : Nat} (hh : handle < 2 ^ (8 * d)) :
    m.pathIndices handle = (U32.bytes handle).drop (4 - d) := by
  apply List.ext_getElem?
  intro i
  by_cases hi : i < d
  · rw [levelIndex_eq hd hdepth hshift hh hi, pathIndices, List.getElem?_map,
      List.getElem?_range (by omega)]
    rfl
  · rw [List.getElem?_eq_none (by simp [pathIndices]; omega),
      List.getElem?_eq_none (by simp; omega)]

theorem eq_of_pathIndices_eq {h₁ h₂ : Nat} (hh₁ : h₁ < 2 ^ (8 * d)) (hh₂ : h₂ < 2 ^ (8 * d))
    (heq : m.pathIndices h₁ = m.pathIndices h₂) : h₁ = h₂ := by
  have hpow : 2 ^ (8 * d) ≤ 2 ^ 32 := Nat.pow_le_pow_right (by decide) (by omega)
  have hbytes : U32.bytes h₁ = U32.bytes h₂ := by
    rw [← List.take_append_drop (4 - d) (U32.bytes h₁), ← List.take_append_drop (4 - d) (U32.bytes h₂),
      U32.take_bytes hd.2 hh₁, U32.take_bytes hd.2 hh₂, ← pathIndices_eq hd hdepth hshift hh₁,
      ← pathIndices_eq hd hdepth hshift hh₂, heq]
  exact U32.eq_of_bytes_eq (by omega) (by omega) hbytes

end Path

theorem pathIndices_eq_append {m : HandleMap} (hdepth : 1 ≤ m.depth) (handle : Nat) :
    m.pathIndices handle = m.tableIndices handle ++ [m.leafIndex handle] := by
  rw [pathIndices, tableIndices, leafIndex, ← Nat.sub_add_cancel hdepth, List.range_succ,
    List.map_append, Nat.add_sub_cancel]
  rfl

/-- `new` splits the handles below `max_handle` into `d` bytes, `1 ≤ d ≤ 4`, under a prefix of
the other `4 - d` bytes. -/
theorem new_depth {maxHandle : Nat} (hpos : 0 < maxHandle) (hlt : maxHandle < 2 ^ 32) :
    (1 ≤ (new maxHandle).depth ∧ (new maxHandle).depth ≤ 4) ∧
      (new maxHandle).handleZerosPrefixBitLength = 32 - 8 * (new maxHandle).depth ∧
      maxHandle ≤ 2 ^ (8 * (new maxHandle).depth) := by
  have hlog : Nat.log2 maxHandle < 32 := (Nat.log2_lt hpos.ne').2 hlt
  have hbound : maxHandle < 2 ^ (Nat.log2 maxHandle + 1) := Nat.lt_log2_self
  simp only [new, U32.leadingZeros, if_neg hpos.ne']
  refine ⟨⟨by omega, by omega⟩, by omega, ?_⟩
  exact hbound.le.trans (Nat.pow_le_pow_right (by decide) (by omega))

/-- For every `max_handle` from one up, and every map with the prefix, the depth and the
allocator's bound of `new max_handle` (which `insert` and `remove` keep): after all its rotations
the path of a handle below `max_handle` is the handle again; the indices of the walk tell the
handles below `max_handle` apart; `leaf_table_for_handle` and `insert_self_referential` walk the
same indices; and `insert` returns the handle the allocator handed out. -/
theorem handle_path_returns_allocated_handle (maxHandle : Nat) (hpos : 0 < maxHandle)
    (hlt : maxHandle < 2 ^ 32) (m : HandleMap)
    (hshift : m.handleZerosPrefixBitLength = (new maxHandle).handleZerosPrefixBitLength)
    (hdepth : m.depth = (new maxHandle).depth) (hmax : m.allocator.maxHandle = maxHandle) :
    (∀ h < maxHandle, (U32.rotateLeft · 8)^[m.depth - 1] (m.pathOf h) = h) ∧
    (∀ h₁ < maxHandle, ∀ h₂ < maxHandle, m.pathIndices h₁ = m.pathIndices h₂ → h₁ = h₂) ∧
    (∀ h, m.pathIndices h = m.tableIndices h ++ [m.leafIndex h] ∧
      m.leafTableForHandle h = (descend m.mem (m.tableIndices h) m.table).map (·, m.leafIndex h)) ∧
    (∀ value h allocator table m', m.allocator.nextHandle = some (h, allocator) →
      descendCreate (m.tableIndices h) m.table { m with allocator } = (table, m') →
      m.insert value =
        if m'.mem table (m.leafIndex h) = 0 then
          .ok (some h, { m' with mem := m'.mem.write table (m.leafIndex h) value })
        else .error .panic) := by
  obtain ⟨hd, hshift', hbound⟩ := new_depth hpos hlt
  rw [← hdepth] at hd hshift' hbound
  rw [← hshift] at hshift'
  have hrestore : ∀ h < maxHandle, (U32.rotateLeft · 8)^[m.depth - 1] (m.pathOf h) = h :=
    fun h hh => iterate_pathOf hd rfl hshift' (by omega)
  refine ⟨hrestore, ?_, fun h => ⟨pathIndices_eq_append hd.1 h, leafTableForHandle_eq m h⟩, ?_⟩
  · intro h₁ hh₁ h₂ hh₂ heq
    exact eq_of_pathIndices_eq hd rfl hshift' (by omega) (by omega) heq
  · -- the handle returned is the allocated one after all its rotations
    intro value h allocator table m' hnext hwalk
    have hh : h < maxHandle := hmax ▸ HandleAllocator.nextHandle_lt hnext
    rw [insert_of_nextHandle hnext hwalk, hrestore h hh]

/-- A map of 300 handles, two levels deep. -/
theorem handle_path_returns_allocated_handle_three_hundred :
    0 < 300 ∧ 300 < 2 ^ 32 ∧
    (∀ h < 300, (U32.rotateLeft · 8)^[(new 300).depth - 1] ((new 300).pathOf h) = h) ∧
    (∀ h₁ < 300, ∀ h₂ < 300, (new 300).pathIndices h₁ = (new 300).pathIndices h₂ → h₁ = h₂) ∧
    (∀ h, (new 300).pathIndices h = (new 300).tableIndices h ++ [(new 300).leafIndex h] ∧
      (new 300).leafTableForHandle h =
        (descend (new 300).mem ((new 300).tableIndices h) (new 300).table).map
          (·, (new 300).leafIndex h)) ∧
    (∀ value h allocator table m', (new 300).allocator.nextHandle = some (h, allocator) →
      descendCreate ((new 300).tableIndices h) (new 300).table { new 300 with allocator } =
        (table, m') →
      (new 300).insert value =
        if m'.mem table ((new 300).leafIndex h) = 0 then
          .ok (some h, { m' with mem := m'.mem.write table ((new 300).leafIndex h) value })
        else .error .panic) :=
  ⟨by decide, by decide,
    handle_path_returns_allocated_handle 300 (by decide) (by decide) (new 300) rfl rfl rfl⟩

/-! ## Handles past `max_handle` -/

/-- With `max_handle = 10` the tree has one level and a handle's slot is its low byte, so the
handle `256`, never handed out, reaches the slot of handle `0`. After `insert` returns handle
`0`, `get(256)` returns its value; `remove(256)` empties its slot and returns `None`, as
`free_handle(256)` fails, and leaves handle `0` allocated (the word is `1`) with no value. -/
theorem get_aliases_out_of_range_handle :
    (do
      let (h, m) ← (HandleMap.new 10).insert 0x1000
      pure (h, m.get 256, (m.remove 256).1, (m.remove 256).2.get 0,
        (m.remove 256).2.allocator.bits) : Except (Fault Empty) _) =
      .ok (some 0, some 0x1000, none, none, [1]) := by
  decide +kernel

end HandleMap

end EndlessHole.Collections
