import EndlessHole.Memory.Basic

/-!
# Page tables

`PageTables` of `kernel_core/src/memory/page_table.rs`: a tree of tables, one page each, of
64-bit entries. The model keeps the memory the tables live in as a map from the address of an
entry to its raw value (`mem`), and the state of the page allocator the tables come from
(`allocator`), which a `PageAllocator σ` transforms.

* `Entry.forTable`, `Entry.forBlock`, `Entry.forPage` and `Entry.decode` build and read raw
  entries, with the panics of their assertions; `MemoryProperties.decode` reads the attribute
  bits back, with the panics of the `From<u64>` conversions.
* `indexForLevel` and `pagesPerEntry` are the address arithmetic of the two granules.
* `Walker.step` is the recursive walk that distributes `count` blocks over the entries of each
  level, creating tables on the way (`Walker.nextTableForEntry`), and hands each entry of the end
  level to the callback. The recursion is on the level, whose index panics past level 4, and the
  loop over the entries of a table is on the number of entries left, where its bounds assertion
  panics.
* `map`, `unmap`, `physicalAddressOf`, `dropTable` and `empty` are the public operations.

Pointers and physical addresses are converted as in the kernel build (`PhysicalAddress.toPtr`).
-/

namespace EndlessHole.Memory

namespace PageTable

/-- Errors that could arise in page table operations. -/
inductive Error where
  | notMapped (address : Nat)
  | alreadyMapped (address : Nat)
  | allocator (source : Memory.Error)
  | invalidCount
  | invalidTag (value : Nat)
  | invalidAlignment (value : Nat)
  deriving Repr, DecidableEq

/-- Cache coherence required for memory shared across cores. -/
inductive Shareability where
  | «local»
  | cluster
  | global
  deriving Repr, DecidableEq

def Shareability.encode : Shareability → Nat
  | «local» => 0b00
  | global => 0b10
  | cluster => 0b11

/-- The types of caching available for memory operations. -/
inductive MemoryKind where
  | normal
  | device
  deriving Repr, DecidableEq

def MemoryKind.encode : MemoryKind → Nat
  | device => 0b000
  | normal => 0b001

/-- The properties given to a particular memory mapping. -/
structure MemoryProperties where
  kind : MemoryKind := .normal
  userSpaceAccess : Bool := false
  writable : Bool := false
  executable : Bool := false
  shareability : Shareability := .global
  deriving Repr, DecidableEq

def bit (b : Bool) : Nat := if b then 1 else 0

/-- The attribute bits of an entry. -/
def MemoryProperties.encode (p : MemoryProperties) : Nat :=
  (bit (!p.executable) <<< 54) ||| (bit (!p.executable) <<< 53) |||
    (p.shareability.encode <<< 8) ||| (bit (!p.writable) <<< 7) |||
    (bit p.userSpaceAccess <<< 6) ||| (p.kind.encode <<< 2)

/-- `impl From<u64> for Shareability`: an unknown flag panics. -/
def Shareability.ofU64 : Nat → Except (Fault Error) Shareability
  | 0b00 => pure .local
  | 0b10 => pure .global
  | 0b11 => pure .cluster
  | _ => throw .panic

/-- `impl From<u64> for MemoryKind`: an unknown kind panics. -/
def MemoryKind.ofU64 : Nat → Except (Fault Error) MemoryKind
  | 0b000 => pure .device
  | 0b001 => pure .normal
  | _ => throw .panic

/-- `MemoryProperties::decode`: the attribute bits of a raw entry, read in the order of the
fields of the struct expression. -/
def MemoryProperties.decode (rawEntry : Nat) : Except (Fault Error) MemoryProperties := do
  let executable := (rawEntry >>> 54) &&& 0x1 == 0
  let shareability ← Shareability.ofU64 ((rawEntry >>> 8) &&& 0b11)
  let writable := (rawEntry >>> 7) &&& 0x1 == 0
  let userSpaceAccess := (rawEntry >>> 6) &&& 0x1 == 1
  let kind ← MemoryKind.ofU64 ((rawEntry >>> 2) &&& 0b111)
  pure { executable, shareability, writable, userSpaceAccess, kind }

/-- The size of the granule used in a mapping operation. -/
inductive MapBlockSize where
  | page
  | smallBlock
  | largeBlock
  deriving Repr, DecidableEq

/-- `length_in_pages`: the length of a block in pages, if the page size supports it. -/
def MapBlockSize.lengthInPages (size : MapBlockSize) (pageSize : PageSize) : Option Nat :=
  let entriesPerPage := pageSize.bytes / 8
  match size with
  | .page => some 1
  | .smallBlock => some entriesPerPage
  | .largeBlock => if pageSize = .fourKiB then some (entriesPerPage * entriesPerPage) else none

/-- `length_in_bytes`: the length of a block in bytes, if the page size supports it. -/
def MapBlockSize.lengthInBytes (size : MapBlockSize) (pageSize : PageSize) : Option Nat :=
  (size.lengthInPages pageSize).map fun s => s * pageSize.bytes

/-- The bits of a raw entry that hold an address. -/
def addressBits : Nat := 0x0000_ffff_ffff_f000

/-- A raw entry, read: what the entry points to. -/
inductive DecodedEntry where
  | empty
  | table (address : Nat)
  | block (address : Nat)
  | page (address : Nat)
  deriving Repr, DecidableEq

namespace Entry

def empty : Nat := 0

def forTable (tableAddress : Nat) : Except (Fault Error) Nat := do
  Fault.assert (tableAddress &&& 0xfff == 0)
  pure (0b11 ||| (tableAddress &&& addressBits))

/-- `Entry::for_block`, with the access flag. -/
def forBlock (baseAddress : Nat) (properties : MemoryProperties) : Except (Fault Error) Nat := do
  Fault.assert (baseAddress &&& 0xfff == 0)
  pure (0b01 ||| baseAddress ||| properties.encode ||| (1 <<< 10))

def forPage (baseAddress : Nat) (properties : MemoryProperties) : Except (Fault Error) Nat := do
  Fault.assert (baseAddress &&& 0xfff == 0)
  pure (0b11 ||| baseAddress ||| properties.encode ||| (1 <<< 10))

/-- `Entry::decode`: the entry as it occurs at `level`; an invalid type panics. -/
def decode (raw level : Nat) : Except (Fault Error) DecodedEntry :=
  let address := raw &&& addressBits
  match raw &&& 0b11 with
  | 0b00 => pure .empty
  | 0b11 => pure (if level = 3 then .page address else .table address)
  | 0b01 => if level ≤ 2 then pure (.block address) else throw .panic
  | _ => throw .panic

end Entry

/-- `addr.bit_range(msb, lsb)`: the bits `msb` down to `lsb` of `addr`. -/
def bitRange (addr msb lsb : Nat) : Nat :=
  (addr >>> lsb) % 2 ^ (msb - lsb + 1)

/-- `index_for_level`: the index into the table at `level` for `address`. -/
def indexForLevel (address level : Nat) (pageSize : PageSize) : Except (Fault Error) Nat :=
  match level, pageSize with
  | 4, .fourKiB => pure (bitRange address 11 0)
  | 3, .fourKiB => pure (bitRange address 20 12)
  | 2, .fourKiB => pure (bitRange address 29 21)
  | 1, .fourKiB => pure (bitRange address 38 30)
  | 0, .fourKiB => pure (bitRange address 47 39)
  | 4, .sixteenKiB => pure (bitRange address 13 0)
  | 3, .sixteenKiB => pure (bitRange address 24 14)
  | 2, .sixteenKiB => pure (bitRange address 35 25)
  | 1, .sixteenKiB => pure (bitRange address 46 36)
  | 0, .sixteenKiB => pure (bitRange address 47 47)
  | _, _ => throw .panic

/-- `pages_per_entry`: the number of pages a single entry at `level` represents. -/
def pagesPerEntry (level : Nat) (pageSize : PageSize) : Except (Fault Error) Nat :=
  match pageSize, level with
  | .fourKiB, 0 => pure (512 * 512 * 512)
  | .fourKiB, 1 => pure (512 * 512)
  | .fourKiB, 2 => pure 512
  | .fourKiB, 3 => pure 1
  -- the level 0 table only has two entries
  | .sixteenKiB, 0 => pure (2 * 2048 * 2048)
  | .sixteenKiB, 1 => pure (2048 * 2048)
  | .sixteenKiB, 2 => pure 2048
  | .sixteenKiB, 3 => pure 1
  | _, _ => throw .panic

end PageTable

open PageTable

/-- The state of a `PageTables`: the memory holding the tables, by entry address, and the state
of the page allocator. -/
structure PageTables (σ : Type) where
  allocator : σ
  mem : Nat → Nat
  entriesPerPage : Nat
  root : Nat
  pageSize : PageSize
  highTag : Bool

namespace PageTables

variable {σ : Type} (P : PageAllocator σ)

/-- The memory with the `len` bytes at `ptr` set to zero. -/
def zeroRange (mem : Nat → Nat) (ptr len : Nat) : Nat → Nat :=
  fun x => if ptr ≤ x ∧ x < ptr + len then 0 else mem x

/-- `PageAllocator::allocate_zeroed`: allocate, then clear every byte of the pages. -/
def allocateZeroed (pt : PageTables σ) (numPages : Nat) :
    Except Memory.Error (Nat × PageTables σ) := do
  let (pages, s) ← P.allocate pt.allocator numPages
  let mem := zeroRange pt.mem (PhysicalAddress.toPtr pages) (numPages * P.pageSize.bytes)
  pure (pages, { pt with allocator := s, mem := mem })

def write (pt : PageTables σ) (entryPtr value : Nat) : PageTables σ :=
  { pt with mem := Function.update pt.mem entryPtr value }

/-- `Walker`: what the walk does at the end level. `f` gives the raw entry that the callback
writes for the block at a physical address (`map` writes a block or page entry, `unmap` an
empty one). -/
structure Walker where
  endLevel : Nat
  blockSizeInBytes : Nat
  blockSizeInPages : Nat
  createOnEmpty : Bool
  f : Nat → Except (Fault PageTable.Error) Nat

namespace Walker

variable (w : Walker)

/-- `Walker::next_table_for_entry`: the table the entry at `entryPtr` points to, created when
the entry is empty and the walk may create tables. -/
def nextTableForEntry (pt : PageTables σ) (level address entryPtr : Nat) :
    Except (Fault PageTable.Error) (Nat × PageTables σ) := do
  match ← Entry.decode (pt.mem entryPtr) level with
  | .empty =>
    if w.createOnEmpty then
      match allocateZeroed P pt 1 with
      | .error e => throw (.error (.allocator e))
      | .ok (nextTable, pt') =>
        let e ← Entry.forTable nextTable
        pure (PhysicalAddress.toPtr nextTable, pt'.write entryPtr e)
    else throw (.error (.notMapped address))
  | .table tablePointer => pure (PhysicalAddress.toPtr tablePointer, pt)
  | .block _ | .page _ => throw (.error (.alreadyMapped address))

/-- The loop of the end level: the callback on the `count` entries from `startIndex` on. -/
def leafLoop (pt : PageTables σ) (tableRoot startIndex physicalStart i : Nat) :
    (count : Nat) → Except (Fault PageTable.Error) (PageTables σ)
  | 0 => pure pt
  | n + 1 => do
    let e ← w.f (physicalStart + i * w.blockSizeInBytes)
    leafLoop (pt.write (tableRoot + 8 * (startIndex + i)) e) tableRoot startIndex physicalStart
      (i + 1) n

/-- The loop of `Walker::step` above the end level, distributing the blocks over the entries
from `index` on; `entriesLeft` is `entries_per_page - index`, and `child` is the step at the
next level. -/
def entryLoop
    (child : PageTables σ → (tableRoot virtualStart physicalStart count : Nat) →
      Except (Fault PageTable.Error) (PageTables σ))
    (pt : PageTables σ) (level tableRoot virtualStart physicalStart count
      numberOfBlocksPerEntryAtThisLevel : Nat) :
    (entriesLeft index numBlocks : Nat) → Except (Fault PageTable.Error) (PageTables σ)
  | entriesLeft, index, numBlocks =>
    if numBlocks < count then
      match entriesLeft with
      | 0 => do
        Fault.assert (index < pt.entriesPerPage)
        throw .panic
      | entriesLeft + 1 => do
        Fault.assert (index < pt.entriesPerPage)
        let entryPtr := tableRoot + 8 * index
        let byteOffset := numBlocks * w.blockSizeInBytes
        let nextVs := virtualStart + byteOffset
        let (nextTable, pt) ← w.nextTableForEntry P pt level nextVs entryPtr
        let startAtNextLevel ← indexForLevel nextVs (level + 1) pt.pageSize
        let actualBlocksInNextLevel :=
          min (count - numBlocks) (numberOfBlocksPerEntryAtThisLevel - startAtNextLevel)
        let pt ← child pt nextTable nextVs (physicalStart + byteOffset) actualBlocksInNextLevel
        entryLoop child pt level tableRoot virtualStart physicalStart count
          numberOfBlocksPerEntryAtThisLevel entriesLeft (index + 1)
          (numBlocks + actualBlocksInNextLevel)
    else pure pt

/-- `Walker::step`. `levelsLeft` is `5 - level`: `index_for_level` panics at level 5. -/
def step : (levelsLeft : Nat) → (pt : PageTables σ) →
    (level tableRoot virtualStart physicalStart count : Nat) →
    Except (Fault PageTable.Error) (PageTables σ)
  | 0, _, _, _, _, _, _ => throw .panic
  | levelsLeft + 1, pt, level, tableRoot, virtualStart, physicalStart, count => do
    Fault.assert (0 < count)
    let startIndex ← indexForLevel virtualStart level pt.pageSize
    if level < w.endLevel then
      let perEntry ← pagesPerEntry level pt.pageSize
      let numberOfBlocksPerEntryAtThisLevel := perEntry / w.blockSizeInPages
      w.entryLoop P (fun pt => step levelsLeft pt (level + 1)) pt level tableRoot virtualStart
        physicalStart count numberOfBlocksPerEntryAtThisLevel (pt.entriesPerPage - startIndex)
        startIndex 0
    else
      let endIndex := startIndex + count
      Fault.assert (endIndex ≤ pt.entriesPerPage)
      w.leafLoop pt tableRoot startIndex physicalStart 0 count

end Walker

variable (pt : PageTables σ)

/-- `for_each_entry_of_size`: check the request, then walk from the root. -/
def forEachEntryOfSize (virtualStart physicalStart count : Nat) (size : MapBlockSize)
    (createOnEmpty : Bool) (f : Nat → Except (Fault PageTable.Error) Nat) :
    Except (Fault PageTable.Error) (PageTables σ) := do
  let endLevel ← match size with
    | .page => pure 3
    | .smallBlock => pure 2
    | .largeBlock => if pt.pageSize = .fourKiB then pure 1 else throw .panic
  let some blockSizeInPages := size.lengthInPages pt.pageSize | throw .panic
  let blockSizeInBytes := pt.pageSize.bytes * blockSizeInPages
  Fault.ensure (0 < count && count * blockSizeInPages < 2 ^ 64 && count * blockSizeInPages < 2 ^ 48)
    .invalidCount
  Fault.ensure (virtualStart % blockSizeInBytes == 0) (.invalidAlignment virtualStart)
  Fault.ensure (physicalStart % blockSizeInBytes == 0) (.invalidAlignment physicalStart)
  let w : Walker := ⟨endLevel, blockSizeInBytes, blockSizeInPages, createOnEmpty, f⟩
  w.step P 5 pt 0 pt.root virtualStart physicalStart count

/-- `is_in_kernel_space`: the top 16 bits are all set. -/
def isInKernelSpace (address : Nat) : Bool :=
  address &&& kernelTag == kernelTag

def map (virtualStart physicalStart count : Nat) (size : MapBlockSize)
    (properties : MemoryProperties) : Except (Fault PageTable.Error) (PageTables σ) := do
  Fault.ensure (isInKernelSpace virtualStart == pt.highTag) (.invalidTag virtualStart)
  pt.forEachEntryOfSize P virtualStart physicalStart count size true fun addr =>
    match size with
    | .page => Entry.forPage addr properties
    | _ => Entry.forBlock addr properties

def unmap (virtualStart count : Nat) (size : MapBlockSize) :
    Except (Fault PageTable.Error) (PageTables σ) := do
  Fault.ensure (isInKernelSpace virtualStart == pt.highTag) (.invalidTag virtualStart)
  pt.forEachEntryOfSize P virtualStart 0 count size false fun _ => pure Entry.empty

/-- The mask of the offset inside a block or page mapped at `level`; other levels are
unreachable. -/
def offsetMask (pageSize : PageSize) (level : Nat) : Except (Fault PageTable.Error) Nat :=
  match pageSize, level with
  | .fourKiB, 3 => pure 0xfff
  | .fourKiB, 2 => pure 0x1f_ffff
  | .fourKiB, 1 => pure 0x3fff_ffff
  | .sixteenKiB, 3 => pure 0x3fff
  | .sixteenKiB, 2 => pure 0x1ff_ffff
  | _, _ => throw .panic

/-- The loop of `physical_address_of`, from `level` to level 3. -/
def lookup (p : Nat) (table level : Nat) : (levelsLeft : Nat) → Except (Fault PageTable.Error) (Option Nat)
  | 0 => pure none
  | levelsLeft + 1 => do
    let index ← indexForLevel p level pt.pageSize
    match ← Entry.decode (pt.mem (table + 8 * index)) level with
    | .empty => pure none
    | .table tablePtr => lookup p (PhysicalAddress.toPtr tablePtr) (level + 1) levelsLeft
    | .block blockBasePtr | .page blockBasePtr => do
      let offsetMask ← offsetMask pt.pageSize level
      pure (some (blockBasePtr + (p &&& offsetMask)))

/-- `PageTables::physical_address_of`: the physical address `p` is mapped to, if any. -/
def physicalAddressOf (p : Nat) : Except (Fault PageTable.Error) (Option Nat) :=
  if isInKernelSpace p != pt.highTag then pure none
  else pt.lookup p pt.root 0 4

def fromExisting (allocator : σ) (mem : Nat → Nat) (rootTableAddress : Nat) (highTag : Bool) :
    Except (Fault PageTable.Error) (PageTables σ) := do
  let root := PhysicalAddress.toPtr rootTableAddress
  Fault.assert (root != 0)
  Fault.assert (root % P.pageSize.bytes == 0)
  pure ⟨allocator, mem, P.pageSize.bytes / 8, root, P.pageSize, highTag⟩

/-- `PageTables::empty`: a zeroed root table from the allocator. -/
def empty (allocator : σ) (mem : Nat → Nat) :
    Except (Fault PageTable.Error) (PageTables σ) :=
  let pt0 : PageTables σ := ⟨allocator, mem, P.pageSize.bytes / 8, 0, P.pageSize, false⟩
  match allocateZeroed P pt0 1 with
  | .error e => throw (.error (.allocator e))
  | .ok (root, pt1) => fromExisting P pt1.allocator pt1.mem root false

/-- `drop_table`: free the tables below each table entry, then the table itself; a failing
free panics (`unwrap`). `levelsLeft` is `4 - level`: no entry decodes as a table at level 3. -/
def dropTable : (levelsLeft : Nat) → (pt : PageTables σ) → (level table : Nat) →
    Except (Fault PageTable.Error) (PageTables σ)
  | 0, pt, _, _ => pure pt
  | levelsLeft + 1, pt, level, table => do
    let pt ← List.foldlM (fun pt i => do
        match ← Entry.decode (pt.mem (table + 8 * i)) level with
        | .table nextTable => dropTable levelsLeft pt (level + 1) (PhysicalAddress.toPtr nextTable)
        | _ => pure pt) pt (List.range pt.entriesPerPage)
    match P.free pt.allocator (PhysicalAddress.ofPtr table) 1 with
    | .ok s => pure { pt with allocator := s }
    | .error _ => throw .panic

def drop : Except (Fault PageTable.Error) (PageTables σ) :=
  dropTable P 4 pt 0 pt.root

/-- The tables reachable from `table`, a table at `level`, through table entries: `table`
first, then those below each of its entries in turn. -/
def tablesBelow : (levelsLeft level table : Nat) → List Nat
  | 0, _, _ => []
  | levelsLeft + 1, level, table =>
    table :: (List.range pt.entriesPerPage).flatMap fun i =>
      match Entry.decode (pt.mem (table + 8 * i)) level with
      | .ok (.table nextTable) => tablesBelow levelsLeft (level + 1) (PhysicalAddress.toPtr nextTable)
      | _ => []

def reachableTables : List Nat :=
  pt.tablesBelow 4 0 pt.root

/-! ## Two walks that go wrong -/

/-- The tests' mock allocator of 128 pages of 4 KiB, at the start of a run. -/
def mock : PageAllocator MockPageAllocator := MockPageAllocator.allocator .fourKiB 128

def mockStart : MockPageAllocator := ⟨0x10_0000, []⟩

/-- Mapping the two pages at `0x3fff_f000`, one on each side of the 1 GiB boundary, panics. The
request passes every check of `map`. At level 1 the walk gives the entry
`min(2, 512 * 512 - 511)` blocks, subtracting the level-2 index `511` from a number of pages;
the level-2 table, entered at index 511, then runs out of entries at index 512 with one block
left, and `assert!(index < entries_per_page)` fails. -/
theorem map_across_gib_boundary_panics :
    Fault.IsPanic ((PageTables.empty mock mockStart fun _ => 0).bind fun pt =>
      pt.map mock 0x3fff_f000 0 2 .page {}) := by
  decide +kernel

/-- Mapping a small block over a page mapped earlier overwrites the level-2 table entry that led
to the page's level-3 table. That table stays allocated but is no longer reachable, so dropping
the tables frees the other three and leaks it. -/
theorem map_block_over_table_leaks_table :
    (do
      let pt ← PageTables.empty mock mockStart fun _ => 0
      let pt ← pt.map mock 0 0 1 .page {}
      let pt ← pt.map mock 0 0 1 .smallBlock {}
      let tables := pt.reachableTables.map PhysicalAddress.ofPtr
      let dropped ← pt.drop mock
      pure (pt.allocator.allocated.map Prod.fst, tables, dropped.allocator.allocated.map Prod.fst) :
      Except (Fault PageTable.Error) _) =
      .ok ([0x10_3000, 0x10_2000, 0x10_1000, 0x10_0000], [0x10_0000, 0x10_1000, 0x10_2000],
        [0x10_3000]) := by
  decide +kernel

end PageTables

end EndlessHole.Memory
