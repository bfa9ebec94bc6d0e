import EndlessHole.Lib.Fault
import EndlessHole.Lib.Usize

/-!
# Pages, addresses and errors of the memory module

The vocabulary of `kernel_core/src/memory/mod.rs` that the allocators and the page tables share:

* `PageSize` and its length in bytes (`usize::from(page_size)`);
* `Error`, the errors of page allocation;
* the two conversions between kernel pointers and `PhysicalAddress`: `PhysicalAddress.ofPtr`
  clears the top 16 bits, and `PhysicalAddress.toPtr` sets them (the kernel build; the test build
  leaves them as they are);
* `PageAllocator σ`, the `PageAllocator` trait as a pair of state transformers over the state `σ`
  of whatever implements it.
-/

namespace EndlessHole.Memory

/-- The size of a single memory page. -/
inductive PageSize where
  | fourKiB
  | sixteenKiB
  deriving Repr, DecidableEq

namespace PageSize

/-- `usize::from(page_size)`: the length of a page in bytes. -/
def bytes : PageSize → Nat
  | fourKiB => 0x1000
  | sixteenKiB => 0x4000

@[simp] theorem bytes_fourKiB : fourKiB.bytes = 4096 := rfl

@[simp] theorem bytes_sixteenKiB : sixteenKiB.bytes = 16384 := rfl

theorem bytes_pos (p : PageSize) : 0 < p.bytes := by
  cases p <;> decide

theorem bytes_mod_eight (p : PageSize) : p.bytes % 8 = 0 := by
  cases p <;> decide

end PageSize

/-- Errors that arise due to memory related operations. -/
inductive Error where
  | outOfMemory
  | invalidSize
  | unknownPtr
  deriving Repr, DecidableEq

def addressMask : Nat := 0x0000_ffff_ffff_ffff

def kernelTag : Nat := 0xffff_0000_0000_0000

/-- `PhysicalPointer::from(*mut T)`: the pointer with its top 16 bits cleared. -/
def PhysicalAddress.ofPtr (p : Nat) : Nat := p &&& addressMask

/-- `<*mut T>::from(PhysicalPointer)` in the kernel build: the address with the kernel tag. -/
def PhysicalAddress.toPtr (a : Nat) : Nat := a ||| kernelTag

theorem PhysicalAddress.toPtr_of_lt {a : Nat} (h : a < 2 ^ 48) : toPtr a = kernelTag + a := by
  have hk : kernelTag = 2 ^ 48 * 0xffff := by decide
  rw [toPtr, Nat.or_comm, hk, Nat.two_pow_add_eq_or_of_lt h]

/-- A pointer in the kernel's half of the address space survives the trip to a physical address
and back. -/
theorem PhysicalAddress.toPtr_ofPtr {p : Nat} (h₁ : kernelTag ≤ p) (h₂ : p < kernelTag + 2 ^ 48) :
    toPtr (ofPtr p) = p := by
  have hmask : addressMask = 2 ^ 48 - 1 := by decide
  have hk : kernelTag = 2 ^ 48 * 0xffff := by decide
  rw [ofPtr, hmask, Nat.and_two_pow_sub_one_eq_mod, toPtr_of_lt (Nat.mod_lt _ (by decide))]
  rw [hk] at h₁ h₂ ⊢
  omega

/-- The `PageAllocator` trait over the state `σ` of an implementation: `page_size`, and
`allocate` and `free` as transformers of that state; an implementation's `free` may panic. -/
structure PageAllocator (σ : Type) where
  pageSize : PageSize
  allocate : σ → Nat → Except Error (Nat × σ)
  free : σ → Nat → Nat → Except (Fault Error) σ

/-- The state of a `MockPageAllocator`: where the next fresh pages start, and the pages handed
out and not yet freed, with their number of pages. -/
structure MockPageAllocator where
  next : Nat
  allocated : List (Nat × Nat)
  deriving Repr, DecidableEq

/-- The tests' `MockPageAllocator` with `max_pages` pages of `page_size`: fresh page-aligned
memory for each request, and a record of what is allocated. -/
def MockPageAllocator.allocator (pageSize : PageSize) (maxPages : Nat) :
    PageAllocator MockPageAllocator where
  pageSize := pageSize
  allocate s numPages :=
    if numPages = 0 then .error .invalidSize
    else if (s.allocated.map Prod.snd).sum + numPages ≤ maxPages then
      .ok (s.next, ⟨s.next + numPages * pageSize.bytes, (s.next, numPages) :: s.allocated⟩)
    else .error .outOfMemory
  free s pages numPages := do
    Fault.ensure (pages != 0) .unknownPtr
    match s.allocated.find? (·.1 == pages) with
    | some entry => do
      -- `assert_eq!(num_pages, num_pages_recorded)`
      Fault.assert (numPages == entry.2)
      .ok { s with allocated := s.allocated.erase entry }
    | none => .error (.error .unknownPtr)

end EndlessHole.Memory
