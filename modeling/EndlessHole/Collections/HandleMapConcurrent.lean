import EndlessHole.Collections.HandleMap
import Mathlib.Logic.Relation

/-!
# The handle map under concurrency

Threads run `insert`, `get` and `remove` on one `HandleMap`, and their atomic steps interleave.
Each step is one atomic operation of the source: a load or a compare-and-swap of a word of the
`HandleAllocator`, or a load, swap or compare-and-swap of a table slot. What a thread computes
between two atomic operations is part of the step before.

A thread is a program counter `Pc` that records what the thread has read so far. `Thread.step`
takes one thread one step; `Step` takes any thread that has not finished one step.

`remove` empties the slot (`take_value`) and only then clears the handle's bit (`free_handle`).
Two removes of one handle can both pass their `take_value`; the second clears the bit, an
`insert` takes the handle again and fills the slot, and then the first clears the bit of the
new value. The next `insert` takes the handle while its slot is full and its assertion fires
(`double_remove_lets_insert_panic`).
-/

namespace EndlessHole.Collections

namespace HandleMap

/-- Where a thread is in its operation: before which atomic step, and with what it has read.
`insLoad` and `insCas` are the load and the compare-and-swap of `next_handle` on a word;
`insWalk`, `getWalk` and `remWalk` load the slot of `path` in `table`, `levels` tables above the
leaf; `insNewTable` is the compare-and-swap of `new_next_level_table`, `insPut` the swap of
`put_value` and `remTake` the swap of `take_value`; `remLoad` and `remCas` are the load and the
compare-and-swap of `free_handle`. `done` holds the result (the handle of `insert`, the value of
`get` and `remove`), and `panicked` is the assertion after `put_value` firing. -/
inductive Pc where
  | insLoad (value wordIndex : Nat)
  | insCas (value wordIndex current : Nat)
  | insWalk (value path levels table : Nat)
  | insNewTable (value path levels table : Nat)
  | insPut (value path table : Nat)
  | getWalk (path levels table : Nat)
  | remWalk (handle path levels table : Nat)
  | remTake (handle table index : Nat)
  | remLoad (handle val : Nat)
  | remCas (handle val current : Nat)
  | done (result : Option Nat)
  | panicked
  deriving Repr, DecidableEq

namespace Pc

def Running : Pc → Prop
  | done _ | panicked => False
  | _ => True

instance : DecidablePred Running := fun pc => by
  cases pc <;> simp only [Running] <;> infer_instance

/-- `insert` at a table of its walk: the leaf slot's `put_value` once no level is left. -/
def insAt (value path levels table : Nat) : Pc :=
  if levels = 0 then insPut value path table else insWalk value path levels table

/-- `remove` at a table of its walk: the leaf slot's `take_value` once no level is left. -/
def remAt (handle path levels table : Nat) : Pc :=
  if levels = 0 then remTake handle table (path % 256) else remWalk handle path levels table

/-- `next_handle` after reading `current` from the word `wordIndex`: try to claim its lowest
zero bit, or go on to the next word. -/
def insRead (maxHandle value wordIndex current : Nat) : Pc :=
  match HandleAllocator.claimBit maxHandle wordIndex current with
  | some _ => insCas value wordIndex current
  | none => insLoad value (wordIndex + 1)

/-- `free_handle` after reading `current`: `NotAllocated` makes `remove` return `None`. -/
def remRead (handle val current : Nat) : Pc :=
  match HandleAllocator.clearBit handle current with
  | .ok _ => remCas handle val current
  | .error _ => done none

end Pc

open Pc

/-- An operation a thread runs on the map. -/
inductive Op where
  | insert (value : Nat)
  | get (handle : Nat)
  | remove (handle : Nat)
  deriving Repr, DecidableEq

/-- A thread about to run `op` on `m`. -/
def Op.start (m : HandleMap) : Op → Pc
  | .insert value => insLoad value 0
  | .get handle => getWalk (m.pathOf handle) (m.depth - 1) m.table
  | .remove handle => remAt handle (m.pathOf handle) (m.depth - 1) m.table

/-- One atomic step of a thread at `pc` on the shared state `m`. -/
def Thread.step (m : HandleMap) : Pc → Pc × HandleMap
  | insLoad value wordIndex =>
    match m.allocator.bits[wordIndex]? with
    | none => (done none, m)
    | some current => (insRead m.allocator.maxHandle value wordIndex current, m)
  | insCas value wordIndex current =>
    let word := m.allocator.bits.getD wordIndex 0
    match HandleAllocator.claimBit m.allocator.maxHandle wordIndex current with
    | some (handle, new) =>
      if word = current then
        (insAt value (m.pathOf handle) (m.depth - 1) m.table,
          { m with allocator := { m.allocator with bits := m.allocator.bits.set wordIndex new } })
      else (insRead m.allocator.maxHandle value wordIndex word, m)
    | none => (insLoad value (wordIndex + 1), m)
  | insWalk value path levels table =>
    let next := m.mem table (path % 256)
    if next ≠ 0 then (insAt value (U32.rotateLeft path 8) (levels - 1) next, m)
    else (insNewTable value path levels table, m)
  | insNewTable value path levels table =>
    let (next, m) := m.newNextLevelTable table (path % 256)
    (insAt value (U32.rotateLeft path 8) (levels - 1) next, m)
  | insPut value path table =>
    let res := m.mem table (path % 256)
    let m := { m with mem := m.mem.write table (path % 256) value }
    (if res = 0 then done (some path) else panicked, m)
  | getWalk path levels table =>
    let v := m.mem table (path % 256)
    if levels = 0 then (done (if v = 0 then none else some v), m)
    else if v = 0 then (done none, m)
    else (getWalk (U32.rotateLeft path 8) (levels - 1) v, m)
  | remWalk handle path levels table =>
    let next := m.mem table (path % 256)
    if next = 0 then (done none, m)
    else (remAt handle (U32.rotateLeft path 8) (levels - 1) next, m)
  | remTake handle table index =>
    let val := m.mem table index
    let m := { m with mem := m.mem.write table index 0 }
    (if handle < m.allocator.maxHandle then remLoad handle val else done none, m)
  | remLoad handle val =>
    (remRead handle val (m.allocator.bits.getD (handle / Usize.bits) 0), m)
  | remCas handle val current =>
    let wordIndex := handle / Usize.bits
    let word := m.allocator.bits.getD wordIndex 0
    match HandleAllocator.clearBit handle current with
    | .ok new =>
      if word = current then
        (done (if val = 0 then none else some val),
          { m with allocator := { m.allocator with bits := m.allocator.bits.set wordIndex new } })
      else (remRead handle val word, m)
    | .error _ => (done none, m)
  | done r => (done r, m)
  | panicked => (panicked, m)

/-- The handle map and its threads. -/
structure Sys where
  map : HandleMap
  threads : List Pc

/-- Thread `i` takes a step, if it has not finished. -/
def Sys.step (s : Sys) (i : Nat) : Sys :=
  match s.threads[i]? with
  | some pc =>
    if pc.Running then
      let (pc', map) := Thread.step s.map pc
      ⟨map, s.threads.set i pc'⟩
    else s
  | none => s

/-- Some thread takes a step. -/
def Step (s s' : Sys) : Prop := ∃ i, s' = s.step i

/-- The threads take steps in the order `schedule` names them. -/
def Sys.run (s : Sys) (schedule : List Nat) : Sys := schedule.foldl Sys.step s

theorem reach_run (s : Sys) (schedule : List Nat) :
    Relation.ReflTransGen Step s (s.run schedule) := by
  induction schedule generalizing s with
  | nil => exact Relation.ReflTransGen.refl
  | cons i rest ih => exact Relation.ReflTransGen.head ⟨i, rfl⟩ (ih (s.step i))

/-- Threads about to run `ops` on `m`. -/
def Sys.init (m : HandleMap) (ops : List Op) : Sys := ⟨m, ops.map (Op.start m)⟩

/-! ## Two removes of one handle -/

/-- On a map of 10 handles, thread 0 inserts a value at handle `0`. Threads 1 and 2 remove
handle `0`: thread 1 takes the value and stops before `free_handle`; thread 2 finds the slot
empty, clears the bit and returns `None`. Thread 3 inserts, takes handle `0` again and fills the
slot; thread 1 then clears the bit. Once every thread has finished, the slot of handle `0` holds
thread 3's value while its bit is clear. A fifth thread's `insert` takes handle `0` and finds the
slot full: its assertion fires. -/
theorem double_remove_lets_insert_panic :
    (∃ s, Relation.ReflTransGen Step
        (Sys.init (new 10) [.insert 0x1000, .remove 0, .remove 0, .insert 0x2000]) s ∧
      (∀ pc ∈ s.threads, ¬ pc.Running) ∧ s.map.allocator.bits = [0] ∧
      s.map.mem s.map.table 0 = 0x2000) ∧
    (∃ s, Relation.ReflTransGen Step
        (Sys.init (new 10) [.insert 0x1000, .remove 0, .remove 0, .insert 0x2000, .insert 0x3000]) s ∧
      Pc.panicked ∈ s.threads) :=
  ⟨⟨_, reach_run _ [0, 0, 0, 1, 2, 2, 2, 3, 3, 3, 1, 1], by decide +kernel⟩,
    ⟨_, reach_run _ [0, 0, 0, 1, 2, 2, 2, 3, 3, 3, 1, 1, 4, 4, 4], by decide +kernel⟩⟩

end HandleMap

end EndlessHole.Collections
