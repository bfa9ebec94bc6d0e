import EndlessHole.Lib.Bits
import Mathlib.Data.Set.Insert

/-!
# The handle allocator

`HandleAllocator` of `kernel_core/src/collections/handle_allocator.rs`: a bit set of
`max_handle` bits in `usize` words, a set bit for each handle handed out. Handles are bit
indices.

Both operations are loops of compare-and-swap on one word. Each attempt is a function of the word
it read: `claimBit` (an attempt of `next_handle`) and `clearBit` (an attempt of `free_handle`).
The sequential operations `nextHandle` and `freeHandle` are those attempts when every
compare-and-swap succeeds; the concurrent model of the handle map takes the attempts one at a
time.
-/

namespace EndlessHole.Collections

namespace HandleAllocator

/-- The errors of `free_handle`. -/
inductive Error where
  | notAllocated
  | outOfBounds
  deriving Repr, DecidableEq

end HandleAllocator

structure HandleAllocator where
  bits : List Nat
  maxHandle : Nat
  deriving Repr, DecidableEq

namespace HandleAllocator

/-- `HandleAllocator::new`: `max_handle.div_ceil(usize::BITS)` zero words. -/
def new (maxHandle : Nat) : HandleAllocator :=
  ⟨List.replicate ((maxHandle + Usize.bits - 1) / Usize.bits) 0, maxHandle⟩

/-- One attempt of `next_handle` at the word `wordIndex` that it read as `current`: the handle of
the word's lowest zero bit and the word with that bit set, or `none` (go on to the next word)
when the word is full or that handle is past `max_handle`. -/
def claimBit (maxHandle wordIndex current : Nat) : Option (Nat × Nat) :=
  if current = Usize.max then none
  else
    let zeroBit := Usize.trailingZeros (Usize.max - current)
    let bitIndex := wordIndex * Usize.bits + zeroBit
    if bitIndex ≥ maxHandle then none
    else some (bitIndex, current ||| 2 ^ zeroBit)

/-- `next_handle` over the words from `wordIndex` on, when no other thread writes them. -/
def nextHandleFrom (maxHandle : Nat) : Nat → List Nat → Option (Nat × List Nat)
  | _, [] => none
  | wordIndex, current :: rest =>
    match claimBit maxHandle wordIndex current with
    | some (handle, new) => some (handle, new :: rest)
    | none => (nextHandleFrom maxHandle (wordIndex + 1) rest).map
        fun (handle, rest') => (handle, current :: rest')

def nextHandle (a : HandleAllocator) : Option (Nat × HandleAllocator) :=
  (nextHandleFrom a.maxHandle 0 a.bits).map fun (handle, bits) => (handle, { a with bits })

theorem nextHandleFrom_lt {maxHandle : Nat} :
    ∀ {wordIndex : Nat} {bits : List Nat} {handle : Nat} {bits' : List Nat},
      nextHandleFrom maxHandle wordIndex bits = some (handle, bits') → handle < maxHandle := by
  intro wordIndex bits
  induction bits generalizing wordIndex with
  | nil =>
    intro handle bits' h
    cases h
  | cons current rest ih =>
    intro handle bits' h
    rw [nextHandleFrom] at h
    split at h
    · rename_i handle' new hclaim
      cases h
      unfold claimBit at hclaim
      split at hclaim
      · cases hclaim
      · dsimp only at hclaim
        split at hclaim
        · cases hclaim
        · cases hclaim
          omega
    · obtain ⟨⟨handle', rest'⟩, hrest, h⟩ := Option.map_eq_some_iff.1 h
      cases h
      exact ih hrest

theorem nextHandle_lt {a a' : HandleAllocator} {handle : Nat}
    (h : a.nextHandle = some (handle, a')) : handle < a.maxHandle := by
  obtain ⟨⟨handle', bits⟩, hfrom, h⟩ := Option.map_eq_some_iff.1 h
  cases h
  exact nextHandleFrom_lt hfrom

/-- One attempt of `free_handle` on the word of `handle`, read as `current`: the word with the
handle's bit cleared, or `NotAllocated` when the bit is clear. -/
def clearBit (handle current : Nat) : Except Error Nat :=
  let mask := 2 ^ (handle % Usize.bits)
  if current &&& mask ≠ 0 then .ok (current &&& (Usize.max - mask)) else .error .notAllocated

/-- `free_handle`, when no other thread writes the word. The word is in range because
`handle < max_handle ≤ usize::BITS * bits.len()`. -/
def freeHandle (a : HandleAllocator) (handle : Nat) : Except Error HandleAllocator :=
  if handle < a.maxHandle then
    let wordIndex := handle / Usize.bits
    (clearBit handle (a.bits.getD wordIndex 0)).map
      fun word => { a with bits := a.bits.set wordIndex word }
  else .error .outOfBounds

/-! ## The words as a set of handles -/

/-- Bit `k` of the words `ws`, counting from bit 0 of the first word. -/
def bitAt (ws : List Nat) (k : Nat) : Bool :=
  (ws.getD (k / Usize.bits) 0).testBit (k % Usize.bits)

/-- `handle` is allocated: its bit is set. -/
def allocated (a : HandleAllocator) (handle : Nat) : Bool := bitAt a.bits handle

theorem bitAt_cons (c : Nat) (rest : List Nat) (k : Nat) :
    bitAt (c :: rest) k = if k < 64 then c.testBit k else bitAt rest (k - 64) := by
  unfold bitAt
  rw [Usize.bits_eq]
  split
  · rename_i hk
    rw [Nat.div_eq_of_lt hk, Nat.mod_eq_of_lt hk]
    rfl
  · rename_i hk
    rw [show k / 64 = (k - 64) / 64 + 1 by omega, show k % 64 = (k - 64) % 64 by omega]
    rfl

theorem bitAt_set {ws : List Nat} {i : Nat} (hi : i < ws.length) (w k : Nat) :
    bitAt (ws.set i w) k = if k / 64 = i then w.testBit (k % 64) else bitAt ws k := by
  unfold bitAt
  rw [Usize.bits_eq, List.getD_eq_getElem?_getD, List.getElem?_set]
  split
  · rename_i hk
    rw [if_pos hk.symm]
    rfl
  · rename_i hk
    rw [if_neg (Ne.symm hk), List.getD_eq_getElem?_getD]

theorem claimBit_some {maxHandle wordIndex current handle new : Nat} (hc : current < 2 ^ 64)
    (h : claimBit maxHandle wordIndex current = some (handle, new)) :
    ∃ z < 64, handle = wordIndex * 64 + z ∧ handle < maxHandle ∧ current.testBit z = false ∧
      (∀ j < z, current.testBit j = true) ∧ new = current ||| 2 ^ z := by
  unfold claimBit at h
  split at h
  · cases h
  · rename_i hfull
    have hne : Usize.max - current ≠ 0 := by
      rw [Usize.max_eq] at hfull ⊢
      omega
    obtain ⟨hz, hbit, hbelow⟩ :=
      Usize.trailingZeros_spec hne (by rw [Usize.max_eq]; omega)
    dsimp only at h
    split at h
    · cases h
    · rename_i hlt
      cases h
      rw [Usize.testBit_max_sub hc] at hbit
      refine ⟨_, hz, by rw [Usize.bits_eq], by omega, by simpa [hz] using hbit, ?_, rfl⟩
      intro j hj
      have hj' := hbelow j hj
      rw [Usize.testBit_max_sub hc] at hj'
      simpa [show j < 64 by omega] using hj'

theorem claimBit_none {maxHandle wordIndex current : Nat} (hc : current < 2 ^ 64)
    (h : claimBit maxHandle wordIndex current = none) :
    ∀ j < 64, wordIndex * 64 + j < maxHandle → current.testBit j = true := by
  intro j hj hlt
  unfold claimBit at h
  split at h
  · -- a full word
    rename_i hfull
    rw [hfull, Usize.max_eq, Nat.testBit_two_pow_sub_one]
    simpa using hj
  · rename_i hfull
    have hne : Usize.max - current ≠ 0 := by
      rw [Usize.max_eq] at hfull ⊢
      omega
    obtain ⟨hz, hbit, hbelow⟩ :=
      Usize.trailingZeros_spec hne (by rw [Usize.max_eq]; omega)
    dsimp only at h
    split at h
    · -- the lowest clear bit is past `max_handle`, and so is every clear bit
      rename_i hge
      rw [Usize.bits_eq] at hge
      by_contra hclear
      have hcomp : (Usize.max - current).testBit j = true := by
        rw [Usize.testBit_max_sub hc]
        simpa [hj] using hclear
      have hle : Usize.trailingZeros (Usize.max - current) ≤ j := by
        by_contra hgt
        rw [hbelow j (by omega)] at hcomp
        cases hcomp
      omega
    · cases h

/-- What `next_handle` finds from the word `wordIndex` on: the first clear bit below
`max_handle`, which it sets, and every bit before it set. -/
theorem nextHandleFrom_some {maxHandle : Nat} :
    ∀ {wordIndex handle : Nat} {ws ws' : List Nat}, (∀ w ∈ ws, w < 2 ^ 64) →
      nextHandleFrom maxHandle wordIndex ws = some (handle, ws') →
      ∃ k, handle = wordIndex * 64 + k ∧ handle < maxHandle ∧ bitAt ws k = false ∧
        (∀ k' < k, bitAt ws k' = true) ∧ (∀ k', bitAt ws' k' = (bitAt ws k' || decide (k' = k))) ∧
        ws'.length = ws.length ∧ ∀ w ∈ ws', w < 2 ^ 64 := by
  intro wordIndex handle ws
  induction ws generalizing wordIndex handle with
  | nil =>
    intro ws' _ h
    cases h
  | cons c rest ih =>
    intro ws' hws h
    have hc := hws c List.mem_cons_self
    have hrest : ∀ w ∈ rest, w < 2 ^ 64 := fun w hw => hws w (List.mem_cons_of_mem c hw)
    rw [nextHandleFrom] at h
    split at h
    · -- a clear bit of this word, below `max_handle`
      rename_i handle' new hclaim
      cases h
      obtain ⟨z, hz, rfl, hlt, hclear, hbelow, rfl⟩ := claimBit_some hc hclaim
      refine ⟨z, rfl, hlt, ?_, ?_, ?_, rfl, ?_⟩
      · rw [bitAt_cons, if_pos hz]
        exact hclear
      · intro k' hk'
        rw [bitAt_cons, if_pos (by omega)]
        exact hbelow k' hk'
      · intro k'
        rw [bitAt_cons, bitAt_cons]
        split
        · simp [Nat.testBit_or, Nat.testBit_two_pow, eq_comm]
        · simp [show k' ≠ z by omega]
      · simp only [List.mem_cons, forall_eq_or_imp]
        exact ⟨Usize.or_two_pow_lt hc hz, hrest⟩
    · -- no clear bit below `max_handle` here: the search goes on at the next word
      rename_i hclaim
      obtain ⟨⟨handle', rest'⟩, hrec, h⟩ := Option.map_eq_some_iff.1 h
      cases h
      obtain ⟨k, rfl, hlt, hclear, hbelow, hbits, hlen, hws'⟩ := ih hrest hrec
      have hfull := claimBit_none hc hclaim
      refine ⟨64 + k, by ring, hlt, ?_, ?_, ?_, by simp [hlen], ?_⟩
      · rw [bitAt_cons, if_neg (by omega)]
        simpa using hclear
      · intro k' hk'
        rw [bitAt_cons]
        split
        · exact hfull k' ‹_› (by omega)
        · exact hbelow (k' - 64) (by omega)
      · intro k'
        rw [bitAt_cons, bitAt_cons]
        split
        · simp [show k' ≠ 64 + k by omega]
        · have hk' : k' - 64 = k ↔ k' = 64 + k := by omega
          rw [hbits]
          simp only [hk']
      · simp only [List.mem_cons, forall_eq_or_imp]
        exact ⟨hc, hws'⟩

theorem nextHandleFrom_none {maxHandle : Nat} :
    ∀ {wordIndex : Nat} {ws : List Nat}, (∀ w ∈ ws, w < 2 ^ 64) →
      nextHandleFrom maxHandle wordIndex ws = none →
      ∀ k < ws.length * 64, wordIndex * 64 + k < maxHandle → bitAt ws k = true := by
  intro wordIndex ws
  induction ws generalizing wordIndex with
  | nil =>
    intro _ _ k hk
    simp at hk
  | cons c rest ih =>
    intro hws h k hk hlt
    have hc := hws c List.mem_cons_self
    rw [nextHandleFrom] at h
    split at h
    · cases h
    · rename_i hclaim
      rw [bitAt_cons]
      split
      · exact claimBit_none hc hclaim k ‹_› hlt
      · rw [Option.map_eq_none_iff] at h
        exact ih (fun w hw => hws w (List.mem_cons_of_mem c hw)) h (k - 64)
          (by simp at hk; omega) (by omega)

/-- The invariant of the words: one for each `usize::BITS` handles, each a `usize`, and no bit
set at or past `max_handle`. -/
structure Inv (a : HandleAllocator) : Prop where
  length_bits : a.bits.length = (a.maxHandle + Usize.bits - 1) / Usize.bits
  word_lt : ∀ w ∈ a.bits, w < 2 ^ 64
  lt_maxHandle : ∀ h, a.allocated h = true → h < a.maxHandle

theorem allocated_new (maxHandle h : Nat) : (new maxHandle).allocated h = false := by
  simp only [allocated, bitAt, new, List.getD_eq_getElem?_getD, List.getElem?_replicate]
  split <;> simp

theorem inv_new (maxHandle : Nat) : (new maxHandle).Inv where
  length_bits := List.length_replicate
  word_lt w hw := by
    simp only [new] at hw
    rw [List.eq_of_mem_replicate hw]
    decide
  lt_maxHandle h hh := by
    rw [allocated_new] at hh
    cases hh

theorem Inv.lt_length_mul {a : HandleAllocator} (ha : a.Inv) {h : Nat} (hh : h < a.maxHandle) :
    h < a.bits.length * 64 := by
  rw [ha.length_bits, Usize.bits_eq]
  omega

/-- `next_handle` hands out the least handle that is not allocated and marks it allocated, or
finds every handle below `max_handle` allocated. -/
theorem Inv.nextHandle_some {a a' : HandleAllocator} (ha : a.Inv) {handle : Nat}
    (h : a.nextHandle = some (handle, a')) :
    handle < a.maxHandle ∧ a.allocated handle = false ∧
      (∀ h' < handle, a.allocated h' = true) ∧
      (∀ x, a'.allocated x = (a.allocated x || decide (x = handle))) ∧
      a'.Inv ∧ a'.maxHandle = a.maxHandle := by
  obtain ⟨⟨handle', bits⟩, hfrom, h⟩ := Option.map_eq_some_iff.1 h
  cases h
  obtain ⟨k, hk, hlt, hclear, hbelow, hbits, hlen, hwords⟩ := nextHandleFrom_some ha.word_lt hfrom
  rw [Nat.zero_mul, Nat.zero_add] at hk
  subst hk
  refine ⟨hlt, hclear, hbelow, hbits, ⟨?_, hwords, ?_⟩, rfl⟩
  · rw [hlen, ha.length_bits]
  · intro x hx
    change bitAt bits x = true at hx
    rw [hbits] at hx
    rcases Bool.or_eq_true_iff.1 hx with hx | hx
    · exact ha.lt_maxHandle x hx
    · rw [of_decide_eq_true hx]
      exact hlt

theorem Inv.nextHandle_none {a : HandleAllocator} (ha : a.Inv) (h : a.nextHandle = none) :
    ∀ h' < a.maxHandle, a.allocated h' = true := by
  intro h' hh'
  rw [nextHandle, Option.map_eq_none_iff] at h
  exact nextHandleFrom_none ha.word_lt h h' (ha.lt_length_mul hh') (by omega)

theorem freeHandle_outOfBounds {a : HandleAllocator} {handle : Nat} (h : a.maxHandle ≤ handle) :
    a.freeHandle handle = .error .outOfBounds := by
  rw [freeHandle, if_neg (Nat.not_lt.2 h)]

theorem freeHandle_notAllocated {a : HandleAllocator} {handle : Nat} (hlt : handle < a.maxHandle)
    (hfree : a.allocated handle = false) : a.freeHandle handle = .error .notAllocated := by
  have hbit : ¬(a.bits.getD (handle / Usize.bits) 0 &&& 2 ^ (handle % Usize.bits) ≠ 0) := by
    rw [Usize.and_two_pow_ne_zero]
    exact Bool.eq_false_iff.1 hfree
  rw [freeHandle, if_pos hlt]
  simp only [clearBit]
  rw [if_neg hbit]
  rfl

theorem Inv.freeHandle_allocated {a : HandleAllocator} (ha : a.Inv) {handle : Nat}
    (hlt : handle < a.maxHandle) (hset : a.allocated handle = true) :
    ∃ a', a.freeHandle handle = .ok a' ∧
      (∀ x, a'.allocated x = (a.allocated x && decide (x ≠ handle))) ∧
      a'.Inv ∧ a'.maxHandle = a.maxHandle := by
  have hi : handle / 64 < a.bits.length := by
    have := ha.lt_length_mul hlt
    omega
  set current := a.bits.getD (handle / 64) 0 with hcurrent
  have hc : current < 2 ^ 64 := ha.word_lt _ (by
    rw [hcurrent, List.getD_eq_getElem?_getD, List.getElem?_eq_getElem hi]
    exact List.getElem_mem hi)
  have hbit : current &&& 2 ^ (handle % 64) ≠ 0 := (Usize.and_two_pow_ne_zero _ _).2 hset
  refine ⟨{ a with bits := a.bits.set (handle / 64) (current &&& (Usize.max - 2 ^ (handle % 64))) },
    ?_, ?_, ⟨?_, ?_, ?_⟩, rfl⟩
  · have hbit' : a.bits.getD (handle / Usize.bits) 0 &&& 2 ^ (handle % Usize.bits) ≠ 0 := hbit
    rw [freeHandle, if_pos hlt]
    simp only [clearBit]
    rw [if_pos hbit']
    rfl
  · -- the bits of the other words, and of the other bits of this word, stay
    intro x
    change bitAt (a.bits.set _ _) x = (bitAt a.bits x && _)
    rw [bitAt_set hi, Usize.testBit_and_max_sub_two_pow hc (Nat.mod_lt _ (by decide))]
    split
    · rename_i hx
      have hne : (x % 64 ≠ handle % 64) ↔ x ≠ handle := by omega
      simp only [bitAt, Usize.bits_eq, hx, ← hcurrent, hne]
    · rename_i hx
      have hne : x ≠ handle := fun h => hx (h ▸ rfl)
      simp [hne]
  · rw [List.length_set, ha.length_bits]
  · intro w hw
    rcases List.mem_or_eq_of_mem_set hw with hw | rfl
    · exact ha.word_lt w hw
    · exact Usize.and_lt hc _
  · intro x hx
    change bitAt (a.bits.set _ _) x = true at hx
    rw [bitAt_set hi, Usize.testBit_and_max_sub_two_pow hc (Nat.mod_lt _ (by decide))] at hx
    split at hx
    · rename_i hxi
      have hold : a.allocated x = true := by
        simp only [allocated, bitAt, Usize.bits_eq, hxi, ← hcurrent]
        exact (Bool.and_eq_true_iff.1 hx).1
      exact ha.lt_maxHandle x hold
    · exact ha.lt_maxHandle x hx

/-! ## Refinement of a set of handles

`Spec` says what the allocator is for: it keeps the set of handles in use, all below
`max_handle`; `next_handle` takes the least one not in use, and `free_handle` gives one back.
Each call of the code takes a step of `Spec` on the set of allocated handles (`Inv.run`), so every
run from `new` is a run of `Spec` from the empty set (`handle_allocator_refines_handle_set`). -/

/-- A call on the allocator. -/
inductive Call where
  | nextHandle
  | freeHandle (handle : Nat)
  deriving DecidableEq, Repr

inductive Reply where
  | handle (h : Option Nat)
  | freed (r : Except Error Unit)
  deriving DecidableEq, Repr

/-- One call, as the code makes it. `free_handle` fails before its compare-exchange, so a call
that fails leaves the words as they were. -/
def Call.run (a : HandleAllocator) : Call → Reply × HandleAllocator
  | .nextHandle =>
    match a.nextHandle with
    | some (handle, a') => (.handle (some handle), a')
    | none => (.handle none, a)
  | .freeHandle handle =>
    match a.freeHandle handle with
    | .ok a' => (.freed (.ok ()), a')
    | .error e => (.freed (.error e), a)

/-- The calls one after another, with their replies. -/
def runCalls : HandleAllocator → List Call → List (Call × Reply) × HandleAllocator
  | a, [] => ([], a)
  | a, c :: cs =>
    let (reply, a₁) := c.run a
    let (trace, a') := runCalls a₁ cs
    ((c, reply) :: trace, a')

/-- A step of the set of handles in use below `maxHandle`, on a call and its reply. -/
inductive Spec (maxHandle : Nat) : Set Nat → Call → Reply → Set Nat → Prop
  | next {S : Set Nat} {h : Nat} : h < maxHandle → h ∉ S → (∀ h' < h, h' ∈ S) →
      Spec maxHandle S .nextHandle (.handle (some h)) (insert h S)
  | full {S : Set Nat} : (∀ h < maxHandle, h ∈ S) → Spec maxHandle S .nextHandle (.handle none) S
  | outOfBounds {S : Set Nat} {h : Nat} : maxHandle ≤ h →
      Spec maxHandle S (.freeHandle h) (.freed (.error .outOfBounds)) S
  | notAllocated {S : Set Nat} {h : Nat} : h < maxHandle → h ∉ S →
      Spec maxHandle S (.freeHandle h) (.freed (.error .notAllocated)) S
  | free {S : Set Nat} {h : Nat} : h < maxHandle → h ∈ S →
      Spec maxHandle S (.freeHandle h) (.freed (.ok ())) (S \ {h})

/-- A run of `Spec` through the calls and replies of a trace. -/
def SpecRun (maxHandle : Nat) : Set Nat → List (Call × Reply) → Set Nat → Prop
  | S, [], S' => S' = S
  | S, (c, r) :: trace, S' => ∃ S₁, Spec maxHandle S c r S₁ ∧ SpecRun maxHandle S₁ trace S'

theorem Spec.deterministic {maxHandle : Nat} {S S₁ S₂ : Set Nat} {c : Call} {r₁ r₂ : Reply}
    (h₁ : Spec maxHandle S c r₁ S₁) (h₂ : Spec maxHandle S c r₂ S₂) : r₁ = r₂ ∧ S₁ = S₂ := by
  cases h₁ with
  | next hlt hfree hleast =>
    cases h₂ with
    | next hlt' hfree' hleast' =>
      rename_i h h'
      have heq : h = h' := by
        rcases Nat.lt_trichotomy h h' with hh | hh | hh
        · exact absurd (hleast' h hh) hfree
        · exact hh
        · exact absurd (hleast h' hh) hfree'
      subst heq
      exact ⟨rfl, rfl⟩
    | full hfull => exact absurd (hfull _ hlt) hfree
  | full hfull =>
    cases h₂ with
    | next hlt hfree _ => exact absurd (hfull _ hlt) hfree
    | full _ => exact ⟨rfl, rfl⟩
  | outOfBounds hge =>
    cases h₂ with
    | outOfBounds _ => exact ⟨rfl, rfl⟩
    | notAllocated hlt _ | free hlt _ => omega
  | notAllocated hlt hfree =>
    cases h₂ with
    | outOfBounds hge => omega
    | notAllocated _ _ => exact ⟨rfl, rfl⟩
    | free _ hmem => exact absurd hmem hfree
  | free hlt hmem =>
    cases h₂ with
    | outOfBounds hge => omega
    | notAllocated _ hfree => exact absurd hmem hfree
    | free _ _ => exact ⟨rfl, rfl⟩

theorem Inv.run {a : HandleAllocator} (ha : a.Inv) (c : Call) :
    Spec a.maxHandle {x | a.allocated x} c (c.run a).1 {x | (c.run a).2.allocated x} ∧
      (c.run a).2.Inv ∧ (c.run a).2.maxHandle = a.maxHandle := by
  cases c with
  | nextHandle =>
    cases hnext : a.nextHandle with
    | some r =>
      obtain ⟨handle, a'⟩ := r
      obtain ⟨hlt, hfree, hleast, hbits, ha', hmax⟩ := ha.nextHandle_some hnext
      simp only [Call.run, hnext]
      refine ⟨?_, ha', hmax⟩
      have hset : {x | a'.allocated x} = insert handle {x | a.allocated x} := by
        ext x
        simp [hbits, or_comm]
      rw [hset]
      exact .next hlt (by simp [hfree]) hleast
    | none =>
      simp only [Call.run, hnext]
      exact ⟨.full (ha.nextHandle_none hnext), ha, trivial⟩
  | freeHandle handle =>
    by_cases hlt : handle < a.maxHandle
    · cases hset : a.allocated handle with
      | true =>
        obtain ⟨a', hfree, hbits, ha', hmax⟩ := ha.freeHandle_allocated hlt hset
        simp only [Call.run, hfree]
        refine ⟨?_, ha', hmax⟩
        have hsets : {x | a'.allocated x} = {x | a.allocated x} \ {handle} := by
          ext x
          simp [hbits]
        rw [hsets]
        exact .free hlt hset
      | false =>
        simp only [Call.run, freeHandle_notAllocated hlt hset]
        exact ⟨.notAllocated hlt (by simp [hset]), ha, trivial⟩
    · simp only [Call.run, freeHandle_outOfBounds (Nat.le_of_not_lt hlt)]
      exact ⟨.outOfBounds (Nat.le_of_not_lt hlt), ha, trivial⟩

/-- Every run of the code from a state that keeps the invariant is a run of `Spec` on its
allocated handles. -/
theorem Inv.runCalls {a : HandleAllocator} (ha : a.Inv) (calls : List Call) :
    SpecRun a.maxHandle {x | a.allocated x} (runCalls a calls).1
        {x | (runCalls a calls).2.allocated x} ∧
      (runCalls a calls).2.Inv ∧ (runCalls a calls).2.maxHandle = a.maxHandle := by
  induction calls generalizing a with
  | nil => exact ⟨rfl, ha, rfl⟩
  | cons c cs ih =>
    obtain ⟨hstep, ha₁, hmax₁⟩ := ha.run c
    obtain ⟨hrun, ha', hmax'⟩ := ih ha₁
    rw [hmax₁] at hrun hmax'
    exact ⟨⟨_, hstep, hrun⟩, ha', hmax'⟩

/-- For every `max_handle` and every sequence of calls from `new max_handle`, the replies are
those of `Spec` on the set of allocated handles, which starts empty: `next_handle` returns the
least free handle below `max_handle` and adds it, or `None` exactly when every handle is in use;
`free_handle` fails with `OutOfBounds` past `max_handle`, with `NotAllocated` for a free handle,
and otherwise removes the handle. No bit at or past `max_handle` is ever set. -/
theorem handle_allocator_refines_handle_set (maxHandle : Nat) (calls : List Call) :
    SpecRun maxHandle ∅ (runCalls (new maxHandle) calls).1
        {x | (runCalls (new maxHandle) calls).2.allocated x} ∧
      ∀ h, (runCalls (new maxHandle) calls).2.allocated h = true → h < maxHandle := by
  obtain ⟨hrun, ha, hmax⟩ := (inv_new maxHandle).runCalls calls
  have hempty : {x | (new maxHandle).allocated x} = ∅ := by
    ext x
    simp [allocated_new]
  rw [hempty] at hrun
  refine ⟨hrun, fun h hh => ?_⟩
  have hlt := ha.lt_maxHandle h hh
  rwa [hmax] at hlt

end HandleAllocator

end EndlessHole.Collections
