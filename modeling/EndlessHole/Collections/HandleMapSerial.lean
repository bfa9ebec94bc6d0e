import EndlessHole.Collections.HandleMapSpec

/-!
# Threads of the handle map that do not overlap

A thread of the concurrent model of `HandleMapConcurrent`, run with no other thread's step between
its own, computes the operation of `HandleMap`: the loop of compare-and-swap of `next_handle`
claims the bit that `nextHandle` claims (`insLoad_alone_some`), the walk of
`insert_self_referential` makes the tables that `walkCreate` makes (`insAt_alone`), and the walks
of `get` and `remove` stop where `walk` stops (`getWalk_alone_some`, `remAt_alone_some`); so a
thread run alone ends with the result and the map of `Op.run` (`Op.run_alone`). A schedule that
runs the threads one after another, each to its end, therefore gives the results of the map of
handles of `HandleMapSpec` (`serial_schedule_refines_finite_map`); the panic of
`double_remove_lets_insert_panic` needs two removes of one handle that overlap.
-/

namespace EndlessHole.Collections

namespace HandleMap

open Pc

/-- A thread run `n` steps with no other thread's step between them. -/
def Thread.run : Nat → Pc × HandleMap → Pc × HandleMap
  | 0, x => x
  | n + 1, x => Thread.run n (Thread.step x.2 x.1)

theorem Thread.run_succ (n : Nat) (x : Pc × HandleMap) :
    Thread.run (n + 1) x = Thread.run n (Thread.step x.2 x.1) := rfl

theorem Thread.run_add (a b : Nat) (x : Pc × HandleMap) :
    Thread.run (a + b) x = Thread.run b (Thread.run a x) := by
  induction a generalizing x with
  | zero => rw [Nat.zero_add]; rfl
  | succ a ih => rw [Nat.add_right_comm, Thread.run_succ, ih, Thread.run_succ]

theorem Thread.step_of_not_running {pc : Pc} (h : ¬ pc.Running) (m : HandleMap) :
    Thread.step m pc = (pc, m) := by
  cases pc <;> first | rfl | exact absurd trivial h

theorem Thread.run_of_not_running {pc : Pc} (h : ¬ pc.Running) (m : HandleMap) :
    ∀ n, Thread.run n (pc, m) = (pc, m)
  | 0 => rfl
  | n + 1 => by rw [Thread.run_succ, Thread.step_of_not_running h, Thread.run_of_not_running h m n]

theorem Thread.run_of_le {n N : Nat} {x : Pc × HandleMap} {r : Option Nat} {m : HandleMap}
    (h : Thread.run n x = (done r, m)) (hN : n ≤ N) : Thread.run N x = (done r, m) := by
  rw [show N = n + (N - n) by omega, Thread.run_add, h]
  exact Thread.run_of_not_running (show ¬ (done r).Running from fun h => h) m _

/-! ## One step of each kind -/

section Steps

variable {m : HandleMap} {value wordIndex current path levels table : Nat}

theorem step_insLoad_of_some (h : m.allocator.bits[wordIndex]? = some current) :
    Thread.step m (insLoad value wordIndex) =
      (insRead m.allocator.maxHandle value wordIndex current, m) := by
  simp [Thread.step, h]

theorem step_insLoad_of_none (h : m.allocator.bits[wordIndex]? = none) :
    Thread.step m (insLoad value wordIndex) = (done none, m) := by
  simp [Thread.step, h]

theorem insRead_of_some {maxHandle : Nat} {x : Nat × Nat}
    (h : HandleAllocator.claimBit maxHandle wordIndex current = some x) :
    insRead maxHandle value wordIndex current = insCas value wordIndex current := by
  simp [insRead, h]

theorem insRead_of_none {maxHandle : Nat}
    (h : HandleAllocator.claimBit maxHandle wordIndex current = none) :
    insRead maxHandle value wordIndex current = insLoad value (wordIndex + 1) := by
  simp [insRead, h]

theorem step_insCas {handle new : Nat} (hword : m.allocator.bits.getD wordIndex 0 = current)
    (h : HandleAllocator.claimBit m.allocator.maxHandle wordIndex current = some (handle, new)) :
    Thread.step m (insCas value wordIndex current) =
      (insAt value (m.pathOf handle) (m.depth - 1) m.table,
        { m with allocator := { m.allocator with bits := m.allocator.bits.set wordIndex new } }) := by
  simp only [Thread.step, hword, h, if_true]

theorem step_insWalk_of_table (h : m.mem table (path % 256) ≠ 0) :
    Thread.step m (insWalk value path levels table) =
      (insAt value (U32.rotateLeft path 8) (levels - 1) (m.mem table (path % 256)), m) := by
  simp [Thread.step, h]

theorem step_insWalk_of_empty (h : m.mem table (path % 256) = 0) :
    Thread.step m (insWalk value path levels table) = (insNewTable value path levels table, m) := by
  simp [Thread.step, h]

theorem step_insNewTable :
    Thread.step m (insNewTable value path levels table) =
      (insAt value (U32.rotateLeft path 8) (levels - 1) (m.newNextLevelTable table (path % 256)).1,
        (m.newNextLevelTable table (path % 256)).2) := rfl

theorem step_insPut :
    Thread.step m (insPut value path table) =
      (if m.mem table (path % 256) = 0 then done (some path) else panicked,
        { m with mem := m.mem.write table (path % 256) value }) := rfl

theorem step_getWalk :
    Thread.step m (getWalk path levels table) =
      if levels = 0 then
        (done (if m.mem table (path % 256) = 0 then none else some (m.mem table (path % 256))), m)
      else if m.mem table (path % 256) = 0 then (done none, m)
      else (getWalk (U32.rotateLeft path 8) (levels - 1) (m.mem table (path % 256)), m) := rfl

theorem step_remWalk {handle : Nat} :
    Thread.step m (remWalk handle path levels table) =
      if m.mem table (path % 256) = 0 then (done none, m)
      else (remAt handle (U32.rotateLeft path 8) (levels - 1) (m.mem table (path % 256)), m) := rfl

theorem step_remTake {handle index : Nat} :
    Thread.step m (remTake handle table index) =
      (if handle < m.allocator.maxHandle then remLoad handle (m.mem table index) else done none,
        { m with mem := m.mem.write table index 0 }) := rfl

theorem step_remLoad {handle val : Nat} :
    Thread.step m (remLoad handle val) =
      (remRead handle val (m.allocator.bits.getD (handle / Usize.bits) 0), m) := rfl

theorem step_remCas {handle val new : Nat}
    (hword : m.allocator.bits.getD (handle / Usize.bits) 0 = current)
    (h : HandleAllocator.clearBit handle current = .ok new) :
    Thread.step m (remCas handle val current) =
      (done (if val = 0 then none else some val),
        { m with allocator := { m.allocator with
          bits := m.allocator.bits.set (handle / Usize.bits) new } }) := by
  simp only [Thread.step, hword, h, if_true]

end Steps

theorem remRead_of_ok {handle val current new : Nat}
    (h : HandleAllocator.clearBit handle current = .ok new) :
    remRead handle val current = remCas handle val current := by
  simp [remRead, h]

theorem remRead_of_error {handle val current : Nat} {e : HandleAllocator.Error}
    (h : HandleAllocator.clearBit handle current = .error e) :
    remRead handle val current = done none := by
  simp [remRead, h]

/-! ## A thread run alone -/

section Alone

variable {m : HandleMap} {value : Nat}

theorem getElem?_of_drop_eq {l rest : List Nat} {i c : Nat} (h : l.drop i = c :: rest) :
    l[i]? = some c := by
  have h0 : (l.drop i)[0]? = some c := by rw [h]; rfl
  rwa [List.getElem?_drop, Nat.add_zero] at h0

theorem drop_succ_of_drop_eq {l rest : List Nat} {i c : Nat} (h : l.drop i = c :: rest) :
    l.drop (i + 1) = rest := by
  rw [← List.drop_drop, h]
  rfl

theorem insLoad_alone_some : ∀ (ws : List Nat) {wordIndex handle : Nat} {ws' : List Nat},
    m.allocator.bits.drop wordIndex = ws →
    HandleAllocator.nextHandleFrom m.allocator.maxHandle wordIndex ws = some (handle, ws') →
    ∃ n, Thread.run n (insLoad value wordIndex, m) =
      (insAt value (m.pathOf handle) (m.depth - 1) m.table,
        { m with allocator := { m.allocator with bits := m.allocator.bits.take wordIndex ++ ws' } })
  | [], _, _, _, _, h => by cases h
  | c :: rest, wordIndex, handle, ws', hdrop, h => by
    have hget := getElem?_of_drop_eq hdrop
    have hrest := drop_succ_of_drop_eq hdrop
    rw [HandleAllocator.nextHandleFrom] at h
    cases hclaim : HandleAllocator.claimBit m.allocator.maxHandle wordIndex c with
    | some x =>
      obtain ⟨handle', new⟩ := x
      rw [hclaim] at h
      obtain ⟨rfl, rfl⟩ := Prod.mk.inj (Option.some.inj h)
      have hword : m.allocator.bits.getD wordIndex 0 = c := by
        rw [List.getD_eq_getElem?_getD, hget]
        rfl
      have hlt : wordIndex < m.allocator.bits.length := (List.getElem?_eq_some_iff.1 hget).1
      have hset : m.allocator.bits.set wordIndex new = m.allocator.bits.take wordIndex ++ new :: rest := by
        rw [List.set_eq_take_cons_drop _ hlt, hrest]
      refine ⟨2, ?_⟩
      rw [Thread.run_succ, step_insLoad_of_some hget, insRead_of_some hclaim, Thread.run_succ,
        step_insCas hword hclaim, hset]
      rfl
    | none =>
      rw [hclaim] at h
      obtain ⟨⟨handle', rest'⟩, hrec, heq⟩ := Option.map_eq_some_iff.1 h
      cases heq
      obtain ⟨n, hn⟩ := insLoad_alone_some rest hrest hrec
      have htake : m.allocator.bits.take (wordIndex + 1) ++ rest' =
          m.allocator.bits.take wordIndex ++ c :: rest' := by
        rw [List.take_add_one, hget]
        simp
      refine ⟨n + 1, ?_⟩
      rw [Thread.run_succ, step_insLoad_of_some hget, insRead_of_none hclaim, hn, htake]

theorem insLoad_alone_none : ∀ (ws : List Nat) {wordIndex : Nat},
    m.allocator.bits.drop wordIndex = ws →
    HandleAllocator.nextHandleFrom m.allocator.maxHandle wordIndex ws = none →
    ∃ n, Thread.run n (insLoad value wordIndex, m) = (done none, m)
  | [], wordIndex, hdrop, _ => by
    have hnone : m.allocator.bits[wordIndex]? = none :=
      List.getElem?_eq_none (List.drop_eq_nil_iff.1 hdrop)
    exact ⟨1, by rw [Thread.run_succ, step_insLoad_of_none hnone]; rfl⟩
  | c :: rest, wordIndex, hdrop, h => by
    have hget := getElem?_of_drop_eq hdrop
    rw [HandleAllocator.nextHandleFrom] at h
    cases hclaim : HandleAllocator.claimBit m.allocator.maxHandle wordIndex c with
    | some x =>
      rw [hclaim] at h
      cases h
    | none =>
      rw [hclaim, Option.map_eq_none_iff] at h
      obtain ⟨n, hn⟩ := insLoad_alone_none rest (drop_succ_of_drop_eq hdrop) h
      exact ⟨n + 1, by rw [Thread.run_succ, step_insLoad_of_some hget, insRead_of_none hclaim, hn]⟩

theorem walkCreate_succ (levels handle table : Nat) (m : HandleMap) :
    walkCreate (levels + 1) handle table m =
      if m.mem table (handle % 256) ≠ 0 then
        walkCreate levels (U32.rotateLeft handle 8) (m.mem table (handle % 256)) m
      else walkCreate levels (U32.rotateLeft handle 8) (m.newNextLevelTable table (handle % 256)).1
        (m.newNextLevelTable table (handle % 256)).2 := by
  rw [walkCreate]
  split_ifs <;> rfl

/-- The walk of `insert_self_referential` alone, down `levels` tables: the tables and the state of
`walkCreate`, and then the `put_value` of the leaf slot. -/
theorem insAt_alone : ∀ (levels path table : Nat) (m : HandleMap), ∃ n,
    Thread.run n (insAt value path levels table, m) =
      (insPut value (walkCreate levels path table m).2.1 (walkCreate levels path table m).1,
        (walkCreate levels path table m).2.2)
  | 0, _, _, _ => ⟨0, rfl⟩
  | levels + 1, path, table, m => by
    have hat : insAt value path (levels + 1) table = insWalk value path (levels + 1) table := rfl
    rw [walkCreate_succ]
    by_cases hslot : m.mem table (path % 256) = 0
    · -- the compare-and-swap of `new_next_level_table`, then the next level
      obtain ⟨n, hn⟩ := insAt_alone levels (U32.rotateLeft path 8)
        (m.newNextLevelTable table (path % 256)).1 (m.newNextLevelTable table (path % 256)).2
      refine ⟨n + 2, ?_⟩
      rw [if_neg (not_not.2 hslot), Thread.run_succ, hat, step_insWalk_of_empty hslot,
        Thread.run_succ, step_insNewTable]
      exact hn
    · obtain ⟨n, hn⟩ := insAt_alone levels (U32.rotateLeft path 8) (m.mem table (path % 256)) m
      refine ⟨n + 1, ?_⟩
      rw [if_pos hslot, Thread.run_succ, hat, step_insWalk_of_table hslot]
      exact hn

theorem insert_of_walkCreate {handle table path : Nat} {allocator : HandleAllocator}
    {m' : HandleMap} (h : m.allocator.nextHandle = some (handle, allocator))
    (hwalk : walkCreate (m.depth - 1) (m.pathOf handle) m.table { m with allocator } =
      (table, path, m')) :
    m.insert value =
      if m'.mem table (path % 256) = 0 then
        .ok (some path, { m' with mem := m'.mem.write table (path % 256) value })
      else .error .panic := by
  rw [HandleMap.insert, h]
  dsimp only
  rw [hwalk]
  by_cases hzero : m'.mem table (path % 256) = 0
  · simp only [hzero, decide_true, Fault.assert_true, Fault.ok_bind, if_true]
    rfl
  · simp only [hzero, decide_false, Fault.assert_false, if_false]
    rfl

theorem insert_alone {r : Option Nat} {m' : HandleMap} (h : m.insert value = .ok (r, m')) :
    ∃ n, Thread.run n (insLoad value 0, m) = (done r, m') := by
  cases hnext : m.allocator.nextHandle with
  | none =>
    rw [HandleMap.insert, hnext] at h
    cases h
    rw [HandleAllocator.nextHandle, Option.map_eq_none_iff] at hnext
    exact insLoad_alone_none _ List.drop_zero hnext
  | some x =>
    obtain ⟨handle, allocator⟩ := x
    obtain ⟨⟨handle', bits'⟩, hfrom, hx⟩ := Option.map_eq_some_iff.1 hnext
    cases hx
    obtain ⟨n₁, h₁⟩ := @insLoad_alone_some m value _ 0 handle bits' List.drop_zero hfrom
    rw [List.take_zero, List.nil_append] at h₁
    rcases hwalk : walkCreate (m.depth - 1) (m.pathOf handle)
      m.table { m with allocator := { m.allocator with bits := bits' } } with ⟨table, path, m₂⟩
    obtain ⟨n₂, h₂⟩ := @insAt_alone value (m.depth - 1) (m.pathOf handle) m.table
      { m with allocator := { m.allocator with bits := bits' } }
    rw [hwalk] at h₂
    rw [insert_of_walkCreate hnext hwalk] at h
    split at h
    · rename_i hzero
      cases h
      refine ⟨n₁ + (n₂ + 1), ?_⟩
      rw [Thread.run_add, h₁, Thread.run_add]
      rw [h₂, Thread.run_succ, step_insPut, if_pos hzero]
      rfl
    · cases h

theorem getWalk_alone_none : ∀ {levels path table : Nat}, walk m.mem levels path table = none →
    ∃ n, Thread.run n (getWalk path levels table, m) = (done none, m)
  | 0, _, _, h => by cases h
  | levels + 1, path, table, h => by
    rw [walk] at h
    by_cases hslot : m.mem table (path % 256) = 0
    · exact ⟨1, by rw [Thread.run_succ, step_getWalk, if_neg (Nat.succ_ne_zero _), if_pos hslot]; rfl⟩
    · rw [if_neg hslot] at h
      obtain ⟨n, hn⟩ := getWalk_alone_none h
      exact ⟨n + 1, by
        rw [Thread.run_succ, step_getWalk, if_neg (Nat.succ_ne_zero _), if_neg hslot]
        exact hn⟩

theorem getWalk_alone_some {T i : Nat} : ∀ {levels path table : Nat},
    walk m.mem levels path table = some (T, i) →
    ∃ n, Thread.run n (getWalk path levels table, m) =
      (done (if m.mem T i = 0 then none else some (m.mem T i)), m)
  | 0, path, table, h => by
    obtain ⟨rfl, rfl⟩ := Prod.mk.inj (Option.some.inj h)
    exact ⟨1, by rw [Thread.run_succ, step_getWalk, if_pos rfl]; rfl⟩
  | levels + 1, path, table, h => by
    rw [walk] at h
    by_cases hslot : m.mem table (path % 256) = 0
    · rw [if_pos hslot] at h
      cases h
    · rw [if_neg hslot] at h
      obtain ⟨n, hn⟩ := getWalk_alone_some h
      exact ⟨n + 1, by
        rw [Thread.run_succ, step_getWalk, if_neg (Nat.succ_ne_zero _), if_neg hslot]
        exact hn⟩

theorem get_alone (handle : Nat) :
    ∃ n, Thread.run n (getWalk (m.pathOf handle) (m.depth - 1) m.table, m) =
      (done (m.get handle), m) := by
  cases hleaf : m.leafTableForHandle handle with
  | none =>
    rw [get, hleaf]
    exact getWalk_alone_none hleaf
  | some x =>
    obtain ⟨T, i⟩ := x
    rw [get, hleaf]
    exact getWalk_alone_some hleaf

theorem remAt_alone_none {handle : Nat} : ∀ {levels path table : Nat},
    walk m.mem levels path table = none →
    ∃ n, Thread.run n (remAt handle path levels table, m) = (done none, m)
  | 0, _, _, h => by cases h
  | levels + 1, path, table, h => by
    have hat : remAt handle path (levels + 1) table = remWalk handle path (levels + 1) table := rfl
    rw [walk] at h
    by_cases hslot : m.mem table (path % 256) = 0
    · exact ⟨1, by rw [Thread.run_succ, hat, step_remWalk, if_pos hslot]; rfl⟩
    · rw [if_neg hslot] at h
      obtain ⟨n, hn⟩ := remAt_alone_none h
      exact ⟨n + 1, by rw [Thread.run_succ, hat, step_remWalk, if_neg hslot]; exact hn⟩

theorem remAt_alone_some {handle T i : Nat} : ∀ {levels path table : Nat},
    walk m.mem levels path table = some (T, i) →
    ∃ n, Thread.run n (remAt handle path levels table, m) = (remTake handle T i, m)
  | 0, path, table, h => by
    obtain ⟨rfl, rfl⟩ := Prod.mk.inj (Option.some.inj h)
    exact ⟨0, rfl⟩
  | levels + 1, path, table, h => by
    have hat : remAt handle path (levels + 1) table = remWalk handle path (levels + 1) table := rfl
    rw [walk] at h
    by_cases hslot : m.mem table (path % 256) = 0
    · rw [if_pos hslot] at h
      cases h
    · rw [if_neg hslot] at h
      obtain ⟨n, hn⟩ := remAt_alone_some h
      exact ⟨n + 1, by rw [Thread.run_succ, hat, step_remWalk, if_neg hslot]; exact hn⟩

theorem remove_alone (handle : Nat) :
    ∃ n, Thread.run n (remAt handle (m.pathOf handle) (m.depth - 1) m.table, m) =
      (done (m.remove handle).1, (m.remove handle).2) := by
  cases hleaf : m.leafTableForHandle handle with
  | none =>
    have hremove : m.remove handle = (none, m) := by rw [HandleMap.remove, hleaf]
    rw [hremove]
    exact remAt_alone_none hleaf
  | some x =>
    obtain ⟨T, i⟩ := x
    obtain ⟨n, hn⟩ := @remAt_alone_some m handle T i _ _ _ hleaf
    set m₁ : HandleMap := { m with mem := m.mem.write T i 0 } with hm₁
    have htake : Thread.step m (remTake handle T i) =
        (if handle < m.allocator.maxHandle then remLoad handle (m.mem T i) else done none, m₁) :=
      step_remTake
    by_cases hlt : handle < m.allocator.maxHandle
    · set current := m.allocator.bits.getD (handle / Usize.bits) 0 with hcurrent
      cases hclear : HandleAllocator.clearBit handle current with
      | error e =>
        have hremove : m.remove handle = (none, m₁) := by
          simp only [HandleMap.remove, hleaf, hm₁, HandleAllocator.freeHandle, if_pos hlt]
          rw [← hcurrent, hclear]
          rfl
        rw [hremove]
        refine ⟨n + 2, ?_⟩
        rw [Thread.run_add, hn, Thread.run_succ, htake, if_pos hlt, Thread.run_succ, step_remLoad,
          remRead_of_error hclear]
        rfl
      | ok new =>
        have hremove : m.remove handle = (if m.mem T i = 0 then none else some (m.mem T i),
            { m₁ with allocator := { m.allocator with
              bits := m.allocator.bits.set (handle / Usize.bits) new } }) := by
          simp only [HandleMap.remove, hleaf, hm₁, HandleAllocator.freeHandle, if_pos hlt]
          rw [← hcurrent, hclear]
          rfl
        rw [hremove]
        refine ⟨n + 3, ?_⟩
        rw [Thread.run_add, hn, Thread.run_succ, htake, if_pos hlt, Thread.run_succ, step_remLoad,
          remRead_of_ok hclear, Thread.run_succ]
        dsimp only
        rw [step_remCas (m := m₁) rfl hclear]
        rfl
    · -- `free_handle` fails before it reads a word
      have hremove : m.remove handle = (none, m₁) := by
        simp only [HandleMap.remove, hleaf, hm₁, HandleAllocator.freeHandle, if_neg hlt]
      rw [hremove]
      refine ⟨n + 1, ?_⟩
      rw [Thread.run_add, hn, Thread.run_succ, htake, if_neg hlt]
      rfl

/-- A thread run alone ends with the result and the map of the operation run by itself. -/
theorem Op.run_alone {op : Op} {r : Option Nat} {m' : HandleMap} (h : op.run m = .ok (r, m')) :
    ∃ n, Thread.run n (Op.start m op, m) = (done r, m') := by
  cases op with
  | insert value => exact insert_alone h
  | get handle =>
    cases h
    exact get_alone handle
  | remove handle =>
    have hremove : m.remove handle = (r, m') := Except.ok.inj h
    obtain ⟨n, hn⟩ := remove_alone (m := m) handle
    rw [hremove] at hn
    exact ⟨n, hn⟩

end Alone

/-! ## Schedules that run the threads one after another -/

theorem Op.run_frame {m m' : HandleMap} {op : Op} {r : Option Nat} (h : op.run m = .ok (r, m')) :
    m'.table = m.table ∧ m'.depth = m.depth ∧
      m'.handleZerosPrefixBitLength = m.handleZerosPrefixBitLength := by
  cases op with
  | insert value =>
    cases hnext : m.allocator.nextHandle with
    | none =>
      change m.insert value = _ at h
      rw [HandleMap.insert, hnext] at h
      cases h
      exact ⟨rfl, rfl, rfl⟩
    | some x =>
      obtain ⟨handle, allocator⟩ := x
      obtain ⟨mem, B, hframe⟩ := descendCreate_frame
        ((List.range (m.depth - 1)).map fun i => (U32.rotateLeft · 8)^[i] (m.pathOf handle) % 256)
        m.table { m with allocator }
      change m.insert value = _ at h
      rw [insert_of_walkCreate hnext (walkCreate_eq_descendCreate _ _ _ _)] at h
      split at h
      · cases h
        rw [hframe]
        exact ⟨rfl, rfl, rfl⟩
      · cases h
  | get handle =>
    cases h
    exact ⟨rfl, rfl, rfl⟩
  | remove handle =>
    have hm' : m' = (m.remove handle).2 := by rw [Except.ok.inj h]
    subst hm'
    unfold HandleMap.remove
    split
    · exact ⟨rfl, rfl, rfl⟩
    · dsimp only
      split <;> exact ⟨rfl, rfl, rfl⟩

theorem Op.start_congr {m m' : HandleMap} (htable : m'.table = m.table) (hdepth : m'.depth = m.depth)
    (hshift : m'.handleZerosPrefixBitLength = m.handleZerosPrefixBitLength) (op : Op) :
    Op.start m' op = Op.start m op := by
  cases op <;> simp only [Op.start, pathOf, htable, hdepth, hshift]

theorem runOps_cons_eq_ok {m m' : HandleMap} {op : Op} {ops : List Op}
    {trace : List (Op × Option Nat)} (h : runOps m (op :: ops) = .ok (trace, m')) :
    ∃ r m₁ trace', op.run m = .ok (r, m₁) ∧ runOps m₁ ops = .ok (trace', m') ∧
      trace = (op, r) :: trace' := by
  rw [runOps, Fault.bind_eq_ok] at h
  obtain ⟨⟨r, m₁⟩, h₁, h⟩ := h
  dsimp only at h
  rw [Fault.bind_eq_ok] at h
  obtain ⟨⟨trace', m''⟩, h₂, h⟩ := h
  obtain ⟨rfl, rfl⟩ := Prod.mk.inj (Except.ok.inj h)
  exact ⟨r, m₁, trace', h₁, h₂, rfl⟩

theorem Sys.run_append (s : Sys) (l₁ l₂ : List Nat) : s.run (l₁ ++ l₂) = (s.run l₁).run l₂ :=
  List.foldl_append

theorem Sys.step_of_running {s : Sys} {i : Nat} {pc : Pc} (h : s.threads[i]? = some pc)
    (hr : pc.Running) :
    s.step i = ⟨(Thread.step s.map pc).2, s.threads.set i (Thread.step s.map pc).1⟩ := by
  simp only [Sys.step, h, if_pos hr]

theorem Sys.step_of_not_running {s : Sys} {i : Nat} {pc : Pc} (h : s.threads[i]? = some pc)
    (hr : ¬ pc.Running) : s.step i = s := by
  simp only [Sys.step, h, if_neg hr]

theorem Sys.run_replicate {i : Nat} : ∀ (n : Nat) {s : Sys} {pc : Pc}, s.threads[i]? = some pc →
    s.run (List.replicate n i) =
      ⟨(Thread.run n (pc, s.map)).2, s.threads.set i (Thread.run n (pc, s.map)).1⟩
  | 0, s, pc, h => by
    obtain ⟨hi, hpc⟩ := List.getElem?_eq_some_iff.1 h
    show s = ⟨s.map, s.threads.set i pc⟩
    rw [← hpc, List.set_getElem_self]
  | n + 1, s, pc, h => by
    obtain ⟨hi, -⟩ := List.getElem?_eq_some_iff.1 h
    show (s.step i).run (List.replicate n i) = _
    by_cases hr : pc.Running
    · have hnext : (s.step i).threads[i]? = some (Thread.step s.map pc).1 := by
        rw [Sys.step_of_running h hr]
        exact List.getElem?_set_self hi
      rw [Sys.run_replicate n hnext, Sys.step_of_running h hr, Thread.run_succ]
      simp only [List.set_set]
    · rw [Sys.step_of_not_running h hr, Sys.run_replicate n h, Thread.run_of_not_running hr,
        Thread.run_of_not_running hr]

/-- The threads from `pre.length` on, each given `n` steps in turn: each runs to its end, with the
result and the map of the operations run one after another, once `n` is large enough. -/
theorem run_serial (M : HandleMap) : ∀ (ops : List Op) (pre : List Pc) (m : HandleMap)
    (trace : List (Op × Option Nat)) (m' : HandleMap), runOps m ops = .ok (trace, m') →
    m.table = M.table → m.depth = M.depth →
    m.handleZerosPrefixBitLength = M.handleZerosPrefixBitLength →
    ∃ N, ∀ n ≥ N, Sys.run ⟨m, pre ++ ops.map (Op.start M)⟩
        ((List.range' pre.length ops.length).flatMap fun i => List.replicate n i) =
      ⟨m', pre ++ trace.map fun x => done x.2⟩
  | [], pre, m, trace, m', h, _, _, _ => by
    cases h
    exact ⟨0, fun n _ => rfl⟩
  | op :: ops, pre, m, trace, m', h, htable, hdepth, hshift => by
    obtain ⟨r, m₁, trace', h₁, hrest, rfl⟩ := runOps_cons_eq_ok h
    obtain ⟨k, hk⟩ := Op.run_alone h₁
    obtain ⟨htable₁, hdepth₁, hshift₁⟩ := Op.run_frame h₁
    obtain ⟨N, hN⟩ := run_serial M ops (pre ++ [done r]) m₁ trace' m' hrest
      (htable₁.trans htable) (hdepth₁.trans hdepth) (hshift₁.trans hshift)
    refine ⟨max k N, fun n hn => ?_⟩
    -- the thread of `op` runs to its end, then the threads after it
    have hthread : (⟨m, pre ++ (op :: ops).map (Op.start M)⟩ : Sys).threads[pre.length]? =
        some (Op.start m op) := by
      simp [Op.start_congr htable hdepth hshift]
    have hrun : Thread.run n (Op.start m op, m) = (done r, m₁) :=
      Thread.run_of_le hk (le_of_max_le_left hn)
    have hset : (pre ++ (op :: ops).map (Op.start M)).set pre.length (done r) =
        (pre ++ [done r]) ++ ops.map (Op.start M) := by
      simp [List.set_append_right]
    rw [List.length_cons, List.range'_succ, List.flatMap_cons, Sys.run_append,
      Sys.run_replicate n hthread, hrun]
    dsimp only
    rw [List.length_append, List.length_singleton] at hN
    rw [hset, hN n (le_of_max_le_right hn)]
    simp

/-- For every `max_handle` from one up to `2^32 - 1` and every sequence of operations whose values
are not `0` and whose handles of `get` and `remove` are below `max_handle`, started as threads on
`new max_handle`: once each thread is given enough steps, running the threads one after another
brings each thread to its end, with no panic, with the result of the operation run by itself, and
leaves the map the operations run one after another leave; and these results are those of a map
from the handles below `max_handle` to values that starts empty. -/
theorem serial_schedule_refines_finite_map (maxHandle : Nat) (hpos : 0 < maxHandle)
    (hlt : maxHandle < 2 ^ 32) (ops : List Op) (hops : ∀ op ∈ ops, op.Valid maxHandle) :
    ∃ N trace m, runOps (new maxHandle) ops = .ok (trace, m) ∧
      SpecRun maxHandle (fun _ => none) trace (m.contents maxHandle) ∧
      ∀ n ≥ N, (Sys.init (new maxHandle) ops).run
          ((List.range ops.length).flatMap fun i => List.replicate n i) =
        ⟨m, trace.map fun x => done x.2⟩ := by
  obtain ⟨trace, m, hrun, hspec, -⟩ := (inv_new hpos hlt).runOps ops hops
  rw [contents_new hpos hlt] at hspec
  obtain ⟨N, hN⟩ := run_serial (new maxHandle) ops [] (new maxHandle) trace m hrun rfl rfl rfl
  refine ⟨N, trace, m, hrun, hspec, fun n hn => ?_⟩
  have hserial := hN n hn
  rw [List.nil_append, List.nil_append, List.length_nil, ← List.range_eq_range'] at hserial
  exact hserial

/-- Three hundred handles: two inserts, a remove of the first handle, a get of the second, and an
insert that takes the first handle again, as five threads run one after another. -/
theorem serial_schedule_refines_finite_map_three_hundred :
    0 < 300 ∧ 300 < 2 ^ 32 ∧
    (∀ op ∈ [Op.insert 0x1000, .insert 0x2000, .remove 0, .get 1, .insert 0x3000],
      op.Valid 300) ∧
    ∃ N trace m, runOps (new 300)
        [.insert 0x1000, .insert 0x2000, .remove 0, .get 1, .insert 0x3000] = .ok (trace, m) ∧
      SpecRun 300 (fun _ => none) trace (m.contents 300) ∧
      ∀ n ≥ N, (Sys.init (new 300)
          [.insert 0x1000, .insert 0x2000, .remove 0, .get 1, .insert 0x3000]).run
          ((List.range 5).flatMap fun i => List.replicate n i) =
        ⟨m, trace.map fun x => done x.2⟩ :=
  ⟨by decide, by decide, by decide,
    serial_schedule_refines_finite_map 300 (by decide) (by decide) _ (by decide)⟩

end HandleMap

end EndlessHole.Collections
