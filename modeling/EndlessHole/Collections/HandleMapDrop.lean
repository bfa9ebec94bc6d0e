import EndlessHole.Collections.HandleMapSpec
import EndlessHole.Lib.Iterator

/-!
# Dropping the handle map

`Drop for HandleMap` of `handle_map.rs` calls `Table::drop_children` on the root table with the
map's depth. Each entry of a table is swapped with `0`; the `Arc` of a leaf entry is dropped, and
a next-level table has its own children dropped and is then freed, where `Drop for Table` asserts
that every entry of it is empty. The model returns the memory after and what was given back, in
order (`Release`).

`releases` reads off the tables what the traversal gives back. On a tree whose tables are all
different, `drop_children` gives back exactly that and empties the tables it visits
(`dropChildren_spec`). Read through the handles, the values come out in the order of their handles
(`values_releases`), and the tables are those that a walk of fewer than `depth` indices reaches
(`mem_tables_releases`), each once (`nodup_tables_releases`). Over a run of operations from `new`,
every table the map made is reached and no slot past `max_handle` holds a value (`DropInv`), so
dropping the map gives back the value of every handle it holds, in the order of the handles, and
every table it made, once each (`drop_releases_values_and_tables`). A map made by `new(0)` has
depth zero, and its drop reaches `unreachable!()`.
-/

namespace EndlessHole.Collections

/-- What dropping the map gives back, in order: the `Arc` of a leaf entry (`Arc::from_raw`, then
`drop`), or a next-level table (`Box::from_raw`, then `drop`). -/
inductive Release where
  | value (v : Nat)
  | table (t : Nat)
  deriving Repr, DecidableEq

def Release.value? : Release → Option Nat
  | .value v => some v
  | .table _ => none

def Release.table? : Release → Option Nat
  | .value _ => none
  | .table t => some t

/-- `Drop for Table`: a table is dropped only once its entries are empty. -/
def Table.drop (mem : TableMem) (t : Nat) : Except (Fault Empty) Unit :=
  Fault.assert ((List.range 256).all fun i => mem t i = 0)

/-- One pass of the loop of `Table::drop_children` at `depth`: the entry `i` is swapped with `0`,
and what it held is given back; `dropChild` drops the children of a next-level table. A table of
depth zero is never dropped (`unreachable!()`). -/
def Table.dropEntry (depth table : Nat)
    (dropChild : Nat → TableMem × List Release → Except (Fault Empty) (TableMem × List Release)) :
    TableMem × List Release → Nat → Except (Fault Empty) (TableMem × List Release)
  | (mem, out), i => do
    let v := mem table i
    let mem := mem.write table i 0
    match v, depth with
    | _, 0 => throw .panic
    | 0, _ => pure (mem, out)
    | _, 1 => pure (mem, out ++ [.value v])
    | _, _ + 2 => do
      let (mem, out) ← dropChild v (mem, out)
      Table.drop mem v
      pure (mem, out ++ [.table v])

/-- `Table::drop_children`: the loop over the entries, a next-level table's children dropped at
`depth - 1`. -/
def Table.dropChildren : Nat → Nat → TableMem × List Release →
    Except (Fault Empty) (TableMem × List Release)
  | 0, table, st => (List.range 256).foldlM (Table.dropEntry 0 table fun _ _ => throw .panic) st
  | depth + 1, table, st =>
    (List.range 256).foldlM (Table.dropEntry (depth + 1) table (Table.dropChildren depth)) st

namespace HandleMap

/-- `Drop for HandleMap`: the children of the root table, then the root table itself, a field of
the map, whose `Drop` asserts that it was emptied. -/
def drop (m : HandleMap) : Except (Fault Empty) (TableMem × List Release) := do
  let (mem, out) ← Table.dropChildren m.depth m.table (m.mem, [])
  Table.drop mem m.table
  pure (mem, out)

/-! ## What the traversal gives back -/

section Releases

variable (mem : TableMem)

/-- What `drop_children` gives back from the table `T`, with `d` levels from it down to the
values, read off the tables as they are before. -/
def releases : Nat → Nat → List Release
  | 0, _ => []
  | d + 1, T => (List.range 256).flatMap fun i =>
    if mem T i = 0 then [] else if d = 0 then [.value (mem T i)]
    else releases d (mem T i) ++ [.table (mem T i)]

/-- What the entry `v` of a table with `d` more levels below it gives back. -/
def entryReleases (d v : Nat) : List Release :=
  if v = 0 then [] else if d = 0 then [.value v] else releases mem d v ++ [.table v]

theorem releases_succ (d T : Nat) :
    releases mem (d + 1) T = (List.range 256).flatMap fun i => entryReleases mem d (mem T i) :=
  rfl

theorem tables_entryReleases (d v : Nat) :
    (entryReleases mem d v).filterMap Release.table? =
      if v = 0 ∨ d = 0 then [] else (releases mem d v).filterMap Release.table? ++ [v] := by
  unfold entryReleases
  by_cases hv : v = 0
  · simp [hv]
  · by_cases hd : d = 0
    · simp [hv, hd, Release.table?]
    · simp [hv, hd, Release.table?]

/-- The memory with the entries of the tables `ts` emptied. -/
def clear (ts : List Nat) : TableMem := fun t i => if t ∈ ts ∧ i < 256 then 0 else mem t i

theorem mem_tables_succ {d T i : Nat} (hi : i < 256) {t : Nat}
    (ht : t ∈ (entryReleases mem d (mem T i)).filterMap Release.table?) :
    t ∈ (releases mem (d + 1) T).filterMap Release.table? := by
  rw [releases_succ, List.filterMap_flatMap, List.mem_flatMap]
  exact ⟨i, List.mem_range.2 hi, ht⟩

theorem releases_congr : ∀ (d T : Nat) {mem' : TableMem},
    (∀ t ∈ T :: (releases mem d T).filterMap Release.table?, ∀ i < 256, mem' t i = mem t i) →
    releases mem' d T = releases mem d T
  | 0, _, _, _ => rfl
  | d + 1, T, mem', h => by
    rw [releases_succ, releases_succ]
    refine List.flatMap_congr fun i hi => ?_
    have hi' := List.mem_range.1 hi
    rw [h T List.mem_cons_self i hi']
    unfold entryReleases
    split_ifs with hv hd
    · rfl
    · rfl
    · -- the tables below the entry are among those below `T`
      have hsub : ∀ t ∈ mem T i :: (releases mem d (mem T i)).filterMap Release.table?,
          t ∈ (releases mem (d + 1) T).filterMap Release.table? := by
        intro t ht
        apply mem_tables_succ mem hi'
        rw [tables_entryReleases, if_neg (by tauto)]
        simp only [List.mem_cons] at ht
        simp only [List.mem_append, List.mem_singleton]
        tauto
      rw [releases_congr d (mem T i) fun t ht j hj => h t (List.mem_cons_of_mem _ (hsub t ht)) j hj]

end Releases

/-! ## `drop_children` on a tree -/

section DropChildren

variable (mem : TableMem) (d T : Nat)

/-- The memory once `drop_children` has emptied the first `k` entries of `T`, and the tables
below them. -/
def clearedUpTo (k : Nat) : TableMem := fun t j =>
  if (t = T ∧ j < k) ∨
      (t ∈ ((List.range k).flatMap fun i => entryReleases mem d (mem T i)).filterMap Release.table? ∧
        j < 256) then 0
  else mem t j

theorem clearedUpTo_zero : clearedUpTo mem d T 0 = mem := by
  funext t j
  simp [clearedUpTo]

theorem clearedUpTo_all :
    clearedUpTo mem d T 256 = clear mem (T :: (releases mem (d + 1) T).filterMap Release.table?) := by
  funext t j
  simp only [clearedUpTo, clear, releases_succ, List.mem_cons]
  split_ifs <;> first | rfl | (exfalso; tauto)

theorem clearedUpTo_succ (k : Nat) :
    clearedUpTo mem d T (k + 1) =
      clear ((clearedUpTo mem d T k).write T k 0)
        ((entryReleases mem d (mem T k)).filterMap Release.table?) := by
  funext t j
  simp only [clearedUpTo, clear, TableMem.write_apply, List.range_succ, List.flatMap_append,
    List.flatMap_singleton, List.filterMap_append, List.mem_append]
  simp only [show j < k + 1 ↔ j < k ∨ j = k from Nat.lt_succ_iff_lt_or_eq]
  split_ifs <;> first | rfl | (exfalso; tauto)

theorem clear_nil : clear mem [] = mem := by
  funext t j
  simp [clear]

theorem tables_releases_split {k : Nat} (hk : k < 256) :
    ∃ rest, (releases mem (d + 1) T).filterMap Release.table? =
      ((List.range k).flatMap fun i => entryReleases mem d (mem T i)).filterMap Release.table? ++
        (entryReleases mem d (mem T k)).filterMap Release.table? ++ rest := by
  have hrange : List.range 256 = List.range k ++ [k] ++ (List.range (255 - k)).map (k + 1 + ·) := by
    rw [← List.range_succ, ← List.range_add]
    congr 1
    omega
  rw [releases_succ, hrange, List.flatMap_append, List.flatMap_append, List.flatMap_singleton,
    List.filterMap_append, List.filterMap_append]
  exact ⟨_, rfl⟩

theorem entry_apart (hnd : (T :: (releases mem (d + 1) T).filterMap Release.table?).Nodup)
    {k : Nat} (hk : k < 256) :
    T ∉ ((List.range k).flatMap fun i => entryReleases mem d (mem T i)).filterMap Release.table? ∧
      (∀ t ∈ (entryReleases mem d (mem T k)).filterMap Release.table?, t ≠ T ∧
        t ∉ ((List.range k).flatMap fun i => entryReleases mem d (mem T i)).filterMap
          Release.table?) ∧
      ((entryReleases mem d (mem T k)).filterMap Release.table?).Nodup := by
  obtain ⟨rest, hsplit⟩ := tables_releases_split mem d T hk
  rw [hsplit, List.nodup_cons, List.nodup_append, List.nodup_append] at hnd
  obtain ⟨hT, ⟨-, hblock, hdisj⟩, -⟩ := hnd
  simp only [List.mem_append, not_or] at hT
  refine ⟨hT.1.1, fun t ht => ⟨?_, fun ht' => hdisj t ht' t ht rfl⟩, hblock⟩
  rintro rfl
  exact hT.1.2 ht

theorem clearedUpTo_self (hnd : (T :: (releases mem (d + 1) T).filterMap Release.table?).Nodup)
    {k : Nat} (hk : k < 256) : clearedUpTo mem d T k T k = mem T k := by
  have hT := (entry_apart mem d T hnd hk).1
  simp [clearedUpTo, hT]

theorem write_clearedUpTo_of_mem
    (hnd : (T :: (releases mem (d + 1) T).filterMap Release.table?).Nodup) {k : Nat}
    (hk : k < 256) {t : Nat} (ht : t ∈ (entryReleases mem d (mem T k)).filterMap Release.table?)
    (j : Nat) : (clearedUpTo mem d T k).write T k 0 t j = mem t j := by
  obtain ⟨htT, htk⟩ := (entry_apart mem d T hnd hk).2.1 t ht
  simp [TableMem.write_apply, clearedUpTo, htT, htk]

theorem state_succ (out : List Release) (k : Nat) :
    (clearedUpTo mem d T (k + 1),
      out ++ (List.range (k + 1)).flatMap fun i => entryReleases mem d (mem T i)) =
    (clear ((clearedUpTo mem d T k).write T k 0)
        ((entryReleases mem d (mem T k)).filterMap Release.table?),
      (out ++ (List.range k).flatMap fun i => entryReleases mem d (mem T i)) ++
        entryReleases mem d (mem T k)) := by
  rw [clearedUpTo_succ, List.range_succ, List.flatMap_append, List.flatMap_singleton,
    List.append_assoc]

theorem tables_entryReleases_perm {v : Nat} (hv : v ≠ 0) (hd : d ≠ 0) :
    List.Perm ((entryReleases mem d v).filterMap Release.table?)
      (v :: (releases mem d v).filterMap Release.table?) := by
  rw [tables_entryReleases, if_neg (by tauto)]
  exact List.perm_append_singleton _ _

theorem clear_perm {ts ts' : List Nat} (h : List.Perm ts ts') : clear mem ts = clear mem ts' := by
  funext t j
  simp only [clear, h.mem_iff]

theorem drop_clear {ts : List Nat} {t : Nat} (ht : t ∈ ts) : Table.drop (clear mem ts) t = .ok () := by
  have hall : ((List.range 256).all fun i => decide (clear mem ts t i = 0)) = true :=
    List.all_eq_true.2 fun i hi => by simp [clear, ht, List.mem_range.1 hi]
  rw [Table.drop, hall]
  rfl

/-- The entry `k` of a tree of different tables takes the state after `k` entries to the state
after `k + 1`, when dropping the children of a next-level table gives back what they hold. -/
theorem dropEntry_spec
    (hnd : (T :: (releases mem (d + 1) T).filterMap Release.table?).Nodup)
    {dropChild : Nat → TableMem × List Release → Except (Fault Empty) (TableMem × List Release)}
    (hchild : d ≠ 0 → ∀ v mem' out', (v :: (releases mem' d v).filterMap Release.table?).Nodup →
      dropChild v (mem', out') =
        .ok (clear mem' (v :: (releases mem' d v).filterMap Release.table?), out' ++ releases mem' d v))
    (out : List Release) {k : Nat} (hk : k < 256) :
    Table.dropEntry (d + 1) T dropChild
        (clearedUpTo mem d T k, out ++ (List.range k).flatMap fun i => entryReleases mem d (mem T i)) k =
      .ok (clearedUpTo mem d T (k + 1),
        out ++ (List.range (k + 1)).flatMap fun i => entryReleases mem d (mem T i)) := by
  have hwrite := @write_clearedUpTo_of_mem mem d T hnd k hk
  have hnodup := (entry_apart mem d T hnd hk).2.2
  rw [state_succ]
  simp only [Table.dropEntry, clearedUpTo_self mem d T hnd hk]
  generalize (clearedUpTo mem d T k).write T k 0 = M at hwrite ⊢
  generalize out ++ (List.range k).flatMap (fun i => entryReleases mem d (mem T i)) = out' at ⊢
  obtain h0 | ⟨w, hw⟩ : mem T k = 0 ∨ ∃ w, mem T k = w + 1 := by
    rcases mem T k with _ | w
    · exact .inl rfl
    · exact .inr ⟨w, rfl⟩
  · -- an empty entry
    simp only [h0, entryReleases, if_pos, List.filterMap_nil, clear_nil, List.append_nil]
    rfl
  rw [hw] at hwrite hnodup ⊢
  rcases d with _ | d
  · -- a value of a leaf table
    simp only [entryReleases, Nat.add_one_ne_zero, if_false, if_pos, List.filterMap_cons,
      Release.table?, List.filterMap_nil, clear_nil]
    rfl
  · -- a next-level table: its children, then the table itself
    have hperm := tables_entryReleases_perm mem (d + 1) (Nat.add_one_ne_zero w) (Nat.add_one_ne_zero d)
    have hcongr : releases M (d + 1) (w + 1) = releases mem (d + 1) (w + 1) :=
      releases_congr mem (d + 1) (w + 1) fun t ht j _ => hwrite (hperm.mem_iff.2 ht) j
    rw [hchild (Nat.add_one_ne_zero d) (w + 1) M out' (by rw [hcongr]; exact hperm.nodup_iff.1 hnodup),
      Fault.ok_bind]
    dsimp only
    rw [drop_clear M List.mem_cons_self, Fault.ok_bind, hcongr, clear_perm M hperm]
    simp only [entryReleases, Nat.add_one_ne_zero, if_false, List.append_assoc]
    rfl

theorem foldlM_dropEntry
    (hnd : (T :: (releases mem (d + 1) T).filterMap Release.table?).Nodup)
    {dropChild : Nat → TableMem × List Release → Except (Fault Empty) (TableMem × List Release)}
    (hchild : d ≠ 0 → ∀ v mem' out', (v :: (releases mem' d v).filterMap Release.table?).Nodup →
      dropChild v (mem', out') =
        .ok (clear mem' (v :: (releases mem' d v).filterMap Release.table?), out' ++ releases mem' d v))
    (out : List Release) :
    (List.range 256).foldlM (Table.dropEntry (d + 1) T dropChild) (mem, out) =
      .ok (clear mem (T :: (releases mem (d + 1) T).filterMap Release.table?),
        out ++ releases mem (d + 1) T) := by
  have hloop := Iterator.foldlM_range_eq_ok (fun k => (clearedUpTo mem d T k,
    out ++ (List.range k).flatMap fun i => entryReleases mem d (mem T i))) (n := 256)
    fun k hk => dropEntry_spec mem d T hnd hchild out hk
  rwa [clearedUpTo_zero, List.range_zero, List.flatMap_nil, List.append_nil, clearedUpTo_all,
    ← releases_succ] at hloop

end DropChildren

/-- A tree below `T` of `d + 1` levels whose tables are all different: `drop_children` gives back
what `releases` reads off it, and empties its tables. -/
theorem dropChildren_spec : ∀ (d T : Nat) (mem : TableMem) (out : List Release),
    (T :: (releases mem (d + 1) T).filterMap Release.table?).Nodup →
    Table.dropChildren (d + 1) T (mem, out) =
      .ok (clear mem (T :: (releases mem (d + 1) T).filterMap Release.table?),
        out ++ releases mem (d + 1) T)
  | 0, T, mem, out, hnd => foldlM_dropEntry mem 0 T hnd (fun h => absurd rfl h) out
  | d + 1, T, mem, out, hnd =>
    foldlM_dropEntry mem (d + 1) T hnd (fun _ v mem' out' h => dropChildren_spec d v mem' out' h) out

/-! ## What the traversal gives back, read through the walks -/

section Digits

/-- The `d` base-256 digits of `n`, most significant first. -/
def digits : Nat → Nat → List Nat
  | 0, _ => []
  | d + 1, n => n / 256 ^ d % 256 :: digits d n

theorem digits_mul_add : ∀ (d c r : Nat), digits d (c * 256 ^ d + r) = digits d r
  | 0, _, _ => rfl
  | d + 1, c, r => by
    have hsplit : c * 256 ^ (d + 1) + r = 256 ^ d * (c * 256) + r := by ring
    have hhead : (256 ^ d * (c * 256) + r) / 256 ^ d % 256 = r / 256 ^ d % 256 := by
      rw [Nat.mul_add_div (by positivity)]
      omega
    rw [digits, digits, hsplit, hhead, ← hsplit, show c * 256 ^ (d + 1) = c * 256 * 256 ^ d by ring,
      digits_mul_add d (c * 256) r]

theorem digits_cons {d i r : Nat} (hi : i < 256) (hr : r < 256 ^ d) :
    digits (d + 1) (i * 256 ^ d + r) = i :: digits d r := by
  rw [digits, digits_mul_add, Nat.mul_comm, Nat.mul_add_div (by positivity), Nat.div_eq_of_lt hr,
    Nat.add_zero, Nat.mod_eq_of_lt hi]

theorem range_mul_eq_flatMap (a b : Nat) :
    List.range (a * b) = (List.range a).flatMap fun i => (List.range b).map (i * b + ·) := by
  induction a with
  | zero => simp
  | succ a ih =>
    rw [Nat.succ_mul, List.range_add, ih, List.range_succ, List.flatMap_append,
      List.flatMap_singleton]

end Digits

section Walks

variable (mem : TableMem)

theorem values_entryReleases {d : Nat}
    (hrec : d ≠ 0 → ∀ v, (releases mem d v).filterMap Release.value? =
      (List.range (256 ^ d)).filterMap fun n => descend mem (digits d n) v)
    (T : Nat) {i : Nat} (hi : i < 256) :
    (entryReleases mem d (mem T i)).filterMap Release.value? =
      ((List.range (256 ^ d)).map (i * 256 ^ d + ·)).filterMap
        fun n => descend mem (digits (d + 1) n) T := by
  rw [List.filterMap_map, List.filterMap_congr (g := fun r => descend mem (i :: digits d r) T)
    fun r hr => by rw [Function.comp_apply, digits_cons hi (List.mem_range.1 hr)]]
  unfold entryReleases
  by_cases hv : mem T i = 0
  · simp [hv, descend]
  · by_cases hd : d = 0
    · subst hd
      simp [hv, descend, digits, Release.value?]
    · simp only [if_neg hv, if_neg hd, List.filterMap_append, hrec hd, descend]
      simp [Release.value?]

theorem values_releases_of {d : Nat}
    (hrec : d ≠ 0 → ∀ v, (releases mem d v).filterMap Release.value? =
      (List.range (256 ^ d)).filterMap fun n => descend mem (digits d n) v) (T : Nat) :
    (releases mem (d + 1) T).filterMap Release.value? =
      (List.range (256 ^ (d + 1))).filterMap fun n => descend mem (digits (d + 1) n) T := by
  rw [releases_succ, List.filterMap_flatMap, pow_succ', range_mul_eq_flatMap, List.filterMap_flatMap]
  exact List.flatMap_congr fun i hi => values_entryReleases mem hrec T (List.mem_range.1 hi)

/-- Read through the walks: the values come out in the order of the numbers whose digits lead to
them. -/
theorem values_releases : ∀ (d T : Nat), (releases mem (d + 1) T).filterMap Release.value? =
    (List.range (256 ^ (d + 1))).filterMap fun n => descend mem (digits (d + 1) n) T
  | 0, T => values_releases_of mem (fun h => absurd rfl h) T
  | d + 1, T => values_releases_of mem (fun _ => values_releases d) T

theorem mem_tables_entryReleases {d : Nat}
    (hrec : d ≠ 0 → ∀ v t, t ∈ (releases mem d v).filterMap Release.table? ↔
      ∃ q, q ≠ [] ∧ q.length < d ∧ (∀ j ∈ q, j < 256) ∧ descend mem q v = some t)
    (T i t : Nat) :
    t ∈ (entryReleases mem d (mem T i)).filterMap Release.table? ↔
      ∃ q, q.length < d ∧ (∀ j ∈ q, j < 256) ∧ descend mem (i :: q) T = some t := by
  rw [tables_entryReleases]
  by_cases hv : mem T i = 0
  · simp [hv, descend]
  · by_cases hd : d = 0
    · simp [hd]
    · have hstep : ∀ q, descend mem (i :: q) T = descend mem q (mem T i) := fun q => by
        simp [descend, hv]
      simp only [if_neg (not_or.2 ⟨hv, hd⟩), List.mem_append, List.mem_singleton, hrec hd, hstep]
      constructor
      · rintro (⟨q, -, hq, hlt, hdesc⟩ | rfl)
        · exact ⟨q, hq, hlt, hdesc⟩
        · exact ⟨[], by simpa using Nat.pos_of_ne_zero hd, by simp, rfl⟩
      · rintro ⟨q, hq, hlt, hdesc⟩
        rcases q with _ | ⟨j, q⟩
        · exact .inr (Option.some.inj hdesc).symm
        · exact .inl ⟨j :: q, List.cons_ne_nil j q, hq, hlt, hdesc⟩

theorem mem_tables_releases_of {d : Nat}
    (hrec : d ≠ 0 → ∀ v t, t ∈ (releases mem d v).filterMap Release.table? ↔
      ∃ q, q ≠ [] ∧ q.length < d ∧ (∀ j ∈ q, j < 256) ∧ descend mem q v = some t)
    (T t : Nat) :
    t ∈ (releases mem (d + 1) T).filterMap Release.table? ↔
      ∃ p, p ≠ [] ∧ p.length < d + 1 ∧ (∀ i ∈ p, i < 256) ∧ descend mem p T = some t := by
  rw [releases_succ, List.filterMap_flatMap, List.mem_flatMap]
  constructor
  · rintro ⟨i, hi, ht⟩
    obtain ⟨q, hq, hlt, hdesc⟩ := (mem_tables_entryReleases mem hrec T i t).1 ht
    refine ⟨i :: q, List.cons_ne_nil i q, by simp; omega, ?_, hdesc⟩
    simpa [List.mem_range.1 hi] using hlt
  · rintro ⟨_ | ⟨i, q⟩, hp, hlen, hlt, hdesc⟩
    · exact absurd rfl hp
    · refine ⟨i, List.mem_range.2 (hlt i List.mem_cons_self), ?_⟩
      exact (mem_tables_entryReleases mem hrec T i t).2
        ⟨q, by simpa using hlen, fun j hj => hlt j (List.mem_cons_of_mem i hj), hdesc⟩

/-- The tables below `T` are those that a walk of fewer than `d + 1` indices reaches. -/
theorem mem_tables_releases : ∀ (d T t : Nat),
    t ∈ (releases mem (d + 1) T).filterMap Release.table? ↔
      ∃ p, p ≠ [] ∧ p.length < d + 1 ∧ (∀ i ∈ p, i < 256) ∧ descend mem p T = some t
  | 0, T, t => mem_tables_releases_of mem (fun h => absurd rfl h) T t
  | d + 1, T, t => mem_tables_releases_of mem (fun _ => mem_tables_releases d) T t

theorem mem_tables_entry {d T i t : Nat} :
    t ∈ (entryReleases mem d (mem T i)).filterMap Release.table? ↔
      ∃ q, q.length < d ∧ (∀ j ∈ q, j < 256) ∧ descend mem (i :: q) T = some t :=
  mem_tables_entryReleases mem (fun hd v t => by
    obtain ⟨d', rfl⟩ := Nat.exists_eq_succ_of_ne_zero hd
    exact mem_tables_releases mem d' v t) T i t

/-- Different walks of fewer than `d` indices from `T` reach different tables. -/
def WalksApart (d T : Nat) : Prop :=
  ∀ p q t, p.length < d → q.length < d → (∀ i ∈ p, i < 256) → (∀ i ∈ q, i < 256) →
    descend mem p T = some t → descend mem q T = some t → p = q

theorem WalksApart.entry {d T i : Nat} (h : WalksApart mem (d + 1) T) (hi : i < 256)
    (hv : mem T i ≠ 0) : WalksApart mem d (mem T i) := by
  intro p q t hp hq hpi hqi hpt hqt
  have hstep : ∀ r, descend mem (i :: r) T = descend mem r (mem T i) := fun r => by
    simp [descend, hv]
  have hcons := h (i :: p) (i :: q) t (by simpa using hp) (by simpa using hq)
    (by simpa [hi] using hpi) (by simpa [hi] using hqi) (by rw [hstep, hpt]) (by rw [hstep, hqt])
  exact (List.cons.inj hcons).2

theorem nodup_tables_releases_of {d : Nat}
    (hrec : d ≠ 0 → ∀ v, WalksApart mem d v → (v :: (releases mem d v).filterMap Release.table?).Nodup)
    {T : Nat} (hT : WalksApart mem (d + 1) T) :
    (T :: (releases mem (d + 1) T).filterMap Release.table?).Nodup := by
  rw [List.nodup_cons]
  refine ⟨fun hmem => ?_, ?_⟩
  · -- only the empty walk reaches `T`
    obtain ⟨p, hp, hlen, hlt, hdesc⟩ := (mem_tables_releases mem d T T).1 hmem
    exact hp (hT p [] T hlen (by simp) hlt (by simp) hdesc rfl)
  rw [releases_succ, List.filterMap_flatMap, List.nodup_flatMap]
  refine ⟨fun i hi => ?_, List.nodup_range.pairwise_of_forall_ne fun i hi j hj hij => ?_⟩
  · by_cases hvd : mem T i = 0 ∨ d = 0
    · rw [tables_entryReleases, if_pos hvd]
      exact List.nodup_nil
    · obtain ⟨hv, hd⟩ := not_or.1 hvd
      exact (tables_entryReleases_perm mem d hv hd).nodup_iff.2
        (hrec hd _ (hT.entry mem (List.mem_range.1 hi) hv))
  · -- the walks to the tables below two entries start with different indices
    intro t hti htj
    obtain ⟨q, hq, hqlt, hqt⟩ := (mem_tables_entry mem).1 hti
    obtain ⟨q', hq', hqlt', hqt'⟩ := (mem_tables_entry mem).1 htj
    have hwalks := hT (i :: q) (j :: q') t (by simpa using hq) (by simpa using hq')
      (by simpa [List.mem_range.1 hi] using hqlt) (by simpa [List.mem_range.1 hj] using hqlt') hqt hqt'
    exact hij (List.cons.inj hwalks).1

theorem nodup_tables_releases : ∀ (d T : Nat), WalksApart mem (d + 1) T →
    (T :: (releases mem (d + 1) T).filterMap Release.table?).Nodup
  | 0, _, hT => nodup_tables_releases_of mem (fun h => absurd rfl h) hT
  | d + 1, _, hT => nodup_tables_releases_of mem (fun _ v hv => nodup_tables_releases d v hv) hT

theorem descend_ne_zero : ∀ {p : List Nat} {T t : Nat}, p ≠ [] → descend mem p T = some t → t ≠ 0
  | [], _, _, hp, _ => absurd rfl hp
  | i :: p, T, t, _, h => by
    rw [descend] at h
    split at h
    · cases h
    · rename_i hv
      rcases p with _ | ⟨j, p⟩
      · cases h
        exact hv
      · exact descend_ne_zero (List.cons_ne_nil j p) h

end Walks

theorem IsTree.walksApart {mem : TableMem} {root d B : Nat} (ht : IsTree mem root d B) :
    WalksApart mem d root :=
  fun p q t hp hq _ _ hpt hqt => ht.inj p q t hp hq hpt hqt

/-! ## The handles of the map -/

theorem bytes_eq_digits (x : Nat) : U32.bytes x = digits 4 x := by
  simp [U32.bytes, digits]

theorem drop_digits (d n : Nat) : ∀ k, (digits (d + k) n).drop k = digits d n
  | 0 => rfl
  | k + 1 => by rw [← Nat.add_assoc, digits, List.drop_succ_cons, drop_digits d n k]

theorem tableIndices_lt (m : HandleMap) (handle : Nat) : ∀ j ∈ m.tableIndices handle, j < 256 := by
  intro j hj
  simp only [tableIndices, List.mem_map] at hj
  obtain ⟨i, -, rfl⟩ := hj
  exact Nat.mod_lt _ (by decide)

variable {maxHandle : Nat} {m : HandleMap}

theorem Inv.pathIndices_eq_digits (hm : m.Inv maxHandle) {h : Nat} (hh : h < 2 ^ (8 * m.depth)) :
    m.pathIndices h = digits m.depth h := by
  have h4 : digits 4 h = digits (m.depth + (4 - m.depth)) h := by
    congr 1
    have := hm.depth.2
    omega
  rw [pathIndices_eq hm.depth rfl hm.shift hh, bytes_eq_digits, h4, drop_digits]

theorem Inv.get_eq_digits (hm : m.Inv maxHandle) {h : Nat} (hh : h < 2 ^ (8 * m.depth)) :
    m.get h = descend m.mem (digits m.depth h) m.table := by
  rw [get_eq_descend hm.depth.1, hm.pathIndices_eq_digits hh]

/-! ## What a run from `new` keeps of the tables -/

/-- Every table from the second one below `B` is reached by a walk of fewer than `d` indices. -/
def Reached (mem : TableMem) (root d B : Nat) : Prop :=
  ∀ t, 2 ≤ t → t < B → ∃ p, p.length < d ∧ (∀ i ∈ p, i < 256) ∧ descend mem p root = some t

theorem Reached.write_leaf {mem : TableMem} {root d B : Nat} (hr : Reached mem root d B)
    (ht : IsTree mem root d B) {q : List Nat} {T i v : Nat} (hq : q.length + 1 = d)
    (hqT : descend mem q root = some T) : Reached (mem.write T i v) root d B := by
  intro t h2 hlt
  obtain ⟨p, hp, hpi, hdesc⟩ := hr t h2 hlt
  have hne : p ≠ q ++ [i] := by
    rintro rfl
    simp at hp
    omega
  refine ⟨p, hp, hpi, ?_⟩
  rw [descend_write ht (by omega) hqT (fun h => absurd h (by omega)) p hp.le, if_neg hne, hdesc]

theorem newNextLevelTable_reached {root d t i : Nat} {q : List Nat}
    (ht : IsTree m.mem root d m.nextTable) (hr : Reached m.mem root d m.nextTable)
    (hq : q.length + 1 < d) (hqi : ∀ j ∈ q, j < 256) (hi : i < 256)
    (hqt : descend m.mem q root = some t) (hti : m.mem t i = 0) :
    Reached (m.newNextLevelTable t i).2.mem root d (m.newNextLevelTable t i).2.nextTable := by
  obtain ⟨-, hnext, -, hnew, hsame⟩ := newNextLevelTable_spec ht hq hqt hti
  intro t' h2 hlt
  rw [hnext] at hlt
  rcases Nat.lt_succ_iff_lt_or_eq.1 hlt with hlt | rfl
  · -- a table of before, whose walk does not go through the empty slot
    obtain ⟨p, hp, hpi, hdesc⟩ := hr t' h2 hlt
    have hne : p ≠ q ++ [i] := by
      rintro rfl
      rw [descend_snoc, hqt] at hdesc
      simp [hti] at hdesc
    exact ⟨p, hp, hpi, by rw [hsame p hp.le hne, hdesc]⟩
  · refine ⟨q ++ [i], by simp; omega, fun j hj => ?_, hnew⟩
    rcases List.mem_append.1 hj with hj | hj
    · exact hqi j hj
    · rw [List.mem_singleton.1 hj]
      exact hi

theorem descendCreate_reached {root d : Nat} :
    ∀ (is q : List Nat) (t : Nat) (m : HandleMap), IsTree m.mem root d m.nextTable →
      Reached m.mem root d m.nextTable → descend m.mem q root = some t →
      q.length + is.length < d → (∀ j ∈ q ++ is, j < 256) →
      Reached (descendCreate is t m).2.mem root d (descendCreate is t m).2.nextTable
  | [], _, _, _, _, hr, _, _, _ => hr
  | i :: is, q, t, m, ht, hr, hqt, hlen, hidx => by
    have hlen' : (q ++ [i]).length + is.length < d := by
      simp only [List.length_append, List.length_cons, List.length_nil] at hlen ⊢
      omega
    have hidx' : ∀ j ∈ q ++ [i] ++ is, j < 256 := by simpa using hidx
    have hqi : ∀ j ∈ q, j < 256 := fun j hj => hidx j (List.mem_append_left _ hj)
    have hi : i < 256 := hidx i (List.mem_append_right _ List.mem_cons_self)
    rw [descendCreate_cons]
    by_cases hti : m.mem t i = 0
    · obtain ⟨hN, -, ht₁, hq₁, -⟩ := newNextLevelTable_spec ht (by simp at hlen; omega) hqt hti
      rw [if_neg (not_not.2 hti)]
      exact descendCreate_reached is (q ++ [i]) _ _ ht₁
        (newNextLevelTable_reached ht hr (by simp at hlen; omega) hqi hi hqt hti)
        (by rw [hq₁, hN]) hlen' hidx'
    · have hnext : descend m.mem (q ++ [i]) root = some (m.mem t i) := by
        rw [descend_snoc, hqt]
        simp [hti]
      rw [if_pos hti]
      exact descendCreate_reached is (q ++ [i]) _ m ht hr hnext hlen' hidx'

/-- What a run from `new` keeps besides `Inv`: the root is the table `new` made, every table made
since is reached by a walk, and no slot of a handle at or past `max_handle` holds a value. -/
structure DropInv (maxHandle : Nat) (m : HandleMap) : Prop where
  inv : m.Inv maxHandle
  root : m.table = 1
  reached : Reached m.mem m.table m.depth m.nextTable
  outside : ∀ h, maxHandle ≤ h → h < 2 ^ (8 * m.depth) → m.get h = none

theorem dropInv_new (hpos : 0 < maxHandle) (hlt : maxHandle < 2 ^ 32) :
    (new maxHandle).DropInv maxHandle := by
  have hinv := inv_new hpos hlt
  refine ⟨hinv, rfl, fun t h2 hlt => absurd hlt (by show ¬ t < 2; omega), fun h _ _ => ?_⟩
  -- every table is empty, so the walk of a handle stops at the root
  rw [get_eq_descend hinv.depth.1]
  have hlen : ((new maxHandle).pathIndices h).length = (new maxHandle).depth := by simp [pathIndices]
  rcases hpath : (new maxHandle).pathIndices h with _ | ⟨i, p⟩
  · rw [hpath] at hlen
    have := hinv.depth.1
    simp at hlen
    omega
  · rfl

theorem insert_eq_ok_of_nextHandle {m' : HandleMap} {value handle : Nat}
    {allocator : HandleAllocator} {r : Option Nat}
    (hnext : m.allocator.nextHandle = some (handle, allocator)) (h : m.insert value = .ok (r, m')) :
    ∃ T m₁, descendCreate (m.tableIndices handle) m.table { m with allocator } = (T, m₁) ∧
      m' = { m₁ with mem := m₁.mem.write T (m.leafIndex handle) value } := by
  rcases hwalk : descendCreate (m.tableIndices handle) m.table { m with allocator } with ⟨T, m₁⟩
  rw [insert_of_nextHandle hnext hwalk] at h
  split at h
  · cases h
    exact ⟨T, m₁, rfl, rfl⟩
  · cases h

theorem get_of_frame (hd : 1 ≤ m.depth) {m' : HandleMap} (hdepth : m'.depth = m.depth)
    (hshift : m'.handleZerosPrefixBitLength = m.handleZerosPrefixBitLength)
    (htable : m'.table = m.table) (h : Nat) :
    m'.get h = descend m'.mem (m.pathIndices h) m.table := by
  rw [get_eq_descend (hdepth ▸ hd), pathIndices_congr hdepth hshift, htable]

/-- `insert` makes its tables where walks reach them, and writes a value at the path of a handle
below `max_handle`. -/
theorem DropInv.insert (hm : m.DropInv maxHandle) {value : Nat} {r : Option Nat} {m' : HandleMap}
    (h : m.insert value = .ok (r, m')) (hinv : m'.Inv maxHandle) : m'.DropInv maxHandle := by
  cases hnext : m.allocator.nextHandle with
  | none =>
    rw [HandleMap.insert, hnext] at h
    cases h
    exact hm
  | some x =>
    obtain ⟨handle, allocator⟩ := x
    obtain ⟨T, m₁, hwalk, rfl⟩ := insert_eq_ok_of_nextHandle hnext h
    have hlt : handle < maxHandle := hm.inv.maxHandle_eq ▸ (hm.inv.allocator.nextHandle_some hnext).1
    have hd := hm.inv.depth
    have hlen : (m.tableIndices handle).length = m.depth - 1 := by simp [tableIndices]
    obtain ⟨ht₁, hdesc, hsame⟩ := descendCreate_spec (m.tableIndices handle) [] m.table
      { m with allocator } hm.inv.tree rfl (by rw [List.length_nil, hlen]; omega)
    have hreach₁ := descendCreate_reached (m.tableIndices handle) [] m.table { m with allocator }
      hm.inv.tree hm.reached rfl (by rw [List.length_nil, hlen]; omega)
      (by simpa using tableIndices_lt m handle)
    obtain ⟨mem', B', hm₁⟩ := descendCreate_frame (m.tableIndices handle) m.table { m with allocator }
    rw [hwalk] at ht₁ hdesc hsame hreach₁ hm₁
    rw [List.nil_append] at hdesc
    subst hm₁
    refine ⟨hinv, hm.root, hreach₁.write_leaf ht₁ (by rw [hlen]; omega) hdesc, fun h' hh' hh'' => ?_⟩
    have hne : m.pathIndices h' ≠ m.tableIndices handle ++ [m.leafIndex handle] := by
      rw [← pathIndices_eq_append hd.1]
      intro heq
      have hb := hm.inv.bound
      have := eq_of_pathIndices_eq hd rfl hm.inv.shift hh'' (by omega) heq
      omega
    rw [get_of_frame hd.1 (by rfl) (by rfl) (by rfl), descend_write ht₁ (by rw [hlen]; omega) hdesc (fun h => absurd h (by rw [hlen]; omega))
        _ (by simp [pathIndices]),
      if_neg hne, hsame _ (by simp [pathIndices]), ← get_eq_descend hd.1]
    exact hm.outside h' hh' hh''

theorem DropInv.remove (hm : m.DropInv maxHandle) (handle : Nat)
    (hinv : (m.remove handle).2.Inv maxHandle) : (m.remove handle).2.DropInv maxHandle := by
  cases hT : descend m.mem (m.tableIndices handle) m.table with
  | none =>
    have hremove : m.remove handle = (none, m) := by
      rw [HandleMap.remove, leafTableForHandle_eq, hT]
      rfl
    rw [hremove]
    exact hm
  | some T =>
    obtain ⟨a, hremove⟩ : ∃ a, (m.remove handle).2 =
        { m with mem := m.mem.write T (m.leafIndex handle) 0, allocator := a } := by
      simp only [HandleMap.remove, leafTableForHandle_eq, hT, Option.map_some]
      split
      · exact ⟨m.allocator, rfl⟩
      · exact ⟨_, rfl⟩
    rw [hremove] at hinv ⊢
    have hd := hm.inv.depth
    have hlen : (m.tableIndices handle).length = m.depth - 1 := by simp [tableIndices]
    refine ⟨hinv, hm.root, hm.reached.write_leaf hm.inv.tree (by rw [hlen]; omega) hT,
      fun h' hh' hh'' => ?_⟩
    rw [get_of_frame hd.1 (by rfl) (by rfl) (by rfl), descend_write hm.inv.tree (by rw [hlen]; omega) hT (fun h => absurd h (by rw [hlen]; omega))
        _ (by simp [pathIndices]), ← pathIndices_eq_append hd.1]
    split
    · rfl
    · rw [← get_eq_descend hd.1]
      exact hm.outside h' hh' hh''

theorem DropInv.run (hm : m.DropInv maxHandle) {op : Op} (hop : op.Valid maxHandle) :
    ∃ r m', op.run m = .ok (r, m') ∧
      Spec maxHandle (m.contents maxHandle) op r (m'.contents maxHandle) ∧ m'.DropInv maxHandle := by
  obtain ⟨r, m', hrun, hspec, hinv⟩ := hm.inv.run hop
  refine ⟨r, m', hrun, hspec, ?_⟩
  cases op with
  | insert value => exact hm.insert hrun hinv
  | get handle =>
    cases hrun
    exact hm
  | remove handle =>
    obtain rfl : m' = (m.remove handle).2 := by rw [show m.remove handle = (r, m') from Except.ok.inj hrun]
    exact hm.remove handle hinv

/-! ## Dropping the map -/

theorem DropInv.depth_eq (hm : m.DropInv maxHandle) : m.depth = m.depth - 1 + 1 := by
  have := hm.inv.depth.1
  omega

/-- The root and the tables below it are all different, so `drop_children` gives back what
`releases` reads off them, and the root is empty when it is dropped. -/
theorem DropInv.drop_eq (hm : m.DropInv maxHandle) :
    m.drop = .ok (clear m.mem (m.table :: (releases m.mem m.depth m.table).filterMap Release.table?),
      releases m.mem m.depth m.table) := by
  have hwalks : WalksApart m.mem (m.depth - 1 + 1) m.table := hm.depth_eq ▸ hm.inv.tree.walksApart
  rw [drop, hm.depth_eq, dropChildren_spec _ m.table m.mem [] (nodup_tables_releases m.mem _ _ hwalks),
    Fault.ok_bind]
  dsimp only
  rw [drop_clear _ List.mem_cons_self, Fault.ok_bind, List.nil_append]
  rfl

theorem DropInv.values (hm : m.DropInv maxHandle) :
    (releases m.mem m.depth m.table).filterMap Release.value? =
      (List.range maxHandle).filterMap (m.contents maxHandle) := by
  have hpow : 2 ^ (8 * m.depth) = 256 ^ m.depth := by
    rw [pow_mul]
    norm_num
  have hsplit : List.range (2 ^ (8 * m.depth)) =
      List.range maxHandle ++ (List.range (2 ^ (8 * m.depth) - maxHandle)).map (maxHandle + ·) := by
    rw [← List.range_add]
    congr 1
    have := hm.inv.bound
    omega
  have hpast : ((List.range (2 ^ (8 * m.depth) - maxHandle)).map (maxHandle + ·)).filterMap m.get = [] := by
    rw [List.filterMap_eq_nil_iff]
    intro h hh
    obtain ⟨n, hn, rfl⟩ := List.mem_map.1 hh
    exact hm.outside _ (by omega) (by have := List.mem_range.1 hn; omega)
  calc (releases m.mem m.depth m.table).filterMap Release.value?
      = (List.range (256 ^ m.depth)).filterMap fun n => descend m.mem (digits m.depth n) m.table := by
        rw [hm.depth_eq]
        exact values_releases m.mem _ m.table
    _ = (List.range (2 ^ (8 * m.depth))).filterMap m.get := by
        rw [hpow]
        exact List.filterMap_congr fun n hn =>
          (hm.inv.get_eq_digits (by rw [hpow]; exact List.mem_range.1 hn)).symm
    _ = (List.range maxHandle).filterMap m.get := by
        rw [hsplit, List.filterMap_append, hpast, List.append_nil]
    _ = (List.range maxHandle).filterMap (m.contents maxHandle) :=
        List.filterMap_congr fun h hh => (if_pos (List.mem_range.1 hh)).symm

theorem DropInv.tables (hm : m.DropInv maxHandle) :
    List.Perm ((releases m.mem m.depth m.table).filterMap Release.table?)
      (List.range' 2 (m.nextTable - 2)) := by
  have hwalks : WalksApart m.mem (m.depth - 1 + 1) m.table := hm.depth_eq ▸ hm.inv.tree.walksApart
  have hnodup := (List.nodup_cons.1 (nodup_tables_releases m.mem _ _ hwalks)).2
  rw [hm.depth_eq] at hnodup ⊢
  refine (List.perm_ext_iff_of_nodup hnodup List.nodup_range').2 fun t => ?_
  rw [mem_tables_releases, List.mem_range'_1]
  constructor
  · rintro ⟨p, hp, hlen, -, hdesc⟩
    have hlt := hm.inv.tree.lt p t (by rw [hm.depth_eq]; exact hlen) hdesc
    have h0 := descend_ne_zero m.mem hp hdesc
    have h1 : t ≠ 1 := by
      rintro rfl
      exact hp (hm.inv.tree.inj p [] 1 (by rw [hm.depth_eq]; exact hlen)
        (by have := hm.inv.depth.1; simp; omega) hdesc (by rw [hm.root]; rfl))
    omega
  · rintro ⟨h2, hlt⟩
    obtain ⟨p, hp, hpi, hdesc⟩ := hm.reached t h2 (by omega)
    refine ⟨p, ?_, by have := hm.inv.depth.1; omega, hpi, hdesc⟩
    rintro rfl
    rw [hm.root] at hdesc
    cases hdesc
    omega

/-- For every `max_handle` from one up to `2^32 - 1` and every sequence of operations whose values
are not `0` and whose handles of `get` and `remove` are below `max_handle`, run one after another
from `new max_handle`: dropping the map afterwards does not panic; it gives back the value of every
handle the map of handles holds, in the order of the handles, and no other value; and it frees
every table the map made, each once. -/
theorem drop_releases_values_and_tables (maxHandle : Nat) (hpos : 0 < maxHandle)
    (hlt : maxHandle < 2 ^ 32) (ops : List Op) (hops : ∀ op ∈ ops, op.Valid maxHandle) :
    ∃ trace m mem out, runOps (new maxHandle) ops = .ok (trace, m) ∧
      SpecRun maxHandle (fun _ => none) trace (m.contents maxHandle) ∧
      m.drop = .ok (mem, out) ∧
      out.filterMap Release.value? = (List.range maxHandle).filterMap (m.contents maxHandle) ∧
      List.Perm (out.filterMap Release.table?) (List.range' 2 (m.nextTable - 2)) := by
  obtain ⟨trace, m, hrun, hspec, hm⟩ :=
    runOps_of_step (fun hm hop => DropInv.run hm hop) (dropInv_new hpos hlt) ops hops
  rw [contents_new hpos hlt] at hspec
  exact ⟨trace, m, _, _, hrun, hspec, hm.drop_eq, hm.values, hm.tables⟩

/-- Three hundred handles, two inserts, a remove of the first handle, a get of the second and an
insert that takes the first handle again, then the map dropped. -/
theorem drop_releases_values_and_tables_three_hundred :
    0 < 300 ∧ 300 < 2 ^ 32 ∧
    (∀ op ∈ [Op.insert 0x1000, .insert 0x2000, .remove 0, .get 1, .insert 0x3000],
      op.Valid 300) ∧
    ∃ trace m mem out, runOps (new 300)
        [.insert 0x1000, .insert 0x2000, .remove 0, .get 1, .insert 0x3000] = .ok (trace, m) ∧
      SpecRun 300 (fun _ => none) trace (m.contents 300) ∧
      m.drop = .ok (mem, out) ∧
      out.filterMap Release.value? = (List.range 300).filterMap (m.contents 300) ∧
      List.Perm (out.filterMap Release.table?) (List.range' 2 (m.nextTable - 2)) :=
  ⟨by decide, by decide, by decide,
    drop_releases_values_and_tables 300 (by decide) (by decide) _ (by decide)⟩

/-- `HandleMap::new(0)` makes a map of depth zero, and dropping it reaches the `unreachable!()` of
`drop_children` at its first entry. -/
example : (new 0).drop = .error .panic := rfl

end HandleMap

end EndlessHole.Collections
