import EndlessHole.Collections.HandleMapConcurrent

/-!
# The handle map as a map of handles

Run one operation at a time, the handle map of `handle_map.rs` is a finite map from the handles
below `max_handle` to values: `insert` puts its value at the least handle without one and returns
that handle, or returns `None` when every handle has one; `get` returns the value of a handle, and
`remove` returns it and takes it out. `Spec` states that map, and every run of the code from `new`
is a run of `Spec` (`handle_map_refines_finite_map`); in particular the assertion of `insert`
never fires when no two operations overlap.

The proof rests on the shape of the tables. `IsTree` says that the paths of fewer than `depth`
indices reach tables allocated so far, and that two of them never reach the same table. A write to
one slot then changes the walk of one path only (`descend_write`); `new_next_level_table` adds a
fresh table at one path (`IsTree.write_fresh`), and the walk of `insert_self_referential` keeps
the walk of every handle (`descendCreate_spec`). `Inv` adds that a handle's bit is set exactly when
its slot holds a value.
-/

namespace EndlessHole.Collections

theorem TableMem.write_apply (mem : TableMem) (t i v t' i' : Nat) :
    mem.write t i v t' i' = if t' = t ∧ i' = i then v else mem t' i' := by
  by_cases ht : t' = t
  · subst ht
    by_cases hi : i' = i
    · subst hi
      simp
    · simp [TableMem.write, hi]
  · simp [TableMem.write, ht]

namespace HandleMap

/-! ## Walks through a changed memory -/

section Descend

variable {mem : TableMem}

theorem descend_append (p q : List Nat) (T : Nat) :
    descend mem (p ++ q) T = (descend mem p T).bind (descend mem q) := by
  induction p generalizing T with
  | nil => rfl
  | cons i p ih =>
    simp only [List.cons_append, descend]
    split
    · rfl
    · exact ih _

theorem descend_snoc (p : List Nat) (k T : Nat) :
    descend mem (p ++ [k]) T =
      (descend mem p T).bind fun T₀ => if mem T₀ k = 0 then none else some (mem T₀ k) := by
  rw [descend_append]
  rfl

/-- The tables of a tree of `d` levels under `root`: every path of fewer than `d` indices that
reaches a table reaches one below `B`, the tables handed out so far, and no two such paths reach
the same table. -/
structure IsTree (mem : TableMem) (root d B : Nat) : Prop where
  lt : ∀ p T, p.length < d → descend mem p root = some T → T < B
  inj : ∀ p q T, p.length < d → q.length < d → descend mem p root = some T →
    descend mem q root = some T → p = q

variable {root d B : Nat}

theorem IsTree.congr {mem' : TableMem} (ht : IsTree mem root d B)
    (h : ∀ p : List Nat, p.length < d → descend mem' p root = descend mem p root) :
    IsTree mem' root d B where
  lt p T hp hT := ht.lt p T hp (by rw [← h p hp]; exact hT)
  inj p q T hp hq hpT hqT := ht.inj p q T hp hq (by rw [← h p hp]; exact hpT)
    (by rw [← h q hq]; exact hqT)

theorem descend_update_fresh (ht : IsTree mem root d B) {N : Nat} (hN : B ≤ N) (z : Nat → Nat) :
    ∀ p : List Nat, p.length ≤ d → descend (Function.update mem N z) p root = descend mem p root := by
  intro p
  induction p using List.reverseRecOn with
  | nil => intro _; rfl
  | append_singleton p k ih =>
    intro hp
    have hp' : p.length < d := by simp at hp; omega
    rw [descend_snoc, descend_snoc, ih hp'.le]
    cases hT : descend mem p root with
    | none => rfl
    | some T =>
      have hTN : T ≠ N := by
        have := ht.lt p T hp' hT
        omega
      simp [Function.update_of_ne hTN]

/-- A write to slot `i` of the table at `q` changes the walk of `q ++ [i]` only, when no walk of
`d` indices goes on past the slot: it was empty and the value is a fresh empty table, or the slot
is a leaf's. -/
theorem descend_write (ht : IsTree mem root d B) {q : List Nat} {T i v : Nat} (hq : q.length < d)
    (hqT : descend mem q root = some T)
    (hfresh : q.length + 1 < d → mem T i = 0 ∧ B ≤ v ∧ ∀ k, mem v k = 0) :
    ∀ p : List Nat, p.length ≤ d → descend (mem.write T i v) p root =
      if p = q ++ [i] then (if v = 0 then none else some v) else descend mem p root := by
  intro p
  induction p using List.reverseRecOn with
  | nil =>
    intro _
    rw [if_neg (by simp)]
    rfl
  | append_singleton p k ih =>
    intro hp
    have hp' : p.length < d := by simp at hp; omega
    rw [descend_snoc, descend_snoc, ih hp'.le]
    by_cases hpq : p = q ++ [i]
    · -- the walk goes on into `v`, a fresh table that is still empty
      subst hpq
      obtain ⟨hTi, hBv, hv⟩ := hfresh (by simpa using hp')
      have hTB := ht.lt q T hq hqT
      have hvT : v ≠ T := by omega
      have hv0 : v ≠ 0 := by omega
      simp [descend_snoc, hqT, hTi, TableMem.write_apply, hvT, hv, hv0]
    · rw [if_neg hpq]
      cases hT₀ : descend mem p root with
      | none =>
        have hne : p ++ [k] ≠ q ++ [i] := by
          intro h
          obtain ⟨rfl, -⟩ := List.append_inj' h rfl
          rw [hqT] at hT₀
          cases hT₀
        simp [hne]
      | some T₀ =>
        by_cases hslot : T₀ = T ∧ k = i
        · -- only the path `q` reaches `T`
          obtain ⟨rfl, rfl⟩ := hslot
          obtain rfl : p = q := ht.inj p q T₀ hp' hq hT₀ hqT
          simp [TableMem.write_apply]
        · have hne : p ++ [k] ≠ q ++ [i] := by
            intro h
            obtain ⟨rfl, hki⟩ := List.append_inj' h rfl
            rw [hqT] at hT₀
            cases hT₀
            exact hslot ⟨rfl, by simpa using hki⟩
          simp [TableMem.write_apply, hslot, hne]

theorem descend_write_fresh (ht : IsTree mem root d B) {q : List Nat} {T i : Nat}
    (hq : q.length + 1 < d) (hqT : descend mem q root = some T) (hTi : mem T i = 0)
    (hB : ∀ k, mem B k = 0) (p : List Nat) (hp : p.length ≤ d) :
    descend (mem.write T i B) p root = if p = q ++ [i] then some B else descend mem p root := by
  have hB0 : B ≠ 0 := by
    have := ht.lt [] root (show 0 < d by omega) rfl
    omega
  rw [descend_write ht (by omega) hqT (fun _ => ⟨hTi, le_rfl, hB⟩) p hp, if_neg hB0]

theorem IsTree.write_fresh (ht : IsTree mem root d B) {q : List Nat} {T i : Nat}
    (hq : q.length + 1 < d) (hqT : descend mem q root = some T) (hTi : mem T i = 0)
    (hB : ∀ k, mem B k = 0) : IsTree (mem.write T i B) root d (B + 1) where
  lt p T' hp hT' := by
    rw [descend_write_fresh ht hq hqT hTi hB p hp.le] at hT'
    split at hT'
    · cases hT'
      omega
    · have := ht.lt p T' hp hT'
      omega
  inj p p' T' hp hp' hpT hp'T := by
    rw [descend_write_fresh ht hq hqT hTi hB _ hp.le] at hpT
    rw [descend_write_fresh ht hq hqT hTi hB _ hp'.le] at hp'T
    split at hpT <;> split at hp'T
    · rename_i hp₁ hp₂
      rw [hp₁, hp₂]
    · -- the fresh table is not one of the tree's
      cases hpT
      exact absurd (ht.lt p' B hp' hp'T) (lt_irrefl B)
    · cases hp'T
      exact absurd (ht.lt p B hp hpT) (lt_irrefl B)
    · exact ht.inj p p' T' hp hp' hpT hp'T

theorem IsTree.write_leaf (ht : IsTree mem root d B) {q : List Nat} {T i v : Nat}
    (hq : q.length + 1 = d) (hqT : descend mem q root = some T) :
    IsTree (mem.write T i v) root d B := by
  refine ht.congr fun p hp => ?_
  rw [descend_write ht (by omega) hqT (fun h => absurd h (by omega)) p hp.le, if_neg]
  intro h
  rw [h, List.length_append] at hp
  simp at hp
  omega

end Descend

/-! ## The walks of the map -/

theorem get_eq_descend {m : HandleMap} (hd : 1 ≤ m.depth) (handle : Nat) :
    m.get handle = descend m.mem (m.pathIndices handle) m.table := by
  rw [get, leafTableForHandle_eq, pathIndices_eq_append hd, descend_snoc]
  cases descend m.mem (m.tableIndices handle) m.table <;> rfl

theorem pathIndices_congr {m m' : HandleMap} (hdepth : m'.depth = m.depth)
    (hshift : m'.handleZerosPrefixBitLength = m.handleZerosPrefixBitLength) :
    m'.pathIndices = m.pathIndices := by
  funext handle
  unfold pathIndices levelIndex pathOf
  rw [hdepth, hshift]

theorem descendCreate_cons (i : Nat) (is : List Nat) (t : Nat) (m : HandleMap) :
    descendCreate (i :: is) t m =
      if m.mem t i ≠ 0 then descendCreate is (m.mem t i) m
      else descendCreate is (m.newNextLevelTable t i).1 (m.newNextLevelTable t i).2 := by
  rw [descendCreate]
  split_ifs <;> rfl

theorem newNextLevelTable_frame (m : HandleMap) (t i : Nat) :
    ∃ mem B, (m.newNextLevelTable t i).2 = { m with mem := mem, nextTable := B } := by
  unfold newNextLevelTable
  dsimp only
  split_ifs
  · exact ⟨_, _, rfl⟩
  · exact ⟨_, _, rfl⟩

theorem descendCreate_frame : ∀ (is : List Nat) (t : Nat) (m : HandleMap),
    ∃ mem B, (descendCreate is t m).2 = { m with mem := mem, nextTable := B }
  | [], _, m => ⟨m.mem, m.nextTable, rfl⟩
  | i :: is, t, m => by
    rw [descendCreate_cons]
    split
    · exact descendCreate_frame is _ m
    · obtain ⟨mem₁, B₁, h₁⟩ := newNextLevelTable_frame m t i
      obtain ⟨mem₂, B₂, h₂⟩ := descendCreate_frame is _ (m.newNextLevelTable t i).2
      rw [h₂, h₁]
      exact ⟨mem₂, B₂, rfl⟩

/-- `new_next_level_table` at an empty slot of the table at `q`: a fresh empty table at
`nextTable` goes in the slot, and the walks of at most `d` indices to anywhere else are as they
were. -/
theorem newNextLevelTable_spec {m : HandleMap} {root d t i : Nat} {q : List Nat}
    (ht : IsTree m.mem root d m.nextTable) (hq : q.length + 1 < d)
    (hqt : descend m.mem q root = some t) (hti : m.mem t i = 0) :
    (m.newNextLevelTable t i).1 = m.nextTable ∧
      (m.newNextLevelTable t i).2.nextTable = m.nextTable + 1 ∧
      IsTree (m.newNextLevelTable t i).2.mem root d (m.newNextLevelTable t i).2.nextTable ∧
      descend (m.newNextLevelTable t i).2.mem (q ++ [i]) root = some m.nextTable ∧
      ∀ p : List Nat, p.length ≤ d → p ≠ q ++ [i] →
        descend (m.newNextLevelTable t i).2.mem p root = descend m.mem p root := by
  -- the fresh table is zeroed first; no walk of the tree reads it
  set mem₁ : TableMem := Function.update m.mem m.nextTable fun _ => 0 with hmem₁
  have htN : t ≠ m.nextTable := by
    have := ht.lt q t (by omega) hqt
    omega
  have hdesc₁ : ∀ p : List Nat, p.length ≤ d → descend mem₁ p root = descend m.mem p root :=
    descend_update_fresh ht le_rfl _
  have ht₁ : IsTree mem₁ root d m.nextTable := ht.congr fun p hp => hdesc₁ p hp.le
  have hqt₁ : descend mem₁ q root = some t := by rw [hdesc₁ q (by omega), hqt]
  have hti₁ : mem₁ t i = 0 := by rw [hmem₁, Function.update_of_ne htN, hti]
  have hN₁ : ∀ k, mem₁ m.nextTable k = 0 := fun k => by simp [hmem₁]
  have hnew : m.newNextLevelTable t i =
      (m.nextTable, { m with mem := mem₁.write t i m.nextTable, nextTable := m.nextTable + 1 }) := by
    rw [newNextLevelTable]
    dsimp only
    rw [← hmem₁, if_pos hti₁]
  rw [hnew]
  refine ⟨rfl, rfl, ht₁.write_fresh hq hqt₁ hti₁ hN₁, ?_, fun p hp hne => ?_⟩
  · rw [descend_write_fresh ht₁ hq hqt₁ hti₁ hN₁ _ (by simp; omega), if_pos rfl]
  · rw [descend_write_fresh ht₁ hq hqt₁ hti₁ hN₁ p hp, if_neg hne, hdesc₁ p hp]

/-- The walk of `insert_self_referential` from the table at `q` down `is`: it reaches the table
at `q ++ is`, making the missing ones, keeps the tree, and keeps the walk of every `d` indices. -/
theorem descendCreate_spec {root d : Nat} :
    ∀ (is q : List Nat) (t : Nat) (m : HandleMap), IsTree m.mem root d m.nextTable →
      descend m.mem q root = some t → q.length + is.length < d →
      IsTree (descendCreate is t m).2.mem root d (descendCreate is t m).2.nextTable ∧
      descend (descendCreate is t m).2.mem (q ++ is) root = some (descendCreate is t m).1 ∧
      ∀ p : List Nat, p.length = d →
        descend (descendCreate is t m).2.mem p root = descend m.mem p root
  | [], q, t, m, ht, hqt, _ => ⟨ht, by rw [List.append_nil]; exact hqt, fun _ _ => rfl⟩
  | i :: is, q, t, m, ht, hqt, hlen => by
    have hlen' : (q ++ [i]).length + is.length < d := by
      simp only [List.length_append, List.length_cons, List.length_nil] at hlen ⊢
      omega
    rw [descendCreate_cons, List.append_cons]
    by_cases hti : m.mem t i = 0
    · -- a fresh table goes in the empty slot
      obtain ⟨hN, -, ht₁, hq₁, hsame₁⟩ :=
        newNextLevelTable_spec ht (by simp at hlen; omega) hqt hti
      rw [if_neg (not_not.2 hti)]
      obtain ⟨ht', hdesc, hsame⟩ :=
        descendCreate_spec is (q ++ [i]) (m.newNextLevelTable t i).1 _ ht₁ (by rw [hq₁, hN]) hlen'
      have hne : ∀ p : List Nat, p.length = d → p ≠ q ++ [i] := by
        rintro p hp rfl
        simp at hp hlen
        omega
      exact ⟨ht', hdesc, fun p hp => (hsame p hp).trans (hsame₁ p hp.le (hne p hp))⟩
    · -- the slot holds the next table
      have hnext : descend m.mem (q ++ [i]) root = some (m.mem t i) := by
        rw [descend_snoc, hqt]
        simp [hti]
      rw [if_pos hti]
      exact descendCreate_spec is (q ++ [i]) _ m ht hnext hlen'

/-! ## The map of handles -/

/-- The value of each handle below `maxHandle`. -/
def contents (m : HandleMap) (maxHandle handle : Nat) : Option Nat :=
  if handle < maxHandle then m.get handle else none

/-- What an operation does to a map from the handles below `maxHandle` to values, and what it
returns: `insert` gives its value the least handle without one, or returns `None` when every
handle has one. -/
inductive Spec (maxHandle : Nat) :
    (Nat → Option Nat) → Op → Option Nat → (Nat → Option Nat) → Prop
  | insert {t : Nat → Option Nat} {value handle : Nat} : handle < maxHandle → t handle = none →
      (∀ h < handle, (t h).isSome) →
      Spec maxHandle t (.insert value) (some handle) (Function.update t handle (some value))
  | full {t : Nat → Option Nat} {value : Nat} : (∀ h < maxHandle, (t h).isSome) →
      Spec maxHandle t (.insert value) none t
  | get {t : Nat → Option Nat} {handle : Nat} : Spec maxHandle t (.get handle) (t handle) t
  | remove {t : Nat → Option Nat} {handle : Nat} :
      Spec maxHandle t (.remove handle) (t handle) (Function.update t handle none)

/-- A run of `Spec` through the operations and results of a trace. -/
def SpecRun (maxHandle : Nat) :
    (Nat → Option Nat) → List (Op × Option Nat) → (Nat → Option Nat) → Prop
  | t, [], t' => t' = t
  | t, (op, r) :: trace, t' => ∃ t₁, Spec maxHandle t op r t₁ ∧ SpecRun maxHandle t₁ trace t'

theorem Spec.deterministic {maxHandle : Nat} {t t₁ t₂ : Nat → Option Nat} {op : Op}
    {r₁ r₂ : Option Nat} (h₁ : Spec maxHandle t op r₁ t₁) (h₂ : Spec maxHandle t op r₂ t₂) :
    r₁ = r₂ ∧ t₁ = t₂ := by
  cases h₁ with
  | insert hlt hfree hleast =>
    cases h₂ with
    | insert hlt' hfree' hleast' =>
      rename_i h h'
      have heq : h = h' := by
        rcases Nat.lt_trichotomy h h' with hh | hh | hh
        · exact absurd (hleast' h hh) (by simp [hfree])
        · exact hh
        · exact absurd (hleast h' hh) (by simp [hfree'])
      subst heq
      exact ⟨rfl, rfl⟩
    | full hfull => exact absurd (hfull _ hlt) (by simp [hfree])
  | full hfull =>
    cases h₂ with
    | insert hlt hfree _ => exact absurd (hfull _ hlt) (by simp [hfree])
    | full _ => exact ⟨rfl, rfl⟩
  | get => cases h₂; exact ⟨rfl, rfl⟩
  | remove => cases h₂; exact ⟨rfl, rfl⟩

/-- An operation run by itself: the handle `insert` returns, or the value of `get` and
`remove`. -/
def Op.run (m : HandleMap) : Op → Except (Fault Empty) (Option Nat × HandleMap)
  | .insert value => m.insert value
  | .get handle => pure (m.get handle, m)
  | .remove handle => pure (m.remove handle)

/-- The operations one after another, with their results. -/
def runOps : HandleMap → List Op → Except (Fault Empty) (List (Op × Option Nat) × HandleMap)
  | m, [] => pure ([], m)
  | m, op :: ops => do
    let (r, m₁) ← op.run m
    let (trace, m') ← runOps m₁ ops
    pure ((op, r) :: trace, m')

/-- What the callers of the map keep to: a value is the raw pointer of an `Arc`, never `0`, and
the handle of `get` or `remove` is one below `max_handle`. -/
def Op.Valid (maxHandle : Nat) : Op → Prop
  | .insert value => value ≠ 0
  | .get handle | .remove handle => handle < maxHandle

instance (maxHandle : Nat) : DecidablePred (Op.Valid maxHandle)
  | .insert value => inferInstanceAs (Decidable (value ≠ 0))
  | .get handle => inferInstanceAs (Decidable (handle < maxHandle))
  | .remove handle => inferInstanceAs (Decidable (handle < maxHandle))

/-- The invariant of a map of `maxHandle` handles: the prefix and the depth of `new`, the
allocator's invariant and bound, the tree of tables, and a handle's bit set exactly when it has
a value. -/
structure Inv (maxHandle : Nat) (m : HandleMap) : Prop where
  depth : 1 ≤ m.depth ∧ m.depth ≤ 4
  shift : m.handleZerosPrefixBitLength = 32 - 8 * m.depth
  bound : maxHandle ≤ 2 ^ (8 * m.depth)
  allocator : m.allocator.Inv
  maxHandle_eq : m.allocator.maxHandle = maxHandle
  tree : IsTree m.mem m.table m.depth m.nextTable
  allocated : ∀ h < maxHandle, m.allocator.allocated h = (m.contents maxHandle h).isSome

theorem inv_new {maxHandle : Nat} (hpos : 0 < maxHandle) (hlt : maxHandle < 2 ^ 32) :
    (new maxHandle).Inv maxHandle := by
  obtain ⟨hd, hshift, hbound⟩ := new_depth hpos hlt
  have hroot : ∀ p T, descend (new maxHandle).mem p (new maxHandle).table = some T →
      p = [] ∧ T = 1 := by
    rintro (_ | ⟨i, p⟩) T h
    · exact ⟨rfl, (Option.some.inj h).symm⟩
    · cases h
  refine ⟨hd, hshift, hbound, HandleAllocator.inv_new maxHandle, rfl,
    ⟨fun p T _ hT => ?_, fun p q T _ _ hp hq => ?_⟩, fun h hh => ?_⟩
  · obtain ⟨-, rfl⟩ := hroot p T hT
    show 1 < 2
    omega
  · rw [(hroot p T hp).1, (hroot q T hq).1]
  · change (HandleAllocator.new maxHandle).allocated h = _
    rw [HandleAllocator.allocated_new, contents, if_pos hh, get_eq_descend hd.1]
    cases hget : descend (new maxHandle).mem ((new maxHandle).pathIndices h) (new maxHandle).table with
    | none => rfl
    | some T =>
      have hnil := congrArg List.length (hroot _ T hget).1
      simp [pathIndices] at hnil
      omega

variable {maxHandle : Nat} {m : HandleMap}

/-- When the walks of `depth` indices change at the path of `handle` only, to `r`, the map
changes at `handle` only. -/
theorem contents_eq_update (hm : m.Inv maxHandle) (m' : HandleMap) (hdepth : m'.depth = m.depth)
    (hshift : m'.handleZerosPrefixBitLength = m.handleZerosPrefixBitLength)
    (htable : m'.table = m.table) {handle : Nat} (hh : handle < maxHandle) {r : Option Nat}
    (hdesc : ∀ p : List Nat, p.length = m.depth →
      descend m'.mem p m.table = if p = m.pathIndices handle then r else descend m.mem p m.table) :
    m'.contents maxHandle = Function.update (m.contents maxHandle) handle r := by
  funext h
  by_cases hh' : h < maxHandle
  · have hlen : (m.pathIndices h).length = m.depth := by simp [pathIndices]
    have hpath : m.pathIndices h = m.pathIndices handle ↔ h = handle := by
      have hb := hm.bound
      exact ⟨eq_of_pathIndices_eq hm.depth rfl hm.shift (by omega) (by omega), fun h => h ▸ rfl⟩
    rw [contents, if_pos hh', get_eq_descend (by rw [hdepth]; exact hm.depth.1),
      pathIndices_congr hdepth hshift, htable, hdesc _ hlen, Function.update_apply, contents,
      if_pos hh', get_eq_descend hm.depth.1]
    simp only [hpath]
  · have hne : h ≠ handle := by omega
    rw [contents, if_neg hh', Function.update_of_ne hne, contents, if_neg hh']

/-- `insert` of a value: it takes the least handle without a value, whose leaf slot the walk of
`insert_self_referential` finds empty, so the assertion holds. -/
theorem Inv.insert (hm : m.Inv maxHandle) {value : Nat} (hv : value ≠ 0) :
    ∃ r m', m.insert value = .ok (r, m') ∧
      Spec maxHandle (m.contents maxHandle) (.insert value) r (m'.contents maxHandle) ∧
      m'.Inv maxHandle := by
  cases hnext : m.allocator.nextHandle with
  | none =>
    refine ⟨none, m, by rw [HandleMap.insert, hnext]; rfl, .full fun h hh => ?_, hm⟩
    rw [← hm.allocated h hh]
    exact hm.allocator.nextHandle_none hnext h (by rw [hm.maxHandle_eq]; exact hh)
  | some r =>
    obtain ⟨handle, allocator⟩ := r
    obtain ⟨hlt, hfree, hleast, hbits, ha', hmax'⟩ := hm.allocator.nextHandle_some hnext
    rw [hm.maxHandle_eq] at hlt
    have hd := hm.depth
    have hlen : (m.tableIndices handle).length = m.depth - 1 := by simp [tableIndices]
    have hnone : m.contents maxHandle handle = none := by
      have hfree' := hm.allocated handle hlt
      rw [hfree] at hfree'
      cases hc : m.contents maxHandle handle with
      | none => rfl
      | some v => rw [hc] at hfree'; cases hfree'
    rcases hwalk : descendCreate (m.tableIndices handle) m.table { m with allocator } with ⟨T, m'⟩
    obtain ⟨ht', hdesc, hsame⟩ := descendCreate_spec (m.tableIndices handle) [] m.table
      { m with allocator } hm.tree rfl (by rw [List.length_nil, hlen]; omega)
    rw [hwalk, List.nil_append] at hdesc
    rw [hwalk] at ht' hsame
    obtain ⟨mem', B', hm'⟩ := descendCreate_frame (m.tableIndices handle) m.table { m with allocator }
    rw [hwalk] at hm'
    have hdepth' : m'.depth = m.depth := by rw [show m' = _ from hm']
    have hshift' : m'.handleZerosPrefixBitLength = m.handleZerosPrefixBitLength := by
      rw [show m' = _ from hm']
    have htable' : m'.table = m.table := by rw [show m' = _ from hm']
    have halloc' : m'.allocator = allocator := by rw [show m' = _ from hm']
    have hslot : m'.mem T (m.leafIndex handle) = 0 := by
      have hwas := hsame (m.pathIndices handle) (by simp [pathIndices])
      have hget : m.get handle = none := by
        rw [contents, if_pos hlt] at hnone
        exact hnone
      rw [← get_eq_descend hd.1, hget, pathIndices_eq_append hd.1, descend_snoc, hdesc] at hwas
      simpa using hwas
    have hwrite : ∀ p : List Nat, p.length = m.depth →
        descend (m'.mem.write T (m.leafIndex handle) value) p m.table =
          if p = m.pathIndices handle then some value else descend m.mem p m.table := by
      intro p hp
      rw [descend_write ht' (by rw [hlen]; omega) hdesc (fun h => absurd h (by rw [hlen]; omega)) p
        hp.le, if_neg hv, ← pathIndices_eq_append hd.1, hsame p hp]
    have hcontents := contents_eq_update hm { m' with mem := m'.mem.write T (m.leafIndex handle) value }
      hdepth' hshift' htable' hlt hwrite
    rw [insert_of_nextHandle hnext hwalk, if_pos hslot,
      iterate_pathOf hd rfl hm.shift (by have := hm.bound; omega)]
    refine ⟨_, _, rfl, ?_, ?_⟩
    · rw [hcontents]
      refine .insert hlt hnone fun h hh => ?_
      rw [← hm.allocated h (by omega)]
      exact hleast h hh
    · refine ⟨hdepth' ▸ hd, hdepth' ▸ hshift' ▸ hm.shift, hdepth' ▸ hm.bound, halloc' ▸ ha',
        halloc' ▸ hmax'.trans hm.maxHandle_eq, ?_, fun h hh => ?_⟩
      · rw [hdepth', htable']
        exact ht'.write_leaf (by rw [hlen]; omega) hdesc
      · rw [hcontents, halloc', hbits, Function.update_apply]
        split
        · rename_i heq
          simp [heq]
        · rename_i hne
          rw [hm.allocated h hh]
          simp [hne]

/-- `remove` of a handle below `max_handle`: it returns the handle's value and takes it out. The
leaf slot is emptied before `free_handle`, which fails only for a handle without a value, whose
slot was empty already. -/
theorem Inv.remove (hm : m.Inv maxHandle) {handle : Nat} (hh : handle < maxHandle) :
    Spec maxHandle (m.contents maxHandle) (.remove handle) (m.remove handle).1
        ((m.remove handle).2.contents maxHandle) ∧ (m.remove handle).2.Inv maxHandle := by
  have hd := hm.depth
  have hlen : (m.tableIndices handle).length = m.depth - 1 := by simp [tableIndices]
  have hspec : Spec maxHandle (m.contents maxHandle) (.remove handle) (m.contents maxHandle handle)
      (Function.update (m.contents maxHandle) handle none) := .remove
  have hvalue : m.contents maxHandle handle =
      (descend m.mem (m.tableIndices handle) m.table).bind fun T =>
        if m.mem T (m.leafIndex handle) = 0 then none else some (m.mem T (m.leafIndex handle)) := by
    rw [contents, if_pos hh, get_eq_descend hd.1, pathIndices_eq_append hd.1, descend_snoc]
  cases hT : descend m.mem (m.tableIndices handle) m.table with
  | none =>
    rw [hT, Option.bind_none] at hvalue
    have hremove : m.remove handle = (none, m) := by
      rw [HandleMap.remove, leafTableForHandle_eq, hT]
      rfl
    rw [hremove]
    rw [← hvalue, Function.update_eq_self, hvalue] at hspec
    exact ⟨hspec, hm⟩
  | some T =>
    rw [hT, Option.bind_some] at hvalue
    have hwrite : ∀ p : List Nat, p.length = m.depth →
        descend (m.mem.write T (m.leafIndex handle) 0) p m.table =
          if p = m.pathIndices handle then none else descend m.mem p m.table := by
      intro p hp
      rw [descend_write hm.tree (by rw [hlen]; omega) hT (fun h => absurd h (by rw [hlen]; omega))
        p hp.le, if_pos rfl, ← pathIndices_eq_append hd.1]
    have hcontents := contents_eq_update hm { m with mem := m.mem.write T (m.leafIndex handle) 0 }
      rfl rfl rfl hh hwrite
    have htree : IsTree (m.mem.write T (m.leafIndex handle) 0) m.table m.depth m.nextTable :=
      hm.tree.write_leaf (by rw [hlen]; omega) hT
    have hlt : handle < m.allocator.maxHandle := by rw [hm.maxHandle_eq]; exact hh
    cases hset : m.allocator.allocated handle with
    | true =>
      obtain ⟨a', hfree, hbits, ha', hmax'⟩ := hm.allocator.freeHandle_allocated hlt hset
      have hremove : m.remove handle =
          (if m.mem T (m.leafIndex handle) = 0 then none else some (m.mem T (m.leafIndex handle)),
            { m with mem := m.mem.write T (m.leafIndex handle) 0, allocator := a' }) := by
        simp only [HandleMap.remove, leafTableForHandle_eq, hT, Option.map_some]
        rw [hfree]
      rw [hremove]
      refine ⟨by rw [← hvalue]; exact hcontents ▸ hspec, hd, hm.shift, hm.bound, ha',
        hmax'.trans hm.maxHandle_eq, htree, fun h hh' => ?_⟩
      change a'.allocated h = (({ m with mem := m.mem.write T (m.leafIndex handle) 0 } :
        HandleMap).contents maxHandle h).isSome
      rw [hcontents, hbits, Function.update_apply]
      split
      · rename_i heq
        simp [heq]
      · rename_i hne
        rw [hm.allocated h hh']
        simp [hne]
    | false =>
      have hnone : m.contents maxHandle handle = none := by
        have hfree' := hm.allocated handle hh
        rw [hset] at hfree'
        cases hc : m.contents maxHandle handle with
        | none => rfl
        | some v => rw [hc] at hfree'; cases hfree'
      rw [hnone] at hspec
      have hremove : m.remove handle =
          (none, { m with mem := m.mem.write T (m.leafIndex handle) 0 }) := by
        simp only [HandleMap.remove, leafTableForHandle_eq, hT, Option.map_some]
        rw [HandleAllocator.freeHandle_notAllocated hlt hset]
      rw [hremove]
      refine ⟨by rw [← hcontents] at hspec; exact hspec, hd, hm.shift, hm.bound, hm.allocator,
        hm.maxHandle_eq, htree, fun h hh' => ?_⟩
      change m.allocator.allocated h = (({ m with mem := m.mem.write T (m.leafIndex handle) 0 } :
        HandleMap).contents maxHandle h).isSome
      rw [hcontents, Function.update_apply]
      split
      · rename_i heq
        rw [heq, hset]
        rfl
      · exact hm.allocated h hh'

/-- One operation that keeps to `Op.Valid` is a step of `Spec` on the contents, and keeps the
invariant. -/
theorem Inv.run (hm : m.Inv maxHandle) {op : Op} (hop : op.Valid maxHandle) :
    ∃ r m', op.run m = .ok (r, m') ∧
      Spec maxHandle (m.contents maxHandle) op r (m'.contents maxHandle) ∧ m'.Inv maxHandle := by
  cases op with
  | insert value => exact hm.insert hop
  | get handle =>
    refine ⟨m.get handle, m, rfl, ?_, hm⟩
    rw [show m.get handle = m.contents maxHandle handle from (if_pos hop).symm]
    exact .get
  | remove handle =>
    obtain ⟨hspec, hm'⟩ := hm.remove hop
    exact ⟨_, _, rfl, hspec, hm'⟩

/-- Operations run one after another from a map of an invariant that each valid operation keeps
as it takes a step of `Spec`: a run of `Spec`, to a map of the invariant. -/
theorem runOps_of_step {P : HandleMap → Prop}
    (hstep : ∀ {m : HandleMap} {op : Op}, P m → op.Valid maxHandle → ∃ r m', op.run m = .ok (r, m') ∧
      Spec maxHandle (m.contents maxHandle) op r (m'.contents maxHandle) ∧ P m')
    (hm : P m) (ops : List Op) (hops : ∀ op ∈ ops, op.Valid maxHandle) :
    ∃ trace m', runOps m ops = .ok (trace, m') ∧
      SpecRun maxHandle (m.contents maxHandle) trace (m'.contents maxHandle) ∧ P m' := by
  induction ops generalizing m with
  | nil => exact ⟨[], m, rfl, rfl, hm⟩
  | cons op ops ih =>
    obtain ⟨r, m₁, hrun, hspec, hm₁⟩ := hstep hm (hops op List.mem_cons_self)
    obtain ⟨trace, m', hrest, hspecs, hm'⟩ :=
      ih hm₁ fun op' h => hops op' (List.mem_cons_of_mem op h)
    refine ⟨(op, r) :: trace, m', ?_, ⟨_, hspec, hspecs⟩, hm'⟩
    rw [HandleMap.runOps, hrun, Fault.ok_bind]
    dsimp only
    rw [hrest, Fault.ok_bind]
    rfl

theorem Inv.runOps (hm : m.Inv maxHandle) (ops : List Op) (hops : ∀ op ∈ ops, op.Valid maxHandle) :
    ∃ trace m', runOps m ops = .ok (trace, m') ∧
      SpecRun maxHandle (m.contents maxHandle) trace (m'.contents maxHandle) ∧ m'.Inv maxHandle :=
  runOps_of_step (fun hm hop => hm.run hop) hm ops hops

theorem contents_new {maxHandle : Nat} (hpos : 0 < maxHandle) (hlt : maxHandle < 2 ^ 32) :
    (new maxHandle).contents maxHandle = fun _ => none := by
  funext h
  by_cases hh : h < maxHandle
  · have hnone := (inv_new hpos hlt).allocated h hh
    rw [show (new maxHandle).allocator.allocated h = false from
      HandleAllocator.allocated_new maxHandle h] at hnone
    cases hc : (new maxHandle).contents maxHandle h with
    | none => rfl
    | some v => rw [hc] at hnone; cases hnone
  · rw [contents, if_neg hh]

/-- For every `max_handle` from one up to `2^32 - 1` and every sequence of operations whose
values are not `0` and whose handles of `get` and `remove` are below `max_handle`, the operations
run one after another from `new max_handle` never panic, and their results are those of a map
from the handles below `max_handle` to values, which starts empty: `insert` gives its value the
least handle without one and returns it, or returns `None` when every handle has a value; `get`
returns the value of the handle, and `remove` returns it and takes it out. -/
theorem handle_map_refines_finite_map (maxHandle : Nat) (hpos : 0 < maxHandle)
    (hlt : maxHandle < 2 ^ 32) (ops : List Op) (hops : ∀ op ∈ ops, op.Valid maxHandle) :
    ∃ trace m, runOps (new maxHandle) ops = .ok (trace, m) ∧
      SpecRun maxHandle (fun _ => none) trace (m.contents maxHandle) := by
  obtain ⟨trace, m, hrun, hspec, -⟩ := (inv_new hpos hlt).runOps ops hops
  rw [contents_new hpos hlt] at hspec
  exact ⟨trace, m, hrun, hspec⟩

/-- Three hundred handles, two levels of tables: two inserts, a remove of the first handle, a get
of the second, and an insert that takes the first handle again. -/
theorem handle_map_refines_finite_map_three_hundred :
    0 < 300 ∧ 300 < 2 ^ 32 ∧
    (∀ op ∈ [Op.insert 0x1000, .insert 0x2000, .remove 0, .get 1, .insert 0x3000],
      op.Valid 300) ∧
    ∃ trace m, runOps (new 300)
        [.insert 0x1000, .insert 0x2000, .remove 0, .get 1, .insert 0x3000] = .ok (trace, m) ∧
      SpecRun 300 (fun _ => none) trace (m.contents 300) :=
  ⟨by decide, by decide, by decide,
    handle_map_refines_finite_map 300 (by decide) (by decide) _ (by decide)⟩

end HandleMap

end EndlessHole.Collections
