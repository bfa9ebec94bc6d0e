import Mathlib.Logic.Relation
import Mathlib.Logic.Function.Basic
import Mathlib.Data.List.Basic

/-!
# `ArcSwap` and the strong counts of what it holds

`ArcSwap<T>` of `kernel_core/src/collections/arc_swap.rs`: an atomic pointer that owns one
`Arc<T>`. Threads `load` a new `Arc` from it and `swap` in one of theirs, getting the old one
back.

The model is the pointer, the strong count of each object, the `Arc`s the threads hold, and
where each thread's `load` is. An `Arc` is the object it points to; `Arc::new` makes a fresh
object with count `1`, and an object whose count drops to `0` is freed. The steps of `Step` are
the atomic steps of the source: `load` takes two (`self.ptr.load`, then
`Arc::increment_strong_count`), `swap` one (`self.ptr.swap`), and so do dropping, cloning and
making an `Arc`.

The counts stay exact over every run (`counts_exact_of_run`): an object's count is the number
of `Arc`s the threads hold to it, plus one if the `ArcSwap` holds it. But `load` can read the
pointer, lose the processor to a `swap` whose caller drops the old `Arc`, and then increment the
count of an object already freed (`load_increments_freed_object`).
-/

namespace EndlessHole.Collections

namespace ArcSwap

/-- The `ArcSwap`, the objects, and the threads that use them. `arcs` are the `Arc`s the threads
hold, as pairs of a thread and the object; `loading i` is the pointer thread `i`'s `load` has
read, between its two steps; `fresh` is the object `Arc::new` makes next. -/
structure State where
  ptr : Nat
  strong : Nat → Nat
  arcs : List (Nat × Nat)
  loading : Nat → Option Nat
  fresh : Nat

/-- `ArcSwap::new(Arc::new(x))` as object `0`, with no other `Arc`. -/
def new : State := ⟨0, fun o => if o = 0 then 1 else 0, [], fun _ => none, 1⟩

def State.bump (s : State) (o : Nat) (f : Nat → Nat) : State :=
  { s with strong := Function.update s.strong o (f (s.strong o)) }

/-- The atomic steps of the threads. A thread between the two steps of its `load` takes no other
step. `loadRead` is `self.ptr.load`, and `loadIncrement` is `Arc::increment_strong_count(ptr)`
with `Arc::from_raw(ptr)`; `swap` is `Arc::into_raw(new)`, `self.ptr.swap` and
`Arc::from_raw(old)`; `drop` frees the object when its count reaches `0`. -/
inductive Step : State → State → Prop
  | loadRead {s : State} {i : Nat} : s.loading i = none →
      Step s { s with loading := Function.update s.loading i (some s.ptr) }
  | loadIncrement {s : State} {i p : Nat} : s.loading i = some p →
      Step s { s.bump p (· + 1) with
        arcs := (i, p) :: s.arcs, loading := Function.update s.loading i none }
  | swap {s : State} {i a : Nat} : s.loading i = none → (i, a) ∈ s.arcs →
      Step s { s with ptr := a, arcs := (i, s.ptr) :: s.arcs.erase (i, a) }
  | drop {s : State} {i a : Nat} : s.loading i = none → (i, a) ∈ s.arcs →
      Step s { s.bump a (· - 1) with arcs := s.arcs.erase (i, a) }
  | clone {s : State} {i a : Nat} : s.loading i = none → (i, a) ∈ s.arcs →
      Step s { s.bump a (· + 1) with arcs := (i, a) :: s.arcs }
  | arcNew {s : State} {i : Nat} : s.loading i = none →
      Step s { s.bump s.fresh (fun _ => 1) with
        arcs := (i, s.fresh) :: s.arcs, fresh := s.fresh + 1 }

/-! ## The counts -/

/-- The number of `Arc`s to `o`: those the threads hold, and the one the `ArcSwap` holds. -/
def State.arcCount (s : State) (o : Nat) : Nat :=
  (s.arcs.map Prod.snd).count o + if s.ptr = o then 1 else 0

/-- The counts are exact: each object's count is the number of `Arc`s to it, and no `Arc` and
no `load` in progress points past the objects made so far. -/
structure CountsExact (s : State) : Prop where
  exact : ∀ o, s.strong o = s.arcCount o
  ptr_lt : s.ptr < s.fresh
  arcs_lt : ∀ x ∈ s.arcs, x.2 < s.fresh
  loading_lt : ∀ i p, s.loading i = some p → p < s.fresh

theorem countsExact_new : CountsExact new := by
  refine ⟨fun o => ?_, by decide, by simp [new], fun i p h => by simp [new] at h⟩
  by_cases ho : o = 0 <;> simp [new, State.arcCount, ho, eq_comm]

theorem count_erase_add {arcs : List (Nat × Nat)} {i a : Nat} (h : (i, a) ∈ arcs) (o : Nat) :
    ((arcs.erase (i, a)).map Prod.snd).count o + (if a = o then 1 else 0) =
      (arcs.map Prod.snd).count o := by
  have hperm := ((List.perm_cons_erase h).map Prod.snd).count_eq o
  rw [hperm, List.map_cons, List.count_cons]
  simp only [beq_iff_eq]

@[simp] theorem State.bump_strong (s : State) (x : Nat) (f : Nat → Nat) (o : Nat) :
    (s.bump x f).strong o = if o = x then f (s.strong x) else s.strong o := by
  simp [State.bump, Function.update_apply]

@[simp] theorem State.bump_ptr (s : State) (x : Nat) (f : Nat → Nat) : (s.bump x f).ptr = s.ptr :=
  rfl

section Exact

variable {s s' : State} (hexact : ∀ o, s.strong o = s.arcCount o)
include hexact

theorem exact_of_arc_added {i x : Nat} (hstrong : s'.strong = (s.bump x (· + 1)).strong)
    (harcs : s'.arcs = (i, x) :: s.arcs) (hptr : s'.ptr = s.ptr) (o : Nat) :
    s'.strong o = s'.arcCount o := by
  have hcount := hexact o
  simp only [State.arcCount, harcs, hptr, List.map_cons, List.count_cons, beq_iff_eq] at hcount ⊢
  rw [hstrong, State.bump_strong]
  by_cases ho : o = x
  · subst ho
    simp only [if_true]
    omega
  · simp only [if_neg ho, if_neg (Ne.symm ho)]
    omega

theorem exact_of_arc_dropped {i a : Nat} (ha : (i, a) ∈ s.arcs)
    (hstrong : s'.strong = (s.bump a (· - 1)).strong) (harcs : s'.arcs = s.arcs.erase (i, a))
    (hptr : s'.ptr = s.ptr) (o : Nat) :
    s'.strong o = s'.arcCount o := by
  have hcount := count_erase_add ha o
  have := hexact o
  simp only [State.arcCount, harcs, hptr] at this hcount ⊢
  rw [hstrong, State.bump_strong]
  by_cases ho : o = a
  · subst ho
    simp only [if_true] at hcount ⊢
    omega
  · simp only [if_neg ho, if_neg (Ne.symm ho)] at hcount ⊢
    omega

end Exact

theorem loading_lt_update {loading : Nat → Option Nat} {fresh i : Nat} {v : Option Nat}
    (hloading : ∀ j p, loading j = some p → p < fresh) (hv : ∀ p, v = some p → p < fresh) :
    ∀ j p, Function.update loading i v j = some p → p < fresh := by
  intro j p h
  by_cases hj : j = i
  · subst hj
    rw [Function.update_self] at h
    exact hv p h
  · rw [Function.update_of_ne hj] at h
    exact hloading j p h

theorem Step.countsExact {s s' : State} (hstep : Step s s') (hs : CountsExact s) :
    CountsExact s' := by
  obtain ⟨hexact, hptr, harcs, hloading⟩ := hs
  cases hstep with
  | @loadRead i hi =>
    refine ⟨hexact, hptr, harcs, loading_lt_update hloading ?_⟩
    rintro p ⟨⟩
    exact hptr
  | @loadIncrement i p hi =>
    refine ⟨exact_of_arc_added hexact rfl rfl rfl, hptr, ?_,
      loading_lt_update hloading (fun _ h => by cases h)⟩
    simp only [List.mem_cons, forall_eq_or_imp]
    exact ⟨hloading i p hi, harcs⟩
  | @swap i a hi ha =>
    refine ⟨fun o => ?_, harcs _ ha, ?_, hloading⟩
    · -- the `ArcSwap`'s `Arc` and thread `i`'s trade places: no count changes
      have hcount := count_erase_add ha o
      rw [hexact o]
      simp only [State.arcCount, List.map_cons, List.count_cons, beq_iff_eq] at hcount ⊢
      by_cases h1 : s.ptr = o <;> by_cases h2 : a = o <;>
        simp only [h1, h2, if_true, if_false] at hcount ⊢ <;> omega
    · simp only [List.mem_cons, forall_eq_or_imp]
      exact ⟨hptr, fun x hx => harcs x (List.mem_of_mem_erase hx)⟩
  | @drop i a hi ha =>
    exact ⟨exact_of_arc_dropped hexact ha rfl rfl rfl, hptr,
      fun x hx => harcs x (List.mem_of_mem_erase hx), hloading⟩
  | @clone i a hi ha =>
    refine ⟨exact_of_arc_added hexact rfl rfl rfl, hptr, ?_, hloading⟩
    simp only [List.mem_cons, forall_eq_or_imp]
    exact ⟨harcs _ ha, harcs⟩
  | @arcNew i hi =>
    refine ⟨fun o => ?_, Nat.lt_succ_of_lt hptr, ?_,
      fun j p h => Nat.lt_succ_of_lt (hloading j p h)⟩
    · have := hexact o
      simp only [State.arcCount, State.bump_strong, State.bump_ptr, List.map_cons,
        List.count_cons, beq_iff_eq] at this ⊢
      by_cases ho : o = s.fresh
      · -- the fresh object has no `Arc` but the new one
        subst ho
        have hnone : (s.arcs.map Prod.snd).count s.fresh = 0 := by
          rw [List.count_eq_zero]
          intro hmem
          obtain ⟨x, hx, hxo⟩ := List.mem_map.1 hmem
          exact absurd (hxo ▸ harcs x hx) (Nat.lt_irrefl _)
        simp [hnone, Nat.ne_of_lt hptr]
      · simp only [if_neg ho, if_neg (Ne.symm ho)] at this ⊢
        exact this
    · simp only [List.mem_cons, forall_eq_or_imp]
      exact ⟨Nat.lt_succ_self _, fun x hx => Nat.lt_succ_of_lt (harcs x hx)⟩

/-- Over every run from a new `ArcSwap`, each object's strong count is the number of `Arc`s to
it, the `ArcSwap`'s included. -/
theorem counts_exact_of_run {s : State} (hrun : Relation.ReflTransGen Step new s) :
    ∀ o, s.strong o = s.arcCount o := by
  have hinv : CountsExact s := by
    induction hrun with
    | refl => exact countsExact_new
    | tail _ hstep ih => exact hstep.countsExact ih
  exact hinv.exact

open Step

/-! ## A load racing with a swap -/

/-- Thread 1 makes an object of its own. Thread 0's `load` reads the pointer of object `0`, which
only the `ArcSwap` holds. Thread 1 swaps its object in, gets the `Arc` of object `0` back and
drops it: the count of object `0` reaches `0` and the object is freed. Thread 0's `load` then
increments the count of the freed object. -/
theorem load_increments_freed_object :
    ∃ s s', Relation.ReflTransGen Step new s ∧ s.loading 0 = some 0 ∧ s.strong 0 = 0 ∧
      Step s s' ∧ s'.strong 0 = 1 := by
  refine ⟨_, _, .head (arcNew (i := 1) rfl) (.head (loadRead (i := 0) rfl)
    (.head (swap (i := 1) (a := 1) rfl (by simp [new]))
    (.single (drop (i := 1) (a := 0) rfl (by simp [new, State.bump]))))),
    rfl, by simp [State.bump, new], loadIncrement (i := 0) (p := 0) rfl, by simp [State.bump, new]⟩

end ArcSwap

end EndlessHole.Collections
