import Mathlib.Data.List.Basic

/-!
# Runs of an iterator

A Rust iterator is a state and a `next` that returns an item, or `None` at the end, with the
state after. In a model `next` may fail (panic), so it returns an `Except`.

* `Yields next it xs it'`: calling `next` once for each item of `xs`, from `it`, yields those
  items and leaves the state `it'`; `yields_append` splits a run, and `Yields.deterministic`
  says that the state after a run is determined by the items.
* `YieldsExactly next it xs`: the run yields `xs` and then `None`, which is what a `for` loop or
  `collect` over the iterator sees;
* `findMap f l` is `Iterator::find_map` over an iterator that has the items `l` left;
* `IsForLoop.eq_foldlM`: a `for` loop over an iterator that yields exactly `xs` is a fold over
  `xs`, and one that pushes an item for each is `mapM` (`foldlM_push_eq_mapM`); what each
  step keeps holds after the loop (`foldlM_invariant`).
-/

namespace Iterator

variable {σ α ε : Type} (next : σ → Except ε (Option α × σ))

/-- Calling `next` once for each item of `xs`, from `it`, yields those items and leaves the
state `it'`. -/
def Yields : σ → List α → σ → Prop
  | it, [], it' => it' = it
  | it, x :: xs, it' => ∃ it₁, next it = .ok (some x, it₁) ∧ Yields it₁ xs it'

/-- From `it` the iterator yields exactly `xs`, then `None`. -/
def YieldsExactly (it : σ) (xs : List α) : Prop :=
  ∃ it', Yields next it xs it' ∧ ∃ it'', next it' = .ok (none, it'')

variable {next}

@[simp] theorem yields_nil {it it' : σ} : Yields next it [] it' ↔ it' = it := Iff.rfl

theorem yields_cons {it it' : σ} {x : α} {xs : List α} :
    Yields next it (x :: xs) it' ↔ ∃ it₁, next it = .ok (some x, it₁) ∧ Yields next it₁ xs it' :=
  Iff.rfl

theorem yields_append {it it'' : σ} {xs ys : List α} :
    Yields next it (xs ++ ys) it'' ↔ ∃ it', Yields next it xs it' ∧ Yields next it' ys it'' := by
  induction xs generalizing it with
  | nil => simp
  | cons x xs ih =>
    simp only [List.cons_append, yields_cons, ih]
    constructor
    · rintro ⟨it₁, hnext, it', hxs, hys⟩
      exact ⟨it', ⟨it₁, hnext, hxs⟩, hys⟩
    · rintro ⟨it', ⟨it₁, hnext, hxs⟩, hys⟩
      exact ⟨it₁, hnext, it', hxs, hys⟩

theorem Yields.deterministic {it it₁ it₂ : σ} {xs : List α} (h₁ : Yields next it xs it₁)
    (h₂ : Yields next it xs it₂) : it₁ = it₂ := by
  induction xs generalizing it with
  | nil => exact h₁.trans h₂.symm
  | cons x xs ih =>
    obtain ⟨itA, hA, h₁⟩ := h₁
    obtain ⟨itB, hB, h₂⟩ := h₂
    rw [hA] at hB
    cases hB
    exact ih h₁ h₂

theorem Yields.cons {it it₁ it' : σ} {x : α} {xs : List α} (hnext : next it = .ok (some x, it₁))
    (h : Yields next it₁ xs it') : Yields next it (x :: xs) it' :=
  ⟨it₁, hnext, h⟩

/-! ## `find_map` -/

section FindMap

variable {α β : Type} (f : α → Option β)

/-- `Iterator::find_map` over the items left: the first `some` that `f` gives, and the items after
the one that gave it; all of them are consumed when none does. -/
def findMap : List α → Option β × List α
  | [] => (none, [])
  | a :: rest =>
    match f a with
    | some b => (some b, rest)
    | none => findMap rest

variable {f}

theorem findMap_fst (l : List α) : (findMap f l).1 = l.findSome? f := by
  induction l with
  | nil => rfl
  | cons a rest ih =>
    rw [findMap, List.findSome?_cons]
    cases f a with
    | some b => rfl
    | none => exact ih

theorem findMap_snd_suffix (l : List α) : (findMap f l).2 <:+ l := by
  induction l with
  | nil => exact List.suffix_refl _
  | cons a rest ih =>
    rw [findMap]
    cases f a with
    | some b => exact List.suffix_cons a rest
    | none => exact ih.trans (List.suffix_cons a rest)

theorem exists_of_findMap_fst {l : List α} {b : β} (h : (findMap f l).1 = some b) :
    ∃ a ∈ l, f a = some b := by
  rw [findMap_fst] at h
  exact List.exists_of_findSome?_eq_some h

theorem length_findMap_snd_lt {l : List α} {b : β} (h : (findMap f l).1 = some b) :
    (findMap f l).2.length < l.length := by
  induction l with
  | nil => cases h
  | cons a rest ih =>
    rw [findMap] at h ⊢
    cases hfa : f a with
    | some b' => simp
    | none =>
      simp only [hfa] at h ⊢
      exact Nat.lt_succ_of_lt (ih h)

theorem findMap_eq_some {l rest : List α} {b : β} (h : findMap f l = (some b, rest)) :
    ∃ pre a, l = pre ++ a :: rest ∧ (∀ p ∈ pre, f p = none) ∧ f a = some b := by
  induction l with
  | nil => cases h
  | cons a l ih =>
    rw [findMap] at h
    cases ha : f a with
    | some b' =>
      rw [ha] at h
      cases h
      exact ⟨[], a, rfl, by simp, ha⟩
    | none =>
      rw [ha] at h
      obtain ⟨pre, a', rfl, hpre, ha'⟩ := ih h
      refine ⟨a :: pre, a', rfl, ?_, ha'⟩
      simp only [List.mem_cons, forall_eq_or_imp]
      exact ⟨ha, hpre⟩

theorem findMap_eq_none {l rest : List α} (h : findMap f l = (none, rest)) :
    rest = [] ∧ ∀ a ∈ l, f a = none := by
  induction l with
  | nil =>
    cases h
    exact ⟨rfl, by simp⟩
  | cons a l ih =>
    rw [findMap] at h
    cases ha : f a with
    | some b' =>
      rw [ha] at h
      cases h
    | none =>
      rw [ha] at h
      obtain ⟨hrest, hall⟩ := ih h
      refine ⟨hrest, ?_⟩
      simp only [List.mem_cons, forall_eq_or_imp]
      exact ⟨ha, hall⟩

end FindMap

/-! ## `for` loops -/

section ForLoop

variable {ε' β : Type}

variable (next) in
/-- `loop` is a `for` loop over the iterator with body `f` on an accumulator: it ends with the
items, or at the first error, the errors of `next` turned into its own by `lift`. -/
def IsForLoop (lift : ε → ε') (f : β → α → Except ε' β) (loop : σ → β → Except ε' β) : Prop :=
  ∀ it b, loop it b = match next it with
    | .ok (some x, it') => f b x >>= loop it'
    | .ok (none, _) => .ok b
    | .error e => .error (lift e)

/-- A `for` loop over an iterator that yields exactly `xs` folds its body over `xs`. -/
theorem IsForLoop.eq_foldlM {lift : ε → ε'} {f : β → α → Except ε' β}
    {loop : σ → β → Except ε' β} (hloop : IsForLoop next lift f loop) {xs : List α} :
    ∀ {it : σ}, YieldsExactly next it xs → ∀ b, loop it b = xs.foldlM f b := by
  induction xs with
  | nil =>
    rintro it ⟨it', rfl, it'', hend⟩ b
    rw [hloop, hend]
    rfl
  | cons x xs ih =>
    rintro it ⟨it', ⟨it₁, hnext, hxs⟩, hend⟩ b
    rw [hloop, hnext, List.foldlM_cons]
    dsimp only
    cases f b x with
    | error e => rfl
    | ok b' => exact ih ⟨it', hxs, hend⟩ b'

/-- What every successful step of the body keeps holds after a fold that succeeds. -/
theorem foldlM_invariant {f : β → α → Except ε' β} {P : β → Prop} {xs : List α}
    (hf : ∀ {b b' x}, x ∈ xs → P b → f b x = .ok b' → P b') :
    ∀ {b b' : β}, P b → xs.foldlM f b = .ok b' → P b' := by
  induction xs with
  | nil =>
    intro b b' hb h
    cases h
    exact hb
  | cons x xs ih =>
    intro b b' hb h
    rw [List.foldlM_cons] at h
    cases hstep : f b x with
    | error e =>
      rw [hstep] at h
      cases h
    | ok b₁ =>
      rw [hstep] at h
      exact ih (fun hy => hf (List.mem_cons_of_mem x hy)) (hf List.mem_cons_self hb hstep) h

/-- A `for` loop over `0, …, n - 1` whose step `k` takes the state `g k` to `g (k + 1)` ends in
`g n`. -/
theorem foldlM_range_eq_ok {f : β → Nat → Except ε' β} (g : Nat → β) :
    ∀ {n : Nat}, (∀ k < n, f (g k) k = .ok (g (k + 1))) → (List.range n).foldlM f (g 0) = .ok (g n)
  | 0, _ => rfl
  | n + 1, hstep => by
    rw [List.range_succ, List.foldlM_append, foldlM_range_eq_ok g fun k hk => hstep k (by omega)]
    show (List.foldlM f (g n) [n]) = _
    rw [List.foldlM_cons, hstep n (Nat.lt_succ_self n)]
    rfl

/-- A `for` loop that pushes what its body computes for each item collects them: it is
`mapM`. -/
theorem foldlM_push_eq_mapM {m : Type → Type} [Monad m] [LawfulMonad m] (g : α → m β)
    (xs : List α) (acc : List β) :
    xs.foldlM (fun acc x => do let b ← g x; pure (acc ++ [b])) acc = (acc ++ ·) <$> xs.mapM g := by
  induction xs generalizing acc with
  | nil => simp
  | cons x xs ih =>
    simp only [List.foldlM_cons, bind_assoc, pure_bind, ih]
    simp

theorem mapM_congr {m : Type → Type} [Monad m] [LawfulMonad m] {f g : α → m β} :
    ∀ {xs : List α}, (∀ x ∈ xs, f x = g x) → xs.mapM f = xs.mapM g
  | [], _ => rfl
  | x :: xs, h => by
    rw [List.mapM_cons, List.mapM_cons, h x List.mem_cons_self,
      mapM_congr fun y hy => h y (List.mem_cons_of_mem x hy)]

end ForLoop

end Iterator
