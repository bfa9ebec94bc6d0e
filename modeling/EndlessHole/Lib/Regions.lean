import Mathlib

/-!
# Lists of owners of disjoint regions

An allocator hands out pieces of memory. Its representation invariant says that a list of owners
(free blocks, live allocations, tables) own pairwise disjoint regions, `PairwiseDisjoint f l`
for the region `f x` of owner `x`. An operation carves new owners out of the region of an owner
it removes, or out of fresh memory, and the rest keep their regions.

* `pairwiseDisjoint_append_fresh`: owners whose regions lie in a region `X` that no old owner
  meets can be added;
* `pairwiseDisjoint_carve`: owners whose regions lie in the region of an old owner `x` can
  replace `x`;
* `pairwiseDisjoint_cons_flatMap_update`: in a tree of owners, listed as an owner followed by the
  pieces below each of its children, one piece can be replaced by owners carved from it or from
  fresh memory;
* `cover f l` is what the owners in `l` own together, and `flatMap_update_perm` says how a list
  of owners kept per index (the free lists of an allocator) changes when one index's owners do.

Regions of memory are intervals `Set.Ico a b`; Mathlib's `Set.Ico_disjoint_Ico` and
`Set.Ico_subset_Ico_iff` turn facts about them into arithmetic.
-/

namespace Regions

variable {α β : Type*}

/-- The owners in `l` own pairwise disjoint regions, `f x` the region of `x`. -/
def PairwiseDisjoint (f : β → Set α) (l : List β) : Prop :=
  l.Pairwise fun x y => Disjoint (f x) (f y)

theorem PairwiseDisjoint.perm {f : β → Set α} {l l' : List β} (h : PairwiseDisjoint f l)
    (hp : l.Perm l') : PairwiseDisjoint f l' :=
  List.Pairwise.perm h hp fun hxy => hxy.symm

theorem PairwiseDisjoint.sublist {f : β → Set α} {l l' : List β} (h : PairwiseDisjoint f l)
    (hs : l'.Sublist l) : PairwiseDisjoint f l' :=
  List.Pairwise.sublist hs h

theorem PairwiseDisjoint.congr {f g : β → Set α} {l : List β} (h : PairwiseDisjoint f l)
    (hfg : ∀ x ∈ l, g x = f x) : PairwiseDisjoint g l := by
  unfold PairwiseDisjoint at h ⊢
  rw [List.pairwise_iff_forall_sublist] at h ⊢
  intro x y hxy
  have hx : x ∈ l := hxy.subset (by simp)
  have hy : y ∈ l := hxy.subset (by simp)
  rw [hfg x hx, hfg y hy]
  exact h hxy

theorem pairwiseDisjoint_append_fresh {f : β → Set α} {l ys : List β} {X : Set α}
    (hl : PairwiseDisjoint f l) (hX : ∀ z ∈ l, Disjoint X (f z))
    (hys : PairwiseDisjoint f ys) (hsub : ∀ y ∈ ys, f y ⊆ X) : PairwiseDisjoint f (ys ++ l) := by
  unfold PairwiseDisjoint at *
  rw [List.pairwise_append]
  refine ⟨hys, hl, fun y hy z hz => ?_⟩
  exact (hX z hz).mono_left (hsub y hy)

theorem pairwiseDisjoint_carve [DecidableEq β] {f : β → Set α} {l ys : List β} {x : β}
    (hl : PairwiseDisjoint f l) (hx : x ∈ l) (hys : PairwiseDisjoint f ys)
    (hsub : ∀ y ∈ ys, f y ⊆ f x) : PairwiseDisjoint f (ys ++ l.erase x) := by
  have hperm : PairwiseDisjoint f (x :: l.erase x) := hl.perm (List.perm_cons_erase hx)
  unfold PairwiseDisjoint at hperm
  rw [List.pairwise_cons] at hperm
  exact pairwiseDisjoint_append_fresh hperm.2 hperm.1 hys hsub

theorem PairwiseDisjoint.of_mem_erase [DecidableEq β] {f : β → Set α} {l : List β} {x y : β}
    (hl : PairwiseDisjoint f l) (hx : x ∈ l) (hy : y ∈ l.erase x) : Disjoint (f x) (f y) := by
  have hperm : PairwiseDisjoint f (x :: l.erase x) := hl.perm (List.perm_cons_erase hx)
  unfold PairwiseDisjoint at hperm
  rw [List.pairwise_cons] at hperm
  exact hperm.1 y hy

theorem PairwiseDisjoint.disjoint [DecidableEq β] {f : β → Set α} {l : List β} {x y : β}
    (hl : PairwiseDisjoint f l) (hx : x ∈ l) (hy : y ∈ l) (hne : x ≠ y) :
    Disjoint (f x) (f y) :=
  hl.of_mem_erase hx ((List.mem_erase_of_ne hne.symm).2 hy)

theorem PairwiseDisjoint.flatMap_pieces {f : β → Set α} {γ : Type*} {l : List γ}
    {g : γ → List β} (h : PairwiseDisjoint f (l.flatMap g)) {j k : γ}
    (hj : j ∈ l) (hk : k ∈ l) (hne : j ≠ k) :
    ∀ x ∈ g j, ∀ y ∈ g k, Disjoint (f x) (f y) := by
  unfold PairwiseDisjoint at h
  rw [List.pairwise_flatMap] at h
  have : Std.Symm fun j k => ∀ x ∈ g j, ∀ y ∈ g k, Disjoint (f x) (f y) :=
    ⟨fun _ _ hjk y hy x hx => (hjk x hx y hy).symm⟩
  exact h.2.forall hj hk hne

/-- Owners listed as an owner `a` followed by the pieces `g j` of the indices `j ∈ l`, where the
piece of `i` is replaced by owners each carved from that piece or from memory outside `X`,
which holds every old region. -/
theorem pairwiseDisjoint_cons_flatMap_update {γ : Type*} {f : β → Set α} {a : β} {l : List γ}
    {g g' : γ → List β} {i : γ} {X : Set α} (hnd : l.Nodup)
    (h : PairwiseDisjoint f (a :: l.flatMap g)) (hX : ∀ y ∈ a :: l.flatMap g, f y ⊆ X)
    (hg : ∀ j ∈ l, j ≠ i → g' j = g j) (hnew : PairwiseDisjoint f (g' i))
    (hfresh : ∀ y ∈ g' i, y ∈ g i ∨ Disjoint (f y) X) :
    PairwiseDisjoint f (a :: l.flatMap g') := by
  unfold PairwiseDisjoint at *
  rw [List.pairwise_cons, List.pairwise_flatMap] at h ⊢
  obtain ⟨ha, hpieces, hbetween⟩ := h
  have hXa : f a ⊆ X := hX a List.mem_cons_self
  have hXg : ∀ j ∈ l, ∀ y ∈ g j, f y ⊆ X := fun j hj y hy =>
    hX y (List.mem_cons_of_mem _ (List.mem_flatMap.2 ⟨j, hj, hy⟩))
  -- a new owner of the piece of `i` is an old owner of that piece, or lies outside `X`
  have hold : ∀ j ∈ l, ∀ y ∈ g' j, y ∈ g j ∨ (j = i ∧ Disjoint (f y) X) := by
    intro j hj y hy
    by_cases hji : j = i
    · subst hji
      exact (hfresh y hy).imp id fun hd => ⟨rfl, hd⟩
    · exact .inl (hg j hj hji ▸ hy)
  refine ⟨fun y hy => ?_, ⟨fun j hj => ?_, ?_⟩⟩
  · obtain ⟨j, hj, hy⟩ := List.mem_flatMap.1 hy
    rcases hold j hj y hy with hy | ⟨-, hd⟩
    · exact ha y (List.mem_flatMap.2 ⟨j, hj, hy⟩)
    · exact (hd.mono_right hXa).symm
  · by_cases hji : j = i
    · exact hji ▸ hnew
    · exact hg j hj hji ▸ hpieces j hj
  · refine (hbetween.and hnd).imp_of_mem fun {j k} hj hk ⟨hjk, hne⟩ x hx y hy => ?_
    rcases hold j hj x hx with hx | ⟨rfl, hdx⟩ <;> rcases hold k hk y hy with hy | ⟨rfl, hdy⟩
    · exact hjk x hx y hy
    · exact (hdy.mono_right (hXg j hj x hx)).symm
    · exact hdx.mono_right (hXg k hk y hy)
    · exact absurd rfl hne

/-! ## What owners own together -/

/-- The memory that the owners in `l` own together. -/
def cover (f : β → Set α) (l : List β) : Set α := {x | ∃ y ∈ l, x ∈ f y}

section Cover

variable {f : β → Set α}

@[simp] theorem cover_nil : cover f [] = ∅ := by
  simp [cover]

@[simp] theorem cover_cons (y : β) (l : List β) : cover f (y :: l) = f y ∪ cover f l := by
  ext x
  simp [cover]

@[simp] theorem cover_append (l l' : List β) : cover f (l ++ l') = cover f l ∪ cover f l' := by
  ext x
  simp [cover, or_and_right, exists_or]

theorem cover_perm {l l' : List β} (h : l.Perm l') : cover f l = cover f l' := by
  ext x
  simp [cover, h.mem_iff]

theorem subset_cover {l : List β} {y : β} (hy : y ∈ l) : f y ⊆ cover f l :=
  fun _ hx => ⟨y, hy, hx⟩

theorem disjoint_cover_iff {X : Set α} {l : List β} :
    Disjoint X (cover f l) ↔ ∀ y ∈ l, Disjoint X (f y) := by
  induction l with
  | nil => simp
  | cons y l ih => simp [ih]

theorem PairwiseDisjoint.disjoint_cover {y : β} {l : List β} (h : PairwiseDisjoint f (y :: l)) :
    Disjoint (f y) (cover f l) :=
  disjoint_cover_iff.2 (List.pairwise_cons.1 h).1

theorem PairwiseDisjoint.merge {x y z : β} {l : List β} (h : PairwiseDisjoint f (x :: y :: l))
    (hz : f z ⊆ f x ∪ f y) : PairwiseDisjoint f (z :: l) := by
  unfold PairwiseDisjoint at *
  rw [List.pairwise_cons, List.pairwise_cons] at h
  obtain ⟨hx, hy, hl⟩ := h
  refine List.pairwise_cons.2 ⟨fun w hw => ?_, hl⟩
  exact Disjoint.mono_left hz
    (Set.disjoint_union_left.2 ⟨hx w (List.mem_cons_of_mem _ hw), hy w hw⟩)

end Cover

/-- Owners listed per index, the owners of `i` at `g i`: replacing those by `xs` replaces them
in the list, up to order. -/
theorem flatMap_update_perm {γ : Type*} [DecidableEq γ] {l : List γ} (hnd : l.Nodup) {i : γ} (hi : i ∈ l)
    (g : γ → List β) (xs : List β) :
    (l.flatMap (Function.update g i xs) ++ g i).Perm (l.flatMap g ++ xs) := by
  induction l with
  | nil => simp at hi
  | cons j l ih =>
    rw [List.nodup_cons] at hnd
    by_cases hji : j = i
    · subst hji
      have hrest : l.flatMap (Function.update g j xs) = l.flatMap g :=
        List.flatMap_congr fun k hk => Function.update_of_ne (by rintro rfl; exact hnd.1 hk) _ _
      simp only [List.flatMap_cons, Function.update_self, hrest]
      refine List.perm_append_comm.trans ?_
      rw [List.append_assoc]
      exact List.perm_append_comm.append_left _
    · have hil : i ∈ l := by simpa [Ne.symm hji] using hi
      simp only [List.flatMap_cons, Function.update_of_ne hji, List.append_assoc]
      exact (ih hnd.2 hil).append_left _

end Regions
