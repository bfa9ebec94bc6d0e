import EndlessHole.Lib.Usize
import EndlessHole.Lib.Iterator
import Mathlib

/-!
# Subtracting reserved ranges from a whole range

`subtract_ranges` of `kernel_core/src/memory/subtract_ranges.rs`: an iterator over the parts of
a whole range `[start, start + len)` that none of a list of sub-ranges covers, each yielded as a
start and a length. The sub-ranges come from an iterator; the model keeps the items it has left
as a list, which `Iterator.findMap` consumes as `find_map` does.

`next` is the source's `while` loop. Each pass loads a sub-range if none is loaded: the next one
that, clipped to the whole range, is not empty and ends after the current position. A gap
before it is yielded, with the sub-range kept for the next call; otherwise the position jumps to
its end and the loop goes on. With no sub-range left, the rest of the whole range is yielded.

The loop ends because every pass that does not return drops a loaded sub-range, and loading
one consumes an item (`pending_skip_lt`). Over every run from `subtractRanges` the position stays
in the whole range, and a loaded sub-range is a non-empty part of the whole range ahead of the
position (`Inv`, kept by `Inv.next`); each range `next` yields is then a non-empty part of the
whole range at the position it started from (`next_yields_within`).
-/

namespace EndlessHole.Memory

/-- The state of `SubtractRanges`: the whole range as a start and an end, the position reached,
the sub-ranges not yet consumed, and the sub-range being processed, clipped to the whole
range. -/
structure SubtractRanges where
  wholeStart : Nat
  wholeEnd : Nat
  currentPos : Nat
  ranges : List (Nat × Nat)
  currentSubrange : Option (Nat × Nat)
  deriving DecidableEq, Repr

/-- `subtract_ranges(whole, ranges)`. -/
def subtractRanges (whole : Nat × Nat) (ranges : List (Nat × Nat)) : SubtractRanges :=
  let wholeStart := whole.1
  let wholeEnd := Usize.saturatingAdd wholeStart whole.2
  ⟨wholeStart, wholeEnd, wholeStart, ranges, none⟩

namespace SubtractRanges

/-- The closure of `find_map`: the sub-range `(start, len)` clipped to the whole range, or
`None` when that is empty or ends at or before the current position. -/
def clip (it : SubtractRanges) (r : Nat × Nat) : Option (Nat × Nat) :=
  let start := r.1
  let end_ := Usize.saturatingAdd start r.2
  let subStart := max start it.wholeStart
  let subEnd := min end_ it.wholeEnd
  if subStart ≥ subEnd then none
  else if subEnd ≤ it.currentPos then none
  else some (subStart, subEnd)

/-- Load the next sub-range if none is loaded. -/
def loadSubrange (it : SubtractRanges) : SubtractRanges :=
  match it.currentSubrange with
  | none =>
    let (sub, rest) := Iterator.findMap it.clip it.ranges
    { it with currentSubrange := sub, ranges := rest }
  | some _ => it

/-- What the loop of `next` decreases: the sub-ranges left, and the one loaded. -/
def pending (it : SubtractRanges) : Nat :=
  2 * it.ranges.length + if it.currentSubrange.isSome then 1 else 0

@[simp] theorem loadSubrange_wholeStart (it : SubtractRanges) :
    it.loadSubrange.wholeStart = it.wholeStart := by
  unfold loadSubrange
  split <;> rfl

@[simp] theorem loadSubrange_wholeEnd (it : SubtractRanges) :
    it.loadSubrange.wholeEnd = it.wholeEnd := by
  unfold loadSubrange
  split <;> rfl

@[simp] theorem loadSubrange_currentPos (it : SubtractRanges) :
    it.loadSubrange.currentPos = it.currentPos := by
  unfold loadSubrange
  split <;> rfl

theorem pending_skip_lt {it : SubtractRanges} {sub : Nat × Nat}
    (h : it.loadSubrange.currentSubrange = some sub) :
    2 * it.loadSubrange.ranges.length < it.pending := by
  unfold pending
  unfold loadSubrange at h ⊢
  split
  · rename_i hnone
    simp only [hnone] at h
    have hlt := Iterator.length_findMap_snd_lt h
    simp only
    omega
  · rename_i hsome
    simp [hsome]

/-- `Iterator::next`: the next part of the whole range that no sub-range covers, as a start and a
length. -/
def next (it : SubtractRanges) : Option (Nat × Nat) × SubtractRanges :=
  if it.currentPos < it.wholeEnd then
    match _h : it.loadSubrange.currentSubrange with
    | some (subStart, subEnd) =>
      if it.currentPos < subStart then
        -- the gap before the sub-range; the sub-range stays loaded for the next call
        (some (it.currentPos, subStart - it.currentPos), { it.loadSubrange with currentPos := subStart })
      else next { it.loadSubrange with currentPos := subEnd, currentSubrange := none }
    | none =>
      let len := it.wholeEnd - it.currentPos
      (if len > 0 then some (it.currentPos, len) else none,
        { it.loadSubrange with currentPos := it.wholeEnd })
  else (none, it)
termination_by it.pending
decreasing_by
  simpa [pending] using pending_skip_lt _h

/-! ## The invariant -/

/-- What holds over every run: the position lies in the whole range, and a loaded sub-range is a
non-empty part of the whole range that ends ahead of the position. -/
structure Inv (it : SubtractRanges) : Prop where
  start_le_pos : it.wholeStart ≤ it.currentPos
  pos_le_end : it.currentPos ≤ it.wholeEnd
  subrange : ∀ sub ∈ it.currentSubrange,
    it.wholeStart ≤ sub.1 ∧ sub.1 < sub.2 ∧ sub.2 ≤ it.wholeEnd ∧ it.currentPos < sub.2

theorem inv_subtractRanges {whole : Nat × Nat} (ranges : List (Nat × Nat))
    (h : whole.1 ≤ Usize.max) : Inv (subtractRanges whole ranges) := by
  refine ⟨le_refl _, ?_, fun sub hsub => by cases hsub⟩
  simp only [subtractRanges, Usize.saturatingAdd]
  omega

theorem clip_spec {it : SubtractRanges} {r sub : Nat × Nat} (h : it.clip r = some sub) :
    it.wholeStart ≤ sub.1 ∧ sub.1 < sub.2 ∧ sub.2 ≤ it.wholeEnd ∧ it.currentPos < sub.2 := by
  unfold clip at h
  dsimp only at h
  split at h
  · cases h
  · split at h
    · cases h
    · cases h
      dsimp only
      omega

theorem Inv.loadSubrange {it : SubtractRanges} (hinv : Inv it) : Inv it.loadSubrange := by
  refine ⟨by simpa using hinv.start_le_pos, by simpa using hinv.pos_le_end, ?_⟩
  intro sub hsub
  simp only [loadSubrange_wholeStart, loadSubrange_wholeEnd, loadSubrange_currentPos]
  unfold SubtractRanges.loadSubrange at hsub
  split at hsub
  · -- a sub-range `find_map` found: the closure clipped it
    obtain ⟨r, -, hr⟩ := Iterator.exists_of_findMap_fst hsub
    exact clip_spec hr
  · exact hinv.subrange sub hsub

theorem Inv.loaded {it : SubtractRanges} (hinv : Inv it) {subStart subEnd : Nat}
    (hsub : it.loadSubrange.currentSubrange = some (subStart, subEnd)) :
    it.wholeStart ≤ subStart ∧ subStart < subEnd ∧ subEnd ≤ it.wholeEnd ∧ it.currentPos < subEnd := by
  simpa using hinv.loadSubrange.subrange _ hsub

theorem Inv.skip {it : SubtractRanges} (hinv : Inv it) {subStart subEnd : Nat}
    (hsub : it.loadSubrange.currentSubrange = some (subStart, subEnd)) :
    Inv { it.loadSubrange with currentPos := subEnd, currentSubrange := none } := by
  have hload := hinv.loaded hsub
  refine ⟨?_, ?_, fun sub hsub' => by cases hsub'⟩
  · simp only [loadSubrange_wholeStart]
    omega
  · simpa using hload.2.2.1

theorem Inv.next {it : SubtractRanges} (hinv : Inv it) : Inv it.next.2 := by
  fun_induction SubtractRanges.next it with
  | case1 it hlt subStart subEnd hsub hgap =>
    -- the position moves to the start of the loaded sub-range, which stays loaded
    have hload := hinv.loaded hsub
    refine ⟨by simpa using hload.1, ?_, ?_⟩
    · simp only [loadSubrange_wholeEnd]
      omega
    · intro sub hsub'
      simp only [hsub, Option.mem_def, Option.some.injEq] at hsub'
      subst hsub'
      simp only [loadSubrange_wholeStart, loadSubrange_wholeEnd]
      omega
  | case2 it hlt subStart subEnd hsub hskip ih => exact ih (hinv.skip hsub)
  | case3 it hlt hnone =>
    refine ⟨?_, by simp, fun sub hsub' => ?_⟩
    · simpa using hinv.start_le_pos.trans hinv.pos_le_end
    · simp [hnone] at hsub'
  | case4 it hge => exact hinv

/-- A range `next` yields is a non-empty part of the whole range that starts at or after the
position it was called at; the position moves to its end. -/
theorem next_yields_within {it it' : SubtractRanges} {start len : Nat} (hinv : Inv it)
    (h : it.next = (some (start, len), it')) :
    it.currentPos ≤ start ∧ 0 < len ∧ it'.currentPos = start + len ∧ start + len ≤ it.wholeEnd := by
  fun_induction SubtractRanges.next it generalizing it' with
  | case1 it hlt subStart subEnd hsub hgap =>
    have hload := hinv.loaded hsub
    simp only [Prod.mk.injEq, Option.some.injEq] at h
    obtain ⟨⟨rfl, rfl⟩, rfl⟩ := h
    dsimp only
    omega
  | case2 it hlt subStart subEnd hsub hskip ih =>
    have hload := hinv.loaded hsub
    have := ih (hinv.skip hsub) h
    simp only [loadSubrange_wholeEnd] at this
    omega
  | case3 it hlt hnone =>
    simp only [Prod.mk.injEq] at h
    obtain ⟨hyield, rfl⟩ := h
    split at hyield
    · simp only [Option.some.injEq, Prod.mk.injEq] at hyield
      obtain ⟨rfl, rfl⟩ := hyield
      dsimp only
      omega
    · cases hyield
  | case4 it hge => cases h

/-! ## The difference it computes

The sub-ranges are documented to be ordered by start address and not to overlap
(`OrderedDisjoint`). Under that precondition a state `Tracks` the sub-ranges it was made with:
from the position on, the sub-ranges left and the loaded one cover what the sub-ranges cover.
Each call of `next` then yields the first maximal part of the difference from the position on,
or `None` when no part is left (`Tracks.next_some`, `Tracks.next_none`), and the run from
`subtract_ranges` yields all the parts in order (`subtract_ranges_yields_difference`). -/

/-- `x` lies in one of the sub-ranges, each a start and a length. -/
def Covered (rs : List (Nat × Nat)) (x : Nat) : Prop := ∃ r ∈ rs, r.1 ≤ x ∧ x < r.1 + r.2

instance (rs : List (Nat × Nat)) : DecidablePred (Covered rs) := fun _ =>
  inferInstanceAs (Decidable (∃ r ∈ rs, _))

/-- `x` lies in the whole range `[wholeStart, wholeEnd)` and in no sub-range. -/
def InDifference (wholeStart wholeEnd : Nat) (rs : List (Nat × Nat)) (x : Nat) : Prop :=
  wholeStart ≤ x ∧ x < wholeEnd ∧ ¬Covered rs x

instance (wholeStart wholeEnd : Nat) (rs : List (Nat × Nat)) :
    DecidablePred (InDifference wholeStart wholeEnd rs) := fun _ =>
  inferInstanceAs (Decidable (_ ∧ _ ∧ _))

/-- The precondition of `subtract_ranges`: the sub-ranges are ordered by start address, and no
two of them overlap. -/
def OrderedDisjoint (rs : List (Nat × Nat)) : Prop :=
  rs.Pairwise fun r s => r.1 ≤ s.1 ∧ Disjoint (Set.Ico r.1 (r.1 + r.2)) (Set.Ico s.1 (s.1 + s.2))

theorem end_le_of_orderedDisjoint {r s : Nat × Nat} (hle : r.1 ≤ s.1)
    (hdisj : Disjoint (Set.Ico r.1 (r.1 + r.2)) (Set.Ico s.1 (s.1 + s.2))) :
    s.2 = 0 ∨ r.1 + r.2 ≤ s.1 := by
  by_contra hcon
  simp only [not_or, Nat.not_le] at hcon
  exact Set.disjoint_left.1 hdisj (show s.1 ∈ Set.Ico r.1 (r.1 + r.2) from ⟨hle, hcon.2⟩)
    (show s.1 ∈ Set.Ico s.1 (s.1 + s.2) from ⟨le_refl _, by omega⟩)

section Clip

variable {it : SubtractRanges} (hend : it.wholeEnd ≤ Usize.max)
include hend

theorem not_covers_of_clip_none {r : Nat × Nat} (hclip : it.clip r = none) {x : Nat}
    (hstart : it.wholeStart ≤ x) (hpos : it.currentPos ≤ x) (hx : x < it.wholeEnd) :
    ¬(r.1 ≤ x ∧ x < r.1 + r.2) := by
  unfold clip at hclip
  dsimp only at hclip
  simp only [Usize.max] at hend
  split at hclip
  · rename_i hempty
    simp only [Usize.saturatingAdd, Usize.max] at hempty
    omega
  · split at hclip
    · rename_i hbefore
      simp only [Usize.saturatingAdd, Usize.max] at hbefore
      omega
    · cases hclip

theorem covers_iff_of_clip_some {r sub : Nat × Nat} (hclip : it.clip r = some sub) :
    0 < r.2 ∧ sub.2 ≤ r.1 + r.2 ∧
      ∀ x, it.wholeStart ≤ x → x < it.wholeEnd → (r.1 ≤ x ∧ x < r.1 + r.2 ↔ sub.1 ≤ x ∧ x < sub.2) := by
  unfold clip at hclip
  dsimp only at hclip
  simp only [Usize.max] at hend
  split at hclip
  · cases hclip
  · rename_i hempty
    split at hclip
    · cases hclip
    · cases hclip
      simp only [Usize.saturatingAdd, Usize.max] at hempty ⊢
      refine ⟨by omega, by omega, fun x hstart hx => ?_⟩
      omega

end Clip

/-- What a state of the iterator knows of the sub-ranges `rs` it was made with: from the position
on, the sub-ranges left and the loaded one cover what `rs` covers; those left are ordered and
start after the loaded one ends; and the position is the start of the whole range, follows a
covered address, is the start of the loaded sub-range, or is at the end. -/
structure Tracks (rs : List (Nat × Nat)) (it : SubtractRanges) : Prop where
  inv : Inv it
  end_le_max : it.wholeEnd ≤ Usize.max
  covered_iff : ∀ x, it.currentPos ≤ x → x < it.wholeEnd →
    (Covered rs x ↔ Covered it.ranges x ∨ ∃ sub ∈ it.currentSubrange, sub.1 ≤ x ∧ x < sub.2)
  ordered : OrderedDisjoint it.ranges
  after_loaded : ∀ sub ∈ it.currentSubrange, ∀ r ∈ it.ranges, r.2 = 0 ∨ sub.2 ≤ r.1
  left_end : it.currentPos = it.wholeStart ∨ Covered rs (it.currentPos - 1) ∨
    (∃ sub ∈ it.currentSubrange, sub.1 = it.currentPos) ∨ it.wholeEnd ≤ it.currentPos

variable {rs : List (Nat × Nat)}

theorem Tracks.loadSubrange {it : SubtractRanges} (h : Tracks rs it) : Tracks rs it.loadSubrange := by
  have hinv := h.inv.loadSubrange
  unfold SubtractRanges.loadSubrange at hinv ⊢
  split
  · rename_i hnone
    rw [hnone] at hinv
    have hleft := h.left_end
    simp only [hnone, Option.mem_def, reduceCtorEq, false_and, exists_const, false_or] at hleft
    cases hfind : Iterator.findMap it.clip it.ranges with
    | mk sub rest =>
      rw [hfind] at hinv
      cases sub with
      | none =>
        obtain ⟨rfl, hall⟩ := Iterator.findMap_eq_none hfind
        refine ⟨hinv, h.end_le_max, fun x hpos hx => ?_, List.Pairwise.nil, by simp,
          by simpa using hleft⟩
        rw [h.covered_iff x hpos hx]
        simp only [hnone, Option.mem_def, reduceCtorEq, false_and, exists_const, or_false]
        constructor
        · rintro ⟨r, hr, hcov⟩
          exact absurd hcov (not_covers_of_clip_none h.end_le_max (hall r hr)
            (h.inv.start_le_pos.trans hpos) hpos hx)
        · rintro ⟨r, hr, -⟩
          simp at hr
      | some sub =>
        obtain ⟨pre, r, hranges, hpre, hr⟩ := Iterator.findMap_eq_some hfind
        obtain ⟨hlen, hsubEnd, hcovers⟩ := covers_iff_of_clip_some h.end_le_max hr
        have hord := h.ordered
        rw [hranges, OrderedDisjoint, List.pairwise_append, List.pairwise_cons] at hord
        refine ⟨hinv, h.end_le_max, fun x hpos hx => ?_, hord.2.1.2, ?_, ?_⟩
        · -- the sub-ranges skipped cover nothing from the position on, and the one found covers
          have hstart := h.inv.start_le_pos.trans hpos
          rw [h.covered_iff x hpos hx, hranges]
          simp only [hnone, Option.mem_def, reduceCtorEq, false_and, exists_const, or_false,
            Option.some.injEq]
          constructor
          · rintro ⟨r', hr', hcov⟩
            rcases List.mem_append.1 hr' with hr' | hr'
            · exact absurd hcov (not_covers_of_clip_none h.end_le_max (hpre r' hr') hstart hpos hx)
            · rcases List.mem_cons.1 hr' with rfl | hr'
              · exact .inr ⟨sub, rfl, (hcovers x hstart hx).1 hcov⟩
              · exact .inl ⟨r', hr', hcov⟩
          · rintro (⟨r', hr', hcov⟩ | ⟨_, rfl, hsub⟩)
            · exact ⟨r', List.mem_append_right _ (List.mem_cons_of_mem _ hr'), hcov⟩
            · exact ⟨r, List.mem_append_right _ List.mem_cons_self, (hcovers x hstart hx).2 hsub⟩
        · -- the sub-ranges left start after the one found ends
          intro sub' hsub' r' hr'
          simp only [Option.mem_def, Option.some.injEq] at hsub'
          subst hsub'
          obtain ⟨hle, hdisj⟩ := hord.2.1.1 r' hr'
          rcases end_le_of_orderedDisjoint hle hdisj with h0 | hle'
          · exact .inl h0
          · exact .inr (hsubEnd.trans hle')
        · rcases hleft with hleft | hleft | hleft
          · exact .inl hleft
          · exact .inr (.inl hleft)
          · exact .inr (.inr (.inr hleft))
  · exact h

theorem loadSubrange_ranges_of_none {it : SubtractRanges}
    (hnone : it.loadSubrange.currentSubrange = none) : it.loadSubrange.ranges = [] := by
  unfold SubtractRanges.loadSubrange at hnone ⊢
  split
  · rename_i hcur
    simp only [hcur] at hnone
    cases hfind : Iterator.findMap it.clip it.ranges with
    | mk sub rest =>
      simp only [hfind] at hnone ⊢
      subst hnone
      exact (Iterator.findMap_eq_none hfind).1
  · rename_i sub hcur
    simp [hcur] at hnone

section Step

variable {it : SubtractRanges} (h : Tracks rs it)
include h

theorem Tracks.rest_inDifference (hnone : it.loadSubrange.currentSubrange = none) :
    ∀ x, it.currentPos ≤ x → x < it.wholeEnd → InDifference it.wholeStart it.wholeEnd rs x := by
  intro x hpos hx
  have hcov := h.loadSubrange.covered_iff x (by simpa using hpos) (by simpa using hx)
  rw [loadSubrange_ranges_of_none hnone, hnone] at hcov
  refine ⟨h.inv.start_le_pos.trans hpos, hx, fun hx' => ?_⟩
  rcases hcov.1 hx' with ⟨r, hr, -⟩ | ⟨sub, hsub, -⟩
  · cases hr
  · cases hsub

/-- Unless a sub-range loaded at the position starts there, the address before the position is
not in the difference, or the position is the start of the whole range. -/
theorem Tracks.left_maximal (hlt : it.currentPos < it.wholeEnd)
    (hnot : ∀ sub ∈ it.loadSubrange.currentSubrange, sub.1 ≠ it.currentPos) :
    it.currentPos = it.wholeStart ∨
      ¬InDifference it.wholeStart it.wholeEnd rs (it.currentPos - 1) := by
  rcases h.left_end with hstart | hcov | ⟨sub, hsub, hsubStart⟩ | hend
  · exact .inl hstart
  · exact .inr fun hd => hd.2.2 hcov
  · -- a sub-range already loaded stays loaded
    have hloaded : sub ∈ it.loadSubrange.currentSubrange := by
      unfold SubtractRanges.loadSubrange
      rw [Option.mem_def] at hsub
      simp [hsub]
    exact absurd hsubStart (hnot sub hloaded)
  · omega

theorem Tracks.gap {subStart subEnd : Nat}
    (hsub : it.loadSubrange.currentSubrange = some (subStart, subEnd))
    (hgap : it.currentPos < subStart) :
    (∀ x, it.currentPos ≤ x → x < subStart → InDifference it.wholeStart it.wholeEnd rs x) ∧
      Covered rs subStart ∧ Tracks rs { it.loadSubrange with currentPos := subStart } := by
  have hl := h.loadSubrange
  have hload := h.inv.loaded hsub
  refine ⟨fun x hpos hx => ?_, ?_, ?_⟩
  · -- the sub-ranges left start after the loaded one, which starts after `x`
    refine ⟨h.inv.start_le_pos.trans hpos, by omega, fun hcov => ?_⟩
    rcases (hl.covered_iff x (by simpa using hpos) (by simp; omega)).1 hcov with
      ⟨r, hr, hcovr⟩ | ⟨sub, hsub', hcovs⟩
    · rcases hl.after_loaded _ hsub r hr with h0 | hle
      · omega
      · dsimp only at hle
        omega
    · rw [hsub, Option.mem_def, Option.some.injEq] at hsub'
      subst hsub'
      dsimp only at hcovs
      omega
  · exact (hl.covered_iff subStart (by simp; omega) (by simp; omega)).2
      (.inr ⟨_, hsub, le_refl _, hload.2.1⟩)
  · refine ⟨⟨by simpa using hload.1, by simp; omega, ?_⟩, by simpa using h.end_le_max,
      fun x hpos hx => hl.covered_iff x (by simp at hpos ⊢; omega) hx, hl.ordered,
      hl.after_loaded, .inr (.inr (.inl ⟨_, hsub, rfl⟩))⟩
    intro sub hsub'
    rw [hsub, Option.mem_def, Option.some.injEq] at hsub'
    subst hsub'
    simp only [loadSubrange_wholeStart, loadSubrange_wholeEnd]
    omega

theorem Tracks.skip {subStart subEnd : Nat}
    (hsub : it.loadSubrange.currentSubrange = some (subStart, subEnd))
    (hskip : subStart ≤ it.currentPos) :
    (∀ x, it.currentPos ≤ x → x < subEnd → ¬InDifference it.wholeStart it.wholeEnd rs x) ∧
      Tracks rs { it.loadSubrange with currentPos := subEnd, currentSubrange := none } := by
  have hl := h.loadSubrange
  have hload := h.inv.loaded hsub
  have hcov : ∀ x, it.currentPos ≤ x → x < subEnd → Covered rs x := fun x hpos hx =>
    (hl.covered_iff x (by simpa using hpos) (by simp; omega)).2
      (.inr ⟨_, hsub, by dsimp only; omega, hx⟩)
  refine ⟨fun x hpos hx hdiff => hdiff.2.2 (hcov x hpos hx), h.inv.skip hsub,
    by simpa using h.end_le_max, fun x hpos hx => ?_, hl.ordered, by simp, ?_⟩
  · rw [hl.covered_iff x (by simp at hpos ⊢; omega) hx, hsub]
    simp only [Option.mem_def, Option.some.injEq, exists_eq_left', reduceCtorEq, false_and,
      exists_false, or_false]
    dsimp only at hpos
    constructor
    · rintro (hr | hs)
      · exact hr
      · omega
    · exact .inl
  · exact .inr (.inl (hcov (subEnd - 1) (by omega) (by omega)))

end Step

/-- A call of `next` that yields: what it skips is not in the difference, and what it yields is a
non-empty part of the difference, maximal at both ends. -/
theorem Tracks.next_some {it it' : SubtractRanges} (h : Tracks rs it) {s l : Nat}
    (hnext : it.next = (some (s, l), it')) :
    it.currentPos ≤ s ∧ 0 < l ∧ it'.currentPos = s + l ∧
      (∀ x, it.currentPos ≤ x → x < s → ¬InDifference it.wholeStart it.wholeEnd rs x) ∧
      (∀ x, s ≤ x → x < s + l → InDifference it.wholeStart it.wholeEnd rs x) ∧
      ¬InDifference it.wholeStart it.wholeEnd rs (s + l) ∧
      (s = it.wholeStart ∨ ¬InDifference it.wholeStart it.wholeEnd rs (s - 1)) ∧
      Tracks rs it' ∧ it'.wholeStart = it.wholeStart ∧ it'.wholeEnd = it.wholeEnd := by
  fun_induction SubtractRanges.next it generalizing it' with
  | case1 it hlt subStart subEnd hsub hgap =>
    simp only [Prod.mk.injEq, Option.some.injEq] at hnext
    obtain ⟨⟨rfl, rfl⟩, rfl⟩ := hnext
    obtain ⟨hdiff, hcov, htracks⟩ := h.gap hsub hgap
    refine ⟨le_refl _, by omega, by dsimp only; omega, fun x hpos hx => by omega,
      fun x hpos hx => hdiff x hpos (by omega), fun hd => hd.2.2 (by rwa [Nat.add_sub_cancel' hgap.le]),
      h.left_maximal hlt fun sub hsub' => ?_, htracks, by simp, by simp⟩
    rw [hsub, Option.mem_def, Option.some.injEq] at hsub'
    subst hsub'
    dsimp only
    omega
  | case2 it hlt subStart subEnd hsub hskip ih =>
    obtain ⟨hnot, htracks⟩ := h.skip hsub (Nat.le_of_not_lt hskip)
    have hload := h.inv.loaded hsub
    obtain ⟨hle, hl, hpos', hbefore, hin, hafter, hleft, htracks', hstart', hend'⟩ :=
      ih htracks hnext
    simp only [loadSubrange_wholeStart, loadSubrange_wholeEnd] at *
    refine ⟨by omega, hl, hpos', fun x hpos hx => ?_, hin, hafter, hleft, htracks', hstart', hend'⟩
    by_cases hx' : x < subEnd
    · exact hnot x hpos hx'
    · exact hbefore x (by omega) hx
  | case3 it hlt hnone =>
    simp only [Prod.mk.injEq] at hnext
    obtain ⟨hyield, rfl⟩ := hnext
    split at hyield
    · simp only [Option.some.injEq, Prod.mk.injEq] at hyield
      obtain ⟨rfl, rfl⟩ := hyield
      have hrest := h.rest_inDifference hnone
      have hle := h.inv.pos_le_end
      refine ⟨le_refl _, by omega, by simp; omega, fun x hpos hx => by omega,
        fun x hpos hx => hrest x hpos (by omega), fun hd => by have := hd.2.1; omega,
        h.left_maximal hlt fun sub hsub => by simp [hnone] at hsub, ?_, by simp, by simp⟩
      · have hl := h.loadSubrange
        refine ⟨⟨by simpa using h.inv.start_le_pos.trans h.inv.pos_le_end, by simp, ?_⟩,
          by simpa using h.end_le_max, fun x hpos hx => by simp at hpos hx; omega, ?_, ?_,
          .inr (.inr (.inr (by simp)))⟩
        · intro sub hsub
          simp [hnone] at hsub
        · rw [loadSubrange_ranges_of_none hnone]
          exact List.Pairwise.nil
        · intro sub hsub
          simp [hnone] at hsub
    · cases hyield
  | case4 it hge => cases hnext

theorem Tracks.next_none {it it' : SubtractRanges} (h : Tracks rs it)
    (hnext : it.next = (none, it')) :
    ∀ x, it.currentPos ≤ x → ¬InDifference it.wholeStart it.wholeEnd rs x := by
  fun_induction SubtractRanges.next it generalizing it' with
  | case1 it hlt subStart subEnd hsub hgap => cases hnext
  | case2 it hlt subStart subEnd hsub hskip ih =>
    obtain ⟨hnot, htracks⟩ := h.skip hsub (Nat.le_of_not_lt hskip)
    have hafter := ih htracks hnext
    simp only [loadSubrange_wholeStart, loadSubrange_wholeEnd] at hafter
    intro x hpos
    by_cases hx : x < subEnd
    · exact hnot x hpos hx
    · exact hafter x (by omega)
  | case3 it hlt hnone =>
    simp only [Prod.mk.injEq] at hnext
    obtain ⟨hyield, -⟩ := hnext
    split at hyield
    · cases hyield
    · intro x hpos hd
      have := hd.2.1
      omega
  | case4 it hge =>
    intro x hpos hd
    have := hd.2.1
    omega

/-- A maximal part of the difference: a non-empty range in the difference, with neither the
address after it nor the one before it in the difference. -/
def MaximalPart (wholeStart wholeEnd : Nat) (rs : List (Nat × Nat)) (y : Nat × Nat) : Prop :=
  0 < y.2 ∧ (∀ x, y.1 ≤ x → x < y.1 + y.2 → InDifference wholeStart wholeEnd rs x) ∧
    ¬InDifference wholeStart wholeEnd rs (y.1 + y.2) ∧
    (y.1 = wholeStart ∨ ¬InDifference wholeStart wholeEnd rs (y.1 - 1))

theorem inDifference_iff_of_mem {wholeStart wholeEnd x : Nat}
    (hx : x ∈ Finset.Ico wholeStart wholeEnd) :
    InDifference wholeStart wholeEnd rs x ↔ ¬Covered rs x := by
  rw [Finset.mem_Ico] at hx
  simp [InDifference, hx]

section Count

variable {p : Nat → Prop} [DecidablePred p]

theorem card_filter_Ico_add {a b c : Nat} (hab : a ≤ b) (hbc : b ≤ c) :
    ((Finset.Ico a c).filter p).card =
      ((Finset.Ico a b).filter p).card + ((Finset.Ico b c).filter p).card := by
  rw [← Finset.card_union_of_disjoint
      (Finset.disjoint_filter_filter (Finset.Ico_disjoint_Ico_consecutive a b c)),
    ← Finset.filter_union, Finset.Ico_union_Ico_eq_Ico hab hbc]

theorem card_filter_Ico_of_forall {a b : Nat} (h : ∀ x, a ≤ x → x < b → p x) :
    ((Finset.Ico a b).filter p).card = b - a := by
  rw [Finset.filter_true_of_mem fun x hx => h x (Finset.mem_Ico.1 hx).1 (Finset.mem_Ico.1 hx).2,
    Nat.card_Ico]

theorem card_filter_Ico_of_forall_not {a b : Nat} (h : ∀ x, a ≤ x → x < b → ¬p x) :
    ((Finset.Ico a b).filter p).card = 0 := by
  rw [Finset.card_eq_zero, Finset.filter_eq_empty_iff]
  intro x hx
  exact h x (Finset.mem_Ico.1 hx).1 (Finset.mem_Ico.1 hx).2

end Count

/-- From a state that tracks `rs`, the run yields the maximal parts of the difference from the
position on, in order and each once, then `None`; their lengths add up to the size of that part
of the difference. -/
theorem Tracks.yieldsExactly {it : SubtractRanges} (h : Tracks rs it) :
    ∃ ys, Iterator.YieldsExactly (fun it => (.ok it.next : Except Empty _)) it ys ∧
      (∀ y ∈ ys, it.currentPos ≤ y.1 ∧ MaximalPart it.wholeStart it.wholeEnd rs y) ∧
      ys.Pairwise (fun y z => y.1 + y.2 < z.1) ∧
      (∀ x, it.currentPos ≤ x → InDifference it.wholeStart it.wholeEnd rs x →
        ∃ y ∈ ys, y.1 ≤ x ∧ x < y.1 + y.2) ∧
      (ys.map Prod.snd).sum = ((Finset.Ico it.currentPos it.wholeEnd).filter
        (InDifference it.wholeStart it.wholeEnd rs)).card := by
  -- on the distance from the position to the end, which each yield shortens
  induction hn : it.wholeEnd - it.currentPos using Nat.strong_induction_on generalizing it with
  | _ n ih =>
  rcases hnext : it.next with ⟨_ | ⟨s, l⟩, it'⟩
  · -- `None`: nothing is left of the difference
    have hnone := h.next_none hnext
    refine ⟨[], ⟨it, rfl, it', by simp only [hnext]⟩, by simp, .nil,
      fun x hpos hx => absurd hx (hnone x hpos), ?_⟩
    rw [card_filter_Ico_of_forall_not fun x hpos _ => hnone x hpos]
    rfl
  · obtain ⟨hle, hl, hpos', hbefore, hin, hafter, hleft, htracks', hstart', hend'⟩ :=
      h.next_some hnext
    have hend'' := htracks'.inv.pos_le_end
    rw [hpos', hend'] at hend''
    obtain ⟨ys, ⟨itEnd, hys, hlast⟩, hmax, hpair, hcover, hsum⟩ :=
      ih _ (by rw [← hn, hend', hpos']; omega) htracks' rfl
    rw [hstart', hend', hpos'] at hmax hcover hsum
    refine ⟨(s, l) :: ys, ⟨itEnd, .cons (by simp only [hnext]) hys, hlast⟩, ?_, ?_, ?_, ?_⟩
    · rintro y (_ | ⟨_, hy⟩)
      · exact ⟨hle, hl, hin, hafter, hleft⟩
      · exact ⟨by have := (hmax y hy).1; omega, (hmax y hy).2⟩
    · -- the next part starts past the end of this one, which is not in the difference
      refine List.pairwise_cons.2 ⟨fun z hz => ?_, hpair⟩
      obtain ⟨hz1, hz2, hzin, -⟩ := hmax z hz
      have hne : z.1 ≠ s + l := fun heq => hafter (heq ▸ hzin z.1 (le_refl _) (by omega))
      dsimp only
      omega
    · intro x hpos hx
      by_cases hxs : x < s
      · exact absurd hx (hbefore x hpos hxs)
      by_cases hxl : x < s + l
      · exact ⟨(s, l), List.mem_cons_self, by dsimp only; omega, hxl⟩
      · obtain ⟨y, hy, hyx⟩ := hcover x (by omega) hx
        exact ⟨y, List.mem_cons_of_mem _ hy, hyx⟩
    · -- split the count at the start and at the end of the part yielded
      rw [card_filter_Ico_add hle (by omega), card_filter_Ico_add (b := s + l) (by omega) hend'',
        card_filter_Ico_of_forall_not hbefore, card_filter_Ico_of_forall hin, ← hsum]
      simp

/-- The state `subtract_ranges` makes tracks its sub-ranges when the whole range ends within
`usize`. -/
theorem tracks_subtractRanges {whole : Nat × Nat} (hwhole : whole.1 + whole.2 ≤ Usize.max)
    (hrs : OrderedDisjoint rs) : Tracks rs (subtractRanges whole rs) := by
  have hend : (subtractRanges whole rs).wholeEnd = whole.1 + whole.2 := by
    simp only [subtractRanges, Usize.saturatingAdd]
    omega
  refine ⟨inv_subtractRanges rs (by omega), by omega, fun x _ _ => ?_, hrs, fun sub hsub => ?_,
    .inl rfl⟩
  · simp [subtractRanges]
  · cases hsub

end SubtractRanges

open SubtractRanges in
/-- `subtract_ranges` of a whole range that ends within `usize` and sub-ranges ordered by start
and not overlapping: the iterator yields the maximal parts of the difference, in increasing
order and apart from one another, then `None`; every part of the difference is in one of them,
and their lengths add up to the length of the whole range less what the sub-ranges cover of
it. -/
theorem subtract_ranges_yields_difference (start len : Nat) (rs : List (Nat × Nat))
    (hwhole : start + len ≤ Usize.max) (hrs : OrderedDisjoint rs) :
    ∃ ys, Iterator.YieldsExactly (fun it => (.ok it.next : Except Empty _))
        (subtractRanges (start, len) rs) ys ∧
      (∀ y ∈ ys, MaximalPart start (start + len) rs y) ∧
      ys.Pairwise (fun y z => y.1 + y.2 < z.1) ∧
      (∀ x, InDifference start (start + len) rs x → ∃ y ∈ ys, y.1 ≤ x ∧ x < y.1 + y.2) ∧
      (ys.map Prod.snd).sum = len - ((Finset.Ico start (start + len)).filter (Covered rs)).card := by
  have hend : Usize.saturatingAdd start len = start + len := by
    simp only [Usize.saturatingAdd]
    omega
  have htracks : Tracks rs (subtractRanges (start, len) rs) := tracks_subtractRanges hwhole hrs
  obtain ⟨ys, hyields, hmax, hpair, hcover, hsum⟩ := htracks.yieldsExactly
  simp only [subtractRanges, hend] at hmax hcover hsum
  have hsplit := Finset.card_filter_add_card_filter_not (s := Finset.Ico start (start + len))
    (Covered rs)
  rw [Nat.card_Ico, ← Finset.filter_congr fun x hx => inDifference_iff_of_mem hx] at hsplit
  exact ⟨ys, hyields, fun y hy => (hmax y hy).2, hpair, fun x hx => hcover x hx.1 hx, by omega⟩

open SubtractRanges in
theorem subtract_ranges_yields_difference_sample :
    0x1000 + 0x9000 ≤ Usize.max ∧ OrderedDisjoint [(0x2000, 0x1000), (0x5000, 0x2000)] ∧
      ∃ ys, Iterator.YieldsExactly (fun it => (.ok it.next : Except Empty _))
          (subtractRanges (0x1000, 0x9000) [(0x2000, 0x1000), (0x5000, 0x2000)]) ys ∧
        (∀ y ∈ ys, MaximalPart 0x1000 (0x1000 + 0x9000) [(0x2000, 0x1000), (0x5000, 0x2000)] y) ∧
        ys.Pairwise (fun y z => y.1 + y.2 < z.1) ∧
        (∀ x, InDifference 0x1000 (0x1000 + 0x9000) [(0x2000, 0x1000), (0x5000, 0x2000)] x →
          ∃ y ∈ ys, y.1 ≤ x ∧ x < y.1 + y.2) ∧
        (ys.map Prod.snd).sum = 0x9000 - ((Finset.Ico 0x1000 (0x1000 + 0x9000)).filter
          (Covered [(0x2000, 0x1000), (0x5000, 0x2000)])).card := by
  have hrs : OrderedDisjoint [(0x2000, 0x1000), (0x5000, 0x2000)] := by
    simp [OrderedDisjoint, Set.Ico_disjoint_Ico]
  exact ⟨by decide, hrs, subtract_ranges_yields_difference _ _ _ (by decide) hrs⟩

end EndlessHole.Memory
