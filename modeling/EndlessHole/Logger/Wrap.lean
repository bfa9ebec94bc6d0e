import EndlessHole.Logger.Order

/-!
# Delivery out of claim order once `write_index` wraps

`acquire_new_chunk` claims `write_index.fetch_add(1)` and compares it with `read_index` by
`wrapping_sub`, so both indices are read modulo `2 ^ 64`. `Reachable.inOrder` shows that the
flusher passes chunks to the sink in the order of their claims while fewer than `2 ^ 64` indices
have been claimed. After that a writer that claimed an index before the wrap, and waits at the
compare-and-swap of `try_acquire_for_write`, can still take its chunk, and its record reaches the
sink after a record claimed `2 ^ 64` indices later.

The run here has one chunk (`N = 1`):

* thread `0` claims index `0`, passes the distance check and stops before its compare-and-swap
  (`xClaimed`);
* thread `1` writes a record of `2 ^ 64 - 1` pieces while thread `0` waits; the ring is full for
  each, so each piece claims an index and is dropped (`dropsPiece`, `reachable_flooded`), and
  `write_index` comes back to `0`;
* thread `2` claims index `0` again, takes chunk `0`, writes `"Y"`, and a flush passes it on;
* thread `0` now takes chunk `0` for its index `0` and writes `"X"`, thread `3` claims index `1`,
  and the next flush passes `"X"` on, reading it at index `1`.
-/

namespace EndlessHole.Logger

namespace System

variable {N : Nat}

/-- A `write_str` of a nonempty piece by a thread that holds no chunk, when the ring is full: five
steps claim the next index, fail the distance check, count two overflows and drop the piece. -/
theorem dropsPiece (s : System N) (t : Nat) {p : List Nat} {ps : List (List Nat)}
    (hpc : (s.writers t).pc = .write) (hrest : (s.writers t).rest = [])
    (hpieces : (s.writers t).pieces = p :: ps) (hp : p ≠ [])
    (hchunk : (s.writers t).writer.currentChunk = none)
    (hfar : N ≤ Usize.wrappingSub s.logger.writeIndex s.logger.readIndex) :
    Relation.ReflTransGen Step s
      { s.setWriter t { s.writers t with pieces := ps, ticket := s.claims } with
        logger := { s.logger with
          writeIndex := Usize.wrappingAdd s.logger.writeIndex 1
          overflowCount := Usize.wrappingAdd (Usize.wrappingAdd s.logger.overflowCount 1) 1 }
        claims := s.claims + 1 } := by
  obtain ⟨a, l, rfl⟩ := List.exists_cons_of_ne_nil hp
  -- `nextPiece`, `claimIndex`, `checkDistance`, `overflowAcquire` and `overflowWrite`
  let s₁ := s.nextPiece t (a :: l) ps
  let s₂ := s₁.claimIndex t
  let s₃ := s₂.checkDistance t s.logger.writeIndex
  let s₄ := s₃.overflowAcquire t
  have h₁ : s.writerStep t = some s₁ := by simp [s₁, writerStep, hpc, hrest, hpieces]
  have h₂ : s₁.writerStep t = some s₂ := by simp [s₁, s₂, writerStep, nextPiece, hpc, hchunk]
  have h₃ : s₂.writerStep t = some s₃ := by simp [s₁, s₂, s₃, writerStep, nextPiece, claimIndex]
  have h₄ : s₃.writerStep t = some s₄ := by
    simp [s₁, s₂, s₃, s₄, writerStep, nextPiece, claimIndex, checkDistance, hfar]
  have h₅ : s₄.writerStep t = some (s₄.overflowWrite t) := by
    simp [s₁, s₂, s₃, s₄, writerStep, nextPiece, claimIndex, checkDistance, hfar, overflowAcquire]
  have hend : s₄.overflowWrite t =
      { s.setWriter t { s.writers t with pieces := ps, ticket := s.claims } with
        logger := { s.logger with
          writeIndex := Usize.wrappingAdd s.logger.writeIndex 1
          overflowCount := Usize.wrappingAdd (Usize.wrappingAdd s.logger.overflowCount 1) 1 }
        claims := s.claims + 1 } := by
    simp [s₁, s₂, s₃, s₄, nextPiece, claimIndex, checkDistance, hfar, overflowAcquire,
      overflowWrite, setWriter, Logger.countOverflow, hrest, hpc]
  exact .head (.writer t h₁) <| .head (.writer t h₂) <| .head (.writer t h₃) <|
    .head (.writer t h₄) <| .head (.writer t h₅) (hend ▸ .refl)

end System

/-- Thread `0` logs `"X"`, thread `1` a record of `2 ^ 64 - 1` pieces `"Y"`, thread `2` the
record `"Y"`, and every other thread `"Z"`. -/
def wrapPieces : Nat → List (List Nat)
  | 0 => [[0x58]]
  | 1 => List.replicate (2 ^ 64 - 1) [0x59]
  | 2 => [[0x59]]
  | _ => [[0x5A]]

/-- Thread `0` has claimed index `0` and passed the distance check, and waits before the
compare-and-swap of chunk `0`. -/
def xClaimed : System 1 :=
  (((System.init 1 wrapPieces).nextPiece 0 [0x58] []).claimIndex 0).checkDistance 0 0

/-- `xClaimed` after thread `1` dropped `k` pieces: `k` more indices claimed, two overflows
counted for each. -/
def flooded (k : Nat) : System 1 :=
  { xClaimed.setWriter 1 ⟨List.replicate (2 ^ 64 - 1 - k) [0x59], [], .write, ⟨none, 0⟩, k, []⟩ with
    logger := { xClaimed.logger with
      writeIndex := (k + 1) % 2 ^ 64
      overflowCount := 2 * k % 2 ^ 64 }
    claims := k + 1 }

theorem reachable_xClaimed : System.Reachable 1 wrapPieces xClaimed :=
  .head (.writer 0 rfl) <| .head (.writer 0 rfl) <| .head (.writer 0 rfl) .refl

theorem flooded_zero : flooded 0 = xClaimed := by
  have hw : xClaimed.writers 1 =
      ⟨List.replicate (2 ^ 64 - 1 - 0) [0x59], [], .write, ⟨none, 0⟩, 0, []⟩ := rfl
  rw [flooded, ← hw, System.setWriter_self]
  rfl

/-- Thread `1` drops its next piece: the index it claims is `k + 1`, at least `N = 1` past
`read_index = 0`. -/
theorem flooded_succ (k : Nat) (hk : k + 1 < 2 ^ 64) :
    Relation.ReflTransGen System.Step (flooded k) (flooded (k + 1)) := by
  have hw : (flooded k).writers 1 =
      ⟨List.replicate (2 ^ 64 - 1 - k) [0x59], [], .write, ⟨none, 0⟩, k, []⟩ :=
    System.setWriter_writers_self xClaimed 1 _
  have hpieces : List.replicate (2 ^ 64 - 1 - k) [0x59] =
      [0x59] :: List.replicate (2 ^ 64 - 1 - (k + 1)) [0x59] := by
    rw [show 2 ^ 64 - 1 - k = 2 ^ 64 - 1 - (k + 1) + 1 by omega, List.replicate_succ]
  have hfar :
      1 ≤ Usize.wrappingSub (flooded k).logger.writeIndex (flooded k).logger.readIndex := by
    show 1 ≤ Usize.wrappingSub ((k + 1) % 2 ^ 64) 0
    simp only [Usize.wrappingSub]
    omega
  have hrun := System.dropsPiece (flooded k) 1 (by rw [hw]) (by rw [hw])
    (show ((flooded k).writers 1).pieces =
        [0x59] :: List.replicate (2 ^ 64 - 1 - (k + 1)) [0x59] by rw [hw, hpieces])
    (List.cons_ne_nil _ _) (by rw [hw]) hfar
  have hend : { (flooded k).setWriter 1 { (flooded k).writers 1 with
        pieces := List.replicate (2 ^ 64 - 1 - (k + 1)) [0x59], ticket := (flooded k).claims } with
      logger := { (flooded k).logger with
        writeIndex := Usize.wrappingAdd (flooded k).logger.writeIndex 1
        overflowCount :=
          Usize.wrappingAdd (Usize.wrappingAdd (flooded k).logger.overflowCount 1) 1 }
      claims := (flooded k).claims + 1 } = flooded (k + 1) := by
    rw [hw]
    simp only [flooded, System.setWriter, Function.update_idem, Usize.wrappingAdd,
      System.mk.injEq, Logger.mk.injEq, and_true, true_and]
    constructor <;> omega
  exact hend ▸ hrun

theorem reachable_flooded (k : Nat) (hk : k < 2 ^ 64) :
    System.Reachable 1 wrapPieces (flooded k) := by
  induction k with
  | zero => exact flooded_zero ▸ reachable_xClaimed
  | succ k ih => exact (ih (by omega)).trans (flooded_succ k hk)

theorem flooded_wrapped_run :
    ∃ s, Relation.ReflTransGen System.Step (flooded (2 ^ 64 - 1)) s ∧
      s.logger.sink = [overflowMessage, [0x59], [0x58]] ∧
      s.delivered = [⟨2 ^ 64, 0, [0x59]⟩, ⟨0, 0, [0x58]⟩] :=
  -- thread `2` claims index `0` again, takes chunk `0`, writes `"Y"` and finishes it
  ⟨_, .head (.writer 2 rfl) <| .head (.writer 2 rfl) <| .head (.writer 2 rfl) <|
    .head (.writer 2 rfl) <| .head (.writer 2 rfl) <| .head (.writer 2 rfl) <|
    -- a flush of one round passes it to the sink and moves `read_index` to `1`
    .head (.startFlush 1 rfl) <| .head (.flusher rfl) <| .head (.flusher rfl) <|
    .head (.flusher rfl) <| .head (.flusher rfl) <| .head (.flusher rfl) <|
    .head (.flusher rfl) <|
    -- thread `0` takes chunk `0` for its index `0`, writes `"X"` and finishes it
    .head (.writer 0 rfl) <| .head (.writer 0 rfl) <| .head (.writer 0 rfl) <|
    -- thread `3` claims index `1`
    .head (.writer 3 rfl) <| .head (.writer 3 rfl) <|
    -- the next flush reads index `1`, which is chunk `0`
    .head (.startFlush 1 rfl) <| .head (.flusher rfl) <| .head (.flusher rfl) <|
    .head (.flusher rfl) <| .refl, rfl, rfl⟩

/-- A run of `log` and flushes in which the record `"X"` of thread `0`, which claimed write index
`0` first, reaches the sink after the record `"Y"` of thread `2`, which claimed write index `0`
again `2 ^ 64` claims later: the chunks are not delivered in the order of their write indices. -/
theorem log_delivers_out_of_claim_order :
    ∃ s : System 1, System.Reachable 1 wrapPieces s ∧
      s.logger.sink = [overflowMessage, [0x59], [0x58]] ∧
      s.delivered = [⟨2 ^ 64, 0, [0x59]⟩, ⟨0, 0, [0x58]⟩] := by
  obtain ⟨s, hrun, hsink, hdelivered⟩ := flooded_wrapped_run
  exact ⟨s, (reachable_flooded (2 ^ 64 - 1) (by decide)).trans hrun, hsink, hdelivered⟩

end EndlessHole.Logger
