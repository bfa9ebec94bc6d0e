import EndlessHole.Logger
import Mathlib.Logic.Relation

/-!
# The logger under concurrency

`Logger<S, G, N>` of `kernel_core/src/logger.rs` with any number of writer threads and the
flushes that run under the sink mutex. Each atomic operation on `write_index`, `read_index`,
`overflow_count` or a chunk's `status_and_size` is one step, and so is each piece of local work
between two of them (a copy into the writer's own chunk, a `sink.accept` of a chunk the flusher
has found full). Any thread may take the next step, in any order.

A writer thread runs `log` of a record its formatter writes as the byte strings `pieces`: one
`write_str` per piece, then the writer's drop, which finishes its last chunk. `write_str` copies
into the chunk the writer holds while it has room; otherwise it finishes that chunk and runs
`acquire_new_chunk`, whose three atomic operations are three steps here: `write_index.fetch_add`
(`claimIndex`), the load of `read_index` with the distance check (`checkDistance`), and the
compare-and-swap of `try_acquire_for_write` (`tryAcquireForWrite`).

Flushes are serialised by the sink mutex, so one flusher runs them one after another, each with
its own `limit` (`N / 3` after a `log`, `N` for `flush`): the swap of `overflow_count`, then the
rounds of `flush_internal`'s loop, each a load of `read_index`, a load of `write_index`, the
status load of `try_read` with the `sink.accept` of the chunk, the store of `STATUS_EMPTY`, and
`read_index.fetch_add`.

Besides the code's state a `System` keeps ghost state that no step reads: every claim of an
index gets a claim number (`ticket`), the count of claims before it, which is the index claimed
until `write_index` wraps; each chunk records the claim number of its last acquisition
(`owner`); and the chunks writers finished and the flusher delivered are listed with the bytes
they hold (`finished`, `delivered`).
-/

namespace EndlessHole.Logger

/-- Where a writer thread is in `log`. -/
inductive WriterPc where
  /-- At the head of `write_str`'s loop, between two `write_str` calls, or at the drop. -/
  | write
  /-- In `acquire_new_chunk`, after `write_index.fetch_add` returned `index`. -/
  | claimed (index : Nat)
  /-- In `acquire_new_chunk`, `index` was less than `N` past `read_index`: next the CAS. -/
  | acquiring (index : Nat)
  /-- `acquire_new_chunk` found `index` too far ahead: next its `overflow_count.fetch_add`. -/
  | overflowAcquire
  /-- `acquire_new_chunk` failed: next `write_str`'s `overflow_count.fetch_add`. -/
  | overflowWrite
  /-- The writer was dropped: `log` has written its record. -/
  | done
  deriving DecidableEq, Repr

/-- A writer thread running `log`: the `write_str` calls still to make, what is left of the
current one, where it is, and its `RingBufferWriter`. `ticket` (the claim number of the index it
claimed last) and `written` (what it copied into its chunk since it acquired it) are ghost. -/
structure Writer where
  pieces : List (List Nat)
  rest : List Nat
  pc : WriterPc
  writer : RingBufferWriter
  ticket : Nat
  written : List Nat

/-- Where the flusher is. A flush holds the sink mutex from `startFlush` back to `idle`. -/
inductive FlusherPc where
  | idle
  /-- The loop of `flush_internal` with `limit` rounds left. -/
  | loop (limit : Nat)
  /-- After `read_index.load` returned `readIndex`. -/
  | loadedRead (limit readIndex : Nat)
  /-- After `write_index.load`, which was not `readIndex`: next `try_read`'s status load. -/
  | loadedWrite (limit readIndex : Nat)
  /-- `try_read` passed the chunk to the sink: next the store of `STATUS_EMPTY`. -/
  | read (limit readIndex : Nat)
  /-- `try_read` returned `true`: next `read_index.fetch_add`. -/
  | readDone (limit : Nat)
  deriving DecidableEq, Repr

/-- A chunk as a writer made it: the claim number of the index it was acquired under, the
position in the ring it was written at, and the bytes the writer copied into it. -/
structure Chunk where
  ticket : Nat
  slot : Nat
  bytes : List Nat
  deriving DecidableEq, Repr

/-- The logger with its writer threads and its flusher; `claims`, `reads`, `owner`, `finished`
and `delivered` are ghost. -/
structure System (N : Nat) where
  logger : Logger N
  writers : Nat → Writer
  flusher : FlusherPc
  claims : Nat
  reads : Nat
  owner : Nat → Nat
  finished : List Chunk
  delivered : List Chunk

namespace System

variable {N : Nat}

/-- Every thread `t` about to run `log` of `pieces t`, with a new logger and no flush running. -/
def init (N : Nat) (pieces : Nat → List (List Nat)) : System N where
  logger := Logger.new N
  writers t := ⟨pieces t, [], .write, ⟨none, 0⟩, 0, []⟩
  flusher := .idle
  claims := 0
  reads := 0
  owner _ := 0
  finished := []
  delivered := []

def setWriter (s : System N) (t : Nat) (w : Writer) : System N :=
  { s with writers := Function.update s.writers t w }

@[simp] theorem setWriter_logger (s : System N) (t : Nat) (w : Writer) :
    (s.setWriter t w).logger = s.logger := rfl

@[simp] theorem setWriter_flusher (s : System N) (t : Nat) (w : Writer) :
    (s.setWriter t w).flusher = s.flusher := rfl

@[simp] theorem setWriter_claims (s : System N) (t : Nat) (w : Writer) :
    (s.setWriter t w).claims = s.claims := rfl

@[simp] theorem setWriter_reads (s : System N) (t : Nat) (w : Writer) :
    (s.setWriter t w).reads = s.reads := rfl

@[simp] theorem setWriter_owner (s : System N) (t : Nat) (w : Writer) :
    (s.setWriter t w).owner = s.owner := rfl

@[simp] theorem setWriter_finished (s : System N) (t : Nat) (w : Writer) :
    (s.setWriter t w).finished = s.finished := rfl

@[simp] theorem setWriter_delivered (s : System N) (t : Nat) (w : Writer) :
    (s.setWriter t w).delivered = s.delivered := rfl

@[simp] theorem setWriter_writers_self (s : System N) (t : Nat) (w : Writer) :
    (s.setWriter t w).writers t = w := by
  simp [setWriter]

@[simp] theorem setWriter_writers_of_ne (s : System N) {t t' : Nat} (w : Writer) (h : t' ≠ t) :
    (s.setWriter t w).writers t' = s.writers t' := by
  simp [setWriter, h]

theorem setWriter_self (s : System N) (t : Nat) : s.setWriter t (s.writers t) = s := by
  simp [setWriter]

/-! ## The steps of a writer -/

/-- `write_str` starts on the next piece. -/
def nextPiece (s : System N) (t : Nat) (p : List Nat) (ps : List (List Nat)) : System N :=
  s.setWriter t { s.writers t with rest := p, pieces := ps }

/-- `finish_chunk` by thread `t`: the chunk it holds, if any, is marked full with the size
written, and the writer lets go of it. -/
def finishChunk (s : System N) (t : Nat) : System N :=
  let wr := s.writers t
  match wr.writer.currentChunk with
  | some c =>
    let (logger, writer) := s.logger.finishChunk wr.writer
    { s.setWriter t { wr with writer } with
      logger, finished := s.finished ++ [⟨wr.ticket, c, wr.written⟩] }
  | none => s

/-- The drop of the `RingBufferWriter` at the end of `log`: `finish_chunk`, and the thread is
done. -/
def drop (s : System N) (t : Nat) : System N :=
  let s := s.finishChunk t
  s.setWriter t { s.writers t with pc := .done }

/-- `write_index.fetch_add(1)`: the thread claims the index `write_index`. -/
def claimIndex (s : System N) (t : Nat) : System N :=
  { s.setWriter t { s.writers t with pc := .claimed s.logger.writeIndex, ticket := s.claims } with
    logger := { s.logger with writeIndex := Usize.wrappingAdd s.logger.writeIndex 1 }
    claims := s.claims + 1 }

/-- `read_index.load` and the distance check of `acquire_new_chunk`. -/
def checkDistance (s : System N) (t index : Nat) : System N :=
  let distance := Usize.wrappingSub index s.logger.readIndex
  if distance ≥ N then s.setWriter t { s.writers t with pc := .overflowAcquire }
  else s.setWriter t { s.writers t with pc := .acquiring index }

/-- `overflow_count.fetch_add(1)` in `acquire_new_chunk`, which then fails. -/
def overflowAcquire (s : System N) (t : Nat) : System N :=
  { s.setWriter t { s.writers t with pc := .overflowWrite } with logger := s.logger.countOverflow }

/-- `overflow_count.fetch_add(1)` in `write_str` when no chunk could be acquired: the rest of
the piece is dropped. -/
def overflowWrite (s : System N) (t : Nat) : System N :=
  { s.setWriter t { s.writers t with pc := .write, rest := [] } with
    logger := s.logger.countOverflow }

/-- `try_acquire_for_write` on the chunk at `index % N`: the compare-and-swap of its status from
`STATUS_EMPTY` to `STATUS_WRITING`. On success the writer holds the chunk from offset `0`. -/
def tryAcquireForWrite (s : System N) (t index : Nat) : System N :=
  let wrappedIndex := index % N
  let chunk := s.logger.buffer wrappedIndex
  let wr := s.writers t
  if chunk.statusAndSize = statusEmpty then
    { s.setWriter t { wr with pc := .write, writer := ⟨some wrappedIndex, 0⟩, written := [] } with
      logger := s.logger.setChunk wrappedIndex { chunk with statusAndSize := statusWriting }
      owner := Function.update s.owner wrappedIndex wr.ticket }
  else s.setWriter t { wr with pc := .overflowWrite }

/-- One round of `write_str`'s loop in the chunk `c` the writer holds: copy as much of the rest of
the piece as the chunk has room for. -/
def copyInto (s : System N) (t c : Nat) : System N :=
  let wr := s.writers t
  let offset := wr.writer.currentChunkOffset
  let bytesToCopy := min (maxLogChunkSize - offset) wr.rest.length
  { s.setWriter t { wr with
      writer := { wr.writer with currentChunkOffset := offset + bytesToCopy }
      rest := wr.rest.drop bytesToCopy
      written := wr.written ++ wr.rest.take bytesToCopy } with
    logger := s.logger.copyBytes c offset (wr.rest.take bytesToCopy) }

/-- The next step of thread `t`, or `none` when it is done. -/
def writerStep (s : System N) (t : Nat) : Option (System N) :=
  let wr := s.writers t
  match wr.pc with
  | .write =>
    match wr.rest with
    | [] =>
      match wr.pieces with
      | p :: ps => some (s.nextPiece t p ps)
      | [] => some (s.drop t)
    | _ :: _ =>
      match wr.writer.currentChunk with
      | some c =>
        -- a chunk with room is written into; a full one is finished before the next claim
        if wr.writer.currentChunkOffset < maxLogChunkSize then some (s.copyInto t c)
        else some (s.finishChunk t)
      | none => some (s.claimIndex t)
  | .claimed index => some (s.checkDistance t index)
  | .acquiring index => some (s.tryAcquireForWrite t index)
  | .overflowAcquire => some (s.overflowAcquire t)
  | .overflowWrite => some (s.overflowWrite t)
  | .done => none

/-! ## The steps of the flusher -/

/-- A flush takes the sink mutex: `overflow_count.swap(0)`, and the overflow message if writes
were lost. -/
def startFlush (s : System N) (limit : Nat) : System N :=
  let overflowCount := s.logger.overflowCount
  let logger := { s.logger with overflowCount := 0 }
  let logger := if overflowCount > 0 then { logger with sink := logger.sink ++ [overflowMessage] }
    else logger
  { s with logger, flusher := .loop limit }

/-- `try_read` on the chunk at `readIndex % N` after its status load: a full chunk goes to the
sink, and is kept full until the next step; otherwise the flush ends. -/
def tryRead (s : System N) (limit readIndex : Nat) : System N :=
  let c := readIndex % N
  let chunk := s.logger.buffer c
  let statusAndSize := chunk.statusAndSize
  if statusAndSize &&& statusMask = statusFull then
    let size := (statusAndSize &&& sizeMask) >>> sizeShift
    let data := (List.range size).map chunk.data
    { s with
      logger := { s.logger with sink := s.logger.sink ++ [data] }
      flusher := .read limit readIndex
      delivered := s.delivered ++ [⟨s.owner c, c, data⟩] }
  else { s with flusher := .idle }

/-- The next step of the flusher, or `none` when no flush runs. -/
def flusherStep (s : System N) : Option (System N) :=
  match s.flusher with
  | .idle => none
  | .loop 0 => some { s with flusher := .idle }
  | .loop (limit + 1) => some { s with flusher := .loadedRead limit s.logger.readIndex }
  | .loadedRead limit readIndex =>
    if readIndex = s.logger.writeIndex then some { s with flusher := .idle }
    else some { s with flusher := .loadedWrite limit readIndex }
  | .loadedWrite limit readIndex => some (s.tryRead limit readIndex)
  | .read limit readIndex =>
    let c := readIndex % N
    some { s with
      logger := s.logger.setChunk c { s.logger.buffer c with statusAndSize := statusEmpty }
      flusher := .readDone limit }
  | .readDone limit =>
    some { s with
      logger := { s.logger with readIndex := Usize.wrappingAdd s.logger.readIndex 1 }
      flusher := .loop limit
      reads := s.reads + 1 }

/-! ## What a step can do -/

/-- The moves of thread `t` from `s`, each with the guard under which `writerStep` takes it. -/
inductive WriterMove (s : System N) (t : Nat) : System N → Prop
  | nextPiece {p : List Nat} {ps : List (List Nat)} : (s.writers t).pc = .write →
      (s.writers t).rest = [] → (s.writers t).pieces = p :: ps → WriterMove s t (s.nextPiece t p ps)
  | drop : (s.writers t).pc = .write → (s.writers t).rest = [] → (s.writers t).pieces = [] →
      WriterMove s t (s.drop t)
  | copyInto {c : Nat} : (s.writers t).pc = .write → (s.writers t).rest ≠ [] →
      (s.writers t).writer.currentChunk = some c →
      (s.writers t).writer.currentChunkOffset < maxLogChunkSize → WriterMove s t (s.copyInto t c)
  | finishFull {c : Nat} : (s.writers t).pc = .write → (s.writers t).rest ≠ [] →
      (s.writers t).writer.currentChunk = some c →
      maxLogChunkSize ≤ (s.writers t).writer.currentChunkOffset → WriterMove s t (s.finishChunk t)
  | claimIndex : (s.writers t).pc = .write → (s.writers t).rest ≠ [] →
      (s.writers t).writer.currentChunk = none → WriterMove s t (s.claimIndex t)
  | checkDistance {index : Nat} : (s.writers t).pc = .claimed index →
      WriterMove s t (s.checkDistance t index)
  | tryAcquireForWrite {index : Nat} : (s.writers t).pc = .acquiring index →
      WriterMove s t (s.tryAcquireForWrite t index)
  | overflowAcquire : (s.writers t).pc = .overflowAcquire → WriterMove s t (s.overflowAcquire t)
  | overflowWrite : (s.writers t).pc = .overflowWrite → WriterMove s t (s.overflowWrite t)

theorem writerMove_of_writerStep {s s' : System N} {t : Nat} (h : s.writerStep t = some s') :
    WriterMove s t s' := by
  unfold writerStep at h
  cases hpc : (s.writers t).pc with
  | write =>
    cases hrest : (s.writers t).rest with
    | nil =>
      cases hpieces : (s.writers t).pieces with
      | nil =>
        simp only [hpc, hrest, hpieces, Option.some.injEq] at h
        exact h ▸ .drop hpc hrest hpieces
      | cons p ps =>
        simp only [hpc, hrest, hpieces, Option.some.injEq] at h
        exact h ▸ .nextPiece hpc hrest hpieces
    | cons b bs =>
      have hne : (s.writers t).rest ≠ [] := by simp [hrest]
      cases hcur : (s.writers t).writer.currentChunk with
      | none =>
        simp only [hpc, hrest, hcur, Option.some.injEq] at h
        exact h ▸ .claimIndex hpc hne hcur
      | some c =>
        simp only [hpc, hrest, hcur] at h
        by_cases hroom : (s.writers t).writer.currentChunkOffset < maxLogChunkSize
        · simp only [hroom, if_true, Option.some.injEq] at h
          exact h ▸ .copyInto hpc hne hcur hroom
        · simp only [hroom, if_false, Option.some.injEq] at h
          exact h ▸ .finishFull hpc hne hcur (Nat.le_of_not_lt hroom)
  | claimed index =>
    simp only [hpc, Option.some.injEq] at h
    exact h ▸ .checkDistance hpc
  | acquiring index =>
    simp only [hpc, Option.some.injEq] at h
    exact h ▸ .tryAcquireForWrite hpc
  | overflowAcquire =>
    simp only [hpc, Option.some.injEq] at h
    exact h ▸ .overflowAcquire hpc
  | overflowWrite =>
    simp only [hpc, Option.some.injEq] at h
    exact h ▸ .overflowWrite hpc
  | done => simp [hpc] at h

/-- The moves of the running flush, each with the guard under which `flusherStep` takes it. -/
inductive FlusherMove (s : System N) : System N → Prop
  | loopEnd : s.flusher = .loop 0 → FlusherMove s { s with flusher := .idle }
  | loadReadIndex {limit : Nat} : s.flusher = .loop (limit + 1) →
      FlusherMove s { s with flusher := .loadedRead limit s.logger.readIndex }
  | caughtUp {limit readIndex : Nat} : s.flusher = .loadedRead limit readIndex →
      readIndex = s.logger.writeIndex → FlusherMove s { s with flusher := .idle }
  | loadWriteIndex {limit readIndex : Nat} : s.flusher = .loadedRead limit readIndex →
      readIndex ≠ s.logger.writeIndex → FlusherMove s { s with flusher := .loadedWrite limit readIndex }
  | tryRead {limit readIndex : Nat} : s.flusher = .loadedWrite limit readIndex →
      FlusherMove s (s.tryRead limit readIndex)
  | markEmpty {limit readIndex : Nat} : s.flusher = .read limit readIndex →
      FlusherMove s { s with
        logger := s.logger.setChunk (readIndex % N)
          { s.logger.buffer (readIndex % N) with statusAndSize := statusEmpty }
        flusher := .readDone limit }
  | advanceReadIndex {limit : Nat} : s.flusher = .readDone limit →
      FlusherMove s { s with
        logger := { s.logger with readIndex := Usize.wrappingAdd s.logger.readIndex 1 }
        flusher := .loop limit
        reads := s.reads + 1 }

theorem flusherMove_of_flusherStep {s s' : System N} (h : s.flusherStep = some s') :
    FlusherMove s s' := by
  unfold flusherStep at h
  cases hf : s.flusher with
  | idle => simp [hf] at h
  | loop limit =>
    cases limit with
    | zero =>
      simp only [hf, Option.some.injEq] at h
      exact h ▸ .loopEnd hf
    | succ limit =>
      simp only [hf, Option.some.injEq] at h
      exact h ▸ .loadReadIndex hf
  | loadedRead limit readIndex =>
    simp only [hf] at h
    by_cases heq : readIndex = s.logger.writeIndex
    · simp only [heq, if_true, Option.some.injEq] at h
      exact h ▸ .caughtUp hf heq
    · simp only [heq, if_false, Option.some.injEq] at h
      exact h ▸ .loadWriteIndex hf heq
  | loadedWrite limit readIndex =>
    simp only [hf, Option.some.injEq] at h
    exact h ▸ .tryRead hf
  | read limit readIndex =>
    simp only [hf, Option.some.injEq] at h
    exact h ▸ .markEmpty hf
  | readDone limit =>
    simp only [hf, Option.some.injEq] at h
    exact h ▸ .advanceReadIndex hf

/-! ## Runs -/

/-- One step of some thread: a writer's, the start of a flush, or the running flush's. -/
inductive Step : System N → System N → Prop
  | writer {s s' : System N} (t : Nat) : s.writerStep t = some s' → Step s s'
  | startFlush {s : System N} (limit : Nat) : s.flusher = .idle → Step s (s.startFlush limit)
  | flusher {s s' : System N} : s.flusherStep = some s' → Step s s'

/-- The states some interleaving reaches from `init N pieces`. -/
def Reachable (N : Nat) (pieces : Nat → List (List Nat)) (s : System N) : Prop :=
  Relation.ReflTransGen Step (init N pieces) s

end System

end EndlessHole.Logger
