import EndlessHole.Lib.Usize

/-!
# The kernel logger's ring buffer

`Logger<S, G, N>` of `kernel_core/src/logger.rs` in a run of one thread: a ring of `N` chunks of
120 bytes, a `write_index` that writers claim chunks with, a `read_index` the flusher reads from,
and a count of lost writes.

A record is written by the formatter as a sequence of `write_str` calls on one
`RingBufferWriter`; the writer fills a chunk, marks it full and claims the next. Then the
writer is dropped, which marks its last chunk full, and `log` flushes up to `N / 3` chunks to
the sink (which no other thread holds here). `flush` flushes up to `N`. The formatting of a
record is left out: `log` takes the pieces the formatter writes.

The model keeps each chunk's `status_and_size` word (status in the low two bits, size above)
and its bytes, the three indices as `usize` words, and the sink as the list of byte strings it
accepted.

`acquire_new_chunk` advances `write_index` before it checks the distance to `read_index`, so a
claim that overflows takes an index whose chunk is never written. The reader stops at that
empty chunk for good (`overflow_wedges_reader`).
-/

namespace EndlessHole

/-- A `LogChunk`: its buffer of `MAX_LOG_CHUNK_SIZE` bytes and its `status_and_size` word. -/
structure LogChunk where
  data : Nat → Nat
  statusAndSize : Nat

/-- The state of a `Logger` with `N` chunks; `buffer i` is the chunk at index `i < N`, and
`sink` the byte strings the sink has accepted, in order. -/
structure Logger (N : Nat) where
  buffer : Nat → LogChunk
  writeIndex : Nat
  readIndex : Nat
  overflowCount : Nat
  sink : List (List Nat)

/-- A `RingBufferWriter`: the index of the chunk it holds, and where it writes in it. -/
structure RingBufferWriter where
  currentChunk : Option Nat
  currentChunkOffset : Nat

namespace Logger

def maxLogChunkSize : Nat := 120

def statusEmpty : Nat := 0

def statusWriting : Nat := 1

def statusFull : Nat := 2

def statusMask : Nat := 3

def sizeShift : Nat := 2

/-- `SIZE_MASK`: `!STATUS_MASK` as a `usize`. -/
def sizeMask : Nat := Usize.max - statusMask

/-- The bytes `flush_internal` sends when writes were lost. -/
def overflowMessage : List Nat := "\x1b[31mlog overflow!\x1b[0m".toList.map Char.toNat

/-- `LogChunk::new`. -/
def newChunk : LogChunk := ⟨fun _ => 0, statusEmpty⟩

variable {N : Nat}

def new (N : Nat) : Logger N := ⟨fun _ => newChunk, 0, 0, 0, []⟩

def setChunk (L : Logger N) (i : Nat) (chunk : LogChunk) : Logger N :=
  { L with buffer := Function.update L.buffer i chunk }

/-- `overflow_count.fetch_add(1)`. -/
def countOverflow (L : Logger N) : Logger N :=
  { L with overflowCount := Usize.wrappingAdd L.overflowCount 1 }

/-- `acquire_new_chunk`: claim the index `write_index`, then take its chunk if the index is less
than `N` past `read_index` and the chunk is empty (`try_acquire_for_write`). Returns the chunk
taken, at which the writer then writes from offset `0`. -/
def acquireNewChunk (L : Logger N) : Option Nat × Logger N :=
  let index := L.writeIndex
  let L := { L with writeIndex := Usize.wrappingAdd L.writeIndex 1 }
  let distance := Usize.wrappingSub index L.readIndex
  if distance ≥ N then (none, L.countOverflow)
  else
    let wrappedIndex := index % N
    let chunk := L.buffer wrappedIndex
    if chunk.statusAndSize = statusEmpty then
      (some wrappedIndex, L.setChunk wrappedIndex { chunk with statusAndSize := statusWriting })
    else (none, L)

/-- `finish_chunk`: mark the writer's chunk full with the size written, and let go of it. -/
def finishChunk (L : Logger N) (w : RingBufferWriter) : Logger N × RingBufferWriter :=
  match w.currentChunk with
  | some c =>
    (L.setChunk c { L.buffer c with
        statusAndSize := statusFull ||| w.currentChunkOffset <<< sizeShift },
      { w with currentChunk := none })
  | none => (L, w)

/-- Where `write_str` copies next: the writer's chunk while it has room, else a new chunk
(`finish_chunk`, then `acquire_new_chunk`), or `none` when that fails. -/
def nextChunk (L : Logger N) (w : RingBufferWriter) : Logger N × RingBufferWriter × Option Nat :=
  match w.currentChunk with
  | some c =>
    if w.currentChunkOffset < maxLogChunkSize then (L, w, some c) else acquire
  | none => acquire
where
  acquire :=
    match acquireNewChunk (finishChunk L w).1 with
    | (some c, L) => (L, ⟨some c, 0⟩, some c)
    | (none, L) => (L, (finishChunk L w).2, none)

theorem nextChunk_offset_lt {L L' : Logger N} {w w' : RingBufferWriter} {c : Nat}
    (h : nextChunk L w = (L', w', some c)) : w'.currentChunkOffset < maxLogChunkSize := by
  have hacq : ∀ {L' w' c}, nextChunk.acquire L w = (L', w', some c) →
      w'.currentChunkOffset < maxLogChunkSize := by
    intro L' w' c hacq
    unfold nextChunk.acquire at hacq
    split at hacq
    · cases hacq
      simp [maxLogChunkSize]
    · cases hacq
  unfold nextChunk at h
  split at h
  · split at h
    · simp only [Prod.mk.injEq] at h
      obtain ⟨-, rfl, -⟩ := h
      assumption
    · exact hacq h
  · exact hacq h

def copyBytes (L : Logger N) (c offset : Nat) (bytes : List Nat) : Logger N :=
  L.setChunk c { L.buffer c with
    data := fun i => if offset ≤ i ∧ i < offset + bytes.length then bytes.getD (i - offset) 0
      else (L.buffer c).data i }

/-- `write_str`: copy the bytes chunk by chunk. When no new chunk can be had, the rest of the
bytes is dropped and counted as an overflow. -/
def writeStr (L : Logger N) (w : RingBufferWriter) (s : List Nat) : Logger N × RingBufferWriter :=
  match s with
  | [] => (L, w)
  | b :: rest =>
    match h : nextChunk L w with
    | (L, w, none) => (L.countOverflow, w)
    | (L, w, some c) =>
      -- the chunk has room, so each round copies at least one byte
      have _hroom := nextChunk_offset_lt h
      let bytesToCopy := min (maxLogChunkSize - w.currentChunkOffset) (b :: rest).length
      writeStr (L.copyBytes c w.currentChunkOffset ((b :: rest).take bytesToCopy))
        { w with currentChunkOffset := w.currentChunkOffset + bytesToCopy }
        ((b :: rest).drop bytesToCopy)
termination_by s.length
decreasing_by
  simp only [List.length_drop, List.length_cons]
  omega

/-- `try_read` at the chunk `c` and the `read_index` step after it: a full chunk goes to the sink
and becomes empty. `none` when the chunk is not full. -/
def tryRead (L : Logger N) (c : Nat) : Option (Logger N) :=
  let chunk := L.buffer c
  let statusAndSize := chunk.statusAndSize
  if statusAndSize &&& statusMask = statusFull then
    let size := (statusAndSize &&& sizeMask) >>> sizeShift
    let L := { L with sink := L.sink ++ [(List.range size).map chunk.data] }
    some (L.setChunk c { chunk with statusAndSize := statusEmpty })
  else none

/-- The loop of `flush_internal`, with `limit` chunks left to read. -/
def flushLoop (L : Logger N) : Nat → Logger N
  | 0 => L
  | limit + 1 =>
    if L.readIndex = L.writeIndex then L
    else
      match L.tryRead (L.readIndex % N) with
      | some L => flushLoop { L with readIndex := Usize.wrappingAdd L.readIndex 1 } limit
      | none => L

/-- `flush_internal`: report lost writes, then read up to `limit` chunks. -/
def flushInternal (L : Logger N) (limit : Nat) : Logger N :=
  let overflowCount := L.overflowCount
  let L := { L with overflowCount := 0 }
  let L := if overflowCount > 0 then { L with sink := L.sink ++ [overflowMessage] } else L
  L.flushLoop limit

/-- `log` of an enabled record whose formatter writes the byte strings `pieces`, in a run where
the sink is free: the writes, the writer's drop, and a flush of `N / 3` chunks. -/
def log (L : Logger N) (pieces : List (List Nat)) : Logger N :=
  let (L, w) := pieces.foldl (fun (L, w) s => writeStr L w s) (L, ⟨none, 0⟩)
  let (L, _) := finishChunk L w
  L.flushInternal (N / 3)

def flush (L : Logger N) : Logger N := L.flushInternal N

/-! ## A write that overflows -/

/-- With 3 chunks, a record of 480 bytes fills the three chunks, and its fourth claim overflows:
`write_index` is 4, but the chunk of index 3 is never written. `flush` delivers the three chunks
and stops at index 3, so `read_index` stays 3 after `flush`. A record of two bytes logged next
goes to the chunk of index 4, and `flush` never delivers it. -/
theorem overflow_wedges_reader :
    ((Logger.new 3).log [List.replicate 480 0x61]).flush.readIndex = 3 ∧
    ((Logger.new 3).log [List.replicate 480 0x61]).flush.writeIndex = 4 ∧
    (((Logger.new 3).log [List.replicate 480 0x61]).flush.log [[0x68, 0x69]]).flush.readIndex = 3 ∧
    (((Logger.new 3).log [List.replicate 480 0x61]).flush.log [[0x68, 0x69]]).flush.sink =
      [overflowMessage, List.replicate 120 0x61, List.replicate 120 0x61,
        List.replicate 120 0x61] := by
  decide +kernel

end Logger

end EndlessHole
