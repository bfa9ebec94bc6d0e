import EndlessHole.Logger.Concurrent
import EndlessHole.Lib.Bits

/-!
# What the status protocol guarantees

The status word of a chunk passes it from hand to hand: a writer takes an empty chunk by a
compare-and-swap to `STATUS_WRITING`, fills it alone, and hands it to the flusher with
`STATUS_FULL` and its size; the flusher passes a full chunk to the sink and hands it back with
`STATUS_EMPTY`. Over every interleaving of any number of writers with the flushes, `Sound` holds:

* a thread that holds a chunk is writing it, the chunk is `STATUS_WRITING`, and it starts with
  the bytes the thread copied since it acquired it;
* a full chunk holds exactly the bytes of the chunk its last owner finished, and the flusher has
  not delivered that chunk unless it is between the delivery and the store of `STATUS_EMPTY`;
* a chunk that is not full holds nothing that was finished and not delivered;
* claim numbers are fresh: those in use are distinct and belong to no finished chunk.

Three consequences follow over every run (`Sound.delivered_sub`,
`Sound.delivered_tickets_nodup`, `Sound.holds_settled`): what the sink is passed as a chunk is
the whole of what one writer copied into it between acquiring it and finishing it; no chunk is
delivered twice; and a writer never holds a chunk while it has bytes finished and not read.
-/

namespace EndlessHole.Logger

variable {N : Nat}

/-! ## The status word -/

/-- The status word `finish` stores for a chunk of `size` bytes. -/
def fullStatus (size : Nat) : Nat := statusFull ||| size <<< sizeShift

theorem fullStatus_eq (size : Nat) : fullStatus size = size * 4 + 2 := by
  rw [fullStatus, Nat.lor_comm,
    ← Nat.shiftLeft_add_eq_or_of_lt (by decide : statusFull < 2 ^ sizeShift), Nat.shiftLeft_eq]
  rfl

@[simp] theorem fullStatus_and_statusMask (size : Nat) :
    fullStatus size &&& statusMask = statusFull := by
  rw [fullStatus_eq, show statusMask = 2 ^ 2 - 1 from rfl, Nat.and_two_pow_sub_one_eq_mod]
  simp only [statusFull]
  omega

theorem size_fullStatus {size : Nat} (h : size < 2 ^ 62) :
    (fullStatus size &&& sizeMask) >>> sizeShift = size := by
  apply Nat.eq_of_testBit_eq
  intro j
  rw [Nat.testBit_shiftRight, Nat.testBit_and, sizeMask, Usize.testBit_max_sub (by decide),
    fullStatus_eq, show sizeShift = 2 from rfl, show size * 4 + 2 = 2 ^ 2 * size + 2 by omega,
    Nat.testBit_two_pow_mul_add _ (by decide)]
  -- the mask keeps bits `2` to `63`, and bits `64` and up of the size are clear
  by_cases hj : 2 + j < 64
  · have hmask : (statusMask).testBit (2 + j) = false :=
      Nat.testBit_eq_false_of_lt (lt_of_lt_of_le (by decide : statusMask < 2 ^ 2)
        (Nat.pow_le_pow_right (by decide) (by omega)))
    simp [hj, show ¬2 + j < 2 by omega, hmask]
  · have hsize : size.testBit j = false := Nat.testBit_eq_false_of_lt
      (lt_of_lt_of_le h (Nat.pow_le_pow_right (by decide) (by omega)))
    simp [hj, hsize, show ¬2 + j < 2 by omega]

@[simp] theorem statusEmpty_and_statusMask : statusEmpty &&& statusMask ≠ statusFull := by decide

@[simp] theorem statusWriting_and_statusMask : statusWriting &&& statusMask ≠ statusFull := by
  decide

/-! ## The operations on chunks -/

/-- The first bytes of a chunk are `bytes`. -/
def Agrees (chunk : LogChunk) (bytes : List Nat) : Prop :=
  ∀ k (hk : k < bytes.length), chunk.data k = bytes[k]

theorem Agrees.map_range {chunk : LogChunk} {bytes : List Nat} (h : Agrees chunk bytes) :
    (List.range bytes.length).map chunk.data = bytes :=
  List.ext_getElem (by simp) fun k hk _ => by
    simp only [List.getElem_map, List.getElem_range]
    exact h k (by simpa using hk)

@[simp] theorem setChunk_buffer (L : Logger N) (c : Nat) (chunk : LogChunk) :
    (L.setChunk c chunk).buffer = Function.update L.buffer c chunk := rfl

@[simp] theorem countOverflow_buffer (L : Logger N) : L.countOverflow.buffer = L.buffer := rfl

@[simp] theorem copyBytes_status (L : Logger N) (c offset : Nat) (bytes : List Nat) (c' : Nat) :
    ((L.copyBytes c offset bytes).buffer c').statusAndSize = (L.buffer c').statusAndSize := by
  by_cases h : c' = c
  · subst h
    simp [copyBytes]
  · simp [copyBytes, h]

theorem copyBytes_of_ne (L : Logger N) {c c' : Nat} (offset : Nat) (bytes : List Nat)
    (h : c' ≠ c) : (L.copyBytes c offset bytes).buffer c' = L.buffer c' := by
  simp [copyBytes, h]

theorem agrees_copyBytes (L : Logger N) {c : Nat} {written : List Nat} (bytes : List Nat)
    (h : Agrees (L.buffer c) written) :
    Agrees ((L.copyBytes c written.length bytes).buffer c) (written ++ bytes) := by
  intro k hk
  simp only [copyBytes, setChunk_buffer, Function.update_self]
  rw [List.length_append] at hk
  by_cases hlt : k < written.length
  · rw [if_neg (by omega), List.getElem_append_left hlt]
    exact h k hlt
  · rw [if_pos ⟨by omega, by omega⟩, List.getElem_append_right (by omega), List.getD_eq_getElem]

theorem finishChunk_of_some (L : Logger N) {w : RingBufferWriter} {c : Nat}
    (h : w.currentChunk = some c) :
    L.finishChunk w = (L.setChunk c { L.buffer c with
      statusAndSize := fullStatus w.currentChunkOffset }, { w with currentChunk := none }) := by
  simp [finishChunk, h, fullStatus]

theorem System.finishChunk_currentChunk (s : System N) (t : Nat) :
    ((s.finishChunk t).writers t).writer.currentChunk = none := by
  cases hc : (s.writers t).writer.currentChunk with
  | none => simp [System.finishChunk, hc]
  | some c => simp [System.finishChunk, hc, finishChunk_of_some _ hc]

namespace Writer

/-- The writer is between a claim of an index and the finish of the chunk it acquired under it:
it is acquiring a chunk, or it holds one. -/
def Live (w : Writer) : Prop :=
  (∃ index, w.pc = .claimed index) ∨ (∃ index, w.pc = .acquiring index) ∨
    w.writer.currentChunk ≠ none

theorem not_live {w : Writer} (hpc : w.pc = .write ∨ w.pc = .overflowWrite ∨ w.pc = .done)
    (hcur : w.writer.currentChunk = none) : ¬w.Live := by
  rintro (⟨i, hi⟩ | ⟨i, hi⟩ | hi)
  · rcases hpc with hpc | hpc | hpc <;> rw [hpc] at hi <;> cases hi
  · rcases hpc with hpc | hpc | hpc <;> rw [hpc] at hi <;> cases hi
  · exact hi hcur

end Writer

namespace System

/-- Every chunk finished at `c` has been delivered. -/
def Settled (s : System N) (c : Nat) : Prop := ∀ ch ∈ s.finished, ch.slot = c → ch ∈ s.delivered

/-- The flusher has delivered the chunk at `c` and not yet marked it empty. -/
def Reading (s : System N) (c : Nat) : Prop := ∃ limit r, s.flusher = .read limit r ∧ r % N = c

/-- What holds in every state the threads reach. -/
structure Sound (s : System N) : Prop where
  /-- a thread that holds a chunk writes it, under the claim number that owns it, and the chunk
  starts with what the thread copied -/
  holder : ∀ t c, (s.writers t).writer.currentChunk = some c →
    (s.writers t).pc = .write ∧ (s.logger.buffer c).statusAndSize = statusWriting ∧
      s.owner c = (s.writers t).ticket ∧
      (s.writers t).writer.currentChunkOffset = (s.writers t).written.length ∧
      (s.writers t).written.length ≤ maxLogChunkSize ∧
      Agrees (s.logger.buffer c) (s.writers t).written
  /-- a chunk that is not full holds nothing finished and not delivered -/
  settled : ∀ c, (s.logger.buffer c).statusAndSize &&& statusMask ≠ statusFull → s.Settled c
  /-- a full chunk holds the chunk its owner finished there, which the flusher has delivered only
  while it reads it; every other chunk finished there was delivered -/
  full : ∀ c, (s.logger.buffer c).statusAndSize &&& statusMask = statusFull →
    ∃ ch ∈ s.finished, ch.slot = c ∧ ch.ticket = s.owner c ∧
      (s.logger.buffer c).statusAndSize = fullStatus ch.bytes.length ∧
      ch.bytes.length ≤ maxLogChunkSize ∧ Agrees (s.logger.buffer c) ch.bytes ∧
      (∀ ch' ∈ s.finished, ch'.slot = c → ch' ≠ ch → ch' ∈ s.delivered) ∧
      (ch ∈ s.delivered → s.Reading c)
  /-- the chunk the flusher reads is still full, and all of it delivered -/
  reading : ∀ limit r, s.flusher = .read limit r →
    (s.logger.buffer (r % N)).statusAndSize &&& statusMask = statusFull ∧ s.Settled (r % N)
  live_lt : ∀ t, (s.writers t).Live → (s.writers t).ticket < s.claims
  live_fresh : ∀ t, (s.writers t).Live → ∀ ch ∈ s.finished, ch.ticket ≠ (s.writers t).ticket
  live_distinct : ∀ t t', (s.writers t).Live → (s.writers t').Live →
    (s.writers t).ticket = (s.writers t').ticket → t = t'
  finished_lt : ∀ ch ∈ s.finished, ch.ticket < s.claims
  finished_nodup : (s.finished.map Chunk.ticket).Nodup
  delivered_sub : ∀ ch ∈ s.delivered, ch ∈ s.finished
  delivered_nodup : s.delivered.Nodup

theorem sound_init (pieces : Nat → List (List Nat)) : (init N pieces).Sound := by
  have hidle : ∀ t, ¬(init N pieces |>.writers t).Live := fun t => Writer.not_live (.inl rfl) rfl
  refine ⟨?_, ?_, ?_, ?_, fun t h => absurd h (hidle t), fun t h => absurd h (hidle t),
    fun t _ h => absurd h (hidle t), ?_, List.nodup_nil, ?_, List.nodup_nil⟩
  · intro t c h
    simp [init] at h
  · intro c _ ch hch
    cases hch
  · intro c h
    simp [init, Logger.new, newChunk, statusEmpty, statusFull] at h
  · intro limit r h
    cases h
  · intro ch hch
    cases hch
  · intro ch hch
    cases hch

/-! ## Moves that leave the chunks alone -/

theorem Sound.of_frame {s s' : System N} (h : s.Sound) (hbuf : s'.logger.buffer = s.logger.buffer)
    (hw : s'.writers = s.writers) (hc : s'.claims = s.claims) (ho : s'.owner = s.owner)
    (hfin : s'.finished = s.finished) (hdel : s'.delivered = s.delivered)
    (hread : ∀ limit r, s'.flusher = .read limit r ↔ s.flusher = .read limit r) : s'.Sound := by
  have hsettled : ∀ c, s'.Settled c ↔ s.Settled c := by
    intro c
    simp only [Settled, hfin, hdel]
  have hreading : ∀ c, s'.Reading c ↔ s.Reading c := by
    intro c
    simp only [Reading, hread]
  refine ⟨?_, ?_, ?_, ?_, ?_, ?_, ?_, ?_, ?_, ?_, ?_⟩
  · intro t c hcur
    rw [hw] at hcur ⊢
    rw [hbuf, ho]
    exact h.holder t c hcur
  · intro c hfull
    rw [hbuf] at hfull
    exact (hsettled c).2 (h.settled c hfull)
  · intro c hfull
    rw [hbuf] at hfull ⊢
    rw [hfin, hdel, ho, hreading]
    exact h.full c hfull
  · intro limit r hf
    rw [hbuf, hsettled]
    exact h.reading limit r ((hread limit r).1 hf)
  · intro t hlive
    rw [hw] at hlive ⊢
    rw [hc]
    exact h.live_lt t hlive
  · intro t hlive
    rw [hw] at hlive ⊢
    rw [hfin]
    exact h.live_fresh t hlive
  · intro t t' hlive hlive'
    rw [hw] at hlive hlive' ⊢
    exact h.live_distinct t t' hlive hlive'
  · rw [hfin, hc]
    exact h.finished_lt
  · rw [hfin]
    exact h.finished_nodup
  · rw [hfin, hdel]
    exact h.delivered_sub
  · rw [hdel]
    exact h.delivered_nodup

theorem Sound.tickets_of {s : System N} (h : s.Sound) (s' : System N) (t : Nat)
    (hw : ∀ t', t' ≠ t → s'.writers t' = s.writers t')
    (hlive : (s'.writers t).Live → (s.writers t).Live ∧ (s'.writers t).ticket = (s.writers t).ticket)
    (hclaims : s'.claims = s.claims) (hfin : s'.finished = s.finished) :
    (∀ t', (s'.writers t').Live → (s'.writers t').ticket < s'.claims) ∧
      (∀ t', (s'.writers t').Live → ∀ ch ∈ s'.finished, ch.ticket ≠ (s'.writers t').ticket) ∧
      (∀ t₁ t₂, (s'.writers t₁).Live → (s'.writers t₂).Live →
        (s'.writers t₁).ticket = (s'.writers t₂).ticket → t₁ = t₂) := by
  have hlive' : ∀ t', (s'.writers t').Live →
      (s.writers t').Live ∧ (s'.writers t').ticket = (s.writers t').ticket := by
    intro t' h'
    by_cases ht : t' = t
    · subst ht
      exact hlive h'
    · rw [hw t' ht] at h' ⊢
      exact ⟨h', rfl⟩
  rw [hclaims, hfin]
  refine ⟨fun t' h' => ?_, fun t' h' => ?_, fun t₁ t₂ h₁ h₂ heq => ?_⟩
  · obtain ⟨hold, hticket⟩ := hlive' t' h'
    rw [hticket]
    exact h.live_lt t' hold
  · obtain ⟨hold, hticket⟩ := hlive' t' h'
    rw [hticket]
    exact h.live_fresh t' hold
  · obtain ⟨hold₁, hticket₁⟩ := hlive' t₁ h₁
    obtain ⟨hold₂, hticket₂⟩ := hlive' t₂ h₂
    rw [hticket₁, hticket₂] at heq
    exact h.live_distinct t₁ t₂ hold₁ hold₂ heq

/-- Replacing thread `t` keeps `Sound` when the new thread holds only the chunk the old one held,
at the same offset and with the same bytes written, and is live only under the old one's claim
number. -/
theorem Sound.setWriter {s : System N} (h : s.Sound) {t : Nat} {w : Writer}
    (hheld : ∀ c, w.writer.currentChunk = some c →
      (s.writers t).writer.currentChunk = some c ∧ w.pc = .write ∧
        w.writer.currentChunkOffset = (s.writers t).writer.currentChunkOffset ∧
        w.written = (s.writers t).written)
    (hlive : w.Live → (s.writers t).Live ∧ w.ticket = (s.writers t).ticket) :
    (s.setWriter t w).Sound := by
  obtain ⟨hlt, hfresh, hdistinct⟩ := h.tickets_of (s.setWriter t w) t
    (fun t' ht => setWriter_writers_of_ne _ _ ht) (by simpa using hlive) rfl rfl
  refine ⟨?_, h.settled, h.full, h.reading, hlt, hfresh, hdistinct, h.finished_lt,
    h.finished_nodup, h.delivered_sub, h.delivered_nodup⟩
  intro t' c hcur
  by_cases ht : t' = t
  · subst ht
    simp only [setWriter_writers_self, setWriter_logger, setWriter_owner] at hcur ⊢
    obtain ⟨hcur', hpc, hoffset, hwritten⟩ := hheld c hcur
    obtain ⟨-, hstatus, howner, hlen, hle, hagrees⟩ := h.holder t' c hcur'
    have hticket := (hlive (.inr (.inr (by simp [hcur])))).2
    exact ⟨hpc, hstatus, by rw [howner, hticket], by rw [hoffset, hwritten, hlen],
      by rwa [hwritten], by rwa [hwritten]⟩
  · simp only [setWriter_writers_of_ne _ _ ht, setWriter_logger, setWriter_owner] at hcur ⊢
    exact h.holder t' c hcur

/-! ## Moves on a chunk -/

section Moves

variable {s : System N} (h : s.Sound)
include h

theorem Sound.holds_unique {t t' c : Nat} (hc : (s.writers t).writer.currentChunk = some c)
    (hc' : (s.writers t').writer.currentChunk = some c) : t = t' := by
  have howner := (h.holder t c hc).2.2.1
  have howner' := (h.holder t' c hc').2.2.1
  exact h.live_distinct t t' (.inr (.inr (by simp [hc]))) (.inr (.inr (by simp [hc'])))
    (howner.symm.trans howner')

theorem Sound.holds_ne {t t' c c' : Nat} (hc : (s.writers t).writer.currentChunk = some c)
    (hc' : (s.writers t').writer.currentChunk = some c') (ht : t' ≠ t) : c' ≠ c := by
  rintro rfl
  exact ht (h.holds_unique hc' hc)

theorem Sound.holds_not_full {t c : Nat} (hc : (s.writers t).writer.currentChunk = some c) :
    (s.logger.buffer c).statusAndSize &&& statusMask ≠ statusFull := by
  rw [(h.holder t c hc).2.1]
  exact statusWriting_and_statusMask

theorem Sound.full_ne_of_holds {t c c' : Nat} (hc : (s.writers t).writer.currentChunk = some c)
    (hfull : (s.logger.buffer c').statusAndSize &&& statusMask = statusFull) : c' ≠ c := by
  rintro rfl
  exact h.holds_not_full hc hfull

theorem Sound.not_holds_of_pc {t : Nat} (hpc : (s.writers t).pc ≠ .write) :
    (s.writers t).writer.currentChunk = none := by
  cases hc : (s.writers t).writer.currentChunk with
  | none => rfl
  | some c => exact absurd (h.holder t c hc).1 hpc

/-- `finish_chunk` of the chunk `c` thread `t` holds: the chunk becomes full with what `t`
copied, and that is a new finished chunk. -/
theorem Sound.finishChunk {t c : Nat} (hcur : (s.writers t).writer.currentChunk = some c) :
    (s.finishChunk t).Sound := by
  obtain ⟨hpc, hstatus, howner, hlen, hle, hagrees⟩ := h.holder t c hcur
  have hlive : (s.writers t).Live := .inr (.inr (by simp [hcur]))
  have hfresh : ⟨(s.writers t).ticket, c, (s.writers t).written⟩ ∉ s.delivered := fun hdel =>
    h.live_fresh t hlive _ (h.delivered_sub _ hdel) rfl
  have hbefore : ∀ c', c' ≠ c →
      ∀ ch' ∈ s.finished ++ [⟨(s.writers t).ticket, c, (s.writers t).written⟩],
        ch'.slot = c' → ch' ∈ s.finished := by
    intro c' hc' ch' hch' hslot
    rcases List.mem_append.1 hch' with hch' | hch'
    · exact hch'
    · rw [List.mem_singleton.1 hch'] at hslot
      exact absurd hslot.symm hc'
  have hdead : ¬(s.setWriter t { s.writers t with
      writer := { (s.writers t).writer with currentChunk := none } } |>.writers t).Live := by
    rw [setWriter_writers_self]
    exact Writer.not_live (.inl hpc) rfl
  simp only [System.finishChunk, hcur, Logger.finishChunk_of_some _ hcur]
  refine ⟨?_, ?_, ?_, ?_, ?_, ?_, ?_, ?_, ?_, ?_, h.delivered_nodup⟩
  · intro t' c' hc'
    by_cases ht : t' = t
    · subst ht
      simp at hc'
    · simp only [setWriter_writers_of_ne _ _ ht, setChunk_buffer] at hc' ⊢
      rw [Function.update_of_ne (h.holds_ne hcur hc' ht)]
      exact h.holder t' c' hc'
  · intro c' hnot
    simp only [setChunk_buffer] at hnot
    have hc' : c' ≠ c := by
      rintro rfl
      simp at hnot
    rw [Function.update_of_ne hc'] at hnot
    intro ch' hch' hslot
    exact h.settled c' hnot ch' (hbefore c' hc' ch' hch' hslot) hslot
  · intro c' hfull
    simp only [setChunk_buffer] at hfull ⊢
    by_cases hc' : c' = c
    · -- the chunk just finished
      subst hc'
      rw [Function.update_self]
      refine ⟨⟨(s.writers t).ticket, c', (s.writers t).written⟩, by simp, rfl, howner.symm,
        by simp [hlen], hle, hagrees, ?_, fun hdel => ?_⟩
      · intro ch' hch' hslot hne
        rcases List.mem_append.1 hch' with hch' | hch'
        · exact h.settled c' (h.holds_not_full hcur) ch' hch' hslot
        · exact absurd (List.mem_singleton.1 hch') hne
      · exact absurd hdel hfresh
    · rw [Function.update_of_ne hc'] at hfull ⊢
      obtain ⟨ch', hch', hslot, hticket, hword, hle', hagrees', hothers, hread⟩ := h.full c' hfull
      refine ⟨ch', List.mem_append_left _ hch', hslot, hticket, hword, hle', hagrees',
        fun ch'' hch'' hslot'' => hothers ch'' (hbefore c' hc' ch'' hch'' hslot'') hslot'', hread⟩
  · intro limit r hf
    obtain ⟨hfull, hsettled⟩ := h.reading limit r hf
    have hc' := h.full_ne_of_holds hcur hfull
    simp only [setChunk_buffer, Function.update_of_ne hc']
    exact ⟨hfull, fun ch' hch' hslot => hsettled ch' (hbefore _ hc' ch' hch' hslot) hslot⟩
  · intro t' hlive'
    by_cases ht : t' = t
    · exact absurd (ht ▸ hlive') hdead
    · simp only [setWriter_writers_of_ne _ _ ht] at hlive' ⊢
      exact h.live_lt t' hlive'
  · intro t' hlive' ch' hch'
    by_cases ht : t' = t
    · exact absurd (ht ▸ hlive') hdead
    · simp only [setWriter_writers_of_ne _ _ ht] at hlive' ⊢
      rcases List.mem_append.1 hch' with hch' | hch'
      · exact h.live_fresh t' hlive' ch' hch'
      · rw [List.mem_singleton.1 hch']
        exact fun heq => ht (h.live_distinct t' t hlive' hlive heq.symm)
  · intro t₁ t₂ h₁ h₂
    by_cases ht₁ : t₁ = t
    · exact absurd (ht₁ ▸ h₁) hdead
    by_cases ht₂ : t₂ = t
    · exact absurd (ht₂ ▸ h₂) hdead
    simp only [setWriter_writers_of_ne _ _ ht₁, setWriter_writers_of_ne _ _ ht₂] at h₁ h₂ ⊢
    exact h.live_distinct t₁ t₂ h₁ h₂
  · intro ch' hch'
    rcases List.mem_append.1 hch' with hch' | hch'
    · exact h.finished_lt ch' hch'
    · rw [List.mem_singleton.1 hch']
      exact h.live_lt t hlive
  · rw [List.map_append, List.nodup_append]
    refine ⟨h.finished_nodup, List.nodup_singleton _, ?_⟩
    intro a ha b hb
    obtain ⟨ch', hch', rfl⟩ := List.mem_map.1 ha
    rw [List.map_singleton, List.mem_singleton] at hb
    rw [hb]
    exact h.live_fresh t hlive ch' hch'
  · intro ch' hch'
    exact List.mem_append_left _ (h.delivered_sub ch' hch')

theorem Sound.copyInto {t c : Nat} (hcur : (s.writers t).writer.currentChunk = some c)
    (hroom : (s.writers t).writer.currentChunkOffset < maxLogChunkSize) :
    (s.copyInto t c).Sound := by
  obtain ⟨hpc, hstatus, howner, hlen, hle, hagrees⟩ := h.holder t c hcur
  have hlive : (s.writers t).Live := .inr (.inr (by simp [hcur]))
  obtain ⟨hlt, hfresh, hdistinct⟩ := h.tickets_of (s.copyInto t c) t
    (fun t' ht => by simp [System.copyInto, ht]) (fun _ => ⟨hlive, by simp [System.copyInto]⟩)
    rfl rfl
  simp only [System.copyInto]
  refine ⟨?_, ?_, ?_, ?_, hlt, hfresh, hdistinct, h.finished_lt, h.finished_nodup,
    h.delivered_sub, h.delivered_nodup⟩
  · intro t' c' hc'
    by_cases ht : t' = t
    · subst ht
      simp only [setWriter_writers_self, setWriter_owner] at hc' ⊢
      rw [hcur, Option.some.injEq] at hc'
      subst hc'
      have hk : min (maxLogChunkSize - (s.writers t').writer.currentChunkOffset)
          (s.writers t').rest.length ≤ (s.writers t').rest.length := Nat.min_le_right _ _
      have hk' : min (maxLogChunkSize - (s.writers t').writer.currentChunkOffset)
          (s.writers t').rest.length ≤ maxLogChunkSize - (s.writers t').writer.currentChunkOffset :=
        Nat.min_le_left _ _
      refine ⟨hpc, by rw [Logger.copyBytes_status, hstatus], howner, ?_, ?_, ?_⟩
      · simp only [List.length_append, List.length_take]
        omega
      · simp only [List.length_append, List.length_take]
        omega
      · rw [hlen]
        exact agrees_copyBytes _ _ hagrees
    · simp only [setWriter_writers_of_ne _ _ ht, setWriter_owner] at hc' ⊢
      rw [copyBytes_of_ne _ _ _ (h.holds_ne hcur hc' ht)]
      exact h.holder t' c' hc'
  · intro c' hnot
    rw [copyBytes_status] at hnot
    exact h.settled c' hnot
  · intro c' hfull
    rw [copyBytes_status] at hfull
    rw [copyBytes_of_ne _ _ _ (h.full_ne_of_holds hcur hfull)]
    exact h.full c' hfull
  · intro limit r hf
    obtain ⟨hfull, hsettled⟩ := h.reading limit r hf
    rw [copyBytes_of_ne _ _ _ (h.full_ne_of_holds hcur hfull)]
    exact ⟨hfull, hsettled⟩

theorem Sound.claimIndex {t : Nat} (hcur : (s.writers t).writer.currentChunk = none) :
    (s.claimIndex t).Sound := by
  have hnew : ∀ t', t' ≠ t → (s.writers t').Live → (s.writers t').ticket < s.claims :=
    fun t' _ hlive => h.live_lt t' hlive
  simp only [System.claimIndex]
  refine ⟨?_, h.settled, h.full, h.reading, ?_, ?_, ?_, ?_, h.finished_nodup, h.delivered_sub,
    h.delivered_nodup⟩
  · intro t' c hc
    by_cases ht : t' = t
    · subst ht
      simp [hcur] at hc
    · simp only [setWriter_writers_of_ne _ _ ht] at hc ⊢
      exact h.holder t' c hc
  · intro t' hlive
    by_cases ht : t' = t
    · subst ht
      simp
    · simp only [setWriter_writers_of_ne _ _ ht] at hlive ⊢
      exact Nat.lt_succ_of_lt (h.live_lt t' hlive)
  · intro t' hlive ch hch
    by_cases ht : t' = t
    · subst ht
      simp only [setWriter_writers_self]
      exact Nat.ne_of_lt (h.finished_lt ch hch)
    · simp only [setWriter_writers_of_ne _ _ ht] at hlive ⊢
      exact h.live_fresh t' hlive ch hch
  · intro t₁ t₂ h₁ h₂ heq
    by_cases ht₁ : t₁ = t <;> by_cases ht₂ : t₂ = t
    · rw [ht₁, ht₂]
    · subst ht₁
      simp only [setWriter_writers_self, setWriter_writers_of_ne _ _ ht₂] at h₂ heq
      exact absurd heq (Nat.ne_of_gt (hnew t₂ ht₂ h₂))
    · subst ht₂
      simp only [setWriter_writers_self, setWriter_writers_of_ne _ _ ht₁] at h₁ heq
      exact absurd heq (Nat.ne_of_lt (hnew t₁ ht₁ h₁))
    · simp only [setWriter_writers_of_ne _ _ ht₁, setWriter_writers_of_ne _ _ ht₂] at h₁ h₂ heq
      exact h.live_distinct t₁ t₂ h₁ h₂ heq
  · intro ch hch
    exact Nat.lt_succ_of_lt (h.finished_lt ch hch)

/-- `try_acquire_for_write`: the compare-and-swap succeeds only on an empty chunk, which the
thread then holds under its claim number; on failure the thread lets the claim go. -/
theorem Sound.tryAcquireForWrite {t index : Nat} (hpc : (s.writers t).pc = .acquiring index) :
    (s.tryAcquireForWrite t index).Sound := by
  have hcur := h.not_holds_of_pc (t := t) (by simp [hpc])
  have hlive : (s.writers t).Live := .inr (.inl ⟨index, hpc⟩)
  obtain ⟨hlt, hfresh, hdistinct⟩ := h.tickets_of (s.tryAcquireForWrite t index) t
    (fun t' ht => by simp only [System.tryAcquireForWrite]; split <;> simp [ht])
    (fun hl => ⟨hlive, by simp only [System.tryAcquireForWrite]; split <;> simp⟩)
    (by simp only [System.tryAcquireForWrite]; split <;> rfl)
    (by simp only [System.tryAcquireForWrite]; split <;> rfl)
  simp only [System.tryAcquireForWrite] at hlt hfresh hdistinct ⊢
  split
  · rename_i hempty
    rw [if_pos hempty] at hlt hfresh hdistinct
    have hnot : ∀ t' c', (s.writers t').writer.currentChunk = some c' → c' ≠ index % N := by
      intro t' c' hc' heq
      have hstatus := (h.holder t' c' hc').2.1
      rw [heq, hempty] at hstatus
      exact absurd hstatus (by decide)
    have hnotfull : ∀ c', (s.logger.buffer c').statusAndSize &&& statusMask = statusFull →
        c' ≠ index % N := by
      intro c' hfull heq
      rw [heq, hempty] at hfull
      exact statusEmpty_and_statusMask hfull
    refine ⟨?_, ?_, ?_, ?_, hlt, hfresh, hdistinct, h.finished_lt, h.finished_nodup,
      h.delivered_sub, h.delivered_nodup⟩
    · intro t' c' hc'
      by_cases ht : t' = t
      · subst ht
        simp only [setWriter_writers_self, Option.some.injEq] at hc' ⊢
        subst hc'
        simp [Agrees]
      · simp only [setWriter_writers_of_ne _ _ ht, setChunk_buffer] at hc' ⊢
        rw [Function.update_of_ne (hnot t' c' hc'), Function.update_of_ne (hnot t' c' hc')]
        exact h.holder t' c' hc'
    · intro c' hnotc
      by_cases hc' : c' = index % N
      · subst hc'
        exact h.settled _ (by rw [hempty]; exact statusEmpty_and_statusMask)
      · simp only [setChunk_buffer, Function.update_of_ne hc'] at hnotc
        exact h.settled c' hnotc
    · intro c' hfull
      have hc' : c' ≠ index % N := by
        rintro rfl
        simp at hfull
      simp only [setChunk_buffer, Function.update_of_ne hc'] at hfull ⊢
      exact h.full c' hfull
    · intro limit r hf
      obtain ⟨hfull, hsettled⟩ := h.reading limit r hf
      simp only [setChunk_buffer, Function.update_of_ne (hnotfull _ hfull)]
      exact ⟨hfull, hsettled⟩
  · exact h.setWriter (by simp [hcur]) fun _ => ⟨hlive, rfl⟩

/-- `try_read` finds the chunk at `readIndex % N` full: what it passes to the sink is the chunk
the owner finished there, which was not delivered before. -/
theorem Sound.tryRead {limit readIndex : Nat} (hf : s.flusher = .loadedWrite limit readIndex) :
    (s.tryRead limit readIndex).Sound := by
  simp only [System.tryRead]
  split
  · rename_i hfull
    obtain ⟨ch, hch, hslot, hticket, hword, hle, hagrees, hothers, hread⟩ := h.full _ hfull
    have hfresh : ch ∉ s.delivered := fun hdel => by
      obtain ⟨limit', r', hf', -⟩ := hread hdel
      rw [hf] at hf'
      cases hf'
    have hdata : (List.range (((s.logger.buffer (readIndex % N)).statusAndSize &&& sizeMask) >>>
        sizeShift)).map (s.logger.buffer (readIndex % N)).data = ch.bytes := by
      rw [hword, size_fullStatus (by simp only [maxLogChunkSize] at hle; omega)]
      exact hagrees.map_range
    have hrecord : (⟨s.owner (readIndex % N), readIndex % N, ch.bytes⟩ : Chunk) = ch := by
      rw [← hticket, ← hslot]
    rw [hdata, hrecord]
    refine ⟨h.holder, ?_, ?_, ?_, h.live_lt, h.live_fresh, h.live_distinct, h.finished_lt,
      h.finished_nodup, ?_, ?_⟩
    · intro c hnot ch' hch' hslot'
      exact List.mem_append_left _ (h.settled c hnot ch' hch' hslot')
    · intro c hfull'
      obtain ⟨ch', hch', hslot', hticket', hword', hle', hagrees', hothers', hread'⟩ :=
        h.full c hfull'
      refine ⟨ch', hch', hslot', hticket', hword', hle', hagrees',
        fun ch'' hch'' hslot'' hne => List.mem_append_left _ (hothers' ch'' hch'' hslot'' hne),
        fun hdel => ⟨limit, readIndex, rfl, ?_⟩⟩
      -- a chunk delivered now is the one read now, which sits at `readIndex % N`
      rcases List.mem_append.1 hdel with hdel | hdel
      · obtain ⟨limit', r', hf', -⟩ := hread' hdel
        rw [hf] at hf'
        cases hf'
      · rw [List.mem_singleton.1 hdel] at hslot'
        rw [← hslot', hslot]
    · intro limit' r' hf'
      cases hf'
      refine ⟨hfull, fun ch' hch' hslot' => ?_⟩
      by_cases hne : ch' = ch
      · rw [hne]
        exact List.mem_append_right _ (List.mem_singleton_self _)
      · exact List.mem_append_left _ (hothers ch' hch' hslot' hne)
    · intro ch' hch'
      rcases List.mem_append.1 hch' with hch' | hch'
      · exact h.delivered_sub ch' hch'
      · rw [List.mem_singleton.1 hch']
        exact hch
    · exact List.nodup_append.2 ⟨h.delivered_nodup, List.nodup_singleton _,
        fun a ha b hb => by rw [List.mem_singleton.1 hb]; rintro rfl; exact hfresh ha⟩
  · exact h.of_frame rfl rfl rfl rfl rfl rfl (by simp [hf])

theorem Sound.markEmpty {limit readIndex : Nat} (hf : s.flusher = .read limit readIndex) :
    ({ s with
      logger := s.logger.setChunk (readIndex % N)
        { s.logger.buffer (readIndex % N) with statusAndSize := statusEmpty }
      flusher := .readDone limit } : System N).Sound := by
  obtain ⟨hfull, hsettled⟩ := h.reading limit readIndex hf
  -- another chunk that is full is not read now, so what it holds was not delivered
  have hnotread : ∀ c, c ≠ readIndex % N → ¬s.Reading c := by
    rintro c hc ⟨limit', r', hf', hr'⟩
    rw [hf] at hf'
    cases hf'
    exact hc hr'.symm
  refine ⟨?_, ?_, ?_, (fun limit' r' hf' => by cases hf'), h.live_lt, h.live_fresh,
    h.live_distinct, h.finished_lt, h.finished_nodup, h.delivered_sub, h.delivered_nodup⟩
  · intro t c hc
    have hne := h.full_ne_of_holds hc hfull
    simp only [setChunk_buffer, Function.update_of_ne hne.symm]
    exact h.holder t c hc
  · intro c hnot
    by_cases hc : c = readIndex % N
    · rw [hc]
      exact hsettled
    · simp only [setChunk_buffer, Function.update_of_ne hc] at hnot
      exact h.settled c hnot
  · intro c hfull'
    have hc : c ≠ readIndex % N := by
      rintro rfl
      simp at hfull'
    simp only [setChunk_buffer, Function.update_of_ne hc] at hfull' ⊢
    obtain ⟨ch, hch, hslot, hticket, hword, hle, hagrees, hothers, hread⟩ := h.full c hfull'
    exact ⟨ch, hch, hslot, hticket, hword, hle, hagrees, hothers,
      fun hdel => absurd (hread hdel) (hnotread c hc)⟩

theorem Sound.writerMove {t : Nat} {s' : System N} (hmove : WriterMove s t s') : s'.Sound := by
  cases hmove with
  | nextPiece hpc =>
    exact h.setWriter (fun c hc => ⟨hc, hpc, rfl, rfl⟩) fun hl => ⟨hl, rfl⟩
  | drop hpc =>
    have hfin : (s.finishChunk t).Sound := by
      cases hc : (s.writers t).writer.currentChunk with
      | none => simpa [System.finishChunk, hc] using h
      | some c => exact h.finishChunk hc
    have hfree := (s.finishChunk_currentChunk t)
    exact hfin.setWriter (fun c hc => by simp [hfree] at hc) fun hl =>
      absurd hl (Writer.not_live (.inr (.inr rfl)) hfree)
  | copyInto _ _ hcur hroom => exact h.copyInto hcur hroom
  | finishFull _ _ hcur _ => exact h.finishChunk hcur
  | claimIndex _ _ hcur => exact h.claimIndex hcur
  | checkDistance hpc =>
    have hcur := h.not_holds_of_pc (t := t) (by simp [hpc])
    have hlive : (s.writers t).Live := .inl ⟨_, hpc⟩
    simp only [System.checkDistance]
    split <;> exact h.setWriter (fun c hc => by simp [hcur] at hc) fun _ => ⟨hlive, rfl⟩
  | tryAcquireForWrite hpc => exact h.tryAcquireForWrite hpc
  | overflowAcquire hpc =>
    have hcur := h.not_holds_of_pc (t := t) (by simp [hpc])
    have hset := h.setWriter (t := t) (w := { s.writers t with pc := .overflowWrite })
      (fun c hc => by simp [hcur] at hc) fun hl =>
        absurd hl (Writer.not_live (.inr (.inl rfl)) hcur)
    exact hset.of_frame rfl rfl rfl rfl rfl rfl fun _ _ => Iff.rfl
  | overflowWrite hpc =>
    have hcur := h.not_holds_of_pc (t := t) (by simp [hpc])
    have hset := h.setWriter (t := t) (w := { s.writers t with pc := .write, rest := [] })
      (fun c hc => by simp [hcur] at hc) fun hl => absurd hl (Writer.not_live (.inl rfl) hcur)
    exact hset.of_frame rfl rfl rfl rfl rfl rfl fun _ _ => Iff.rfl

theorem Sound.flusherMove {s' : System N} (hmove : FlusherMove s s') : s'.Sound := by
  cases hmove with
  | loopEnd hf => exact h.of_frame rfl rfl rfl rfl rfl rfl (by simp [hf])
  | loadReadIndex hf => exact h.of_frame rfl rfl rfl rfl rfl rfl (by simp [hf])
  | caughtUp hf _ => exact h.of_frame rfl rfl rfl rfl rfl rfl (by simp [hf])
  | loadWriteIndex hf _ => exact h.of_frame rfl rfl rfl rfl rfl rfl (by simp [hf])
  | tryRead hf => exact h.tryRead hf
  | markEmpty hf => exact h.markEmpty hf
  | advanceReadIndex hf => exact h.of_frame rfl rfl rfl rfl rfl rfl (by simp [hf])

theorem Sound.step {s' : System N} (hstep : Step s s') : s'.Sound := by
  cases hstep with
  | writer t hw => exact h.writerMove (writerMove_of_writerStep hw)
  | startFlush limit hf =>
    refine h.of_frame ?_ rfl rfl rfl rfl rfl (by simp [System.startFlush, hf])
    simp only [System.startFlush]
    split <;> rfl
  | flusher hf => exact h.flusherMove (flusherMove_of_flusherStep hf)

end Moves

theorem Reachable.sound {pieces : Nat → List (List Nat)} {s : System N}
    (hr : Reachable N pieces s) : s.Sound := by
  induction hr with
  | refl => exact sound_init pieces
  | tail _ hstep ih => exact ih.step hstep

/-! ## What the flusher delivers -/

section Delivered

variable {s : System N} (h : s.Sound)
include h

/-- No chunk is delivered twice: the claim numbers of the delivered chunks are distinct. -/
theorem Sound.delivered_tickets_nodup : (s.delivered.map Chunk.ticket).Nodup :=
  h.delivered_nodup.map_on fun _ ha _ hb heq =>
    List.inj_on_of_nodup_map h.finished_nodup (h.delivered_sub _ ha) (h.delivered_sub _ hb) heq

/-- A thread holds a chunk only when every chunk finished there was delivered: it never acquired
one that was full and not yet read. -/
theorem Sound.holds_settled {t c : Nat} (hc : (s.writers t).writer.currentChunk = some c) :
    s.Settled c :=
  h.settled c (h.holds_not_full hc)

end Delivered

end System

end EndlessHole.Logger
