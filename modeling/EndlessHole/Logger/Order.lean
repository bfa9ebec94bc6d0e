import EndlessHole.Logger.Integrity

/-!
# The order of delivery

While `write_index` has not wrapped, the index a writer claims is its claim number, and
`read_index` counts the chunks the flusher delivered. A writer then acquires the chunk of its
index only when the index is less than `N` past `read_index`, and keeps that bound while it
writes and until the chunk is delivered (`InOrder`). The flusher at `read_index = r` finds in
the chunk `r % N` either nothing full or a chunk whose claim number is at least `r`, less than
`r + N` and equal to `r` modulo `N`: the chunk of claim `r`. So the chunks are delivered in the
order of their claims, with none skipped (`InOrder.delivered_eq`).

The bound on the claims is needed: `write_index` is a `usize`, and after `2 ^ 64` claims two
writers can hold the same index.
-/

namespace EndlessHole.Logger

variable {N : Nat}

theorem eq_of_mod_eq_of_le_of_lt {a x : Nat} (hle : a ≤ x) (hlt : x < a + N)
    (hmod : x % N = a % N) : x = a := by
  have hsub : (x - a) % N = 0 := Nat.sub_mod_eq_zero_of_mod_eq hmod
  rcases Nat.eq_zero_or_pos N with hN | hN
  · omega
  · rw [Nat.mod_eq_of_lt (by omega)] at hsub
    omega

theorem wrappingSub_of_le {a b : Nat} (hle : b ≤ a) (ha : a < 2 ^ 64) :
    Usize.wrappingSub a b = a - b := by
  simp only [Usize.wrappingSub]
  rw [Nat.mod_eq_of_lt ha, Nat.mod_eq_of_lt (lt_of_le_of_lt hle ha),
    show a + (2 ^ 64 - b) = a - b + 2 ^ 64 by omega, Nat.add_mod_right,
    Nat.mod_eq_of_lt (by omega)]

theorem wrappingAdd_one_of_lt {a : Nat} (ha : a + 1 < 2 ^ 64) : Usize.wrappingAdd a 1 = a + 1 :=
  Nat.mod_eq_of_lt ha

namespace FlusherPc

/-- The flusher has delivered a chunk and not yet advanced `read_index` past it. -/
def delivering : FlusherPc → Bool
  | .read _ _ | .readDone _ => true
  | _ => false

/-- The flusher has seen `write_index` ahead of `read_index` in this round. -/
def behind : FlusherPc → Bool
  | .loadedWrite _ _ | .read _ _ | .readDone _ => true
  | _ => false

end FlusherPc

namespace System

/-- The number of chunks the flusher has delivered. -/
def readPos (s : System N) : Nat := s.reads + if s.flusher.delivering then 1 else 0

/-- What holds while `write_index` has not wrapped. -/
structure InOrder (s : System N) : Prop where
  writeIndex_eq : s.logger.writeIndex = s.claims
  readIndex_eq : s.logger.readIndex = s.reads
  reads_le : s.reads ≤ s.claims
  /-- the read index the flusher loaded is still `read_index` -/
  loaded : ∀ limit r, s.flusher = .loadedRead limit r ∨ s.flusher = .loadedWrite limit r →
    r = s.reads
  behind : s.flusher.behind → s.reads < s.claims
  /-- the chunks delivered are those of the first claims, in order -/
  delivered_eq : s.delivered.map Chunk.ticket = List.range s.readPos
  claimed : ∀ t i, (s.writers t).pc = .claimed i → i = (s.writers t).ticket
  /-- a thread acquires the chunk of an index less than `N` past `read_index` -/
  acquiring : ∀ t i, (s.writers t).pc = .acquiring i →
    i = (s.writers t).ticket ∧ i < s.reads + N
  holder : ∀ t c, (s.writers t).writer.currentChunk = some c →
    c = (s.writers t).ticket % N ∧ (s.writers t).ticket < s.reads + N
  finished_slot : ∀ ch ∈ s.finished, ch.slot = ch.ticket % N
  pending : ∀ ch ∈ s.finished, ch ∉ s.delivered → ch.ticket < s.reads + N

theorem inOrder_init (pieces : Nat → List (List Nat)) : (init N pieces).InOrder := by
  refine ⟨rfl, rfl, le_refl _, ?_, ?_, rfl, ?_, ?_, ?_, ?_, ?_⟩
  · rintro limit r (h | h) <;> cases h
  · intro h
    cases h
  · intro t i h
    cases h
  · intro t i h
    cases h
  · intro t c h
    cases h
  · intro ch hch
    cases hch
  · intro ch hch
    cases hch

section Bounds

variable {s : System N} (hs : s.Sound) (h : s.InOrder)
include hs h

theorem InOrder.readPos_le_of_live {t : Nat} (hlive : (s.writers t).Live) :
    s.readPos ≤ (s.writers t).ticket := by
  by_contra hlt
  have hmem : (s.writers t).ticket ∈ s.delivered.map Chunk.ticket := by
    rw [h.delivered_eq, List.mem_range]
    omega
  obtain ⟨ch, hch, hticket⟩ := List.mem_map.1 hmem
  exact hs.live_fresh t hlive ch (hs.delivered_sub ch hch) hticket

theorem InOrder.readPos_le_of_pending {ch : Chunk} (hch : ch ∈ s.finished)
    (hnot : ch ∉ s.delivered) : s.readPos ≤ ch.ticket := by
  by_contra hlt
  have hmem : ch.ticket ∈ s.delivered.map Chunk.ticket := by
    rw [h.delivered_eq, List.mem_range]
    omega
  obtain ⟨ch', hch', hticket⟩ := List.mem_map.1 hmem
  have := List.inj_on_of_nodup_map hs.finished_nodup (hs.delivered_sub ch' hch') hch hticket
  exact hnot (this ▸ hch')

end Bounds

theorem InOrder.writers_of {s : System N} (h : s.InOrder) (s' : System N) (t : Nat)
    (hw : ∀ t', t' ≠ t → s'.writers t' = s.writers t') (hreads : s.reads ≤ s'.reads)
    (hclaimed : ∀ i, (s'.writers t).pc = .claimed i → i = (s'.writers t).ticket)
    (hacquiring : ∀ i, (s'.writers t).pc = .acquiring i →
      i = (s'.writers t).ticket ∧ i < s'.reads + N)
    (hheld : ∀ c, (s'.writers t).writer.currentChunk = some c →
      c = (s'.writers t).ticket % N ∧ (s'.writers t).ticket < s'.reads + N) :
    (∀ t' i, (s'.writers t').pc = .claimed i → i = (s'.writers t').ticket) ∧
      (∀ t' i, (s'.writers t').pc = .acquiring i →
        i = (s'.writers t').ticket ∧ i < s'.reads + N) ∧
      (∀ t' c, (s'.writers t').writer.currentChunk = some c →
        c = (s'.writers t').ticket % N ∧ (s'.writers t').ticket < s'.reads + N) := by
  refine ⟨fun t' i hi => ?_, fun t' i hi => ?_, fun t' c hc => ?_⟩
  · by_cases ht : t' = t
    · subst ht
      exact hclaimed i hi
    · rw [hw t' ht] at hi ⊢
      exact h.claimed t' i hi
  · by_cases ht : t' = t
    · subst ht
      exact hacquiring i hi
    · rw [hw t' ht] at hi ⊢
      obtain ⟨heq, hlt⟩ := h.acquiring t' i hi
      exact ⟨heq, by omega⟩
  · by_cases ht : t' = t
    · subst ht
      exact hheld c hc
    · rw [hw t' ht] at hc ⊢
      obtain ⟨heq, hlt⟩ := h.holder t' c hc
      exact ⟨heq, by omega⟩

theorem InOrder.of_thread {s s' : System N} (h : s.InOrder) (t : Nat)
    (hwrite : s'.logger.writeIndex = s.logger.writeIndex)
    (hread : s'.logger.readIndex = s.logger.readIndex) (hclaims : s'.claims = s.claims)
    (hreads : s'.reads = s.reads) (hf : s'.flusher = s.flusher)
    (hdel : s'.delivered = s.delivered) (hfin : s'.finished = s.finished)
    (hw : ∀ t', t' ≠ t → s'.writers t' = s.writers t')
    (hclaimed : ∀ i, (s'.writers t).pc = .claimed i → i = (s'.writers t).ticket)
    (hacquiring : ∀ i, (s'.writers t).pc = .acquiring i →
      i = (s'.writers t).ticket ∧ i < s'.reads + N)
    (hheld : ∀ c, (s'.writers t).writer.currentChunk = some c →
      c = (s'.writers t).ticket % N ∧ (s'.writers t).ticket < s'.reads + N) : s'.InOrder := by
  obtain ⟨hc, ha, hh⟩ := h.writers_of s' t hw hreads.ge hclaimed hacquiring hheld
  have hpos : s'.readPos = s.readPos := by simp only [System.readPos, hreads, hf]
  refine ⟨?_, ?_, ?_, ?_, ?_, ?_, hc, ha, hh, ?_, ?_⟩
  · rw [hwrite, hclaims]
    exact h.writeIndex_eq
  · rw [hread, hreads]
    exact h.readIndex_eq
  · rw [hreads, hclaims]
    exact h.reads_le
  · rw [hf, hreads]
    exact h.loaded
  · rw [hf, hreads, hclaims]
    exact h.behind
  · rw [hdel, hpos]
    exact h.delivered_eq
  · rw [hfin]
    exact h.finished_slot
  · rw [hfin, hdel, hreads]
    exact h.pending

theorem InOrder.setWriter {s : System N} (h : s.InOrder) {t : Nat} {w : Writer}
    (hclaimed : ∀ i, w.pc = .claimed i → (s.writers t).pc = .claimed i ∧
      w.ticket = (s.writers t).ticket)
    (hacquiring : ∀ i, w.pc = .acquiring i → (s.writers t).pc = .acquiring i ∧
      w.ticket = (s.writers t).ticket)
    (hheld : ∀ c, w.writer.currentChunk = some c →
      (s.writers t).writer.currentChunk = some c ∧ w.ticket = (s.writers t).ticket) :
    (s.setWriter t w).InOrder := by
  refine h.of_thread t rfl rfl rfl rfl rfl rfl rfl (fun t' ht => setWriter_writers_of_ne _ _ ht)
    (fun i hi => ?_) (fun i hi => ?_) (fun c hc => ?_)
  · simp only [setWriter_writers_self] at hi ⊢
    obtain ⟨hold, hticket⟩ := hclaimed i hi
    rw [hticket]
    exact h.claimed t i hold
  · simp only [setWriter_writers_self, setWriter_reads] at hi ⊢
    obtain ⟨hold, hticket⟩ := hacquiring i hi
    rw [hticket]
    exact h.acquiring t i hold
  · simp only [setWriter_writers_self, setWriter_reads] at hc ⊢
    obtain ⟨hold, hticket⟩ := hheld c hc
    rw [hticket]
    exact h.holder t c hold

theorem InOrder.of_flusher {s s' : System N} (h : s.InOrder)
    (hwrite : s'.logger.writeIndex = s.logger.writeIndex)
    (hread : s'.logger.readIndex = s.logger.readIndex) (hw : s'.writers = s.writers)
    (hclaims : s'.claims = s.claims) (hreads : s'.reads = s.reads)
    (hdel : s'.delivered = s.delivered) (hfin : s'.finished = s.finished)
    (hdelivering : s'.flusher.delivering = s.flusher.delivering)
    (hloaded : ∀ limit r, s'.flusher = .loadedRead limit r ∨ s'.flusher = .loadedWrite limit r →
      r = s.reads)
    (hbehind : s'.flusher.behind → s.reads < s.claims) : s'.InOrder := by
  have hpos : s'.readPos = s.readPos := by simp only [System.readPos, hreads, hdelivering]
  refine ⟨?_, ?_, ?_, ?_, ?_, ?_, ?_, ?_, ?_, ?_, ?_⟩
  · rw [hwrite, hclaims]
    exact h.writeIndex_eq
  · rw [hread, hreads]
    exact h.readIndex_eq
  · rw [hreads, hclaims]
    exact h.reads_le
  · rw [hreads]
    exact hloaded
  · rw [hreads, hclaims]
    exact hbehind
  · rw [hdel, hpos]
    exact h.delivered_eq
  · rw [hw]
    exact h.claimed
  · rw [hw, hreads]
    exact h.acquiring
  · rw [hw, hreads]
    exact h.holder
  · rw [hfin]
    exact h.finished_slot
  · rw [hfin, hdel, hreads]
    exact h.pending

theorem InOrder.claimIndex {s : System N} (h : s.InOrder) {t : Nat}
    (hcur : (s.writers t).writer.currentChunk = none) (hbound : s.claims + 1 < 2 ^ 64) :
    (s.claimIndex t).InOrder := by
  obtain ⟨hc, ha, hh⟩ := h.writers_of (s.claimIndex t) t
    (fun t' ht => by simp [System.claimIndex, ht]) le_rfl
    (fun i hi => by
      simp only [System.claimIndex, setWriter_writers_self, WriterPc.claimed.injEq] at hi ⊢
      rw [← hi, h.writeIndex_eq])
    (fun i hi => by simp [System.claimIndex] at hi)
    (fun c hc => by simp [System.claimIndex, hcur] at hc)
  refine ⟨?_, h.readIndex_eq, Nat.le_succ_of_le h.reads_le, h.loaded,
    fun hb => Nat.lt_succ_of_lt (h.behind hb), h.delivered_eq, hc, ha, hh, h.finished_slot,
    h.pending⟩
  simp only [System.claimIndex, h.writeIndex_eq]
  exact wrappingAdd_one_of_lt hbound

section Moves

variable {s : System N} (hs : s.Sound) (h : s.InOrder)
include hs h

/-- `finish_chunk`: the chunk finished has the slot of its claim number and stays within `N` of
`read_index`. -/
theorem InOrder.finishChunk {t c : Nat} (hcur : (s.writers t).writer.currentChunk = some c) :
    (s.finishChunk t).InOrder := by
  obtain ⟨hslot, hlt⟩ := h.holder t c hcur
  have hpc := (hs.holder t c hcur).1
  simp only [System.finishChunk, hcur, finishChunk_of_some _ hcur]
  obtain ⟨hc, ha, hh⟩ := h.writers_of (s.setWriter t { s.writers t with
      writer := { (s.writers t).writer with currentChunk := none } }) t
    (fun t' ht => setWriter_writers_of_ne _ _ ht) le_rfl (by simp [hpc]) (by simp [hpc]) (by simp)
  refine ⟨h.writeIndex_eq, h.readIndex_eq, h.reads_le, h.loaded, h.behind, h.delivered_eq, hc, ha,
    hh, ?_, ?_⟩
  · intro ch hch
    rcases List.mem_append.1 hch with hch | hch
    · exact h.finished_slot ch hch
    · rw [List.mem_singleton.1 hch]
      exact hslot
  · intro ch hch hnot
    rcases List.mem_append.1 hch with hch | hch
    · exact h.pending ch hch hnot
    · rw [List.mem_singleton.1 hch]
      exact hlt

theorem InOrder.checkDistance {t index : Nat} (hpc : (s.writers t).pc = .claimed index)
    (hbound : s.claims < 2 ^ 64) : (s.checkDistance t index).InOrder := by
  have hlive : (s.writers t).Live := .inl ⟨index, hpc⟩
  have hticket := h.claimed t index hpc
  have hge : s.reads ≤ index := by
    have := InOrder.readPos_le_of_live hs h hlive
    simp only [System.readPos] at this
    omega
  have hdist : Usize.wrappingSub index s.logger.readIndex = index - s.reads := by
    rw [h.readIndex_eq]
    exact wrappingSub_of_le hge (by have := hs.live_lt t hlive; omega)
  simp only [System.checkDistance, hdist]
  split
  · exact h.setWriter (by simp) (by simp) (by simp [hs.not_holds_of_pc (t := t) (by simp [hpc])])
  · -- the index passed the check: it is less than `N` past `read_index`
    have hcur := hs.not_holds_of_pc (t := t) (by simp [hpc])
    refine h.of_thread t rfl rfl rfl rfl rfl rfl rfl (fun t' ht => setWriter_writers_of_ne _ _ ht)
      (by simp) (fun i hi => ?_) (by simp [hcur])
    simp only [setWriter_writers_self, setWriter_reads, WriterPc.acquiring.injEq] at hi ⊢
    subst hi
    exact ⟨hticket, by omega⟩

theorem InOrder.tryAcquireForWrite {t index : Nat} (hpc : (s.writers t).pc = .acquiring index) :
    (s.tryAcquireForWrite t index).InOrder := by
  obtain ⟨hticket, hlt⟩ := h.acquiring t index hpc
  have hcur := hs.not_holds_of_pc (t := t) (by simp [hpc])
  simp only [System.tryAcquireForWrite]
  split
  · -- the chunk acquired is the one of the index, which is the claim number
    refine h.of_thread t rfl rfl rfl rfl rfl rfl rfl (fun t' ht => setWriter_writers_of_ne _ _ ht)
      (by simp) (by simp) (fun c hc => ?_)
    simp only [setWriter_writers_self, setWriter_reads, Option.some.injEq] at hc ⊢
    exact ⟨by rw [← hc, hticket], by omega⟩
  · exact h.setWriter (by simp) (by simp) (by simp [hcur])

theorem InOrder.tryRead {limit r : Nat} (hf : s.flusher = .loadedWrite limit r) :
    (s.tryRead limit r).InOrder := by
  have hr := h.loaded limit r (.inr hf)
  have hbehind := h.behind (by simp [hf, FlusherPc.behind])
  simp only [System.tryRead]
  split
  · rename_i hfull
    obtain ⟨ch, hch, hslot, hticket, -, -, -, -, hread⟩ := hs.full _ hfull
    have hnot : ch ∉ s.delivered := fun hdel => by
      obtain ⟨_, _, hf', -⟩ := hread hdel
      rw [hf] at hf'
      cases hf'
    have hge := InOrder.readPos_le_of_pending hs h hch hnot
    simp only [System.readPos, hf, FlusherPc.delivering] at hge
    have hnext : ch.ticket = s.reads := eq_of_mod_eq_of_le_of_lt (by omega) (h.pending ch hch hnot)
      (by rw [← h.finished_slot ch hch, hslot, hr])
    refine ⟨h.writeIndex_eq, h.readIndex_eq, h.reads_le, by simp, fun _ => hbehind, ?_,
      h.claimed, h.acquiring, h.holder, h.finished_slot, ?_⟩
    · simp only [List.map_append, List.map_singleton, h.delivered_eq, System.readPos, hf,
        FlusherPc.delivering]
      rw [← hticket, hnext]
      simp [List.range_succ]
    · intro ch' hch' hnot'
      exact h.pending ch' hch' fun hdel => hnot' (List.mem_append_left _ hdel)
  · exact h.of_flusher rfl rfl rfl rfl rfl rfl rfl (by simp [hf, FlusherPc.delivering]) (by simp)
      (by simp [FlusherPc.behind])

theorem InOrder.writerMove {t : Nat} {s' : System N} (hmove : WriterMove s t s')
    (hbound : s'.claims < 2 ^ 64) : s'.InOrder := by
  cases hmove with
  | @nextPiece p ps _ _ _ =>
    exact h.setWriter (t := t) (w := { s.writers t with rest := p, pieces := ps })
      (fun i hi => ⟨hi, rfl⟩) (fun i hi => ⟨hi, rfl⟩) (fun c hc => ⟨hc, rfl⟩)
  | drop hpc =>
    have hfin : (s.finishChunk t).InOrder := by
      cases hc : (s.writers t).writer.currentChunk with
      | none => simpa [System.finishChunk, hc] using h
      | some c => exact h.finishChunk hs hc
    exact hfin.setWriter (by simp) (by simp) (by simp [s.finishChunk_currentChunk t])
  | copyInto _ _ hcur _ =>
    refine h.of_thread t rfl rfl rfl rfl rfl rfl rfl (fun t' ht => by simp [System.copyInto, ht])
      (fun i hi => ?_) (fun i hi => ?_) (fun c hc => ?_)
    · simp only [System.copyInto, setWriter_writers_self] at hi ⊢
      exact h.claimed t i hi
    · simp only [System.copyInto, setWriter_writers_self, setWriter_reads] at hi ⊢
      exact h.acquiring t i hi
    · simp only [System.copyInto, setWriter_writers_self, setWriter_reads] at hc ⊢
      exact h.holder t c hc
  | finishFull _ _ hcur _ => exact h.finishChunk hs hcur
  | claimIndex _ _ hcur => exact h.claimIndex hcur hbound
  | @checkDistance index hpc =>
    have hclaims : (s.checkDistance t index).claims = s.claims := by
      simp only [System.checkDistance]
      split <;> rfl
    exact h.checkDistance hs hpc (hclaims ▸ hbound)
  | tryAcquireForWrite hpc => exact h.tryAcquireForWrite hs hpc
  | overflowAcquire hpc =>
    have hcur := hs.not_holds_of_pc (t := t) (by simp [hpc])
    exact h.of_thread t rfl rfl rfl rfl rfl rfl rfl
      (fun t' ht => by simp [System.overflowAcquire, ht]) (by simp [System.overflowAcquire])
      (by simp [System.overflowAcquire]) (by simp [System.overflowAcquire, hcur])
  | overflowWrite hpc =>
    have hcur := hs.not_holds_of_pc (t := t) (by simp [hpc])
    exact h.of_thread t rfl rfl rfl rfl rfl rfl rfl
      (fun t' ht => by simp [System.overflowWrite, ht]) (by simp [System.overflowWrite])
      (by simp [System.overflowWrite]) (by simp [System.overflowWrite, hcur])

/-- Every move of the flusher keeps `InOrder` while `write_index` does not wrap: `read_index`
advances past the chunk just delivered. -/
theorem InOrder.flusherMove {s' : System N} (hmove : FlusherMove s s')
    (hbound : s'.claims < 2 ^ 64) : s'.InOrder := by
  cases hmove with
  | loopEnd hf =>
    exact h.of_flusher rfl rfl rfl rfl rfl rfl rfl (by simp [hf, FlusherPc.delivering]) (by simp)
      (by simp [FlusherPc.behind])
  | loadReadIndex hf =>
    exact h.of_flusher rfl rfl rfl rfl rfl rfl rfl (by simp [hf, FlusherPc.delivering])
      (by simp [h.readIndex_eq]) (by simp [FlusherPc.behind])
  | caughtUp hf _ =>
    exact h.of_flusher rfl rfl rfl rfl rfl rfl rfl (by simp [hf, FlusherPc.delivering]) (by simp)
      (by simp [FlusherPc.behind])
  | loadWriteIndex hf hne =>
    -- the read index loaded is `read_index`, and `write_index` was found elsewhere: ahead
    have hr := h.loaded _ _ (.inl hf)
    refine h.of_flusher rfl rfl rfl rfl rfl rfl rfl (by simp [hf, FlusherPc.delivering])
      (by simpa using hr) fun _ => ?_
    have := h.reads_le
    rw [h.writeIndex_eq] at hne
    omega
  | tryRead hf => exact h.tryRead hs hf
  | markEmpty hf =>
    exact h.of_flusher rfl rfl rfl rfl rfl rfl rfl (by simp [hf, FlusherPc.delivering]) (by simp)
      fun _ => h.behind (by simp [hf, FlusherPc.behind])
  | advanceReadIndex hf =>
    have hbehind := h.behind (by simp [hf, FlusherPc.behind])
    refine ⟨h.writeIndex_eq, ?_, hbehind, by simp, by simp [FlusherPc.behind], ?_,
      fun t i hi => h.claimed t i hi, fun t i hi => ?_, fun t c hc => ?_, h.finished_slot,
      fun ch hch hnot => ?_⟩
    · simp only [h.readIndex_eq]
      exact wrappingAdd_one_of_lt (by simp only at hbound; omega)
    · simpa [System.readPos, hf, FlusherPc.delivering] using h.delivered_eq
    · have := h.acquiring t i hi
      simp only
      omega
    · have := h.holder t c hc
      simp only
      omega
    · have := h.pending ch hch hnot
      simp only
      omega

end Moves

theorem Step.claims_le {s s' : System N} (hstep : Step s s') : s.claims ≤ s'.claims := by
  cases hstep with
  | writer t hw =>
    cases writerMove_of_writerStep hw with
    | drop =>
      simp only [System.drop, setWriter_claims, System.finishChunk]
      split <;> simp
    | finishFull =>
      simp only [System.finishChunk]
      split <;> simp
    | claimIndex => simp [System.claimIndex]
    | checkDistance =>
      simp only [System.checkDistance]
      split <;> simp
    | tryAcquireForWrite =>
      simp only [System.tryAcquireForWrite]
      split <;> simp
    | _ => simp [System.nextPiece, System.copyInto, System.overflowAcquire, System.overflowWrite]
  | startFlush => simp [System.startFlush]
  | flusher hf =>
    cases flusherMove_of_flusherStep hf with
    | tryRead =>
      simp only [System.tryRead]
      split <;> simp
    | _ => simp

theorem InOrder.step {s s' : System N} (hs : s.Sound) (h : s.InOrder) (hstep : Step s s')
    (hbound : s'.claims < 2 ^ 64) : s'.InOrder := by
  cases hstep with
  | writer t hw => exact h.writerMove hs (writerMove_of_writerStep hw) hbound
  | startFlush limit hf =>
    have hwrite : (s.startFlush limit).logger.writeIndex = s.logger.writeIndex := by
      simp only [System.startFlush]
      split <;> rfl
    have hread : (s.startFlush limit).logger.readIndex = s.logger.readIndex := by
      simp only [System.startFlush]
      split <;> rfl
    exact h.of_flusher hwrite hread rfl rfl rfl rfl rfl
      (by simp [System.startFlush, hf, FlusherPc.delivering]) (by simp [System.startFlush])
      (by simp [System.startFlush, FlusherPc.behind])
  | flusher hf => exact h.flusherMove hs (flusherMove_of_flusherStep hf) hbound

/-- While fewer than `2 ^ 64` indices have been claimed, every state some interleaving reaches
is `InOrder`. -/
theorem Reachable.inOrder {pieces : Nat → List (List Nat)} {s : System N}
    (hr : Reachable N pieces s) (hbound : s.claims < 2 ^ 64) : s.InOrder := by
  induction hr with
  | refl => exact inOrder_init pieces
  | tail hr₁ hstep ih =>
    exact (ih (lt_of_le_of_lt hstep.claims_le hbound)).step (Reachable.sound hr₁) hstep hbound

end System

/-- Any number of writers running `log`, interleaved in any way with the flushes: every chunk the
flusher passes to the sink is one a single writer finished, with exactly the bytes that writer
copied into it between acquiring it and finishing it; no chunk is passed twice; a writer holds a
chunk only when every chunk finished there has been read; and while fewer than `2 ^ 64` indices
have been claimed, so that the claim number of a chunk is its write index, the chunks are passed
in the order of their write indices, from the first, with none skipped. -/
theorem concurrent_log_delivers_whole_chunks (N : Nat) (pieces : Nat → List (List Nat))
    (s : System N) (hr : System.Reachable N pieces s) :
    (∀ ch ∈ s.delivered, ch ∈ s.finished) ∧ (s.delivered.map Chunk.ticket).Nodup ∧
      (∀ t c, (s.writers t).writer.currentChunk = some c →
        ∀ ch ∈ s.finished, ch.slot = c → ch ∈ s.delivered) ∧
      (s.claims < 2 ^ 64 → s.delivered.map Chunk.ticket = List.range s.delivered.length) := by
  have hs := System.Reachable.sound hr
  refine ⟨hs.delivered_sub, hs.delivered_tickets_nodup, fun t c hc => hs.holds_settled hc,
    fun hbound => ?_⟩
  have hdelivered := (System.Reachable.inOrder hr hbound).delivered_eq
  have hlen : s.delivered.length = s.readPos := by
    simpa using congrArg List.length hdelivered
  rw [hdelivered, hlen]

/-- Thread `0` logs the record `"hi"` and no other thread logs. -/
def hiPieces : Nat → List (List Nat) := fun t => if t = 0 then [[0x68, 0x69]] else []

/-- With a ring of three chunks, thread `0` writes `"hi"` into chunk `0` and drops its writer, and
a flush of one round passes the chunk to the sink. -/
theorem concurrent_log_delivers_whole_chunks_hi :
    ∃ s : System 3, System.Reachable 3 hiPieces s ∧ s.logger.sink = [[0x68, 0x69]] ∧
      s.delivered = [⟨0, 0, [0x68, 0x69]⟩] ∧
      ((∀ ch ∈ s.delivered, ch ∈ s.finished) ∧ (s.delivered.map Chunk.ticket).Nodup ∧
        (∀ t c, (s.writers t).writer.currentChunk = some c →
          ∀ ch ∈ s.finished, ch.slot = c → ch ∈ s.delivered) ∧
        (s.claims < 2 ^ 64 → s.delivered.map Chunk.ticket = List.range s.delivered.length)) := by
  obtain ⟨s, hr, hsink, hdelivered⟩ : ∃ s : System 3, System.Reachable 3 hiPieces s ∧
      s.logger.sink = [[0x68, 0x69]] ∧ s.delivered = [⟨0, 0, [0x68, 0x69]⟩] :=
    ⟨_, Relation.ReflTransGen.head (.writer 0 rfl) <| .head (.writer 0 rfl) <|
      .head (.writer 0 rfl) <| .head (.writer 0 rfl) <| .head (.writer 0 rfl) <|
      .head (.writer 0 rfl) <| .head (.startFlush 1 rfl) <| .head (.flusher rfl) <|
      .head (.flusher rfl) <| .head (.flusher rfl) <| .head (.flusher rfl) <|
      .head (.flusher rfl) <| .head (.flusher rfl) <| .refl, rfl, rfl⟩
  exact ⟨s, hr, hsink, hdelivered, concurrent_log_delivers_whole_chunks 3 hiPieces s hr⟩

end EndlessHole.Logger
