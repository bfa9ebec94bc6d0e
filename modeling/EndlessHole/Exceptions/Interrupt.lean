import EndlessHole.Process.Scheduler

/-!
# The interrupt handler

`Handler::process_interrupts` of `kernel_core/src/exceptions/interrupt/handler.rs`: acknowledge
interrupts one at a time until the controller has none left. The timer's interrupt starts the
next time slice of the scheduler, resets the timer and is finished; any other interrupt ends the
loop with `UnknownInterrupt`, acknowledged but not finished.

The controller and the timer are traits; the model keeps what the handler does to them: the
interrupts the controller will acknowledge, in order, those finished, and the number of timer
resets. The scheduler is any state with a `next_time_slice`, which may panic.

* `processInterrupts_timer_append`: the timer interrupts at the front are finished, each after
  one time slice;
* `processInterrupts_threads_perm`: with the round-robin scheduler, a run of the handler keeps the
  threads of the CPU, current and queued, whatever the interrupts;
* `process_interrupts_handles_timer_interrupts` puts the two together into what a run does on
  any interrupts.
-/

namespace EndlessHole.Exceptions

/-- `interrupt::TriggerMode`. -/
inductive TriggerMode where
  | level
  | edge
  deriving DecidableEq, Repr

/-- `interrupt::Config`: the priority of an interrupt, and how it is triggered. -/
structure Config where
  priority : Nat
  mode : TriggerMode
  deriving DecidableEq, Repr

/-- `handler::Error`. -/
inductive HandlerError where
  | unknownInterrupt (id : Nat)
  deriving DecidableEq, Repr

/-- The devices as the handler sees them, and the scheduler. -/
structure Handler (σ : Type) where
  pending : List Nat
  finished : List Nat
  timerResets : Nat
  scheduler : σ

namespace Handler

variable {σ : Type} (timerId : Nat) (nextTimeSlice : σ → Except (Fault Empty) σ)

/-- `Handler::process_interrupts` over the interrupts `pending`. -/
def processInterrupts (finished : List Nat) (timerResets : Nat) (scheduler : σ) :
    List Nat → Except (Fault Empty) (Except HandlerError Unit × Handler σ)
  | [] => .ok (.ok (), ⟨[], finished, timerResets, scheduler⟩)
  | intId :: rest =>
    if intId = timerId then do
      let scheduler ← nextTimeSlice scheduler
      processInterrupts (finished ++ [intId]) (timerResets + 1) scheduler rest
    else .ok (.error (.unknownInterrupt intId), ⟨rest, finished, timerResets, scheduler⟩)

/-- `next_time_slice` `n` times. -/
def timeSlices : Nat → σ → Except (Fault Empty) σ
  | 0, s => .ok s
  | n + 1, s => nextTimeSlice s >>= timeSlices n

variable {timerId nextTimeSlice}

/-- Timer interrupts at the front of the queue are finished one by one, each after a time slice;
the run goes on from the scheduler after them. -/
theorem processInterrupts_timer_append (k : Nat) (finished : List Nat) (timerResets : Nat)
    (scheduler : σ) (rest : List Nat) :
    processInterrupts timerId nextTimeSlice finished timerResets scheduler
        (List.replicate k timerId ++ rest) =
      timeSlices nextTimeSlice k scheduler >>= fun s =>
        processInterrupts timerId nextTimeSlice (finished ++ List.replicate k timerId)
          (timerResets + k) s rest := by
  induction k generalizing finished timerResets scheduler with
  | zero => simp [timeSlices]
  | succ k ih =>
    rw [List.replicate_succ, List.cons_append, processInterrupts, if_pos rfl, timeSlices]
    cases nextTimeSlice scheduler with
    | error e => rfl
    | ok s =>
      rw [Fault.ok_bind, Fault.ok_bind, ih]
      simp only [List.append_assoc, List.singleton_append, Nat.add_assoc, Nat.add_comm 1 k]

end Handler

/-! ## With the round-robin scheduler -/

open Process

variable {τ : Type} (state : τ → Except (Fault Empty) Process.State) (cpu timerId : Nat)

/-- The threads of CPU `cpu`: its current thread, then its queue. -/
def cpuThreads (s : RoundRobinScheduler τ) : Option (List τ) :=
  match s.currentThreads cpu, s.queues cpu with
  | some current, some queue => some (current :: queue)
  | _, _ => none

variable {state cpu timerId}

theorem cpuThreads_perm_of_nextTimeSlice {s s' : RoundRobinScheduler τ} {threads : List τ}
    (hthreads : cpuThreads cpu s = some threads) (h : s.nextTimeSlice state cpu = .ok s') :
    ∃ threads', cpuThreads cpu s' = some threads' ∧ threads'.Perm threads := by
  unfold cpuThreads at hthreads
  split at hthreads
  · rename_i current queue hcurrent hqueue
    cases hthreads
    obtain ⟨queue', current', hqueue', hcurrent', hperm⟩ :=
      RoundRobinScheduler.nextTimeSlice_perm hqueue hcurrent h
    exact ⟨current' :: queue', by simp [cpuThreads, hqueue', hcurrent'], hperm⟩
  · cases hthreads

/-- Whatever the interrupts, a run of the handler on CPU `cpu` that does not panic keeps the
threads of the CPU: no time slice loses or duplicates a thread. -/
theorem processInterrupts_threads_perm {pending finished : List Nat} {timerResets : Nat}
    {s : RoundRobinScheduler τ} {threads : List τ} {r : Except HandlerError Unit}
    {h : Handler (RoundRobinScheduler τ)} (hthreads : cpuThreads cpu s = some threads)
    (hrun : Handler.processInterrupts timerId (fun s => s.nextTimeSlice state cpu) finished
      timerResets s pending = .ok (r, h)) :
    ∃ threads', cpuThreads cpu h.scheduler = some threads' ∧ threads'.Perm threads := by
  induction pending generalizing finished timerResets s threads with
  | nil =>
    rw [Handler.processInterrupts] at hrun
    cases hrun
    exact ⟨threads, hthreads, List.Perm.refl _⟩
  | cons intId rest ih =>
    rw [Handler.processInterrupts] at hrun
    split at hrun
    · -- the timer's interrupt: one time slice, then the rest of the run
      obtain ⟨s', hslice, hrest⟩ := Fault.bind_eq_ok.1 hrun
      obtain ⟨threads₁, hthreads₁, hperm₁⟩ := cpuThreads_perm_of_nextTimeSlice hthreads hslice
      obtain ⟨threads', hthreads', hperm'⟩ := ih hthreads₁ hrest
      exact ⟨threads', hthreads', hperm'.trans hperm₁⟩
    · cases hrun
      exact ⟨threads, hthreads, List.Perm.refl _⟩

variable (state cpu timerId) in
/-- `process_interrupts` with the round-robin scheduler on CPU `cpu`, on any interrupts: those of
the timer at the front are finished one by one, each after a time slice and a reset of the
timer; the next interrupt, if there is one, ends the loop with `UnknownInterrupt`, acknowledged
but not finished, the interrupts after it left pending, and otherwise the loop ends with `Ok`.
A run that does not panic keeps the threads of the CPU. -/
theorem process_interrupts_handles_timer_interrupts (s : RoundRobinScheduler τ) :
    (∀ k, Handler.processInterrupts timerId (fun s => s.nextTimeSlice state cpu) [] 0 s
        (List.replicate k timerId) =
      Handler.timeSlices (fun s => s.nextTimeSlice state cpu) k s >>= fun s' =>
        .ok (.ok (), ⟨[], List.replicate k timerId, k, s'⟩)) ∧
    (∀ k intId rest, intId ≠ timerId →
      Handler.processInterrupts timerId (fun s => s.nextTimeSlice state cpu) [] 0 s
          (List.replicate k timerId ++ intId :: rest) =
        Handler.timeSlices (fun s => s.nextTimeSlice state cpu) k s >>= fun s' =>
          .ok (.error (.unknownInterrupt intId), ⟨rest, List.replicate k timerId, k, s'⟩)) ∧
    ∀ pending threads r h, cpuThreads cpu s = some threads →
      Handler.processInterrupts timerId (fun s => s.nextTimeSlice state cpu) [] 0 s pending =
        .ok (r, h) →
      ∃ threads', cpuThreads cpu h.scheduler = some threads' ∧ threads'.Perm threads := by
  refine ⟨fun k => ?_, fun k intId rest hid => ?_, fun _ _ _ _ hthreads hrun =>
    processInterrupts_threads_perm hthreads hrun⟩
  · have hrun := @Handler.processInterrupts_timer_append _ timerId
      (fun s => s.nextTimeSlice state cpu) k [] 0 s []
    rw [List.append_nil, List.nil_append, Nat.zero_add] at hrun
    rw [hrun]
    rfl
  · have hrun := @Handler.processInterrupts_timer_append _ timerId
      (fun s => s.nextTimeSlice state cpu) k [] 0 s (intId :: rest)
    rw [List.nil_append, Nat.zero_add] at hrun
    rw [hrun]
    congr 1
    funext s'
    rw [Handler.processInterrupts, if_neg hid]

/-- One CPU with the idle thread `0` current and thread `1`, running, queued: two timer
interrupts and then interrupt `7`. -/
theorem process_interrupts_handles_timer_interrupts_sample :
    let s : RoundRobinScheduler Nat := ⟨fun _ => some [1], fun _ => some 0⟩
    let state : Nat → Except (Fault Empty) Process.State := fun _ => .ok .running
    (7 : Nat) ≠ 30 ∧
    Handler.processInterrupts 30 (fun s => s.nextTimeSlice state 0) [] 0 s
        (List.replicate 2 30 ++ [7]) =
      Handler.timeSlices (fun s => s.nextTimeSlice state 0) 2 s >>= (fun s' =>
        .ok (.error (.unknownInterrupt 7), ⟨[], List.replicate 2 30, 2, s'⟩)) := by
  intro s state
  exact ⟨by decide, (process_interrupts_handles_timer_interrupts state 0 30 s).2.1 2 7 [] (by decide)⟩

end EndlessHole.Exceptions
