import EndlessHole.Lib.Bitfield

/-!
# Threads and their state

`Thread` of `kernel_core/src/process/thread/mod.rs` keeps its state in an `AtomicU64` of
properties, read and written as the `bitfield!` struct `ThreadProperties(u64)`. Its one field is
declared `u8, from into State, state, set_state: 8, 0`: the bits `8` down to `0`, nine of them,
read into a `u8`.

Whether the getter works depends on the build. `checks` is `true` for a build with overflow
checks, such as the debug profile the repository's `justfile` builds with and `cargo test` uses,
and `false` for one without, such as a release build.

* `ThreadProperties.new_eq`: `Thread::new` stores the state's discriminant in the word, in
  either build;
* `ThreadProperties.state_panics`: with overflow checks, reading the state panics, whatever the
  word holds: the getter computes `8 - 9`;
* `ThreadProperties.state_of_wrapping`: without them, the getter reads bit `0`, so it never
  panics (`Thread.state_of_wrapping`), and a thread reads back the state it was made with
  (`Thread.releaseState_new`).
-/

namespace EndlessHole.Process

/-- `thread::State`. -/
inductive State where
  | running
  | blocked
  deriving DecidableEq, Repr

/-- `u8::from(State)`: the discriminant. -/
def State.intoInteger : State → Nat
  | .running => 0
  | .blocked => 1

/-- `State::from(u8)`: `State::from_integer(value).expect("valid thread state")`. -/
def State.ofU8 : Nat → Except (Fault Empty) State
  | 0 => .ok .running
  | 1 => .ok .blocked
  | _ => .error .panic

namespace ThreadProperties

variable (checks : Bool)

/-- `ThreadProperties::new`: `set_state` on a word of zeros. -/
def new (state : State) : Except (Fault Empty) Nat :=
  Bitfield.setBitRange checks 64 0 8 0 state.intoInteger

/-- The getter `state` that `bitfield!` generates for the field `u8, from into State, state,
set_state: 8, 0`. -/
def state (props : Nat) : Except (Fault Empty) State := do
  State.ofU8 (← Bitfield.bitRange checks 64 8 props 8 0)

variable {checks}

theorem new_eq (st : State) : new checks st = .ok st.intoInteger := by
  cases checks <;> cases st <;> rfl

theorem state_panics (props : Nat) : state true props = .error .panic := by
  rw [state, Bitfield.bitRange_panics_of_wide (by decide) (by decide) (by decide) (by decide)]
  rfl

/-- Without overflow checks the value is cleared above bit `0`: `8 - 9` wraps to `2 ^ 64 - 1`,
and a shift of a `u8` by it shifts by `7`. -/
theorem state_of_wrapping (props : Nat) :
    state false props = State.ofU8 (props % 2) := by
  have hfield : props * 2 ^ 55 % 2 ^ 64 / 2 ^ 55 % 2 ^ 8 = props % 2 ^ 8 := by
    rw [show (2 : Nat) ^ 64 = 2 ^ 9 * 2 ^ 55 from rfl, Nat.mul_mod_mul_right,
      Nat.mul_div_cancel _ (Nat.two_pow_pos 55), Nat.mod_mod_of_dvd _ (by decide)]
  have hclear : (props % 2 ^ 8) * 2 ^ 7 % 2 ^ 8 / 2 ^ 7 = props % 2 := by
    rw [show (2 : Nat) ^ 8 = 2 * 2 ^ 7 from rfl, Nat.mul_mod_mul_right,
      Nat.mul_div_cancel _ (Nat.two_pow_pos 7), Nat.mod_mod_of_dvd _ (by decide)]
  simp only [state, Bitfield.bitRange, Checked.sub_of_le (show 8 ≤ 64 by decide),
    Checked.sub_of_le (show 1 ≤ 64 - 8 by decide),
    Checked.add_of_lt (show 64 - 8 - 1 + 0 < 2 ^ 64 by decide),
    Checked.shl_of_lt (show 64 - 8 - 1 < 64 by decide),
    Checked.shr_of_lt (show 64 - 8 - 1 + 0 < 64 by decide), Checked.sub_of_le (show 0 ≤ 8 by decide),
    Checked.add_of_lt (show 8 - 0 + 1 < 2 ^ 64 by decide),
    Checked.sub_wraps (show 8 < 8 - 0 + 1 by decide), Fault.ok_bind]
  -- `8 - 9` has wrapped to `2 ^ 64 - 1`: both shifts of the `u8` go by `7`
  rw [Checked.shl_wraps (by decide), Fault.ok_bind, Checked.shr_wraps (by decide), Fault.ok_bind,
    show (8 + 2 ^ 64 - (8 - 0 + 1)) % 8 = 7 from rfl, show 64 - 8 - 1 + 0 = 55 from rfl,
    show 64 - 8 - 1 = 55 from rfl, hfield, hclear]

end ThreadProperties

/-- `Thread`: its id and its word of properties. -/
structure Thread where
  id : Nat
  properties : Nat
  deriving DecidableEq, Repr

namespace Thread

variable (checks : Bool)

/-- `Thread::new`, once the store has handed out the id. -/
def new (id : Nat) (initialState : State) : Except (Fault Empty) Thread := do
  pure ⟨id, ← ThreadProperties.new checks initialState⟩

/-- `Thread::state`: load the word of properties and read the state from it. -/
def state (t : Thread) : Except (Fault Empty) State :=
  ThreadProperties.state checks t.properties

/-- The state that a build without overflow checks reads from a thread: bit `0` of its word. -/
def releaseState (t : Thread) : State :=
  if t.properties % 2 = 0 then .running else .blocked

theorem state_of_wrapping (t : Thread) : state false t = .ok t.releaseState := by
  rw [state, ThreadProperties.state_of_wrapping, releaseState]
  rcases Nat.mod_two_eq_zero_or_one t.properties with h | h <;> rw [h] <;> rfl

theorem new_eq {id : Nat} {st : State} : new checks id st = .ok ⟨id, st.intoInteger⟩ := by
  rw [new, ThreadProperties.new_eq]
  rfl

theorem releaseState_new {id : Nat} {st : State} : releaseState ⟨id, st.intoInteger⟩ = st := by
  cases st <;> rfl

end Thread

end EndlessHole.Process
