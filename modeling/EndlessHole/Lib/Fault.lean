import Mathlib.Data.Nat.Basic

/-!
# Computations that return an error or panic

Code of a systems language stops early in two ways: it returns an error value (`Err(e)`,
reached through `?` and `ensure!`), or it panics (`assert!`, `unwrap`, `expect`, an index out of
bounds, `unreachable!`). A model keeps the two apart. `Fault ε` is either `error e` or `panic`,
and a fallible step of a model is an `Except (Fault ε) α`.

* `Fault.assert c` and `Fault.ensure c e` are the two guards, and `Fault.expect` is `expect` on a
  `Result`.
* `Fault.bind_eq_ok` peels a successful `do` block apart one step at a time, and
  `Fault.bind_eq_error` says where a failing one stopped.
* `Fault.IsPanic` says that a computation panicked, whatever it would have returned, and
  `Fault.widen` carries the panic of a computation that returns no errors into one that does;
* `Fault.okOr` names what a concrete run returns, once `decide` has run it (`Fault.eq_ok_okOr`).
-/

/-- How a modelled computation stops early: with a returned error, or with a panic. -/
inductive Fault (ε : Type) where
  | error (e : ε)
  | panic
  deriving Repr, DecidableEq

namespace Fault

variable {ε α β : Type}

/-- `assert!(c)`: go on when `c` holds, panic otherwise. -/
def assert (c : Bool) : Except (Fault ε) Unit :=
  if c then .ok () else .error .panic

/-- `ensure!(c, e)`: go on when `c` holds, return the error `e` otherwise. -/
def ensure (c : Bool) (e : ε) : Except (Fault ε) Unit :=
  if c then .ok () else .error (.error e)

@[simp] theorem assert_true : (assert true : Except (Fault ε) Unit) = .ok () := rfl

@[simp] theorem assert_false : (assert false : Except (Fault ε) Unit) = .error .panic := rfl

@[simp] theorem ensure_true (e : ε) : ensure true e = .ok () := rfl

@[simp] theorem ensure_false (e : ε) : ensure false e = .error (.error e) := rfl

theorem assert_eq_ok {c : Bool} {u : Unit} :
    (assert c : Except (Fault ε) Unit) = .ok u ↔ c = true := by
  cases c <;> simp

theorem ensure_eq_ok {c : Bool} {e : ε} {u : Unit} :
    (ensure c e : Except (Fault ε) Unit) = .ok u ↔ c = true := by
  cases c <;> simp

theorem bind_eq_ok {γ : Type} {x : Except γ α} {f : α → Except γ β} {b : β} :
    x >>= f = .ok b ↔ ∃ a, x = .ok a ∧ f a = .ok b := by
  cases x <;> simp [bind, Except.bind]

theorem bind_eq_error {γ : Type} {x : Except γ α} {f : α → Except γ β} {g : γ} :
    x >>= f = .error g ↔ x = .error g ∨ ∃ a, x = .ok a ∧ f a = .error g := by
  cases x <;> simp [bind, Except.bind]

@[simp] theorem ok_bind {γ : Type} (a : α) (f : α → Except γ β) :
    (Except.ok a : Except γ α) >>= f = f a := rfl

@[simp] theorem error_bind {γ : Type} (g : γ) (f : α → Except γ β) :
    (Except.error g : Except γ α) >>= f = .error g := rfl

@[simp] theorem mapError_eq_ok {γ γ' : Type} {x : Except γ α} {f : γ → γ'} {a : α} :
    x.mapError f = .ok a ↔ x = .ok a := by
  cases x <;> simp [Except.mapError]

/-- The computation panicked. -/
def IsPanic (x : Except (Fault ε) α) : Prop :=
  x = .error .panic

instance (x : Except (Fault ε) α) : Decidable (IsPanic x) :=
  match x with
  | .error .panic => isTrue rfl
  | .error (.error _) => isFalse (by simp [IsPanic])
  | .ok _ => isFalse (by simp [IsPanic])

/-- A fault of a computation that returns no errors, in one that can: a panic. -/
def widen : Fault Empty → Fault ε
  | .error e => e.elim
  | .panic => .panic

/-- `expect` on a `Result`: an error is a panic. -/
def expect {γ : Type} (x : Except γ α) : Except (Fault ε) α :=
  x.mapError fun _ => .panic

@[simp] theorem expect_eq_ok {γ : Type} {x : Except γ α} {a : α} :
    (expect x : Except (Fault ε) α) = .ok a ↔ x = .ok a :=
  mapError_eq_ok

theorem isPanic_bind {x : Except (Fault ε) α} {f : α → Except (Fault ε) β}
    (h : IsPanic x) : IsPanic (x >>= f) := by
  rw [IsPanic] at h ⊢
  rw [h]
  rfl

/-- The value a computation returns, or `d` when it stops early: the name of the state after a
concrete run. -/
def okOr {γ : Type} (x : Except γ α) (d : α) : α :=
  match x with
  | .ok a => a
  | .error _ => d

/-- A computation that returns, as `decide` sees by running it, returns its `okOr`. -/
theorem eq_ok_okOr {γ : Type} {x : Except γ α} (d : α) (h : x.toBool = true) :
    x = .ok (okOr x d) := by
  cases x with
  | ok a => rfl
  | error e => cases h

end Fault
