import Mathlib.Data.List.Basic

/-! # Condition variables

The threads at a condition variable: those blocked on it, in the order they came, and those a signal or a
spurious wakeup has released and that have not got the mutex back yet. A signal releases one blocked
thread, any of them, and none if none is blocked. -/

namespace DataSync.Lib.Conditions

variable {τ : Type}

/-- A condition variable. -/
structure Condition (τ : Type) where
  blocked : List τ
  released : List τ
  deriving DecidableEq, Repr

namespace Condition

/-- Nobody waits. -/
def idle : Condition τ := ⟨[], []⟩

/-- The thread gives the mutex up and blocks. -/
def sleep (c : Condition τ) (t : τ) : Condition τ := { c with blocked := c.blocked ++ [t] }

/-- The thread a signal releases, for each choice the system has. -/
def picked (c : Condition τ) (choice : ℕ) : Option τ := c.blocked[choice % c.blocked.length]?

theorem mem_blocked_sleep {c : Condition τ} {t u : τ} :
    u ∈ (c.sleep t).blocked ↔ u ∈ c.blocked ∨ u = t := by
  simp [sleep]

/-- A signal with a blocked thread picks one. -/
theorem exists_picked {c : Condition τ} {t : τ} (h : t ∈ c.blocked) (choice : ℕ) :
    ∃ u, c.picked choice = some u := by
  have hlen : 0 < c.blocked.length := List.length_pos_of_mem h
  exact ⟨_, List.getElem?_eq_getElem (Nat.mod_lt choice hlen)⟩

variable [DecidableEq τ]

/-- The thread is not at the condition. -/
def Outside (c : Condition τ) (t : τ) : Prop := t ∉ c.blocked ∧ t ∉ c.released

instance (c : Condition τ) (t : τ) : Decidable (c.Outside t) :=
  inferInstanceAs (Decidable (t ∉ c.blocked ∧ t ∉ c.released))

/-- The thread is released. -/
def release (c : Condition τ) (t : τ) : Condition τ :=
  ⟨c.blocked.filter (· ≠ t), c.released ++ [t]⟩

/-- The thread has the mutex again and leaves. -/
def leave (c : Condition τ) (t : τ) : Condition τ :=
  { c with released := c.released.filter (· ≠ t) }

/-- A signal. -/
def wakeup (c : Condition τ) (choice : ℕ) : Condition τ :=
  match c.picked choice with
  | none => c
  | some t => c.release t

theorem mem_blocked_release {c : Condition τ} {t u : τ} :
    u ∈ (c.release t).blocked ↔ u ∈ c.blocked ∧ u ≠ t := by
  simp [release]

/-- Behind a signal the blocked threads are the ones it did not pick. -/
theorem mem_blocked_wakeup {c : Condition τ} {choice : ℕ} {u : τ} :
    u ∈ (c.wakeup choice).blocked ↔ u ∈ c.blocked ∧ c.picked choice ≠ some u := by
  unfold wakeup
  cases hp : c.picked choice with
  | none => simp
  | some t =>
    rw [mem_blocked_release]
    simp [eq_comm]

end Condition

end DataSync.Lib.Conditions
