import DataSync.Lib.Conditions
import DataSync.Queue.HandOff

/-! # Two deques on one pair of conditions

`CProcessMqData` keeps its messages in `m_data` and `m_exception_data`. `ProductData`, `ConsumerData`,
`ProductExceptionData` and `ConsumerExceptionData` lock one mutex and use one pair of conditions:
producers of a full deque sleep on `full`, the consumer of an empty one sleeps on `empty`. Each function
ends with one signal, a producer's on `empty`, a consumer's on `full`, whatever it has done before. One
thread consumes each deque (`threadProcess`, `threadProcessException`); any number of threads produce.

A step is one critical section, cut at the wait. Which blocked thread a signal releases is part of the
step, and a blocked thread may wake without a signal.

`noLostWakeup_iff`: along a run no consumer is left blocked with a message in its deque, if and only if no
message is pushed to the deque of a blocked consumer with a signal that the other consumer gets. -/

namespace DataSync.Queue.SharedCondition

open DataSync.Lib.Memory DataSync.Lib.Runs DataSync.Lib.Conditions DataSync.Queue.HandOff

variable {α : Type}

/-- `m_data` and `m_exception_data`. -/
inductive Deque where
  | data | exceptionData
  deriving DecidableEq, Repr

/-- The other deque. -/
def Deque.other : Deque → Deque
  | .data => .exceptionData
  | .exceptionData => .data

theorem Deque.eq_or_eq_other (q r : Deque) : r = q ∨ r = q.other := by
  cases q <;> cases r <;> decide

theorem Deque.other_ne (q : Deque) : q.other ≠ q := by
  cases q <;> decide

/-- The deques, what was taken from them, and the threads at the conditions. The consumers are named by
their deques, and only they sleep on `empty`; only producers sleep on `full`. -/
structure State (α : Type) where
  deque : Deque → List α
  consumed : Deque → List α
  empty : Condition Deque
  full : Condition ℕ

/-- Both deques are empty and no thread has called. -/
def State.initial : State α := ⟨fun _ => [], fun _ => [], .idle, .idle⟩

/-- `push_back`. -/
def State.push (s : State α) (q : Deque) (item : α) : State α :=
  { s with deque := Function.update s.deque q (s.deque q ++ [item]) }

/-- `front` and `pop_front`, if the deque is not empty. -/
def State.pop (s : State α) (q : Deque) : State α :=
  { s with deque := Function.update s.deque q (s.deque q).tail
           consumed := Function.update s.consumed q (s.consumed q ++ (s.deque q).head?.toList) }

/-- Who moves: a thread calls a producer or the consumer of deque `q`, a released thread gets the mutex
back, or a blocked one wakes spuriously. `choice` settles the signal that the critical section sends. -/
inductive Move (α : Type) where
  | product (q : Deque) (t : ℕ) (item : α) (choice : ℕ)
  | productResumes (t : ℕ) (choice : ℕ)
  | productSpurious (t : ℕ)
  | consumer (q : Deque) (choice : ℕ)
  | consumerResumes (q : Deque) (choice : ℕ)
  | consumerSpurious (q : Deque)

/-- One critical section; a move of a thread that stands elsewhere does nothing. A producer that has slept
does not push. -/
def step (s : State α) : Move α → Res (State α)
  | .product q t item choice =>
    if s.full.Outside t then
      if capacity .mqData ≤ (s.deque q).length then .ok { s with full := s.full.sleep t }
      else .ok { s.push q item with empty := s.empty.wakeup choice }
    else .ok s
  | .productResumes t choice =>
    if t ∈ s.full.released then
      .ok { s with full := s.full.leave t, empty := s.empty.wakeup choice }
    else .ok s
  | .productSpurious t =>
    if t ∈ s.full.blocked then .ok { s with full := s.full.release t } else .ok s
  | .consumer q choice =>
    if s.empty.Outside q then
      if (s.deque q).length = 0 then .ok { s with empty := s.empty.sleep q }
      else .ok { s.pop q with full := s.full.wakeup choice }
    else .ok s
  | .consumerResumes q choice =>
    if q ∈ s.empty.released then
      .ok { s.pop q with empty := s.empty.leave q, full := s.full.wakeup choice }
    else .ok s
  | .consumerSpurious q =>
    if q ∈ s.empty.blocked then .ok { s with empty := s.empty.release q } else .ok s

/-- The consumer of a deque that is not empty is not blocked: it runs, or it was released. -/
def NoLostWakeup (s : State α) : Prop := ∀ q, s.deque q ≠ [] → q ∉ s.empty.blocked

/-- A message is pushed for a blocked consumer and the signal goes to the other one. -/
def SignalToOther (s : State α) : Move α → Prop
  | .product q t _ choice =>
    s.full.Outside t ∧ q ∈ s.empty.blocked ∧ s.empty.picked choice = some q.other
  | _ => False

/-! ### One critical section -/

/-- A step that only shrinks the deques and the threads blocked on `empty` keeps the property. -/
theorem NoLostWakeup.of_subset {s s' : State α} (h : NoLostWakeup s)
    (hd : ∀ q, s'.deque q ≠ [] → s.deque q ≠ [])
    (hb : ∀ q, q ∈ s'.empty.blocked → q ∈ s.empty.blocked) : NoLostWakeup s' :=
  fun q hq hblocked => h q (hd q hq) (hb q hblocked)

theorem deque_pop_ne {s : State α} {q r : Deque} (h : (s.pop q).deque r ≠ []) : s.deque r ≠ [] := by
  intro hr
  apply h
  by_cases hqr : r = q
  · subst hqr
    simp [State.pop, hr]
  · simp [State.pop, Function.update_of_ne hqr, hr]

/-- The deque of a blocked consumer is empty. -/
theorem NoLostWakeup.deque_nil {s : State α} (h : NoLostWakeup s) {q : Deque}
    (hq : q ∈ s.empty.blocked) : s.deque q = [] := by
  by_contra hne
  exact h q hne hq

/-- Every other step keeps the property. -/
theorem step_noLostWakeup (s : State α) (m : Move α) (h : NoLostWakeup s) (hm : ¬ SignalToOther s m) :
    ∃ s', step s m = .ok s' ∧ NoLostWakeup s' := by
  have hwake : ∀ choice q, q ∈ (s.empty.wakeup choice).blocked → q ∈ s.empty.blocked :=
    fun choice q hq => (Condition.mem_blocked_wakeup.mp hq).1
  cases m with
  | product q t item choice =>
    by_cases ht : s.full.Outside t
    · by_cases hfull : capacity .mqData ≤ (s.deque q).length
      · exact ⟨{ s with full := s.full.sleep t }, by simp [step, ht, hfull],
          h.of_subset (fun _ hr => hr) fun _ hr => hr⟩
      · refine ⟨{ s.push q item with empty := s.empty.wakeup choice },
          by simp [step, ht, hfull], fun r hr hblocked => ?_⟩
        obtain ⟨hmem, hpick⟩ := Condition.mem_blocked_wakeup.mp hblocked
        by_cases hrq : r = q
        · -- the consumer of the pushed deque was blocked, and the signal had to go somewhere
          subst hrq
          obtain ⟨u, hu⟩ := Condition.exists_picked hmem choice
          rcases Deque.eq_or_eq_other r u with rfl | rfl
          · exact hpick hu
          · exact hm ⟨ht, hmem, hu⟩
        · have hsame : (s.push q item).deque r = s.deque r := by
            simp [State.push, Function.update_of_ne hrq]
          exact h r (hsame ▸ hr) hmem
    · exact ⟨s, by simp [step, ht], h⟩
  | productResumes t choice =>
    by_cases ht : t ∈ s.full.released
    · exact ⟨{ s with full := s.full.leave t, empty := s.empty.wakeup choice }, by simp [step, ht],
        h.of_subset (fun _ hr => hr) (hwake choice)⟩
    · exact ⟨s, by simp [step, ht], h⟩
  | productSpurious t =>
    by_cases ht : t ∈ s.full.blocked
    · exact ⟨{ s with full := s.full.release t }, by simp [step, ht],
        h.of_subset (fun _ hr => hr) fun _ hr => hr⟩
    · exact ⟨s, by simp [step, ht], h⟩
  | consumer q choice =>
    by_cases hq : s.empty.Outside q
    · by_cases hd : s.deque q = []
      · refine ⟨{ s with empty := s.empty.sleep q }, by simp [step, hq, hd], fun r hr hblocked => ?_⟩
        rcases Condition.mem_blocked_sleep.mp hblocked with hmem | rfl
        · exact h r hr hmem
        · exact hr hd
      · exact ⟨{ s.pop q with full := s.full.wakeup choice }, by simp [step, hq, hd],
          h.of_subset (fun _ hr => deque_pop_ne hr) fun _ hr => hr⟩
    · exact ⟨s, by simp [step, hq], h⟩
  | consumerResumes q choice =>
    by_cases hq : q ∈ s.empty.released
    · exact ⟨{ s.pop q with empty := s.empty.leave q, full := s.full.wakeup choice },
        by simp [step, hq], h.of_subset (fun _ hr => deque_pop_ne hr) fun _ hr => hr⟩
    · exact ⟨s, by simp [step, hq], h⟩
  | consumerSpurious q =>
    by_cases hq : q ∈ s.empty.blocked
    · exact ⟨{ s with empty := s.empty.release q }, by simp [step, hq],
        h.of_subset (fun _ hr => hr) fun _ hr => (Condition.mem_blocked_release.mp hr).1⟩
    · exact ⟨s, by simp [step, hq], h⟩

/-- A signal that the other consumer gets leaves a message behind. -/
theorem signalToOther_loses (s : State α) (m : Move α) (s' : State α) (h : NoLostWakeup s)
    (hm : SignalToOther s m) (hs : step s m = .ok s') : ¬ NoLostWakeup s' := by
  cases m with
  | product q t item choice =>
    obtain ⟨ht, hblocked, hpick⟩ := hm
    have hnil : s.deque q = [] := h.deque_nil hblocked
    have hroom : ¬ capacity .mqData ≤ (s.deque q).length := by
      simp [hnil, capacity]
    simp only [step, ht, if_true, hroom, if_false, Except.ok.injEq] at hs
    subst hs
    intro h'
    have hstill : q ∈ (s.empty.wakeup choice).blocked := by
      refine Condition.mem_blocked_wakeup.mpr ⟨hblocked, ?_⟩
      rw [hpick]
      exact fun he => q.other_ne (Option.some.inj he)
    exact h' q (by simp [State.push]) hstill
  | productResumes _ _ | productSpurious _ | consumer _ _ | consumerResumes _ _ | consumerSpurious _ =>
    exact absurd hm (by simp [SignalToOther])

/-! ### Whole runs -/

/-- **No wakeup is lost, exactly when** no message is pushed for a blocked consumer with a signal that the
other consumer gets. -/
theorem noLostWakeup_iff (moves : List (Move α)) :
    Throughout step NoLostWakeup State.initial moves ↔
      Avoids step SignalToOther State.initial moves :=
  throughout_iff_avoids step_noLostWakeup signalToOther_loses fun _ h => absurd rfl h

/-- Both consumers sleep; a message comes for `m_data`, and the signal goes to the other consumer. -/
def absorbed : List (Move ℕ) :=
  [.consumer .data 0, .consumer .exceptionData 0, .product .data 0 7 1]

/-- The message sits in `m_data`, and its consumer stays blocked. -/
theorem absorbed_loses : ¬ Throughout step NoLostWakeup State.initial absorbed := by
  intro h
  obtain ⟨s, hs, hP⟩ := h absorbed (List.prefix_refl _)
  obtain rfl : _ = s := Except.ok.inj hs
  exact hP .data (by decide) (by decide)

end DataSync.Queue.SharedCondition
