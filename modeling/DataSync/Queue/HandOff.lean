import DataSync.Lib.Runs

/-! # The bounded hand-off queues

`productRowData`/`consumerRowData`, `CUpdateDbThread::ProductData`/`ConsumerData`, the
`ProductDataGenerate` family and the `Product…`/`Consumer…` pairs of `CProcessMqData` are one algorithm:
under a mutex a producer of a full queue waits for the condition `full` and otherwise pushes, a consumer
of an empty queue waits for the condition `empty` and then takes the front. A step is one critical
section, cut at the wait. A thread may wake from its wait at any time: both condition variables admit
spurious wakeups, and several queues share one pair.

`returned_eq_iff`: the items of the producers that have returned are the consumed ones followed by the
queued ones, in every state of a run, if and only if no producer returns from a wait and no consumer of
`consumerRowData` wakes to an empty queue. -/

namespace DataSync.Queue.HandOff

open DataSync.Lib.Memory DataSync.Lib.Runs

/-- The queues. -/
inductive QueueName where
  | rowData | updateDb | generateVec | generateHead | generate | mqData | mqException | mqRaw
  deriving DecidableEq, Repr

/-- `ROWS_DATA_MAX_SIZE` and `MAX_QUEUE_DATA`. -/
def capacity : QueueName → ℕ
  | .rowData => 256
  | _ => 1000

/-- The consumer tests the queue again behind its wait. `consumerRowData` does not. -/
def testsAgain : QueueName → Bool
  | .rowData => false
  | _ => true

variable {α : Type}

/-- Where a thread stands: outside of the queue's functions, or in one of the two waits. -/
inductive Thread (α : Type) where
  | outside
  | waitFull (item : α)
  | waitEmpty

/-- The queue, the threads, the items of the producers that have returned in the order of their last
critical sections, and the items the consumers have taken. -/
structure State (α : Type) where
  deque : List α
  threads : ℕ → Thread α
  returned : List α
  consumed : List α

/-- An empty queue. -/
def State.initial : State α := ⟨[], fun _ => .outside, [], []⟩

/-- Who moves: thread `t` calls the producer or the consumer, or wakes from its wait. -/
inductive Move (α : Type) where
  | product (t : ℕ) (item : α)
  | consumer (t : ℕ)
  | wake (t : ℕ)

/-- The tail of a consumer's critical section on a queue with a front. -/
def takeFront (s : State α) (t : ℕ) (x : α) (deque : List α) : State α :=
  { s with deque := deque, threads := Function.update s.threads t .outside,
           consumed := s.consumed ++ [x] }

/-- One critical section; a move of a thread that stands elsewhere does nothing. A producer that wakes
returns without pushing its item. Behind an untested wait the front of an empty deque is taken. -/
def step (q : QueueName) (s : State α) : Move α → Res (State α)
  | .product t item =>
    match s.threads t with
    | .outside =>
      if capacity q ≤ s.deque.length then
        .ok { s with threads := Function.update s.threads t (.waitFull item) }
      else .ok { s with deque := s.deque ++ [item], returned := s.returned ++ [item] }
    | _ => .ok s
  | .consumer t =>
    match s.threads t with
    | .outside =>
      match s.deque with
      | [] => .ok { s with threads := Function.update s.threads t .waitEmpty }
      | x :: deque => .ok (takeFront s t x deque)
    | _ => .ok s
  | .wake t =>
    match s.threads t with
    | .outside => .ok s
    | .waitFull item =>
      .ok { s with threads := Function.update s.threads t .outside
                   returned := s.returned ++ [item] }
    | .waitEmpty =>
      match s.deque with
      | [] =>
        if testsAgain q then .ok { s with threads := Function.update s.threads t .outside }
        else .error .fault
      | x :: deque => .ok (takeFront s t x deque)

/-- A critical section adds one item at most. -/
theorem length_step {q : QueueName} {s s' : State α} {m : Move α} (h : step q s m = .ok s') :
    s'.deque.length ≤ s.deque.length + 1 := by
  have hfront : ∀ {t x deque}, s.deque = x :: deque →
      (takeFront s t x deque).deque.length ≤ s.deque.length + 1 := by
    intro t x deque hd
    rw [hd]
    exact Nat.le_add_right _ 2
  cases m with
  | product t item =>
    simp only [step] at h
    split at h
    · split_ifs at h <;> cases h <;> simp
    · cases h
      exact Nat.le_succ _
  | consumer t =>
    simp only [step] at h
    split at h
    · split at h
      · cases h
        exact Nat.le_succ _
      · next hd =>
        cases h
        exact hfront hd
    · cases h
      exact Nat.le_succ _
  | wake t =>
    simp only [step] at h
    split at h
    · cases h
      exact Nat.le_succ _
    · cases h
      exact Nat.le_succ _
    · split at h
      · split_ifs at h
        cases h
        exact Nat.le_succ _
      · next hd =>
        cases h
        exact hfront hd

/-- Nothing is lost: the returned items are the consumed ones followed by the queued ones. -/
def NothingLost (s : State α) : Prop := s.returned = s.consumed ++ s.deque

instance [DecidableEq α] : DecidablePred (NothingLost (α := α)) := fun s =>
  inferInstanceAs (Decidable (s.returned = s.consumed ++ s.deque))

/-- The move is the return of a producer from its wait, or the wakeup of a consumer that does not test
the queue again to an empty queue. -/
def BadWakeup (q : QueueName) (s : State α) : Move α → Prop
  | .wake t =>
    match s.threads t with
    | .outside => False
    | .waitFull _ => True
    | .waitEmpty => s.deque = [] ∧ testsAgain q = false
  | _ => False

theorem nothingLost_takeFront {s : State α} {t : ℕ} {x : α} {deque : List α}
    (h : NothingLost s) (hd : s.deque = x :: deque) : NothingLost (takeFront s t x deque) := by
  unfold NothingLost at h ⊢
  simp [takeFront, h, hd]

/-- Every other move keeps the items together. -/
theorem step_nothingLost (q : QueueName) (s : State α) (m : Move α) (h : NothingLost s)
    (hm : ¬ BadWakeup q s m) : ∃ t, step q s m = .ok t ∧ NothingLost t := by
  cases m with
  | product t item =>
    cases ht : s.threads t with
    | outside =>
      by_cases hfull : capacity q ≤ s.deque.length
      · exact ⟨{ s with threads := Function.update s.threads t (.waitFull item) },
          by simp [step, ht, hfull], h⟩
      · refine ⟨{ s with deque := s.deque ++ [item], returned := s.returned ++ [item] },
          by simp [step, ht, hfull], ?_⟩
        unfold NothingLost at h ⊢
        simp [h]
    | waitFull _ => exact ⟨s, by simp [step, ht], h⟩
    | waitEmpty => exact ⟨s, by simp [step, ht], h⟩
  | consumer t =>
    cases ht : s.threads t with
    | outside =>
      cases hd : s.deque with
      | nil => exact ⟨_, by simp [step, ht, hd]; rfl, by simpa [NothingLost, hd] using h⟩
      | cons x deque =>
        exact ⟨takeFront s t x deque, by simp [step, ht, hd], nothingLost_takeFront h hd⟩
    | waitFull _ => exact ⟨s, by simp [step, ht], h⟩
    | waitEmpty => exact ⟨s, by simp [step, ht], h⟩
  | wake t =>
    cases ht : s.threads t with
    | outside => exact ⟨s, by simp [step, ht], h⟩
    | waitFull item => exact absurd (by simp [BadWakeup, ht]) hm
    | waitEmpty =>
      cases hd : s.deque with
      | nil =>
        have hq : testsAgain q = true := by simpa [BadWakeup, ht, hd] using hm
        exact ⟨_, by simp [step, ht, hd, hq]; rfl, by simpa [NothingLost, hd] using h⟩
      | cons x deque =>
        exact ⟨takeFront s t x deque, by simp [step, ht, hd], nothingLost_takeFront h hd⟩

/-- A bad wakeup adds a returned item without a place, or has no outcome at all. -/
theorem badWakeup_loses (q : QueueName) (s : State α) (m : Move α) (s' : State α) (h : NothingLost s)
    (hm : BadWakeup q s m) (hs : step q s m = .ok s') : ¬ NothingLost s' := by
  cases m with
  | product t item => exact absurd hm (by simp [BadWakeup])
  | consumer t => exact absurd hm (by simp [BadWakeup])
  | wake t =>
    cases ht : s.threads t with
    | outside => simp [BadWakeup, ht] at hm
    | waitFull item =>
      simp only [step, ht, Except.ok.injEq] at hs
      subst hs
      intro h'
      unfold NothingLost at h h'
      simp only at h'
      rw [h] at h'
      have hlen := congrArg List.length h'
      simp at hlen
    | waitEmpty =>
      obtain ⟨hd, hq⟩ : s.deque = [] ∧ testsAgain q = false := by simpa [BadWakeup, ht] using hm
      simp [step, ht, hd, hq] at hs

/-- **Nothing is lost, exactly when** no producer returns from a wait and no consumer that does not test
again wakes to an empty queue. -/
theorem returned_eq_iff (q : QueueName) (moves : List (Move α)) :
    Throughout (step q) NothingLost State.initial moves ↔
      Avoids (step q) (BadWakeup q) State.initial moves :=
  throughout_iff_avoids (step_nothingLost q) (badWakeup_loses q) rfl

/-- A move of a thread that only consumes, on a queue whose consumers test again: items go from the front
of the queue to the consumed ones, and no other thread moves. -/
theorem consume_spec {q : QueueName} (hq : testsAgain q = true) (s : State α) {t : ℕ}
    (ht : s.threads t = .outside ∨ s.threads t = .waitEmpty) {m : Move α}
    (hm : m = .consumer t ∨ m = .wake t) :
    ∃ s', step q s m = .ok s' ∧ s'.consumed ++ s'.deque = s.consumed ++ s.deque ∧
      (∀ u, u ≠ t → s'.threads u = s.threads u) ∧
      (s'.threads t = .outside ∨ s'.threads t = .waitEmpty) := by
  have htake : ∀ x deque, s.deque = x :: deque →
      (takeFront s t x deque).consumed ++ (takeFront s t x deque).deque = s.consumed ++ s.deque ∧
      (∀ u, u ≠ t → (takeFront s t x deque).threads u = s.threads u) ∧
      ((takeFront s t x deque).threads t = .outside ∨
        (takeFront s t x deque).threads t = .waitEmpty) := by
    intro x deque hd
    refine ⟨by simp [takeFront, hd], fun u hu => ?_, Or.inl (by simp [takeFront])⟩
    simp [takeFront, Function.update_of_ne hu]
  rcases hm with rfl | rfl <;> rcases ht with ht | ht
  · cases hd : s.deque with
    | nil =>
      refine ⟨{ s with threads := Function.update s.threads t .waitEmpty },
        by simp [step, ht, hd], by simp [hd], fun u hu => ?_, Or.inr (by simp)⟩
      simp [Function.update_of_ne hu]
    | cons x deque => exact ⟨takeFront s t x deque, by simp [step, ht, hd], hd ▸ htake x deque hd⟩
  · exact ⟨s, by simp [step, ht], rfl, fun _ _ => rfl, Or.inr ht⟩
  · exact ⟨s, by simp [step, ht], rfl, fun _ _ => rfl, Or.inl ht⟩
  · cases hd : s.deque with
    | nil =>
      refine ⟨{ s with threads := Function.update s.threads t .outside },
        by simp [step, ht, hd, hq], by simp [hd], fun u hu => ?_, Or.inl (by simp)⟩
      simp [Function.update_of_ne hu]
    | cons x deque => exact ⟨takeFront s t x deque, by simp [step, ht, hd], hd ▸ htake x deque hd⟩

/-- One thread fills the queue up to its capacity. -/
theorem run_fill (q : QueueName) {n : ℕ} (hn : n ≤ capacity q) :
    ((List.range n).map (.product 0)).foldlM (step q) State.initial =
      .ok ⟨List.range n, fun _ => .outside, List.range n, []⟩ := by
  induction n with
  | zero => rfl
  | succ n ih =>
    have hroom : ¬ capacity q ≤ n := by omega
    rw [List.range_succ, List.map_append, List.foldlM_append, ih (by omega)]
    simp [step, hroom]

/-- Thread 0 fills the queue, thread 1 waits, thread 2 takes an item, thread 1 wakes and returns. -/
def fillThenDrain (q : QueueName) : List (Move ℕ) :=
  (List.range (capacity q)).map (.product 0) ++ [.product 1 (capacity q), .consumer 2, .wake 1]

/-- The item of the producer that waited is lost. -/
theorem fillThenDrain_loses :
    ¬ Throughout (step .rowData) NothingLost State.initial (fillThenDrain .rowData) := by
  intro h
  obtain ⟨t, ht, hP⟩ := h _ (List.prefix_refl _)
  rw [fillThenDrain, List.foldlM_append, run_fill _ le_rfl] at ht
  have hrange : List.range (capacity .rowData) = 0 :: (List.range 255).map Nat.succ := by
    rw [show capacity .rowData = 255 + 1 from rfl, List.range_succ_eq_map]
  have hcap : capacity .rowData = 256 := rfl
  rw [hrange] at ht
  simp only [Res.ok_bind, List.foldlM_cons, List.foldlM_nil, step, hcap, List.length_cons,
    List.length_map, List.length_range, le_refl, if_true, Function.update, OfNat.ofNat_ne_one,
    OfNat.one_ne_ofNat,
    dite_true, dite_false, takeFront, Res.pure_eq, Except.ok.injEq] at ht
  subst ht
  have hlen := congrArg List.length hP
  simp at hlen

end DataSync.Queue.HandOff
