import DataSync.Queue.HandOff

/-! # The order of updates in the client

`ClientSocketServer::ThreadProcServer` starts a thread of its own for every message it receives
(`CHandlerMessage::Run`); for an update the thread sends a heartbeat and then hands the body to the
queue of `CUpdateDbThread`, from which one thread takes and executes the bodies. Nothing orders the
handler threads among themselves.

`taken_in_order`: in a run in which every handler hands its body over after all earlier ones and to a
queue with room, the bodies are executed in the order of their reception. -/

namespace DataSync.Client.UpdateOrder

open DataSync.Lib.Memory DataSync.Lib.Runs DataSync.Queue

variable {α : Type}

/-- How far the handler thread of a message has come. -/
inductive Phase where
  | absent | created | beaten | handedOver
  deriving DecidableEq, Repr

/-- The bodies received so far, the handler thread of each, and the queue of `CUpdateDbThread`. The
consumer is thread 0 of the queue, the handler of message `i` is thread `i + 1`. -/
structure ClientState (α : Type) where
  received : List α
  phase : ℕ → Phase
  queue : HandOff.State α

/-- Nothing received yet. -/
def ClientState.initial : ClientState α := ⟨[], fun _ => .absent, .initial⟩

/-- Who moves. -/
inductive Move (α : Type) where
  /-- `ThreadProcServer` receives a body and starts its handler. -/
  | receive (body : α)
  /-- Handler `i` runs `SendHeartbeat`. -/
  | sendHeartbeat (i : ℕ)
  /-- Handler `i` enters `ProductData`. -/
  | productData (i : ℕ)
  /-- Handler `i` wakes from the wait for room. -/
  | wakeHandler (i : ℕ)
  /-- `ThreadProcess` enters `ConsumerData`. -/
  | consumerData
  /-- `ThreadProcess` wakes from the wait for a body. -/
  | wakeConsumer
  deriving DecidableEq

/-- A move of the queue. -/
def queueStep (s : ClientState α) (m : HandOff.Move α) : Res (ClientState α) := do
  return { s with queue := ← HandOff.step .updateDb s.queue m }

/-- One move of one thread; a move of a thread that stands elsewhere does nothing. -/
def step (s : ClientState α) : Move α → Res (ClientState α)
  | .receive body =>
    .ok { s with received := s.received ++ [body]
                 phase := Function.update s.phase s.received.length .created }
  | .sendHeartbeat i =>
    if s.phase i = .created then .ok { s with phase := Function.update s.phase i .beaten }
    else .ok s
  | .productData i =>
    match s.received[i]? with
    | some body =>
      if s.phase i = .beaten then
        queueStep { s with phase := Function.update s.phase i .handedOver } (.product (i + 1) body)
      else .ok s
    | none => .ok s
  | .wakeHandler i => queueStep s (.wake (i + 1))
  | .consumerData => queueStep s (.consumer 0)
  | .wakeConsumer => queueStep s (.wake 0)

/-- The bodies taken for execution are the first ones received, in order. -/
def InOrder (s : ClientState α) : Prop := s.queue.consumed <+: s.received

/-- A handler enters `ProductData` before an earlier one, or on a full queue. -/
def OutOfTurn (s : ClientState α) : Move α → Prop
  | .productData i => s.phase i = .beaten ∧
      ((∃ j < i, s.phase j ≠ .handedOver) ∨
        HandOff.capacity .updateDb ≤ s.queue.deque.length)
  | _ => False

instance [DecidableEq α] : DecidablePred (InOrder (α := α)) := fun s =>
  inferInstanceAs (Decidable (s.queue.consumed <+: s.received))

instance (s : ClientState α) : ∀ m, Decidable (OutOfTurn s m)
  | .productData i => inferInstanceAs (Decidable (s.phase i = .beaten ∧
      ((∃ j < i, s.phase j ≠ .handedOver) ∨
        HandOff.capacity .updateDb ≤ s.queue.deque.length)))
  | .receive _ | .sendHeartbeat _ | .wakeHandler _ | .consumerData | .wakeConsumer => isFalse id

/-- What holds while every handler waits for its turn: the first `k` bodies have gone through the queue,
no handler waits for room. -/
structure Turn (s : ClientState α) (k : ℕ) : Prop where
  le : k ≤ s.received.length
  through : s.queue.consumed ++ s.queue.deque = s.received.take k
  handedOver : ∀ i, s.phase i = .handedOver ↔ i < k
  absent : ∀ i, s.phase i = .absent ↔ s.received.length ≤ i
  handlers : ∀ i, s.queue.threads (i + 1) = .outside
  consumer : s.queue.threads 0 = .outside ∨ s.queue.threads 0 = .waitEmpty

theorem inOrder_of_turn {s : ClientState α} {k : ℕ} (h : Turn s k) : InOrder s := by
  have h1 : s.queue.consumed <+: s.received.take k := ⟨s.queue.deque, h.through⟩
  exact h1.trans (List.take_prefix k s.received)

theorem turn_initial : Turn (ClientState.initial (α := α)) 0 :=
  ⟨by simp [ClientState.initial], rfl, by simp [ClientState.initial], by simp [ClientState.initial],
    fun _ => rfl, Or.inl rfl⟩

theorem turn_receive {s : ClientState α} {k : ℕ} (h : Turn s k) (body : α) :
    Turn { s with received := s.received ++ [body]
                  phase := Function.update s.phase s.received.length .created } k where
  le := by have := h.le; simp only [List.length_append, List.length_singleton]; omega
  through := by
    show s.queue.consumed ++ s.queue.deque = (s.received ++ [body]).take k
    rw [h.through, List.take_append_of_le_length h.le]
  handedOver := by
    intro i
    show Function.update s.phase s.received.length .created i = .handedOver ↔ i < k
    have hle := h.le
    by_cases hi : i = s.received.length
    · subst hi
      rw [Function.update_self]
      constructor
      · intro h; cases h
      · intro h; omega
    · rw [Function.update_of_ne hi]
      exact h.handedOver i
  absent := by
    intro i
    show Function.update s.phase s.received.length .created i = .absent ↔
      (s.received ++ [body]).length ≤ i
    rw [List.length_append, List.length_singleton]
    by_cases hi : i = s.received.length
    · subst hi
      rw [Function.update_self]
      constructor
      · intro h; cases h
      · intro h; omega
    · rw [Function.update_of_ne hi, h.absent i]
      omega
  handlers := h.handlers
  consumer := h.consumer

theorem turn_heartbeat {s : ClientState α} {k i : ℕ} (h : Turn s k) (hi : s.phase i = .created) :
    Turn { s with phase := Function.update s.phase i .beaten } k where
  le := h.le
  through := h.through
  handedOver := by
    intro j
    show Function.update s.phase i .beaten j = .handedOver ↔ j < k
    by_cases hj : j = i
    · subst hj
      rw [Function.update_self, ← h.handedOver j, hi]
      simp
    · rw [Function.update_of_ne hj]
      exact h.handedOver j
  absent := by
    intro j
    show Function.update s.phase i .beaten j = .absent ↔ s.received.length ≤ j
    by_cases hj : j = i
    · subst hj
      rw [Function.update_self, ← h.absent j, hi]
      simp
    · rw [Function.update_of_ne hj]
      exact h.absent j
  handlers := h.handlers
  consumer := h.consumer

/-- A handler in its turn pushes its body behind those of the earlier ones. -/
theorem turn_productData {s : ClientState α} {k i : ℕ} {body : α} (h : Turn s k)
    (hbody : s.received[i]? = some body) (hi : s.phase i = .beaten)
    (hturn : ∀ j < i, s.phase j = .handedOver)
    (hroom : ¬ HandOff.capacity .updateDb ≤ s.queue.deque.length) :
    ∃ s', step s (.productData i) = .ok s' ∧ Turn s' (k + 1) := by
  obtain ⟨hil, hget⟩ := List.getElem?_eq_some_iff.mp hbody
  -- all handlers before `i` and none from `i` on have handed over
  have hk : k = i := by
    have h1 : ¬ i < k := fun hlt => by
      rw [(h.handedOver i).mpr hlt] at hi
      cases hi
    by_contra hne
    have h2 := (h.handedOver k).mp (hturn k (by omega))
    omega
  subst hk
  refine ⟨{ s with
    phase := Function.update s.phase k .handedOver
    queue := { s.queue with deque := s.queue.deque ++ [body]
                            returned := s.queue.returned ++ [body] } }, ?_, ?_⟩
  · simp [step, hbody, hi, queueStep, HandOff.step, h.handlers k, hroom]
  · refine ⟨hil, ?_, ?_, ?_, h.handlers, h.consumer⟩
    · show s.queue.consumed ++ (s.queue.deque ++ [body]) = s.received.take (k + 1)
      rw [← List.append_assoc, h.through, List.take_add_one, hbody, Option.toList_some]
    · intro j
      show Function.update s.phase k .handedOver j = .handedOver ↔ j < k + 1
      by_cases hj : j = k
      · subst hj; simp
      · rw [Function.update_of_ne hj, h.handedOver j]
        omega
    · intro j
      show Function.update s.phase k .handedOver j = .absent ↔ s.received.length ≤ j
      by_cases hj : j = k
      · subst hj
        rw [Function.update_self]
        constructor
        · intro h; cases h
        · intro h; omega
      · rw [Function.update_of_ne hj]
        exact h.absent j

/-- A move of the consumer takes a body from the front or waits. -/
theorem turn_consumer {s : ClientState α} {k : ℕ} (h : Turn s k) {m : HandOff.Move α}
    (hm : m = .consumer 0 ∨ m = .wake 0) : ∃ s', queueStep s m = .ok s' ∧ Turn s' k := by
  obtain ⟨q, hq, hthrough, hothers, hself⟩ :=
    HandOff.consume_spec (q := .updateDb) rfl s.queue h.consumer hm
  refine ⟨{ s with queue := q }, by simp [queueStep, hq], h.le, ?_, h.handedOver, h.absent, ?_, hself⟩
  · show q.consumed ++ q.deque = s.received.take k
    rw [hthrough, h.through]
  · intro i
    show q.threads (i + 1) = .outside
    rw [hothers (i + 1) (by omega)]
    exact h.handlers i

/-- **One move** keeps the turns unless a handler is out of turn. -/
theorem step_turn (s : ClientState α) (m : Move α) (h : ∃ k, Turn s k) (hm : ¬ OutOfTurn s m) :
    ∃ s', step s m = .ok s' ∧ ∃ k, Turn s' k := by
  obtain ⟨k, h⟩ := h
  cases m with
  | receive body => exact ⟨_, rfl, k, turn_receive h body⟩
  | sendHeartbeat i =>
    by_cases hi : s.phase i = .created
    · exact ⟨_, by simp [step, hi], k, turn_heartbeat h hi⟩
    · exact ⟨s, by simp [step, hi], k, h⟩
  | productData i =>
    cases hbody : s.received[i]? with
    | none => exact ⟨s, by simp [step, hbody], k, h⟩
    | some body =>
      by_cases hi : s.phase i = .beaten
      · have hnot : ¬ ((∃ j < i, s.phase j ≠ .handedOver) ∨
            HandOff.capacity .updateDb ≤ s.queue.deque.length) := fun hbad => hm ⟨hi, hbad⟩
        push Not at hnot
        obtain ⟨s', hs', ht⟩ := turn_productData h hbody hi hnot.1 (by omega)
        exact ⟨s', hs', k + 1, ht⟩
      · exact ⟨s, by simp [step, hbody, hi], k, h⟩
  | wakeHandler i =>
    refine ⟨s, ?_, k, h⟩
    simp [step, queueStep, HandOff.step, h.handlers i]
  | consumerData =>
    obtain ⟨s', hs', ht⟩ := turn_consumer h (Or.inl rfl)
    exact ⟨s', hs', k, ht⟩
  | wakeConsumer =>
    obtain ⟨s', hs', ht⟩ := turn_consumer h (Or.inr rfl)
    exact ⟨s', hs', k, ht⟩

/-- **Updates are executed in the order of their reception** in a run in which every handler hands its
body over after all earlier ones and to a queue with room. -/
theorem taken_in_order (moves : List (Move α)) (h : Avoids step OutOfTurn .initial moves) :
    Throughout step InOrder ClientState.initial moves :=
  (throughout_of_avoids step_turn ⟨0, turn_initial⟩ h).mono fun _ ⟨_, ht⟩ => inOrder_of_turn ht

/-- Two messages whose handlers run one after the other. -/
theorem taken_in_order_two : Throughout step InOrder (ClientState.initial (α := ℕ))
    [.receive 10, .receive 20, .sendHeartbeat 0, .sendHeartbeat 1, .productData 0, .productData 1,
      .consumerData, .consumerData] :=
  taken_in_order _ (by decide)

/-- The second handler overtakes the first between its heartbeat and its hand-over. -/
theorem handler_overtakes : ¬ Throughout step InOrder (ClientState.initial (α := ℕ))
    [.receive 10, .receive 20, .sendHeartbeat 0, .sendHeartbeat 1, .productData 1, .productData 0,
      .consumerData] := by
  decide

end DataSync.Client.UpdateOrder
