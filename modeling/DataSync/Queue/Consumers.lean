import DataSync.Queue.HandOff

/-! # What the consumers return

Behind its wait a consumer of the queues of `HandOff` may find the deque empty: the wakeup was spurious, or
another consumer took the item first. `consumerRowData` takes the front all the same. The others test
again, but `VectorHeadConsumerDataGenerate`, `ConsumerDataGenerate` and `ConsumerRawData` return a local
pointer that no statement has set; `ConsumerData` and `ConsumerExceptionData` of `CProcessMqData` set it to
`NULL` first.

The log adds to a queue what the producers have pushed and what the consumers have returned.
`onlyItems_iff`: no front of an empty deque is taken and every pointer returned is `NULL` or was pushed,
in every state of a run, if and only if no consumer of the first four wakes to an empty deque. -/

namespace DataSync.Queue.Consumers

open DataSync.Lib.Memory DataSync.Lib.Runs DataSync.Queue.HandOff

variable {α : Type}

/-- The consumer's local pointer is not set before the wait. -/
def unset : QueueName → Bool
  | .generateHead | .generate | .mqRaw => true
  | _ => false

/-- A pointer: `NULL` (for `CUpdateDbThread` the result `FALSE`, for the vector queue an empty vector), one
to an item, or what an unset variable holds. -/
inductive Pointer (α : Type) where
  | null
  | item (x : α)
  | indeterminate
  deriving DecidableEq, Repr

/-- The queue, the items pushed and the pointers returned, each in order. -/
structure Log (α : Type) where
  queue : State α
  enqueued : List α
  pointers : List (Pointer α)

/-- An empty queue. -/
def Log.initial : Log α := ⟨.initial, [], []⟩

/-- The items the critical section pushes. -/
def pushed (q : QueueName) (s : State α) : Move α → List α
  | .product t item =>
    match s.threads t with
    | .outside => if capacity q ≤ s.deque.length then [] else [item]
    | _ => []
  | _ => []

/-- What a consumer's local pointer holds behind the second test. -/
def front (q : QueueName) : List α → Pointer α
  | [] => if unset q then .indeterminate else .null
  | x :: _ => .item x

/-- The pointers the critical section returns. -/
def pointers (q : QueueName) (s : State α) : Move α → List (Pointer α)
  | .product _ _ => []
  | .consumer t =>
    match s.threads t with
    | .outside => if s.deque.length = 0 then [] else [front q s.deque]
    | _ => []
  | .wake t =>
    match s.threads t with
    | .waitEmpty => [front q s.deque]
    | _ => []

/-- One critical section, with its entries in the log. -/
def step (q : QueueName) (c : Log α) (m : Move α) : Res (Log α) :=
  HandOff.step q c.queue m >>= fun s =>
    .ok ⟨s, c.enqueued ++ pushed q c.queue m, c.pointers ++ pointers q c.queue m⟩

/-- The pointer is `NULL` or was pushed. -/
def Real (enqueued : List α) (p : Pointer α) : Prop := p = .null ∨ ∃ x ∈ enqueued, p = .item x

instance [DecidableEq α] (enqueued : List α) (p : Pointer α) : Decidable (Real enqueued p) :=
  inferInstanceAs (Decidable (p = .null ∨ ∃ x ∈ enqueued, p = .item x))

/-- Every pointer returned is `NULL` or was pushed. -/
def OnlyItems (c : Log α) : Prop := ∀ p ∈ c.pointers, Real c.enqueued p

instance [DecidableEq α] : DecidablePred (OnlyItems (α := α)) := fun c =>
  inferInstanceAs (Decidable (∀ p ∈ c.pointers, Real c.enqueued p))

/-- A consumer that does not test again, or whose pointer is unset, wakes to an empty deque. -/
def EmptyWakeup (q : QueueName) (c : Log α) : Move α → Prop
  | .wake t =>
    match c.queue.threads t with
    | .waitEmpty => c.queue.deque = [] ∧ (testsAgain q = false ∨ unset q = true)
    | _ => False
  | _ => False

/-- Everything in the deque was pushed. -/
def Pushed (c : Log α) : Prop := ∀ x ∈ c.queue.deque, x ∈ c.enqueued

/-! ### One critical section -/

/-- The deque behind a critical section holds items it held before and the one pushed. -/
theorem deque_step {q : QueueName} {s s' : State α} {m : Move α} (h : HandOff.step q s m = .ok s') {x : α}
    (hx : x ∈ s'.deque) : x ∈ s.deque ∨ x ∈ pushed q s m := by
  cases m with
  | product t item =>
    cases ht : s.threads t with
    | outside =>
      by_cases hfull : capacity q ≤ s.deque.length
      · simp only [HandOff.step, ht, hfull, if_true, Except.ok.injEq] at h
        subst h
        exact Or.inl hx
      · simp only [HandOff.step, ht, hfull, if_false, Except.ok.injEq] at h
        subst h
        simpa [pushed, ht, hfull] using hx
    | waitFull _ | waitEmpty =>
      simp only [HandOff.step, ht, Except.ok.injEq] at h
      exact Or.inl (h ▸ hx)
  | consumer t =>
    left
    cases ht : s.threads t with
    | outside =>
      cases hd : s.deque with
      | nil =>
        simp only [HandOff.step, ht, hd, Except.ok.injEq] at h
        subst h
        exact hd ▸ hx
      | cons y deque =>
        simp only [HandOff.step, ht, hd, Except.ok.injEq] at h
        subst h
        exact List.mem_cons_of_mem y hx
    | waitFull _ | waitEmpty =>
      simp only [HandOff.step, ht, Except.ok.injEq] at h
      exact h ▸ hx
  | wake t =>
    left
    cases ht : s.threads t with
    | outside =>
      simp only [HandOff.step, ht, Except.ok.injEq] at h
      exact h ▸ hx
    | waitFull item =>
      simp only [HandOff.step, ht, Except.ok.injEq] at h
      subst h
      exact hx
    | waitEmpty =>
      cases hd : s.deque with
      | nil =>
        simp only [HandOff.step, ht, hd] at h
        split at h
        · obtain rfl := Except.ok.inj h
          exact hd ▸ hx
        · exact absurd h (by simp)
      | cons y deque =>
        simp only [HandOff.step, ht, hd, Except.ok.injEq] at h
        subst h
        exact List.mem_cons_of_mem y hx

theorem step_pushed (q : QueueName) (c : Log α) (m : Move α) (c' : Log α) (h : Pushed c)
    (hs : step q c m = .ok c') : Pushed c' := by
  obtain ⟨s, hstep, hc⟩ := Res.bind_eq_ok.mp hs
  obtain rfl := Except.ok.inj hc
  intro x hx
  rcases deque_step hstep hx with hold | hnew
  · exact List.mem_append_left _ (h x hold)
  · exact List.mem_append_right _ hnew

theorem real_append {enqueued new : List α} {p : Pointer α} (h : Real enqueued p) :
    Real (enqueued ++ new) p := by
  rcases h with h | ⟨x, hx, h⟩
  · exact Or.inl h
  · exact Or.inr ⟨x, List.mem_append_left _ hx, h⟩

/-- The front of a deque with items is one of them. -/
theorem real_front (q : QueueName) {enqueued deque : List α} (h : ∀ x ∈ deque, x ∈ enqueued)
    (hd : deque ≠ []) : Real enqueued (front q deque) := by
  obtain ⟨x, rest, rfl⟩ := List.exists_cons_of_ne_nil hd
  exact Or.inr ⟨x, h x (by simp), rfl⟩

/-- What a critical section returns is real, unless the wakeup is to an empty deque. -/
theorem pointers_real {q : QueueName} {c : Log α} {m : Move α} (h : Pushed c) (hm : ¬ EmptyWakeup q c m)
    {p : Pointer α} (hp : p ∈ pointers q c.queue m) : Real c.enqueued p := by
  cases m with
  | product t item => simp [pointers] at hp
  | consumer t =>
    cases ht : c.queue.threads t with
    | outside =>
      simp only [pointers, ht] at hp
      split at hp
      · simp at hp
      · rename_i hd
        obtain rfl := List.mem_singleton.mp hp
        exact real_front q h fun he => hd (by simp [he])
    | waitFull _ | waitEmpty => simp [pointers, ht] at hp
  | wake t =>
    cases ht : c.queue.threads t with
    | outside | waitFull _ => simp [pointers, ht] at hp
    | waitEmpty =>
      simp only [pointers, ht, List.mem_singleton] at hp
      subst hp
      by_cases hd : c.queue.deque = []
      · have hset : unset q = false := by
          by_contra hu
          exact hm (by simp [EmptyWakeup, ht, hd, hu])
        exact Or.inl (by simp [hd, front, hset])
      · exact real_front q h hd

/-- A critical section has no outcome only when a consumer that does not test again wakes to an empty
deque. -/
theorem exists_step {q : QueueName} {c : Log α} {m : Move α} (hm : ¬ EmptyWakeup q c m) :
    ∃ s, HandOff.step q c.queue m = .ok s := by
  cases m with
  | product t item =>
    simp only [HandOff.step]
    split
    · split <;> exact ⟨_, rfl⟩
    · exact ⟨_, rfl⟩
  | consumer t =>
    simp only [HandOff.step]
    split
    · split <;> exact ⟨_, rfl⟩
    · exact ⟨_, rfl⟩
  | wake t =>
    cases ht : c.queue.threads t with
    | outside => exact ⟨c.queue, by simp [HandOff.step, ht]⟩
    | waitFull item => exact ⟨_, by simp only [HandOff.step, ht]; rfl⟩
    | waitEmpty =>
      cases hd : c.queue.deque with
      | nil =>
        have hq : testsAgain q = true := by
          by_contra hq
          exact hm (by simp [EmptyWakeup, ht, hd, hq])
        exact ⟨_, by simp only [HandOff.step, ht, hd, hq, if_true]; rfl⟩
      | cons x deque => exact ⟨_, by simp only [HandOff.step, ht, hd]; rfl⟩

/-- Every other step keeps the log clean. -/
theorem step_onlyItems (q : QueueName) (c : Log α) (m : Move α) (h : OnlyItems c ∧ Pushed c)
    (hm : ¬ EmptyWakeup q c m) : ∃ c', step q c m = .ok c' ∧ OnlyItems c' ∧ Pushed c' := by
  obtain ⟨s, hs⟩ := exists_step hm
  have hstep : step q c m =
      .ok ⟨s, c.enqueued ++ pushed q c.queue m, c.pointers ++ pointers q c.queue m⟩ := by
    rw [step, hs]
    rfl
  refine ⟨_, hstep, fun p hp => ?_, step_pushed q c m _ h.2 hstep⟩
  rcases List.mem_append.mp hp with hold | hnew
  · exact real_append (h.1 p hold)
  · exact real_append (pointers_real h.2 hm hnew)

/-- A wakeup to an empty deque has no outcome, or returns what the unset pointer holds. -/
theorem emptyWakeup_spoils (q : QueueName) (c : Log α) (m : Move α) (c' : Log α)
    (hm : EmptyWakeup q c m) (hs : step q c m = .ok c') : ¬ OnlyItems c' := by
  cases m with
  | product t item => exact absurd hm (by simp [EmptyWakeup])
  | consumer t => exact absurd hm (by simp [EmptyWakeup])
  | wake t =>
    cases ht : c.queue.threads t with
    | outside | waitFull _ => simp [EmptyWakeup, ht] at hm
    | waitEmpty =>
      obtain ⟨hd, hq⟩ : c.queue.deque = [] ∧ (testsAgain q = false ∨ unset q = true) := by
        simpa [EmptyWakeup, ht] using hm
      obtain ⟨s, hstep, hc⟩ := Res.bind_eq_ok.mp hs
      obtain rfl := Except.ok.inj hc
      have htest : testsAgain q = true := by
        by_contra htest
        simp [HandOff.step, ht, hd, htest] at hstep
      have hunset : unset q = true := by simpa [htest] using hq
      intro h
      have hreal := h .indeterminate (by simp [pointers, ht, hd, front, hunset])
      rcases hreal with hnull | ⟨x, -, hx⟩
      · exact absurd hnull (by simp)
      · exact absurd hx (by simp)

/-! ### Whole runs -/

/-- **Only real items are returned, exactly when** no consumer that does not test again or whose pointer is
unset wakes to an empty deque. -/
theorem onlyItems_iff (q : QueueName) (moves : List (Move α)) :
    Throughout (step q) OnlyItems Log.initial moves ↔
      Avoids (step q) (EmptyWakeup q) Log.initial moves := by
  have hpushed : Pushed (Log.initial (α := α)) := fun x hx => absurd hx List.not_mem_nil
  have hboth : OnlyItems (Log.initial (α := α)) ∧ Pushed (Log.initial (α := α)) :=
    ⟨fun p hp => absurd hp List.not_mem_nil, hpushed⟩
  have hiff : Throughout (step q) (fun c => OnlyItems c ∧ Pushed c) Log.initial moves ↔
      Avoids (step q) (EmptyWakeup q) Log.initial moves :=
    throughout_iff_avoids (step_onlyItems q)
      (fun c m c' _ hm hs h => emptyWakeup_spoils q c m c' hm hs h.1) hboth
  exact ⟨fun h => hiff.mp (h.and_of_step (step_pushed q) hpushed),
    fun h => (hiff.mpr h).mono fun _ hc => hc.1⟩

/-- Thread 0 waits, thread 1 pushes an item, thread 2 takes it, thread 0 wakes. -/
def takenFirst : List (Move ℕ) := [.consumer 0, .product 1 7, .consumer 2, .wake 0]

/-- `consumerRowData` takes the front of an empty deque; the other two return an unset pointer. -/
theorem takenFirst_spoils :
    ¬ Throughout (step .rowData) OnlyItems Log.initial takenFirst ∧
      ¬ Throughout (step .generateHead) OnlyItems Log.initial takenFirst ∧
      ¬ Throughout (step .mqRaw) OnlyItems Log.initial takenFirst := by
  decide

end DataSync.Queue.Consumers
