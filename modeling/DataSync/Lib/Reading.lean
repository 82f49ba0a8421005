import Mathlib.Data.List.Basic

/-! # Reading exactly so many units from a stream

A reader is asked for `n` units of a stream. It gives them together with the rest of the stream, or it
fails and loses the units it had before the failure, or it waits for more. Readers of different streams
are compared by a map of the streams that carries one to the other (`Simulates`). The model reader
`readEvents` works on a list of units and failures, and `readEvents_spec` says what the stream was in
each of its outcomes. -/

namespace DataSync.Lib.Reading

variable {ε α σ τ : Type}

/-- What a request leads to. -/
inductive Read (ε α σ : Type) where
  /-- The units, and the stream behind them. -/
  | full (units : List α) (rest : σ)
  /-- A failure, and the stream behind it. -/
  | failed (code : ε) (rest : σ)
  /-- The stream has too few units so far. -/
  | waits
  deriving DecidableEq, Repr

/-- The same outcome, for the streams behind `f`. -/
def Read.map (f : σ → τ) : Read ε α σ → Read ε α τ
  | .full units rest => .full units (f rest)
  | .failed code rest => .failed code (f rest)
  | .waits => .waits

/-- A reader of streams `σ`. -/
abbrev ReadFn (ε α σ : Type) := ℕ → σ → Read ε α σ

/-- `f` carries the streams of `r` to those of `r'`, and the outcomes with them. -/
def Simulates (f : σ → τ) (r : ReadFn ε α σ) (r' : ReadFn ε α τ) : Prop :=
  ∀ n s, r' n (f s) = (r n s).map f

/-- One more unit in front. -/
def Read.cons (a : α) : Read ε α σ → Read ε α σ
  | .full units rest => .full (a :: units) rest
  | .failed code rest => .failed code rest
  | .waits => .waits

/-- The model reader: a failure inside the request ends it. -/
def readEvents : ReadFn ε α (List (Except ε α))
  | 0, s => .full [] s
  | _ + 1, [] => .waits
  | _ + 1, .error code :: s => .failed code s
  | n + 1, .ok a :: s => (readEvents n s).cons a

/-- The units of a stream. -/
def units (s : List (Except ε α)) : List α := s.filterMap Except.toOption

@[simp] theorem units_nil : units ([] : List (Except ε α)) = [] := rfl

@[simp] theorem units_ok_cons (a : α) (s : List (Except ε α)) : units (.ok a :: s) = a :: units s := rfl

@[simp] theorem units_error_cons (e : ε) (s : List (Except ε α)) : units (.error e :: s) = units s := rfl

@[simp] theorem units_append (s t : List (Except ε α)) : units (s ++ t) = units s ++ units t := by
  simp [units]

@[simp] theorem units_map_ok (as : List α) : units (as.map (.ok : α → Except ε α)) = as := by
  induction as with
  | nil => rfl
  | cons a as ih => rw [List.map_cons, units_ok_cons, ih]

/-- Of two ways to cut a list, the longer first part goes on where the shorter ends. -/
theorem append_eq_append_of_length_le {as bs cs ds : List α} (h : as ++ bs = cs ++ ds)
    (hle : as.length ≤ cs.length) : ∃ es, cs = as ++ es ∧ bs = es ++ ds := by
  rcases List.append_eq_append_iff.mp h with ⟨es, hc, hb⟩ | ⟨es, rfl, rfl⟩
  · exact ⟨es, hc, hb⟩
  · obtain rfl : es = [] := by
      rw [List.length_append] at hle
      exact List.length_eq_zero_iff.mp (by omega)
    exact ⟨[], by simp, by simp⟩

/-- A failure does not stand among units. -/
theorem map_ok_append_eq {as : List α} {s pre post : List (Except ε α)} {code : ε}
    (h : as.map .ok ++ s = pre ++ .error code :: post) :
    ∃ pre', pre = as.map .ok ++ pre' ∧ s = pre' ++ .error code :: post := by
  rcases List.append_eq_append_iff.mp h with ⟨pre', hpre, hs⟩ | ⟨es, hw, hes⟩
  · exact ⟨pre', hpre, hs⟩
  · cases es with
    | nil => exact ⟨[], by simpa using hw.symm, by simpa using hes.symm⟩
    | cons e es =>
      obtain ⟨rfl, -⟩ := List.cons.inj hes
      have hmem : Except.error code ∈ as.map (Except.ok : α → Except ε α) := by
        rw [hw]; simp
      simp at hmem

/-! ### What the model reader does -/

@[simp] theorem readEvents_zero (s : List (Except ε α)) : readEvents 0 s = .full [] s := by
  cases s <;> rfl

theorem readEvents_full {n : ℕ} (as : List α) (s : List (Except ε α)) (hn : n = as.length) :
    readEvents n (as.map .ok ++ s) = .full as s := by
  subst hn
  induction as with
  | nil => simp
  | cons a as ih =>
    rw [List.map_cons, List.cons_append, List.length_cons, readEvents, ih]
    rfl

theorem readEvents_failed {n : ℕ} {as : List α} (hn : as.length < n) (code : ε)
    (s : List (Except ε α)) : readEvents n (as.map .ok ++ .error code :: s) = .failed code s := by
  obtain ⟨n, rfl⟩ : ∃ k, n = k + 1 := ⟨n - 1, by omega⟩
  induction as generalizing n with
  | nil => rfl
  | cons a as ih =>
    rw [List.length_cons] at hn
    obtain ⟨n, rfl⟩ : ∃ k, n = k + 1 := ⟨n - 1, by omega⟩
    rw [List.map_cons, List.cons_append, readEvents, ih n (by omega)]
    rfl

theorem readEvents_waits {n : ℕ} {as : List α} (hn : as.length < n) :
    readEvents n (as.map (.ok : α → Except ε α)) = .waits := by
  obtain ⟨n, rfl⟩ : ∃ k, n = k + 1 := ⟨n - 1, by omega⟩
  induction as generalizing n with
  | nil => rfl
  | cons a as ih =>
    rw [List.length_cons] at hn
    obtain ⟨n, rfl⟩ : ∃ k, n = k + 1 := ⟨n - 1, by omega⟩
    rw [List.map_cons, readEvents, ih n (by omega)]
    rfl

/-- **The outcome tells the stream**: in each case it begins with the units that were read. -/
theorem readEvents_spec (n : ℕ) (s : List (Except ε α)) :
    match readEvents n s with
    | .full as rest => as.length = n ∧ s = as.map .ok ++ rest
    | .failed code rest => ∃ as : List α, as.length < n ∧ s = as.map .ok ++ .error code :: rest
    | .waits => ∃ as : List α, as.length < n ∧ s = as.map .ok := by
  induction s generalizing n with
  | nil =>
    cases n with
    | zero => simp
    | succ n => exact ⟨[], by simp, rfl⟩
  | cons e s ih =>
    cases n with
    | zero => simp
    | succ n =>
      cases e with
      | error code => exact ⟨[], by simp, rfl⟩
      | ok a =>
        have h := ih n
        rw [readEvents]
        cases hr : readEvents n s with
        | full as rest =>
          rw [hr] at h
          obtain ⟨hlen, rfl⟩ := h
          exact ⟨by simp [hlen], rfl⟩
        | failed code rest =>
          rw [hr] at h
          obtain ⟨as, hlen, rfl⟩ := h
          exact ⟨a :: as, by simp [hlen], rfl⟩
        | waits =>
          rw [hr] at h
          obtain ⟨as, hlen, rfl⟩ := h
          exact ⟨a :: as, by simp [hlen], rfl⟩

section Outcome
variable {n : ℕ} {s rest : List (Except ε α)} {as : List α} {code : ε}

theorem of_full (h : readEvents n s = .full as rest) : as.length = n ∧ s = as.map .ok ++ rest := by
  have hs := readEvents_spec n s
  rw [h] at hs
  exact hs

theorem of_failed (h : readEvents n s = .failed code rest) :
    ∃ as : List α, as.length < n ∧ s = as.map .ok ++ .error code :: rest := by
  have hs := readEvents_spec n s
  rw [h] at hs
  exact hs

theorem of_waits (h : readEvents n s = .waits) : ∃ as : List α, as.length < n ∧ s = as.map .ok := by
  have hs := readEvents_spec n s
  rw [h] at hs
  exact hs

end Outcome

end DataSync.Lib.Reading
