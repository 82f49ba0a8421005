import DataSync.Lib.Memory

/-! # Loops

A loop whose body may stop: `step` gives the state of the next round, or the result the loop is left
with. `run` gives up after `fuel` rounds; `Reaches step k s s'`: the loop started at `s` comes to `s'`
after `k` rounds.

`run_ok_iff` and `safe_run_iff` say what a run does from what its rounds do. `exists_run_of_measure`: a
loop whose rounds all have a result ends when each round moves a bounded measure up. -/

namespace DataSync.Lib.Loop

open DataSync.Lib.Memory

variable {σ ρ : Type}

/-- The loop, for at most `fuel` rounds. -/
def run (step : σ → Res (σ ⊕ ρ)) : ℕ → σ → Res ρ
  | 0, _ => .error .hang
  | fuel + 1, s => do
    match ← step s with
    | .inl s' => run step fuel s'
    | .inr r => .ok r

/-- After `k` rounds the loop stands at `s'`. -/
inductive Reaches (step : σ → Res (σ ⊕ ρ)) : ℕ → σ → σ → Prop where
  | refl (s : σ) : Reaches step 0 s s
  | head {k : ℕ} {s s' s'' : σ} : step s = .ok (.inl s') → Reaches step k s' s'' →
      Reaches step (k + 1) s s''

section Rounds
variable {step : σ → Res (σ ⊕ ρ)} {k : ℕ} {s s' s'' : σ}

/-- A round more. -/
theorem Reaches.tail (h : Reaches step k s s') (hstep : step s' = .ok (.inl s'')) :
    Reaches step (k + 1) s s'' := by
  induction h with
  | refl s => exact .head hstep (.refl _)
  | head hs _ ih => exact .head hs (ih hstep)

/-- The last round. -/
theorem Reaches.succ_cases (h : Reaches step (k + 1) s s'') :
    ∃ s', Reaches step k s s' ∧ step s' = .ok (.inl s'') := by
  induction k generalizing s with
  | zero =>
    obtain _ | ⟨hs, hrest⟩ := h
    obtain _ | _ := hrest
    exact ⟨s, .refl s, hs⟩
  | succ k ih =>
    obtain _ | ⟨hs, hrest⟩ := h
    obtain ⟨s', hs', hlast⟩ := ih hrest
    exact ⟨s', .head hs hs', hlast⟩

/-- **The rounds of a run** can be taken off its front. -/
theorem run_of_reaches (h : Reaches step k s s') (fuel : ℕ) : run step (fuel + k) s = run step fuel s' := by
  induction h with
  | refl s => rfl
  | head hs _ ih =>
    rw [← Nat.add_assoc, run, hs, Res.ok_bind]
    exact ih

theorem run_leaves {r : ρ} (h : Reaches step k s s') (hstep : step s' = .ok (.inr r)) {fuel : ℕ}
    (hk : k < fuel) : run step fuel s = .ok r := by
  obtain ⟨m, rfl⟩ : ∃ m, fuel = m + 1 + k := ⟨fuel - 1 - k, by omega⟩
  rw [run_of_reaches h, run, hstep, Res.ok_bind]

theorem run_stops {e : Stop} (h : Reaches step k s s') (hstep : step s' = .error e) {fuel : ℕ}
    (hk : k < fuel) : run step fuel s = .error e := by
  obtain ⟨m, rfl⟩ : ∃ m, fuel = m + 1 + k := ⟨fuel - 1 - k, by omega⟩
  rw [run_of_reaches h, run, hstep, Res.error_bind]

theorem run_goes_on {fuel : ℕ} (h : Reaches step fuel s s') : run step fuel s = .error .hang := by
  have hrun := run_of_reaches h 0
  rwa [Nat.zero_add] at hrun

variable (step) in
/-- **What a run can do**: leave the loop, stop in a round, or make all its rounds. -/
theorem run_cases (fuel : ℕ) (s : σ) :
    (∃ k < fuel, ∃ s' r, Reaches step k s s' ∧ step s' = .ok (.inr r) ∧ run step fuel s = .ok r) ∨
    (∃ k < fuel, ∃ s' e, Reaches step k s s' ∧ step s' = .error e ∧ run step fuel s = .error e) ∨
      ∃ s', Reaches step fuel s s' ∧ run step fuel s = .error .hang := by
  induction fuel generalizing s with
  | zero => exact .inr (.inr ⟨s, .refl s, rfl⟩)
  | succ fuel ih =>
    rcases hstep : step s with e | s' | r
    · exact .inr (.inl ⟨0, by omega, s, e, .refl s, hstep, run_stops (.refl s) hstep (by omega)⟩)
    · have hrun : run step (fuel + 1) s = run step fuel s' := by rw [run, hstep, Res.ok_bind]
      rw [hrun]
      rcases ih s' with ⟨k, hk, t, r, ht, hr⟩ | ⟨k, hk, t, e, ht, he⟩ | ⟨t, ht, hh⟩
      · exact .inl ⟨k + 1, by omega, t, r, .head hstep ht, hr⟩
      · exact .inr (.inl ⟨k + 1, by omega, t, e, .head hstep ht, he⟩)
      · exact .inr (.inr ⟨t, .head hstep ht, hh⟩)
    · exact .inl ⟨0, by omega, s, r, .refl s, hstep, run_leaves (.refl s) hstep (by omega)⟩

/-- A run has a result when one of its rounds leaves the loop. -/
theorem run_ok_iff {fuel : ℕ} {r : ρ} : run step fuel s = .ok r ↔
    ∃ k < fuel, ∃ s', Reaches step k s s' ∧ step s' = .ok (.inr r) := by
  constructor
  · intro h
    rcases run_cases step fuel s with ⟨k, hk, t, r', ht, hr, hrun⟩ | ⟨_, _, _, e, _, _, hrun⟩ | ⟨_, _, hrun⟩
    · rw [h, Except.ok.injEq] at hrun
      exact ⟨k, hk, t, ht, hrun ▸ hr⟩
    · rw [h] at hrun; cases hrun
    · rw [h] at hrun; cases hrun
  · rintro ⟨k, hk, t, ht, hr⟩
    exact run_leaves ht hr hk

/-- A run is without a fault when all its rounds are. -/
theorem safe_run_iff {fuel : ℕ} : Res.Safe (run step fuel s) ↔
    ∀ k < fuel, ∀ s', Reaches step k s s' → Res.Safe (step s') := by
  constructor
  · intro h k hk s' hs' hfault
    exact h (run_stops hs' hfault hk)
  · intro h hfault
    rcases run_cases step fuel s with ⟨_, _, _, _, _, _, hrun⟩ | ⟨k, hk, t, e, ht, he, hrun⟩ | ⟨_, _, hrun⟩
    · rw [hfault] at hrun; cases hrun
    · rw [hfault, Except.error.injEq] at hrun
      exact h k hk t ht (hrun ▸ he)
    · rw [hfault] at hrun; cases hrun

/-- **A loop ends** when every round has a result and moves a bounded measure up. -/
theorem exists_run_of_measure {μ : σ → ℕ} {bound : ℕ}
    (hok : ∀ k s', Reaches step k s s' → ∃ x, step s' = .ok x)
    (hup : ∀ k s' s'', Reaches step k s s' → step s' = .ok (.inl s'') → μ s' < μ s'')
    (hbound : ∀ k s', Reaches step k s s' → μ s' < bound) : ∃ r, run step bound s = .ok r := by
  have hgrow : ∀ k s', Reaches step k s s' → k ≤ μ s' := by
    intro k
    induction k with
    | zero => exact fun _ _ => Nat.zero_le _
    | succ k ih =>
      intro s'' hs''
      obtain ⟨s', hs', hlast⟩ := hs''.succ_cases
      have := ih s' hs'
      have := hup k s' s'' hs' hlast
      omega
  rcases run_cases step bound s with ⟨_, _, _, r, _, _, hrun⟩ | ⟨k, _, t, e, ht, he, _⟩ | ⟨t, ht, _⟩
  · exact ⟨r, hrun⟩
  · obtain ⟨x, hx⟩ := hok k t ht
    rw [he] at hx; cases hx
  · have := hgrow bound t ht
    have := hbound bound t ht
    omega

end Rounds

end DataSync.Lib.Loop
