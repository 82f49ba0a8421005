import DataSync.Lib.Memory

/-! # Runs of a step function

A system is a step function on states, driven by a list of labels: who moves next, and what the
environment answers. `Throughout P` says that every state along a run is defined and satisfies `P`,
`Avoids bad` that no step of the run is `bad` in the state it is taken in. When good steps keep `P` and
bad ones break it, the two are the same (`throughout_iff_avoids`). -/

namespace DataSync.Lib.Runs

open DataSync.Lib.Memory

variable {σ ℓ : Type} {step : σ → ℓ → Res σ} {P : σ → Prop} {bad : σ → ℓ → Prop}

/-- Every state along the run is defined and satisfies `P`. -/
def Throughout (step : σ → ℓ → Res σ) (P : σ → Prop) (s : σ) (ls : List ℓ) : Prop :=
  ∀ pre, pre <+: ls → ∃ t, pre.foldlM step s = .ok t ∧ P t

/-- No step of the run is bad in the state it is taken in. -/
def Avoids (step : σ → ℓ → Res σ) (bad : σ → ℓ → Prop) (s : σ) (ls : List ℓ) : Prop :=
  ∀ pre l, pre ++ [l] <+: ls → ∀ t, pre.foldlM step s = .ok t → ¬ bad t l

theorem foldlM_cons_ok {s t : σ} {l : ℓ} {ls : List ℓ} :
    (l :: ls).foldlM step s = .ok t ↔ ∃ u, step s l = .ok u ∧ ls.foldlM step u = .ok t := by
  rw [List.foldlM_cons, Res.bind_eq_ok]

theorem throughout_nil {s : σ} : Throughout step P s [] ↔ P s := by
  constructor
  · intro h
    obtain ⟨t, ht, hP⟩ := h [] (List.prefix_refl [])
    obtain rfl : s = t := by simpa using ht
    exact hP
  · rintro hP pre hpre
    rw [List.prefix_nil.mp hpre]
    exact ⟨s, rfl, hP⟩

theorem throughout_cons {s : σ} {l : ℓ} {ls : List ℓ} :
    Throughout step P s (l :: ls) ↔ P s ∧ ∃ t, step s l = .ok t ∧ Throughout step P t ls := by
  constructor
  · intro h
    obtain ⟨t, ht, -⟩ := h [l] (by simp)
    obtain ⟨u, hu, -⟩ := foldlM_cons_ok.mp ht
    refine ⟨throughout_nil.mp fun pre hpre => h pre (hpre.trans (List.nil_prefix)), u, hu, ?_⟩
    intro pre hpre
    obtain ⟨v, hv, hP⟩ := h (l :: pre) (List.cons_prefix_cons.mpr ⟨rfl, hpre⟩)
    obtain ⟨w, hw, hr⟩ := foldlM_cons_ok.mp hv
    rw [hu] at hw
    injection hw with hw
    exact ⟨v, hw ▸ hr, hP⟩
  · rintro ⟨hP, t, ht, h⟩ pre hpre
    rcases List.prefix_cons_iff.mp hpre with rfl | ⟨pre, rfl, hp⟩
    · exact ⟨s, rfl, hP⟩
    · obtain ⟨u, hu, hPu⟩ := h pre hp
      exact ⟨u, foldlM_cons_ok.mpr ⟨t, ht, hu⟩, hPu⟩

theorem Throughout.mono {Q : σ → Prop} {s : σ} {ls : List ℓ} (h : Throughout step P s ls)
    (hPQ : ∀ t, P t → Q t) : Throughout step Q s ls := by
  intro pre hpre
  obtain ⟨t, ht, hP⟩ := h pre hpre
  exact ⟨t, ht, hPQ t hP⟩

theorem Throughout.and {Q : σ → Prop} {s : σ} {ls : List ℓ} (hP : Throughout step P s ls)
    (hQ : Throughout step Q s ls) : Throughout step (fun t => P t ∧ Q t) s ls := by
  intro pre hpre
  obtain ⟨t, ht, hPt⟩ := hP pre hpre
  obtain ⟨u, hu, hQu⟩ := hQ pre hpre
  rw [ht] at hu
  injection hu with hu
  exact ⟨t, ht, hPt, hu ▸ hQu⟩

/-- What every step keeps holds along with `P`. -/
theorem Throughout.and_of_step {I : σ → Prop} (hI : ∀ s l t, I s → step s l = .ok t → I t)
    {s : σ} {ls : List ℓ} (hs : I s) (h : Throughout step P s ls) :
    Throughout step (fun t => P t ∧ I t) s ls := by
  induction ls generalizing s with
  | nil => exact throughout_nil.mpr ⟨throughout_nil.mp h, hs⟩
  | cons l ls ih =>
    obtain ⟨hP, t, ht, hrest⟩ := throughout_cons.mp h
    exact throughout_cons.mpr ⟨⟨hP, hs⟩, t, ht, ih (hI s l t hs ht) hrest⟩

theorem avoids_cons {s : σ} {l : ℓ} {ls : List ℓ} :
    Avoids step bad s (l :: ls) ↔ ¬ bad s l ∧ ∀ t, step s l = .ok t → Avoids step bad t ls := by
  constructor
  · intro h
    refine ⟨h [] l (by simp) s rfl, fun t ht pre m hpre u hu => ?_⟩
    exact h (l :: pre) m (List.cons_prefix_cons.mpr ⟨rfl, hpre⟩) u (foldlM_cons_ok.mpr ⟨t, ht, hu⟩)
  · rintro ⟨hb, h⟩ pre m hpre u hu
    cases pre with
    | nil =>
      obtain ⟨rfl, -⟩ := List.cons_prefix_cons.mp hpre
      obtain rfl : s = u := by simpa using hu
      exact hb
    | cons a pre =>
      obtain ⟨rfl, hp⟩ := List.cons_prefix_cons.mp hpre
      obtain ⟨t, ht, hr⟩ := foldlM_cons_ok.mp hu
      exact h t ht pre m hp u hr

theorem avoids_nil {s : σ} : Avoids step bad s [] := fun pre l hpre => absurd hpre (by simp)

/-- Both notions can be checked on a concrete run. -/
instance decidableThroughout [DecidablePred P] : ∀ s ls, Decidable (Throughout step P s ls)
  | s, [] => decidable_of_iff (P s) throughout_nil.symm
  | s, l :: ls =>
    match h : step s l with
    | .error e => isFalse fun ht => by
      obtain ⟨-, t, ht, -⟩ := throughout_cons.mp ht
      rw [h] at ht
      exact absurd ht (by simp)
    | .ok t =>
      have := decidableThroughout t ls
      decidable_of_iff (P s ∧ Throughout step P t ls) (by rw [throughout_cons, h]; simp)

instance decidableAvoids [∀ s l, Decidable (bad s l)] : ∀ s ls, Decidable (Avoids step bad s ls)
  | s, [] => isTrue avoids_nil
  | s, l :: ls =>
    match h : step s l with
    | .error e => decidable_of_iff (¬ bad s l) (by rw [avoids_cons, h]; simp)
    | .ok t =>
      have := decidableAvoids t ls
      decidable_of_iff (¬ bad s l ∧ Avoids step bad t ls) (by rw [avoids_cons, h]; simp)

/-- **The invariant rule**: a property that every step keeps unless it is bad holds throughout a run
without bad steps. -/
theorem throughout_of_avoids (hgood : ∀ s l, P s → ¬ bad s l → ∃ t, step s l = .ok t ∧ P t)
    {s : σ} {ls : List ℓ} (hs : P s) (h : Avoids step bad s ls) : Throughout step P s ls := by
  induction ls generalizing s with
  | nil => exact throughout_nil.mpr hs
  | cons l ls ih =>
    obtain ⟨hb, hrest⟩ := avoids_cons.mp h
    obtain ⟨t, ht, hP⟩ := hgood s l hs hb
    exact throughout_cons.mpr ⟨hs, t, ht, ih hP (hrest t ht)⟩

/-- **The exactness rule**: if bad steps moreover break the property, a run has it throughout exactly
when it has no bad step. Steps that do either without being bad are set aside. -/
theorem throughout_iff_avoids_of_avoids {aside : σ → ℓ → Prop}
    (hgood : ∀ s l, P s → ¬ aside s l → ¬ bad s l → ∃ t, step s l = .ok t ∧ P t)
    (hbad : ∀ s l t, P s → ¬ aside s l → bad s l → step s l = .ok t → ¬ P t) {s : σ} {ls : List ℓ} (hs : P s)
    (haside : Avoids step aside s ls) : Throughout step P s ls ↔ Avoids step bad s ls := by
  constructor
  · intro h
    induction ls generalizing s with
    | nil => exact avoids_nil
    | cons l ls ih =>
      obtain ⟨hl, hls⟩ := avoids_cons.mp haside
      obtain ⟨-, t, ht, hrest⟩ := throughout_cons.mp h
      have hP : P t := by
        obtain ⟨u, hu, hPu⟩ := hrest [] List.nil_prefix
        obtain rfl : t = u := by simpa using hu
        exact hPu
      refine avoids_cons.mpr ⟨fun hb => hbad s l t hs hl hb ht hP, fun u hu => ?_⟩
      rw [ht] at hu
      injection hu with hu
      exact hu ▸ ih hP (hls t ht) hrest
  · intro h
    have hboth : Avoids step (fun s l => aside s l ∨ bad s l) s ls := fun pre l hpre t ht hor =>
      hor.elim (haside pre l hpre t ht) (h pre l hpre t ht)
    exact throughout_of_avoids (fun s l hP hno => hgood s l hP (fun ha => hno (.inl ha)) fun hb => hno (.inr hb))
      hs hboth

theorem throughout_iff_avoids (hgood : ∀ s l, P s → ¬ bad s l → ∃ t, step s l = .ok t ∧ P t)
    (hbad : ∀ s l t, P s → bad s l → step s l = .ok t → ¬ P t) {s : σ} {ls : List ℓ} (hs : P s) :
    Throughout step P s ls ↔ Avoids step bad s ls := by
  have hnone : Avoids step (fun _ _ => False) s ls := fun _ _ _ _ _ => id
  exact throughout_iff_avoids_of_avoids (fun s l hP _ => hgood s l hP) (fun s l t hP _ => hbad s l t hP) hs hnone

end DataSync.Lib.Runs
