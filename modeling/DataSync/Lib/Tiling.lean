import Mathlib

/-! # Windows that meet

Half-open windows over a linear order. When each ends where the next begins, everything between the first
lower bound and the last upper bound is in exactly one of them: `existsUnique_window`. -/

namespace DataSync.Lib.Tiling

variable {α : Type} [LinearOrder α]

/-- A window, without its lower bound and with its upper one. -/
structure Window (α : Type) where
  lower : α
  upper : α
  deriving DecidableEq, Repr

/-- The point is in the window. -/
def Window.Holds (w : Window α) (d : α) : Prop := w.lower < d ∧ d ≤ w.upper

/-- Each window ends where the next one begins. -/
def Contiguous (ws : List (Window α)) : Prop := ws.IsChain fun v w => v.upper = w.lower

/-- The windows are contiguous, and everything between their outer bounds is in exactly one of them. -/
def Tiles (ws : List (Window α)) : Prop :=
  Contiguous ws ∧ ∀ first ∈ ws.head?, ∀ last ∈ ws.getLast?, ∀ d, first.lower < d → d ≤ last.upper →
    ∃! k : ℕ, ∃ w ∈ ws[k]?, w.Holds d

theorem first_lower_le {v : Window α} {ws : List (Window α)} (hmeet : Contiguous (v :: ws))
    (hle : ∀ w ∈ v :: ws, w.lower ≤ w.upper) : ∀ w ∈ v :: ws, v.lower ≤ w.lower := by
  induction ws generalizing v with
  | nil =>
    rintro w hw
    rw [List.mem_singleton.mp hw]
  | cons u ws ih =>
    rw [Contiguous, List.isChain_cons_cons] at hmeet
    rintro w hw
    rcases List.mem_cons.mp hw with rfl | hw
    · exact le_rfl
    · calc v.lower ≤ v.upper := hle v List.mem_cons_self
        _ = u.lower := hmeet.1
        _ ≤ w.lower := ih hmeet.2 (fun x hx => hle x (List.mem_cons_of_mem v hx)) w hw

/-- **Windows that meet** hold every point between their outer bounds exactly once. -/
theorem existsUnique_window {ws : List (Window α)} (hmeet : Contiguous ws)
    (hle : ∀ w ∈ ws, w.lower ≤ w.upper) {first last : Window α} (hfirst : first ∈ ws.head?)
    (hlast : last ∈ ws.getLast?) {d : α} (hlower : first.lower < d) (hupper : d ≤ last.upper) :
    ∃! k : ℕ, ∃ w ∈ ws[k]?, w.Holds d := by
  induction ws generalizing first with
  | nil => cases hfirst
  | cons v ws ih =>
    obtain rfl : v = first := Option.some.inj hfirst
    rcases ws with _ | ⟨u, ws⟩
    · obtain rfl : v = last := Option.some.inj hlast
      refine ⟨0, ⟨v, rfl, hlower, hupper⟩, ?_⟩
      rintro (_ | k) ⟨w, hw, -⟩
      · rfl
      · cases hw
    rw [Contiguous, List.isChain_cons_cons] at hmeet
    have hle' : ∀ w ∈ u :: ws, w.lower ≤ w.upper := fun w hw => hle w (List.mem_cons_of_mem v hw)
    by_cases hd : d ≤ v.upper
    · refine ⟨0, ⟨v, rfl, hlower, hd⟩, ?_⟩
      rintro (_ | k) ⟨w, hw, hin, -⟩
      · rfl
      · -- the windows behind begin at the end of this one
        have hlate := first_lower_le hmeet.2 hle' w (List.mem_of_getElem? hw)
        rw [← hmeet.1] at hlate
        exact absurd hin (not_lt.mpr (hd.trans hlate))
    · obtain ⟨k, hk, hunique⟩ := ih hmeet.2 hle' rfl (by rwa [List.getLast?_cons_cons] at hlast)
        (hmeet.1 ▸ lt_of_not_ge hd)
      refine ⟨k + 1, hk, ?_⟩
      rintro (_ | j) ⟨w, hw, hin⟩
      · obtain rfl : v = w := Option.some.inj hw
        exact absurd hin.2 hd
      · rw [hunique j ⟨w, hw, hin⟩]

/-- A single window tiles what it holds. -/
theorem tiles_singleton (w : Window α) : Tiles [w] := by
  refine ⟨List.IsChain.singleton w, ?_⟩
  rintro first hfirst last hlast d hlower hupper
  obtain rfl : w = first := Option.some.inj hfirst
  obtain rfl : w = last := Option.some.inj hlast
  refine existsUnique_window (List.IsChain.singleton w) (fun v hv => ?_) hfirst hlast hlower hupper
  rw [List.mem_singleton.mp hv]
  exact hlower.le.trans hupper

end DataSync.Lib.Tiling
