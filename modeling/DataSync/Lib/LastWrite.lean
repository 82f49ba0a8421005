import Mathlib.Data.List.Induction
import Mathlib.Tactic.Common

/-! # The last item of a kind

A register that every matching item of a stream overwrites holds the last of them. `lastWhere` is the
place of the last item of a list with a property; `lastWhere_concat` says what one more item does to it.
`lastWhere_eq_iff_of_imp`: for a coarser property it is the same place exactly when the last item with
the coarser one has the finer one. -/

namespace DataSync.Lib.LastWrite

variable {α : Type} (P : α → Bool)

/-- Where the last item with the property stands. -/
def lastWhere : List α → Option ℕ
  | [] => none
  | x :: xs =>
    match lastWhere xs with
    | some i => some (i + 1)
    | none => if P x then some 0 else none

/-- **One more item** is the last one, or leaves the last one where it was. -/
theorem lastWhere_concat (xs : List α) (x : α) :
    lastWhere P (xs ++ [x]) = if P x then some xs.length else lastWhere P xs := by
  induction xs with
  | nil => rfl
  | cons y xs ih =>
    rw [List.cons_append, lastWhere, ih, lastWhere]
    split_ifs <;> rfl

variable {P}

/-- The items of a list with one more. -/
theorem getElem?_concat_iff {xs : List α} {x y : α} {i : ℕ} :
    (xs ++ [x])[i]? = some y ↔ xs[i]? = some y ∨ i = xs.length ∧ x = y := by
  rcases Nat.lt_trichotomy i xs.length with hlt | rfl | hgt
  · rw [List.getElem?_append_left hlt]
    exact (or_iff_left fun h => (Nat.ne_of_lt hlt) h.1).symm
  · rw [List.getElem?_concat_length, List.getElem?_eq_none (Nat.le_refl _)]
    simp
  · have hlen : (xs ++ [x]).length ≤ i := by rw [List.length_append, List.length_singleton]; omega
    rw [List.getElem?_eq_none hlen, List.getElem?_eq_none (Nat.le_of_lt hgt)]
    simp [Nat.ne_of_gt hgt]

/-- The last item has the property, and none behind it does. -/
theorem lastWhere_eq_some_iff {xs : List α} {i : ℕ} : lastWhere P xs = some i ↔
    (∃ x, xs[i]? = some x ∧ P x) ∧ ∀ j x, i < j → xs[j]? = some x → ¬ P x := by
  induction xs using List.reverseRecOn generalizing i with
  | nil => simp [lastWhere]
  | append_singleton xs x ih =>
    have hlt {j : ℕ} {y : α} (h : xs[j]? = some y) : j < xs.length := (List.getElem?_eq_some_iff.mp h).1
    rw [lastWhere_concat]
    simp only [getElem?_concat_iff]
    split_ifs with hx
    · rw [Option.some.injEq]
      constructor
      · rintro rfl
        refine ⟨⟨x, .inr ⟨rfl, rfl⟩, hx⟩, ?_⟩
        rintro j y hj (hy | ⟨rfl, -⟩)
        · exact absurd (hlt hy) (by omega)
        · omega
      · rintro ⟨⟨y, hy | ⟨rfl, -⟩, -⟩, hbehind⟩
        · exact absurd hx (hbehind xs.length x (hlt hy) (.inr ⟨rfl, rfl⟩))
        · rfl
    · rw [ih]
      constructor
      · rintro ⟨⟨y, hy, hPy⟩, hbehind⟩
        refine ⟨⟨y, .inl hy, hPy⟩, ?_⟩
        rintro j z hj (hz | ⟨-, rfl⟩)
        · exact hbehind j z hj hz
        · exact hx
      · rintro ⟨⟨y, hy | ⟨-, rfl⟩, hPy⟩, hbehind⟩
        · exact ⟨⟨y, hy, hPy⟩, fun j z hj hz => hbehind j z hj (.inl hz)⟩
        · exact absurd hPy hx

/-- **The last item with a coarser property** is the last one with the finer property exactly when it has
that one, too. -/
theorem lastWhere_eq_iff_of_imp {Q : α → Bool} (hPQ : ∀ x, P x → Q x) {xs : List α} :
    lastWhere Q xs = lastWhere P xs ↔ ∀ i x, lastWhere Q xs = some i → xs[i]? = some x → P x := by
  constructor
  · intro h i x hi hx
    rw [h] at hi
    obtain ⟨⟨y, hy, hPy⟩, -⟩ := lastWhere_eq_some_iff.mp hi
    obtain rfl : y = x := Option.some.inj (hy.symm.trans hx)
    exact hPy
  · intro h
    induction xs using List.reverseRecOn with
    | nil => rfl
    | append_singleton xs x ih =>
      simp only [lastWhere_concat, getElem?_concat_iff] at h ⊢
      by_cases hQ : Q x
      · have hP : P x := h xs.length x (if_pos hQ) (.inr ⟨rfl, rfl⟩)
        rw [if_pos hQ, if_pos hP]
      · have hP : ¬ P x := fun hP => hQ (hPQ x hP)
        rw [if_neg hQ, if_neg hP]
        exact ih fun i y hi hy => h i y ((if_neg hQ).trans hi) (.inl hy)

end DataSync.Lib.LastWrite
