import Mathlib

/-! # Data processed in blocks

A state takes in data block by block, and keeps what does not fill a block. `absorb_append`: data that comes
in pieces leaves the state and the rest that it leaves as a whole. `absorb_map`: a map of the states that
every block respects respects the whole. -/

namespace DataSync.Lib.BlockHash

variable {σ τ α : Type*}

/-- The blocks of `n` elements in `data`, `k` of them, given to `process`. -/
def feed (process : σ → List α → σ) (n : ℕ) : ℕ → σ → List α → σ × List α
  | 0, s, data => (s, data)
  | k + 1, s, data => feed process n k (process s (data.take n)) (data.drop n)

/-- All whole blocks given to `process`; the rest is kept. -/
def absorb (process : σ → List α → σ) (n : ℕ) (s : σ) (data : List α) : σ × List α :=
  feed process n (data.length / n) s data

variable {process : σ → List α → σ} {n : ℕ}

theorem absorb_short {s : σ} {data : List α} (h : data.length < n) : absorb process n s data = (s, data) := by
  rw [absorb, Nat.div_eq_of_lt h, feed]

/-- One block. -/
theorem absorb_block (hn : 0 < n) {s : σ} {data : List α} (h : n ≤ data.length) :
    absorb process n s data = absorb process n (process s (data.take n)) (data.drop n) := by
  have hdiv : data.length / n = (data.length - n) / n + 1 := by
    rw [← Nat.add_div_right _ hn, Nat.sub_add_cancel h]
  rw [absorb, hdiv, feed, absorb, List.length_drop]

theorem absorb_block_append (hn : 0 < n) {s : σ} {block rest : List α} (h : block.length = n) :
    absorb process n s (block ++ rest) = absorb process n (process s block) rest := by
  rw [absorb_block hn (by rw [List.length_append]; omega), List.take_left' h, List.drop_left' h]

variable (process)

/-- The data in blocks: one rule for all that is said of `absorb`. -/
theorem absorb_induction (hn : 0 < n) {P : σ → List α → Prop}
    (short : ∀ s data, data.length < n → P s data)
    (block : ∀ s (b rest : List α), b.length = n → P (process s b) rest → P s (b ++ rest)) (s : σ)
    (data : List α) : P s data := by
  suffices h : ∀ (k : ℕ) (s : σ) (data : List α), data.length ≤ k → P s data from h _ s data (le_refl _)
  intro k
  induction k with
  | zero => exact fun s data h => short s data (by omega)
  | succ k ih =>
    intro s data h
    by_cases hlt : data.length < n
    · exact short s data hlt
    · rw [← List.take_append_drop n data]
      refine block s _ _ (by rw [List.length_take]; omega) (ih _ _ ?_)
      rw [List.length_drop]
      omega

/-- **Data in pieces.** -/
theorem absorb_append (hn : 0 < n) (s : σ) (xs ys : List α) :
    absorb process n s (xs ++ ys) =
      absorb process n (absorb process n s xs).1 ((absorb process n s xs).2 ++ ys) := by
  induction s, xs using absorb_induction process hn with
  | short s xs h => rw [absorb_short h]
  | block s b rest h ih => rw [List.append_assoc, absorb_block_append hn h, absorb_block_append hn h, ih]

theorem length_absorb (hn : 0 < n) (s : σ) (data : List α) :
    (absorb process n s data).2.length = data.length % n := by
  induction s, data using absorb_induction process hn with
  | short s data h => rw [absorb_short h, Nat.mod_eq_of_lt h]
  | block s b rest h ih => rw [absorb_block_append hn h, ih, List.length_append, h, Nat.add_mod_left]

/-- A map of the states that every block respects. -/
theorem absorb_map (process' : τ → List α → τ) (hn : 0 < n) (f : σ → τ)
    (hf : ∀ s b, f (process s b) = process' (f s) b) (s : σ) (data : List α) :
    absorb process' n (f s) data = ((f (absorb process n s data).1), (absorb process n s data).2) := by
  induction s, data using absorb_induction process hn with
  | short s data h => rw [absorb_short h, absorb_short h]
  | block s b rest h ih => rw [absorb_block_append hn h, absorb_block_append hn h, ← ih, hf]

end DataSync.Lib.BlockHash
