import Mathlib

/-! # Decimal digit strings

`val` reads a string of decimal digits, most significant first. A string of digits is zero exactly when
all of them are (`val_eq_zero_iff`), and is below the power of ten of its length (`val_lt`). -/

namespace DataSync.Lib.Digits

/-- The number a string of decimal digits spells, most significant digit first. -/
def val (ds : List ℕ) : ℕ := Nat.ofDigits 10 ds.reverse

/-- Every entry is a decimal digit. -/
def AreDigits (ds : List ℕ) : Prop := ∀ d ∈ ds, d < 10

instance (ds : List ℕ) : Decidable (AreDigits ds) := inferInstanceAs (Decidable (∀ d ∈ ds, d < 10))

@[simp] theorem val_nil : val [] = 0 := rfl

theorem val_append (xs ys : List ℕ) : val (xs ++ ys) = val xs * 10 ^ ys.length + val ys := by
  simp only [val, List.reverse_append, Nat.ofDigits_append, List.length_reverse]
  ring

theorem val_cons (d : ℕ) (ds : List ℕ) : val (d :: ds) = d * 10 ^ ds.length + val ds := by
  have h := val_append [d] ds
  simpa [val] using h

theorem val_concat (ds : List ℕ) (d : ℕ) : val (ds ++ [d]) = val ds * 10 + d := by
  rw [val_append]
  simp [val]

theorem val_lt {ds : List ℕ} (h : AreDigits ds) : val ds < 10 ^ ds.length := by
  have h' := Nat.ofDigits_lt_base_pow_length (b := 10) (l := ds.reverse) (by norm_num)
    (fun d hd => h d (List.mem_reverse.mp hd))
  simpa [val] using h'

theorem val_eq_zero_iff {ds : List ℕ} : val ds = 0 ↔ ∀ d ∈ ds, d = 0 := by
  induction ds with
  | nil => simp
  | cons d ds ih => simp [val_cons, ih]

theorem AreDigits.tail {d : ℕ} {ds : List ℕ} (h : AreDigits (d :: ds)) : AreDigits ds :=
  fun x hx => h x (List.mem_cons_of_mem d hx)

theorem AreDigits.left {xs ys : List ℕ} (h : AreDigits (xs ++ ys)) : AreDigits xs :=
  fun x hx => h x (List.mem_append_left ys hx)

theorem AreDigits.right {xs ys : List ℕ} (h : AreDigits (xs ++ ys)) : AreDigits ys :=
  fun x hx => h x (List.mem_append_right xs hx)

theorem AreDigits.take {ds : List ℕ} (h : AreDigits ds) (k : ℕ) : AreDigits (ds.take k) :=
  fun x hx => h x (List.mem_of_mem_take hx)

theorem AreDigits.drop {ds : List ℕ} (h : AreDigits ds) (k : ℕ) : AreDigits (ds.drop k) :=
  fun x hx => h x (List.mem_of_mem_drop hx)

end DataSync.Lib.Digits
