import Mathlib

/-! # Byte strings and the numbers they spell

`leNat` and `beNat` read a byte string as an unsigned number, least and most significant byte first;
`leBytes` and `beBytes` write one of a given width. Writing and reading back is reduction modulo
`256 ^ w` (`leNat_leBytes`, `beNat_beBytes_of_lt`). `toSigned w` is the two's complement reading of a `w`-bit number. -/

namespace DataSync.Lib.Words

/-- A byte string. -/
abbrev Bytes := List UInt8

/-- The number a byte string spells, least significant byte first. -/
def leNat : Bytes → ℕ
  | [] => 0
  | b :: bs => b.toNat + 256 * leNat bs

/-- The `w` low bytes of `n`, least significant first. -/
def leBytes : ℕ → ℕ → Bytes
  | 0, _ => []
  | w + 1, n => UInt8.ofNat n :: leBytes w (n / 256)

/-- The number a byte string spells, most significant byte first. -/
def beNat (bs : Bytes) : ℕ := leNat bs.reverse

/-- The `w` low bytes of `n`, most significant first. -/
def beBytes (w n : ℕ) : Bytes := (leBytes w n).reverse

/-- The two's complement reading of a `w`-bit number. -/
def toSigned (w n : ℕ) : ℤ := Int.bmod n (2 ^ w)

/-- The `w`-bit two's complement pattern of an integer. -/
def ofSigned (w : ℕ) (v : ℤ) : ℕ := (v % 2 ^ w).toNat

/-- The bytes before the first NUL: what a C string keeps of a buffer. -/
def cStr (bs : Bytes) : Bytes := bs.takeWhile (· ≠ 0)

@[simp] theorem length_leBytes (w n : ℕ) : (leBytes w n).length = w := by
  induction w generalizing n with
  | zero => rfl
  | succ w ih => simp [leBytes, ih]

@[simp] theorem length_beBytes (w n : ℕ) : (beBytes w n).length = w := by simp [beBytes]

theorem leNat_lt (bs : Bytes) : leNat bs < 256 ^ bs.length := by
  induction bs with
  | nil => simp [leNat]
  | cons b bs ih =>
    have hb := b.toNat_lt
    simp only [leNat, List.length_cons, pow_succ]
    omega

theorem leNat_append (xs ys : Bytes) :
    leNat (xs ++ ys) = leNat xs + 256 ^ xs.length * leNat ys := by
  induction xs with
  | nil => simp [leNat]
  | cons x xs ih =>
    simp only [List.cons_append, leNat, ih, List.length_cons, pow_succ]
    ring

/-- **Writing and reading back** keeps the number modulo `256 ^ w`. -/
theorem leNat_leBytes (w n : ℕ) : leNat (leBytes w n) = n % 256 ^ w := by
  induction w generalizing n with
  | zero => simp [leBytes, leNat, Nat.mod_one]
  | succ w ih =>
    have h : n % 256 ^ (w + 1) = n % 256 + 256 * (n / 256 % 256 ^ w) := by
      rw [pow_succ', Nat.mod_mul]
    simp [leBytes, leNat, ih, h]

/-- The low bytes first, then the high ones. -/
theorem leBytes_add (v w n : ℕ) : leBytes (v + w) n = leBytes v n ++ leBytes w (n / 256 ^ v) := by
  induction v generalizing n with
  | zero => simp [leBytes]
  | succ v ih =>
    rw [Nat.succ_add, leBytes, ih, Nat.div_div_eq_div_mul, ← pow_succ', leBytes, List.cons_append]

theorem leNat_leBytes_of_lt {w n : ℕ} (h : n < 256 ^ w) : leNat (leBytes w n) = n := by
  rw [leNat_leBytes, Nat.mod_eq_of_lt h]

theorem beNat_beBytes_of_lt {w n : ℕ} (h : n < 256 ^ w) : beNat (beBytes w n) = n := by
  simp [beNat, beBytes, leNat_leBytes_of_lt h]

/-! ### Windows -/

theorem drop_at {xs ys : Bytes} {k : ℕ} (hk : k = xs.length) : (xs ++ ys).drop k = ys := by
  rw [hk, List.drop_left]

theorem take_at {xs ys : Bytes} {k : ℕ} (hk : k = xs.length) : (xs ++ ys).take k = xs := by
  rw [hk, List.take_left]

/-- The window of length `n` at `k`. -/
theorem window_at {xs ys zs : Bytes} {k n : ℕ} (hk : k = xs.length) (hn : n = ys.length) :
    ((xs ++ (ys ++ zs)).drop k).take n = ys := by
  rw [drop_at hk, take_at hn]

/-! ### Pieces -/

section Pieces
variable {α : Type*} {f : α → Bytes} {xs : List α}

/-- Pieces that are not empty are at most as many as their bytes. -/
theorem length_le_flatMap (h : ∀ x ∈ xs, f x ≠ []) : xs.length ≤ (xs.flatMap f).length := by
  induction xs with
  | nil => exact Nat.zero_le _
  | cons x xs ih =>
    have hpos := List.length_pos_iff.mpr (h x List.mem_cons_self)
    have hrest := ih fun y hy => h y (List.mem_cons_of_mem x hy)
    rw [List.flatMap_cons, List.length_append, List.length_cons]
    omega

/-- A piece is at most as long as all of them. -/
theorem length_le_flatMap_of_mem {x : α} (hx : x ∈ xs) : (f x).length ≤ (xs.flatMap f).length := by
  rw [List.flatMap_def]
  exact (List.sublist_flatten_of_mem (List.mem_map_of_mem hx)).length_le

end Pieces

/-! ### Two's complement -/

theorem bmod_two_pow {w : ℕ} {v : ℤ} (hw : 0 < w) (hlo : -2 ^ w ≤ 2 * v) (hhi : 2 * v < 2 ^ w) :
    Int.bmod v (2 ^ w) = v := by
  obtain ⟨w, rfl⟩ : ∃ k, w = k + 1 := ⟨w - 1, by omega⟩
  have hcast : ((2 ^ (w + 1) : ℕ) : ℤ) = 2 * 2 ^ w := by push_cast; ring
  rw [pow_succ'] at hlo hhi
  rw [Int.bmod_eq_of_le] <;> rw [hcast] <;> omega

theorem toSigned_of_lt {w n : ℕ} (hw : 0 < w) (h : 2 * n < 2 ^ w) : toSigned w n = n := by
  have h' : (2 : ℤ) * n < 2 ^ w := by exact_mod_cast h
  have hpos : (0 : ℤ) < 2 ^ w := by positivity
  exact bmod_two_pow hw (by omega) h'

theorem toSigned_add_pow (w n : ℕ) : toSigned w (n + 2 ^ w) = toSigned w n := by
  rw [toSigned, Nat.cast_add, Int.add_bmod_right]
  rfl

/-- **Two's complement round trip**: the `w`-bit pattern of `v` reads back as `v`. -/
theorem toSigned_ofSigned {w : ℕ} {v : ℤ} (hw : 0 < w) (hlo : -2 ^ w ≤ 2 * v)
    (hhi : 2 * v < 2 ^ w) : toSigned w (ofSigned w v) = v := by
  have hpos : (0 : ℤ) < 2 ^ w := by positivity
  have hnn : 0 ≤ v % 2 ^ w := Int.emod_nonneg _ hpos.ne'
  have hcast : ((2 ^ w : ℕ) : ℤ) = 2 ^ w := by push_cast; rfl
  have h := Int.emod_bmod v (2 ^ w)
  rw [hcast] at h
  unfold toSigned ofSigned
  rw [Int.toNat_of_nonneg hnn, h, bmod_two_pow hw hlo hhi]

theorem ofSigned_lt (w : ℕ) (v : ℤ) : ofSigned w v < 2 ^ w := by
  have hpos : (0 : ℤ) < 2 ^ w := by positivity
  have h1 := Int.emod_nonneg v hpos.ne'
  have h2 := Int.emod_lt_of_pos v hpos
  unfold ofSigned
  zify
  rw [Int.toNat_of_nonneg h1]
  exact h2

theorem ofSigned_of_range {w : ℕ} {v : ℤ} (h0 : 0 ≤ v) (h : v < 2 ^ w) : (ofSigned w v : ℤ) = v := by
  unfold ofSigned
  rw [Int.emod_eq_of_lt h0 h, Int.toNat_of_nonneg h0]

theorem coe_ofSigned (w : ℕ) (v : ℤ) : (ofSigned w v : ℤ) = v % 2 ^ w :=
  Int.toNat_of_nonneg (Int.emod_nonneg v (by positivity))

/-! ### C strings -/

theorem cStr_of_no_nul {bs : Bytes} (h : ∀ b ∈ bs, b ≠ 0) : cStr bs = bs := by
  unfold cStr
  rw [List.takeWhile_eq_self_iff]
  simpa using h

theorem cStr_eq_self_iff {bs : Bytes} : cStr bs = bs ↔ 0 ∉ bs := by
  constructor
  · intro h hmem
    rw [← h] at hmem
    have hb := List.mem_takeWhile_imp hmem
    simp at hb
  · exact fun h => cStr_of_no_nul fun b hb => ne_of_mem_of_not_mem hb h

theorem cStr_append_nul {bs : Bytes} (h : 0 ∉ bs) (rest : Bytes) : cStr (bs ++ 0 :: rest) = bs := by
  unfold cStr
  rw [List.takeWhile_append_of_pos fun b hb => by simpa using ne_of_mem_of_not_mem hb h]
  simp

@[simp] theorem cStr_cStr (bs : Bytes) : cStr (cStr bs) = cStr bs := by
  refine cStr_of_no_nul fun b hb => ?_
  simpa using List.mem_takeWhile_imp hb

end DataSync.Lib.Words
