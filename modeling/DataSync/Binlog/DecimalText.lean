import DataSync.Binlog.Decimal
import DataSync.Lib.Digits

/-! # DECIMAL: what is stored is what is printed

`DecimalValue precision scale` is a value of a `DECIMAL(precision, scale)` column: a sign and its digits
before and behind the point. `DecimalValue.bytes` is its stored form, `DecimalValue.text` its text.

`bin2decimal_bytes` and `decimal2string_decimal`: for every precision up to 65 the decoder of a row reads
the stored form back to the text. The integer words are followed through `bin2decimal` as groups of digits; `dropZero` is what
becomes of them. -/

namespace DataSync.Binlog.DecimalText

open DataSync.Lib.Words DataSync.Lib.Memory DataSync.Lib.Digits DataSync.Binlog.Decimal

/-- A value of a `DECIMAL(precision, scale)` column: zero has no sign. -/
structure DecimalValue (precision scale : ℕ) where
  neg : Bool
  intg : List ℕ
  frac : List ℕ
  intg_length : intg.length = precision - scale
  frac_length : frac.length = scale
  intg_digits : AreDigits intg
  frac_digits : AreDigits frac
  neg_ne_zero : neg = true → val (intg ++ frac) ≠ 0

/-- The text of a value: no leading zeros, but one digit before the point. -/
def DecimalValue.text {precision scale : ℕ} (v : DecimalValue precision scale) : Bytes :=
  (if v.neg then [45] else []) ++
    (match v.intg.dropWhile (· = 0) with
      | [] => [48]
      | ds => ds.map digitChar) ++
    (if v.frac = [] then [] else 46 :: v.frac.map digitChar)

/-- `k` groups of nine digits. -/
def nines : ℕ → List ℕ → List (List ℕ)
  | 0, _ => []
  | k + 1, ds => ds.take 9 :: nines k (ds.drop 9)

/-- A word of `n` bytes, complemented when the number is negative. -/
def wordBytes (neg : Bool) (n x : ℕ) : Bytes :=
  (beBytes n x).map fun b => if neg then ~~~b else b

/-- The words of a value, the sign bit not yet flipped. -/
def wordsBytes (neg : Bool) (intg frac : List ℕ) : Bytes :=
  wordBytes neg (dig2bytes (intg.length % 9)) (val (intg.take (intg.length % 9))) ++
    (nines (intg.length / 9) (intg.drop (intg.length % 9))).flatMap (wordBytes neg 4 <| val ·) ++
    (nines (frac.length / 9) frac).flatMap (wordBytes neg 4 <| val ·) ++
    wordBytes neg (dig2bytes (frac.length % 9)) (val (frac.drop (9 * (frac.length / 9))))

/-- The first byte with its sign bit flipped. -/
def flipSign : Bytes → Bytes
  | [] => []
  | b :: bs => (b ^^^ 0x80) :: bs

/-- The stored form of a value. -/
def DecimalValue.bytes {precision scale : ℕ} (v : DecimalValue precision scale) : Bytes :=
  flipSign (wordsBytes v.neg v.intg v.frac)

/-! ### Groups of digits -/

theorem nines_length {k : ℕ} {ds : List ℕ} : (nines k ds).length = k := by
  induction k generalizing ds with
  | zero => rfl
  | succ k ih => simp [nines, ih]

theorem nines_flatten {k : ℕ} {ds : List ℕ} : (nines k ds).flatten = ds.take (9 * k) := by
  induction k generalizing ds with
  | zero => simp [nines]
  | succ k ih =>
    rw [nines, List.flatten_cons, ih, Nat.mul_succ, Nat.add_comm, List.take_add]

theorem length_of_mem_nines {k : ℕ} {ds g : List ℕ} (h : 9 * k ≤ ds.length) (hg : g ∈ nines k ds) :
    g.length = 9 := by
  induction k generalizing ds with
  | zero => simp [nines] at hg
  | succ k ih =>
    rcases List.mem_cons.mp hg with rfl | hg
    · simp only [List.length_take]; omega
    · exact ih (by simp only [List.length_drop]; omega) hg

theorem digits_of_mem_nines {k : ℕ} {ds g : List ℕ} (h : AreDigits ds) (hg : g ∈ nines k ds) :
    AreDigits g := by
  induction k generalizing ds with
  | zero => simp [nines] at hg
  | succ k ih =>
    rcases List.mem_cons.mp hg with rfl | hg
    · exact h.take 9
    · exact ih (h.drop 9) hg

/-! ### Digits of a word -/

/-- The low digits of a word are its last digits. -/
theorem lowDigits_val (xs : List ℕ) {ys : List ℕ} (h : AreDigits ys) :
    lowDigits ys.length (val (xs ++ ys)) = ys.reverse := by
  induction ys using List.reverseRecOn with
  | nil => rfl
  | append_singleton ys d ih =>
    have hd : d < 10 := h d (by simp)
    have hval : val (xs ++ (ys ++ [d])) = val (xs ++ ys) * 10 + d := by
      rw [← List.append_assoc, val_concat]
    have hdiv : (val (xs ++ ys) * 10 + d) / 10 = val (xs ++ ys) := by omega
    rw [List.length_append, List.length_singleton, hval, lowDigits, hdiv, ih h.left,
      Nat.add_sub_cancel_left, List.reverse_append, List.reverse_singleton, List.singleton_append]

/-- The top digits of a word that `ds` fills up to nine digits. -/
theorem topDigits_val {ds : List ℕ} (h : AreDigits ds) (hlen : ds.length ≤ 9) {k : ℕ}
    (hk : k ≤ ds.length) : topDigits k (val ds * 10 ^ (9 - ds.length)) = ds.take k := by
  induction k generalizing ds with
  | zero => rfl
  | succ k ih =>
    match ds, h, hlen, hk with
    | d :: ds, h, hlen, hk =>
      simp only [List.length_cons] at hlen hk
      have hlt : val ds * 10 ^ (8 - ds.length) < 100000000 := by
        have h1 := val_lt h.tail
        have h2 : 10 ^ ds.length * 10 ^ (8 - ds.length) = 100000000 := by
          rw [← pow_add, show ds.length + (8 - ds.length) = 8 by omega]
          norm_num
        calc val ds * 10 ^ (8 - ds.length) < 10 ^ ds.length * 10 ^ (8 - ds.length) :=
              Nat.mul_lt_mul_of_pos_right h1 (by positivity)
          _ = 100000000 := h2
      have hx : val (d :: ds) * 10 ^ (9 - (d :: ds).length) =
          d * 100000000 + val ds * 10 ^ (8 - ds.length) := by
        have h2 : 10 ^ ds.length * 10 ^ (8 - ds.length) = 100000000 := by
          rw [← pow_add, show ds.length + (8 - ds.length) = 8 by omega]
          norm_num
        rw [val_cons, List.length_cons, show 9 - (ds.length + 1) = 8 - ds.length by omega, add_mul,
          mul_assoc, h2]
      have hdiv : (d * 100000000 + val ds * 10 ^ (8 - ds.length)) / 100000000 = d := by omega
      have hnext : val ds * 10 ^ (8 - ds.length) * 10 = val ds * 10 ^ (9 - ds.length) := by
        rw [show 9 - ds.length = 8 - ds.length + 1 by omega, pow_succ, mul_assoc]
      rw [topDigits, hx, hdiv, Nat.add_sub_cancel_left, hnext, ih h.tail (by omega) (by omega),
        List.take_succ_cons]

/-- The leading zeros of a word that is not zero. -/
theorem countLeadingZeroes_val {ds : List ℕ} {i : ℕ} (h : AreDigits ds) (hlen : ds.length = i + 1)
    (hne : val ds ≠ 0) : countLeadingZeroes i (val ds) = ds.length - (ds.dropWhile (· = 0)).length := by
  induction i generalizing ds with
  | zero =>
    obtain ⟨d, rfl⟩ := List.length_eq_one_iff.mp hlen
    have hd : d ≠ 0 := by simpa [val_eq_zero_iff] using hne
    have hv : val [d] = d := by simp [val]
    have h1 : 1 ≤ d := by omega
    simp [countLeadingZeroes, hv, hd, h1]
  | succ i ih =>
    obtain ⟨d, ds, rfl⟩ := List.exists_cons_of_length_eq_add_one hlen
    simp only [List.length_cons, Nat.add_right_cancel_iff] at hlen
    have hlt := val_lt h.tail
    rw [countLeadingZeroes, val_cons, hlen]
    rw [hlen] at hlt
    by_cases hd : d = 0
    · subst hd
      have hne' : val ds ≠ 0 := by simpa [val_cons] using hne
      have hle := List.length_dropWhile_le (p := fun x : ℕ => decide (x = 0)) (l := ds)
      rw [zero_mul, zero_add, if_neg (by omega), ih h.tail hlen hne']
      simp only [List.length_cons, decide_true, List.dropWhile_cons_of_pos]
      omega
    · have hge : 10 ^ (i + 1) ≤ d * 10 ^ (i + 1) + val ds :=
        le_trans (Nat.le_mul_of_pos_left _ (by omega)) (Nat.le_add_right _ _)
      rw [if_pos hge]
      simp [hd]

/-! ### Reading one word -/

theorem leNat_complement (bs : Bytes) :
    leNat (bs.map fun b => ~~~b) + leNat bs = 256 ^ bs.length - 1 := by
  induction bs with
  | nil => rfl
  | cons b bs ih =>
    have hb : (~~~b).toNat = 255 - b.toNat := by
      rw [UInt8.toNat_not]
      rfl
    have hlt := b.toNat_lt
    have hpos : 0 < 256 ^ bs.length := by positivity
    simp only [List.map_cons, leNat, List.length_cons, pow_succ, hb]
    omega

@[simp] theorem length_wordBytes (neg : Bool) (n x : ℕ) : (wordBytes neg n x).length = n := by
  simp [wordBytes]

/-- **A word reads back**, complemented or not. -/
theorem readWord_wordBytes (neg : Bool) {n x : ℕ} (hn : 0 < n) (hx : 2 * x < 2 ^ (8 * n))
    (rest : Bytes) : readWord neg n (wordBytes neg n x ++ rest) = x := by
  have hpow : 256 ^ n = 2 ^ (8 * n) := by rw [pow_mul]; norm_num
  have hsmall : x < 256 ^ n := by omega
  unfold readWord
  rw [take_at (length_wordBytes neg n x).symm]
  unfold wordBytes beNat
  cases neg with
  | false =>
    simp only [Bool.false_eq_true, if_false, List.map_id', beBytes, List.reverse_reverse]
    rw [leNat_leBytes_of_lt hsmall, toSigned_of_lt (by omega) hx]
  | true =>
    have hcompl := leNat_complement (leBytes n x)
    rw [leNat_leBytes_of_lt hsmall, length_leBytes] at hcompl
    simp only [if_true, beBytes, List.map_reverse, List.reverse_reverse]
    -- the complement is `2 ^ (8 * n) - 1 - x`, which reads as `-1 - x`
    have hval : (leNat ((leBytes n x).map fun b => ~~~b) : ℤ) = 2 ^ (8 * n) - 1 - x := by
      have h1 : leNat ((leBytes n x).map fun b => ~~~b) = 256 ^ n - 1 - x := by omega
      have hcast : ((2 ^ (8 * n) : ℕ) : ℤ) = 2 ^ (8 * n) := by push_cast; rfl
      rw [h1, hpow, ← hcast]
      omega
    have hsigned : toSigned (8 * n) (leNat ((leBytes n x).map fun b => ~~~b)) = -1 - x := by
      have hcast : (2 : ℤ) ^ (8 * n) = ((2 ^ (8 * n) : ℕ) : ℤ) := by push_cast; rfl
      have hx' : (2 : ℤ) * x < 2 ^ (8 * n) := by exact_mod_cast hx
      have hsplit : (2 : ℤ) ^ (8 * n) - 1 - x = (-1 - x) + ((2 ^ (8 * n) : ℕ) : ℤ) := by
        rw [← hcast]; ring
      have heven : (2 : ℤ) ^ (8 * n) = 2 * 2 ^ (8 * n - 1) := by
        rw [← pow_succ', Nat.sub_add_cancel (by omega)]
      rw [toSigned, hval, hsplit, Int.add_bmod_right]
      exact bmod_two_pow (by omega) (by omega) (by omega)
    rw [hsigned]
    omega

/-- The leftover digits fit their bytes, with room for the sign. -/
theorem val_fits {ds : List ℕ} (h : AreDigits ds) (hpos : 0 < ds.length) (hlen : ds.length ≤ 9) :
    2 * val ds < 2 ^ (8 * dig2bytes ds.length) ∧ 0 < dig2bytes ds.length := by
  have hlt := val_lt h
  have htab : ∀ d : Fin 10, 0 < d.val → 2 * 10 ^ d.val ≤ 2 ^ (8 * dig2bytes d) ∧ 0 < dig2bytes d := by
    decide
  obtain ⟨h1, h2⟩ := htab ⟨ds.length, by omega⟩ hpos
  simp only at h1 h2
  omega

theorem readWord_digits (neg : Bool) {ds : List ℕ} (h : AreDigits ds) (hpos : 0 < ds.length)
    (hlen : ds.length ≤ 9) (rest : Bytes) :
    readWord neg (dig2bytes ds.length) (wordBytes neg (dig2bytes ds.length) (val ds) ++ rest) =
      val ds :=
  readWord_wordBytes neg (val_fits h hpos hlen).2 (val_fits h hpos hlen).1 rest

theorem readWord_nine (neg : Bool) {g : List ℕ} (h : AreDigits g) (hlen : g.length = 9)
    (rest : Bytes) : readWord neg 4 (wordBytes neg 4 (val g) ++ rest) = val g := by
  have h' := readWord_digits neg h (by omega) (by omega) rest
  rw [hlen] at h'
  exact h'

/-! ### The integer words -/

/-- The groups that are left once the leading zero groups are dropped. -/
def dropZero (gs : List (List ℕ)) : List (List ℕ) := gs.dropWhile (val · = 0)

theorem dropZero_concat (gs : List (List ℕ)) (g : List ℕ) :
    dropZero (gs ++ [g]) =
      if dropZero gs ≠ [] ∨ val g ≠ 0 then dropZero gs ++ [g] else [] := by
  unfold dropZero
  rw [List.dropWhile_append]
  by_cases h : gs.dropWhile (val · = 0) = []
  · by_cases hg : val g = 0 <;> simp [h, hg]
  · simp [h]

/-- What `bin2decimal` has stored of the groups `gs`, `left` digits still to come. -/
def stored (gs : List (List ℕ)) (left : ℕ) : List ℕ × ℕ :=
  ((dropZero gs).map val, (dropZero gs).flatten.length + left)

theorem pushInt_stored (gs : List (List ℕ)) (g : List ℕ) (left : ℕ) :
    pushInt g.length (val g) (stored gs (g.length + left)) = stored (gs ++ [g]) left := by
  unfold pushInt stored
  rw [dropZero_concat]
  by_cases h : dropZero gs = []
  · by_cases hg : val g = 0 <;> simp [h, hg]
  · simp only [ne_eq, List.map_eq_nil_iff, h, not_false_eq_true, true_or, if_true,
      List.map_append, List.map_cons, List.map_nil, List.flatten_append, List.length_append,
      List.flatten_cons, List.flatten_nil, List.append_nil]
    rw [Nat.add_assoc]

theorem leadWord_stored (neg : Bool) {ds : List ℕ} (h : AreDigits ds) (hlen : ds.length < 9)
    (left : ℕ) (rest : Bytes) :
    leadWord neg ds.length (wordBytes neg (dig2bytes ds.length) (val ds) ++ rest)
      (left + ds.length) = some (stored (if ds = [] then [] else [ds]) left) := by
  unfold leadWord
  by_cases hds : ds = []
  · subst hds; simp [stored, dropZero]
  · have hpos : 0 < ds.length := List.length_pos_iff.mpr hds
    have hlt := val_lt h
    have hle : (10 : ℤ) ^ ds.length ≤ 10 ^ (ds.length + 1) :=
      pow_le_pow_right₀ (by norm_num) (by omega)
    have hlt' : (val ds : ℤ) < 10 ^ ds.length := by exact_mod_cast hlt
    rw [if_neg (by omega), readWord_digits neg h hpos (by omega), if_neg hds]
    have hok : ¬ ((val ds : ℤ) < 0 ∨ (10 : ℤ) ^ (ds.length + 1) ≤ val ds) := by omega
    simp only [if_neg hok, Int.toNat_natCast]
    have hpush := pushInt_stored [] ds left
    rw [Nat.add_comm left]
    simpa [stored, dropZero] using congrArg some hpush

/-- A word of nine digits passes the check of the loops. -/
theorem val_le_digMax {g : List ℕ} (hg : AreDigits g) (hg9 : g.length = 9) :
    ¬ ((val g : ℤ) < 0 ∨ (digMax : ℤ) < val g) := by
  have hlt : val g < 10 ^ 9 := hg9 ▸ val_lt hg
  unfold digMax
  omega

theorem intLoop_stored (neg : Bool) {gs : List (List ℕ)} (hd : ∀ g ∈ gs, AreDigits g)
    (hl : ∀ g ∈ gs, g.length = 9) (pre : List (List ℕ)) (rest : Bytes) :
    intLoop neg gs.length (gs.flatMap (wordBytes neg 4 <| val ·) ++ rest)
      (stored pre (9 * gs.length)) = some (stored (pre ++ gs) 0) := by
  induction gs generalizing pre with
  | nil => simp [intLoop]
  | cons g gs ih =>
    have hg := hd g (by simp)
    have hg9 := hl g (by simp)
    have hok := val_le_digMax hg hg9
    have hnext := ih (fun g h => hd g (by simp [h])) (fun g h => hl g (by simp [h])) (pre ++ [g])
    have hpush := pushInt_stored pre g (9 * gs.length)
    rw [hg9] at hpush
    simp only [List.length_cons, intLoop, List.flatMap_cons, List.append_assoc,
      readWord_nine neg hg hg9, if_neg hok, Int.toNat_natCast]
    rw [drop_at (length_wordBytes neg 4 (val g)).symm, show 9 * (gs.length + 1) = 9 + 9 * gs.length by omega,
      digPerDec1, hpush, hnext, List.append_assoc, List.singleton_append]

/-! ### The fraction words -/

theorem fracLoop_words (neg : Bool) {gs : List (List ℕ)} (hd : ∀ g ∈ gs, AreDigits g)
    (hl : ∀ g ∈ gs, g.length = 9) (buf : List ℕ) (rest : Bytes) :
    fracLoop neg gs.length (gs.flatMap (wordBytes neg 4 <| val ·) ++ rest) buf =
      some (buf ++ gs.map val) := by
  induction gs generalizing buf with
  | nil => simp [fracLoop]
  | cons g gs ih =>
    have hg := hd g (by simp)
    have hg9 := hl g (by simp)
    have hok := val_le_digMax hg hg9
    have hnext := ih (fun g h => hd g (by simp [h])) (fun g h => hl g (by simp [h])) (buf ++ [val g])
    simp only [List.length_cons, fracLoop, List.flatMap_cons, List.append_assoc,
      readWord_nine neg hg hg9, if_neg hok, Int.toNat_natCast]
    rw [drop_at (length_wordBytes neg 4 (val g)).symm, hnext, List.append_assoc]
    rfl

/-- The word of the leftover fraction digits. -/
def tailWords (ds : List ℕ) : List ℕ := if ds = [] then [] else [val ds * 10 ^ (9 - ds.length)]

theorem tailWord_words (neg : Bool) {ds : List ℕ} (h : AreDigits ds) (hlen : ds.length < 9)
    (buf : List ℕ) (rest : Bytes) :
    tailWord neg ds.length (wordBytes neg (dig2bytes ds.length) (val ds) ++ rest) buf =
      some (buf ++ tailWords ds) := by
  unfold tailWord tailWords
  by_cases hds : ds = []
  · subst hds; simp
  · have hpos : 0 < ds.length := List.length_pos_iff.mpr hds
    have hlt : val ds * 10 ^ (9 - ds.length) < 10 ^ 9 := by
      calc val ds * 10 ^ (9 - ds.length) < 10 ^ ds.length * 10 ^ (9 - ds.length) :=
            Nat.mul_lt_mul_of_pos_right (val_lt h) (by positivity)
        _ = 10 ^ 9 := by rw [← pow_add, Nat.add_sub_cancel' (by omega)]
    have hmod : Int.bmod ((val ds : ℤ) * 10 ^ (9 - ds.length)) (2 ^ 32) =
        ((val ds * 10 ^ (9 - ds.length) : ℕ) : ℤ) := by
      have hcast : (val ds : ℤ) * 10 ^ (9 - ds.length) =
          ((val ds * 10 ^ (9 - ds.length) : ℕ) : ℤ) := by push_cast; rfl
      rw [hcast]
      generalize val ds * 10 ^ (9 - ds.length) = x at hlt
      exact bmod_two_pow (by norm_num) (by omega) (by omega)
    rw [if_neg (by omega), readWord_digits neg h hpos (by omega), if_neg hds, digPerDec1, hmod]
    have hok : ¬ (((val ds * 10 ^ (9 - ds.length) : ℕ) : ℤ) < 0 ∨
        (digMax : ℤ) < ((val ds * 10 ^ (9 - ds.length) : ℕ) : ℤ)) := by unfold digMax; omega
    rw [if_neg hok, Int.toNat_natCast]

/-! ### All words -/

/-- The groups of the integer digits: the leftover ones first. -/
def intGroups (intg : List ℕ) : List (List ℕ) :=
  (if intg.take (intg.length % 9) = [] then [] else [intg.take (intg.length % 9)]) ++
    nines (intg.length / 9) (intg.drop (intg.length % 9))

/-- The words of the fraction digits. -/
def fracWords (frac : List ℕ) : List ℕ :=
  (nines (frac.length / 9) frac).map val ++ tailWords (frac.drop (9 * (frac.length / 9)))

section Words
variable (neg : Bool) {intg frac : List ℕ} (hi : AreDigits intg) (hf : AreDigits frac)
include hi hf

theorem readWords_wordsBytes :
    readWords neg (intg.length / 9) (intg.length % 9) (frac.length / 9) (frac.length % 9)
      (wordsBytes neg intg frac) =
    some ((dropZero (intGroups intg)).map val ++ fracWords frac,
      (dropZero (intGroups intg)).flatten.length) := by
  set lead := intg.take (intg.length % 9) with hlead
  set gs := nines (intg.length / 9) (intg.drop (intg.length % 9)) with hgs
  set fs := nines (frac.length / 9) frac with hfs
  set tail := frac.drop (9 * (frac.length / 9)) with htail
  have hleadlen : lead.length = intg.length % 9 := by
    rw [hlead, List.length_take]; omega
  have htaillen : tail.length = frac.length % 9 := by
    rw [htail, List.length_drop]; omega
  have hgslen : gs.length = intg.length / 9 := nines_length
  have hfslen : fs.length = frac.length / 9 := nines_length
  have hgs9 : ∀ g ∈ gs, g.length = 9 := fun g hg =>
    length_of_mem_nines (by rw [List.length_drop]; omega) hg
  have hfs9 : ∀ g ∈ fs, g.length = 9 := fun g hg => length_of_mem_nines (by omega) hg
  have hgsd : ∀ g ∈ gs, AreDigits g := fun g hg => digits_of_mem_nines (hi.drop _) hg
  have hfsd : ∀ g ∈ fs, AreDigits g := fun g hg => digits_of_mem_nines hf hg
  -- the four stretches of the stored form
  set A := wordBytes neg (dig2bytes (intg.length % 9)) (val lead) with hA
  set B := gs.flatMap (wordBytes neg 4 <| val ·) with hB
  set C := fs.flatMap (wordBytes neg 4 <| val ·) with hC
  set D := wordBytes neg (dig2bytes (frac.length % 9)) (val tail) with hD
  have hbytes : wordsBytes neg intg frac = A ++ (B ++ (C ++ (D ++ []))) := by
    simp only [wordsBytes, List.append_assoc, List.append_nil]; rfl
  have hAlen : A.length = dig2bytes (intg.length % 9) := length_wordBytes _ _ _
  have hflat : ∀ l : List (List ℕ), (l.flatMap (wordBytes neg 4 <| val ·)).length = 4 * l.length := by
    intro l
    simp [List.length_flatMap, Nat.mul_comm]
  have hBlen : B.length = intg.length / 9 * 4 := by rw [hB, hflat, hgslen, Nat.mul_comm]
  have hClen : C.length = frac.length / 9 * 4 := by rw [hC, hflat, hfslen, Nat.mul_comm]
  have hlw := leadWord_stored neg (hi.take _) (by rw [hleadlen]; omega) (9 * gs.length)
    (B ++ (C ++ (D ++ [])))
  rw [hleadlen] at hlw
  have hil := intLoop_stored neg hgsd hgs9 (if lead = [] then [] else [lead]) (C ++ (D ++ []))
  have hfl := fracLoop_words neg hfsd hfs9 ((dropZero (intGroups intg)).map val) (D ++ [])
  have htw := tailWord_words neg (hf.drop _) (by rw [htaillen]; omega)
    ((dropZero (intGroups intg)).map val ++ fs.map val) []
  rw [htaillen] at htw
  have hcount : intg.length / 9 * digPerDec1 + intg.length % 9 = 9 * gs.length + intg.length % 9 := by
    rw [hgslen, digPerDec1]; omega
  have hdropB : (A ++ (B ++ (C ++ (D ++ [])))).drop (dig2bytes (intg.length % 9)) =
      B ++ (C ++ (D ++ [])) := drop_at hAlen.symm
  have hdropC : (A ++ (B ++ (C ++ (D ++ [])))).drop
      (dig2bytes (intg.length % 9) + intg.length / 9 * 4) = C ++ (D ++ []) := by
    rw [← List.drop_drop, hdropB, drop_at hBlen.symm]
  have hdropD : (A ++ (B ++ (C ++ (D ++ [])))).drop
      (dig2bytes (intg.length % 9) + intg.length / 9 * 4 + frac.length / 9 * 4) = D ++ [] := by
    rw [← List.drop_drop, hdropC, drop_at hClen.symm]
  unfold readWords
  simp only [hbytes, hdropB, hdropC, hdropD]
  rw [hcount, hlw, Option.bind_eq_bind, Option.bind_some, ← hgslen, hil, Option.bind_some,
    show stored ((if lead = [] then [] else [lead]) ++ gs) 0 = stored (intGroups intg) 0 from rfl]
  simp only [stored, ← hfslen, Nat.add_zero, Option.pure_def]
  rw [hfl, Option.bind_eq_bind, Option.bind_some, htw, Option.bind_some, List.append_assoc]
  rfl

end Words

/-! ### The sign byte -/

/-- The first byte, if any, tells the sign. -/
def SignByte (neg : Bool) (bs : Bytes) : Prop := ∀ b ∈ bs.head?, (128 ≤ b.toNat ↔ neg = true)

theorem SignByte.append {neg : Bool} {xs ys : Bytes} (hx : SignByte neg xs) (hy : SignByte neg ys) :
    SignByte neg (xs ++ ys) := by
  cases xs with
  | nil => exact hy
  | cons x xs => exact hx

theorem signByte_wordBytes (neg : Bool) {n x : ℕ} (hx : 2 * x < 2 ^ (8 * n)) :
    SignByte neg (wordBytes neg n x) := by
  intro b hb
  unfold wordBytes at hb
  cases hbe : beBytes n x with
  | nil => simp [hbe] at hb
  | cons c cs =>
    rw [hbe] at hb
    simp only [List.map_cons, List.head?_cons, Option.mem_some_iff] at hb
    have hlen : n = cs.length + 1 := by
      have := length_beBytes n x
      rw [hbe] at this
      exact this.symm
    -- the top byte of a number below half the range is below 128
    have hpow : 256 ^ n = 2 ^ (8 * n) := by rw [pow_mul]; norm_num
    have hval : leNat cs.reverse + 256 ^ cs.length * c.toNat = x := by
      have h := beNat_beBytes_of_lt (w := n) (n := x) (by omega)
      rw [hbe, beNat, List.reverse_cons, leNat_append] at h
      simpa [leNat] using h
    have hc : c.toNat < 128 := by
      by_contra hge
      have h1 : 256 ^ cs.length * 128 ≤ 256 ^ cs.length * c.toNat :=
        Nat.mul_le_mul_left _ (by omega)
      rw [← hpow, hlen, pow_succ] at hx
      omega
    have hlt := c.toNat_lt
    subst hb
    cases neg with
    | false => simp only [Bool.false_eq_true, if_false, iff_false]; omega
    | true =>
      rw [if_pos rfl, UInt8.toNat_not]
      have hs : UInt8.size = 256 := rfl
      rw [hs]
      exact iff_of_true (by omega) rfl

theorem signByte_digits (neg : Bool) {ds : List ℕ} (h : AreDigits ds) (hlen : ds.length ≤ 9) :
    SignByte neg (wordBytes neg (dig2bytes ds.length) (val ds)) := by
  by_cases hds : ds = []
  · subst hds
    intro b hb
    simp [wordBytes, dig2bytes, beBytes, leBytes] at hb
  · exact signByte_wordBytes neg (val_fits h (List.length_pos_iff.mpr hds) hlen).1

theorem signByte_nines (neg : Bool) {gs : List (List ℕ)} (hd : ∀ g ∈ gs, AreDigits g)
    (hl : ∀ g ∈ gs, g.length = 9) : SignByte neg (gs.flatMap (wordBytes neg 4 <| val ·)) := by
  cases gs with
  | nil => intro b hb; simp at hb
  | cons g gs =>
    have h := signByte_digits neg (hd g (by simp)) (hl g (by simp)).le
    rw [hl g (by simp)] at h
    have h4 : SignByte neg (wordBytes neg 4 (val g)) := h
    intro b hb
    refine h4 b ?_
    have hne : wordBytes neg 4 (val g) ≠ [] := by
      intro hnil
      have := length_wordBytes neg 4 (val g)
      rw [hnil] at this
      simp at this
    rw [List.flatMap_cons, List.head?_append_of_ne_nil _ hne] at hb
    exact hb

theorem signByte_wordsBytes (neg : Bool) {intg frac : List ℕ} (hi : AreDigits intg)
    (hf : AreDigits frac) : SignByte neg (wordsBytes neg intg frac) := by
  unfold wordsBytes
  refine ((SignByte.append ?_ ?_).append ?_).append ?_
  · have hlen : (intg.take (intg.length % 9)).length = intg.length % 9 := by
      rw [List.length_take]; omega
    have h := signByte_digits neg (hi.take (intg.length % 9)) (by omega)
    rwa [hlen] at h
  · exact signByte_nines neg (fun g hg => digits_of_mem_nines (hi.drop _) hg)
      fun g hg => length_of_mem_nines (by rw [List.length_drop]; omega) hg
  · exact signByte_nines neg (fun g hg => digits_of_mem_nines hf hg)
      fun g hg => length_of_mem_nines (by omega) hg
  · have hlen : (frac.drop (9 * (frac.length / 9))).length = frac.length % 9 := by
      rw [List.length_drop]; omega
    have h := signByte_digits neg (hf.drop (9 * (frac.length / 9))) (by omega)
    rwa [hlen] at h

/-! ### Reading a stored value -/

theorem length_wordsBytes (neg : Bool) (intg frac : List ℕ) :
    (wordsBytes neg intg frac).length =
      intg.length / 9 * 4 + dig2bytes (intg.length % 9) + frac.length / 9 * 4 +
        dig2bytes (frac.length % 9) := by
  have hflat : ∀ l : List (List ℕ), (l.flatMap (wordBytes neg 4 <| val ·)).length = 4 * l.length := by
    intro l
    simp [List.length_flatMap, Nat.mul_comm]
  simp only [wordsBytes, List.length_append, length_wordBytes, hflat, nines_length]
  omega

theorem DecimalValue.length_bytes {precision scale : ℕ} (v : DecimalValue precision scale) :
    v.bytes.length = decimalBinSize precision scale := by
  have h := length_wordsBytes v.neg v.intg v.frac
  rw [v.intg_length, v.frac_length] at h
  have hflip : ∀ bs : Bytes, (flipSign bs).length = bs.length := by
    intro bs; cases bs <;> rfl
  rw [DecimalValue.bytes, hflip, h]
  rfl

/-- What `bin2decimal` makes of a stored value. -/
def DecimalValue.decimal {precision scale : ℕ} (v : DecimalValue precision scale) : DecimalT :=
  let gs := dropZero (intGroups v.intg)
  if gs.flatten.length = 0 ∧ scale = 0 then decimalMakeZero
  else ⟨v.neg, gs.flatten.length, scale, gs.map val ++ fracWords v.frac⟩

theorem bin2decimal_bytes {precision scale : ℕ} (v : DecimalValue precision scale)
    (hpos : 0 < precision) (hp : precision ≤ 65) (hs : scale ≤ precision) {p : Ptr} {rest : Bytes}
    (h : p.data = v.bytes ++ rest) : bin2decimal p precision scale = .ok v.decimal := by
  have hread := Ptr.bytes_head h v.length_bytes.symm
  have hsign := signByte_wordsBytes v.neg v.intg_digits v.frac_digits
  have hwords := readWords_wordsBytes v.neg v.intg_digits v.frac_digits
  rw [v.intg_length, v.frac_length] at hwords
  unfold bin2decimal
  simp only [if_neg (show ¬ precision < scale by omega), hread, Res.ok_bind, Res.pure_eq]
  cases hw : wordsBytes v.neg v.intg v.frac with
  | nil =>
    have hlen := length_wordsBytes v.neg v.intg v.frac
    have htab : ∀ d : Fin 9, d.val ≠ 0 → 0 < dig2bytes d := by decide
    have h1 := htab ⟨v.intg.length % 9, by omega⟩
    have h2 := htab ⟨v.frac.length % 9, by omega⟩
    have h3 := v.intg_length
    have h4 := v.frac_length
    simp only at h1 h2
    rw [hw, List.length_nil] at hlen
    omega
  | cons b bs =>
    have hb := hsign b (by simp [hw])
    have hxor : ∀ x : Fin 256, (UInt8.ofNat x ^^^ 0x80).toNat < 128 ↔ 128 ≤ x.val := by
      decide +kernel
    have hneg : decide ((b ^^^ 0x80).toNat < 128) = v.neg := by
      have hx := hxor ⟨b.toNat, b.toNat_lt⟩
      simp only [UInt8.ofNat_toNat] at hx
      rw [Bool.eq_iff_iff, decide_eq_true_iff, hx, hb]
    have hflip : b ^^^ 0x80 ^^^ 0x80 = b := by
      rw [UInt8.xor_assoc, UInt8.xor_self, UInt8.xor_zero]
    have hbuf : (precision - scale) / digPerDec1 +
        (if 0 < (precision - scale) % digPerDec1 then 1 else 0) +
        (scale / digPerDec1 + (if 0 < scale % digPerDec1 then 1 else 0)) ≤ decimalBuffLength := by
      unfold digPerDec1 decimalBuffLength
      split_ifs <;> omega
    have hfrac : scale / digPerDec1 * digPerDec1 + scale % digPerDec1 = scale := by
      unfold digPerDec1; omega
    simp only [DecimalValue.bytes, hw, flipSign, hneg, hflip, if_pos hbuf, hfrac]
    rw [hw] at hwords
    simp only [digPerDec1, hwords, DecimalValue.decimal]

/-! ### Printing it -/

theorem intDigits_groups {z f : List ℕ} (hf : AreDigits f) (hpos : 0 < f.length) (hlen : f.length ≤ 9)
    {gs : List (List ℕ)} (hd : ∀ g ∈ gs, AreDigits g) (hl : ∀ g ∈ gs, g.length = 9) :
    intDigits (f.length + 9 * gs.length) (val (z ++ f) :: gs.map val).reverse =
      .ok (f ++ gs.flatten).reverse := by
  induction gs using List.reverseRecOn with
  | nil =>
    obtain ⟨k, hk⟩ : ∃ k, f.length = k + 1 := ⟨f.length - 1, by omega⟩
    have hlow := lowDigits_val z hf
    have hzero : k + 1 - digPerDec1 = 0 := by unfold digPerDec1; omega
    have hmin : min (k + 1) digPerDec1 = k + 1 := by unfold digPerDec1; omega
    rw [hk] at hlow
    simp [hk, intDigits, hzero, hmin, hlow]
  | append_singleton gs g ih =>
    have hg9 := hl g (by simp)
    have hgd := hd g (by simp)
    have hih := ih (fun g h => hd g (by simp [h])) (fun g h => hl g (by simp [h]))
    obtain ⟨k, hk⟩ : ∃ k, f.length + 9 * (gs ++ [g]).length = k + 1 :=
      ⟨f.length + 9 * (gs ++ [g]).length - 1, by omega⟩
    have hsub : k + 1 - digPerDec1 = f.length + 9 * gs.length := by
      rw [← hk, List.length_append, List.length_singleton]; unfold digPerDec1; omega
    have hmin : min (k + 1) digPerDec1 = g.length := by
      rw [hg9, ← hk, List.length_append, List.length_singleton]; unfold digPerDec1; omega
    have hrev : (val (z ++ f) :: (gs ++ [g]).map val).reverse =
        val g :: (val (z ++ f) :: gs.map val).reverse := by simp
    have hlow := lowDigits_val [] hgd
    rw [List.nil_append] at hlow
    rw [hk, hrev, intDigits, hsub, hih, hmin, hlow]
    simp

theorem fracDigits_words (gs : List (List ℕ)) (hd : ∀ g ∈ gs, AreDigits g)
    (hl : ∀ g ∈ gs, g.length = 9) {t : List ℕ} (ht : AreDigits t) (hlen : t.length < 9) :
    fracDigits (9 * gs.length + t.length) (gs.map val ++ tailWords t) = .ok (gs.flatten ++ t) := by
  induction gs with
  | nil =>
    unfold tailWords
    by_cases hne : t = []
    · subst hne; rfl
    · obtain ⟨k, hk⟩ : ∃ k, t.length = k + 1 :=
        ⟨t.length - 1, by have := List.length_pos_iff.mpr hne; omega⟩
      have hzero : k + 1 - digPerDec1 = 0 := by unfold digPerDec1; omega
      have hmin : min (k + 1) digPerDec1 = t.length := by unfold digPerDec1; omega
      have htop := topDigits_val ht hlen.le le_rfl
      simp only [if_neg hne, List.length_nil, Nat.mul_zero, Nat.zero_add, hk, List.map_nil,
        List.nil_append, fracDigits, hzero, hmin, Res.pure_eq, Res.ok_bind, List.append_nil,
        List.flatten_nil]
      rw [hk] at htop
      rw [htop, ← hk, List.take_length]
  | cons g gs ih =>
    have hg9 := hl g (by simp)
    have hih := ih (fun g h => hd g (by simp [h])) (fun g h => hl g (by simp [h]))
    have hnum : 9 * (g :: gs).length + t.length = (9 * gs.length + t.length + 8) + 1 := by
      rw [List.length_cons]; omega
    have hsub : 9 * gs.length + t.length + 8 + 1 - digPerDec1 = 9 * gs.length + t.length := by
      unfold digPerDec1; omega
    have hmin : min (9 * gs.length + t.length + 8 + 1) digPerDec1 = 9 := by unfold digPerDec1; omega
    have htop := topDigits_val (hd g (by simp)) hg9.le hg9.ge
    rw [hg9, Nat.sub_self, pow_zero, mul_one] at htop
    rw [hnum, List.map_cons, List.cons_append, fracDigits, hsub, hih, hmin, Res.ok_bind, htop,
      ← hg9, List.take_length, List.flatten_cons, List.append_assoc]
    rfl

/-- What is left of the integer groups: nothing, all digits being zero, or a first group that is not
zero and full groups behind it. -/
inductive Leading (intg : List ℕ) : List (List ℕ) → Prop
  | zero (h : ∀ d ∈ intg, d = 0) : Leading intg []
  | group (z g : List ℕ) (gs : List (List ℕ)) (hz : ∀ d ∈ z, d = 0) (hne : val g ≠ 0)
      (hlen : g.length ≤ 9) (hl : ∀ g ∈ gs, g.length = 9)
      (hintg : intg = z ++ (g ++ gs.flatten)) : Leading intg (g :: gs)

theorem leading_dropZero {ds lead : List ℕ} {gs : List (List ℕ)} (hlead : lead.length ≤ 9)
    (hl : ∀ g ∈ gs, g.length = 9) (hds : ds = lead ++ gs.flatten) :
    Leading ds (dropZero (lead :: gs)) := by
  induction gs generalizing lead ds with
  | nil =>
    by_cases h0 : val lead = 0
    · have hall : ∀ d ∈ ds, d = 0 := by
        rw [hds]
        simpa using val_eq_zero_iff.mp h0
      simpa [dropZero, h0] using Leading.zero hall
    · simpa [dropZero, h0] using Leading.group [] lead [] (by simp) h0 hlead (by simp) hds
  | cons g gs ih =>
    by_cases h0 : val lead = 0
    · have hrec := ih (hl g (by simp)).le (fun g h => hl g (by simp [h])) (rfl : g ++ gs.flatten = _)
      have hdrop : dropZero (lead :: g :: gs) = dropZero (g :: gs) := by simp [dropZero, h0]
      have hz := val_eq_zero_iff.mp h0
      rw [hdrop]
      rw [List.flatten_cons] at hds
      generalize dropZero (g :: gs) = left at hrec ⊢
      cases hrec with
      | zero hall =>
        refine Leading.zero ?_
        rw [hds]
        intro d hd
        rcases List.mem_append.mp hd with hd | hd
        · exact hz d hd
        · exact hall d hd
      | group z g' gs' hz' hne hlen hl' hintg =>
        refine Leading.group (lead ++ z) g' gs' ?_ hne hlen hl' ?_
        · intro d hd
          rcases List.mem_append.mp hd with hd | hd
          · exact hz d hd
          · exact hz' d hd
        · rw [hds, hintg, List.append_assoc]
    · have hdrop : dropZero (lead :: g :: gs) = lead :: g :: gs := by simp [dropZero, h0]
      rw [hdrop]
      exact Leading.group [] lead (g :: gs) (by simp) h0 hlead hl hds

theorem leading_intGroups (intg : List ℕ) : Leading intg (dropZero (intGroups intg)) := by
  set lead := intg.take (intg.length % 9) with hlead
  set gs := nines (intg.length / 9) (intg.drop (intg.length % 9)) with hgs
  have hl : ∀ g ∈ gs, g.length = 9 := fun g hg =>
    length_of_mem_nines (by rw [List.length_drop]; omega) hg
  have hintg : intg = lead ++ gs.flatten := by
    rw [hgs, nines_flatten, List.take_of_length_le (by rw [List.length_drop]; omega),
      List.take_append_drop]
  have h := leading_dropZero (by rw [hlead, List.length_take]; omega) hl hintg
  have hgroups : dropZero (intGroups intg) = dropZero (lead :: gs) := by
    unfold intGroups
    rw [← hlead, ← hgs]
    by_cases hnil : lead = []
    · simp [hnil, dropZero]
    · simp [hnil]
  rwa [hgroups]

theorem dropWhile_zeros {z ds : List ℕ} (hz : ∀ d ∈ z, d = 0) :
    (z ++ ds).dropWhile (· = 0) = ds.dropWhile (· = 0) := by
  induction z with
  | nil => rfl
  | cons d z ih =>
    rw [List.cons_append, List.dropWhile_cons_of_pos (by simpa using hz d (by simp)),
      ih fun d hd => hz d (by simp [hd])]

theorem decimal2string_eq {d : DecimalT} {intg : ℕ} {buf fs is : List ℕ}
    (hrem : removeLeadingZeroes d = .ok (intg, buf)) (hne : intg + d.frac ≠ 0)
    (hroom : intg + d.frac ≤ 78) (hfs : fracDigits d.frac (buf.drop (roundUp intg)) = .ok fs)
    (his : intDigits intg (buf.take (roundUp intg)).reverse = .ok is) :
    decimal2string d = .ok ((if d.sign then [45] else []) ++
      (if intg = 0 then [48] else is.reverse.map digitChar) ++
      (if d.frac = 0 then [] else 46 :: fs.map digitChar)) := by
  have hlen : (if d.sign = true then 1 else 0) + (if intg = 0 then 1 else intg) +
      (if d.frac = 0 then 0 else 1) + d.frac ≤ decimalMaxStrLength - 1 := by
    unfold decimalMaxStrLength decimalBuffLength
    split_ifs <;> omega
  unfold decimal2string
  simp only [hrem, Res.ok_bind, if_neg hne, if_pos hlen, hfs, his, Res.pure_eq]

/-- The digits left of a group that is not zero. -/
theorem dropWhile_length_pos {g : List ℕ} (hne : val g ≠ 0) : 0 < (g.dropWhile (· = 0)).length := by
  rw [List.length_pos_iff]
  intro hnil
  refine hne (val_eq_zero_iff.mpr ?_)
  simpa [List.dropWhile_eq_nil_iff] using hnil

section Printing
variable {precision scale : ℕ} (v : DecimalValue precision scale) (hp : precision ≤ 65)
  (hs : scale ≤ precision)

/-- The fraction digits come out of their words. -/
theorem fracDigits_fracWords : fracDigits scale (fracWords v.frac) = .ok v.frac := by
  have hfl := v.frac_length
  have h := fracDigits_words (nines (v.frac.length / 9) v.frac)
    (fun g hg => digits_of_mem_nines v.frac_digits hg)
    (fun g hg => length_of_mem_nines (by omega) hg)
    (v.frac_digits.drop (9 * (v.frac.length / 9))) (by rw [List.length_drop]; omega)
  rw [nines_length, nines_flatten, List.take_append_drop, List.length_drop,
    show 9 * (v.frac.length / 9) + (v.frac.length - 9 * (v.frac.length / 9)) = scale by omega] at h
  exact h

include hp hs

/-- The text of a value whose integer digits are all zero. -/
theorem decimal2string_zero (hgs : dropZero (intGroups v.intg) = []) (hall : ∀ d ∈ v.intg, d = 0) :
    decimal2string v.decimal = .ok v.text := by
  have hfnil : v.frac = [] ↔ scale = 0 := by rw [← List.length_eq_zero_iff, v.frac_length]
  have hdrop : v.intg.dropWhile (· = 0) = [] := by simpa [List.dropWhile_eq_nil_iff] using hall
  by_cases h0 : scale = 0
  · have hfrac0 := hfnil.mpr h0
    have hneg : v.neg = false := by
      cases hn : v.neg with
      | false => rfl
      | true =>
        refine absurd ?_ (v.neg_ne_zero hn)
        rw [hfrac0, List.append_nil]
        exact val_eq_zero_iff.mpr hall
    simp only [DecimalValue.decimal, hgs, List.flatten_nil, List.length_nil, h0, and_self,
      if_true, DecimalValue.text, hdrop, hfrac0, hneg]
    decide
  · have hdec : v.decimal = ⟨v.neg, 0, scale, fracWords v.frac⟩ := by
      simp only [DecimalValue.decimal, hgs, List.flatten_nil, List.length_nil, h0, and_false,
        if_false, List.map_nil, List.nil_append]
    have hrem : removeLeadingZeroes v.decimal = .ok (0, fracWords v.frac) := by
      rw [hdec, removeLeadingZeroes]
      cases fracWords v.frac <;> rfl
    have hround : roundUp 0 = 0 := rfl
    have hfs : fracDigits v.decimal.frac ((fracWords v.frac).drop (roundUp 0)) = .ok v.frac := by
      rw [hdec, hround]
      exact fracDigits_fracWords v
    rw [decimal2string_eq hrem (by rw [hdec]; simpa using h0) (by rw [hdec]; simp only; omega) hfs
      (by rw [hround]; rfl), hdec]
    simp [DecimalValue.text, hdrop, h0, hfnil]

/-- The text of a value with integer digits. -/
theorem decimal2string_group {z g : List ℕ} {gs : List (List ℕ)}
    (hgs : dropZero (intGroups v.intg) = g :: gs) (hz : ∀ d ∈ z, d = 0) (hne : val g ≠ 0)
    (hlen : g.length ≤ 9) (hl : ∀ g ∈ gs, g.length = 9) (hintg : v.intg = z ++ (g ++ gs.flatten)) :
    decimal2string v.decimal = .ok v.text := by
  have hfnil : v.frac = [] ↔ scale = 0 := by rw [← List.length_eq_zero_iff, v.frac_length]
  have hdig : AreDigits (g ++ gs.flatten) := (hintg ▸ v.intg_digits).right
  have hgd : ∀ x ∈ gs, AreDigits x := fun x hx d hd =>
    hdig d (List.mem_append_right g (List.mem_flatten.mpr ⟨x, hx, hd⟩))
  have hflat : gs.flatten.length = 9 * gs.length := by
    rw [List.length_flatten, List.map_congr_left hl]
    simp [Nat.mul_comm]
  set f := g.dropWhile (· = 0) with hf
  have hfpos : 0 < f.length := dropWhile_length_pos hne
  have hsplit : g = g.takeWhile (· = 0) ++ f := (List.takeWhile_append_dropWhile).symm
  have hfle : f.length ≤ g.length := List.length_dropWhile_le _ _
  have htotal : g.length + 9 * gs.length ≤ precision - scale := by
    have h := congrArg List.length hintg
    rw [v.intg_length, List.length_append, List.length_append, hflat] at h
    omega
  have hdec : v.decimal =
      ⟨v.neg, g.length + 9 * gs.length, scale, val g :: (gs.map val ++ fracWords v.frac)⟩ := by
    have hpos : ¬ (g.length + 9 * gs.length = 0 ∧ scale = 0) := by omega
    simp only [DecimalValue.decimal, hgs, List.flatten_cons, List.length_append, hflat, if_neg hpos,
      List.map_cons, List.cons_append]
  have hrem : removeLeadingZeroes v.decimal =
      .ok (f.length + 9 * gs.length, val g :: (gs.map val ++ fracWords v.frac)) := by
    have hpos : g.length + 9 * gs.length ≠ 0 := by omega
    have hi : (g.length + 9 * gs.length - 1) % digPerDec1 = g.length - 1 := by
      unfold digPerDec1; omega
    have hclz := countLeadingZeroes_val (i := g.length - 1) hdig.left (by omega) hne
    rw [← hf] at hclz
    rw [hdec, removeLeadingZeroes]
    simp only [skipZeroWords, if_neg hpos, if_neg hne, Res.ok_bind, hi, hclz, Res.pure_eq]
    congr 2
    omega
  have hround : roundUp (f.length + 9 * gs.length) = gs.length + 1 := by
    unfold roundUp digPerDec1; omega
  have htake : (val g :: (gs.map val ++ fracWords v.frac)).take (gs.length + 1) =
      val g :: gs.map val := by
    rw [List.take_succ_cons, List.take_append_of_le_length (by simp), List.take_of_length_le (by simp)]
  have hdropw : (val g :: (gs.map val ++ fracWords v.frac)).drop (gs.length + 1) =
      fracWords v.frac := by
    rw [List.drop_succ_cons, List.drop_append_of_le_length (by simp), List.drop_of_length_le (by simp),
      List.nil_append]
  have his := intDigits_groups (z := g.takeWhile (· = 0)) (f := f)
    (hsplit ▸ hdig.left).right hfpos (by omega) hgd hl
  rw [← hsplit] at his
  have hdigits : v.intg.dropWhile (· = 0) = f ++ gs.flatten := by
    rw [hintg, dropWhile_zeros hz, List.dropWhile_append, ← hf]
    simp [List.length_pos_iff.mp hfpos]
  rw [decimal2string_eq hrem (by omega) (by rw [hdec]; simp only; omega)
    (by rw [hdec, hround, hdropw]; exact fracDigits_fracWords v) (by rw [hround, htake]; exact his),
    hdec, List.reverse_reverse, if_neg (show f.length + 9 * gs.length ≠ 0 by omega)]
  rw [DecimalValue.text, hdigits]
  simp only [hfnil]
  cases hc : f ++ gs.flatten with
  | nil =>
    have := congrArg List.length hc
    rw [List.length_append, List.length_nil] at this
    omega
  | cons d ds => rfl

/-- **Printing a stored value** gives its text. -/
theorem decimal2string_decimal : decimal2string v.decimal = .ok v.text := by
  have hlead := leading_intGroups v.intg
  generalize hgs : dropZero (intGroups v.intg) = gs at hlead
  cases hlead with
  | zero hall => exact decimal2string_zero v hp hs hgs hall
  | group z g gs hz hne hlen hl hintg =>
    exact decimal2string_group v hp hs hgs hz hne hlen hl hintg

end Printing

end DataSync.Binlog.DecimalText
