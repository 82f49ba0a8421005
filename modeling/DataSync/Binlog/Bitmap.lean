import DataSync.Binlog.Format

/-! # Column bitmaps

`my_bitmap.cpp`: a bitmap of `n_bits` bits over 32-bit words, kept here as the bytes of its words. The
mask `last_word_mask` covers the bits of the last word that lie behind `n_bits`. `loadBitmap` is what
`CRowsEvent::loadEvent` does with the image bytes of an event.

`bitmapIsSet_loadBitmap` and `bitmapBitsSet_loadBitmap`: a loaded bitmap answers with the bits of the
image, and its population count is the number of set bits below `n_bits`. -/

namespace DataSync.Binlog.Bitmap

open DataSync.Lib.Words DataSync.Lib.Memory DataSync.Binlog.Format

/-- `MY_BITMAP`: the bytes of the words (`none` is `NULL`), the four bytes of `last_word_mask` and the
index of the word `last_word_ptr` points to. -/
structure MyBitmap where
  bitmap : Option Bytes
  nBits : ℕ
  lastWordMask : Bytes
  lastWordPtr : ℕ
  deriving DecidableEq, Repr

/-- `no_bytes_in_map`, in 32-bit arithmetic. -/
def noBytesInMap (nBits : ℕ) : ℕ := (nBits + 7) % 2 ^ 32 / 8

/-- `no_words_in_map`, in 32-bit arithmetic. -/
def noWordsInMap (nBits : ℕ) : ℕ := (nBits + 31) % 2 ^ 32 / 32

/-- The table `_my_bits_nbits`. -/
def myBitsNbits : List ℕ := [
  0, 1, 1, 2, 1, 2, 2, 3, 1, 2, 2, 3, 2, 3, 3, 4,
  1, 2, 2, 3, 2, 3, 3, 4, 2, 3, 3, 4, 3, 4, 4, 5,
  1, 2, 2, 3, 2, 3, 3, 4, 2, 3, 3, 4, 3, 4, 4, 5,
  2, 3, 3, 4, 3, 4, 4, 5, 3, 4, 4, 5, 4, 5, 5, 6,
  1, 2, 2, 3, 2, 3, 3, 4, 2, 3, 3, 4, 3, 4, 4, 5,
  2, 3, 3, 4, 3, 4, 4, 5, 3, 4, 4, 5, 4, 5, 5, 6,
  2, 3, 3, 4, 3, 4, 4, 5, 3, 4, 4, 5, 4, 5, 5, 6,
  3, 4, 4, 5, 4, 5, 5, 6, 4, 5, 5, 6, 5, 6, 6, 7,
  1, 2, 2, 3, 2, 3, 3, 4, 2, 3, 3, 4, 3, 4, 4, 5,
  2, 3, 3, 4, 3, 4, 4, 5, 3, 4, 4, 5, 4, 5, 5, 6,
  2, 3, 3, 4, 3, 4, 4, 5, 3, 4, 4, 5, 4, 5, 5, 6,
  3, 4, 4, 5, 4, 5, 5, 6, 4, 5, 5, 6, 5, 6, 6, 7,
  2, 3, 3, 4, 3, 4, 4, 5, 3, 4, 4, 5, 4, 5, 5, 6,
  3, 4, 4, 5, 4, 5, 5, 6, 4, 5, 5, 6, 5, 6, 6, 7,
  3, 4, 4, 5, 4, 5, 5, 6, 4, 5, 5, 6, 5, 6, 6, 7,
  4, 5, 5, 6, 5, 6, 6, 7, 5, 6, 6, 7, 6, 7, 7, 8]

/-- The table's entry for a byte. -/
def nbits (b : UInt8) : ℕ := myBitsNbits.getD b.toNat 0

/-- `my_count_bits_uint32` of the word with the given bytes. -/
def myCountBitsUint32 (word : Bytes) : ℕ := (word.map nbits).sum

/-- The mask byte of `create_last_word_mask`: the bits behind the last used one. -/
def lastByteMask (nBits : ℕ) : UInt8 :=
  let used := 1 + (nBits + 2 ^ 32 - 1) % 2 ^ 32 % 8
  UInt8.ofNat (256 - 2 ^ used)

/-- `create_last_word_mask`. -/
def createLastWordMask (map : MyBitmap) : MyBitmap :=
  let mask := lastByteMask map.nBits
  { map with
    lastWordPtr := if map.nBits = 0 then 0 else noWordsInMap map.nBits - 1
    lastWordMask :=
      match noBytesInMap map.nBits % 4 with
      | 1 => [mask, 255, 255, 255]
      | 2 => [0, mask, 255, 255]
      | 3 => [0, 0, mask, 255]
      | _ => [0, 0, 0, mask] }

/-- `bitmap_init`: the buffer argument is overwritten by a fresh, cleared allocation. -/
def bitmapInit (nBits : ℕ) : MyBitmap :=
  createLastWordMask ⟨some (List.replicate (4 * noWordsInMap nBits) 0), nBits, [], 0⟩

/-- The bytes of word `i`. -/
def wordAt (bs : Bytes) (i : ℕ) : Bytes := (bs.drop (4 * i)).take 4

/-- `bitmap_bits_set`. -/
def bitmapBitsSet (map : MyBitmap) : Res ℕ := do
  let bs ← Res.ofOption map.bitmap
  if bs.length < 4 * (map.lastWordPtr + 1) then throw .fault
  let res := ((List.range map.lastWordPtr).map fun i => myCountBitsUint32 (wordAt bs i)).sum
  let last := List.zipWith (fun w m => w &&& ~~~m) (wordAt bs map.lastWordPtr) map.lastWordMask
  return res + myCountBitsUint32 last

/-- Bit `i` of a byte string, least significant bit of each byte first. -/
def bitAt (bs : Bytes) (i : ℕ) : Bool := (bs.getD (i / 8) 0).toNat.testBit (i % 8)

/-- `bitmap_is_set`. -/
def bitmapIsSet (map : MyBitmap) (bit : ℕ) : Res Bool := do
  let bs ← Res.ofOption map.bitmap
  if bs.length ≤ bit / 8 then throw .fault
  return bitAt bs bit

/-- What `CRowsEvent::loadEvent` makes of an image of `bitsLen` bytes: the bytes are copied over the
cleared words, a copy past them being a fault; an empty image leaves `bitmap` null. -/
def loadBitmap (nBits : ℕ) (image : Bytes) : Res MyBitmap :=
  let map := bitmapInit nBits
  if image = [] then .ok { map with bitmap := none }
  else if 4 * noWordsInMap nBits < image.length then .error .fault
  else
    let pad := List.replicate (4 * noWordsInMap nBits - image.length) 0
    .ok (createLastWordMask { map with bitmap := some (image ++ pad) })

/-! ### What the table counts -/

/-- The number of set bits below `n`. -/
def bitCount (bs : Bytes) (n : ℕ) : ℕ := (List.range n).countP (bitAt bs)

/-- The table counts the bits of a byte. -/
theorem nbits_eq (b : UInt8) : nbits b = (List.range 8).countP fun j => b.toNat.testBit j := by
  have h : myBitsNbits = (List.range 256).map fun v => (List.range 8).countP fun j => v.testBit j := by
    decide +kernel
  have hb : b.toNat < 256 := b.toNat_lt
  rw [nbits, h, List.getD_eq_getElem?_getD, List.getElem?_map, List.getElem?_range hb]
  rfl

/-- The mask leaves the bits below `n`. -/
theorem toNat_and_mask (b : UInt8) {n : ℕ} (hn : n ≤ 8) :
    (b &&& ~~~(UInt8.ofNat (256 - 2 ^ n))).toNat = b.toNat % 2 ^ n := by
  have hmask : (~~~(UInt8.ofNat (256 - 2 ^ n))).toNat = 2 ^ n - 1 := by
    interval_cases n <;> decide
  rw [UInt8.toNat_and, hmask, Nat.and_two_pow_sub_one_eq_mod]

theorem nbits_and_mask (b : UInt8) (n : ℕ) (hn : n ≤ 8) :
    nbits (b &&& ~~~(UInt8.ofNat (256 - 2 ^ n))) =
      (List.range n).countP fun j => b.toNat.testBit j := by
  have hsplit : List.range 8 = List.range n ++ (List.range (8 - n)).map (n + ·) := by
    rw [← List.range_add, Nat.add_sub_cancel' hn]
  have hlow : (List.range n).countP (fun j => (b.toNat % 2 ^ n).testBit j) =
      (List.range n).countP fun j => b.toNat.testBit j := by
    refine List.countP_congr fun j hj => ?_
    simp [Nat.testBit_mod_two_pow, List.mem_range.mp hj]
  have hhigh : ((List.range (8 - n)).map (n + ·)).countP (fun j => (b.toNat % 2 ^ n).testBit j) = 0 := by
    simp [List.countP_eq_zero, Nat.testBit_mod_two_pow]
  rw [nbits_eq, toNat_and_mask b hn, hsplit, List.countP_append, hlow, hhigh, Nat.add_zero]

@[simp] theorem nbits_zero : nbits 0 = 0 := by decide

theorem bitAt_append {xs ys : Bytes} {i : ℕ} (h : i < 8 * xs.length) :
    bitAt (xs ++ ys) i = bitAt xs i := by
  unfold bitAt
  rw [List.getD_eq_getElem?_getD, List.getElem?_append_left (by omega),
    List.getD_eq_getElem?_getD]

theorem bitAt_add (xs ys : Bytes) (i : ℕ) : bitAt (xs ++ ys) (8 * xs.length + i) = bitAt ys i := by
  unfold bitAt
  have h1 : (8 * xs.length + i) / 8 = xs.length + i / 8 := by omega
  have h2 : (8 * xs.length + i) % 8 = i % 8 := by omega
  rw [h1, h2, List.getD_eq_getElem?_getD, List.getElem?_append_right (by omega),
    Nat.add_sub_cancel_left, List.getD_eq_getElem?_getD]

theorem bitCount_append (xs ys : Bytes) (n : ℕ) :
    bitCount (xs ++ ys) (8 * xs.length + n) = bitCount xs (8 * xs.length) + bitCount ys n := by
  unfold bitCount
  rw [List.range_add, List.countP_append, List.countP_map]
  congr 1
  · refine List.countP_congr fun i hi => ?_
    rw [bitAt_append (List.mem_range.mp hi)]
  · refine List.countP_congr fun i _ => ?_
    simp only [Function.comp_apply, bitAt_add]

theorem bitCount_singleton (b : UInt8) {n : ℕ} (hn : n ≤ 8) :
    bitCount [b] n = nbits (b &&& ~~~(UInt8.ofNat (256 - 2 ^ n))) := by
  rw [nbits_and_mask b n hn]
  refine List.countP_congr fun i hi => ?_
  have hi' := List.mem_range.mp hi
  have h1 : i / 8 = 0 := by omega
  have h2 : i % 8 = i := by omega
  simp [bitAt, h1, h2]

/-- Whole bytes: the table's entries add up to the set bits. -/
theorem bitCount_bytes (bs : Bytes) : bitCount bs (8 * bs.length) = (bs.map nbits).sum := by
  induction bs with
  | nil => rfl
  | cons b bs ih =>
    have h := bitCount_append [b] bs (8 * bs.length)
    have hlen : 8 * (b :: bs).length = 8 * [b].length + 8 * bs.length := by
      simp only [List.length_cons, List.length_nil]; omega
    rw [← List.singleton_append, List.singleton_append, hlen, ← List.singleton_append, h, ih]
    simp [bitCount_singleton]

/-- The words before the last one count whole bytes. -/
theorem sum_words (bs : Bytes) (k : ℕ) :
    ((List.range k).map fun i => myCountBitsUint32 (wordAt bs i)).sum =
      ((bs.take (4 * k)).map nbits).sum := by
  induction k with
  | zero => rfl
  | succ k ih =>
    rw [List.range_succ, List.map_append, List.sum_append, ih, Nat.mul_succ, List.take_add,
      List.map_append, List.sum_append]
    simp [myCountBitsUint32, wordAt]

/-! ### Loaded bitmaps -/

/-- An image of `n` columns as an event carries it. -/
structure ImageOk (n : ℕ) (image : Bytes) : Prop where
  pos : 0 < n
  lt : n + 31 < 2 ^ 32
  length : image.length = (n + 7) / 8

section Loaded
variable {n : ℕ} {image : Bytes} (h : ImageOk n image)
include h

theorem ne_nil_of_imageOk : image ≠ [] := by
  have h1 := h.pos
  have h2 := h.length
  rintro rfl
  simp only [List.length_nil] at h2
  omega

theorem noWords_eq : noWordsInMap n = (n + 31) / 32 := by
  have hlt := h.lt
  unfold noWordsInMap
  rw [Nat.mod_eq_of_lt hlt]

theorem noBytes_eq : noBytesInMap n = image.length := by
  have hlt := h.lt
  unfold noBytesInMap
  rw [Nat.mod_eq_of_lt (by omega), h.length]

/-- The bitmap an image is loaded into. -/
theorem loadBitmap_eq : loadBitmap n image =
    .ok (createLastWordMask ⟨some (image ++ List.replicate (4 * noWordsInMap n - image.length) 0), n,
      (bitmapInit n).lastWordMask, (bitmapInit n).lastWordPtr⟩) := by
  have hw := noWords_eq h
  have hl := h.length
  have hfit : ¬ 4 * noWordsInMap n < image.length := by omega
  unfold loadBitmap
  rw [if_neg (ne_nil_of_imageOk h), if_neg hfit]
  rfl

theorem exists_loadBitmap : ∃ map, loadBitmap n image = .ok map := ⟨_, loadBitmap_eq h⟩

/-- **A loaded bitmap has the bits of its image.** -/
theorem bitmapIsSet_loadBitmap {map : MyBitmap} (hm : loadBitmap n image = .ok map) {i : ℕ}
    (hi : i < n) : bitmapIsSet map i = .ok (bitAt image i) := by
  have hl := h.length
  rw [loadBitmap_eq h] at hm
  injection hm with hm
  subst hm
  have hlen : ¬ (image ++ List.replicate (4 * noWordsInMap n - image.length) 0).length ≤ i / 8 := by
    simp only [List.length_append, List.length_replicate]; omega
  unfold bitmapIsSet createLastWordMask
  simp only [Res.ofOption_some, Res.ok_bind, if_neg hlen]
  rw [bitAt_append (by omega)]
  rfl

/-- **The population count of a loaded bitmap** is the number of set bits below `n`. -/
theorem bitmapBitsSet_loadBitmap {map : MyBitmap} (hm : loadBitmap n image = .ok map) :
    bitmapBitsSet map = .ok (bitCount image n) := by
  have hpos := h.pos
  have hl := h.length
  have hw := noWords_eq h
  have hb := noBytes_eq h
  rw [loadBitmap_eq h] at hm
  injection hm with hm
  subst hm
  -- cut the image at the last word: `A` are the full words before it, `W` its one to four bytes
  obtain ⟨k, hk⟩ : ∃ k, noWordsInMap n = k + 1 := ⟨noWordsInMap n - 1, by omega⟩
  obtain ⟨A, W, rfl, hA⟩ : ∃ A W, image = A ++ W ∧ A.length = 4 * k :=
    ⟨image.take (4 * k), image.drop (4 * k), by simp, by simp; omega⟩
  have hpad : 4 * noWordsInMap n - (A ++ W).length = 4 - W.length := by
    simp only [List.length_append] at hl ⊢; omega
  have hmod : noBytesInMap n % 4 = W.length % 4 := by
    simp only [List.length_append] at hb; omega
  have hlen : W.length ≤ 4 ∧ 0 < W.length := by
    simp only [List.length_append] at hl; omega
  set used := 1 + (n + 2 ^ 32 - 1) % 2 ^ 32 % 8 with hused
  have hn : n = 8 * A.length + (8 * (W.length - 1) + used) := by
    simp only [List.length_append] at hl; omega
  have hmask : lastByteMask n = UInt8.ofNat (256 - 2 ^ used) := rfl
  have hlast : wordAt (A ++ W ++ List.replicate (4 - W.length) 0) k =
      W ++ List.replicate (4 - W.length) 0 := by
    unfold wordAt
    rw [List.append_assoc, List.drop_append_of_le_length (by omega), ← hA, List.drop_length,
      List.nil_append, List.take_of_length_le (by simp; omega)]
  have hfit : ¬ (A ++ W ++ List.replicate (4 - W.length) (0 : UInt8)).length < 4 * (k + 1) := by
    simp only [List.length_append, List.length_replicate]; omega
  have hfull : (A ++ W ++ List.replicate (4 - W.length) 0).take (4 * k) = A := by
    rw [List.append_assoc, ← hA, List.take_left']
    rfl
  -- the last byte of `W` is the one the mask cuts
  obtain ⟨V, x, rfl⟩ : ∃ V x, W = V ++ [x] :=
    ⟨W.dropLast, W.getLast (List.length_pos_iff.mp hlen.2), (List.dropLast_concat_getLast _).symm⟩
  have hcount : bitCount (A ++ (V ++ [x])) n =
      (A.map nbits).sum + ((V.map nbits).sum + nbits (x &&& ~~~lastByteMask n)) := by
    have hV : (V ++ [x]).length - 1 = V.length := by simp
    rw [hV] at hn
    rw [hmask, ← bitCount_singleton x (by omega), ← bitCount_bytes A, ← bitCount_bytes V,
      ← bitCount_append, ← bitCount_append, ← hn]
  rw [hcount]
  unfold bitmapBitsSet createLastWordMask
  simp only [Res.ofOption_some, Res.ok_bind, hpad]
  simp only [hk, if_neg hpos.ne', Nat.add_sub_cancel, if_neg hfit, sum_words, hfull, hlast, hmod]
  clear hlast hfull hfit hpad hmod hcount hn hb hl
  rcases V with _ | ⟨a, _ | ⟨b, _ | ⟨c, _ | ⟨d, V⟩⟩⟩⟩ <;>
    simp [myCountBitsUint32] at hlen ⊢ <;> omega

end Loaded

end DataSync.Binlog.Bitmap
