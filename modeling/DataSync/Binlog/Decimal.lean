import DataSync.Binlog.Format

/-! # DECIMAL: the binary form and its text

`decimal.cpp`: a DECIMAL column of `precision` digits, `scale` of them behind the point, is stored as
big-endian words of nine digits (four bytes), the leftover digits of each part in one to four bytes,
the sign bit flipped, all bytes complemented when negative. `bin2decimal` reads it into a `DecimalT`,
dropping leading zero words; `decimal2string` prints it.

A word that is too large sends `bin2decimal` to its `err` label, here `none`. -/

namespace DataSync.Binlog.Decimal

open DataSync.Lib.Words DataSync.Lib.Memory DataSync.Binlog.Format

/-- `DIG_PER_DEC1`. -/
def digPerDec1 : ℕ := 9

/-- `DIG_MAX`. -/
def digMax : ℕ := 999999999

/-- `DECIMAL_BUFF_LENGTH`. -/
def decimalBuffLength : ℕ := 9

/-- `DECIMAL_MAX_STR_LENGTH`. -/
def decimalMaxStrLength : ℕ := decimalBuffLength * 9 + 2

/-- The table `dig2bytes`: the bytes that hold so many leftover digits. -/
def dig2bytes (d : ℕ) : ℕ := [0, 1, 1, 2, 2, 3, 3, 4, 4, 4].getD d 0

/-- `ROUND_UP`. -/
def roundUp (x : ℕ) : ℕ := (x + digPerDec1 - 1) / digPerDec1

/-- `decimal_t`: the words of `buf` hold `intg` integer and `frac` fraction digits. -/
structure DecimalT where
  sign : Bool
  intg : ℕ
  frac : ℕ
  buf : List ℕ
  deriving DecidableEq, Repr

/-- `decimal_make_zero`. -/
def decimalMakeZero : DecimalT := ⟨false, 1, 0, [0]⟩

/-- `decimal_bin_size` for `scale ≤ precision`. -/
def decimalBinSize (precision scale : ℕ) : ℕ :=
  let intg := precision - scale
  intg / digPerDec1 * 4 + dig2bytes (intg % digPerDec1) + scale / digPerDec1 * 4 +
    dig2bytes (scale % digPerDec1)

/-! ### Reading the words -/

/-- The signed big-endian word of `n` bytes, complemented back when the number is negative
(`mi_sint1korr` … `mi_sint4korr`, then `x ^ mask`). -/
def readWord (neg : Bool) (n : ℕ) (bs : Bytes) : ℤ :=
  let x := toSigned (8 * n) (beNat (bs.take n))
  if neg then -x - 1 else x

/-- The stored words and the count `to->intg` behind one integer word of `d` digits: a zero word is
not stored while nothing has been stored. -/
def pushInt (d x : ℕ) (st : List ℕ × ℕ) : List ℕ × ℕ :=
  if st.1 ≠ [] ∨ x ≠ 0 then (st.1 ++ [x], st.2) else (st.1, st.2 - d)

/-- The leftover integer digits, read first. -/
def leadWord (neg : Bool) (intg0x : ℕ) (bs : Bytes) (intg : ℕ) : Option (List ℕ × ℕ) :=
  if intg0x = 0 then some ([], intg)
  else
    let x := readWord neg (dig2bytes intg0x) bs
    if x < 0 ∨ (10 : ℤ) ^ (intg0x + 1) ≤ x then none
    else some (pushInt intg0x x.toNat ([], intg))

/-- The loop over the full integer words. -/
def intLoop (neg : Bool) : ℕ → Bytes → List ℕ × ℕ → Option (List ℕ × ℕ)
  | 0, _, st => some st
  | n + 1, bs, st =>
    let x := readWord neg 4 bs
    if x < 0 ∨ (digMax : ℤ) < x then none
    else intLoop neg n (bs.drop 4) (pushInt digPerDec1 x.toNat st)

/-- The loop over the full fraction words. -/
def fracLoop (neg : Bool) : ℕ → Bytes → List ℕ → Option (List ℕ)
  | 0, _, buf => some buf
  | n + 1, bs, buf =>
    let x := readWord neg 4 bs
    if x < 0 ∨ (digMax : ℤ) < x then none
    else fracLoop neg n (bs.drop 4) (buf ++ [x.toNat])

/-- The leftover fraction digits, scaled up to a full word (`int32` arithmetic). -/
def tailWord (neg : Bool) (frac0x : ℕ) (bs : Bytes) (buf : List ℕ) : Option (List ℕ) :=
  if frac0x = 0 then some buf
  else
    let x := Int.bmod (readWord neg (dig2bytes frac0x) bs * 10 ^ (digPerDec1 - frac0x)) (2 ^ 32)
    if x < 0 ∨ (digMax : ℤ) < x then none else some (buf ++ [x.toNat])

/-- The words behind the sign byte: `intg0` full and `intg0x` leftover integer digits, then `frac0`
full and `frac0x` leftover fraction digits. `none` is `goto err`. -/
def readWords (neg : Bool) (intg0 intg0x frac0 frac0x : ℕ) (bs : Bytes) :
    Option (List ℕ × ℕ) := do
  let lead := dig2bytes intg0x
  let st ← leadWord neg intg0x bs (intg0 * digPerDec1 + intg0x)
  let st ← intLoop neg intg0 (bs.drop lead) st
  let buf ← fracLoop neg frac0 (bs.drop (lead + intg0 * 4)) st.1
  let buf ← tailWord neg frac0x (bs.drop (lead + intg0 * 4 + frac0 * 4)) buf
  return (buf, st.2)

/-- `bin2decimal`. For `precision < scale` the code indexes `dig2bytes` below zero or runs past its
nine words; an empty field has no sign byte. Both are faults. When the digits need more than
`DECIMAL_BUFF_LENGTH` words, leading integer words or trailing fraction words are left out. -/
def bin2decimal (field : Ptr) (precision scale : ℕ) : Res DecimalT := do
  if precision < scale then throw .fault
  let bs ← field.bytes 0 (decimalBinSize precision scale)
  match bs with
  | [] => throw .fault
  | b :: rest =>
    let neg : Bool := b.toNat < 128
    let dCopy := (b ^^^ 0x80) :: rest
    let intg := precision - scale
    let intg0 := intg / digPerDec1
    let intg0x := intg % digPerDec1
    let frac0 := scale / digPerDec1
    let frac0x := scale % digPerDec1
    let intg1 := intg0 + (if 0 < intg0x then 1 else 0)
    let frac1 := frac0 + (if 0 < frac0x then 1 else 0)
    let finish (intg0 intg0x frac0 frac0x : ℕ) (bs : Bytes) : DecimalT :=
      match readWords neg intg0 intg0x frac0 frac0x bs with
      | none => decimalMakeZero
      | some (buf, n) =>
        let frac := frac0 * digPerDec1 + frac0x
        if n = 0 ∧ frac = 0 then decimalMakeZero else ⟨neg, n, frac, buf⟩
    if intg1 + frac1 ≤ decimalBuffLength then
      return finish intg0 intg0x frac0 frac0x dCopy
    else if decimalBuffLength < intg1 then
      return finish decimalBuffLength 0 0 0
        (dCopy.drop (dig2bytes intg0x + 4 * (intg0 - decimalBuffLength)))
    else
      return finish intg0 intg0x (decimalBuffLength - intg1) 0 dCopy

/-! ### Printing -/

/-- `count_leading_zeroes`. -/
def countLeadingZeroes : ℕ → ℕ → ℕ
  | 0, val => if 1 ≤ val then 0 else 1
  | i + 1, val => if 10 ^ (i + 1) ≤ val then 0 else 1 + countLeadingZeroes i val

/-- The loop of `remove_leading_zeroes` over the zero words; `i` digits go with the word at hand. -/
def skipZeroWords : ℕ → ℕ → List ℕ → Res (ℕ × List ℕ)
  | intg, _, [] => if intg = 0 then .ok (0, []) else .error .fault
  | intg, i, x :: buf =>
    if intg = 0 then .ok (0, x :: buf)
    else if x = 0 then skipZeroWords (intg - i) digPerDec1 buf
    else .ok (intg, x :: buf)

/-- `remove_leading_zeroes`. -/
def removeLeadingZeroes (d : DecimalT) : Res (ℕ × List ℕ) := do
  let (intg, buf) ← skipZeroWords d.intg ((d.intg - 1) % digPerDec1 + 1) d.buf
  if intg = 0 then return (0, buf)
  match buf with
  | [] => throw .fault
  | x :: _ => return (intg - countLeadingZeroes ((intg - 1) % digPerDec1) x, buf)

/-- The `i` low digits of `x`, least significant first. -/
def lowDigits : ℕ → ℕ → List ℕ
  | 0, _ => []
  | i + 1, x => (x - x / 10 * 10) :: lowDigits i (x / 10)

/-- The integer digits, least significant first: `words` from the last one back. -/
def intDigits : ℕ → List ℕ → Res (List ℕ)
  | 0, _ => .ok []
  | _ + 1, [] => .error .fault
  | intg + 1, x :: words => do
    let ds ← intDigits (intg + 1 - digPerDec1) words
    return lowDigits (min (intg + 1) digPerDec1) x ++ ds

/-- The `i` top digits of the nine-digit word `x`. -/
def topDigits : ℕ → ℕ → List ℕ
  | 0, _ => []
  | i + 1, x => x / 100000000 :: topDigits i ((x - x / 100000000 * 100000000) * 10)

/-- The fraction digits. -/
def fracDigits : ℕ → List ℕ → Res (List ℕ)
  | 0, _ => .ok []
  | _ + 1, [] => .error .fault
  | frac + 1, x :: words => do
    let ds ← fracDigits (frac + 1 - digPerDec1) words
    return topDigits (min (frac + 1) digPerDec1) x ++ ds

/-- A digit as a character code: `'0' + d`. -/
def digitChar (d : ℕ) : UInt8 := UInt8.ofNat (48 + d)

/-- `decimal2string(from, to, &len, 0, 0, 0)` with `len = DECIMAL_MAX_STR_LENGTH`: digits that do
not fit are cut, fraction first. -/
def decimal2string (d : DecimalT) : Res Bytes := do
  let (intg, buf0) ← removeLeadingZeroes d
  let (intg, buf0) := if intg + d.frac = 0 then (1, [0]) else (intg, buf0)
  let point := if d.frac = 0 then 0 else 1
  let len := (if d.sign then 1 else 0) + (if intg = 0 then 1 else intg) + point + d.frac
  let room := decimalMaxStrLength - 1
  let (intg, frac) :=
    if len ≤ room then (intg, d.frac)
    else
      let j := len - room
      let j := if d.frac ≠ 0 ∧ d.frac + 1 ≤ j then j - 1 else j
      if d.frac < j then (intg - (j - d.frac), 0) else (intg, d.frac - j)
  let fs ← fracDigits frac (buf0.drop (roundUp intg))
  let is ← intDigits intg (buf0.take (roundUp intg)).reverse
  return (if d.sign then [45] else []) ++
    (if intg = 0 then [48] else is.reverse.map digitChar) ++
    (if frac = 0 then [] else 46 :: fs.map digitChar)

end DataSync.Binlog.Decimal
