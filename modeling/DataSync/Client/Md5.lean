import DataSync.Lib.BlockHash
import DataSync.Lib.Words

/-! # MD5

The class `MD5`, whose digest of the time of a query names the heads of an export. Its `uint32` is an
`unsigned long`: of 32 bits on Windows, of 64 elsewhere; the width is a parameter here.

`md5Process_low`: the unrolled code with its short boolean forms is the compression of RFC 1321.
`digest_updates`: data given in any pieces has the digest of the padded whole. With wide words a piece must
be below `2 ^ 29` bytes: from there on the carry into `total[1]` is wrong. -/

namespace DataSync.Client.Md5

open DataSync.Lib.Words
open DataSync.Lib.BlockHash

/-! ### The code -/

/-- `A`, `B`, `C` and `D`, or `state`. -/
@[ext] structure Regs (w : ℕ) where
  A : BitVec w
  B : BitVec w
  C : BitVec w
  D : BitVec w
  deriving DecidableEq, Repr

section
variable {w : ℕ}

/-- `GET_UINT32`. -/
def getUint32 (b : Bytes) (i : ℕ) : BitVec w := BitVec.ofNat w (leNat ((b.drop i).take 4))

/-- `PUT_UINT32`. -/
def putUint32 (n : BitVec w) : Bytes := leBytes 4 n.toNat

/-- `S`. -/
def S (x : BitVec w) (n : ℕ) : BitVec w := (x <<< n) ||| ((x &&& BitVec.ofNat w 0xFFFFFFFF) >>> (32 - n))

/-- The register a line `P` sets. -/
inductive Target where
  | A | D | C | B
  deriving DecidableEq, Repr

/-- A line `P`: its register, and `k`, `s` and `t`. -/
structure Line where
  target : Target
  k : ℕ
  s : ℕ
  t : ℕ
  deriving DecidableEq, Repr

/-- `P`. -/
def P (F : BitVec w → BitVec w → BitVec w → BitVec w) (X : ℕ → BitVec w) (r : Regs w) (l : Line) : Regs w :=
  let line (a b c d : BitVec w) : BitVec w := S (a + (F b c d + X l.k + BitVec.ofNat w l.t)) l.s + b
  match l.target with
  | .A => { r with A := line r.A r.B r.C r.D }
  | .D => { r with D := line r.D r.A r.B r.C }
  | .C => { r with C := line r.C r.D r.A r.B }
  | .B => { r with B := line r.B r.C r.D r.A }

/-- The four definitions of `F`. -/
def F1 (x y z : BitVec w) : BitVec w := z ^^^ (x &&& (y ^^^ z))

def F2 (x y z : BitVec w) : BitVec w := y ^^^ (z &&& (x ^^^ y))

def F3 (x y z : BitVec w) : BitVec w := x ^^^ y ^^^ z

def F4 (x y z : BitVec w) : BitVec w := y ^^^ (x ||| ~~~z)

end

/-- The lines of the first round. -/
def round1 : List Line :=
  [⟨.A, 0, 7, 0xD76AA478⟩, ⟨.D, 1, 12, 0xE8C7B756⟩, ⟨.C, 2, 17, 0x242070DB⟩, ⟨.B, 3, 22, 0xC1BDCEEE⟩,
    ⟨.A, 4, 7, 0xF57C0FAF⟩, ⟨.D, 5, 12, 0x4787C62A⟩, ⟨.C, 6, 17, 0xA8304613⟩, ⟨.B, 7, 22, 0xFD469501⟩,
    ⟨.A, 8, 7, 0x698098D8⟩, ⟨.D, 9, 12, 0x8B44F7AF⟩, ⟨.C, 10, 17, 0xFFFF5BB1⟩, ⟨.B, 11, 22, 0x895CD7BE⟩,
    ⟨.A, 12, 7, 0x6B901122⟩, ⟨.D, 13, 12, 0xFD987193⟩, ⟨.C, 14, 17, 0xA679438E⟩, ⟨.B, 15, 22, 0x49B40821⟩]

/-- The lines of the second round. -/
def round2 : List Line :=
  [⟨.A, 1, 5, 0xF61E2562⟩, ⟨.D, 6, 9, 0xC040B340⟩, ⟨.C, 11, 14, 0x265E5A51⟩, ⟨.B, 0, 20, 0xE9B6C7AA⟩,
    ⟨.A, 5, 5, 0xD62F105D⟩, ⟨.D, 10, 9, 0x02441453⟩, ⟨.C, 15, 14, 0xD8A1E681⟩, ⟨.B, 4, 20, 0xE7D3FBC8⟩,
    ⟨.A, 9, 5, 0x21E1CDE6⟩, ⟨.D, 14, 9, 0xC33707D6⟩, ⟨.C, 3, 14, 0xF4D50D87⟩, ⟨.B, 8, 20, 0x455A14ED⟩,
    ⟨.A, 13, 5, 0xA9E3E905⟩, ⟨.D, 2, 9, 0xFCEFA3F8⟩, ⟨.C, 7, 14, 0x676F02D9⟩, ⟨.B, 12, 20, 0x8D2A4C8A⟩]

/-- The lines of the third round. -/
def round3 : List Line :=
  [⟨.A, 5, 4, 0xFFFA3942⟩, ⟨.D, 8, 11, 0x8771F681⟩, ⟨.C, 11, 16, 0x6D9D6122⟩, ⟨.B, 14, 23, 0xFDE5380C⟩,
    ⟨.A, 1, 4, 0xA4BEEA44⟩, ⟨.D, 4, 11, 0x4BDECFA9⟩, ⟨.C, 7, 16, 0xF6BB4B60⟩, ⟨.B, 10, 23, 0xBEBFBC70⟩,
    ⟨.A, 13, 4, 0x289B7EC6⟩, ⟨.D, 0, 11, 0xEAA127FA⟩, ⟨.C, 3, 16, 0xD4EF3085⟩, ⟨.B, 6, 23, 0x04881D05⟩,
    ⟨.A, 9, 4, 0xD9D4D039⟩, ⟨.D, 12, 11, 0xE6DB99E5⟩, ⟨.C, 15, 16, 0x1FA27CF8⟩, ⟨.B, 2, 23, 0xC4AC5665⟩]

/-- The lines of the fourth round. -/
def round4 : List Line :=
  [⟨.A, 0, 6, 0xF4292244⟩, ⟨.D, 7, 10, 0x432AFF97⟩, ⟨.C, 14, 15, 0xAB9423A7⟩, ⟨.B, 5, 21, 0xFC93A039⟩,
    ⟨.A, 12, 6, 0x655B59C3⟩, ⟨.D, 3, 10, 0x8F0CCC92⟩, ⟨.C, 10, 15, 0xFFEFF47D⟩, ⟨.B, 1, 21, 0x85845DD1⟩,
    ⟨.A, 8, 6, 0x6FA87E4F⟩, ⟨.D, 15, 10, 0xFE2CE6E0⟩, ⟨.C, 6, 15, 0xA3014314⟩, ⟨.B, 13, 21, 0x4E0811A1⟩,
    ⟨.A, 4, 6, 0xF7537E82⟩, ⟨.D, 11, 10, 0xBD3AF235⟩, ⟨.C, 2, 15, 0x2AD7D2BB⟩, ⟨.B, 9, 21, 0xEB86D391⟩]

section
variable {w : ℕ}

/-- `md5_process`, on the state. -/
def md5Process (state : Regs w) (data : Bytes) : Regs w :=
  let X (k : ℕ) : BitVec w := getUint32 data (4 * k)
  let r := round1.foldl (P F1 X) state
  let r := round2.foldl (P F2 X) r
  let r := round3.foldl (P F3 X) r
  let r := round4.foldl (P F4 X) r
  ⟨state.A + r.A, state.B + r.B, state.C + r.C, state.D + r.D⟩

/-- `md5_context`. -/
structure Context (w : ℕ) where
  total0 : BitVec w
  total1 : BitVec w
  state : Regs w
  buffer : Bytes
  deriving DecidableEq, Repr

/-- `md5_starts`, with whatever the buffer holds. -/
def md5Starts (w : ℕ) (buffer : Bytes) : Context w where
  total0 := 0
  total1 := 0
  state := ⟨BitVec.ofNat w 0x67452301, BitVec.ofNat w 0xEFCDAB89, BitVec.ofNat w 0x98BADCFE,
    BitVec.ofNat w 0x10325476⟩
  buffer := buffer

/-- `memcpy` to `buffer + left`. -/
def memcpy (buffer : Bytes) (left : ℕ) (input : Bytes) : Bytes :=
  buffer.take left ++ input ++ buffer.drop (left + input.length)

/-- The `while` of `md5_update` in so many rounds, and the `memcpy` behind it. -/
def updateBlocks : ℕ → Context w → ℕ → Bytes → Context w
  | 0, ctx, left, input => if input = [] then ctx else { ctx with buffer := memcpy ctx.buffer left input }
  | n + 1, ctx, left, input =>
    updateBlocks n { ctx with state := md5Process ctx.state (input.take 64) } left (input.drop 64)

/-- `md5_update`; `input` is the data of the given length. -/
def md5Update (ctx : Context w) (input : Bytes) : Context w :=
  if input = [] then ctx
  else
    let length := BitVec.ofNat w input.length
    let left := ((ctx.total0 >>> 3) &&& 0x3F).toNat
    let fill := 64 - left
    let total0 := (ctx.total0 + length <<< 3) &&& BitVec.ofNat w 0xFFFFFFFF
    let total1 := ctx.total1 + length >>> 29 + if total0 < length <<< 3 then 1 else 0
    let ctx := { ctx with total0 := total0, total1 := total1 }
    if left ≠ 0 ∧ fill ≤ input.length then
      let buffer := memcpy ctx.buffer left (input.take fill)
      let ctx := { ctx with buffer := buffer, state := md5Process ctx.state buffer }
      updateBlocks ((input.length - fill) / 64) ctx 0 (input.drop fill)
    else updateBlocks (input.length / 64) ctx left input

/-- `md5_padding`. -/
def md5Padding : Bytes := 0x80 :: List.replicate 63 0

/-- `md5_finish`: the digest. -/
def md5Finish (ctx : Context w) : Bytes :=
  let msglen := putUint32 ctx.total0 ++ putUint32 ctx.total1
  let last := ((ctx.total0 >>> 3) &&& 0x3F).toNat
  let padn := if last < 56 then 56 - last else 120 - last
  let ctx := md5Update (md5Update ctx (md5Padding.take padn)) msglen
  putUint32 ctx.state.A ++ putUint32 ctx.state.B ++ putUint32 ctx.state.C ++ putUint32 ctx.state.D

/-- `GenerateMD5`: the bytes of `m_data`. -/
def generateMD5 (w : ℕ) (junk input : Bytes) : Bytes := md5Finish (md5Update (md5Starts w junk) input)

end

/-- `sprintf` with `%02x`. -/
def hex2 (b : UInt8) : List Char := (Nat.toDigits 16 b.toNat).leftpad 2 '0'

/-- `ToString`. -/
def toString (m_data : Bytes) : String := String.ofList (m_data.flatMap hex2)

/-! ### The compression of RFC 1321 -/

/-- The boolean functions of the four rounds. -/
def boolean (j : ℕ) (x y z : BitVec 32) : BitVec 32 :=
  if j < 16 then (x &&& y) ||| (~~~x &&& z)
  else if j < 32 then (x &&& z) ||| (y &&& ~~~z)
  else if j < 48 then x ^^^ y ^^^ z
  else y ^^^ (x ||| ~~~z)

/-- The word of the block that operation `j` reads. -/
def word (j : ℕ) : ℕ :=
  if j < 16 then j else if j < 32 then (5 * j + 1) % 16 else if j < 48 then (3 * j + 5) % 16 else 7 * j % 16

/-- How far operation `j` rotates. -/
def shift (j : ℕ) : ℕ :=
  if j < 16 then [7, 12, 17, 22].getD (j % 4) 0
  else if j < 32 then [5, 9, 14, 20].getD (j % 4) 0
  else if j < 48 then [4, 11, 16, 23].getD (j % 4) 0
  else [6, 10, 15, 21].getD (j % 4) 0

/-- The table `T` of the RFC: the whole part of `4294967296` times `|sin i|`, for `i` from one on. -/
def table : List ℕ :=
  [0xd76aa478, 0xe8c7b756, 0x242070db, 0xc1bdceee, 0xf57c0faf, 0x4787c62a, 0xa8304613, 0xfd469501,
    0x698098d8, 0x8b44f7af, 0xffff5bb1, 0x895cd7be, 0x6b901122, 0xfd987193, 0xa679438e, 0x49b40821,
    0xf61e2562, 0xc040b340, 0x265e5a51, 0xe9b6c7aa, 0xd62f105d, 0x02441453, 0xd8a1e681, 0xe7d3fbc8,
    0x21e1cde6, 0xc33707d6, 0xf4d50d87, 0x455a14ed, 0xa9e3e905, 0xfcefa3f8, 0x676f02d9, 0x8d2a4c8a,
    0xfffa3942, 0x8771f681, 0x6d9d6122, 0xfde5380c, 0xa4beea44, 0x4bdecfa9, 0xf6bb4b60, 0xbebfbc70,
    0x289b7ec6, 0xeaa127fa, 0xd4ef3085, 0x04881d05, 0xd9d4d039, 0xe6db99e5, 0x1fa27cf8, 0xc4ac5665,
    0xf4292244, 0x432aff97, 0xab9423a7, 0xfc93a039, 0x655b59c3, 0x8f0ccc92, 0xffeff47d, 0x85845dd1,
    0x6fa87e4f, 0xfe2ce6e0, 0xa3014314, 0x4e0811a1, 0xf7537e82, 0xbd3af235, 0x2ad7d2bb, 0xeb86d391]

/-- The constant of operation `j`. -/
def constant (j : ℕ) : ℕ := table.getD j 0

/-- Operation `j`: the registers move on by one. -/
def operation (block : Bytes) (r : Regs 32) (j : ℕ) : Regs 32 where
  A := r.D
  B := (r.A + (boolean j r.B r.C r.D + getUint32 block (4 * word j) + BitVec.ofNat 32 (constant j))).rotateLeft
    (shift j) + r.B
  C := r.B
  D := r.C

/-- The compression of a block. -/
def compress (state : Regs 32) (block : Bytes) : Regs 32 :=
  let r := (List.range 64).foldl (operation block) state
  ⟨state.A + r.A, state.B + r.B, state.C + r.C, state.D + r.D⟩

/-- The registers at the start. -/
def initial : Regs 32 := ⟨0x67452301, 0xEFCDAB89, 0x98BADCFE, 0x10325476⟩

/-- The padding of a message of `n` bytes: a one, zeros up to 56 in a block, and the length in bits. -/
def padding (n : ℕ) : Bytes := 0x80 :: List.replicate ((119 - n % 64) % 64) 0 ++ leBytes 8 (8 * n)

/-- The registers as bytes. -/
def digest (r : Regs 32) : Bytes := putUint32 r.A ++ putUint32 r.B ++ putUint32 r.C ++ putUint32 r.D

/-- The digest of a message. -/
def md5 (msg : Bytes) : Bytes := digest (absorb compress 64 initial (msg ++ padding msg.length)).1

/-! ### Words of any width -/

section
variable {w : ℕ}

/-- The 32 bits of a word that count. -/
def low (x : BitVec w) : BitVec 32 := x.setWidth 32

/-- The registers' 32 bits. -/
def Regs.low (r : Regs w) : Regs 32 := ⟨Md5.low r.A, Md5.low r.B, Md5.low r.C, Md5.low r.D⟩

theorem low_add (hw : 32 ≤ w) (x y : BitVec w) : low (x + y) = low x + low y := BitVec.setWidth_add x y hw

theorem low_ofNat (hw : 32 ≤ w) (n : ℕ) : low (BitVec.ofNat w n) = BitVec.ofNat 32 n :=
  BitVec.setWidth_ofNat_of_le hw n

theorem low_not (hw : 32 ≤ w) (x : BitVec w) : low (~~~x) = ~~~(low x) := BitVec.setWidth_not hw

theorem low_and (x y : BitVec w) : low (x &&& y) = low x &&& low y := BitVec.setWidth_and

theorem low_or (x y : BitVec w) : low (x ||| y) = low x ||| low y := BitVec.setWidth_or

theorem low_xor (x y : BitVec w) : low (x ^^^ y) = low x ^^^ low y := BitVec.setWidth_xor

/-- The bits of the mask. -/
theorem getLsbD_mask (hw : 32 ≤ w) (i : ℕ) : (BitVec.ofNat w 0xFFFFFFFF).getLsbD i = decide (i < 32) := by
  have htest : Nat.testBit 0xFFFFFFFF i = decide (i < 32) := by
    rw [show 0xFFFFFFFF = 2 ^ 32 - 1 by norm_num, Nat.testBit_two_pow_sub_one]
  rw [BitVec.getLsbD_ofNat, htest]
  by_cases h : i < 32
  · simp [h, h.trans_le hw]
  · simp [h]

/-- The mask in front of the shift to the right keeps the rest of a wide word out. -/
theorem low_S (hw : 32 ≤ w) (x : BitVec w) {n : ℕ} (hn : n < 32) : low (S x n) = (low x).rotateLeft n := by
  refine BitVec.eq_of_getLsbD_eq fun i hi => ?_
  have hmask := getLsbD_mask hw (32 - n + i)
  have hiw : i < w := by omega
  rw [BitVec.getLsbD_rotateLeft, Nat.mod_eq_of_lt hn, low, S, low, BitVec.getLsbD_setWidth, BitVec.getLsbD_or,
    BitVec.getLsbD_shiftLeft, BitVec.getLsbD_ushiftRight, BitVec.getLsbD_and, hmask, BitVec.getLsbD_setWidth,
    BitVec.getLsbD_setWidth]
  by_cases h : i < n
  · have hin : 32 - n + i < 32 := by omega
    simp [h, hi, hin]
  · have hin : ¬ 32 - n + i < 32 := by omega
    have hsub : i - n < 32 := by omega
    simp [h, hi, hiw, hin, hsub]

/-! ### The rounds -/

/-- The register of operation `j`. -/
def target (j : ℕ) : Target := [Target.A, .D, .C, .B].getD (j % 4) .A

/-- The line of operation `j`. -/
def line (j : ℕ) : Line := ⟨target j, word j, shift j, constant j⟩

/-- The registers under the names they have where the next line sets `t`. -/
def view (t : Target) (r : Regs w) : Regs w :=
  match t with
  | .A => r
  | .D => ⟨r.D, r.A, r.B, r.C⟩
  | .C => ⟨r.C, r.D, r.A, r.B⟩
  | .B => ⟨r.B, r.C, r.D, r.A⟩

theorem view_target_succ (j : ℕ) (r : Regs w) :
    view (target (j + 1)) r = ⟨(view (target j) r).D, (view (target j) r).A, (view (target j) r).B,
      (view (target j) r).C⟩ := by
  have hj : j % 4 = 0 ∨ j % 4 = 1 ∨ j % 4 = 2 ∨ j % 4 = 3 := by omega
  rcases hj with h | h | h | h <;> simp [target, Nat.add_mod, h, view]

theorem view_low (t : Target) (r : Regs w) : view t r.low = (view t r).low := by
  cases t <;> rfl

theorem shift_lt (j : ℕ) : shift j < 32 := by
  have hj : j % 4 = 0 ∨ j % 4 = 1 ∨ j % 4 = 2 ∨ j % 4 = 3 := by omega
  unfold shift
  rcases hj with h | h | h | h <;> rw [h] <;> split_ifs <;> decide

/-- A line sets the register that the view has in front. -/
theorem view_P (F : BitVec w → BitVec w → BitVec w → BitVec w) (X : ℕ → BitVec w) (r : Regs w) (l : Line) :
    view l.target (P F X r l) = { view l.target r with
      A := S ((view l.target r).A + (F (view l.target r).B (view l.target r).C (view l.target r).D + X l.k +
        BitVec.ofNat w l.t)) l.s + (view l.target r).B } := by
  unfold P
  cases l.target <;> rfl

/-- **A line is an operation** on the low bits. -/
theorem view_line (hw : 32 ≤ w) {F : BitVec w → BitVec w → BitVec w → BitVec w} {j : ℕ}
    (hF : ∀ x y z, low (F x y z) = boolean j (low x) (low y) (low z)) (block : Bytes) (r : Regs w) :
    view (target (j + 1)) (P F (fun k => getUint32 block (4 * k)) r (line j)).low =
      operation block (view (target j) r.low) j := by
  have hP := view_P F (fun k => getUint32 block (4 * k)) r (line j)
  change view (target j) (P F _ r (line j)) = _ at hP
  rw [view_low, view_target_succ, hP, view_low]
  simp only [Regs.low, operation, line, low_add hw, low_S hw _ (shift_lt j), hF, low_ofNat hw, getUint32]

theorem foldl_line (hw : 32 ≤ w) {F : BitVec w → BitVec w → BitVec w → BitVec w} (block : Bytes) (n : ℕ) :
    ∀ (j : ℕ) (_ : ∀ i, j ≤ i → i < j + n → ∀ x y z, low (F x y z) = boolean i (low x) (low y) (low z))
      (r : Regs w),
      view (target (j + n)) (((List.range' j n).map line).foldl (P F fun k => getUint32 block (4 * k)) r).low =
        (List.range' j n).foldl (operation block) (view (target j) r.low) := by
  induction n with
  | zero => intro j _ r; rfl
  | succ n ih =>
    intro j hF r
    have hstep := view_line hw (hF j (le_refl j) (by omega)) block r
    have hrest := ih (j + 1) (fun i h1 h2 => hF i (by omega) (by omega))
      (P F (fun k => getUint32 block (4 * k)) r (line j))
    rw [List.range'_succ, List.map_cons, List.foldl_cons, List.foldl_cons, ← hstep, ← hrest,
      show j + (n + 1) = j + 1 + n by omega]

/-- A round: four times four lines bring the registers back to their names. -/
theorem round_low (hw : 32 ≤ w) {F : BitVec w → BitVec w → BitVec w → BitVec w} {lines : List Line} {j : ℕ}
    (hj : j % 4 = 0) (hlines : lines = (List.range' j 16).map line)
    (hF : ∀ i, j ≤ i → i < j + 16 → ∀ x y z, low (F x y z) = boolean i (low x) (low y) (low z)) (block : Bytes)
    (r : Regs w) :
    (lines.foldl (P F fun k => getUint32 block (4 * k)) r).low =
      (List.range' j 16).foldl (operation block) r.low := by
  have hA : target j = .A := by simp [target, hj]
  have hA' : target (j + 16) = .A := by simp [target, Nat.add_mod, hj]
  have h := foldl_line hw block 16 j hF r
  rw [hA, hA', ← hlines] at h
  exact h

theorem low_F1 {j : ℕ} (h : j < 16) (x y z : BitVec w) :
    low (F1 x y z) = boolean j (low x) (low y) (low z) := by
  rw [boolean, if_pos h, F1, low_xor, low_and, low_xor]
  refine BitVec.eq_of_getLsbD_eq fun i hi => ?_
  simp only [BitVec.getLsbD_xor, BitVec.getLsbD_and, BitVec.getLsbD_or, BitVec.getLsbD_not, hi]
  cases (low x).getLsbD i <;> cases (low y).getLsbD i <;> cases (low z).getLsbD i <;> rfl

theorem low_F2 {j : ℕ} (h16 : 16 ≤ j) (h : j < 32) (x y z : BitVec w) :
    low (F2 x y z) = boolean j (low x) (low y) (low z) := by
  rw [boolean, if_neg (by omega), if_pos h, F2, low_xor, low_and, low_xor]
  refine BitVec.eq_of_getLsbD_eq fun i hi => ?_
  simp only [BitVec.getLsbD_xor, BitVec.getLsbD_and, BitVec.getLsbD_or, BitVec.getLsbD_not, hi]
  cases (low x).getLsbD i <;> cases (low y).getLsbD i <;> cases (low z).getLsbD i <;> rfl

theorem low_F3 {j : ℕ} (h32 : 32 ≤ j) (h : j < 48) (x y z : BitVec w) :
    low (F3 x y z) = boolean j (low x) (low y) (low z) := by
  rw [boolean, if_neg (by omega), if_neg (by omega), if_pos h, F3, low_xor, low_xor]

theorem low_F4 (hw : 32 ≤ w) {j : ℕ} (h48 : 48 ≤ j) (x y z : BitVec w) :
    low (F4 x y z) = boolean j (low x) (low y) (low z) := by
  rw [boolean, if_neg (by omega), if_neg (by omega), if_neg (by omega), F4, low_xor, low_or, low_not hw]

theorem round1_eq : round1 = (List.range' 0 16).map line := by decide
theorem round2_eq : round2 = (List.range' 16 16).map line := by decide
theorem round3_eq : round3 = (List.range' 32 16).map line := by decide
theorem round4_eq : round4 = (List.range' 48 16).map line := by decide

/-- **The code of a block is the compression of RFC 1321**, on the 32 bits that count. -/
theorem md5Process_low (hw : 32 ≤ w) (state : Regs w) (block : Bytes) :
    (md5Process state block).low = compress state.low block := by
  have h1 := fun r : Regs w =>
    round_low hw (by omega) round1_eq (fun i _ h => low_F1 (by omega)) block r
  have h2 := fun r : Regs w =>
    round_low hw (by omega) round2_eq (fun i h h' => low_F2 h (by omega)) block r
  have h3 := fun r : Regs w =>
    round_low hw (by omega) round3_eq (fun i h h' => low_F3 h (by omega)) block r
  have h4 := fun r : Regs w =>
    round_low hw (by omega) round4_eq (fun i h _ => low_F4 hw h) block r
  have hrange : List.range 64 = List.range' 0 16 ++ List.range' 16 16 ++ List.range' 32 16 ++ List.range' 48 16 := by
    decide
  rw [compress, hrange, List.foldl_append, List.foldl_append, List.foldl_append, ← h1, ← h2, ← h3, ← h4]
  simp only [md5Process, Regs.low, low_add hw]

/-! ### A context and the data it has been given -/

@[simp] theorem memcpy_nil (buffer : Bytes) (left : ℕ) : memcpy buffer left [] = buffer := by simp [memcpy]

theorem length_memcpy {buffer input : Bytes} {left : ℕ} (h : left + input.length ≤ buffer.length) :
    (memcpy buffer left input).length = buffer.length := by
  simp only [memcpy, List.length_append, List.length_take, List.length_drop]
  omega

theorem take_memcpy {buffer input : Bytes} {left : ℕ} (h : left ≤ buffer.length) :
    (memcpy buffer left input).take (left + input.length) = buffer.take left ++ input :=
  List.take_left' (by simp only [List.length_append, List.length_take]; omega)

theorem updateBlocks_eq (n : ℕ) (ctx : Context w) (left : ℕ) (input : Bytes) :
    updateBlocks n ctx left input = { ctx with
      state := (feed md5Process 64 n ctx.state input).1
      buffer := memcpy ctx.buffer left (feed md5Process 64 n ctx.state input).2 } := by
  induction n generalizing ctx input with
  | zero =>
    by_cases h : input = []
    · simp [updateBlocks, feed, h]
    · simp [updateBlocks, feed, h]
  | succ n ih => rw [updateBlocks, ih, feed]

/-- How long a piece may be: the words of 32 bits take what they count, wider ones only what leaves no carry
behind. -/
def Fits (w n : ℕ) : Prop := n < 2 ^ 29 ∨ w = 32 ∧ n < 2 ^ 32

/-- The context after `msg`. -/
structure Represents (ctx : Context w) (msg : Bytes) : Prop where
  total0 : ctx.total0.toNat = 8 * msg.length % 2 ^ 32
  total1 : ctx.total1.toNat % 2 ^ 32 = 8 * msg.length / 2 ^ 32 % 2 ^ 32
  state : ctx.state.low = (absorb compress 64 initial msg).1
  buffer : ctx.buffer.length = 64
  rest : ctx.buffer.take (msg.length % 64) = (absorb compress 64 initial msg).2

theorem md5Starts_represents (hw : 32 ≤ w) {junk : Bytes} (h : junk.length = 64) :
    Represents (md5Starts w junk) [] where
  total0 := by simp [md5Starts]
  total1 := by simp [md5Starts]
  state := by
    rw [absorb_short (by simp)]
    simp only [md5Starts, Regs.low, low_ofNat hw]
    rfl
  buffer := h
  rest := by rw [absorb_short (by simp)]; simp

theorem toNat_ofNat_fits (hw : 32 ≤ w) {n : ℕ} (h : Fits w n) : (BitVec.ofNat w n).toNat = n := by
  have hpow : 2 ^ 32 ≤ 2 ^ w := Nat.pow_le_pow_right (by norm_num) hw
  rw [BitVec.toNat_ofNat, Nat.mod_eq_of_lt]
  rcases h with h | ⟨-, h⟩ <;> omega

theorem toNat_shift_fits (hw : 32 ≤ w) {n : ℕ} (h : Fits w n) :
    (BitVec.ofNat w n <<< 3).toNat = 8 * n % 2 ^ 32 := by
  have hpow : 2 ^ 32 ≤ 2 ^ w := Nat.pow_le_pow_right (by norm_num) hw
  rw [BitVec.toNat_shiftLeft, toNat_ofNat_fits hw h, Nat.shiftLeft_eq, mul_comm]
  rcases h with h | ⟨rfl, -⟩
  · rw [Nat.mod_eq_of_lt (by omega), Nat.mod_eq_of_lt (by omega)]
  · rfl

theorem toNat_mask (hw : 32 ≤ w) (x : BitVec w) : (x &&& BitVec.ofNat w 0xFFFFFFFF).toNat = x.toNat % 2 ^ 32 := by
  have hpow : 2 ^ 32 ≤ 2 ^ w := Nat.pow_le_pow_right (by norm_num) hw
  rw [BitVec.toNat_and, BitVec.toNat_ofNat, Nat.mod_eq_of_lt (by omega),
    show 0xFFFFFFFF = 2 ^ 32 - 1 by norm_num, Nat.and_two_pow_sub_one_eq_mod]

/-- What is left in the buffer, from the count of the bits. -/
theorem toNat_left (hw : 32 ≤ w) {total0 : BitVec w} {n : ℕ} (h : total0.toNat = 8 * n % 2 ^ 32) :
    ((total0 >>> 3) &&& 0x3F).toNat = n % 64 := by
  have hpow : 2 ^ 32 ≤ 2 ^ w := Nat.pow_le_pow_right (by norm_num) hw
  have hmask : (0x3F : BitVec w).toNat = 2 ^ 6 - 1 := by
    change (BitVec.ofNat w 0x3F).toNat = _
    rw [BitVec.toNat_ofNat, Nat.mod_eq_of_lt (by omega)]
    norm_num
  rw [BitVec.toNat_and, hmask, Nat.and_two_pow_sub_one_eq_mod, BitVec.toNat_ushiftRight, h,
    Nat.shiftRight_eq_div_pow]
  omega

/-- The counts of `md5_update`. -/
theorem update_total (hw : 32 ≤ w) {total0 total1 : BitVec w} {m n : ℕ} (hn : Fits w n)
    (h0 : total0.toNat = 8 * m % 2 ^ 32) (h1 : total1.toNat % 2 ^ 32 = 8 * m / 2 ^ 32 % 2 ^ 32)
    {sum : BitVec w} (hsum : sum = (total0 + BitVec.ofNat w n <<< 3) &&& BitVec.ofNat w 0xFFFFFFFF) :
    sum.toNat = 8 * (m + n) % 2 ^ 32 ∧
    (total1 + BitVec.ofNat w n >>> 29 + if sum < BitVec.ofNat w n <<< 3 then 1 else 0).toNat % 2 ^ 32 =
      8 * (m + n) / 2 ^ 32 % 2 ^ 32 := by
  have hpow : 2 ^ 32 ∣ 2 ^ w := pow_dvd_pow 2 hw
  have hlt : 2 ^ 32 ≤ 2 ^ w := Nat.pow_le_pow_right (by norm_num) hw
  have hshift := toNat_shift_fits hw hn
  have hhigh : (BitVec.ofNat w n >>> 29).toNat = n / 2 ^ 29 := by
    rw [BitVec.toNat_ushiftRight, toNat_ofNat_fits hw hn, Nat.shiftRight_eq_div_pow]
  have h0' : sum.toNat = 8 * (m + n) % 2 ^ 32 := by
    rw [hsum, toNat_mask hw, BitVec.toNat_add, hshift, h0, Nat.mod_mod_of_dvd _ hpow]
    omega
  have hcarry : (if sum < BitVec.ofNat w n <<< 3 then (1 : BitVec w) else 0).toNat =
      if 8 * (m + n) % 2 ^ 32 < 8 * n % 2 ^ 32 then 1 else 0 := by
    simp only [BitVec.lt_def, h0', hshift]
    split_ifs
    · exact BitVec.toNat_one (by omega)
    · simp
  refine ⟨h0', ?_⟩
  rw [BitVec.toNat_add, BitVec.toNat_add, hcarry, hhigh, Nat.mod_mod_of_dvd _ hpow, Nat.add_mod,
    Nat.mod_mod_of_dvd _ hpow]
  split_ifs <;> omega

/-- The blocks behind a full or an empty buffer, and the rest behind what the buffer holds. -/
theorem updateBlocks_represents (hw : 32 ≤ w) {ctx : Context w} {input data : Bytes} (rest : Bytes)
    (h0 : ctx.total0.toNat = 8 * data.length % 2 ^ 32)
    (h1 : ctx.total1.toNat % 2 ^ 32 = 8 * data.length / 2 ^ 32 % 2 ^ 32) (hbuffer : ctx.buffer.length = 64)
    (hrest : ctx.buffer.take rest.length = rest) (h : rest = [] ∨ rest.length + input.length < 64)
    (hdata : absorb compress 64 ctx.state.low (rest ++ input) = absorb compress 64 initial data) :
    Represents (updateBlocks (input.length / 64) ctx rest.length input) data := by
  obtain ⟨⟨state, kept⟩, hfeed⟩ : ∃ r, absorb md5Process 64 ctx.state input = r := ⟨_, rfl⟩
  have hlow := absorb_map md5Process compress (n := 64) (by norm_num) Regs.low
    (md5Process_low hw) ctx.state input
  have hkept : kept.length = input.length % 64 := by
    have hmod := length_absorb md5Process (n := 64) (by norm_num) ctx.state input
    rwa [hfeed] at hmod
  have hres : absorb compress 64 initial data = (state.low, rest ++ kept) := by
    rw [← hdata]
    rcases h with rfl | h
    · rw [List.nil_append, hlow, hfeed, List.nil_append]
    · rw [absorb_short (by omega)] at hfeed
      obtain ⟨rfl, rfl⟩ := Prod.mk.inj hfeed
      exact absorb_short (by rw [List.length_append]; omega)
  have hlength : rest.length + kept.length = data.length % 64 := by
    have hmod := length_absorb compress (n := 64) (by norm_num) initial data
    rwa [hres, List.length_append] at hmod
  have hctx : updateBlocks (input.length / 64) ctx rest.length input = { ctx with
      state := state, buffer := memcpy ctx.buffer rest.length kept } := by
    rw [updateBlocks_eq]
    change absorb md5Process 64 ctx.state input = _ at hfeed
    rw [absorb] at hfeed
    rw [hfeed]
  rw [hctx]
  refine ⟨h0, h1, by rw [hres], ?_, ?_⟩
  · exact (length_memcpy (by omega)).trans hbuffer
  · rw [hres, ← hlength]
    refine (take_memcpy (by omega)).trans ?_
    rw [hrest]

/-- **`md5_update`** goes on with the data. -/
theorem md5Update_represents (hw : 32 ≤ w) {ctx : Context w} {msg input : Bytes} (h : Represents ctx msg)
    (hn : Fits w input.length) : Represents (md5Update ctx input) (msg ++ input) := by
  by_cases hnil : input = []
  · rw [md5Update, if_pos hnil, hnil, List.append_nil]
    exact h
  obtain ⟨h0, h1⟩ := update_total hw hn h.total0 h.total1 rfl
  rw [← List.length_append] at h0 h1
  have hleft := toNat_left hw h.total0
  have hlength : (ctx.buffer.take (msg.length % 64)).length = msg.length % 64 := by
    rw [List.length_take, h.buffer]
    omega
  have happend := absorb_append compress (n := 64) (by norm_num) initial msg input
  rw [← h.state, ← h.rest] at happend
  rw [md5Update, if_neg hnil]
  simp only [hleft]
  by_cases hfill : msg.length % 64 ≠ 0 ∧ 64 - msg.length % 64 ≤ input.length
  · -- the buffer is filled and used up before the blocks of the data
    rw [if_pos hfill]
    obtain ⟨front, back, rfl, hfront⟩ : ∃ front back, input = front ++ back ∧ front.length = 64 - msg.length % 64 :=
      ⟨_, _, (List.take_append_drop (64 - msg.length % 64) input).symm, by rw [List.length_take]; omega⟩
    have hfull : memcpy ctx.buffer (msg.length % 64) front = ctx.buffer.take (msg.length % 64) ++ front := by
      have hend : ctx.buffer.drop (msg.length % 64 + front.length) = [] :=
        List.drop_eq_nil_of_le (by rw [hfront, h.buffer]; omega)
      rw [memcpy, hend, List.append_nil]
    have hblock : (ctx.buffer.take (msg.length % 64) ++ front).length = 64 := by
      rw [List.length_append, hlength]
      omega
    have hback : (front ++ back).length - (64 - msg.length % 64) = back.length := by
      rw [List.length_append]
      omega
    rw [← List.append_assoc (ctx.buffer.take _), absorb_block_append (by norm_num) hblock, ← md5Process_low hw] at happend
    rw [List.take_left' hfront, List.drop_left' hfront, hback, hfull]
    exact updateBlocks_represents hw [] h0 h1 hblock rfl (.inl rfl) happend.symm
  · rw [if_neg hfill]
    have hshort : ctx.buffer.take (msg.length % 64) = [] ∨
        (ctx.buffer.take (msg.length % 64)).length + input.length < 64 := by
      rw [← List.length_eq_zero_iff, hlength]
      omega
    have hres : Represents (updateBlocks _ ⟨_, _, ctx.state, ctx.buffer⟩ _ input) (msg ++ input) :=
      updateBlocks_represents hw _ h0 h1 h.buffer (by rw [hlength]) hshort happend.symm
    rwa [hlength] at hres

/-! ### The digest -/

theorem leBytes_mod (k n : ℕ) : leBytes k (n % 256 ^ k) = leBytes k n := by
  induction k generalizing n with
  | zero => rfl
  | succ k ih =>
    rw [leBytes, leBytes, pow_succ', Nat.mod_mul_right_div_self, ih]
    congr 1
    exact UInt8.toNat.inj (by simp)

theorem putUint32_low (x : BitVec w) : putUint32 (low x) = putUint32 x := by
  rw [putUint32, low, BitVec.toNat_setWidth, show 2 ^ 32 = 256 ^ 4 by norm_num, leBytes_mod, putUint32]

/-- The two words of the length. -/
theorem putUint32_total {ctx : Context w} {msg : Bytes} (h : Represents ctx msg) :
    putUint32 ctx.total0 ++ putUint32 ctx.total1 = leBytes 8 (8 * msg.length) := by
  rw [putUint32, putUint32, h.total0, leBytes_add 4 4, show 2 ^ 32 = 256 ^ 4 by norm_num, leBytes_mod,
    ← leBytes_mod 4 ctx.total1.toNat, ← leBytes_mod 4 (8 * msg.length / 256 ^ 4)]
  have h1 := h.total1
  rw [show 2 ^ 32 = 256 ^ 4 by norm_num] at h1
  rw [h1]

/-- `padn` bytes of `md5_padding`. -/
theorem take_md5Padding (n : ℕ) :
    md5Padding.take (if n % 64 < 56 then 56 - n % 64 else 120 - n % 64) =
      0x80 :: List.replicate ((119 - n % 64) % 64) 0 := by
  have hpadn : (if n % 64 < 56 then 56 - n % 64 else 120 - n % 64) = (119 - n % 64) % 64 + 1 := by
    split_ifs <;> omega
  rw [hpadn, md5Padding, List.take_succ_cons, List.take_replicate, min_eq_left (by omega)]

/-- **`md5_finish`.** -/
theorem md5Finish_represents (hw : 32 ≤ w) {ctx : Context w} {msg : Bytes} (h : Represents ctx msg) :
    md5Finish ctx = md5 msg := by
  have hfits : Fits w (0x80 :: List.replicate ((119 - msg.length % 64) % 64) 0 : Bytes).length :=
    .inl (by rw [List.length_cons, List.length_replicate]; omega)
  have hfits' : Fits w (leBytes 8 (8 * msg.length)).length := .inl (by simp)
  have hpad := md5Update_represents hw h hfits
  have hlast := md5Update_represents hw hpad hfits'
  rw [List.append_assoc] at hlast
  rw [md5Finish]
  simp only [toNat_left hw h.total0, take_md5Padding, putUint32_total h]
  rw [md5, padding, ← hlast.state]
  simp only [digest, Regs.low, putUint32_low]

/-- **MD5**: whatever pieces the data comes in, the digest is that of the padded whole. -/
theorem digest_updates (hw : 32 ≤ w) {junk : Bytes} (hjunk : junk.length = 64) (pieces : List Bytes)
    (h : ∀ piece ∈ pieces, Fits w piece.length) :
    md5Finish (pieces.foldl md5Update (md5Starts w junk)) = md5 pieces.flatten := by
  suffices hrun : ∀ (ctx : Context w) (msg : Bytes), Represents ctx msg →
      Represents (pieces.foldl md5Update ctx) (msg ++ pieces.flatten) from
    md5Finish_represents hw (hrun _ _ (md5Starts_represents hw hjunk))
  induction pieces with
  | nil => exact fun ctx msg hctx => by simpa using hctx
  | cons piece pieces ih =>
    intro ctx msg hctx
    have hstep := md5Update_represents hw hctx (h piece List.mem_cons_self)
    have hrun := ih (fun p hp => h p (List.mem_cons_of_mem _ hp)) _ _ hstep
    rwa [List.append_assoc, ← List.flatten_cons] at hrun

end

/-- The RFC's digest of a text in three pieces. -/
theorem digest_updates_abc : md5Finish (([[97], [], [98, 99]] : List Bytes).foldl md5Update
    (md5Starts 64 (List.replicate 64 7))) = md5 [97, 98, 99] :=
  digest_updates (by norm_num) (by simp) [[97], [], [98, 99]] (by simp [Fits])

example : toString (generateMD5 32 (List.replicate 64 7) [97, 98, 99]) = "900150983cd24fb0d6963f7d28e17f72" := by
  decide +kernel

/-! ### The text -/

theorem digitChar_mem : ∀ d < 16, Nat.digitChar d ∈ "0123456789abcdef".toList := by decide

theorem hex2_digits (b : UInt8) : ∀ c ∈ hex2 b, c ∈ "0123456789abcdef".toList := by
  intro c hc
  have hb := b.toNat_lt
  rw [hex2, List.leftpad, List.mem_append] at hc
  rcases hc with hc | hc
  · obtain ⟨-, rfl⟩ := List.mem_replicate.mp hc
    decide
  · by_cases h : b.toNat < 16
    · rw [Nat.toDigits_of_lt_base h, List.mem_singleton] at hc
      exact hc ▸ digitChar_mem _ h
    · rw [Nat.toDigits_of_base_le (by norm_num) (by omega), Nat.toDigits_of_lt_base (by omega)] at hc
      rcases List.mem_append.mp hc with hc | hc
      · exact List.mem_singleton.mp hc ▸ digitChar_mem _ (by omega)
      · exact List.mem_singleton.mp hc ▸ digitChar_mem _ (by omega)

/-- A digest is printed in hexadecimal digits. -/
theorem toString_digits (m_data : Bytes) : ∀ c ∈ (toString m_data).toList, c ∈ "0123456789abcdef".toList := by
  intro c hc
  rw [toString, String.toList_ofList, List.mem_flatMap] at hc
  obtain ⟨b, -, hc⟩ := hc
  exact hex2_digits b c hc

theorem length_hex2 (b : UInt8) : (hex2 b).length = 2 := by
  have hlen : (Nat.toDigits 16 b.toNat).length ≤ 2 :=
    (Nat.length_toDigits_le_iff (by norm_num) (by norm_num)).mpr b.toNat_lt
  rw [hex2, List.length_leftpad]
  omega

/-- A digest is printed in 32 digits. -/
theorem length_toString (junk input : Bytes) : (toString (generateMD5 32 junk input)).length = 32 := by
  have hsum : ∀ m_data : Bytes, (m_data.flatMap hex2).length = 2 * m_data.length := by
    intro m_data
    simp [List.length_flatMap, length_hex2, mul_comm]
  rw [toString, String.length_ofList, hsum]
  simp [generateMD5, md5Finish, putUint32]

end DataSync.Client.Md5
