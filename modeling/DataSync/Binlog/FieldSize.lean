import DataSync.Binlog.FieldFormat
import DataSync.Binlog.TableDef

/-! # The two measures of a field

`binary_log_funcs.cpp`: `calc_field_size` measures a field by the type of its column, its metadata word
and the length in front of its data; `parseOneRowData` measures it along with decoding it. The switches of
the two are written independently of each other.

`parseOneRowData_calcFieldSize`: they agree on the columns a server writes, JSON and GEOMETRY apart. What
`bin2decimal` makes of arbitrary bytes has as many words as its digits ask for (`Shaped`), so printing it
stays inside them. `documentField_iff` says when JSON and GEOMETRY columns are measured right. -/

namespace DataSync.Binlog.FieldSize

open DataSync.Lib.Words DataSync.Lib.Memory DataSync.Binlog.Format DataSync.Binlog.Decimal
open DataSync.Binlog.MyTime DataSync.Binlog.Field DataSync.Binlog.FieldFormat DataSync.Binlog.TableDef

/-! ### The code -/

/-- `uint_max`. A shift out of the 32 bits is a fault. -/
def uintMax (bits : ℕ) : Res ℕ :=
  if 1 ≤ bits ∧ bits ≤ 32 then .ok (((1 <<< (bits - 1)) - 1) <<< 1 ||| 1) else .error .fault

/-- `max_display_length_for_field`. -/
def maxDisplayLengthForField (sqlType : FieldType) (metadata : ℕ) : Res ℕ :=
  match sqlType with
  | .newdecimal => .ok (metadata >>> 8)
  | .float => .ok 12
  | .double => .ok 22
  | .set | .enum => .ok (metadata &&& 0x00ff)
  | .string =>
    let type := (metadata >>> 8) % 256
    if type = 248 ∨ type = 247 then .ok (metadata &&& 0xff)
    else .ok ((((metadata >>> 4) &&& 0x300) ^^^ 0x300) + (metadata &&& 0x00ff))
  | .year | .tiny => .ok 4
  | .short => .ok 6
  | .int24 => .ok 9
  | .long => .ok 11
  | .longlong => .ok 20
  | .null => .ok 0
  | .newdate | .date | .time | .time2 => .ok 3
  | .timestamp | .timestamp2 => .ok 4
  | .datetime | .datetime2 => .ok 8
  | .bit => .ok (8 * (metadata >>> 8) + (metadata &&& 0x00ff))
  | .varString | .varchar => .ok metadata
  | .tinyBlob => uintMax (1 * 8)
  | .mediumBlob => uintMax (3 * 8)
  | .blob => uintMax (metadata * 8)
  | .longBlob | .geometry | .json => uintMax (4 * 8)
  | _ => .ok (2 ^ 32 - 1)

/-- `decimal_binary_size`, an `int`. With more decimals than digits the index into `dig2bytes` may be
negative, a fault. -/
def decimalBinarySize (precision scale : ℕ) : Res ℤ :=
  let intg : ℤ := precision - scale
  let intg0 := Int.tdiv intg 9
  let frac0 := scale / 9
  let intg0x := intg - intg0 * 9
  let frac0x := scale - frac0 * 9
  if intg0x < 0 then .error .fault
  else .ok (intg0 * 4 + dig2bytes intg0x.toNat + frac0 * 4 + dig2bytes frac0x)

/-- A string behind a length of one or two bytes. -/
def stringSize (masterData : Ptr) (maxLength : ℕ) : Res ℕ := do
  if 255 < maxLength then return 2 + (← masterData.le 0 2)
  else return 1 + (← masterData.read 0).toNat

/-- `calc_field_size`. -/
def calcFieldSize (col : FieldType) (masterData : Ptr) (metadata : ℕ) : Res ℕ := do
  match col with
  | .newdecimal => return ofSigned 32 (← decimalBinarySize (metadata >>> 8) (metadata &&& 0xff))
  | .decimal | .float | .double => return metadata
  | .set | .enum | .string =>
    let type := (metadata >>> 8) % 256
    if type = 248 ∨ type = 247 then return metadata &&& 0x00ff
    else stringSize masterData (← maxDisplayLengthForField .string metadata)
  | .year | .tiny => return 1
  | .short => return 2
  | .int24 => return 3
  | .long => return 4
  | .longlong => return 8
  | .null => return 0
  | .newdate | .date | .time => return 3
  | .time2 => return myTimeBinaryLength metadata
  | .timestamp => return 4
  | .timestamp2 => return myTimestampBinaryLength metadata
  | .datetime => return 8
  | .datetime2 => return myDatetimeBinaryLength metadata
  | .bit =>
    let fromLen := (metadata >>> 8) &&& 0x00ff
    let fromBitLen := metadata &&& 0x00ff
    return fromLen + if 0 < fromBitLen then 1 else 0
  | .varchar => stringSize masterData metadata
  | .tinyBlob | .mediumBlob | .longBlob | .blob | .geometry | .json =>
    let length ←
      match metadata with
      | 1 => UInt8.toNat <$> masterData.read 0
      | 2 => masterData.le 0 2
      | 3 => masterData.le 0 3
      | 4 => masterData.le 0 4
      | _ => pure 0
    return (length + metadata) % 2 ^ 32
  | _ => return 2 ^ 32 - 1

/-- `CTableDef::calc_field_size`. -/
def CTableDef.calcFieldSize (td : CTableDef) (col : ℕ) (masterData : Ptr) : Res ℕ := do
  FieldSize.calcFieldSize (FieldType.ofCode (← td.type col)) masterData
    (← Res.ofOption td.fieldMetadata[col]?)

/-! ### Decimals of any bytes -/

/-- The words of a decimal are as many as its digits ask for. -/
def Shaped (d : DecimalT) : Prop := d.buf.length = roundUp d.intg + roundUp d.frac

/-- `k` integer words are still to come: while none is stored, the digits counted are theirs. -/
def Pending (k : ℕ) (st : List ℕ × ℕ) : Prop := roundUp st.2 = st.1.length + k ∧ (st.1 = [] → st.2 = 9 * k)

theorem roundUp_mono {x y : ℕ} (h : x ≤ y) : roundUp x ≤ roundUp y := by
  unfold roundUp digPerDec1
  omega

theorem Pending.pushInt {k : ℕ} {st : List ℕ × ℕ} (h : Pending (k + 1) st) (x : ℕ) :
    Pending k (pushInt digPerDec1 x st) := by
  obtain ⟨hwords, hnil⟩ := h
  unfold Decimal.pushInt
  split_ifs with hstore
  · refine ⟨?_, fun hno => absurd hno (by simp)⟩
    rw [hwords, List.length_append, List.length_singleton]
    omega
  · have hempty : st.1 = [] := by
      by_contra hne
      exact hstore (Or.inl hne)
    have hm := hnil hempty
    rw [hempty, List.length_nil] at hwords
    refine ⟨?_, fun _ => ?_⟩
    · rw [hempty, hm]
      unfold roundUp digPerDec1
      simp only [List.length_nil]
      omega
    · rw [hm]
      unfold digPerDec1
      omega

theorem leadWord_pending {neg : Bool} {intg0 intg0x : ℕ} (hx : intg0x < 9) {bs : Bytes} {st : List ℕ × ℕ}
    (h : leadWord neg intg0x bs (intg0 * digPerDec1 + intg0x) = some st) : Pending intg0 st := by
  unfold leadWord at h
  split_ifs at h with h0
  · obtain rfl := Option.some.inj h
    subst h0
    refine ⟨?_, fun _ => ?_⟩
    · unfold roundUp digPerDec1
      simp only [List.length_nil]
      omega
    · unfold digPerDec1
      omega
  · dsimp only at h
    split_ifs at h
    obtain rfl := Option.some.inj h
    unfold pushInt
    split_ifs
    · refine ⟨?_, fun hno => absurd hno (by simp)⟩
      unfold roundUp digPerDec1
      simp only [List.nil_append, List.length_singleton]
      omega
    · refine ⟨?_, fun _ => ?_⟩
      · unfold roundUp digPerDec1
        simp only [List.length_nil]
        omega
      · unfold digPerDec1
        omega

theorem intLoop_pending {neg : Bool} {n : ℕ} {bs : Bytes} {st st' : List ℕ × ℕ} (hst : Pending n st)
    (h : intLoop neg n bs st = some st') : Pending 0 st' := by
  induction n generalizing bs st with
  | zero =>
    obtain rfl := Option.some.inj h
    exact hst
  | succ n ih =>
    rw [intLoop] at h
    split_ifs at h
    exact ih (hst.pushInt _) h

theorem length_fracLoop {neg : Bool} {n : ℕ} {bs : Bytes} {buf buf' : List ℕ}
    (h : fracLoop neg n bs buf = some buf') : buf'.length = buf.length + n := by
  induction n generalizing bs buf with
  | zero =>
    obtain rfl := Option.some.inj h
    rfl
  | succ n ih =>
    rw [fracLoop] at h
    split_ifs at h
    rw [ih h, List.length_append, List.length_singleton]
    omega

theorem length_tailWord {neg : Bool} {frac0x : ℕ} (hx : frac0x < 9) {bs : Bytes} {buf buf' : List ℕ}
    (h : tailWord neg frac0x bs buf = some buf') : buf'.length = buf.length + roundUp frac0x := by
  unfold tailWord at h
  split_ifs at h with h0
  · obtain rfl := Option.some.inj h
    subst h0
    rfl
  · dsimp only at h
    split_ifs at h
    obtain rfl := Option.some.inj h
    rw [List.length_append, List.length_singleton]
    unfold roundUp digPerDec1
    omega

theorem length_readWords {neg : Bool} {intg0 intg0x frac0 frac0x : ℕ} (hi : intg0x < 9) (hf : frac0x < 9)
    {bs : Bytes} {buf : List ℕ} {n : ℕ} (h : readWords neg intg0 intg0x frac0 frac0x bs = some (buf, n)) :
    buf.length = roundUp n + roundUp (frac0 * digPerDec1 + frac0x) := by
  unfold readWords at h
  obtain ⟨st, hlead, h⟩ := Option.bind_eq_some_iff.mp h
  obtain ⟨st', hint, h⟩ := Option.bind_eq_some_iff.mp h
  obtain ⟨fs, hfrac, h⟩ := Option.bind_eq_some_iff.mp h
  obtain ⟨all, htail, h⟩ := Option.bind_eq_some_iff.mp h
  obtain ⟨rfl, rfl⟩ := Prod.mk.inj (Option.some.inj h)
  have hwords := (intLoop_pending (leadWord_pending hi hlead) hint).1
  rw [length_tailWord hf htail, length_fracLoop hfrac, hwords]
  unfold roundUp digPerDec1
  omega

/-- **Whatever the bytes are**, the decimal read from them has the words its digits ask for. -/
theorem bin2decimal_shaped {p : Ptr} {precision scale : ℕ} {d : DecimalT}
    (h : bin2decimal p precision scale = .ok d) : Shaped d := by
  have hzero : Shaped decimalMakeZero := rfl
  have hwords {neg : Bool} {intg0 intg0x frac0 frac0x n : ℕ} {bs : Bytes} {buf : List ℕ}
      (hr : readWords neg intg0 intg0x frac0 frac0x bs = some (buf, n)) (hi : intg0x < 9) (hf : frac0x < 9) :
      Shaped ⟨neg, n, frac0 * digPerDec1 + frac0x, buf⟩ := length_readWords hi hf hr
  unfold bin2decimal at h
  split_ifs at h
  · cases h
  obtain ⟨bs, -, h⟩ := Res.bind_eq_ok.mp h
  cases bs with
  | nil => cases h
  | cons b rest =>
    have hmod : ∀ n, n % digPerDec1 < 9 := fun n => Nat.mod_lt n (by decide)
    dsimp only at h
    generalize (precision - scale) / digPerDec1 +
      (if 0 < (precision - scale) % digPerDec1 then 1 else 0) = intg1 at h
    generalize scale / digPerDec1 + (if 0 < scale % digPerDec1 then 1 else 0) = frac1 at h
    split_ifs at h
    all_goals
      obtain rfl := Except.ok.inj h
      split
      case h_1 => exact hzero
      case h_2 hr =>
        split_ifs
        · exact hzero
        · exact hwords hr (by first | exact hmod _ | omega) (by first | exact hmod _ | omega)

/-- Leading zero words are dropped as long as digits are counted. -/
theorem exists_skipZeroWords {r : ℕ} (buf : List ℕ) {intg i w : ℕ} (hi : i ≤ 9)
    (hintg : intg = 0 ∨ (0 < w ∧ intg ≤ i + 9 * (w - 1))) (hlen : w + r ≤ buf.length) :
    ∃ intg' buf', skipZeroWords intg i buf = .ok (intg', buf') ∧ roundUp intg' + r ≤ buf'.length := by
  induction buf generalizing intg i w with
  | nil =>
    rw [List.length_nil] at hlen
    obtain rfl : intg = 0 := by omega
    exact ⟨0, [], rfl, by unfold roundUp digPerDec1; simp only [List.length_nil]; omega⟩
  | cons x buf ih =>
    rw [List.length_cons] at hlen
    rw [skipZeroWords]
    split_ifs with h0 hx
    · exact ⟨0, x :: buf, rfl, by unfold roundUp digPerDec1; rw [List.length_cons]; omega⟩
    · exact ih (show digPerDec1 ≤ 9 from le_rfl) (w := w - 1) (by unfold digPerDec1; omega) (by omega)
    · exact ⟨intg, x :: buf, rfl, by unfold roundUp digPerDec1; rw [List.length_cons]; omega⟩

theorem exists_removeLeadingZeroes {d : DecimalT} (h : Shaped d) : ∃ intg buf,
    removeLeadingZeroes d = .ok (intg, buf) ∧ roundUp intg + roundUp d.frac ≤ buf.length := by
  have hfirst : (d.intg - 1) % digPerDec1 + 1 ≤ 9 := by unfold digPerDec1; omega
  have hintg : d.intg = 0 ∨ (0 < roundUp d.intg ∧
      d.intg ≤ (d.intg - 1) % digPerDec1 + 1 + 9 * (roundUp d.intg - 1)) := by
    unfold roundUp digPerDec1; omega
  obtain ⟨intg, buf, hskip, hlen⟩ := exists_skipZeroWords d.buf hfirst hintg h.ge
  unfold removeLeadingZeroes
  rw [hskip, Res.ok_bind]
  dsimp only
  split_ifs with h0
  · exact ⟨0, buf, rfl, h0 ▸ hlen⟩
  · cases buf with
    | nil =>
      unfold roundUp digPerDec1 at hlen
      rw [List.length_nil] at hlen
      omega
    | cons x buf =>
      refine ⟨_, x :: buf, rfl, (Nat.add_le_add_right (roundUp_mono ?_) _).trans hlen⟩
      omega

/-- A loop that takes up to nine digits from every word has words enough. -/
theorem exists_digits {f : ℕ → List ℕ → Res (List ℕ)} (hzero : ∀ words, f 0 words = .ok [])
    (hstep : ∀ n x words ds, f (n + 1 - digPerDec1) words = .ok ds → ∃ ds', f (n + 1) (x :: words) = .ok ds')
    (words : List ℕ) {n : ℕ} (h : roundUp n ≤ words.length) : ∃ ds, f n words = .ok ds := by
  induction words generalizing n with
  | nil =>
    obtain rfl : n = 0 := by
      unfold roundUp digPerDec1 at h
      rw [List.length_nil] at h
      omega
    exact ⟨[], hzero []⟩
  | cons x words ih =>
    cases n with
    | zero => exact ⟨[], hzero _⟩
    | succ n =>
      have hrest : roundUp (n + 1 - digPerDec1) ≤ words.length := by
        unfold roundUp digPerDec1 at h ⊢
        rw [List.length_cons] at h
        omega
      obtain ⟨ds, hds⟩ := ih hrest
      exact hstep n x words ds hds

theorem exists_intDigits (words : List ℕ) {intg : ℕ} (h : roundUp intg ≤ words.length) :
    ∃ ds, intDigits intg words = .ok ds :=
  exists_digits (fun words => by cases words <;> rfl)
    (fun n x words ds hds => by rw [intDigits, hds]; exact ⟨_, rfl⟩) words h

theorem exists_fracDigits (words : List ℕ) {frac : ℕ} (h : roundUp frac ≤ words.length) :
    ∃ ds, fracDigits frac words = .ok ds :=
  exists_digits (fun words => by cases words <;> rfl)
    (fun n x words ds hds => by rw [fracDigits, hds]; exact ⟨_, rfl⟩) words h

/-- **Printing stays inside the words**, also where the text is cut. -/
theorem exists_decimal2string {d : DecimalT} (h : Shaped d) : ∃ s, decimal2string d = .ok s := by
  obtain ⟨intg, buf, hremove, hlen⟩ := exists_removeLeadingZeroes h
  have hprint : ∀ intg' frac', ∀ buf' : List ℕ, roundUp intg' + roundUp frac' ≤ buf'.length →
      (∃ fs, fracDigits frac' (buf'.drop (roundUp intg')) = .ok fs) ∧
      ∃ is, intDigits intg' (buf'.take (roundUp intg')).reverse = .ok is := by
    intro intg' frac' buf' hfit
    refine ⟨exists_fracDigits _ ?_, exists_intDigits _ ?_⟩
    · rw [List.length_drop]
      omega
    · rw [List.length_reverse, List.length_take]
      omega
  unfold decimal2string
  rw [hremove, Res.ok_bind]
  dsimp only
  generalize hzero : (if intg + d.frac = 0 then (1, [0]) else (intg, buf)) = nonempty
  obtain ⟨intg1, buf1⟩ := nonempty
  have hfit1 : roundUp intg1 + roundUp d.frac ≤ buf1.length := by
    split_ifs at hzero with h0
    · obtain ⟨rfl, rfl⟩ := Prod.mk.inj hzero
      obtain hfrac : d.frac = 0 := by omega
      rw [hfrac]
      rfl
    · obtain ⟨rfl, rfl⟩ := Prod.mk.inj hzero
      exact hlen
  dsimp only
  generalize (if d.sign = true then 1 else 0) + (if intg1 = 0 then 1 else intg1) +
    (if d.frac = 0 then 0 else 1) + d.frac = len
  -- the digits that are cut, whatever their number
  generalize (if d.frac ≠ 0 ∧ d.frac + 1 ≤ len - (decimalMaxStrLength - 1) then
    len - (decimalMaxStrLength - 1) - 1 else len - (decimalMaxStrLength - 1)) = j
  generalize hcut : (if len ≤ decimalMaxStrLength - 1 then (intg1, d.frac)
    else if d.frac < j then (intg1 - (j - d.frac), 0) else (intg1, d.frac - j)) = rest
  obtain ⟨intg2, frac2⟩ := rest
  have hle : intg2 ≤ intg1 ∧ frac2 ≤ d.frac := by
    split_ifs at hcut <;> obtain ⟨rfl, rfl⟩ := Prod.mk.inj hcut <;> omega
  have hfit2 : roundUp intg2 + roundUp frac2 ≤ buf1.length :=
    (Nat.add_le_add (roundUp_mono hle.1) (roundUp_mono hle.2)).trans hfit1
  obtain ⟨⟨fs, hfs⟩, is, his⟩ := hprint intg2 frac2 buf1 hfit2
  dsimp only
  rw [hfs, Res.ok_bind, his]
  exact ⟨_, rfl⟩

/-! ### The columns both measure -/

/-- The columns on which the measures are compared: the metadata word, of sixteen bits, is one a server
writes. -/
def Measured (type : FieldType) (fmeta : ℕ) : Prop :=
  fmeta < 65536 ∧
  match type with
  | .tiny | .short | .int24 | .long | .longlong | .year | .newdate | .time | .time2 | .datetime
  | .datetime2 | .timestamp | .timestamp2 | .varchar => True
  | .float => fmeta = 4
  | .double => fmeta = 8
  | .newdecimal => fmeta &&& 0xff ≤ fmeta >>> 8
  | .bit => fmeta &&& 0xff ≤ 7
  | .enum => fmeta >>> 8 = 247 ∧ (fmeta &&& 0xff = 1 ∨ fmeta &&& 0xff = 2)
  | .set => fmeta >>> 8 = 248
  | .string => fmeta >>> 8 ∈ [0xfe, 0xee, 0xde, 0xce]
  | .blob => 1 ≤ fmeta ∧ fmeta ≤ 4
  | _ => False

/-- What is decoded can be printed: a DECIMAL has digits, a time has at most six fractional ones. -/
def Printable (type : FieldType) (fmeta : ℕ) : Prop :=
  match type with
  | .newdecimal => 0 < fmeta >>> 8
  | .time2 | .timestamp2 => fmeta ≤ 6
  | _ => True

theorem and_shiftLeft_eq (x a k : ℕ) : x &&& (a <<< k) = ((x >>> k) &&& a) <<< k := by
  refine Nat.eq_of_testBit_eq fun i => ?_
  rw [Nat.testBit_and, Nat.testBit_shiftLeft, Nat.testBit_shiftLeft, Nat.testBit_and, Nat.testBit_shiftRight]
  by_cases hi : k ≤ i
  · rw [Nat.add_sub_cancel' hi]
    simp [hi]
  · simp [hi]

/-- The declared length of a CHAR column, both ways. -/
theorem string_maxLength {fmeta : ℕ} (h : fmeta >>> 8 ∈ [0xfe, 0xee, 0xde, 0xce]) : ∃ length,
    resolveType 254 fmeta = (254, length) ∧ maxDisplayLengthForField .string fmeta = .ok length := by
  have hlow : fmeta &&& 0xff < 256 := by
    rw [show 0xff = 2 ^ 8 - 1 from rfl, Nat.and_two_pow_sub_one_eq_mod]
    exact Nat.mod_lt _ (by norm_num)
  have hlarge : 256 ≤ fmeta := by
    rw [Nat.shiftRight_eq_div_pow] at h
    simp only [List.mem_cons, List.not_mem_nil, or_false] at h
    omega
  have hmiddle : (fmeta >>> 4) &&& 0x300 = ((fmeta >>> 8) &&& 0x30) <<< 4 := by
    rw [show 0x300 = 0x30 <<< 4 from rfl, and_shiftLeft_eq, ← Nat.shiftRight_add]
  have hor : ∀ k, (fmeta &&& 0xff) ||| (k <<< 8) = k <<< 8 + (fmeta &&& 0xff) := fun k => by
    rw [Nat.or_comm, or_eq_add hlow, Nat.shiftLeft_eq]
  -- the real types with high bits of the length in them
  have hlong (k : ℕ) (hhigh : ((fmeta >>> 8) &&& 0x30) ^^^ 0x30 = k <<< 4)
      (hreal : (fmeta >>> 8) ||| 0x30 = 254) (hne : (fmeta >>> 8) &&& 0x30 ≠ 0x30)
      (hmax : (((fmeta >>> 8) &&& 0x30) <<< 4) ^^^ 0x300 = k <<< 8)
      (hno : ¬ ((fmeta >>> 8) % 256 = 248 ∨ (fmeta >>> 8) % 256 = 247)) : ∃ length,
      resolveType 254 fmeta = (254, length) ∧ maxDisplayLengthForField .string fmeta = .ok length := by
    refine ⟨k <<< 8 + (fmeta &&& 0xff), ?_, ?_⟩
    · rw [resolveType, if_pos rfl, if_pos hlarge]
      simp only [if_pos hne, hreal, hhigh, ← Nat.shiftLeft_add, hor]
    · simp only [maxDisplayLengthForField, if_neg hno, hmiddle, hmax]
  simp only [List.mem_cons, List.not_mem_nil, or_false] at h
  rcases h with h | h | h | h
  · refine ⟨fmeta &&& 0xff, ?_, ?_⟩
    · rw [resolveType, if_pos rfl, if_pos hlarge]
      simp [h]
    · simp [maxDisplayLengthForField, h, hmiddle]
  · exact hlong 1 (by rw [h]; rfl) (by rw [h]; rfl) (by rw [h]; decide) (by rw [h]; rfl) (by omega)
  · exact hlong 2 (by rw [h]; rfl) (by rw [h]; rfl) (by rw [h]; decide) (by rw [h]; rfl) (by omega)
  · exact hlong 3 (by rw [h]; rfl) (by rw [h]; rfl) (by rw [h]; decide) (by rw [h]; rfl) (by omega)

theorem parseRowDataToString_size {p : Ptr} {length n : ℕ} {s : Bytes}
    (h : parseRowDataToString p length = .ok (s, n)) : stringSize p length = .ok n := by
  unfold parseRowDataToString at h
  unfold stringSize
  split_ifs at h with hshort
  · obtain ⟨b, hb, h⟩ := Res.bind_eq_ok.mp h
    obtain ⟨bs, -, h⟩ := Res.bind_eq_ok.mp h
    obtain ⟨-, rfl⟩ := Prod.mk.inj (Except.ok.inj h)
    rw [if_neg (by omega), hb, Res.ok_bind, Res.pure_eq, Nat.add_comm]
  · obtain ⟨len, hlen, h⟩ := Res.bind_eq_ok.mp h
    obtain ⟨bs, -, h⟩ := Res.bind_eq_ok.mp h
    obtain ⟨-, rfl⟩ := Prod.mk.inj (Except.ok.inj h)
    rw [if_pos (by omega), hlen, Res.ok_bind, Res.pure_eq, Nat.add_comm]

theorem exists_parseRowDataToString {p : Ptr} {length n : ℕ} (h : stringSize p length = .ok n)
    (hn : n ≤ p.data.length) : ∃ r, parseRowDataToString p length = .ok r := by
  unfold stringSize at h
  unfold parseRowDataToString
  split_ifs at h with hlong
  · obtain ⟨len, hlen, h⟩ := Res.bind_eq_ok.mp h
    obtain rfl := Except.ok.inj h
    obtain ⟨bs, hbs⟩ := bytes_of_le (p := p) (k := 2) (n := len) hn
    rw [if_neg (by omega), hlen, Res.ok_bind, hbs]
    exact ⟨_, rfl⟩
  · obtain ⟨b, hb, h⟩ := Res.bind_eq_ok.mp h
    obtain rfl := Except.ok.inj h
    obtain ⟨bs, hbs⟩ := bytes_of_le (p := p) (k := 1) (n := b.toNat) hn
    rw [if_pos (by omega), hb, Res.ok_bind]
    dsimp only
    rw [hbs]
    exact ⟨_, rfl⟩

theorem decimalBinarySize_eq {precision scale : ℕ} (h : scale ≤ precision) :
    decimalBinarySize precision scale = .ok (decimalBinSize precision scale : ℤ) := by
  have hdiv : Int.tdiv ((precision : ℤ) - scale) 9 = ((precision - scale) / 9 : ℕ) := by
    rw [Int.tdiv_eq_ediv_of_nonneg (by omega)]
    omega
  have hrem : (precision : ℤ) - scale - ((precision - scale) / 9 : ℕ) * 9 =
      ((precision - scale) % 9 : ℕ) := by omega
  have hfrac : scale - scale / 9 * 9 = scale % 9 := by omega
  unfold decimalBinarySize decimalBinSize digPerDec1
  dsimp only
  rw [hdiv, hrem, if_neg (by omega), Int.toNat_natCast, hfrac]
  push_cast
  rfl

theorem dig2bytes_le (d : ℕ) : dig2bytes d ≤ 4 := by
  unfold dig2bytes
  by_cases hd : d < 10
  · interval_cases d <;> decide
  · rw [List.getD_eq_default _ _ (by simp; omega)]
    omega

theorem decimalBinSize_lt {precision scale : ℕ} (hp : precision < 256) (hs : scale < 256) :
    decimalBinSize precision scale < 2 ^ 32 := by
  have hi := dig2bytes_le ((precision - scale) % digPerDec1)
  have hf := dig2bytes_le (scale % digPerDec1)
  unfold decimalBinSize
  dsimp only
  generalize dig2bytes ((precision - scale) % digPerDec1) = lead at *
  generalize dig2bytes (scale % digPerDec1) = tail at *
  unfold digPerDec1
  omega

theorem calcFieldSize_newdecimal {p : Ptr} {fmeta : ℕ} (h16 : fmeta < 65536)
    (h : fmeta &&& 0xff ≤ fmeta >>> 8) :
    calcFieldSize .newdecimal p fmeta = .ok (decimalBinSize (fmeta >>> 8) (fmeta &&& 0xff)) := by
  have hhigh : fmeta >>> 8 = fmeta / 256 := Nat.shiftRight_eq_div_pow fmeta 8
  have hlt : decimalBinSize (fmeta >>> 8) (fmeta &&& 0xff) < 2 ^ 32 :=
    decimalBinSize_lt (by omega) (by omega)
  have hwrap : ofSigned 32 (decimalBinSize (fmeta >>> 8) (fmeta &&& 0xff) : ℤ) =
      decimalBinSize (fmeta >>> 8) (fmeta &&& 0xff) := by
    unfold ofSigned
    omega
  rw [calcFieldSize, decimalBinarySize_eq h, Res.ok_bind, hwrap]
  rfl

theorem calcFieldSize_string {p : Ptr} {fmeta : ℕ} (h : fmeta >>> 8 ∈ [0xfe, 0xee, 0xde, 0xce]) :
    calcFieldSize .string p fmeta = maxDisplayLengthForField .string fmeta >>= stringSize p := by
  have hno : ¬ ((fmeta >>> 8) % 256 = 248 ∨ (fmeta >>> 8) % 256 = 247) := by
    simp only [List.mem_cons, List.not_mem_nil, or_false] at h
    omega
  rw [calcFieldSize, if_neg hno]

/-- Of a BLOB the decoder reads nothing but the length. -/
theorem parseField_blob {p : Ptr} {m length : ℕ} (h1 : 1 ≤ m) (h4 : m ≤ 4) :
    parseField p .blob m length = (fun n => (none, n)) <$> calcFieldSize .blob p m := by
  -- a length and its own bytes stay below the 32 bits that `calc_field_size` keeps
  have hle (k : ℕ) (hk : 256 ^ k + k < 2 ^ 32) :
      (do return (none, (← p.le 0 k) + k) : Res (Option Value × ℕ)) =
        (fun n => (none, n)) <$> (do return ((← p.le 0 k) + k) % 2 ^ 32 : Res ℕ) := by
    cases hx : p.le 0 k with
    | error e => rfl
    | ok x =>
      have hlt := Ptr.le_lt hx
      simp only [Res.ok_bind, Res.pure_eq, Res.map_ok]
      rw [Nat.mod_eq_of_lt (by omega)]
  interval_cases m
  · simp only [parseField, calcFieldSize]
    cases hb : p.read 0 with
    | error e => rfl
    | ok b =>
      have hlt := b.toNat_lt
      simp only [Res.ok_bind, Res.pure_eq, Res.map_ok]
      rw [Nat.mod_eq_of_lt (by omega)]
  · exact hle 2 (by norm_num)
  · exact hle 3 (by norm_num)
  · simp only [parseField, calcFieldSize]
    cases hx : p.le 0 4 with
    | error e => rfl
    | ok x => rfl

/-- **What the decoder takes is what `calc_field_size` says.** -/
theorem parseField_calcFieldSize {p : Ptr} {type : FieldType} {fmeta length n : ℕ} {v : Option Value}
    (hcol : Measured type fmeta)
    (hlength : type = .string → maxDisplayLengthForField .string fmeta = .ok length)
    (h : parseField p type fmeta length = .ok (v, n)) : calcFieldSize type p fmeta = .ok n := by
  obtain ⟨h16, hcol⟩ := hcol
  have hlow : fmeta &&& 0xff = fmeta % 256 := Nat.and_two_pow_sub_one_eq_mod fmeta 8
  have hhigh : fmeta >>> 8 = fmeta / 256 := Nat.shiftRight_eq_div_pow fmeta 8
  cases type
  case tiny =>
    obtain ⟨-, rfl⟩ := Prod.mk.inj (Except.ok.inj h)
    rfl
  case short | int24 | long | longlong | year | newdate | time | datetime | timestamp =>
    obtain ⟨x, -, h⟩ := Res.bind_eq_ok.mp h
    obtain ⟨-, rfl⟩ := Prod.mk.inj (Except.ok.inj h)
    rfl
  case float | double =>
    obtain rfl := hcol
    obtain ⟨x, -, h⟩ := Res.bind_eq_ok.mp h
    obtain ⟨-, rfl⟩ := Prod.mk.inj (Except.ok.inj h)
    rfl
  case time2 | timestamp2 =>
    obtain ⟨x, -, h⟩ := Res.bind_eq_ok.mp h
    obtain ⟨u, -, h⟩ := Res.bind_eq_ok.mp h
    obtain ⟨-, rfl⟩ := Prod.mk.inj (Except.ok.inj h)
    rfl
  case datetime2 =>
    obtain ⟨x, -, h⟩ := Res.bind_eq_ok.mp h
    obtain ⟨-, rfl⟩ := Prod.mk.inj (Except.ok.inj h)
    rfl
  case newdecimal =>
    obtain ⟨d, -, h⟩ := Res.bind_eq_ok.mp h
    obtain ⟨s, -, h⟩ := Res.bind_eq_ok.mp h
    obtain ⟨-, rfl⟩ := Prod.mk.inj (Except.ok.inj h)
    exact calcFieldSize_newdecimal h16 hcol
  case bit =>
    have hlow7 : fmeta &&& 0xff ≤ 7 := hcol
    obtain ⟨-, rfl⟩ := Prod.mk.inj (Except.ok.inj h)
    have hbyte : (fmeta >>> 8) &&& 0xff = fmeta >>> 8 := by
      rw [show 0xff = 2 ^ 8 - 1 from rfl, Nat.and_two_pow_sub_one_eq_mod, Nat.mod_eq_of_lt (by omega)]
    rw [calcFieldSize, Res.pure_eq]
    rw [hbyte]
    congr 1
    split_ifs <;> omega
  case enum =>
    obtain ⟨h247, h12⟩ := hcol
    have hsize : calcFieldSize .enum p fmeta = .ok (fmeta &&& 0xff) := by
      rw [calcFieldSize, h247]
      rfl
    simp only [parseField] at h
    rcases h12 with h12 | h12
    all_goals
      rw [h12] at h hsize
      obtain ⟨x, -, h⟩ := Res.bind_eq_ok.mp h
      obtain ⟨-, rfl⟩ := Prod.mk.inj (Except.ok.inj h)
      exact hsize
  case set =>
    obtain ⟨-, rfl⟩ := Prod.mk.inj (Except.ok.inj h)
    rw [calcFieldSize, show fmeta >>> 8 = 248 from hcol]
    rfl
  case varchar =>
    obtain ⟨⟨s, m⟩, hs, h⟩ := Res.bind_eq_ok.mp h
    obtain ⟨-, rfl⟩ := Prod.mk.inj (Except.ok.inj h)
    exact parseRowDataToString_size hs
  case string =>
    obtain ⟨⟨s, m⟩, hs, h⟩ := Res.bind_eq_ok.mp h
    obtain ⟨-, rfl⟩ := Prod.mk.inj (Except.ok.inj h)
    rw [calcFieldSize_string hcol, hlength rfl, Res.ok_bind]
    exact parseRowDataToString_size hs
  case blob =>
    rw [parseField_blob hcol.1 hcol.2] at h
    obtain ⟨m, hm, hr⟩ := Res.map_eq_ok.mp h
    obtain ⟨-, rfl⟩ := Prod.mk.inj hr
    exact hm
  all_goals exact absurd hcol id

theorem decimalBinSize_pos {precision scale : ℕ} (hpos : 0 < precision) (hs : scale ≤ precision) :
    0 < decimalBinSize precision scale := by
  have hdig : ∀ d < 9, 0 < d → 0 < dig2bytes d := by decide
  have hi := hdig ((precision - scale) % digPerDec1) (Nat.mod_lt _ (by decide))
  have hf := hdig (scale % digPerDec1) (Nat.mod_lt _ (by decide))
  unfold decimalBinSize
  dsimp only
  generalize dig2bytes ((precision - scale) % digPerDec1) = lead at *
  generalize dig2bytes (scale % digPerDec1) = tail at *
  unfold digPerDec1 at *
  omega

theorem exists_bin2decimal {p : Ptr} {precision scale : ℕ} (hpos : 0 < precision)
    (hs : scale ≤ precision) (hlen : decimalBinSize precision scale ≤ p.data.length) :
    ∃ d, bin2decimal p precision scale = .ok d := by
  obtain ⟨bs, hbs⟩ := bytes_of_le (p := p) (k := 0) (n := decimalBinSize precision scale) (by omega)
  have hpos' := decimalBinSize_pos hpos hs
  unfold bin2decimal
  rw [if_neg (by omega)]
  dsimp only
  rw [hbs, Res.ok_bind]
  cases bs with
  | nil =>
    have hnil := Ptr.bytes_eq_take hbs
    have hzero := congrArg List.length hnil
    rw [List.length_nil, List.length_take, List.length_drop] at hzero
    omega
  | cons b rest =>
    dsimp only
    split_ifs <;> exact ⟨_, rfl⟩

/-- **A field that is there is decoded.** -/
theorem exists_parseField {p : Ptr} {type : FieldType} {fmeta length n : ℕ} (hcol : Measured type fmeta)
    (hprint : Printable type fmeta)
    (hlength : type = .string → maxDisplayLengthForField .string fmeta = .ok length)
    (h : calcFieldSize type p fmeta = .ok n) (hn : n ≤ p.data.length) :
    ∃ v, parseField p type fmeta length = .ok (v, n) := by
  suffices hdefined : ∃ r, parseField p type fmeta length = .ok r by
    obtain ⟨⟨v, m⟩, hr⟩ := hdefined
    obtain rfl := Except.ok.inj ((parseField_calcFieldSize hcol hlength hr).symm.trans h)
    exact ⟨v, hr⟩
  obtain ⟨h16, hcol⟩ := hcol
  cases type
  case tiny | bit | set => exact ⟨_, rfl⟩
  case year =>
    obtain rfl : 1 = n := Except.ok.inj h
    exact Res.exists_bind (read_of_lt (by omega)) fun _ => ⟨_, rfl⟩
  case short =>
    obtain rfl : 2 = n := Except.ok.inj h
    exact Res.exists_bind (le_of_le (by omega)) fun _ => ⟨_, rfl⟩
  case int24 =>
    obtain rfl : 3 = n := Except.ok.inj h
    rw [parseField_int24]
    exact Res.exists_bind (le_of_le (by omega)) fun _ => ⟨_, rfl⟩
  case newdate | time =>
    obtain rfl : 3 = n := Except.ok.inj h
    exact Res.exists_bind (le_of_le (by omega)) fun _ => ⟨_, rfl⟩
  case long | timestamp =>
    obtain rfl : 4 = n := Except.ok.inj h
    exact Res.exists_bind (le_of_le (by omega)) fun _ => ⟨_, rfl⟩
  case longlong | datetime =>
    obtain rfl : 8 = n := Except.ok.inj h
    exact Res.exists_bind (le_of_le (by omega)) fun _ => ⟨_, rfl⟩
  case float | double =>
    obtain rfl := hcol
    obtain rfl := Except.ok.inj h
    exact Res.exists_bind (le_of_le (by omega)) fun _ => ⟨_, rfl⟩
  case datetime2 =>
    obtain rfl := Except.ok.inj h
    exact Res.exists_bind (myDatetimePackedFromBinary_of_le hn) fun _ => ⟨_, rfl⟩
  case time2 =>
    obtain rfl := Except.ok.inj h
    have hdec : checkDecimals fmeta = .ok () := if_pos hprint
    exact Res.exists_bind (myTimePackedFromBinary_of_le hn) fun _ => ⟨_, by rw [hdec]; rfl⟩
  case timestamp2 =>
    obtain rfl := Except.ok.inj h
    have hdec : checkDecimals fmeta = .ok () := if_pos hprint
    exact Res.exists_bind (myTimestampFromBinary_of_le hn) fun _ => ⟨_, by rw [hdec]; rfl⟩
  case newdecimal =>
    obtain rfl := Except.ok.inj ((calcFieldSize_newdecimal h16 hcol).symm.trans h)
    obtain ⟨d, hd⟩ := exists_bin2decimal hprint hcol hn
    obtain ⟨s, hs⟩ := exists_decimal2string (bin2decimal_shaped hd)
    exact ⟨_, by simp only [parseField, hd, hs, Res.ok_bind]; rfl⟩
  case enum =>
    obtain ⟨h247, h12⟩ := hcol
    rw [calcFieldSize, h247] at h
    obtain rfl : fmeta &&& 0xff = n := Except.ok.inj h
    simp only [parseField]
    rcases h12 with h1 | h2
    · rw [h1] at hn ⊢
      exact Res.exists_bind (read_of_lt (by omega)) fun _ => ⟨_, rfl⟩
    · rw [h2] at hn ⊢
      exact Res.exists_bind (le_of_le (by omega)) fun _ => ⟨_, rfl⟩
  case varchar => exact Res.exists_bind (exists_parseRowDataToString h hn) fun _ => ⟨_, rfl⟩
  case string =>
    rw [calcFieldSize_string hcol, hlength rfl, Res.ok_bind] at h
    exact Res.exists_bind (exists_parseRowDataToString h hn) fun _ => ⟨_, rfl⟩
  case blob =>
    rw [parseField_blob hcol.1 hcol.2, h]
    exact ⟨_, rfl⟩
  all_goals exact absurd hcol id

/-! ### One column -/

theorem eq_of_ofCode_string {type : ℕ} (h : FieldType.ofCode type = .string) : type = 254 := by
  unfold FieldType.ofCode at h
  split at h <;> first | rfl | cases h

/-- The type of such a column stands for itself, and CHAR columns have their declared length. -/
theorem resolveType_measured {type fmeta : ℕ} (h : Measured (FieldType.ofCode type) fmeta) : ∃ length,
    resolveType type fmeta = (type, length) ∧ (FieldType.ofCode type = .string →
      maxDisplayLengthForField .string fmeta = .ok length) := by
  by_cases hstring : type = 254
  · subst hstring
    obtain ⟨length, hres, hmax⟩ := string_maxLength h.2
    exact ⟨length, hres, fun _ => hmax⟩
  · exact ⟨0, if_neg hstring, fun hcode => absurd (eq_of_ofCode_string hcode) hstring⟩

/-- **The two measures agree**: what `parseOneRowData` takes for a value is what `calc_field_size` says of
the same column and data, and it takes a value whenever that many bytes are there. -/
theorem parseOneRowData_calcFieldSize {td : CTableDef} {i type fmeta : ℕ} (htype : td.type i = .ok type)
    (hmeta : td.fieldMetadata[i]? = some fmeta) (hcol : Measured (FieldType.ofCode type) fmeta)
    (rowValues : List RowValue) (p : Ptr) :
    (∀ rowValues' n, parseOneRowData rowValues (some p) type fmeta = .ok (rowValues', n) →
      CTableDef.calcFieldSize td i p = .ok n) ∧
    ∀ n, CTableDef.calcFieldSize td i p = .ok n → n ≤ p.data.length →
      Printable (FieldType.ofCode type) fmeta →
      ∃ rowValues', parseOneRowData rowValues (some p) type fmeta = .ok (rowValues', n) := by
  obtain ⟨length, hres, hlength⟩ := resolveType_measured hcol
  have hsize : CTableDef.calcFieldSize td i p = calcFieldSize (FieldType.ofCode type) p fmeta := by
    rw [CTableDef.calcFieldSize, htype, Res.ok_bind, hmeta, Res.ofOption_some, Res.ok_bind]
  rw [hsize, parseOneRowData_some hres]
  constructor
  · intro rowValues' n h
    obtain ⟨⟨v, m⟩, hv, hr⟩ := Res.map_eq_ok.mp h
    obtain ⟨-, rfl⟩ := Prod.mk.inj hr
    exact parseField_calcFieldSize hcol hlength hv
  · intro n h hn hprint
    obtain ⟨v, hv⟩ := exists_parseField hcol hprint hlength h hn
    exact ⟨_, by rw [hv]; rfl⟩

/-- The definition of a table with a DECIMAL(10, 2) and a CHAR(90) column of three-byte characters. -/
def priceTable : CTableDef := ⟨[246, 254], some 4, [0x0a02, 0xee0e]⟩

/-- Both columns, behind each other, are measured alike. -/
theorem priceTable_measured :
    (∀ p, ∀ rowValues' n, parseOneRowData [] (some p) 246 0x0a02 = .ok (rowValues', n) →
      CTableDef.calcFieldSize priceTable 0 p = .ok n) ∧
    ∃ rowValues', parseOneRowData [] (some ⟨0, [2, 0, 97, 98, 7]⟩) 254 0xee0e = .ok (rowValues', 4) := by
  have hprice : Measured (FieldType.ofCode 246) 0x0a02 :=
    ⟨by decide, show 0x0a02 &&& 0xff ≤ 0x0a02 >>> 8 by decide⟩
  have hname : Measured (FieldType.ofCode 254) 0xee0e :=
    ⟨by decide, show 0xee0e >>> 8 ∈ [0xfe, 0xee, 0xde, 0xce] by decide⟩
  have htype0 : priceTable.type 0 = .ok 246 := rfl
  have htype1 : priceTable.type 1 = .ok 254 := rfl
  refine ⟨fun p => (parseOneRowData_calcFieldSize htype0 rfl hprice [] p).1, ?_⟩
  exact (parseOneRowData_calcFieldSize htype1 rfl hname [] _).2 4 (by decide) (by decide) trivial

/-! ### JSON and GEOMETRY -/

/-- A JSON or GEOMETRY column has the length of its length for metadata. -/
structure DocumentColumn (type m : ℕ) : Prop where
  document : FieldType.ofCode type = .json ∨ FieldType.ofCode type = .geometry
  pos : 1 ≤ m
  le : m ≤ 4

theorem calcFieldSize_document {type m : ℕ} (hcol : DocumentColumn type m) {p : Ptr} {doc rest : Bytes}
    (hp : p.data = leBytes m doc.length ++ doc ++ rest) (hdoc : doc.length < 256 ^ m) :
    calcFieldSize (FieldType.ofCode type) p m = .ok ((doc.length + m) % 2 ^ 32) := by
  rw [List.append_assoc] at hp
  have hle : p.le 0 m = .ok doc.length := by rw [Ptr.le_head hp (by simp), leNat_leBytes_of_lt hdoc]
  have hone : m = 1 → UInt8.toNat <$> p.read 0 = .ok doc.length := by
    rintro rfl
    have hread : p.read 0 = .ok (UInt8.ofNat doc.length) := Ptr.read_at (x := []) hp rfl
    rw [hread, Res.map_ok, UInt8.toNat_ofNat', Nat.mod_eq_of_lt (by omega)]
  obtain ⟨htype, h1, h4⟩ := hcol
  rcases htype with htype | htype
  all_goals
    rw [htype]
    simp only [calcFieldSize]
    interval_cases m
    · rw [hone rfl]
      rfl
    all_goals
      rw [hle]
      rfl

/-- The decoder takes the first two bytes of a JSON field for the length of the document. -/
theorem parseOneRowData_json {type m : ℕ} (htype : FieldType.ofCode type = .json)
    (rowValues : List RowValue) (p : Ptr) (n : ℕ) :
    (∃ rowValues', parseOneRowData rowValues (some p) type m = .ok (rowValues', n)) ↔
      ∃ x bs, p.le 0 2 = .ok x ∧ p.bytes m x = .ok bs ∧ n = x + m := by
  have hres : resolveType type m = (type, 0) := if_neg fun h => by rw [h] at htype; cases htype
  rw [parseOneRowData_some hres, htype]
  constructor
  · rintro ⟨rowValues', h⟩
    obtain ⟨⟨v, k⟩, hv, hr⟩ := Res.map_eq_ok.mp h
    obtain ⟨-, rfl⟩ := Prod.mk.inj hr
    obtain ⟨x, hx, hv⟩ := Res.bind_eq_ok.mp hv
    obtain ⟨bs, hbs, hv⟩ := Res.bind_eq_ok.mp hv
    obtain ⟨-, rfl⟩ := Prod.mk.inj (Except.ok.inj hv)
    exact ⟨x, bs, hx, hbs, rfl⟩
  · rintro ⟨x, bs, hx, hbs, rfl⟩
    exact ⟨_, by simp only [parseField, hx, hbs, Res.ok_bind, Res.pure_eq]; rfl⟩

/-- A GEOMETRY field is taken for an empty one. -/
theorem parseOneRowData_geometry {type m : ℕ} (htype : FieldType.ofCode type = .geometry)
    (rowValues : List RowValue) (p : Ptr) :
    parseOneRowData rowValues (some p) type m = .ok (rowValues, 0) := by
  have hres : resolveType type m = (type, 0) := if_neg fun h => by rw [h] at htype; cases htype
  rw [parseOneRowData_some hres, htype]
  simp [parseField, Except.map]

/-- The first two bytes of a document's field, where the length has at least two. -/
theorem le_two_document {m : ℕ} (hm : 2 ≤ m) {p : Ptr} {doc rest : Bytes}
    (hp : p.data = leBytes m doc.length ++ doc ++ rest) : p.le 0 2 = .ok (doc.length % 65536) := by
  obtain ⟨w, rfl⟩ : ∃ w, m = 2 + w := ⟨m - 2, by omega⟩
  rw [leBytes_add, List.append_assoc, List.append_assoc] at hp
  rw [Ptr.le_head hp (by simp), leNat_leBytes]
  rfl

/-- The first two bytes of a document's field, where the length has one: the second is the first byte
behind the length. -/
theorem le_two_short {p : Ptr} {doc rest : Bytes} (hp : p.data = leBytes 1 doc.length ++ doc ++ rest)
    (hdoc : doc.length < 256) (x : ℕ) : p.le 0 2 = .ok x ↔
      ∃ b, (doc ++ rest).head? = some b ∧ x = doc.length + 256 * b.toNat := by
  have hlen : (UInt8.ofNat doc.length).toNat = doc.length := by
    rw [UInt8.toNat_ofNat', Nat.mod_eq_of_lt hdoc]
  have hdata : p.data = UInt8.ofNat doc.length :: (doc ++ rest) := by simpa [leBytes] using hp
  cases hbehind : doc ++ rest with
  | nil =>
    have hfault : p.le 0 2 = .error .fault := by
      rw [hbehind] at hdata
      simp only [Ptr.le, Ptr.bytes, hdata]
      rfl
    rw [hfault]
    simp
  | cons b tail =>
    rw [hbehind] at hdata
    have hread : p.le 0 2 = .ok (doc.length + 256 * b.toNat) := by
      have hfront : p.data = [UInt8.ofNat doc.length, b] ++ tail := hdata
      rw [Ptr.le_head hfront (show 2 = _ from rfl)]
      simp [leNat, hlen]
    rw [hread, Except.ok.injEq, List.head?_cons]
    simp [eq_comm]

/-- A JSON document, and its length can be told from the first two bytes of its field. -/
def ReadsLength (type m : ℕ) (doc rest : Bytes) : Prop :=
  FieldType.ofCode type = .json ∧
    (m = 2 ∨ (m = 1 ∧ (doc ++ rest).head? = some 0) ∨ (3 ≤ m ∧ doc.length < 65536))

/-- **JSON and GEOMETRY columns are measured right exactly if** it is a JSON column and the first two bytes
of the field spell the document's length. -/
theorem documentField_iff {type m : ℕ} (hcol : DocumentColumn type m) (rowValues : List RowValue) {p : Ptr}
    {doc rest : Bytes} (hp : p.data = leBytes m doc.length ++ doc ++ rest) (hdoc : doc.length < 256 ^ m) :
    ((∃ rowValues', parseOneRowData rowValues (some p) type m = .ok (rowValues', m + doc.length)) ∧
      calcFieldSize (FieldType.ofCode type) p m = .ok (m + doc.length)) ↔ ReadsLength type m doc rest := by
  have hbody : p.bytes m doc.length = .ok doc := Ptr.bytes_at hp (by simp) rfl
  have hsize := calcFieldSize_document hcol hp hdoc
  obtain ⟨htype, h1, h4⟩ := hcol
  rcases htype with htype | htype
  · rw [parseOneRowData_json htype, hsize]
    constructor
    · rintro ⟨⟨x, bs, hx, -, hn⟩, -⟩
      obtain rfl : x = doc.length := by omega
      refine ⟨htype, ?_⟩
      by_cases hone : m = 1
      · subst hone
        obtain ⟨b, hb, hzero⟩ := (le_two_short hp (by omega) _).mp hx
        obtain rfl : b = 0 := UInt8.toNat_inj.mp (by simp only [UInt8.toNat_zero]; omega)
        exact Or.inr (Or.inl ⟨rfl, hb⟩)
      · have hlow := Except.ok.inj ((le_two_document (by omega) hp).symm.trans hx)
        omega
    · rintro ⟨-, hlength⟩
      have hlt : doc.length < 65536 := by
        rcases hlength with rfl | ⟨rfl, -⟩ | ⟨-, h⟩ <;> omega
      refine ⟨⟨doc.length, doc, ?_, hbody, by omega⟩, ?_⟩
      · rcases hlength with rfl | ⟨rfl, hzero⟩ | ⟨h3, -⟩
        · rw [le_two_document le_rfl hp, Nat.mod_eq_of_lt hlt]
        · exact (le_two_short hp (by omega) _).mpr ⟨0, hzero, by simp⟩
        · rw [le_two_document (by omega) hp, Nat.mod_eq_of_lt hlt]
      · rw [Nat.mod_eq_of_lt (by omega), Nat.add_comm]
  · refine iff_of_false (fun h => ?_) fun h => ?_
    · obtain ⟨⟨rowValues', hrun⟩, -⟩ := h
      rw [parseOneRowData_geometry htype] at hrun
      have hzero := (Prod.mk.inj (Except.ok.inj hrun)).2
      omega
    · rw [h.1] at htype
      cases htype

/-- A JSON document of two bytes behind a length of four. -/
theorem shortJson_measured :
    (∃ rowValues', parseOneRowData [] (some ⟨0, [2, 0, 0, 0, 52, 50, 7]⟩) 245 4 = .ok (rowValues', 6)) ∧
      calcFieldSize (FieldType.ofCode 245) ⟨0, [2, 0, 0, 0, 52, 50, 7]⟩ 4 = .ok 6 := by
  have hcol : DocumentColumn 245 4 := ⟨Or.inl rfl, by norm_num, le_rfl⟩
  have hp : (Ptr.mk 0 [2, 0, 0, 0, 52, 50, 7]).data =
      leBytes 4 ([52, 50] : Bytes).length ++ [52, 50] ++ [7] := rfl
  exact (documentField_iff hcol [] hp (by norm_num)).mpr
    ⟨rfl, Or.inr (Or.inr ⟨by norm_num, by norm_num⟩)⟩

/-- A GEOMETRY field of one byte behind a length of four is not stepped over. -/
theorem geometry_notMeasured : ¬ ∀ (type m : ℕ) (rowValues : List RowValue) (p : Ptr) (doc rest : Bytes),
    DocumentColumn type m → p.data = leBytes m doc.length ++ doc ++ rest → doc.length < 256 ^ m →
    (∃ rowValues', parseOneRowData rowValues (some p) type m = .ok (rowValues', m + doc.length)) ∧
      calcFieldSize (FieldType.ofCode type) p m = .ok (m + doc.length) := by
  intro h
  obtain ⟨⟨rowValues', hrun⟩, -⟩ := h 255 4 [] ⟨0, [1, 0, 0, 0, 9]⟩ [9] []
    ⟨Or.inr rfl, by norm_num, le_rfl⟩ rfl (by norm_num)
  rw [parseOneRowData_geometry rfl] at hrun
  exact absurd (Prod.mk.inj (Except.ok.inj hrun)).2 (by norm_num)

end DataSync.Binlog.FieldSize
