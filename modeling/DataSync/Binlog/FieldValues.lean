import DataSync.Binlog.RoundTrip

/-! # The value of one field

What `parseOneRowData` makes of a field wherever it lies and whatever follows it, column type by column
type, against MySQL's row format.

Integers of two bytes and more, DECIMAL and DATETIME2 columns come back as they were written
(`intField_iff`, `decimalField`, `datetimeField`). A TINY column yields the address of its byte. A VARCHAR
passes through a C string (`varcharField_iff`), and of a TIME2 value the sign is dropped
(`timeField_ne_iff`). -/

namespace DataSync.Binlog.FieldValues

open DataSync.Lib.Words DataSync.Lib.Memory DataSync.Binlog.Format DataSync.Binlog.Decimal
open DataSync.Binlog.DecimalText DataSync.Binlog.MyTime DataSync.Binlog.Field DataSync.Binlog.FieldFormat
open DataSync.Binlog.RowImage DataSync.Binlog.RoundTrip

/-- A value that is read back is so behind other values and before other bytes. -/
theorem parseOneRowData_datum_at {type fmeta : ℕ} {d : Datum} (h : d.Fits (FieldType.ofCode type) fmeta)
    (rowValues : List RowValue) (a : ℕ) (rest : Bytes) :
    parseOneRowData rowValues (some ⟨a, d.bytes (FieldType.ofCode type) fmeta ++ rest⟩) type fmeta =
      .ok (rowValues ++ [⟨type, d.read⟩], (d.bytes (FieldType.ofCode type) fmeta).length) := by
  have hall := parseOneRowData_le (Ptr.extends_append a _ rest) [] type fmeta _ (parseOneRowData_datum h a)
  rw [parseOneRowData_append, hall, Res.map_ok]

/-! ### Integers -/

/-- The integer columns. -/
inductive IntColumn where
  | tiny | short | int24 | long | longlong
  deriving DecidableEq, Repr

namespace IntColumn

/-- The type code of the column. -/
def code : IntColumn → ℕ
  | tiny => 1
  | short => 2
  | int24 => 9
  | long => 3
  | longlong => 8

/-- The bytes of the column. -/
def width : IntColumn → ℕ
  | tiny => 1
  | short => 2
  | int24 => 3
  | long => 4
  | longlong => 8

/-- The number is in the range of the column. -/
def InRange (c : IntColumn) (v : ℤ) : Prop := -2 ^ (8 * c.width - 1) ≤ v ∧ v < 2 ^ (8 * c.width - 1)

/-- The number as the column stores it. -/
def bytes (c : IntColumn) (v : ℤ) : Bytes := leBytes c.width (ofSigned (8 * c.width) v)

end IntColumn

/-- The column yields the number, wherever its bytes lie. -/
def YieldsNumber (c : IntColumn) (v : ℤ) (rest : Bytes) : Prop :=
  ∀ (rowValues : List RowValue) (a fmeta : ℕ),
    parseOneRowData rowValues (some ⟨a, c.bytes v ++ rest⟩) c.code fmeta =
      .ok (rowValues ++ [⟨c.code, .longlong v⟩], c.width)

/-- A TINY field yields its address. -/
theorem parseOneRowData_tiny (rowValues : List RowValue) (p : Ptr) (fmeta : ℕ) :
    parseOneRowData rowValues (some p) IntColumn.tiny.code fmeta =
      .ok (rowValues ++ [⟨1, .longlong (toSigned 32 p.addr)⟩], 1) := rfl

/-- **Integer columns decode to their value exactly if** they are not TINY. -/
theorem intField_iff {c : IntColumn} {v : ℤ} (hv : c.InRange v) (rest : Bytes) :
    YieldsNumber c v rest ↔ c ≠ .tiny := by
  constructor
  · rintro h rfl
    -- at another address it is another number
    have h1 := h [] 1 0
    have h2 := h [] 2 0
    rw [parseOneRowData_tiny] at h1 h2
    have hsame := (Prod.mk.inj (Except.ok.inj (h1.trans h2.symm))).1
    have haddr : toSigned 32 1 = toSigned 32 2 := by simpa using hsame
    exact absurd haddr (by decide)
  · intro hc rowValues a fmeta
    have hfits : Datum.Fits (FieldType.ofCode c.code) fmeta (.int v) := by
      obtain ⟨hlo, hhi⟩ := hv
      cases c
      case tiny => exact absurd rfl hc
      all_goals
        simp only [IntColumn.width] at hlo hhi
        refine ⟨by decide, ?_, ?_⟩ <;> simp only [IntColumn.code, FieldType.ofCode, intWidth] <;> omega
    have hbytes : Datum.bytes (FieldType.ofCode c.code) fmeta (.int v) = c.bytes v := by
      cases c
      case tiny => exact absurd rfl hc
      all_goals rfl
    have hlen : (c.bytes v).length = c.width := length_leBytes ..
    have hread := parseOneRowData_datum_at hfits rowValues a rest
    rw [hbytes, hlen] at hread
    exact hread

/-- An INT24 column keeps −2. -/
theorem int24Field_minusTwo : YieldsNumber .int24 (-2) [7] :=
  (intField_iff (by unfold IntColumn.InRange; decide) [7]).mpr (by decide)

/-- A TINY column does not keep 5. -/
theorem tinyField_five : ¬ ∀ (c : IntColumn) (v : ℤ) (rest : Bytes), c.InRange v → YieldsNumber c v rest := by
  intro h
  have hfive := h .tiny 5 [] (by unfold IntColumn.InRange; decide) [] 4096 0
  rw [parseOneRowData_tiny] at hfive
  exact absurd hfive (by decide)

/-! ### Strings -/

/-- The bytes of the length in front of a string. -/
def prefixLen (maxLength : ℕ) : ℕ := if maxLength < 256 then 1 else 2

/-- What a VARCHAR field yields: the string up to its first NUL. -/
theorem parseOneRowData_varchar {maxLength : ℕ} (hmax : maxLength < 65536) {s : Bytes}
    (hs : s.length ≤ maxLength) (rowValues : List RowValue) (a : ℕ) (rest : Bytes) :
    parseOneRowData rowValues (some ⟨a, leBytes (prefixLen maxLength) s.length ++ s ++ rest⟩) 15 maxLength =
      .ok (rowValues ++ [⟨15, .char (cStr s)⟩], prefixLen maxLength + s.length) := by
  have hfit : s.length < if maxLength < 256 then 256 else 65536 := by split_ifs <;> omega
  have hstr := parseRowDataToString_at
    (show (Ptr.mk a (leBytes (prefixLen maxLength) s.length ++ s ++ rest)).data = _ from rfl) hfit
  rw [parseOneRowData_some (show resolveType 15 maxLength = (15, 0) from rfl)]
  simp only [FieldType.ofCode, parseField, hstr, Res.ok_bind, Res.pure_eq, Except.map, Option.map_some,
    Option.toList_some, RowValue.copy, cStr_cStr]
  rfl

/-- **VARCHAR content survives decoding exactly if** there is no NUL in it. -/
theorem varcharField_iff {maxLength : ℕ} (hmax : maxLength < 65536) {s : Bytes} (hs : s.length ≤ maxLength)
    (rowValues : List RowValue) (a : ℕ) (rest : Bytes) :
    parseOneRowData rowValues (some ⟨a, leBytes (prefixLen maxLength) s.length ++ s ++ rest⟩) 15 maxLength =
      .ok (rowValues ++ [⟨15, .char s⟩], prefixLen maxLength + s.length) ↔ 0 ∉ s := by
  rw [parseOneRowData_varchar hmax hs, ← @cStr_eq_self_iff s]
  simp

theorem varcharField_ab : parseOneRowData [] (some ⟨0, [2, 97, 98, 7]⟩) 15 20 =
    .ok ([⟨15, .char [97, 98]⟩], 3) :=
  (varcharField_iff (show 20 < 65536 by norm_num) (show [97, 98].length ≤ 20 by norm_num) [] 0 [7]).mpr
    (by decide)

/-- Of `a\0b` the first byte is left. -/
theorem varcharField_nul : ¬ ∀ (maxLength : ℕ) (s : Bytes) (rowValues : List RowValue) (a : ℕ)
    (rest : Bytes), maxLength < 65536 → s.length ≤ maxLength →
    parseOneRowData rowValues (some ⟨a, leBytes (prefixLen maxLength) s.length ++ s ++ rest⟩) 15 maxLength =
      .ok (rowValues ++ [⟨15, .char s⟩], prefixLen maxLength + s.length) := by
  intro h
  have hcut := h 20 [97, 0, 98] [] 0 [] (by norm_num) (by norm_num)
  exact absurd hcut (by decide)

/-! ### DECIMAL and DATETIME2 -/

/-- **DECIMAL columns decode to the exact number.** -/
theorem decimalField {precision scale : ℕ} (hpos : 1 ≤ precision) (hp : precision ≤ 65)
    (hs : scale ≤ precision) (v : DecimalValue precision scale) (rowValues : List RowValue) (a : ℕ)
    (rest : Bytes) :
    parseOneRowData rowValues (some ⟨a, v.bytes ++ rest⟩) 246 (precision * 256 + scale) =
      .ok (rowValues ++ [⟨246, .char v.text⟩], decimalBinSize precision scale) := by
  have hhigh : (precision * 256 + scale) >>> 8 = precision := by
    rw [Nat.shiftRight_eq_div_pow]
    omega
  have hlow : (precision * 256 + scale) &&& 0xff = scale := by
    rw [show 0xff = 2 ^ 8 - 1 from rfl, Nat.and_two_pow_sub_one_eq_mod]
    omega
  have hfits : Datum.Fits (FieldType.ofCode 246) (precision * 256 + scale)
      (.newdecimal precision scale v) := ⟨rfl, hhigh, hlow, hpos, hp, hs⟩
  have hread := parseOneRowData_datum_at hfits rowValues a rest
  rw [Datum.bytes, v.length_bytes] at hread
  exact hread

/-- −12.50 in a DECIMAL(4, 2) column. -/
theorem decimalField_amount : amount.bytes = [0x73, 0xcd] ∧
    parseOneRowData [] (some ⟨0, amount.bytes ++ [7]⟩) 246 1026 =
      .ok ([⟨246, .char [45, 49, 50, 46, 53, 48]⟩], 2) :=
  ⟨by decide, decimalField (by norm_num) (by norm_num) (by norm_num) amount [] 0 [7]⟩

/-- **DATETIME2 columns round-trip**, down to the second. -/
theorem datetimeField {t : MysqlTime} {dec : ℕ} (ht : DatetimeOk t dec) (rowValues : List RowValue) (a : ℕ)
    (rest : Bytes) :
    parseOneRowData rowValues
      (some ⟨a, myDatetimePackedToBinary (timeToLonglongDatetimePacked t) dec ++ rest⟩) 18 dec =
      .ok (rowValues ++ [⟨18, .time (timeInit t.year t.month t.day t.hour t.minute t.second)⟩],
        myDatetimeBinaryLength dec) := by
  have hfits : Datum.Fits (FieldType.ofCode 18) dec (.datetime2 t) := ⟨rfl, ht⟩
  have hread := parseOneRowData_datum_at hfits rowValues a rest
  rw [Datum.bytes, length_datetime_binary ht] at hread
  exact hread

/-- `2024-05-06 07:08:09.25` in a DATETIME(2) column. -/
theorem datetimeField_quarter : parseOneRowData [] (some ⟨0, myDatetimePackedToBinary
      (timeToLonglongDatetimePacked ⟨2024, 5, 6, 7, 8, 9, 250000, false⟩) 2 ++ [7]⟩) 18 2 =
    .ok ([⟨18, .time (timeInit 2024 5 6 7 8 9)⟩], 6) := by
  have ht : DatetimeOk ⟨2024, 5, 6, 7, 8, 9, 250000, false⟩ 2 :=
    ⟨by norm_num, by norm_num, by norm_num, by norm_num, by norm_num, by norm_num, by norm_num,
      by norm_num, by norm_num, rfl⟩
  exact datetimeField ht [] 0 [7]

/-! ### TIME2 -/

/-- The TIME value of so many seconds. -/
def timeOfSeconds (t : ℤ) : MysqlTime :=
  ⟨0, 0, 0, t.natAbs / 3600, t.natAbs / 60 % 60, t.natAbs % 60, 0, decide (t < 0)⟩

/-- The number of seconds of `838:59:59`. -/
def maxSeconds : ℕ := 838 * 3600 + 59 * 60 + 59

/-- A TIME2 field of whole seconds. -/
def timeBytes (t : ℤ) (dec : ℕ) : Bytes :=
  myTimePackedToBinary (timeToLonglongTimePacked (timeOfSeconds t)) dec

theorem timeOk_timeOfSeconds {t : ℤ} (ht : t.natAbs ≤ maxSeconds) {dec : ℕ} (hdec : dec ≤ 6) :
    TimeOk (timeOfSeconds t) dec := by
  unfold maxSeconds at ht
  refine ⟨⟨rfl, rfl, rfl⟩, ?_, ?_, ?_, by norm_num [timeOfSeconds], by simp [timeOfSeconds], hdec⟩
  · show t.natAbs / 3600 ≤ 838
    omega
  · show t.natAbs / 60 % 60 ≤ 59
    omega
  · show t.natAbs % 60 ≤ 59
    omega

/-- What a TIME2 field yields: hours, minutes and seconds, without the sign. -/
theorem parseOneRowData_time2 {t : ℤ} (ht : t.natAbs ≤ maxSeconds) {dec : ℕ} (hdec : dec ≤ 6)
    (rowValues : List RowValue) (a : ℕ) (rest : Bytes) :
    parseOneRowData rowValues (some ⟨a, timeBytes t dec ++ rest⟩) 19 dec =
      .ok (rowValues ++ [⟨19, .time (timeInit 0 0 0 (t.natAbs / 3600) (t.natAbs / 60 % 60)
        (t.natAbs % 60))⟩], myTimeBinaryLength dec) := by
  have hok := timeOk_timeOfSeconds ht hdec
  have hpacked := time_packed_round_trip hok
    (show (Ptr.mk a (timeBytes t dec ++ rest)).data = _ from rfl)
  have hcheck : checkDecimals dec = .ok () := if_pos hdec
  rw [parseOneRowData_some (show resolveType 19 dec = (19, 0) from rfl)]
  simp only [FieldType.ofCode, parseField, hpacked, hcheck, Res.ok_bind, Res.pure_eq,
    timeFrom_timeTo_time hok]
  rfl

theorem timeInit_inj_iff (m n : ℕ) :
    timeInit 0 0 0 (m / 3600) (m / 60 % 60) (m % 60) = timeInit 0 0 0 (n / 3600) (n / 60 % 60) (n % 60) ↔
      m = n := by
  unfold timeInit
  simp only [RowValueTime.mk.injEq, true_and, and_true]
  omega

/-- **Different times stay different exactly if** they are not each other's negatives. -/
theorem timeField_ne_iff {t1 t2 : ℤ} (h1 : t1.natAbs ≤ maxSeconds) (h2 : t2.natAbs ≤ maxSeconds)
    (hne : t1 ≠ t2) {dec : ℕ} (hdec : dec ≤ 6) (a1 a2 : ℕ) (rest1 rest2 : Bytes) :
    (∃ v1 v2 n, parseOneRowData [] (some ⟨a1, timeBytes t1 dec ++ rest1⟩) 19 dec = .ok ([v1], n) ∧
      parseOneRowData [] (some ⟨a2, timeBytes t2 dec ++ rest2⟩) 19 dec = .ok ([v2], n) ∧ v1 ≠ v2) ↔
    t1 ≠ -t2 := by
  rw [parseOneRowData_time2 h1 hdec, parseOneRowData_time2 h2 hdec]
  have hsame : (⟨19, .time (timeInit 0 0 0 (t1.natAbs / 3600) (t1.natAbs / 60 % 60) (t1.natAbs % 60))⟩ :
      RowValue) = ⟨19, .time (timeInit 0 0 0 (t2.natAbs / 3600) (t2.natAbs / 60 % 60) (t2.natAbs % 60))⟩ ↔
      t1.natAbs = t2.natAbs := by
    rw [RowValue.mk.injEq, Value.time.injEq, timeInit_inj_iff]
    simp
  constructor
  · rintro ⟨v1, v2, n, hv1, hv2, hv⟩ rfl
    obtain ⟨rfl, -⟩ := List.cons.inj (Prod.mk.inj (Except.ok.inj hv1)).1
    obtain ⟨rfl, -⟩ := List.cons.inj (Prod.mk.inj (Except.ok.inj hv2)).1
    exact hv (hsame.mpr (Int.natAbs_neg t2))
  · intro hneg
    refine ⟨_, _, _, rfl, rfl, fun hv => ?_⟩
    rcases Int.natAbs_eq_natAbs_iff.mp (hsame.mp hv) with h | h
    · exact hne h
    · exact hneg h

/-- One hour and two hours. -/
theorem timeField_hours : ∃ v1 v2 n,
    parseOneRowData [] (some ⟨0, timeBytes 3600 0 ++ []⟩) 19 0 = .ok ([v1], n) ∧
      parseOneRowData [] (some ⟨0, timeBytes 7200 0 ++ []⟩) 19 0 = .ok ([v2], n) ∧ v1 ≠ v2 :=
  (timeField_ne_iff (by decide) (by decide) (by decide) (by decide) 0 0 [] []).mpr (by decide)

/-- `-01:00:00` and `01:00:00` cannot be told apart. -/
theorem timeField_oneHour : ¬ ∀ (t1 t2 : ℤ) (dec a1 a2 : ℕ) (rest1 rest2 : Bytes),
    t1.natAbs ≤ maxSeconds → t2.natAbs ≤ maxSeconds → t1 ≠ t2 → dec ≤ 6 →
    ∃ v1 v2 n, parseOneRowData [] (some ⟨a1, timeBytes t1 dec ++ rest1⟩) 19 dec = .ok ([v1], n) ∧
      parseOneRowData [] (some ⟨a2, timeBytes t2 dec ++ rest2⟩) 19 dec = .ok ([v2], n) ∧ v1 ≠ v2 := by
  intro h
  obtain ⟨v1, v2, n, hv1, hv2, hne⟩ := h (-3600) 3600 0 0 0 [] [] (by decide) (by decide) (by decide)
    (by decide)
  rw [parseOneRowData_time2 (by decide) (by decide)] at hv1 hv2
  obtain ⟨rfl, -⟩ := List.cons.inj (Prod.mk.inj (Except.ok.inj hv1)).1
  obtain ⟨rfl, -⟩ := List.cons.inj (Prod.mk.inj (Except.ok.inj hv2)).1
  exact hne rfl

end DataSync.Binlog.FieldValues
