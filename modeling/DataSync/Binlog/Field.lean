import DataSync.Binlog.Decimal
import DataSync.Binlog.MyTime

/-! # Row values and the decoding of one field

`tx_rowvalue.cpp` and `CRowsEvent::parseOneRowData`: one field of a row image is measured and, for
most column types, turned into a `ROW_VALUE` that is appended to the row. Some branches only measure
the field. `setsValue` says which branches set a value; `parseField_isSome` ties it to
the code. -/

namespace DataSync.Binlog.Field

open DataSync.Lib.Words DataSync.Lib.Memory DataSync.Binlog.Format DataSync.Binlog.Decimal
open DataSync.Binlog.MyTime

/-- `ROW_VALUE_TIME`. -/
structure RowValueTime where
  year : ℕ
  month : ℕ
  day : ℕ
  hour : ℕ
  min : ℕ
  sec : ℕ
  usec : ℕ
  deriving DecidableEq, Repr

/-- `time_init`. No call gives its last argument `usec`, which defaults to zero. -/
def timeInit (year month day hour min sec : ℕ) : RowValueTime :=
  ⟨year, month, day, hour, min, sec, 0⟩

/-- A floating-point value, by the bits it was read from: a `float` widened to `double`, or a
`double`. -/
inductive FloatBits where
  | single (bits : ℕ)
  | double (bits : ℕ)
  deriving DecidableEq, Repr

/-- The value of a `ROW_VALUE` with its tag `type_`; the tag zero is `none` where a value may be
unset. -/
inductive Value where
  | char (s : Bytes)
  | longlong (v : ℤ)
  | double (d : FloatBits)
  | time (t : RowValueTime)
  | null
  deriving DecidableEq, Repr

/-- `ROW_VALUE`. -/
structure RowValue where
  mysqlType : ℕ
  value : Value
  deriving DecidableEq, Repr

/-- The copy constructor of `ROW_VALUE`: a string is copied up to its first NUL. -/
def RowValue.copy (v : RowValue) : RowValue :=
  match v.value with
  | .char s => ⟨v.mysqlType, .char (cStr s)⟩
  | _ => v

/-! ### One field -/

/-- `parseRowDataToString`: the string, cut at its first NUL, and the bytes it takes. -/
def parseRowDataToString (ptrData : Ptr) (length : ℕ) : Res (Bytes × ℕ) := do
  if length < 256 then
    let rlen := (← ptrData.read 0).toNat
    return (cStr (← ptrData.bytes 1 rlen), rlen + 1)
  else
    let rlen ← ptrData.le 0 2
    return (cStr (← ptrData.bytes 2 rlen), rlen + 2)

/-- The head of `parseOneRowData`: the real type and the length of a STRING column. -/
def resolveType (type fmeta : ℕ) : ℕ × ℕ :=
  if type = 254 then
    if 256 ≤ fmeta then
      let byte0 := fmeta >>> 8
      let byte1 := fmeta &&& 0xff
      if byte0 &&& 0x30 ≠ 0x30 then
        (byte0 ||| 0x30, byte1 ||| (((byte0 &&& 0x30) ^^^ 0x30) <<< 4))
      else (type, fmeta &&& 0xff)
    else (type, fmeta)
  else (type, 0)

/-- `my_useconds_to_str` indexes `log_10_int` by `6 - dec`: more than six digits are a fault. -/
def checkDecimals (dec : ℕ) : Res Unit := if dec ≤ 6 then .ok () else .error .fault

/-- The DATETIME value of the number `YYYYMMDDhhmmss`; the date part is kept in 32 bits. -/
def datetimeOfNumber (i64 : ℕ) : RowValueTime :=
  let d := i64 / 1000000 % 2 ^ 32
  let t := i64 % 1000000
  timeInit (d / 10000) (d % 10000 / 100) (d % 100) (t / 10000) (t % 10000 / 100) (t % 100)

/-- `sint3korr`: the sign of a three-byte number is extended by hand. -/
def sint3korr (p : Ptr) : Res ℤ := do
  let a0 := (← p.read 0).toNat
  let a1 := (← p.read 1).toNat
  let a2 := (← p.read 2).toNat
  return toSigned 32 (if a2 &&& 128 ≠ 0 then (255 <<< 24) ||| ((a2 <<< 16) ||| ((a1 <<< 8) ||| a0))
    else (a2 <<< 16) ||| ((a1 <<< 8) ||| a0))

theorem sint3korr_cons (a : ℕ) (a0 a1 a2 : UInt8) (rest : Bytes) :
    sint3korr ⟨a, a0 :: a1 :: a2 :: rest⟩ = .ok (toSigned 24 (leNat [a0, a1, a2])) := by
  refine congrArg Except.ok ?_
  have h0 := a0.toNat_lt
  have h1 := a1.toNat_lt
  have h2 := a2.toNat_lt
  have hlow : (a1.toNat <<< 8) ||| a0.toNat = a1.toNat * 2 ^ 8 + a0.toNat := or_eq_add (by omega)
  have hmid : (a2.toNat <<< 16) ||| ((a1.toNat <<< 8) ||| a0.toNat) =
      a2.toNat * 2 ^ 16 + (a1.toNat * 2 ^ 8 + a0.toNat) := by rw [hlow, or_eq_add (by omega)]
  have hnat : leNat [a0, a1, a2] = a2.toNat * 2 ^ 16 + (a1.toNat * 2 ^ 8 + a0.toNat) := by
    simp only [leNat]
    ring
  have hsign : a2.toNat &&& 128 ≠ 0 ↔ 128 ≤ a2.toNat := by
    rw [show a2.toNat &&& 128 = a2.toNat &&& 2 ^ 7 from rfl, Nat.and_two_pow,
      Nat.testBit_eq_decide_div_mod_eq]
    by_cases hbit : a2.toNat / 2 ^ 7 % 2 = 1
    · simp only [hbit, decide_true, Bool.toNat_true]
      omega
    · simp only [hbit, decide_false, Bool.toNat_false]
      omega
  unfold toSigned
  rw [hnat, hmid]
  split_ifs with hneg
  · rw [or_eq_add (by omega)]
    have hge := hsign.mp hneg
    rw [Int.bmod_def, Int.bmod_def]
    omega
  · have hlt := mt hsign.mpr hneg
    rw [Int.bmod_def, Int.bmod_def]
    omega

/-- By hand or not, it is the two's complement reading. -/
theorem sint3korr_eq (p : Ptr) : sint3korr p = toSigned 24 <$> p.le 0 3 := by
  obtain ⟨a, data⟩ := p
  rcases data with _ | ⟨a0, _ | ⟨a1, _ | ⟨a2, rest⟩⟩⟩
  · rfl
  · rfl
  · rfl
  · exact sint3korr_cons a a0 a1 a2 rest

/-- The `switch` of `parseOneRowData`: the value a branch sets, if any, and the bytes of the field.
`MYSQL_TYPE_TINY` stores the address of the field. -/
def parseField (ptrData : Ptr) (type : FieldType) (fmeta length : ℕ) :
    Res (Option Value × ℕ) := do
  match type with
  | .long => return (some (.longlong (toSigned 32 (← ptrData.le 0 4))), 4)
  | .tiny => return (some (.longlong (toSigned 32 ptrData.addr)), 1)
  | .short => return (some (.longlong (toSigned 16 (← ptrData.le 0 2))), 2)
  | .int24 => return (some (.longlong (← sint3korr ptrData)), 3)
  | .longlong => return (some (.longlong (toSigned 64 (← ptrData.le 0 8))), 8)
  | .newdecimal =>
    let precision := fmeta >>> 8
    let decimals := fmeta &&& 0xff
    let dec ← bin2decimal ptrData precision decimals
    return (some (.char (← decimal2string dec)), decimalBinSize precision decimals)
  | .float => return (some (.double (.single (← ptrData.le 0 4))), 4)
  | .double => return (some (.double (.double (← ptrData.le 0 8))), 8)
  | .bit =>
    let nbits := (fmeta >>> 8) * 8 + (fmeta &&& 0xff)
    return (none, (nbits + 7) / 8)
  | .timestamp =>
    let _ ← ptrData.le 0 4
    return (none, 4)
  | .timestamp2 =>
    let _ ← myTimestampFromBinary ptrData fmeta
    checkDecimals fmeta
    return (none, myTimestampBinaryLength fmeta)
  | .datetime => return (some (.time (datetimeOfNumber (← ptrData.le 0 8))), 8)
  | .datetime2 =>
    let ltime := timeFromLonglongDatetimePacked (← myDatetimePackedFromBinary ptrData fmeta)
    return (some (.time (timeInit ltime.year ltime.month ltime.day ltime.hour ltime.minute
      ltime.second)), myDatetimeBinaryLength fmeta)
  | .time =>
    let i32 ← ptrData.le 0 3
    return (some (.time (timeInit 0 0 0 (i32 / 10000) (i32 % 10000 / 100) (i32 % 100))), 3)
  | .time2 =>
    let ltime := timeFromLonglongTimePacked (← myTimePackedFromBinary ptrData fmeta)
    checkDecimals fmeta
    return (some (.time (timeInit 0 0 0 ltime.hour ltime.minute ltime.second)),
      myTimeBinaryLength fmeta)
  | .newdate =>
    let _ ← ptrData.le 0 3
    return (none, 3)
  | .year => return (some (.longlong (← ptrData.read 0).toNat), 1)
  | .enum =>
    match fmeta &&& 0xff with
    | 1 => return (some (.longlong (← ptrData.read 0).toNat), 1)
    | 2 => return (some (.longlong (← ptrData.le 0 2)), 2)
    | _ => return (none, 0)
  | .set => return (none, fmeta &&& 0xff)
  | .blob =>
    match fmeta with
    | 1 => return (none, (← ptrData.read 0).toNat + 1)
    | 2 => return (none, (← ptrData.le 0 2) + 2)
    | 3 => return (none, (← ptrData.le 0 3) + 3)
    | 4 => return (none, ((← ptrData.le 0 4) + 4) % 2 ^ 32)
    | _ => return (none, 0)
  | .varchar | .varString =>
    let (strValue, rLen) ← parseRowDataToString ptrData fmeta
    return (some (.char strValue), rLen)
  | .string =>
    let (_, rLen) ← parseRowDataToString ptrData length
    return (none, rLen)
  | .json =>
    let length ← ptrData.le 0 2
    return (some (.char (← ptrData.bytes fmeta length)), length + fmeta)
  | _ => return (none, 0)

/-- An INT24 field is read as any other number. -/
theorem parseField_int24 (p : Ptr) (fmeta length : ℕ) : parseField p .int24 fmeta length =
    p.le 0 3 >>= fun x => .ok (some (.longlong (toSigned 24 x)), 3) := by
  unfold parseField
  rw [sint3korr_eq, bind_map_left]
  rfl

/-- `parseOneRowData`: the row with the field's value behind it, if one was set, and the bytes the
field takes. A null `ptrData` is a NULL field. -/
def parseOneRowData (rowValues : List RowValue) (ptrData : Option Ptr) (type fmeta : ℕ) :
    Res (List RowValue × ℕ) := do
  let (type, length) := resolveType type fmeta
  let (value, rLen) ←
    match ptrData with
    | none => pure (some Value.null, 0)
    | some p => parseField p (FieldType.ofCode type) fmeta length
  match value with
  | none => return (rowValues, rLen)
  | some v => return (rowValues ++ [RowValue.copy ⟨type, v⟩], rLen)

/-- A field that is not NULL is measured and decoded by its branch. -/
theorem parseOneRowData_some {type fmeta type' length : ℕ} (h : resolveType type fmeta = (type', length))
    (rowValues : List RowValue) (p : Ptr) : parseOneRowData rowValues (some p) type fmeta =
      (parseField p (FieldType.ofCode type') fmeta length).map fun r =>
        (rowValues ++ (r.1.map fun v => RowValue.copy ⟨type', v⟩).toList, r.2) := by
  unfold parseOneRowData
  rw [h]
  dsimp only
  rcases parseField p (FieldType.ofCode type') fmeta length with e | ⟨_ | v, n⟩
  · rfl
  · simp [Except.map]
  · rfl

/-! ### Which branches set a value -/

/-- The branches of `parseField` that set a value. -/
def setsValue (type : FieldType) (fmeta : ℕ) : Bool :=
  match type with
  | .long | .tiny | .short | .int24 | .longlong | .newdecimal | .float | .double | .datetime
  | .datetime2 | .time | .time2 | .year | .varchar | .varString | .json => true
  | .enum => fmeta &&& 0xff == 1 || fmeta &&& 0xff == 2
  | _ => false

/-- **A field sets a value** exactly when its branch does. -/
theorem parseField_isSome {p : Ptr} {type : FieldType} {fmeta length n : ℕ} {v : Option Value}
    (h : parseField p type fmeta length = .ok (v, n)) : v.isSome = setsValue type fmeta := by
  cases type
  case enum =>
    simp only [parseField] at h
    split at h <;> simp only [Res.bind_eq_ok, Res.pure_eq, Except.ok.injEq, Prod.mk.injEq] at h <;>
      grind [setsValue]
  case blob =>
    simp only [parseField] at h
    split at h <;> simp only [Res.bind_eq_ok, Res.pure_eq, Except.ok.injEq, Prod.mk.injEq] at h <;>
      grind [setsValue]
  all_goals
    simp only [parseField, Res.bind_eq_ok, Res.pure_eq, Except.ok.injEq, Prod.mk.injEq] at h
    grind [setsValue]

end DataSync.Binlog.Field
