import DataSync.Binlog.Format

/-! # Temporal columns: the packed and the binary form

`my_time.cpp`: a DATETIME or TIME value is packed into one `longlong`, twenty-four low bits for the
microseconds, and stored big-endian with an offset that makes the integer part positive. `dec` is the
declared number of fractional digits; the microseconds take `(dec + 1) / 2` bytes.

`datetime_packed_round_trip` and `timeFrom_timeTo`: a normalised DATETIME value whose microseconds
have at most `dec` digits is read back from its stored form. `time2_round_trip`: so is a TIME value of
either sign, where the integer part is rounded down, the fraction is not, and `make_carry` settles the
difference. -/

namespace DataSync.Binlog.MyTime

open DataSync.Lib.Words DataSync.Lib.Memory DataSync.Binlog.Format

/-- `MYSQL_TIME`. -/
structure MysqlTime where
  year : ℕ
  month : ℕ
  day : ℕ
  hour : ℕ
  minute : ℕ
  second : ℕ
  secondPart : ℕ
  neg : Bool
  deriving DecidableEq, Repr

/-- `my_time_binary_length`. -/
def myTimeBinaryLength (dec : ℕ) : ℕ := 3 + (dec + 1) / 2

/-- `my_datetime_binary_length`. -/
def myDatetimeBinaryLength (dec : ℕ) : ℕ := 5 + (dec + 1) / 2

/-- `my_timestamp_binary_length`. -/
def myTimestampBinaryLength (dec : ℕ) : ℕ := 4 + (dec + 1) / 2

/-- `MY_PACKED_TIME_MAKE`. -/
def packedTimeMake (i f : ℤ) : ℤ := i * 2 ^ 24 + f

/-- `MY_PACKED_TIME_GET_INT_PART`. -/
def packedTimeGetIntPart (x : ℤ) : ℤ := x >>> (24 : ℕ)

/-- `MY_PACKED_TIME_GET_FRAC_PART`. -/
def packedTimeGetFracPart (x : ℤ) : ℤ := Int.tmod x (2 ^ 24)

/-- `TIMEF_INT_OFS`. -/
def timefIntOfs : ℤ := 0x800000

/-- `TIMEF_OFS`. -/
def timefOfs : ℤ := 0x800000000000

/-- `DATETIMEF_INT_OFS`. -/
def datetimefIntOfs : ℤ := 0x8000000000

/-! ### TIME -/

/-- `TIME_from_longlong_time_packed`. -/
def timeFromLonglongTimePacked (tmp : ℤ) : MysqlTime :=
  let abs := tmp.natAbs
  let hms := abs >>> 24
  { year := 0, month := 0, day := 0
    hour := (hms >>> 12) % 2 ^ 10
    minute := (hms >>> 6) % 2 ^ 6
    second := hms % 2 ^ 6
    secondPart := abs % 2 ^ 24
    neg := decide (tmp < 0) }

/-- `TIME_to_longlong_time_packed`: without a month the days are hours. -/
def timeToLonglongTimePacked (t : MysqlTime) : ℤ :=
  let hms := (((if t.month ≠ 0 then 0 else t.day * 24) + t.hour) <<< 12) ||| (t.minute <<< 6) ||| t.second
  let tmp := packedTimeMake hms t.secondPart
  if t.neg then -tmp else tmp

/-- `my_time_packed_to_binary`: the bytes it stores. -/
def myTimePackedToBinary (nr : ℤ) (dec : ℕ) : Bytes :=
  match dec with
  | 1 | 2 => beBytes 3 (ofSigned 24 (timefIntOfs + packedTimeGetIntPart nr)) ++
      beBytes 1 (ofSigned 8 (Int.tdiv (packedTimeGetFracPart nr) 10000))
  | 3 | 4 => beBytes 3 (ofSigned 24 (timefIntOfs + packedTimeGetIntPart nr)) ++
      beBytes 2 (ofSigned 16 (Int.tdiv (packedTimeGetFracPart nr) 100))
  | 5 | 6 => beBytes 6 (ofSigned 48 (nr + timefOfs))
  | _ => beBytes 3 (ofSigned 24 (timefIntOfs + packedTimeGetIntPart nr))

/-- `my_time_packed_from_binary`. -/
def myTimePackedFromBinary (ptr : Ptr) (dec : ℕ) : Res ℤ := do
  match dec with
  | 1 | 2 =>
    let intpart := (← ptr.be 0 3 : ℤ) - timefIntOfs
    let frac := ((← ptr.read 3).toNat : ℤ)
    -- a negative value stores its fraction as the complement: shift to the next integer value
    if intpart < 0 ∧ frac ≠ 0 then return packedTimeMake (intpart + 1) ((frac - 0x100) * 10000)
    else return packedTimeMake intpart (frac * 10000)
  | 3 | 4 =>
    let intpart := (← ptr.be 0 3 : ℤ) - timefIntOfs
    let frac := (← ptr.be 3 2 : ℤ)
    if intpart < 0 ∧ frac ≠ 0 then return packedTimeMake (intpart + 1) ((frac - 0x10000) * 100)
    else return packedTimeMake intpart (frac * 100)
  | 5 | 6 => return (← ptr.be 0 6 : ℤ) - timefOfs
  | _ => return packedTimeMake ((← ptr.be 0 3 : ℤ) - timefIntOfs) 0

/-! ### DATETIME -/

/-- `TIME_to_longlong_datetime_packed`. -/
def timeToLonglongDatetimePacked (t : MysqlTime) : ℤ :=
  let ymd := ((t.year * 13 + t.month) <<< 5) ||| t.day
  let hms := (t.hour <<< 12) ||| (t.minute <<< 6) ||| t.second
  let tmp := packedTimeMake ((ymd <<< 17) ||| hms : ℕ) t.secondPart
  if t.neg then -tmp else tmp

/-- `TIME_from_longlong_datetime_packed`. -/
def timeFromLonglongDatetimePacked (tmp : ℤ) : MysqlTime :=
  let abs := tmp.natAbs
  let ymdhms := abs >>> 24
  let ymd := ymdhms >>> 17
  let ym := ymd >>> 5
  let hms := ymdhms % 2 ^ 17
  { year := ym / 13
    month := ym % 13
    day := ymd % 2 ^ 5
    hour := hms >>> 12
    minute := (hms >>> 6) % 2 ^ 6
    second := hms % 2 ^ 6
    secondPart := abs % 2 ^ 24
    neg := decide (tmp < 0) }

/-- `my_datetime_packed_from_binary`. -/
def myDatetimePackedFromBinary (ptr : Ptr) (dec : ℕ) : Res ℤ := do
  let intpart := (← ptr.be 0 5 : ℤ) - datetimefIntOfs
  match dec with
  | 1 | 2 => return packedTimeMake intpart (toSigned 8 (← ptr.be 5 1) * 10000)
  | 3 | 4 => return packedTimeMake intpart (toSigned 16 (← ptr.be 5 2) * 100)
  | 5 | 6 => return packedTimeMake intpart (toSigned 24 (← ptr.be 5 3))
  | _ => return packedTimeMake intpart 0

/-- `my_datetime_packed_to_binary`: the bytes it stores. -/
def myDatetimePackedToBinary (nr : ℤ) (dec : ℕ) : Bytes :=
  beBytes 5 (ofSigned 40 (packedTimeGetIntPart nr + datetimefIntOfs)) ++
    match dec with
    | 1 | 2 => beBytes 1 (ofSigned 8 (Int.tdiv (packedTimeGetFracPart nr) 10000))
    | 3 | 4 => beBytes 2 (ofSigned 16 (Int.tdiv (packedTimeGetFracPart nr) 100))
    | 5 | 6 => beBytes 3 (ofSigned 24 (packedTimeGetFracPart nr))
    | _ => []

/-! ### Timestamps -/

/-- `my_timestamp_from_binary`: seconds and microseconds. -/
def myTimestampFromBinary (ptr : Ptr) (dec : ℕ) : Res (ℕ × ℤ) := do
  let sec ← ptr.be 0 4
  match dec with
  | 1 | 2 => return (sec, ((← ptr.read 4).toNat : ℤ) * 10000)
  | 3 | 4 => return (sec, toSigned 16 (← ptr.be 4 2) * 100)
  | 5 | 6 => return (sec, toSigned 24 (← ptr.be 4 3))
  | _ => return (sec, 0)

/-! ### The DATETIME round trip -/

/-- A normalised DATETIME value with at most `dec` fractional digits. -/
structure DatetimeOk (t : MysqlTime) (dec : ℕ) : Prop where
  year : t.year ≤ 9999
  month : t.month ≤ 12
  day : t.day ≤ 31
  hour : t.hour ≤ 23
  minute : t.minute ≤ 59
  second : t.second ≤ 59
  secondPart : t.secondPart < 10 ^ 6
  digits : 10 ^ (6 - dec) ∣ t.secondPart
  dec : dec ≤ 6
  neg : t.neg = false

/-- The integer part of the packed form. -/
def datetimeInt (t : MysqlTime) : ℕ :=
  ((t.year * 13 + t.month) * 2 ^ 5 + t.day) * 2 ^ 17 + (t.hour * 2 ^ 12 + t.minute * 2 ^ 6 + t.second)

theorem or_eq_add {a b i : ℕ} (h : b < 2 ^ i) : (a <<< i) ||| b = a * 2 ^ i + b := by
  rw [← Nat.shiftLeft_add_eq_or_of_lt h, Nat.shiftLeft_eq]

theorem pack_div {a b n : ℕ} (h : b < n) : (a * n + b) / n = a := by
  rw [Nat.mul_comm, Nat.mul_add_div (by omega), Nat.div_eq_of_lt h, Nat.add_zero]

theorem pack_mod {a b n : ℕ} (h : b < n) : (a * n + b) % n = b := by
  rw [Nat.mul_comm, Nat.mul_add_mod, Nat.mod_eq_of_lt h]

section RoundTrip
variable {t : MysqlTime} {dec : ℕ} (ht : DatetimeOk t dec)
include ht

theorem packed_eq : timeToLonglongDatetimePacked t =
    packedTimeMake (datetimeInt t) t.secondPart := by
  obtain ⟨-, -, hd, hh, hm, hs, -, -, -, hn⟩ := ht
  have h1 : ((t.year * 13 + t.month) <<< 5) ||| t.day = (t.year * 13 + t.month) * 2 ^ 5 + t.day :=
    or_eq_add (by omega)
  have h2 : (t.minute <<< 6) ||| t.second = t.minute * 2 ^ 6 + t.second := or_eq_add (by omega)
  have h3 : (t.hour <<< 12) ||| (t.minute <<< 6) ||| t.second =
      t.hour * 2 ^ 12 + t.minute * 2 ^ 6 + t.second := by
    rw [Nat.or_assoc, h2, or_eq_add (by omega), Nat.add_assoc]
  unfold timeToLonglongDatetimePacked datetimeInt
  simp only [hn, h1, h3, Bool.false_eq_true, if_false]
  rw [or_eq_add (by omega)]

theorem datetimeInt_lt : datetimeInt t < 2 ^ 39 := by
  obtain ⟨hy, hmo, hd, hh, hm, hs, -, -, -, -⟩ := ht
  unfold datetimeInt
  omega

theorem getIntPart_packed :
    packedTimeGetIntPart (timeToLonglongDatetimePacked t) = datetimeInt t := by
  have hs := ht.secondPart
  rw [packed_eq ht]
  unfold packedTimeGetIntPart packedTimeMake
  rw [Int.shiftRight_eq_div_pow]
  omega

theorem getFracPart_packed :
    packedTimeGetFracPart (timeToLonglongDatetimePacked t) = t.secondPart := by
  have hs := ht.secondPart
  rw [packed_eq ht]
  unfold packedTimeGetFracPart packedTimeMake
  rw [Int.tmod_eq_emod_of_nonneg (by positivity)]
  omega

/-- Unpacking undoes packing. -/
theorem timeFrom_timeTo : timeFromLonglongDatetimePacked (timeToLonglongDatetimePacked t) = t := by
  have hp := packed_eq ht
  have habs : (timeToLonglongDatetimePacked t).natAbs = datetimeInt t * 2 ^ 24 + t.secondPart := by
    rw [hp]; unfold packedTimeMake; omega
  have hneg : ¬ timeToLonglongDatetimePacked t < 0 := by
    rw [hp]; unfold packedTimeMake; omega
  obtain ⟨hy, hmo, hd, hh, hm, hs, hu, -, -, hn⟩ := ht
  have hlow : t.hour * 2 ^ 12 + t.minute * 2 ^ 6 + t.second < 2 ^ 17 := by omega
  have e1 : datetimeInt t / 2 ^ 17 = (t.year * 13 + t.month) * 2 ^ 5 + t.day := pack_div hlow
  have e2 : datetimeInt t % 2 ^ 17 = t.hour * 2 ^ 12 + t.minute * 2 ^ 6 + t.second := pack_mod hlow
  have e3 : ((t.year * 13 + t.month) * 2 ^ 5 + t.day) / 2 ^ 5 = t.year * 13 + t.month :=
    pack_div (by omega)
  unfold timeFromLonglongDatetimePacked
  simp only [habs, hneg, decide_false, Nat.shiftRight_eq_div_pow, pack_div (show t.secondPart < 2 ^ 24
    by omega), pack_mod (show t.secondPart < 2 ^ 24 by omega), e1, e2, e3]
  clear habs hneg e1 e2 e3 hlow hp
  cases t
  simp only at *
  simp only [MysqlTime.mk.injEq]
  exact ⟨by omega, by omega, by omega, by omega, by omega, by omega, trivial, hn.symm⟩

theorem length_datetime_binary :
    (myDatetimePackedToBinary (timeToLonglongDatetimePacked t) dec).length =
      myDatetimeBinaryLength dec := by
  have hdec := ht.dec
  unfold myDatetimePackedToBinary myDatetimeBinaryLength
  interval_cases dec <;> simp

/-- **The stored form reads back** to the packed value. -/
theorem datetime_packed_round_trip {p : Ptr} {rest : Bytes}
    (hp : p.data = myDatetimePackedToBinary (timeToLonglongDatetimePacked t) dec ++ rest) :
    myDatetimePackedFromBinary p dec = .ok (timeToLonglongDatetimePacked t) := by
  have hlt := datetimeInt_lt ht
  have hu := ht.secondPart
  have hofs : ofSigned 40 ((datetimeInt t : ℤ) + datetimefIntOfs) = datetimeInt t + 2 ^ 39 := by
    unfold ofSigned datetimefIntOfs; omega
  unfold myDatetimePackedToBinary at hp
  rw [getIntPart_packed ht, getFracPart_packed ht, hofs] at hp
  have hint : p.be 0 5 = .ok (datetimeInt t + 2 ^ 39) := by
    rw [List.append_assoc] at hp
    rw [Ptr.be_head hp (by simp), beNat_beBytes_of_lt (by omega)]
  have hI : ((datetimeInt t + 2 ^ 39 : ℕ) : ℤ) - datetimefIntOfs = datetimeInt t := by
    unfold datetimefIntOfs; push_cast; omega
  -- a fraction of `n` units, small enough for the sign bit to stay clear
  have hfrac : ∀ w n : ℕ, 0 < w → 2 * n < 2 ^ (8 * w) →
      p.data = beBytes 5 (datetimeInt t + 2 ^ 39) ++ beBytes w (ofSigned (8 * w) n) ++ rest →
      ∃ m, p.be 5 w = .ok m ∧ toSigned (8 * w) m = n := by
    intro w n hw hn hd
    have hn' : (2 : ℤ) * n < 2 ^ (8 * w) := by exact_mod_cast hn
    exact ⟨_, Ptr.be_ofSigned_at hd (by simp), toSigned_ofSigned (v := n) (by omega) (by omega) hn'⟩
  unfold myDatetimePackedFromBinary
  rw [hint, Res.ok_bind, hI, packed_eq ht]
  have hdig := ht.digits
  have hdec := ht.dec
  rcases (by omega : dec = 0 ∨ (dec = 1 ∨ dec = 2) ∨ (dec = 3 ∨ dec = 4) ∨ (dec = 5 ∨ dec = 6))
    with rfl | hd | hd | hd
  · have h0 : t.secondPart = 0 := Nat.eq_zero_of_dvd_of_lt hdig (by simpa using hu)
    simp [h0]
  · obtain ⟨k, hk⟩ : 10000 ∣ t.secondPart :=
      Nat.dvd_trans (by rcases hd with rfl | rfl <;> norm_num) hdig
    have h1 : Int.tdiv (t.secondPart : ℤ) 10000 = (k : ℤ) := by rw [hk]; push_cast; simp
    obtain ⟨m, hb, hs⟩ := hfrac 1 k (by omega) (by omega)
      (by rcases hd with rfl | rfl <;> simpa [h1] using hp)
    have h2 : (k : ℤ) * 10000 = t.secondPart := by omega
    rcases hd with rfl | rfl <;> simp only [hb, Res.ok_bind, hs, h2] <;> rfl
  · obtain ⟨k, hk⟩ : 100 ∣ t.secondPart :=
      Nat.dvd_trans (by rcases hd with rfl | rfl <;> norm_num) hdig
    have h1 : Int.tdiv (t.secondPart : ℤ) 100 = (k : ℤ) := by rw [hk]; push_cast; simp
    obtain ⟨m, hb, hs⟩ := hfrac 2 k (by omega) (by omega)
      (by rcases hd with rfl | rfl <;> simpa [h1] using hp)
    have h2 : (k : ℤ) * 100 = t.secondPart := by omega
    rcases hd with rfl | rfl <;> simp only [hb, Res.ok_bind, hs, h2] <;> rfl
  · obtain ⟨m, hb, hs⟩ := hfrac 3 t.secondPart (by omega) (by omega)
      (by rcases hd with rfl | rfl <;> simpa using hp)
    rcases hd with rfl | rfl <;> simp only [hb, Res.ok_bind, hs] <;> rfl

end RoundTrip

/-! ### The TIME round trip -/

/-- A TIME value up to `838:59:59.999999`, of either sign, with at most `dec` fractional digits. -/
structure TimeOk (t : MysqlTime) (dec : ℕ) : Prop where
  date : t.year = 0 ∧ t.month = 0 ∧ t.day = 0
  hour : t.hour ≤ 838
  minute : t.minute ≤ 59
  second : t.second ≤ 59
  secondPart : t.secondPart < 10 ^ 6
  digits : 10 ^ (6 - dec) ∣ t.secondPart
  dec : dec ≤ 6

/-- The integer part of the packed form, without its sign. -/
def timeInt (t : MysqlTime) : ℕ := t.hour * 2 ^ 12 + t.minute * 2 ^ 6 + t.second

/-- A number with a sign. -/
def signed (neg : Bool) (n : ℕ) : ℤ := if neg then -n else n

/-- The time in microseconds, with its sign. -/
def MysqlTime.micros (t : MysqlTime) : ℤ :=
  signed t.neg (((t.hour * 60 + t.minute) * 60 + t.second) * 10 ^ 6 + t.secondPart)

/-- The integer part rounds down. -/
theorem getIntPart_signed (neg : Bool) {i f : ℕ} (hf : f < 2 ^ 24) :
    packedTimeGetIntPart (signed neg (i * 2 ^ 24 + f)) =
      if neg then (if f = 0 then -(i : ℤ) else -(i + 1 : ℤ)) else i := by
  unfold packedTimeGetIntPart signed
  rw [Int.shiftRight_eq_div_pow]
  split_ifs <;> push_cast <;> omega

/-- The fraction keeps the sign. -/
theorem getFracPart_signed (neg : Bool) {i f : ℕ} (hf : f < 2 ^ 24) :
    packedTimeGetFracPart (signed neg (i * 2 ^ 24 + f)) = signed neg f := by
  have hmod : Int.tmod ((i * 2 ^ 24 + f : ℕ) : ℤ) (2 ^ 24) = f := by
    rw [Int.tmod_eq_emod_of_nonneg (by positivity)]
    push_cast
    omega
  unfold packedTimeGetFracPart signed
  split_ifs
  · rw [Int.neg_tmod, hmod]
  · exact hmod

/-- **The carry**: of a negative number with a fraction the integer part is one too low and the fraction is
stored as its complement to `B`; reading it back makes up for both. -/
theorem make_carry (neg : Bool) {i k u B : ℕ} (hu : 0 < u) (hk : k < B) (hf : k * u < 2 ^ 24) :
    let nr := signed neg (i * 2 ^ 24 + k * u)
    let y := Int.tdiv (packedTimeGetFracPart nr) u % B
    (if packedTimeGetIntPart nr < 0 ∧ y ≠ 0 then
        packedTimeMake (packedTimeGetIntPart nr + 1) ((y - B) * u)
      else packedTimeMake (packedTimeGetIntPart nr) (y * u)) = nr := by
  have hdiv : Int.tdiv ((k * u : ℕ) : ℤ) u = k := by
    push_cast
    exact Int.mul_tdiv_cancel _ (by omega)
  dsimp only
  rw [getIntPart_signed neg hf, getFracPart_signed neg hf]
  cases neg with
  | false =>
    have hy : (k : ℤ) % B = k := Int.emod_eq_of_lt (by omega) (by omega)
    simp only [signed, Bool.false_eq_true, if_false, hdiv, hy]
    rw [if_neg (by omega)]
    unfold packedTimeMake
    push_cast
    ring
  | true =>
    simp only [signed, if_true, Int.neg_tdiv, hdiv]
    by_cases h0 : k = 0
    · subst h0
      simp [packedTimeMake]
    · have hne : k * u ≠ 0 := Nat.mul_ne_zero h0 hu.ne'
      have hy : -(k : ℤ) % B = B - k := by
        rw [← Int.add_emod_right, Int.emod_eq_of_lt (by omega) (by omega)]
        ring
      rw [if_neg hne, hy, if_pos ⟨by omega, by omega⟩]
      unfold packedTimeMake
      push_cast
      ring

section TimeRoundTrip
variable {t : MysqlTime} {dec : ℕ} (ht : TimeOk t dec)
include ht

theorem timePacked_eq :
    timeToLonglongTimePacked t = signed t.neg (timeInt t * 2 ^ 24 + t.secondPart) := by
  obtain ⟨⟨-, hmo, hd⟩, hh, hm, hs, -, -, -⟩ := ht
  have h1 : (t.minute <<< 6) ||| t.second = t.minute * 2 ^ 6 + t.second := or_eq_add (by omega)
  have h2 : (t.hour <<< 12) ||| (t.minute <<< 6) ||| t.second = timeInt t := by
    rw [Nat.or_assoc, h1, or_eq_add (by omega), timeInt, Nat.add_assoc]
  unfold timeToLonglongTimePacked signed
  simp only [hmo, hd, ne_eq, not_true_eq_false, if_false, Nat.zero_mul, Nat.zero_add, h2]
  unfold packedTimeMake
  push_cast
  rfl

theorem timeInt_lt : timeInt t < 2 ^ 22 := by
  obtain ⟨-, hh, hm, hs, -, -, -⟩ := ht
  unfold timeInt
  omega

/-- The integer part is stored above its offset. -/
theorem ofSigned_timeInt : (ofSigned 24 (timefIntOfs +
    packedTimeGetIntPart (timeToLonglongTimePacked t)) : ℤ) - timefIntOfs =
      packedTimeGetIntPart (timeToLonglongTimePacked t) := by
  have hlt := timeInt_lt ht
  have hu := ht.secondPart
  have hrange : -(2 ^ 22 : ℤ) ≤ packedTimeGetIntPart (timeToLonglongTimePacked t) ∧
      packedTimeGetIntPart (timeToLonglongTimePacked t) < 2 ^ 22 := by
    rw [timePacked_eq ht, getIntPart_signed t.neg (by omega)]
    split_ifs <;> constructor <;> omega
  have hofs : timefIntOfs = 2 ^ 23 := rfl
  rw [ofSigned_of_range (by omega) (by omega), add_sub_cancel_left]

/-- The number as a whole, too. -/
theorem ofSigned_timePacked : (ofSigned 48 (timeToLonglongTimePacked t + timefOfs) : ℤ) - timefOfs =
    timeToLonglongTimePacked t := by
  have hlt := timeInt_lt ht
  have hu := ht.secondPart
  have hrange : -(2 ^ 46 : ℤ) ≤ timeToLonglongTimePacked t ∧ timeToLonglongTimePacked t < 2 ^ 46 := by
    rw [timePacked_eq ht]
    unfold signed
    split_ifs <;> constructor <;> push_cast <;> omega
  have hofs : timefOfs = 2 ^ 47 := rfl
  rw [ofSigned_of_range (by omega) (by omega), add_sub_cancel_right]

/-- Integer part and fraction, read back in units of `u`. -/
theorem carry_timePacked {u B k : ℕ} (hu : 0 < u) (hk : t.secondPart = k * u) (hB : k < B) :
    let nr := timeToLonglongTimePacked t
    let y := Int.tdiv (packedTimeGetFracPart nr) u % B
    (if packedTimeGetIntPart nr < 0 ∧ y ≠ 0 then
        packedTimeMake (packedTimeGetIntPart nr + 1) ((y - B) * u)
      else packedTimeMake (packedTimeGetIntPart nr) (y * u)) = nr := by
  have hmicro := ht.secondPart
  rw [timePacked_eq ht, hk]
  exact make_carry t.neg hu hB (by omega)

/-- **The stored form of a TIME reads back** to the packed value, whatever its sign and its digits. -/
theorem time_packed_round_trip {p : Ptr} {rest : Bytes}
    (hp : p.data = myTimePackedToBinary (timeToLonglongTimePacked t) dec ++ rest) :
    myTimePackedFromBinary p dec = .ok (timeToLonglongTimePacked t) := by
  have hdig := ht.digits
  have hdec := ht.dec
  have hu := ht.secondPart
  have hofs := ofSigned_timeInt ht
  have hwide := ofSigned_timePacked ht
  have hcarry := @carry_timePacked t dec ht
  generalize timeToLonglongTimePacked t = nr at hp hofs hwide hcarry ⊢
  -- the integer part comes first, but for the six-byte form
  have hint {ys : Bytes} (h : p.data = beBytes 3 (ofSigned 24 (timefIntOfs + packedTimeGetIntPart nr)) ++ ys) :
      p.be 0 3 = .ok (ofSigned 24 (timefIntOfs + packedTimeGetIntPart nr)) :=
    Ptr.be_ofSigned_at (x := []) (w := 3) h rfl
  unfold myTimePackedFromBinary
  unfold myTimePackedToBinary at hp
  rcases (by omega : dec = 0 ∨ (dec = 1 ∨ dec = 2) ∨ (dec = 3 ∨ dec = 4) ∨ (dec = 5 ∨ dec = 6))
    with h0 | hd | hd | hd
  · have hzero : t.secondPart = 0 :=
      Nat.eq_zero_of_dvd_of_lt (h0 ▸ hdig) (by simpa using hu)
    have hwhole := hcarry (u := 1) (B := 1) (k := 0) (by norm_num) (by omega) (by norm_num)
    rw [h0] at hp ⊢
    simp only [hint hp, Res.ok_bind, hofs]
    simpa [Int.emod_one] using hwhole
  · obtain ⟨k, hk⟩ : 10000 ∣ t.secondPart :=
      Nat.dvd_trans (by rcases hd with h | h <;> rw [h] <;> norm_num) hdig
    have hback := hcarry (u := 10000) (B := 256) (k := k) (by norm_num) (by omega) (by omega)
    have hdata : p.data = beBytes 3 (ofSigned 24 (timefIntOfs + packedTimeGetIntPart nr)) ++
        beBytes 1 (ofSigned 8 (Int.tdiv (packedTimeGetFracPart nr) 10000)) ++ rest := by
      rcases hd with h | h <;> rw [h] at hp <;> exact hp
    have hfrac : p.read 3 = .ok (UInt8.ofNat (ofSigned 8 (Int.tdiv (packedTimeGetFracPart nr) 10000))) :=
      Ptr.read_at (hdata.trans (List.append_assoc ..)) rfl
    have hbyte : ((UInt8.ofNat (ofSigned 8 (Int.tdiv (packedTimeGetFracPart nr) 10000))).toNat : ℤ) =
        Int.tdiv (packedTimeGetFracPart nr) 10000 % 256 := by
      have hlt := ofSigned_lt 8 (Int.tdiv (packedTimeGetFracPart nr) 10000)
      rw [UInt8.toNat_ofNat', Nat.mod_eq_of_lt hlt, coe_ofSigned]
      norm_num
    rw [List.append_assoc] at hdata
    simp only [Nat.cast_ofNat] at hback
    rcases hd with h | h <;> rw [h] <;>
      simp only [hint hdata, hfrac, Res.ok_bind, hofs, hbyte, Res.pure_eq] <;>
      split_ifs at hback ⊢ <;> rw [hback]
  · obtain ⟨k, hk⟩ : 100 ∣ t.secondPart :=
      Nat.dvd_trans (by rcases hd with h | h <;> rw [h] <;> norm_num) hdig
    have hback := hcarry (u := 100) (B := 65536) (k := k) (by norm_num) (by omega) (by omega)
    have hdata : p.data = beBytes 3 (ofSigned 24 (timefIntOfs + packedTimeGetIntPart nr)) ++
        beBytes 2 (ofSigned 16 (Int.tdiv (packedTimeGetFracPart nr) 100)) ++ rest := by
      rcases hd with h | h <;> rw [h] at hp <;> exact hp
    have hfrac : p.be 3 2 = .ok (ofSigned 16 (Int.tdiv (packedTimeGetFracPart nr) 100)) :=
      Ptr.be_ofSigned_at (w := 2) hdata rfl
    have hword : (ofSigned 16 (Int.tdiv (packedTimeGetFracPart nr) 100) : ℤ) =
        Int.tdiv (packedTimeGetFracPart nr) 100 % 65536 := by
      rw [coe_ofSigned]
      norm_num
    rw [List.append_assoc] at hdata
    simp only [Nat.cast_ofNat] at hback
    rcases hd with h | h <;> rw [h] <;>
      simp only [hint hdata, hfrac, Res.ok_bind, hofs, hword, Res.pure_eq] <;>
      split_ifs at hback ⊢ <;> rw [hback]
  · have hdata : p.data = beBytes 6 (ofSigned 48 (nr + timefOfs)) ++ rest := by
      rcases hd with h | h <;> rw [h] at hp <;> exact hp
    have hall : p.be 0 6 = .ok (ofSigned 48 (nr + timefOfs)) :=
      Ptr.be_ofSigned_at (x := []) (w := 6) hdata rfl
    rcases hd with h | h <;> rw [h] <;> simp only [hall, Res.ok_bind, hwide] <;> rfl

/-- Unpacking gives back the fields of the time and its sign; zero has none. -/
theorem timeFrom_timeTo_time : timeFromLonglongTimePacked (timeToLonglongTimePacked t) =
    { t with neg := decide (t.micros < 0) } := by
  have hu := ht.secondPart
  have hpacked := timePacked_eq ht
  have habs : (timeToLonglongTimePacked t).natAbs = timeInt t * 2 ^ 24 + t.secondPart := by
    rw [hpacked]
    unfold signed
    split_ifs <;> omega
  obtain ⟨⟨hy, hmo, hday⟩, hh, hm, hs, -, -, -⟩ := ht
  have hsign : timeToLonglongTimePacked t < 0 ↔ t.micros < 0 := by
    rw [hpacked]
    unfold MysqlTime.micros signed timeInt
    split_ifs <;> omega
  have e1 : timeInt t / 2 ^ 12 % 2 ^ 10 = t.hour := by unfold timeInt; omega
  have e2 : timeInt t / 2 ^ 6 % 2 ^ 6 = t.minute := by unfold timeInt; omega
  have e3 : timeInt t % 2 ^ 6 = t.second := by unfold timeInt; omega
  unfold timeFromLonglongTimePacked
  simp only [habs, hsign, Nat.shiftRight_eq_div_pow, pack_div (show t.secondPart < 2 ^ 24 by omega),
    pack_mod (show t.secondPart < 2 ^ 24 by omega), e1, e2, e3, hy, hmo, hday]

end TimeRoundTrip

/-- **The TIME2 format round-trips**: the packed value is read back from its stored form, and the fields and
the sign of the time from the packed value. -/
theorem time2_round_trip {t : MysqlTime} {dec : ℕ} (ht : TimeOk t dec) (a : ℕ) (rest : Bytes) :
    myTimePackedFromBinary ⟨a, myTimePackedToBinary (timeToLonglongTimePacked t) dec ++ rest⟩ dec =
        .ok (timeToLonglongTimePacked t) ∧
      timeFromLonglongTimePacked (timeToLonglongTimePacked t) =
        { t with neg := decide (t.micros < 0) } :=
  ⟨time_packed_round_trip ht rfl, timeFrom_timeTo_time ht⟩

/-- `-00:00:01.5`, with two fractional digits. -/
theorem time2_round_trip_negative :
    myTimePackedFromBinary ⟨0, [0x7f, 0xff, 0xfe, 0xce, 7]⟩ 2 = .ok (-(2 ^ 24 + 500000)) ∧
      timeFromLonglongTimePacked (-(2 ^ 24 + 500000)) = ⟨0, 0, 0, 0, 0, 1, 500000, true⟩ := by
  have ht : TimeOk ⟨0, 0, 0, 0, 0, 1, 500000, true⟩ 2 :=
    ⟨⟨rfl, rfl, rfl⟩, by norm_num, by norm_num, by norm_num, by norm_num, by norm_num, by norm_num⟩
  exact time2_round_trip ht 0 [7]

end DataSync.Binlog.MyTime
