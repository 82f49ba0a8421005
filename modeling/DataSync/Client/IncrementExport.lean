import DataSync.Lib.Memory
import DataSync.Lib.Tiling

/-! # The polled time windows

`increment_export.cpp`: every table of `tableinfo.xml` has the timestamp it was polled up to. A run polls
each table from one period before the timestamp of the first table to its own, and on success sets all
timestamps to that of the first one plus a period. Timestamps are texts; they are read at fixed positions
and written without leading zeros, which `GetWriteXmlTime` puts back.

`localtime`, `mktime` and the instants the database takes timestamps for are a `Clock`; what is assumed of
it is said by `Clock.Knows`, of one instant at a time. `readData_spec` is one run and `polls_windows` a
sequence of runs; `tiles_iff` says when the windows of every table tile the time. -/

namespace DataSync.Client.IncrementExport

open DataSync.Lib.Words DataSync.Lib.Memory DataSync.Lib.Tiling

/-- A text, by its characters. -/
abbrev Text := List Char

/-- `struct tm`, without the fields that are not used. -/
structure Tm where
  year : ℤ
  mon : ℤ
  mday : ℤ
  hour : ℤ
  min : ℤ
  sec : ℤ
  deriving DecidableEq, Repr

/-- `localtime` and `mktime`, and the instant the database takes a timestamp for. -/
structure Clock where
  localtime : ℤ → Option Tm
  mktime : Tm → ℤ
  instant : Text → ℤ

/-! ### Texts -/

/-- The format `%d`. -/
def decimal (i : ℤ) : Text :=
  if i < 0 then '-' :: Nat.toDigits 10 i.natAbs else Nat.toDigits 10 i.natAbs

/-- `atoi`. -/
def atoi (s : Text) : ℤ :=
  let number (ds : Text) : ℕ := Nat.ofDigitChars 10 (ds.takeWhile Char.isDigit) 0
  match s.dropWhile fun c => c ∈ [' ', '\t', '\n', '\x0b', '\x0c', '\r'] with
  | '-' :: ds => -number ds
  | '+' :: ds => number ds
  | ds => number ds

/-- `string::npos`. -/
def npos : ℕ := 2 ^ 32 - 1

/-- `find` of a character. -/
def find (s : Text) (c : Char) : ℕ := if c ∈ s then s.idxOf c else npos

/-- `find_last_of` a character. -/
def findLastOf (s : Text) (c : Char) : ℕ := if c ∈ s then s.length - 1 - s.reverse.idxOf c else npos

/-- Subtraction of `size_t`. -/
def minus (a b : ℕ) : ℕ := (a + 2 ^ 32 - b) % 2 ^ 32

/-- Addition of `size_t`. -/
def plus (a b : ℕ) : ℕ := (a + b) % 2 ^ 32

/-- `substr`; a position behind the end is an exception nobody catches. -/
def substr (s : Text) (pos n : ℕ) : Res Text :=
  if s.length < pos then .error .fault else .ok ((s.drop pos).take n)

/-- A zero before a part that has not two characters. -/
def pad (s : Text) : Text := if s.length ≠ 2 then '0' :: s else s

/-- An `int` or `long`, of 32 bits: an overflow is undefined. -/
def int (x : ℤ) : Res ℤ := if -2 ^ 31 ≤ x ∧ x < 2 ^ 31 then .ok x else .error .fault

/-! ### Timestamps -/

/-- The text of a local time, as `GetStrFromTime` writes it. -/
def format (tm : Tm) : Text :=
  decimal (tm.year + 1900) ++ '-' :: (decimal (tm.mon + 1) ++ '-' :: (decimal tm.mday ++ ' ' ::
    (decimal tm.hour ++ ':' :: (decimal tm.min ++ ':' :: decimal tm.sec))))

/-- `GetStrFromTime`. A null pointer is no text, and the buffer has 24 bytes. -/
def getStrFromTime (clock : Clock) (iTimeStamp : ℤ) : Res Text := do
  let tm ← Res.ofOption (clock.localtime iTimeStamp)
  if 24 ≤ (format tm).length then throw .fault
  return format tm

/-- A number at fixed positions of a C string. -/
def fieldAt (s : Text) (ks : List ℕ) : Res ℤ :=
  atoi <$> ks.mapM fun k => Res.ofOption (s ++ ['\x00'])[k]?

/-- `GetTimeStampByStr`, an `unsigned int`. -/
def getTimeStampByStr (clock : Clock) (pDate : Text) : Res ℕ := do
  let year ← fieldAt pDate [0, 1, 2, 3]
  let mon ← fieldAt pDate [5, 6]
  let mday ← fieldAt pDate [8, 9]
  let hour ← fieldAt pDate [11, 12]
  let min ← fieldAt pDate [14, 15]
  let sec ← fieldAt pDate [17, 18]
  return (clock.mktime ⟨year - 1900, mon - 1, mday, hour, min, sec⟩ % 2 ^ 32).toNat

/-- `GetWriteXmlTime`. -/
def getWriteXmlTime (sTime : Text) : Res Text := do
  if sTime.length = 19 then return sTime
  let temp ← substr sTime (plus (find sTime ':') 1) (minus (minus sTime.length (find sTime ':')) 1)
  let syear ← substr sTime 0 4
  let smon ← substr sTime 5 (minus (findLastOf sTime '-') 5)
  let sday ← substr sTime (plus (findLastOf sTime '-') 1)
    (minus (minus (find sTime ' ') (findLastOf sTime '-')) 1)
  let shour ← substr sTime (plus (find sTime ' ') 1) (minus (minus (find sTime ':') (find sTime ' ')) 1)
  let smin ← substr temp 0 (find temp ':')
  let ssec ← substr sTime (plus (findLastOf sTime ':') 1)
    (minus (minus sTime.length (findLastOf sTime ':')) 1)
  return syear ++ '-' :: (pad smon ++ '-' :: (pad sday ++ ' ' :: (pad shour ++ ':' :: (pad smin ++ ':' ::
    pad ssec))))

/-! ### The polling -/

/-- A table of `tableinfo.xml`. -/
structure Table where
  name : String
  timestamp : Text
  deriving DecidableEq, Repr

/-- `tableinfo.xml`, as `InitConfig` reads it. -/
structure Config where
  periodTime : ℤ
  tables : List Table
  deriving DecidableEq, Repr

/-- A query for the rows of a table in a time window. -/
structure Select where
  table : String
  lower : Text
  upper : Text
  deriving DecidableEq, Repr

/-- The text of the query. -/
def Select.sql (w : Select) : String :=
  "select * from " ++ w.table ++ " where hm_update_timestamp >'" ++ String.ofList w.lower ++
    "' and hm_update_timestamp <='" ++ String.ofList w.upper ++ "'"

/-- The text of the query for the columns of a table. -/
def columnSql (table : String) : String :=
  "select COLUMN_NAME from information_schema.COLUMNS where table_name='" ++ table ++ "'"

/-- The timestamp of the first table, as an `int`. -/
def firstTime (clock : Clock) (cfg : Config) : Res ℤ := do
  let first ← Res.ofOption cfg.tables.head?
  return toSigned 32 (← getTimeStampByStr clock first.timestamp)

/-- The text of the time so many periods before that of the first table. -/
def timeBefore (clock : Clock) (cfg : Config) (periods : ℤ) : Res Text := do
  let nTime ← firstTime clock cfg
  let nTime ← int (nTime - (← int (cfg.periodTime * periods)))
  getStrFromTime clock nTime

/-- The queries of `GetSelectSql` for the current window: from one period before the timestamp of the
first table to that of each. -/
def currentSelects (clock : Clock) (cfg : Config) : Res (List Select) :=
  cfg.tables.mapM fun t => do return ⟨t.name, ← timeBefore clock cfg 1, t.timestamp⟩

/-- The queries of `GetSelectSql` for the window before. -/
def earlierSelects (clock : Clock) (cfg : Config) : Res (List Select) :=
  cfg.tables.mapM fun t => do
    let preQueryTime ← timeBefore clock cfg 2
    return ⟨t.name, ← timeBefore clock cfg 4, preQueryTime⟩

/-- `GetSelectSql`: the queries for the columns and those for the rows. -/
def getSelectSql (clock : Clock) (cfg : Config) : Res (List String × List String) := do
  let current ← currentSelects clock cfg
  let earlier ← earlierSelects clock cfg
  return (cfg.tables.map fun t => columnSql t.name, (current ++ earlier).map Select.sql)

/-- `WriteTimeUpdateXML`. -/
def writeTimeUpdateXML (tableName : String) (keyValues : Text) (tables : List Table) : List Table :=
  tables.map fun t => if t.name = tableName then { t with timestamp := keyValues } else t

/-- `InitConfig` and `readData`: the file behind a run, given what `execMutilSql` makes of its
queries. -/
def readData (clock : Clock) (execMutilSql : List String → List String → List String → Bool) (cfg : Config) :
    Res Config := do
  if cfg.tables.length = 0 then return cfg
  let (strSelectKeyTemp, strSelectValuesTemp) ← getSelectSql clock cfg
  if execMutilSql strSelectValuesTemp strSelectKeyTemp (cfg.tables.map Table.name) then
    let nTime ← int ((← firstTime clock cfg) + cfg.periodTime)
    let strQueryTime ← getWriteXmlTime (← getStrFromTime clock nTime)
    return { cfg with
      tables := cfg.tables.foldl (fun tables t => writeTimeUpdateXML t.name strQueryTime tables) cfg.tables }
  else return cfg

/-- The queries for the current window in so many successful runs. -/
def polls (clock : Clock) : ℕ → Config → Res (List (List Select))
  | 0, _ => .ok []
  | n + 1, cfg => do
    let current ← currentSelects clock cfg
    let cfg ← readData clock (fun _ _ _ => true) cfg
    return current :: (← polls clock n cfg)

/-- The windows of one table in a sequence of runs, by the instants the database takes their bounds for. -/
def windowsOf (clock : Clock) (runs : List (List Select)) (j : ℕ) : List (Window ℤ) :=
  runs.filterMap fun run => run[j]?.map fun w => ⟨clock.instant w.lower, clock.instant w.upper⟩

/-! ### Texts of timestamps -/

/-- The text has digits only. -/
def Digits (s : Text) : Prop := ∀ c ∈ s, c.isDigit = true

theorem find_append {xs ys : Text} {c : Char} (h : c ∉ xs) : find (xs ++ c :: ys) c = xs.length := by
  rw [find, if_pos (by simp), List.idxOf_append_of_notMem h, List.idxOf_cons_self, Nat.add_zero]

theorem findLastOf_append {xs ys : Text} {c : Char} (h : c ∉ ys) :
    findLastOf (xs ++ c :: ys) c = xs.length := by
  have hrev : (xs ++ c :: ys).reverse = ys.reverse ++ c :: xs.reverse := by simp
  rw [findLastOf, if_pos (by simp), hrev, List.idxOf_append_of_notMem (by simpa using h),
    List.idxOf_cons_self, List.length_append, List.length_cons, List.length_reverse]
  omega

theorem substr_part {s : Text} (xs ys zs : Text) (hs : s = xs ++ (ys ++ zs)) {pos n : ℕ}
    (hpos : pos = xs.length) (hn : n = ys.length) : substr s pos n = .ok ys := by
  subst hs hpos hn
  rw [substr, if_neg (by simp), List.drop_left, List.take_left]

theorem not_mem_of_digits {s : Text} (h : Digits s) {c : Char} (hc : c.isDigit = false) : c ∉ s := by
  intro hmem
  rw [h c hmem] at hc
  cases hc

/-- Six parts, one behind the other as in a timestamp. -/
def joined (y mo d h mi s : Text) : Text :=
  y ++ '-' :: (mo ++ '-' :: (d ++ ' ' :: (h ++ ':' :: (mi ++ ':' :: s))))

/-- The parts of a timestamp: a year of four digits, and five parts of at most two. -/
structure Parts (y mo d h mi s : Text) : Prop where
  year : y.length = 4
  short : mo.length ≤ 2 ∧ d.length ≤ 2 ∧ h.length ≤ 2 ∧ mi.length ≤ 2 ∧ s.length ≤ 2
  digits : Digits y ∧ Digits mo ∧ Digits d ∧ Digits h ∧ Digits mi ∧ Digits s

section Parts
variable {y mo d h mi s : Text} (hp : Parts y mo d h mi s)
include hp

theorem Parts.length_joined : (joined y mo d h mi s).length =
    9 + mo.length + d.length + h.length + mi.length + s.length := by
  have hy := hp.year
  simp only [joined, List.length_append, List.length_cons]
  omega

/-- Where `GetWriteXmlTime` finds the separators. -/
theorem Parts.positions : find (joined y mo d h mi s) ':' = 7 + mo.length + d.length + h.length ∧
    findLastOf (joined y mo d h mi s) ':' = 8 + mo.length + d.length + h.length + mi.length ∧
    findLastOf (joined y mo d h mi s) '-' = 5 + mo.length ∧
    find (joined y mo d h mi s) ' ' = 6 + mo.length + d.length := by
  have hy := hp.year
  obtain ⟨dy, dmo, dd, dh, dmi, ds⟩ := hp.digits
  have hno : ∀ {part : Text}, Digits part → '-' ∉ part ∧ ' ' ∉ part ∧ ':' ∉ part := fun hpart =>
    ⟨not_mem_of_digits hpart rfl, not_mem_of_digits hpart rfl, not_mem_of_digits hpart rfl⟩
  refine ⟨?_, ?_, ?_, ?_⟩
  · have hsplit : joined y mo d h mi s =
        (y ++ '-' :: (mo ++ '-' :: (d ++ ' ' :: h))) ++ ':' :: (mi ++ ':' :: s) := by simp [joined]
    rw [hsplit, find_append (by simp [hno dy, hno dmo, hno dd, hno dh])]
    simp only [List.length_append, List.length_cons]
    omega
  · have hsplit : joined y mo d h mi s =
        (y ++ '-' :: (mo ++ '-' :: (d ++ ' ' :: (h ++ ':' :: mi)))) ++ ':' :: s := by simp [joined]
    rw [hsplit, findLastOf_append (hno ds).2.2]
    simp only [List.length_append, List.length_cons]
    omega
  · have hsplit : joined y mo d h mi s =
        (y ++ '-' :: mo) ++ '-' :: (d ++ ' ' :: (h ++ ':' :: (mi ++ ':' :: s))) := by simp [joined]
    rw [hsplit, findLastOf_append (by simp [hno dd, hno dh, hno dmi, hno ds])]
    simp only [List.length_append, List.length_cons]
    omega
  · have hsplit : joined y mo d h mi s =
        (y ++ '-' :: (mo ++ '-' :: d)) ++ ' ' :: (h ++ ':' :: (mi ++ ':' :: s)) := by simp [joined]
    rw [hsplit, find_append (by simp [hno dy, hno dmo, hno dd])]
    simp only [List.length_append, List.length_cons]
    omega

/-- The date between these separators. -/
theorem Parts.date : substr (joined y mo d h mi s) 0 4 = .ok y ∧
    substr (joined y mo d h mi s) 5 (minus (5 + mo.length) 5) = .ok mo ∧
    substr (joined y mo d h mi s) (plus (5 + mo.length) 1)
      (minus (minus (6 + mo.length + d.length) (5 + mo.length)) 1) = .ok d := by
  have hy := hp.year
  have hshort := hp.short
  refine ⟨?_, ?_, ?_⟩
  · exact substr_part [] y _ rfl rfl hy.symm
  · refine substr_part (y ++ ['-']) mo ('-' :: (d ++ ' ' :: (h ++ ':' :: (mi ++ ':' :: s))))
      (by simp [joined]) (by simp [hy]) ?_
    simp only [minus]
    omega
  · refine substr_part (y ++ '-' :: (mo ++ ['-'])) d (' ' :: (h ++ ':' :: (mi ++ ':' :: s)))
      (by simp [joined]) ?_ ?_
    · simp only [plus, List.length_append, List.length_cons, List.length_nil]
      omega
    · simp only [minus]
      omega

/-- The time between these separators, and what stands behind the hour. -/
theorem Parts.time : substr (joined y mo d h mi s) (plus (6 + mo.length + d.length) 1)
      (minus (minus (7 + mo.length + d.length + h.length) (6 + mo.length + d.length)) 1) = .ok h ∧
    substr (joined y mo d h mi s) (plus (7 + mo.length + d.length + h.length) 1)
      (minus (minus (joined y mo d h mi s).length (7 + mo.length + d.length + h.length)) 1) =
      .ok (mi ++ ':' :: s) ∧
    substr (joined y mo d h mi s) (plus (8 + mo.length + d.length + h.length + mi.length) 1)
      (minus (minus (joined y mo d h mi s).length (8 + mo.length + d.length + h.length + mi.length)) 1) =
      .ok s := by
  have hy := hp.year
  have hshort := hp.short
  have hsize := hp.length_joined
  refine ⟨?_, ?_, ?_⟩
  · refine substr_part (y ++ '-' :: (mo ++ '-' :: (d ++ [' ']))) h (':' :: (mi ++ ':' :: s))
      (by simp [joined]) ?_ ?_
    · simp only [plus, List.length_append, List.length_cons, List.length_nil]
      omega
    · simp only [minus]
      omega
  · refine substr_part (y ++ '-' :: (mo ++ '-' :: (d ++ ' ' :: (h ++ [':'])))) (mi ++ ':' :: s) []
      (by simp [joined]) ?_ ?_
    · simp only [plus, List.length_append, List.length_cons, List.length_nil]
      omega
    · simp only [minus, List.length_append, List.length_cons]
      omega
  · refine substr_part (y ++ '-' :: (mo ++ '-' :: (d ++ ' ' :: (h ++ ':' :: (mi ++ [':']))))) s []
      (by simp [joined]) ?_ ?_
    · simp only [plus, List.length_append, List.length_cons, List.length_nil]
      omega
    · simp only [minus]
      omega

/-- `GetWriteXmlTime` pads the parts of a timestamp. -/
theorem getWriteXmlTime_parts : getWriteXmlTime (joined y mo d h mi s) =
    .ok (joined y (pad mo) (pad d) (pad h) (pad mi) (pad s)) := by
  have hsize := hp.length_joined
  have hshort := hp.short
  unfold getWriteXmlTime
  by_cases hfull : (joined y mo d h mi s).length = 19
  · -- every part has two characters already
    have hpad : ∀ part : Text, part.length = 2 → pad part = part := fun part hpart => if_neg (by omega)
    rw [if_pos hfull, hpad mo (by omega), hpad d (by omega), hpad h (by omega), hpad mi (by omega),
      hpad s (by omega)]
    rfl
  · obtain ⟨hcolon, hlastColon, hlastDash, hspace⟩ := hp.positions
    obtain ⟨hyear, hmonth, hday⟩ := hp.date
    obtain ⟨hhour, htemp, hsecond⟩ := hp.time
    have hfind : find (mi ++ ':' :: s) ':' = mi.length :=
      find_append (not_mem_of_digits hp.digits.2.2.2.2.1 rfl)
    have hminute : substr (mi ++ ':' :: s) 0 mi.length = .ok mi :=
      substr_part [] mi (':' :: s) rfl rfl rfl
    rw [if_neg hfull, hcolon, hlastColon, hlastDash, hspace]
    simp only [htemp, hyear, hmonth, hday, hhour, hfind, hminute, hsecond, Res.ok_bind, Res.pure_eq]
    rfl

end Parts

/-- The fields of a local time are in their ranges, and the year has four digits. -/
structure Tm.Valid (tm : Tm) : Prop where
  year : 1000 ≤ tm.year + 1900 ∧ tm.year + 1900 < 10000
  mon : 0 ≤ tm.mon ∧ tm.mon < 12
  mday : 1 ≤ tm.mday ∧ tm.mday ≤ 31
  hour : 0 ≤ tm.hour ∧ tm.hour < 24
  min : 0 ≤ tm.min ∧ tm.min < 60
  sec : 0 ≤ tm.sec ∧ tm.sec ≤ 60

/-- The text of a local time with two digits in every part but the year. -/
def padded (tm : Tm) : Text :=
  decimal (tm.year + 1900) ++ '-' :: (pad (decimal (tm.mon + 1)) ++ '-' :: (pad (decimal tm.mday) ++ ' ' ::
    (pad (decimal tm.hour) ++ ':' :: (pad (decimal tm.min) ++ ':' :: pad (decimal tm.sec)))))

/-- The digit of a number below ten. -/
theorem isDigit_digitChar {n : ℕ} (h : n < 10) : (Nat.digitChar n).isDigit = true := by
  rw [Nat.isDigit_digitChar, decide_eq_true h]

theorem decimal_one {n : ℕ} (h : n < 10) : decimal n = [Nat.digitChar n] := by
  rw [decimal, if_neg (by omega), Int.natAbs_natCast, Nat.toDigits_of_lt_base h]

theorem decimal_two {n : ℕ} (h1 : 10 ≤ n) (h : n < 100) :
    decimal n = [Nat.digitChar (n / 10), Nat.digitChar (n % 10)] := by
  rw [decimal, if_neg (by omega), Int.natAbs_natCast, Nat.toDigits_of_base_le (by norm_num) h1,
    Nat.toDigits_of_lt_base (by omega)]
  rfl

theorem decimal_four {n : ℕ} (h1 : 1000 ≤ n) (h : n < 10000) : decimal n =
    [Nat.digitChar (n / 1000), Nat.digitChar (n / 100 % 10), Nat.digitChar (n / 10 % 10),
      Nat.digitChar (n % 10)] := by
  rw [decimal, if_neg (by omega), Int.natAbs_natCast, Nat.toDigits_of_base_le (by norm_num) (by omega),
    Nat.toDigits_of_base_le (by norm_num) (by omega), Nat.toDigits_of_base_le (by norm_num) (by omega),
    Nat.toDigits_of_lt_base (by omega)]
  simp only [Nat.div_div_eq_div_mul, Nat.reduceMul, List.cons_append, List.nil_append]

/-- A part of two digits at most, padded. -/
theorem pad_decimal {n : ℕ} (h : n < 100) :
    pad (decimal n) = [Nat.digitChar (n / 10), Nat.digitChar (n % 10)] := by
  rcases Nat.lt_or_ge n 10 with h1 | h1
  · rw [decimal_one h1, pad, if_pos (by simp), Nat.div_eq_of_lt h1, Nat.mod_eq_of_lt h1]
    rfl
  · rw [decimal_two h1 h]
    rfl

theorem decimal_part {n : ℕ} (h : n < 100) : (decimal n).length ≤ 2 ∧ Digits (decimal n) := by
  rcases Nat.lt_or_ge n 10 with h1 | h1
  · rw [decimal_one h1]
    refine ⟨by simp, ?_⟩
    rintro c hc
    rw [List.mem_singleton.mp hc]
    exact isDigit_digitChar h1
  · rw [decimal_two h1 h]
    refine ⟨by simp, ?_⟩
    rintro c hc
    rcases List.mem_pair.mp hc with rfl | rfl
    · exact isDigit_digitChar (by omega)
    · exact isDigit_digitChar (by omega)

/-- `atoi` of digits. -/
theorem atoi_digits {c : Char} {s : Text} (h : Digits (c :: s)) :
    atoi (c :: s) = Nat.ofDigitChars 10 (c :: s) 0 := by
  have hc := h c List.mem_cons_self
  have hspace : ¬ c ∈ [' ', '\t', '\n', '\x0b', '\x0c', '\r'] := by
    intro hmem
    have hno : ∀ x ∈ [' ', '\t', '\n', '\x0b', '\x0c', '\r'], x.isDigit = false := by simp [Char.isDigit]
    rw [hno c hmem] at hc
    cases hc
  have htake : (c :: s).takeWhile Char.isDigit = c :: s :=
    List.takeWhile_eq_self_iff.mpr h
  unfold atoi
  rw [List.dropWhile_cons_of_neg (by simpa using hspace)]
  split
  · next heq =>
    obtain ⟨rfl, rfl⟩ := List.cons.inj heq
    cases hc
  · next heq =>
    obtain ⟨rfl, rfl⟩ := List.cons.inj heq
    cases hc
  · dsimp only
    rw [htake]

theorem atoi_two {n : ℕ} (h : n < 100) : atoi [Nat.digitChar (n / 10), Nat.digitChar (n % 10)] = n := by
  rw [atoi_digits]
  · rw [Nat.ofDigitChars_cons_digitChar_of_lt_ten (by omega),
      Nat.ofDigitChars_cons_digitChar_of_lt_ten (by omega), Nat.ofDigitChars_nil]
    omega
  · rintro c hc
    rcases List.mem_pair.mp hc with rfl | rfl
    · exact isDigit_digitChar (by omega)
    · exact isDigit_digitChar (by omega)

theorem atoi_four {n : ℕ} (h : n < 10000) :
    atoi [Nat.digitChar (n / 1000), Nat.digitChar (n / 100 % 10), Nat.digitChar (n / 10 % 10),
      Nat.digitChar (n % 10)] = n := by
  rw [atoi_digits]
  · rw [Nat.ofDigitChars_cons_digitChar_of_lt_ten (by omega),
      Nat.ofDigitChars_cons_digitChar_of_lt_ten (by omega),
      Nat.ofDigitChars_cons_digitChar_of_lt_ten (by omega),
      Nat.ofDigitChars_cons_digitChar_of_lt_ten (by omega), Nat.ofDigitChars_nil]
    omega
  · rintro c hc
    simp only [List.mem_cons, List.not_mem_nil, or_false] at hc
    rcases hc with rfl | rfl | rfl | rfl <;> exact isDigit_digitChar (by omega)

/-- The numbers of a valid local time. -/
theorem Tm.Valid.numbers {tm : Tm} (h : tm.Valid) : ∃ y mo d hh mi s : ℕ,
    (1000 ≤ y ∧ y < 10000 ∧ mo < 100 ∧ d < 100 ∧ hh < 100 ∧ mi < 100 ∧ s < 100) ∧
      tm = ⟨y - 1900, mo - 1, d, hh, mi, s⟩ := by
  obtain ⟨hy, hmo, hd, hh, hmi, hs⟩ := h
  refine ⟨(tm.year + 1900).toNat, (tm.mon + 1).toNat, tm.mday.toNat, tm.hour.toNat, tm.min.toNat,
    tm.sec.toNat, by omega, ?_⟩
  rcases tm with ⟨year, mon, mday, hour, min, sec⟩
  simp only [Tm.mk.injEq]
  dsimp only at hy hmo hd hh hmi hs
  omega

/-- **A timestamp with leading zeros** is what `GetWriteXmlTime` makes of the one without. -/
theorem getWriteXmlTime_format {tm : Tm} (h : tm.Valid) : getWriteXmlTime (format tm) = .ok (padded tm) := by
  obtain ⟨y, mo, d, hh, mi, s, ⟨hy1, hy2, hmo, hd, hhh, hmi, hs⟩, rfl⟩ := h.numbers
  unfold format padded
  simp only [sub_add_cancel]
  have hyear : Digits (decimal y) := by
    rw [decimal_four hy1 hy2]
    rintro c hc
    simp only [List.mem_cons, List.not_mem_nil, or_false] at hc
    rcases hc with rfl | rfl | rfl | rfl <;> exact isDigit_digitChar (by omega)
  obtain ⟨hmo1, hmo2⟩ := decimal_part hmo
  obtain ⟨hd1, hd2⟩ := decimal_part hd
  obtain ⟨hh1, hh2⟩ := decimal_part hhh
  obtain ⟨hmi1, hmi2⟩ := decimal_part hmi
  obtain ⟨hs1, hs2⟩ := decimal_part hs
  exact getWriteXmlTime_parts ⟨by rw [decimal_four hy1 hy2]; rfl, ⟨hmo1, hd1, hh1, hmi1, hs1⟩,
    hyear, hmo2, hd2, hh2, hmi2, hs2⟩

/-- **The characters** of a timestamp with leading zeros, and the numbers they are. -/
theorem padded_chars {tm : Tm} (h : tm.Valid) : ∃ y1 y2 y3 y4 m1 m2 d1 d2 h1 h2 i1 i2 s1 s2 : Char,
    padded tm = [y1, y2, y3, y4] ++ '-' :: ([m1, m2] ++ '-' :: ([d1, d2] ++ ' ' :: ([h1, h2] ++ ':' ::
      ([i1, i2] ++ ':' :: [s1, s2])))) ∧
    (⟨atoi [y1, y2, y3, y4] - 1900, atoi [m1, m2] - 1, atoi [d1, d2], atoi [h1, h2], atoi [i1, i2],
      atoi [s1, s2]⟩ : Tm) = tm := by
  obtain ⟨y, mo, d, hh, mi, s, ⟨hy1, hy2, hmo, hd, hhh, hmi, hs⟩, rfl⟩ := h.numbers
  unfold padded
  simp only [sub_add_cancel]
  rw [decimal_four hy1 hy2, pad_decimal hmo, pad_decimal hd, pad_decimal hhh, pad_decimal hmi,
    pad_decimal hs]
  refine ⟨_, _, _, _, _, _, _, _, _, _, _, _, _, _, rfl, ?_⟩
  rw [atoi_four hy2, atoi_two hmo, atoi_two hd, atoi_two hhh, atoi_two hmi, atoi_two hs]

/-- **Reading it back** at fixed positions gives the fields. -/
theorem getTimeStampByStr_padded (clock : Clock) {tm : Tm} (h : tm.Valid) :
    getTimeStampByStr clock (padded tm) = .ok (clock.mktime tm % 2 ^ 32).toNat := by
  obtain ⟨y1, y2, y3, y4, m1, m2, d1, d2, h1, h2, i1, i2, s1, s2, hpadded, htm⟩ := padded_chars h
  rw [hpadded, ← htm]
  rfl

/-! ### One run -/

/-- The instant has a local time that `mktime` takes back to it, and the database takes the text of that
local time for it, with leading zeros and without. -/
structure Clock.Knows (clock : Clock) (t : ℤ) : Prop where
  range : 0 ≤ t ∧ t < 2 ^ 31
  civil : ∃ tm, clock.localtime t = some tm ∧ tm.Valid ∧ clock.mktime tm = t ∧
    clock.instant (format tm) = t ∧ clock.instant (padded tm) = t

/-- The clock knows the instants that so many runs compute from the timestamp of the first table. -/
def Involved (clock : Clock) (cfg : Config) (n : ℕ) : Prop :=
  ∀ t, firstTime clock cfg = .ok t → ∀ i : ℤ, -4 ≤ i → i ≤ n → clock.Knows (t + i * cfg.periodTime)

section Run
variable {clock : Clock} {cfg cfg' : Config} {t : ℤ}

/-- The text of an instant stands for it. -/
theorem getStrFromTime_instant (ht : clock.Knows t) {text : Text} (h : getStrFromTime clock t = .ok text) :
    clock.instant text = t := by
  obtain ⟨tm, htm, hvalid, -, hinstant, -⟩ := ht.civil
  unfold getStrFromTime at h
  rw [htm, Res.ofOption_some, Res.ok_bind] at h
  split_ifs at h
  · cases h
  · obtain rfl := Except.ok.inj h
    exact hinstant

/-- The text written back to the file stands for the instant, for the database as for
`GetTimeStampByStr`. -/
theorem getWriteXmlTime_instant (ht : clock.Knows t) {text : Text}
    (h : (getStrFromTime clock t >>= getWriteXmlTime) = .ok text) :
    clock.instant text = t ∧ (getTimeStampByStr clock text).map (toSigned 32) = .ok t := by
  obtain ⟨tm, htm, hvalid, hmktime, -, hinstant⟩ := ht.civil
  have hrange := ht.range
  unfold getStrFromTime at h
  rw [htm, Res.ofOption_some, Res.ok_bind] at h
  split_ifs at h
  · cases h
  · rw [Res.pure_eq, Res.ok_bind, getWriteXmlTime_format hvalid] at h
    obtain rfl := Except.ok.inj h
    refine ⟨hinstant, ?_⟩
    have hnat : (t % 2 ^ 32).toNat = t.toNat := by omega
    rw [getTimeStampByStr_padded clock hvalid, hmktime, hnat]
    show Except.ok (toSigned 32 t.toNat) = _
    rw [toSigned_of_lt (by norm_num) (by omega), Int.toNat_of_nonneg hrange.1]

/-- All tables are written back, whatever their names are. -/
theorem foldl_writeTimeUpdateXML (text : Text) (tables : List Table) :
    tables.foldl (fun xml t => writeTimeUpdateXML t.name text xml) tables =
      tables.map fun t => { t with timestamp := text } := by
  suffices hsome : ∀ done xml : List Table, done.foldl (fun xml t => writeTimeUpdateXML t.name text xml) xml =
      xml.map fun t => if t.name ∈ done.map Table.name then { t with timestamp := text } else t by
    rw [hsome]
    refine List.map_congr_left fun t ht => if_pos (List.mem_map_of_mem ht)
  intro done
  induction done with
  | nil => simp
  | cons d done ih =>
    intro xml
    rw [List.foldl_cons, ih, writeTimeUpdateXML, List.map_map]
    refine List.map_congr_left fun t _ => ?_
    by_cases hname : t.name = d.name
    · simp [hname]
    · simp [hname]

theorem int_eq_ok {x y : ℤ} (h : int x = .ok y) : y = x := by
  unfold int at h
  split_ifs at h
  exact (Except.ok.inj h).symm

/-- The lower bound of the current window stands for one period before the time of the first table. -/
theorem timeBefore_one (ht : firstTime clock cfg = .ok t) (hknows : clock.Knows (t - cfg.periodTime))
    {text : Text} (h : timeBefore clock cfg 1 = .ok text) : clock.instant text = t - cfg.periodTime := by
  unfold timeBefore at h
  rw [ht, Res.ok_bind] at h
  obtain ⟨period, hperiod, h⟩ := Res.bind_eq_ok.mp h
  obtain ⟨nTime, hnTime, h⟩ := Res.bind_eq_ok.mp h
  obtain rfl := int_eq_ok hperiod
  obtain rfl := int_eq_ok hnTime
  rw [mul_one] at h
  exact getStrFromTime_instant hknows h

/-- The bounds of the current window of every table. -/
theorem currentSelects_spec (ht : firstTime clock cfg = .ok t) (hknows : clock.Knows (t - cfg.periodTime))
    {current : List Select} (h : currentSelects clock cfg = .ok current) :
    current.map (fun w => (⟨clock.instant w.lower, clock.instant w.upper⟩ : Window ℤ)) =
      cfg.tables.map fun table => ⟨t - cfg.periodTime, clock.instant table.timestamp⟩ := by
  have hall := Res.mapM_eq_ok h
  clear h
  generalize cfg.tables = tables at hall ⊢
  induction hall with
  | nil => rfl
  | cons hw _ ih =>
    obtain ⟨lower, hlower, hw⟩ := Res.bind_eq_ok.mp hw
    obtain rfl := Except.ok.inj hw
    rw [List.map_cons, List.map_cons, ih, timeBefore_one ht hknows hlower]

theorem firstTime_of_readData (hne : cfg.tables ≠ []) (h : readData clock (fun _ _ _ => true) cfg = .ok cfg') :
    ∃ t, firstTime clock cfg = .ok t := by
  unfold readData at h
  rw [if_neg (fun hnil => hne (List.length_eq_zero_iff.mp hnil))] at h
  obtain ⟨_, -, h⟩ := Res.bind_eq_ok.mp h
  simp only [if_true] at h
  obtain ⟨t, ht, -⟩ := Res.bind_eq_ok.mp h
  exact ⟨t, ht⟩

/-- **A successful run** sets all timestamps to that of the first table plus a period. -/
theorem readData_spec (ht : firstTime clock cfg = .ok t) (hknows : clock.Knows (t + cfg.periodTime))
    (h : readData clock (fun _ _ _ => true) cfg = .ok cfg') :
    ∃ text, clock.instant text = t + cfg.periodTime ∧ firstTime clock cfg' = .ok (t + cfg.periodTime) ∧
      cfg' = ⟨cfg.periodTime, cfg.tables.map fun table => { table with timestamp := text }⟩ := by
  have hne : ∃ first, cfg.tables.head? = some first := by
    obtain ⟨first, hfirst, -⟩ := Res.bind_eq_ok.mp ht
    exact ⟨first, Res.ofOption_eq_ok.mp hfirst⟩
  obtain ⟨first, hfirst⟩ := hne
  have hsize : cfg.tables.length ≠ 0 := by
    rintro hnil
    rw [List.length_eq_zero_iff.mp hnil] at hfirst
    cases hfirst
  unfold readData at h
  rw [if_neg hsize] at h
  obtain ⟨_, -, h⟩ := Res.bind_eq_ok.mp h
  simp only [if_true] at h
  rw [ht, Res.ok_bind] at h
  obtain ⟨nTime, hnTime, h⟩ := Res.bind_eq_ok.mp h
  obtain rfl := int_eq_ok hnTime
  obtain ⟨strTime, hstr, h⟩ := Res.bind_eq_ok.mp h
  obtain ⟨text, htext, h⟩ := Res.bind_eq_ok.mp h
  obtain rfl := Except.ok.inj h
  obtain ⟨hinstant, hread⟩ := getWriteXmlTime_instant hknows
    (show (getStrFromTime clock (t + cfg.periodTime) >>= getWriteXmlTime) = .ok text by
      rw [hstr, Res.ok_bind, htext])
  refine ⟨text, hinstant, ?_, by rw [foldl_writeTimeUpdateXML]⟩
  rw [firstTime, foldl_writeTimeUpdateXML, List.head?_map, hfirst]
  simp only [Option.map_some, Res.ofOption_some, Res.ok_bind]
  exact hread

end Run

/-! ### A sequence of runs -/

/-- Windows of the length of a period, one behind the other. -/
def grid (t p : ℤ) : ℕ → List (Window ℤ)
  | 0 => []
  | n + 1 => ⟨t, t + p⟩ :: grid (t + p) p n

theorem grid_contiguous (t p : ℤ) (n : ℕ) : Contiguous (grid t p n) := by
  induction n generalizing t with
  | zero => exact List.IsChain.nil
  | succ n ih =>
    rcases n with _ | n
    · exact List.IsChain.singleton _
    · exact List.isChain_cons_cons.mpr ⟨rfl, ih (t + p)⟩

theorem grid_bounds (t p : ℤ) (n : ℕ) : (∀ w ∈ grid t p n, w.upper = w.lower + p) ∧
    (∀ w ∈ (grid t p n).head?, w.lower = t) ∧ ∀ w ∈ (grid t p n).getLast?, w.upper = t + n * p := by
  induction n generalizing t with
  | zero => simp [grid]
  | succ n ih =>
    obtain ⟨hlength, -, hlast⟩ := ih (t + p)
    refine ⟨?_, ?_, ?_⟩
    · rw [grid, List.forall_mem_cons]
      exact ⟨rfl, hlength⟩
    · rintro w hw
      obtain rfl := Option.some.inj hw
      rfl
    · rcases n with _ | n
      · rintro w hw
        obtain rfl : (⟨t, t + p⟩ : Window ℤ) = w := Option.some.inj hw
        simp
      · rintro w hw
        rw [grid, grid, List.getLast?_cons_cons] at hw
        rw [hlast w hw]
        push_cast
        ring

/-- Such windows tile the time between their outer bounds. -/
theorem grid_tiles (t p : ℤ) (n : ℕ) : Tiles (grid t p n) := by
  refine ⟨grid_contiguous t p n, ?_⟩
  rintro first hfirst last hlast d hlower hupper
  obtain ⟨hlength, hhead, hend⟩ := grid_bounds t p n
  rcases le_or_gt 0 p with hp | hp
  · refine existsUnique_window (grid_contiguous t p n) (fun w hw => ?_) hfirst hlast hlower hupper
    have hw' := hlength w hw
    omega
  · -- with a negative period nothing is between the bounds
    rw [hhead first hfirst] at hlower
    rw [hend last hlast] at hupper
    have hneg : (n : ℤ) * p ≤ 0 := mul_nonpos_of_nonneg_of_nonpos (by omega) hp.le
    omega

theorem windowsOf_cons (clock : Clock) (run : List Select) (runs : List (List Select)) (j : ℕ) :
    windowsOf clock (run :: runs) j =
      ((run.map fun w => (⟨clock.instant w.lower, clock.instant w.upper⟩ : Window ℤ))[j]?).toList ++
        windowsOf clock runs j := by
  unfold windowsOf
  rw [List.filterMap_cons, List.getElem?_map]
  cases run[j]? <;> rfl

/-- **The windows of a table** in a sequence of runs: the first one ends at the table's own timestamp, the
others follow the time of the first table. -/
theorem polls_windows {clock : Clock} {cfg : Config} {n : ℕ} {t : ℤ} (ht : firstTime clock cfg = .ok t)
    (hknows : ∀ i : ℤ, -4 ≤ i → i ≤ n → clock.Knows (t + i * cfg.periodTime))
    {runs : List (List Select)} (h : polls clock n cfg = .ok runs) {j : ℕ} {table : Table}
    (hj : cfg.tables[j]? = some table) : windowsOf clock runs j = match n with
      | 0 => []
      | n + 1 => ⟨t - cfg.periodTime, clock.instant table.timestamp⟩ :: grid t cfg.periodTime n := by
  induction n generalizing cfg t runs table with
  | zero =>
    obtain rfl := Except.ok.inj h
    rfl
  | succ n ih =>
    rw [polls] at h
    obtain ⟨current, hcurrent, h⟩ := Res.bind_eq_ok.mp h
    obtain ⟨cfg1, hread, h⟩ := Res.bind_eq_ok.mp h
    obtain ⟨runs1, hruns, h⟩ := Res.bind_eq_ok.mp h
    obtain rfl := Except.ok.inj h
    have hbefore := hknows (-1) (by omega) (by omega)
    rw [show t + -1 * cfg.periodTime = t - cfg.periodTime by ring] at hbefore
    have hafter := hknows 1 (by omega) (by omega)
    rw [one_mul] at hafter
    obtain ⟨text, hinstant, ht1, rfl⟩ := readData_spec ht hafter hread
    have hknows1 : ∀ i : ℤ, -4 ≤ i → i ≤ n →
        clock.Knows (t + cfg.periodTime + i * cfg.periodTime) := by
      intro i hi1 hi2
      have hnext := hknows (i + 1) (by omega) (by push_cast; omega)
      rwa [show t + (i + 1) * cfg.periodTime = t + cfg.periodTime + i * cfg.periodTime by ring] at hnext
    have hj1 : (cfg.tables.map fun table => { table with timestamp := text })[j]? =
        some { table with timestamp := text } := by
      rw [List.getElem?_map, hj]
      rfl
    have hrest := ih ht1 hknows1 hruns hj1
    rw [windowsOf_cons, currentSelects_spec ht hbefore hcurrent, List.getElem?_map, hj, hrest]
    rcases n with _ | n
    · rfl
    · simp only [Option.map_some, Option.toList_some, List.singleton_append, hinstant, grid,
        add_sub_cancel_right]

/-- **The windows of every table tile the time, exactly when** there is at most one run, or the database
takes the timestamp of every table for the instant that `GetTimeStampByStr` reads from the first one. -/
theorem tiles_iff (clock : Clock) (cfg : Config) (n : ℕ) (hclock : Involved clock cfg n)
    (runs : List (List Select)) (hruns : polls clock n cfg = .ok runs) :
    (∀ j < cfg.tables.length, Tiles (windowsOf clock runs j)) ↔
      n ≤ 1 ∨ ∀ table ∈ cfg.tables, firstTime clock cfg = .ok (clock.instant table.timestamp) := by
  rcases n with _ | n
  · obtain rfl := Except.ok.inj hruns
    exact ⟨fun _ => Or.inl (by omega), fun _ j _ => grid_tiles 0 0 0⟩
  -- a run that has begun has read the timestamp of the first table
  by_cases hnil : cfg.tables = []
  · simp [hnil]
  obtain ⟨t, ht⟩ : ∃ t, firstTime clock cfg = .ok t := by
    rw [polls] at hruns
    obtain ⟨_, -, hruns⟩ := Res.bind_eq_ok.mp hruns
    obtain ⟨_, hread, -⟩ := Res.bind_eq_ok.mp hruns
    exact firstTime_of_readData hnil hread
  have hwindows : ∀ j table, cfg.tables[j]? = some table → windowsOf clock runs j =
      ⟨t - cfg.periodTime, clock.instant table.timestamp⟩ :: grid t cfg.periodTime n :=
    fun j table hj => polls_windows ht (hclock t ht) hruns hj
  constructor
  · intro htiles
    rcases n with _ | n
    · exact Or.inl le_rfl
    refine Or.inr fun table htable => ?_
    obtain ⟨j, hj, rfl⟩ := List.getElem_of_mem htable
    have hchain := (htiles j hj).1
    rw [hwindows j _ (List.getElem?_eq_getElem hj), grid, Contiguous, List.isChain_cons_cons] at hchain
    have hmeet : clock.instant cfg.tables[j].timestamp = t := hchain.1
    rw [ht, hmeet]
  · intro h j hj
    rw [hwindows j _ (List.getElem?_eq_getElem hj)]
    rcases h with hone | hsame
    · obtain rfl : n = 0 := by omega
      exact tiles_singleton _
    · have hown := hsame _ (List.getElem_mem hj)
      rw [ht, Except.ok.injEq] at hown
      rw [← hown]
      have hgrid := grid_tiles (t - cfg.periodTime) cfg.periodTime (n + 1)
      rwa [grid, sub_add_cancel] at hgrid

/-! ### An hour of the first of January 1970 -/

/-- The clock of a place on Greenwich time, on the first of January 1970. -/
def firstDay : Clock where
  localtime t := if 0 ≤ t ∧ t < 86400 then some ⟨70, 0, 1, t / 3600, t / 60 % 60, t % 60⟩ else none
  mktime tm := (tm.mday - 1) * 86400 + tm.hour * 3600 + tm.min * 60 + tm.sec
  instant s :=
    match (s.splitOnP fun c => !c.isDigit).map fun ds => Nat.ofDigitChars 10 ds 0 with
    | [_, _, mday, hour, min, sec] => (mday - 1 : ℤ) * 86400 + hour * 3600 + min * 60 + sec
    | _ => -1

theorem firstDay_knows {t : ℤ} (h : 0 ≤ t ∧ t < 86400)
    (htexts : firstDay.instant (format ⟨70, 0, 1, t / 3600, t / 60 % 60, t % 60⟩) = t ∧
      firstDay.instant (padded ⟨70, 0, 1, t / 3600, t / 60 % 60, t % 60⟩) = t) : firstDay.Knows t := by
  refine ⟨by omega, ⟨70, 0, 1, t / 3600, t / 60 % 60, t % 60⟩, if_pos h, ?_, ?_, htexts⟩
  · refine ⟨by norm_num, by norm_num, by norm_num, ?_, ?_, ?_⟩ <;> simp only <;> omega
  · simp only [firstDay]
    omega

/-- Two tables, polled every thirty seconds. -/
def twoTables (first second : Tm) : Config :=
  ⟨30, [⟨"WM_SO_HEADER", padded first⟩, ⟨"WM_SO_DETAIL", padded second⟩]⟩

theorem twoTables_involved (second : Tm) : Involved firstDay (twoTables ⟨70, 0, 1, 1, 0, 0⟩ second) 2 := by
  intro t ht i hi1 hi2
  have hread : getTimeStampByStr firstDay (padded ⟨70, 0, 1, 1, 0, 0⟩) = .ok 3600 := by decide
  have hhead : (twoTables ⟨70, 0, 1, 1, 0, 0⟩ second).tables.head? =
      some ⟨"WM_SO_HEADER", padded ⟨70, 0, 1, 1, 0, 0⟩⟩ := rfl
  have hfirst : firstTime firstDay (twoTables ⟨70, 0, 1, 1, 0, 0⟩ second) = .ok 3600 := by
    rw [firstTime, hhead, Res.ofOption_some, Res.ok_bind, hread]
    rfl
  rw [hfirst] at ht
  obtain rfl := Except.ok.inj ht
  have hp : (twoTables ⟨70, 0, 1, 1, 0, 0⟩ second).periodTime = 30 := rfl
  rw [hp]
  have hi3 : i ≤ 2 := hi2
  interval_cases i <;> exact firstDay_knows (by norm_num) (by decide)

/-- Both tables polled up to one o'clock: two runs leave no gap. -/
theorem tiles_iff_sameTime : ∃ runs,
    polls firstDay 2 (twoTables ⟨70, 0, 1, 1, 0, 0⟩ ⟨70, 0, 1, 1, 0, 0⟩) = .ok runs ∧
      ∀ j < 2, Tiles (windowsOf firstDay runs j) := by
  obtain ⟨runs, hruns⟩ := Res.exists_ok (show (polls firstDay 2
    (twoTables ⟨70, 0, 1, 1, 0, 0⟩ ⟨70, 0, 1, 1, 0, 0⟩)).toBool = true by decide)
  refine ⟨runs, hruns, (tiles_iff firstDay _ 2 (twoTables_involved _) runs hruns).mpr (Or.inr ?_)⟩
  rintro table htable
  rcases List.mem_pair.mp htable with rfl | rfl <;> decide

/-- The second table polled up to two o'clock: its first window ends there, and the next begins at one. -/
theorem laterTable_overlaps : ¬ ∀ (clock : Clock) (cfg : Config) (n : ℕ), Involved clock cfg n →
    ∀ runs, polls clock n cfg = .ok runs → ∀ j < cfg.tables.length, Tiles (windowsOf clock runs j) := by
  intro h
  have hwindows : (polls firstDay 2 (twoTables ⟨70, 0, 1, 1, 0, 0⟩ ⟨70, 0, 1, 2, 0, 0⟩)).map
      (fun runs => windowsOf firstDay runs 1) = .ok [⟨3570, 7200⟩, ⟨3600, 3630⟩] := by decide
  obtain ⟨runs, hruns, htwo⟩ := Res.map_eq_ok.mp hwindows
  have hmeet := (h firstDay _ 2 (twoTables_involved _) runs hruns 1 (by decide)).1
  rw [htwo, Contiguous, List.isChain_cons_cons] at hmeet
  exact absurd hmeet.1 (by decide)

end DataSync.Client.IncrementExport
