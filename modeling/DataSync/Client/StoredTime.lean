import DataSync.Client.IncrementExport

/-! # The stored timestamp reads back

A run writes the time it has polled up to into `tableinfo.xml`, and the next one reads it at fixed
positions. `GetStrFromTime` prints without leading zeros; `GetWriteXmlTime` finds the parts by their
separators and pads each of them. `storedTime_readsBack`: what is stored has the 19 characters the
positions are made for, and gives the local time it was printed from. -/

namespace DataSync.Client.StoredTime

open DataSync.Lib.Memory DataSync.Client.IncrementExport

/-- The `tmObj` of `GetTimeStampByStr`. -/
def tmObj (pDate : Text) : Res Tm := do
  let year ← fieldAt pDate [0, 1, 2, 3]
  let mon ← fieldAt pDate [5, 6]
  let mday ← fieldAt pDate [8, 9]
  let hour ← fieldAt pDate [11, 12]
  let min ← fieldAt pDate [14, 15]
  let sec ← fieldAt pDate [17, 18]
  return ⟨year - 1900, mon - 1, mday, hour, min, sec⟩

/-- `GetTimeStampByStr` fills in `tmObj`, which `mktime` takes. -/
theorem getTimeStampByStr_eq (clock : Clock) (pDate : Text) : getTimeStampByStr clock pDate =
    (fun tm => (clock.mktime tm % 2 ^ 32).toNat) <$> tmObj pDate := by
  unfold getTimeStampByStr tmObj
  simp only [map_bind, map_pure]

/-- A number with leading zeros, so many digits wide. -/
def zeroPadded (width : ℕ) (i : ℤ) : Text := (Nat.toDigits 10 i.toNat).leftpad width '0'

/-- A local time in the form `YYYY-MM-DD hh:mm:ss`. -/
def isoTime (tm : Tm) : Text :=
  zeroPadded 4 (tm.year + 1900) ++ '-' :: (zeroPadded 2 (tm.mon + 1) ++ '-' :: (zeroPadded 2 tm.mday ++ ' ' ::
    (zeroPadded 2 tm.hour ++ ':' :: (zeroPadded 2 tm.min ++ ':' :: zeroPadded 2 tm.sec))))

/-- Padding a part by one zero gives two digits. -/
theorem zeroPadded_two {n : ℕ} (h : n < 100) : zeroPadded 2 n = pad (decimal n) := by
  rw [pad_decimal h, zeroPadded, Int.toNat_natCast]
  rcases Nat.lt_or_ge n 10 with h1 | h1
  · rw [Nat.toDigits_of_lt_base h1, Nat.div_eq_of_lt h1, Nat.mod_eq_of_lt h1]
    rfl
  · rw [Nat.toDigits_of_base_le (by norm_num) h1, Nat.toDigits_of_lt_base (by omega)]
    rfl

/-- A year of four digits needs no zeros. -/
theorem zeroPadded_four {n : ℕ} (h1 : 1000 ≤ n) (h : n < 10000) : zeroPadded 4 n = decimal n := by
  have hdigits : Nat.toDigits 10 n = decimal n := by
    rw [decimal, if_neg (by omega), Int.natAbs_natCast]
  rw [zeroPadded, Int.toNat_natCast, hdigits, decimal_four h1 h]
  rfl

section Valid
variable {tm : Tm} (h : tm.Valid)
include h

theorem padded_eq_isoTime : padded tm = isoTime tm := by
  obtain ⟨y, mo, d, hh, mi, s, ⟨hy1, hy2, hmo, hd, hhh, hmi, hs⟩, rfl⟩ := h.numbers
  unfold padded isoTime
  simp only [sub_add_cancel]
  rw [zeroPadded_four hy1 hy2, zeroPadded_two hmo, zeroPadded_two hd, zeroPadded_two hhh,
    zeroPadded_two hmi, zeroPadded_two hs]

theorem length_isoTime : (isoTime tm).length = 19 := by
  obtain ⟨_, _, _, _, _, _, _, _, _, _, _, _, _, _, hpadded, -⟩ := padded_chars h
  rw [← padded_eq_isoTime h, hpadded]
  rfl

/-- The text without zeros fits the buffer of `GetStrFromTime`. -/
theorem length_format_le : (format tm).length ≤ 19 := by
  obtain ⟨y, mo, d, hh, mi, s, ⟨hy1, hy2, hmo, hd, hhh, hmi, hs⟩, rfl⟩ := h.numbers
  have hyear : (decimal y).length = 4 := by
    rw [decimal_four hy1 hy2]
    rfl
  have h1 := (decimal_part hmo).1
  have h2 := (decimal_part hd).1
  have h3 := (decimal_part hhh).1
  have h4 := (decimal_part hmi).1
  have h5 := (decimal_part hs).1
  unfold format
  simp only [sub_add_cancel, List.length_append, List.length_cons]
  omega

/-- The fixed positions are those of the parts. -/
theorem tmObj_isoTime : tmObj (isoTime tm) = .ok tm := by
  obtain ⟨y1, y2, y3, y4, m1, m2, d1, d2, h1, h2, i1, i2, s1, s2, hpadded, htm⟩ := padded_chars h
  rw [← padded_eq_isoTime h, hpadded]
  exact congrArg Except.ok htm

end Valid

/-- **The stored timestamp reads back**: the text of a local time, normalised, is the one with leading
zeros, which is left as it is and gives the local time. -/
theorem storedTime_readsBack {clock : Clock} {iTimeStamp : ℤ} {tm : Tm}
    (hlocal : clock.localtime iTimeStamp = some tm) (h : tm.Valid) :
    (getStrFromTime clock iTimeStamp >>= getWriteXmlTime) = .ok (isoTime tm) ∧
      (isoTime tm).length = 19 ∧ getWriteXmlTime (isoTime tm) = .ok (isoTime tm) ∧
      tmObj (isoTime tm) = .ok tm ∧
      getTimeStampByStr clock (isoTime tm) = .ok (clock.mktime tm % 2 ^ 32).toNat := by
  have hlen := length_isoTime h
  have hshort := length_format_le h
  have hprint : getStrFromTime clock iTimeStamp = .ok (format tm) := by
    rw [getStrFromTime, hlocal, Res.ofOption_some, Res.ok_bind, if_neg (by omega)]
    rfl
  refine ⟨?_, hlen, ?_, tmObj_isoTime h, ?_⟩
  · rw [hprint, Res.ok_bind, getWriteXmlTime_format h, padded_eq_isoTime h]
  · rw [getWriteXmlTime, if_pos hlen]
    rfl
  · rw [getTimeStampByStr_eq, tmObj_isoTime h]
    rfl

/-- Four minutes and five seconds past three. -/
theorem storedTime_readsBack_firstDay :
    (getStrFromTime firstDay 11045 >>= getWriteXmlTime) = .ok (isoTime ⟨70, 0, 1, 3, 4, 5⟩) ∧
      (isoTime ⟨70, 0, 1, 3, 4, 5⟩).length = 19 ∧
      getWriteXmlTime (isoTime ⟨70, 0, 1, 3, 4, 5⟩) = .ok (isoTime ⟨70, 0, 1, 3, 4, 5⟩) ∧
      tmObj (isoTime ⟨70, 0, 1, 3, 4, 5⟩) = .ok ⟨70, 0, 1, 3, 4, 5⟩ ∧
      getTimeStampByStr firstDay (isoTime ⟨70, 0, 1, 3, 4, 5⟩) = .ok (11045 % 2 ^ 32 : ℤ).toNat :=
  storedTime_readsBack (by decide) ⟨by decide, by decide, by decide, by decide, by decide, by decide⟩

end DataSync.Client.StoredTime
