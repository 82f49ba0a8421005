import DataSync.Binlog.DecimalText
import DataSync.Binlog.Field

/-! # Well-formed fields

The row format of every column type that `parseOneRowData` has a case for: `FieldOk`. The decoder of a
field reads no further than the field (`parseField_le`: bytes behind it change nothing), and on a
well-formed field it succeeds and takes exactly the field's bytes (`parseField_of_fieldOk`).

The length of a JSON document is four bytes, of which the decoder reads two: `JsonShort` is the
condition under which that makes no difference. -/

namespace DataSync.Binlog.FieldFormat

open DataSync.Lib.Words DataSync.Lib.Memory DataSync.Binlog.Format DataSync.Binlog.Decimal
open DataSync.Binlog.DecimalText DataSync.Binlog.MyTime DataSync.Binlog.Field

/-! ### Bytes behind the field -/

section Extends
variable {p q : Ptr} (h : Ptr.Extends p q)
include h

theorem myTimePackedFromBinary_le (dec : ℕ) :
    Res.Le (myTimePackedFromBinary p dec) (myTimePackedFromBinary q dec) := by
  unfold myTimePackedFromBinary
  split
  · exact (Ptr.be_le h 0 3).bind fun _ => (Ptr.read_le h 3).bind fun _ => Res.Le.refl _
  · exact (Ptr.be_le h 0 3).bind fun _ => (Ptr.read_le h 3).bind fun _ => Res.Le.refl _
  · exact (Ptr.be_le h 0 3).bind fun _ => (Ptr.be_le h 3 2).bind fun _ => Res.Le.refl _
  · exact (Ptr.be_le h 0 3).bind fun _ => (Ptr.be_le h 3 2).bind fun _ => Res.Le.refl _
  · exact (Ptr.be_le h 0 6).bind fun _ => Res.Le.refl _
  · exact (Ptr.be_le h 0 6).bind fun _ => Res.Le.refl _
  · exact (Ptr.be_le h 0 3).bind fun _ => Res.Le.refl _

theorem myDatetimePackedFromBinary_le (dec : ℕ) :
    Res.Le (myDatetimePackedFromBinary p dec) (myDatetimePackedFromBinary q dec) := by
  unfold myDatetimePackedFromBinary
  refine (Ptr.be_le h 0 5).bind fun _ => ?_
  split
  · exact (Ptr.be_le h 5 1).bind fun _ => Res.Le.refl _
  · exact (Ptr.be_le h 5 1).bind fun _ => Res.Le.refl _
  · exact (Ptr.be_le h 5 2).bind fun _ => Res.Le.refl _
  · exact (Ptr.be_le h 5 2).bind fun _ => Res.Le.refl _
  · exact (Ptr.be_le h 5 3).bind fun _ => Res.Le.refl _
  · exact (Ptr.be_le h 5 3).bind fun _ => Res.Le.refl _
  · exact Res.Le.refl _

theorem myTimestampFromBinary_le (dec : ℕ) :
    Res.Le (myTimestampFromBinary p dec) (myTimestampFromBinary q dec) := by
  unfold myTimestampFromBinary
  refine (Ptr.be_le h 0 4).bind fun _ => ?_
  split
  · exact (Ptr.read_le h 4).bind fun _ => Res.Le.refl _
  · exact (Ptr.read_le h 4).bind fun _ => Res.Le.refl _
  · exact (Ptr.be_le h 4 2).bind fun _ => Res.Le.refl _
  · exact (Ptr.be_le h 4 2).bind fun _ => Res.Le.refl _
  · exact (Ptr.be_le h 4 3).bind fun _ => Res.Le.refl _
  · exact (Ptr.be_le h 4 3).bind fun _ => Res.Le.refl _
  · exact Res.Le.refl _

theorem bin2decimal_le (precision scale : ℕ) :
    Res.Le (bin2decimal p precision scale) (bin2decimal q precision scale) := by
  unfold bin2decimal
  split_ifs
  · exact Res.Le.refl _
  · exact (Ptr.bytes_le h 0 _).bind fun _ => Res.Le.refl _

theorem parseRowDataToString_le (length : ℕ) :
    Res.Le (parseRowDataToString p length) (parseRowDataToString q length) := by
  unfold parseRowDataToString
  split_ifs
  · exact (Ptr.read_le h 0).bind fun _ => (Ptr.bytes_le h 1 _).bind fun _ => Res.Le.refl _
  · exact (Ptr.le_le h 0 2).bind fun _ => (Ptr.bytes_le h 2 _).bind fun _ => Res.Le.refl _

/-- **Bytes behind a field** do not change what is read from it. -/
theorem parseField_le (type : FieldType) (fmeta length : ℕ) :
    Res.Le (parseField p type fmeta length) (parseField q type fmeta length) := by
  cases type
  case tiny => simp only [parseField, h.addr]; exact Res.Le.refl _
  case long | float | timestamp => exact (Ptr.le_le h 0 4).bind fun _ => Res.Le.refl _
  case short => exact (Ptr.le_le h 0 2).bind fun _ => Res.Le.refl _
  case int24 =>
    rw [parseField_int24, parseField_int24]
    exact (Ptr.le_le h 0 3).bind fun _ => Res.Le.refl _
  case time | newdate => exact (Ptr.le_le h 0 3).bind fun _ => Res.Le.refl _
  case longlong | double | datetime => exact (Ptr.le_le h 0 8).bind fun _ => Res.Le.refl _
  case newdecimal => exact (bin2decimal_le h _ _).bind fun _ => Res.Le.refl _
  case timestamp2 => exact (myTimestampFromBinary_le h _).bind fun _ => Res.Le.refl _
  case datetime2 => exact (myDatetimePackedFromBinary_le h _).bind fun _ => Res.Le.refl _
  case time2 => exact (myTimePackedFromBinary_le h _).bind fun _ => Res.Le.refl _
  case year => exact (Ptr.read_le h 0).bind fun _ => Res.Le.refl _
  case enum =>
    simp only [parseField]
    split
    · exact (Ptr.read_le h 0).bind fun _ => Res.Le.refl _
    · exact (Ptr.le_le h 0 2).bind fun _ => Res.Le.refl _
    · exact Res.Le.refl _
  case blob =>
    simp only [parseField]
    split
    · exact (Ptr.read_le h 0).bind fun _ => Res.Le.refl _
    · exact (Ptr.le_le h 0 2).bind fun _ => Res.Le.refl _
    · exact (Ptr.le_le h 0 3).bind fun _ => Res.Le.refl _
    · exact (Ptr.le_le h 0 4).bind fun _ => Res.Le.refl _
    · exact Res.Le.refl _
  case varchar | varString => exact (parseRowDataToString_le h _).bind fun _ => Res.Le.refl _
  case string => exact (parseRowDataToString_le h _).bind fun _ => Res.Le.refl _
  case json =>
    exact (Ptr.le_le h 0 2).bind fun _ => (Ptr.bytes_le h _ _).bind fun _ => Res.Le.refl _
  all_goals exact Res.Le.refl _

end Extends

/-! ### The format -/

/-- A string behind its length: one byte of length when the declared maximum is below 256, else two. -/
def StringOk (maxLength : ℕ) (bs : Bytes) : Prop :=
  ∃ s : Bytes, s.length < (if maxLength < 256 then 256 else 65536) ∧
    bs = leBytes (if maxLength < 256 then 1 else 2) s.length ++ s

/-- A document behind a length of `n` bytes. -/
def BlobOk (n : ℕ) (bs : Bytes) : Prop :=
  ∃ doc : Bytes, doc.length < 256 ^ n ∧ bs = leBytes n doc.length ++ doc

/-- The bytes of a field that is not NULL, by the type, the metadata word and, for STRING, the length
`parseOneRowData` works with. -/
def FieldOk (type : FieldType) (fmeta length : ℕ) (bs : Bytes) : Prop :=
  match type with
  | .tiny | .year => bs.length = 1
  | .short => bs.length = 2
  | .int24 | .time | .newdate => bs.length = 3
  | .long | .float | .timestamp => bs.length = 4
  | .longlong | .double | .datetime => bs.length = 8
  | .newdecimal => 0 < fmeta >>> 8 ∧ fmeta >>> 8 ≤ 65 ∧ fmeta &&& 0xff ≤ fmeta >>> 8 ∧
      ∃ v : DecimalValue (fmeta >>> 8) (fmeta &&& 0xff), bs = v.bytes
  | .bit => bs.length = ((fmeta >>> 8) * 8 + (fmeta &&& 0xff) + 7) / 8
  | .timestamp2 => fmeta ≤ 6 ∧ bs.length = myTimestampBinaryLength fmeta
  | .datetime2 => fmeta ≤ 6 ∧ bs.length = myDatetimeBinaryLength fmeta
  | .time2 => fmeta ≤ 6 ∧ bs.length = myTimeBinaryLength fmeta
  | .enum => (fmeta &&& 0xff = 1 ∨ fmeta &&& 0xff = 2) ∧ bs.length = fmeta &&& 0xff
  | .set => bs.length = fmeta &&& 0xff
  | .blob => 1 ≤ fmeta ∧ fmeta ≤ 4 ∧ BlobOk fmeta bs
  | .varchar | .varString => StringOk fmeta bs
  | .string => StringOk length bs
  | .json => fmeta = 4 ∧ BlobOk 4 bs
  | _ => False

/-- A JSON field is short: its document has fewer than 2¹⁶ bytes. -/
def JsonShort (type : FieldType) (bs : Bytes) : Prop := type = .json → bs.length < 65536 + 4

/-! ### Reading a whole field -/

section Whole
variable {p : Ptr} {n : ℕ}

theorem bytes_of_le {k : ℕ} (h : k + n ≤ p.data.length) : ∃ bs, p.bytes k n = .ok bs := by
  refine ⟨(p.data.drop k).take n, ?_⟩
  unfold Ptr.bytes
  rw [if_pos]
  rw [List.length_take, List.length_drop]
  omega

theorem le_of_le {k : ℕ} (h : k + n ≤ p.data.length) : ∃ x, p.le k n = .ok x := by
  obtain ⟨bs, hbs⟩ := bytes_of_le h
  exact ⟨leNat bs, by rw [Ptr.le, hbs]; rfl⟩

theorem be_of_le {k : ℕ} (h : k + n ≤ p.data.length) : ∃ x, p.be k n = .ok x := by
  obtain ⟨bs, hbs⟩ := bytes_of_le h
  exact ⟨beNat bs, by rw [Ptr.be, hbs]; rfl⟩

theorem read_of_lt {k : ℕ} (h : k < p.data.length) : ∃ b, p.read k = .ok b :=
  ⟨p.data[k], by rw [Ptr.read, List.getElem?_eq_getElem h, Res.ofOption_some]⟩

theorem myTimestampFromBinary_of_le {dec : ℕ} (h : myTimestampBinaryLength dec ≤ p.data.length) :
    ∃ x, myTimestampFromBinary p dec = .ok x := by
  unfold myTimestampBinaryLength at h
  refine Res.exists_bind (be_of_le (by omega)) fun sec => ?_
  split
  · exact Res.exists_bind (read_of_lt (by omega)) fun _ => ⟨_, rfl⟩
  · exact Res.exists_bind (read_of_lt (by omega)) fun _ => ⟨_, rfl⟩
  · exact Res.exists_bind (be_of_le (by omega)) fun _ => ⟨_, rfl⟩
  · exact Res.exists_bind (be_of_le (by omega)) fun _ => ⟨_, rfl⟩
  · exact Res.exists_bind (be_of_le (by omega)) fun _ => ⟨_, rfl⟩
  · exact Res.exists_bind (be_of_le (by omega)) fun _ => ⟨_, rfl⟩
  · exact ⟨_, rfl⟩

theorem myDatetimePackedFromBinary_of_le {dec : ℕ}
    (h : myDatetimeBinaryLength dec ≤ p.data.length) :
    ∃ x, myDatetimePackedFromBinary p dec = .ok x := by
  unfold myDatetimeBinaryLength at h
  refine Res.exists_bind (be_of_le (by omega)) fun intpart => ?_
  dsimp only
  split
  case h_7 => exact ⟨_, rfl⟩
  all_goals exact Res.exists_bind (be_of_le (by omega)) fun _ => ⟨_, rfl⟩

theorem myTimePackedFromBinary_of_le {dec : ℕ} (h : myTimeBinaryLength dec ≤ p.data.length) :
    ∃ x, myTimePackedFromBinary p dec = .ok x := by
  unfold myTimeBinaryLength at h
  have hhead : ∃ x, p.be 0 3 = .ok x := be_of_le (by omega)
  have hcarry (c : Prop) [Decidable c] (x y : ℤ) :
      ∃ z, (if c then return x else return y : Res ℤ) = .ok z := by
    split_ifs <;> exact ⟨_, rfl⟩
  unfold myTimePackedFromBinary
  split
  · exact Res.exists_bind hhead fun _ => Res.exists_bind (read_of_lt (by omega)) fun _ => hcarry _ _ _
  · exact Res.exists_bind hhead fun _ => Res.exists_bind (read_of_lt (by omega)) fun _ => hcarry _ _ _
  · exact Res.exists_bind hhead fun _ => Res.exists_bind (be_of_le (by omega)) fun _ => hcarry _ _ _
  · exact Res.exists_bind hhead fun _ => Res.exists_bind (be_of_le (by omega)) fun _ => hcarry _ _ _
  · exact Res.exists_bind (be_of_le (by omega)) fun _ => ⟨_, rfl⟩
  · exact Res.exists_bind (be_of_le (by omega)) fun _ => ⟨_, rfl⟩
  · exact Res.exists_bind hhead fun _ => ⟨_, rfl⟩

/-- A string behind its length is read up to its first NUL, and taken to its end. -/
theorem parseRowDataToString_at {maxLength : ℕ} {s rest : Bytes}
    (hp : p.data = leBytes (if maxLength < 256 then 1 else 2) s.length ++ s ++ rest)
    (hlen : s.length < if maxLength < 256 then 256 else 65536) :
    parseRowDataToString p maxLength = .ok (cStr s, (if maxLength < 256 then 1 else 2) + s.length) := by
  unfold parseRowDataToString
  split_ifs at hp hlen ⊢ with hmax
  · have hb : (UInt8.ofNat s.length).toNat = s.length := by
      rw [UInt8.toNat_ofNat', Nat.mod_eq_of_lt (by omega)]
    have hread : p.read 0 = .ok (UInt8.ofNat s.length) :=
      Ptr.read_at (x := []) (hp.trans (List.append_assoc ..)) rfl
    have hbytes : p.bytes 1 s.length = .ok s := Ptr.bytes_at hp (by simp) rfl
    simp only [hread, Res.ok_bind, hb, hbytes, Res.pure_eq, Nat.add_comm]
  · have hle : p.le 0 2 = .ok s.length := by
      rw [List.append_assoc] at hp
      rw [Ptr.le_head hp (by simp), leNat_leBytes_of_lt (by omega)]
    have hbytes : p.bytes 2 s.length = .ok s := Ptr.bytes_at hp (by simp) rfl
    simp only [hle, Res.ok_bind, hbytes, Res.pure_eq, Nat.add_comm]

/-- A string is read to its end. -/
theorem parseRowDataToString_of_stringOk {maxLength : ℕ} {bs : Bytes} (h : StringOk maxLength bs)
    (a : ℕ) : ∃ s, parseRowDataToString ⟨a, bs⟩ maxLength = .ok (s, bs.length) := by
  obtain ⟨s, hlen, rfl⟩ := h
  refine ⟨cStr s, ?_⟩
  rw [parseRowDataToString_at (List.append_nil _).symm hlen, List.length_append, length_leBytes]

/-- The length in front of a document. -/
theorem le_blob {m : ℕ} (doc : Bytes) (h : doc.length < 256 ^ m) (a : ℕ) :
    Ptr.le ⟨a, leBytes m doc.length ++ doc⟩ 0 m = .ok doc.length := by
  rw [Ptr.le_head (y := leBytes m doc.length) rfl (by simp), leNat_leBytes_of_lt h]

end Whole

/-- **A well-formed field is read to its end.** -/
theorem parseField_of_fieldOk {type : FieldType} {fmeta length : ℕ} {bs : Bytes}
    (hok : FieldOk type fmeta length bs) (hjson : JsonShort type bs) (hlt : bs.length < 2 ^ 32)
    (a : ℕ) : ∃ v, parseField ⟨a, bs⟩ type fmeta length = .ok (v, bs.length) := by
  cases type
  case tiny => exact ⟨_, by rw [show bs.length = 1 from hok]; rfl⟩
  case year =>
    have hlen : bs.length = 1 := hok
    obtain ⟨b, hb⟩ := read_of_lt (p := ⟨a, bs⟩) (k := 0) (by simp only; omega)
    simp only [parseField, hb, Res.ok_bind, Res.pure_eq, hlen]
    exact ⟨_, rfl⟩
  case short =>
    have hlen : bs.length = 2 := hok
    obtain ⟨x, hx⟩ := le_of_le (p := ⟨a, bs⟩) (k := 0) (n := 2) (by simp only; omega)
    simp only [parseField, hx, Res.ok_bind, Res.pure_eq, hlen]
    exact ⟨_, rfl⟩
  case int24 =>
    have hlen : bs.length = 3 := hok
    obtain ⟨x, hx⟩ := le_of_le (p := ⟨a, bs⟩) (k := 0) (n := 3) (by simp only; omega)
    rw [parseField_int24, hx, hlen]
    exact ⟨_, rfl⟩
  case time | newdate =>
    have hlen : bs.length = 3 := hok
    obtain ⟨x, hx⟩ := le_of_le (p := ⟨a, bs⟩) (k := 0) (n := 3) (by simp only; omega)
    simp only [parseField, hx, Res.ok_bind, Res.pure_eq, hlen]
    exact ⟨_, rfl⟩
  case long | float | timestamp =>
    have hlen : bs.length = 4 := hok
    obtain ⟨x, hx⟩ := le_of_le (p := ⟨a, bs⟩) (k := 0) (n := 4) (by simp only; omega)
    simp only [parseField, hx, Res.ok_bind, Res.pure_eq, hlen]
    exact ⟨_, rfl⟩
  case longlong | double | datetime =>
    have hlen : bs.length = 8 := hok
    obtain ⟨x, hx⟩ := le_of_le (p := ⟨a, bs⟩) (k := 0) (n := 8) (by simp only; omega)
    simp only [parseField, hx, Res.ok_bind, Res.pure_eq, hlen]
    exact ⟨_, rfl⟩
  case newdecimal =>
    obtain ⟨hpos, hp, hs, v, rfl⟩ := hok
    have hbin := bin2decimal_bytes v hpos hp hs (show (Ptr.mk a v.bytes).data = v.bytes ++ [] by simp)
    have hstr := decimal2string_decimal v hp hs
    simp only [parseField, hbin, hstr, Res.ok_bind, Res.pure_eq, v.length_bytes]
    exact ⟨_, rfl⟩
  case bit | set => exact ⟨none, by rw [show bs.length = _ from hok]; rfl⟩
  case timestamp2 =>
    obtain ⟨hdec, hlen⟩ := hok
    obtain ⟨x, hx⟩ := myTimestampFromBinary_of_le (p := ⟨a, bs⟩) hlen.ge
    simp only [parseField, hx, checkDecimals, if_pos hdec, Res.ok_bind, Res.pure_eq, hlen]
    exact ⟨_, rfl⟩
  case datetime2 =>
    obtain ⟨hdec, hlen⟩ := hok
    obtain ⟨x, hx⟩ := myDatetimePackedFromBinary_of_le (p := ⟨a, bs⟩) hlen.ge
    simp only [parseField, hx, Res.ok_bind, Res.pure_eq, hlen]
    exact ⟨_, rfl⟩
  case time2 =>
    obtain ⟨hdec, hlen⟩ := hok
    obtain ⟨x, hx⟩ := myTimePackedFromBinary_of_le (p := ⟨a, bs⟩) hlen.ge
    simp only [parseField, hx, checkDecimals, if_pos hdec, Res.ok_bind, Res.pure_eq, hlen]
    exact ⟨_, rfl⟩
  case enum =>
    obtain ⟨h12, hlen⟩ := hok
    rcases h12 with h1 | h2
    · obtain ⟨b, hb⟩ := read_of_lt (p := ⟨a, bs⟩) (k := 0) (by simp only; omega)
      simp only [parseField, h1, hb, Res.ok_bind, Res.pure_eq, hlen]
      exact ⟨_, rfl⟩
    · obtain ⟨x, hx⟩ := le_of_le (p := ⟨a, bs⟩) (k := 0) (n := 2) (by simp only; omega)
      simp only [parseField, h2, hx, Res.ok_bind, Res.pure_eq, hlen]
      exact ⟨_, rfl⟩
  case blob =>
    obtain ⟨h1, h4, doc, hdoc, rfl⟩ := hok
    rw [List.length_append, length_leBytes] at hlt ⊢
    have hle := le_blob doc hdoc a
    refine ⟨none, ?_⟩
    interval_cases fmeta
    · have hb : (UInt8.ofNat doc.length).toNat = doc.length := by
        rw [UInt8.toNat_ofNat', Nat.mod_eq_of_lt (by omega)]
      have hread : Ptr.read ⟨a, leBytes 1 doc.length ++ doc⟩ 0 = .ok (UInt8.ofNat doc.length) := rfl
      simp only [parseField, hread, Res.ok_bind, hb, Res.pure_eq, Nat.add_comm]
    · simp only [parseField, hle, Res.ok_bind, Res.pure_eq, Nat.add_comm]
    · simp only [parseField, hle, Res.ok_bind, Res.pure_eq, Nat.add_comm]
    · simp only [parseField, hle, Res.ok_bind, Res.pure_eq]
      rw [Nat.mod_eq_of_lt (by omega), Nat.add_comm]
  case varchar | varString =>
    obtain ⟨s, hs⟩ := parseRowDataToString_of_stringOk hok a
    simp only [parseField, hs, Res.ok_bind, Res.pure_eq]
    exact ⟨_, rfl⟩
  case string =>
    obtain ⟨s, hs⟩ := parseRowDataToString_of_stringOk hok a
    exact ⟨none, by simp only [parseField, hs, Res.ok_bind, Res.pure_eq]⟩
  case json =>
    obtain ⟨rfl, doc, hdoc, rfl⟩ := hok
    have hshort := hjson rfl
    rw [List.length_append, length_leBytes] at hshort ⊢
    -- the two low bytes of the length are the length
    have hle : Ptr.le ⟨a, leBytes 4 doc.length ++ doc⟩ 0 2 = .ok doc.length := by
      rw [leBytes_add 2 2, List.append_assoc, Ptr.le_head (y := leBytes 2 doc.length) rfl (by simp),
        leNat_leBytes_of_lt (by omega)]
    have hbytes : Ptr.bytes ⟨a, leBytes 4 doc.length ++ doc⟩ 4 doc.length = .ok doc :=
      Ptr.bytes_at (x := leBytes 4 doc.length) (z := []) (by simp) (by simp) rfl
    simp only [parseField, hle, hbytes, Res.ok_bind, Res.pure_eq, Nat.add_comm]
    exact ⟨_, rfl⟩
  all_goals exact absurd hok id

end DataSync.Binlog.FieldFormat
