import DataSync.Binlog.FieldSize

/-! # The bytes a field is read from

The `switch` of `parseOneRowData` reads a fixed number of bytes, or a length and what it announces, or
nothing at all: a TINYINT is never read, a BIT and a SET are stepped over, and of a BLOB only the length
is read. How far a branch reads (`fieldReads`) and how far it steps (`fieldStep`) are two things.

`exists_parseField_iff`: a field is decoded exactly when its metadata is one the branch can do with and
the bytes it reads are there; `parseField_snd`: the step it takes. -/

namespace DataSync.Binlog.FieldReads

open DataSync.Lib.Words DataSync.Lib.Memory DataSync.Binlog.Format DataSync.Binlog.Decimal
open DataSync.Binlog.MyTime DataSync.Binlog.Field DataSync.Binlog.FieldFormat DataSync.Binlog.FieldSize

/-- A text behind its length. -/
def textReads (data : Bytes) (length : ℕ) : ℕ :=
  if length < 256 then 1 + leNat (data.take 1) else 2 + leNat (data.take 2)

/-- The bytes of an ENUM. -/
def enumBytes (fmeta : ℕ) : ℕ :=
  if fmeta &&& 0xff = 1 then 1 else if fmeta &&& 0xff = 2 then 2 else 0

/-- The bytes of the length of a BLOB. -/
def blobBytes (fmeta : ℕ) : ℕ := if fmeta ≤ 4 then fmeta else 0

/-- How far the branch of a type reads into the bytes of a field. -/
def fieldReads (data : Bytes) (type : FieldType) (fmeta length : ℕ) : ℕ :=
  match type with
  | .year => 1
  | .short => 2
  | .int24 | .time | .newdate => 3
  | .long | .float | .timestamp => 4
  | .longlong | .double | .datetime => 8
  | .newdecimal => decimalBinSize (fmeta >>> 8) (fmeta &&& 0xff)
  | .timestamp2 => myTimestampBinaryLength fmeta
  | .datetime2 => if fmeta ≤ 6 then myDatetimeBinaryLength fmeta else 5
  | .time2 => myTimeBinaryLength fmeta
  | .enum => enumBytes fmeta
  | .blob => blobBytes fmeta
  | .varchar | .varString => textReads data fmeta
  | .string => textReads data length
  | .json => if leNat (data.take 2) = 0 then 2 else max 2 (fmeta + leNat (data.take 2))
  | _ => 0

/-- How far the branch of a type steps. -/
def fieldStep (data : Bytes) (type : FieldType) (fmeta length : ℕ) : ℕ :=
  match type with
  | .tiny | .year => 1
  | .short => 2
  | .int24 | .time | .newdate => 3
  | .long | .float | .timestamp => 4
  | .longlong | .double | .datetime => 8
  | .newdecimal => decimalBinSize (fmeta >>> 8) (fmeta &&& 0xff)
  | .bit => ((fmeta >>> 8) * 8 + (fmeta &&& 0xff) + 7) / 8
  | .timestamp2 => myTimestampBinaryLength fmeta
  | .datetime2 => myDatetimeBinaryLength fmeta
  | .time2 => myTimeBinaryLength fmeta
  | .enum => enumBytes fmeta
  | .set => fmeta &&& 0xff
  | .blob => if blobBytes fmeta = 0 then 0 else (leNat (data.take fmeta) + fmeta) % 2 ^ 32
  | .varchar | .varString => textReads data fmeta
  | .string => textReads data length
  | .json => leNat (data.take 2) + fmeta
  | _ => 0

/-- The metadata a branch can do with: a DECIMAL has no more digits behind the point than digits, and at
least one, and `my_useconds_to_str` writes at most six. -/
def Decodable (type : FieldType) (fmeta : ℕ) : Prop :=
  match type with
  | .newdecimal => 0 < fmeta >>> 8 ∧ fmeta &&& 0xff ≤ fmeta >>> 8
  | .timestamp2 | .time2 => fmeta ≤ 6
  | _ => True

/-- A BLOB with another length than the four has none. -/
theorem blobBytes_eq_zero {fmeta : ℕ} (h1 : fmeta ≠ 1) (h2 : fmeta ≠ 2) (h3 : fmeta ≠ 3) (h4 : fmeta ≠ 4) :
    blobBytes fmeta = 0 := by
  unfold blobBytes
  split_ifs <;> omega

section Parts
variable {p : Ptr}

theorem exists_le_iff {k n : ℕ} : (∃ x, p.le k n = .ok x) ↔ n = 0 ∨ k + n ≤ p.data.length := by
  simp [Ptr.le_eq_ok]

theorem exists_read_iff {k : ℕ} : (∃ b, p.read k = .ok b) ↔ k + 1 ≤ p.data.length := by
  constructor
  · rintro ⟨b, hb⟩
    exact (Ptr.read_eq_ok_leNat.mp hb).1
  · exact read_of_lt

/-- A text takes what is read of it. -/
theorem parseRowDataToString_snd {length : ℕ} {r : Bytes × ℕ}
    (h : parseRowDataToString p length = .ok r) :
    r.2 = textReads p.data length ∧ r.2 ≤ p.data.length := by
  unfold parseRowDataToString at h
  unfold textReads
  split_ifs at h ⊢ with hlen
  · obtain ⟨b, hb, h⟩ := Res.bind_eq_ok.mp h
    obtain ⟨bs, hbs, h⟩ := Res.bind_eq_ok.mp h
    obtain rfl := Except.ok.inj h
    obtain ⟨hin, hnum⟩ := Ptr.read_eq_ok_leNat.mp hb
    obtain ⟨htext, -⟩ := Ptr.bytes_eq_ok.mp hbs
    rw [List.drop_zero] at hnum
    dsimp only
    omega
  · obtain ⟨n, hn, h⟩ := Res.bind_eq_ok.mp h
    obtain ⟨bs, hbs, h⟩ := Res.bind_eq_ok.mp h
    obtain rfl := Except.ok.inj h
    obtain ⟨hin, hnum⟩ := Ptr.le_eq_ok.mp hn
    obtain ⟨htext, -⟩ := Ptr.bytes_eq_ok.mp hbs
    rw [List.drop_zero] at hnum
    dsimp only
    omega

theorem exists_parseRowDataToString_iff {length : ℕ} :
    (∃ r, parseRowDataToString p length = .ok r) ↔ textReads p.data length ≤ p.data.length := by
  constructor
  · rintro ⟨r, hr⟩
    obtain ⟨heq, hle⟩ := parseRowDataToString_snd hr
    omega
  · intro hle
    unfold parseRowDataToString
    unfold textReads at hle
    split_ifs at hle ⊢ with hlen
    · obtain ⟨b, hb⟩ := exists_read_iff.mpr (show 0 + 1 ≤ p.data.length by omega)
      obtain ⟨-, hnum⟩ := Ptr.read_eq_ok_leNat.mp hb
      rw [List.drop_zero] at hnum
      rw [hb, Res.ok_bind]
      exact Res.exists_bind (bytes_of_le (by omega)) fun _ => ⟨_, rfl⟩
    · obtain ⟨n, hn⟩ := le_of_le (show 0 + 2 ≤ p.data.length by omega)
      obtain ⟨-, hnum⟩ := Ptr.le_eq_ok.mp hn
      rw [List.drop_zero] at hnum
      rw [hn, Res.ok_bind]
      exact Res.exists_bind (bytes_of_le (by omega)) fun _ => ⟨_, rfl⟩

theorem exists_bin2decimal_iff {precision scale : ℕ} :
    (∃ d, bin2decimal p precision scale = .ok d) ↔
      (0 < precision ∧ scale ≤ precision) ∧ decimalBinSize precision scale ≤ p.data.length := by
  constructor
  · rintro ⟨d, hd⟩
    unfold bin2decimal at hd
    split_ifs at hd with hs
    · cases hd
    dsimp only at hd
    obtain ⟨bs, hbs, hd⟩ := Res.bind_eq_ok.mp hd
    obtain ⟨hin, -⟩ := Ptr.bytes_eq_ok.mp hbs
    have hlen := Ptr.bytes_length hbs
    cases bs with
    | nil => cases hd
    | cons b rest =>
      rw [List.length_cons] at hlen
      refine ⟨⟨?_, by omega⟩, by omega⟩
      by_contra hzero
      obtain rfl : precision = 0 := by omega
      obtain rfl : scale = 0 := by omega
      cases hlen
  · rintro ⟨⟨hpos, hs⟩, hlen⟩
    exact exists_bin2decimal hpos hs hlen

theorem exists_myTimestampFromBinary_iff {dec : ℕ} (h : dec ≤ 6) :
    (∃ x, myTimestampFromBinary p dec = .ok x) ↔ myTimestampBinaryLength dec ≤ p.data.length := by
  refine ⟨?_, myTimestampFromBinary_of_le⟩
  rintro ⟨x, hx⟩
  unfold myTimestampFromBinary at hx
  unfold myTimestampBinaryLength
  obtain ⟨sec, hsec, hx⟩ := Res.bind_eq_ok.mp hx
  obtain ⟨hin, -⟩ := Ptr.be_eq_ok.mp hsec
  interval_cases dec <;>
    simp only [Res.bind_eq_ok, Ptr.read_eq_ok_leNat, Ptr.be_eq_ok] at hx <;> grind

theorem exists_myTimePackedFromBinary_iff {dec : ℕ} (h : dec ≤ 6) :
    (∃ x, myTimePackedFromBinary p dec = .ok x) ↔ myTimeBinaryLength dec ≤ p.data.length := by
  refine ⟨?_, myTimePackedFromBinary_of_le⟩
  rintro ⟨x, hx⟩
  unfold myTimePackedFromBinary at hx
  unfold myTimeBinaryLength
  interval_cases dec <;>
    simp only [Res.bind_eq_ok, Ptr.read_eq_ok_leNat, Ptr.be_eq_ok] at hx <;> grind

/-- A read whose decimals are checked behind it. -/
theorem exists_bind_checkDecimals_iff {α β : Type} {x : Res α} {dec need : ℕ} {f : α → β}
    (hread : dec ≤ 6 → ((∃ a, x = .ok a) ↔ need ≤ p.data.length)) :
    (∃ r, (x >>= fun a => checkDecimals dec >>= fun _ => pure (f a)) = .ok r) ↔
      dec ≤ 6 ∧ need ≤ p.data.length := by
  rw [Res.exists_bind_iff]
  unfold checkDecimals
  constructor
  · rintro ⟨i, hi, r, hr⟩
    split_ifs at hr with hdec
    · exact ⟨hdec, (hread hdec).mp ⟨i, hi⟩⟩
    · cases hr
  · rintro ⟨hdec, hle⟩
    obtain ⟨i, hi⟩ := (hread hdec).mpr hle
    exact ⟨i, hi, f i, by rw [if_pos hdec]; rfl⟩

/-- A DATETIME with more digits than there are is read without them. -/
theorem exists_myDatetimePackedFromBinary_iff {dec : ℕ} :
    (∃ x, myDatetimePackedFromBinary p dec = .ok x) ↔
      (if dec ≤ 6 then myDatetimeBinaryLength dec else 5) ≤ p.data.length := by
  split_ifs with hdec
  · refine ⟨?_, myDatetimePackedFromBinary_of_le⟩
    rintro ⟨x, hx⟩
    unfold myDatetimePackedFromBinary at hx
    unfold myDatetimeBinaryLength
    obtain ⟨intpart, hint, hx⟩ := Res.bind_eq_ok.mp hx
    obtain ⟨hin, -⟩ := Ptr.be_eq_ok.mp hint
    interval_cases dec <;> simp only [Res.bind_eq_ok, Ptr.be_eq_ok] at hx <;> grind
  · unfold myDatetimePackedFromBinary
    rw [Res.exists_bind_iff]
    constructor
    · rintro ⟨intpart, hint, -⟩
      obtain ⟨hin, -⟩ := Ptr.be_eq_ok.mp hint
      omega
    · intro hle
      obtain ⟨intpart, hint⟩ := be_of_le (show 0 + 5 ≤ p.data.length by omega)
      refine ⟨intpart, hint, ?_⟩
      dsimp only
      split
      case h_7 => exact ⟨_, rfl⟩
      all_goals omega

end Parts

/-- **A field is decoded** exactly when its metadata is one the branch can do with and the bytes the
branch reads are there. -/
theorem exists_parseField_iff {p : Ptr} {type : FieldType} {fmeta length : ℕ} :
    (∃ r, parseField p type fmeta length = .ok r) ↔
      Decodable type fmeta ∧ fieldReads p.data type fmeta length ≤ p.data.length := by
  cases type
  case int24 =>
    rw [parseField_int24]
    simp [Res.exists_bind_iff, Ptr.le_eq_ok, Decodable, fieldReads]
  case long | short | longlong | float | double | timestamp | datetime | time | newdate =>
    simp [parseField, Res.exists_bind_iff, Ptr.le_eq_ok, Decodable, fieldReads]
  case year =>
    rw [parseField, Res.exists_bind_pure_iff, exists_read_iff]
    simp [Decodable, fieldReads]
  case newdecimal =>
    rw [parseField, Res.exists_bind_iff]
    simp only [Decodable, fieldReads, ← exists_bin2decimal_iff]
    constructor
    · rintro ⟨d, hd, -⟩
      exact ⟨d, hd⟩
    · rintro ⟨d, hd⟩
      obtain ⟨s, hs⟩ := exists_decimal2string (bin2decimal_shaped hd)
      exact ⟨d, hd, _, by rw [hs, Res.ok_bind]; rfl⟩
  case timestamp2 =>
    exact exists_bind_checkDecimals_iff exists_myTimestampFromBinary_iff
  case datetime2 =>
    rw [parseField, Res.exists_bind_pure_iff, exists_myDatetimePackedFromBinary_iff]
    simp [Decodable, fieldReads]
  case time2 =>
    exact exists_bind_checkDecimals_iff exists_myTimePackedFromBinary_iff
  case enum =>
    simp only [parseField, Decodable, fieldReads, enumBytes, true_and]
    split
    case h_1 h => rw [Res.exists_bind_pure_iff, exists_read_iff, if_pos h]
    case h_2 h =>
      rw [Res.exists_bind_pure_iff, exists_le_iff, h]
      simp
    case h_3 h1 h2 => simp [if_neg h1, if_neg h2]
  case blob =>
    simp only [parseField, Decodable, fieldReads, true_and]
    split
    case h_1 => rw [Res.exists_bind_pure_iff, exists_read_iff]; rfl
    case h_5 h1 h2 h3 h4 => simp [blobBytes_eq_zero h1 h2 h3 h4]
    all_goals
      rw [Res.exists_bind_pure_iff, exists_le_iff]
      simp [blobBytes]
  case varchar | varString | string =>
    rw [parseField, Res.exists_bind_pure_iff, exists_parseRowDataToString_iff]
    simp [Decodable, fieldReads]
  case json =>
    simp only [parseField, Res.exists_bind_iff, Ptr.le_eq_ok, Ptr.bytes_eq_ok, Decodable, fieldReads,
      List.drop_zero, true_and]
    constructor
    · rintro ⟨n, ⟨hin, rfl⟩, bs, ⟨htext, -⟩, -⟩
      split_ifs <;> omega
    · intro hle
      refine ⟨_, ⟨.inr ?_, rfl⟩, _, ⟨?_, rfl⟩, _, rfl⟩
      · split_ifs at hle <;> omega
      · split_ifs at hle <;> omega
  all_goals simp [parseField, Decodable, fieldReads]

/-- **The step of a decoded field.** -/
theorem parseField_snd {p : Ptr} {type : FieldType} {fmeta length : ℕ} {r : Option Value × ℕ}
    (h : parseField p type fmeta length = .ok r) : r.2 = fieldStep p.data type fmeta length := by
  cases type
  case enum =>
    simp only [parseField] at h
    simp only [fieldStep, enumBytes]
    split at h
    case h_1 hone =>
      obtain ⟨b, -, h⟩ := Res.bind_eq_ok.mp h
      obtain rfl := Except.ok.inj h
      simp [hone]
    case h_2 htwo =>
      obtain ⟨x, -, h⟩ := Res.bind_eq_ok.mp h
      obtain rfl := Except.ok.inj h
      simp [htwo]
    case h_3 hone htwo =>
      obtain rfl := Except.ok.inj h
      rw [if_neg hone, if_neg htwo]
  case blob =>
    simp only [parseField] at h
    simp only [fieldStep]
    split at h
    case h_1 =>
      obtain ⟨b, hb, h⟩ := Res.bind_eq_ok.mp h
      obtain rfl := Except.ok.inj h
      obtain ⟨-, hnum⟩ := Ptr.read_eq_ok_leNat.mp hb
      have hlt := b.toNat_lt
      rw [List.drop_zero] at hnum
      rw [if_neg (by decide)]
      dsimp only
      omega
    case h_5 h1 h2 h3 h4 =>
      obtain rfl := Except.ok.inj h
      rw [if_pos (blobBytes_eq_zero h1 h2 h3 h4)]
    all_goals
      obtain ⟨x, hx, h⟩ := Res.bind_eq_ok.mp h
      obtain rfl := Except.ok.inj h
      obtain ⟨-, hnum⟩ := Ptr.le_eq_ok.mp hx
      have hlt := Ptr.le_lt hx
      rw [List.drop_zero] at hnum
      rw [if_neg (by decide)]
      dsimp only
      omega
  case timestamp2 | time2 =>
    obtain ⟨x, -, h⟩ := Res.bind_eq_ok.mp h
    obtain ⟨-, -, h⟩ := Res.bind_eq_ok.mp h
    obtain rfl := Except.ok.inj h
    rfl
  case varchar | varString | string =>
    obtain ⟨x, hx, h⟩ := Res.bind_eq_ok.mp h
    obtain rfl := Except.ok.inj h
    exact (parseRowDataToString_snd hx).1
  case json =>
    obtain ⟨x, hx, h⟩ := Res.bind_eq_ok.mp h
    obtain ⟨bs, -, h⟩ := Res.bind_eq_ok.mp h
    obtain rfl := Except.ok.inj h
    obtain ⟨-, hnum⟩ := Ptr.le_eq_ok.mp hx
    rw [List.drop_zero] at hnum
    simp only [fieldStep, ← hnum]
  all_goals
    simp only [parseField, Res.bind_eq_ok, Res.pure_eq, Except.ok.injEq] at h
    grind [fieldStep]

/-- A field that is read from fewer than four bytes is a short one: a BLOB of 4 GB has a length of four
bytes. -/
theorem fieldStep_lt {data : Bytes} {type : FieldType} {fmeta length : ℕ}
    (hreads : fieldReads data type fmeta length ≤ 3) (hmeta : fmeta < 65536) :
    fieldStep data type fmeta length < 2 ^ 25 := by
  have hle (k : ℕ) : leNat (data.take k) < 256 ^ k := by
    refine (leNat_lt _).trans_le (Nat.pow_le_pow_right (by norm_num) ?_)
    rw [List.length_take]
    omega
  have hlow : fmeta &&& 0xff < 256 := by
    rw [show (0xff : ℕ) = 2 ^ 8 - 1 from rfl, Nat.and_two_pow_sub_one_eq_mod]
    omega
  have hhigh : fmeta >>> 8 < 256 := by
    rw [Nat.shiftRight_eq_div_pow]
    omega
  cases type
  case blob =>
    simp only [fieldReads, fieldStep] at hreads ⊢
    split_ifs with hzero
    · norm_num
    · have hfmeta : fmeta ≤ 3 := by unfold blobBytes at hreads hzero; split_ifs at hreads hzero <;> omega
      have hbytes := (hle fmeta).trans_le (Nat.pow_le_pow_right (by norm_num : 0 < 256) hfmeta)
      have := Nat.mod_le (leNat (data.take fmeta) + fmeta) (2 ^ 32)
      omega
  case json =>
    have := hle 2
    simp only [fieldStep]
    omega
  case timestamp2 => simp only [fieldStep, myTimestampBinaryLength]; omega
  case datetime2 => simp only [fieldStep, myDatetimeBinaryLength]; omega
  case time2 => simp only [fieldStep, myTimeBinaryLength]; omega
  all_goals
    simp only [fieldReads, fieldStep] at hreads ⊢
    omega

/-! ### Decoding a field ends -/

theorem ends_bin2decimal (p : Ptr) (precision scale : ℕ) : Res.Ends (bin2decimal p precision scale) := by
  unfold bin2decimal
  split_ifs
  · exact Res.ends_fault
  · refine Res.Ends.bind (Ptr.ends_bytes _ _ _) fun bs _ => ?_
    cases bs with
    | nil => exact Res.ends_fault
    | cons b rest =>
      dsimp only
      split_ifs <;> exact Res.ends_ok _

theorem ends_myTimestampFromBinary (p : Ptr) (dec : ℕ) : Res.Ends (myTimestampFromBinary p dec) := by
  refine Res.Ends.bind (Ptr.ends_be _ _ _) fun sec _ => ?_
  split
  case h_7 => exact Res.ends_ok _
  all_goals exact Res.Ends.bind (by simp) fun _ _ => Res.ends_ok _

theorem ends_myDatetimePackedFromBinary (p : Ptr) (dec : ℕ) :
    Res.Ends (myDatetimePackedFromBinary p dec) := by
  refine Res.Ends.bind (Ptr.ends_be _ _ _) fun intpart _ => ?_
  dsimp only
  split
  case h_7 => exact Res.ends_ok _
  all_goals exact Res.Ends.bind (by simp) fun _ _ => Res.ends_ok _

theorem ends_myTimePackedFromBinary (p : Ptr) (dec : ℕ) : Res.Ends (myTimePackedFromBinary p dec) := by
  unfold myTimePackedFromBinary
  split
  case h_5 | h_6 | h_7 => exact Res.Ends.bind (by simp) fun _ _ => Res.ends_ok _
  all_goals
    refine Res.Ends.bind (by simp) fun _ _ => Res.Ends.bind (by simp) fun _ _ => ?_
    dsimp only
    split_ifs <;> exact Res.ends_ok _

theorem ends_parseRowDataToString (p : Ptr) (length : ℕ) : Res.Ends (parseRowDataToString p length) := by
  unfold parseRowDataToString
  split_ifs
  all_goals
    refine Res.Ends.bind (by simp) fun _ _ => Res.Ends.bind (by simp) fun _ _ => ?_
    exact Res.ends_ok _

theorem ends_checkDecimals (dec : ℕ) : Res.Ends (checkDecimals dec) := by
  unfold checkDecimals
  split_ifs <;> simp

/-- **Decoding a field ends.** -/
theorem ends_parseField (p : Ptr) (type : FieldType) (fmeta length : ℕ) :
    Res.Ends (parseField p type fmeta length) := by
  cases type
  case newdecimal =>
    refine Res.Ends.bind (ends_bin2decimal _ _ _) fun d hd => ?_
    obtain ⟨s, hs⟩ := exists_decimal2string (bin2decimal_shaped hd)
    rw [hs]
    exact Res.ends_ok _
  case timestamp2 =>
    refine Res.Ends.bind (ends_myTimestampFromBinary _ _) fun _ _ => ?_
    exact Res.Ends.bind (ends_checkDecimals _) fun _ _ => Res.ends_ok _
  case datetime2 => exact Res.Ends.bind (ends_myDatetimePackedFromBinary _ _) fun _ _ => Res.ends_ok _
  case time2 =>
    refine Res.Ends.bind (ends_myTimePackedFromBinary _ _) fun _ _ => ?_
    exact Res.Ends.bind (ends_checkDecimals _) fun _ _ => Res.ends_ok _
  case enum | blob =>
    unfold parseField
    dsimp only
    split
    all_goals first
      | exact Res.ends_ok _
      | exact Res.Ends.bind (by simp) fun _ _ => Res.ends_ok _
  case varchar | varString | string =>
    exact Res.Ends.bind (ends_parseRowDataToString _ _) fun _ _ => Res.ends_ok _
  case json =>
    exact Res.Ends.bind (by simp) fun _ _ => Res.Ends.bind (by simp) fun _ _ => Res.ends_ok _
  case int24 =>
    rw [parseField_int24]
    exact Res.Ends.bind (by simp) fun _ _ => Res.ends_ok _
  all_goals first
    | exact Res.ends_ok _
    | exact Res.Ends.bind (by simp) fun _ _ => Res.ends_ok _

end DataSync.Binlog.FieldReads
