import DataSync.Binlog.Alignment
import DataSync.Binlog.LogEvent

/-! # The bytes of a rows event

A rows event is the common header, the post header of its version, the column count, one column bitmap
(an UPDATE event has two), the rows and a checksum. `RowsFrame.bytes` writes one;
`loadEvent_frame`: `CRowsEvent::loadEvent` reads it back, the read position standing at the rows. -/

namespace DataSync.Binlog.RowsFormat

open DataSync.Lib.Words DataSync.Lib.Memory DataSync.Binlog.Format DataSync.Binlog.Bitmap
open DataSync.Binlog.TableDef DataSync.Binlog.RowsEvent DataSync.Binlog.Alignment
open DataSync.Binlog.LogEvent

/-! ### The common header -/

/-- The nineteen bytes of a common header. -/
def headerBytes (timestamp eventType serverId eventSize logPos flags : ℕ) : Bytes :=
  leBytes 4 timestamp ++ (leBytes 1 eventType ++ (leBytes 4 serverId ++ (leBytes 4 eventSize ++
    (leBytes 4 logPos ++ leBytes 2 flags))))

theorem length_headerBytes (timestamp eventType serverId eventSize logPos flags : ℕ) :
    (headerBytes timestamp eventType serverId eventSize logPos flags).length = 19 := by
  simp [headerBytes]

theorem parseHeader_headerBytes {p : Ptr} {rest : Bytes}
    {timestamp eventType serverId eventSize logPos flags : ℕ}
    (h : p.data = headerBytes timestamp eventType serverId eventSize logPos flags ++ rest)
    (htime : timestamp < 2 ^ 32) (htype : eventType < 256) (hsize : eventSize < 2 ^ 32) :
    parseHeader p = .ok ⟨timestamp, eventType, eventSize⟩ := by
  have hall : p.bytes 0 19 = .ok (headerBytes timestamp eventType serverId eventSize logPos flags) :=
    Ptr.bytes_head h (length_headerBytes ..).symm
  simp only [headerBytes, List.append_assoc] at h
  have htime' : p.le 0 4 = .ok timestamp := by
    rw [Ptr.le_head h (by simp), leNat_leBytes_of_lt (by norm_num; omega)]
  have htype' : p.read 4 = .ok (UInt8.ofNat eventType) := Ptr.read_at h (by simp)
  have hsize' : p.le 9 4 = .ok eventSize := by
    have h' : p.data = (leBytes 4 timestamp ++ (leBytes 1 eventType ++ leBytes 4 serverId)) ++
        leBytes 4 eventSize ++ (leBytes 4 logPos ++ (leBytes 2 flags ++ rest)) := by
      rw [h]; simp only [List.append_assoc]
    rw [Ptr.le_at h' (by simp) (by simp), leNat_leBytes_of_lt (by norm_num; omega)]
  have hbyte : (UInt8.ofNat eventType).toNat = eventType := by
    rw [UInt8.toNat_ofNat', Nat.mod_eq_of_lt (by omega)]
  unfold parseHeader
  simp only [hall, htime', htype', hsize', Res.ok_bind, Res.pure_eq, hbyte]

/-! ### Length-encoded numbers -/

/-- A length-encoded number. -/
def packedLength (n : ℕ) : Bytes :=
  if n < 251 then leBytes 1 n
  else if n < 65536 then 252 :: leBytes 2 n
  else if n < 16777216 then 253 :: leBytes 3 n
  else 254 :: leBytes 8 n

theorem getFieldLength_packedLength {p : Ptr} {xs rest : Bytes} {n k : ℕ} (hn : n < 2 ^ 32)
    (h : p.data = xs ++ (packedLength n ++ rest)) (hk : k = xs.length) :
    getFieldLength p k = .ok (n, k + (packedLength n).length) := by
  unfold packedLength at h ⊢
  unfold getFieldLength
  split_ifs at h ⊢ with h1 h2 h3
  · have hread : p.read k = .ok (UInt8.ofNat n) := Ptr.read_at h hk
    have hb : (UInt8.ofNat n).toNat = n := by rw [UInt8.toNat_ofNat', Nat.mod_eq_of_lt (by omega)]
    simp only [hread, Res.ok_bind, hb, if_pos h1, Res.pure_eq, length_leBytes]
  · have hread : p.read k = .ok 252 := Ptr.read_at h hk
    have hle : p.le (k + 1) 2 = .ok n := by
      have h' : p.data = (xs ++ [252]) ++ leBytes 2 n ++ rest := by
        rw [h]; simp only [List.append_assoc, List.cons_append, List.nil_append]
      rw [Ptr.le_at h' (by simp [hk]) (by simp), leNat_leBytes_of_lt (by norm_num; omega)]
    simp [hread, hle]
  · have hread : p.read k = .ok 253 := Ptr.read_at h hk
    have hle : p.le (k + 1) 3 = .ok n := by
      have h' : p.data = (xs ++ [253]) ++ leBytes 3 n ++ rest := by
        rw [h]; simp only [List.append_assoc, List.cons_append, List.nil_append]
      rw [Ptr.le_at h' (by simp [hk]) (by simp), leNat_leBytes_of_lt (by norm_num; omega)]
    simp [hread, hle]
  · have hread : p.read k = .ok 254 := Ptr.read_at h hk
    -- eight bytes are written and stepped over, four are read
    have hle : p.le (k + 1) 4 = .ok n := by
      have h' : p.data = (xs ++ [254]) ++ leBytes 4 n ++ (leBytes 4 (n / 256 ^ 4) ++ rest) := by
        rw [h, leBytes_add 4 4]; simp only [List.append_assoc, List.cons_append, List.nil_append]
      rw [Ptr.le_at h' (by simp [hk]) (by simp), leNat_leBytes_of_lt (by norm_num; omega)]
    simp [hread, hle]

/-- **A length-encoded number is read back**, whatever stands before and behind it: the pointer then
stands right behind it. -/
theorem fieldLength_readsBack (addr : ℕ) (front rest : Bytes) {n : ℕ} (hn : n < 2 ^ 32) :
    ∃ after, getFieldLength ⟨addr, front ++ (packedLength n ++ rest)⟩ front.length = .ok (n, after) ∧
      after = front.length + (packedLength n).length ∧
      ((⟨addr, front ++ (packedLength n ++ rest)⟩ : Ptr).add after).data = rest := by
  refine ⟨_, getFieldLength_packedLength hn rfl rfl, rfl, ?_⟩
  have hdata : front ++ (packedLength n ++ rest) = (front ++ packedLength n) ++ rest :=
    (List.append_assoc ..).symm
  exact Ptr.add_at hdata List.length_append.symm

/-- The largest number, in nine bytes behind two others. -/
theorem fieldLength_readsBack_largest : ∃ after,
    getFieldLength ⟨0, [7, 7] ++ (packedLength 4294967295 ++ [9])⟩ 2 = .ok (4294967295, after) ∧
      after = 2 + (packedLength 4294967295).length ∧
      ((⟨0, [7, 7] ++ (packedLength 4294967295 ++ [9])⟩ : Ptr).add after).data = [9] :=
  fieldLength_readsBack 0 [7, 7] [9] (by norm_num)

/-! ### The frame -/

/-- The post header's version, with the data of the extra header of a version 2 event. -/
inductive RowsVersion where
  | v0
  | v1
  | v2 (extra : Bytes)
  deriving DecidableEq, Repr

/-- The bytes of a table id. -/
def RowsVersion.idLen : RowsVersion → ℕ
  | .v0 => 4
  | .v1 | .v2 _ => 6

/-- The length of the post header. -/
def RowsVersion.postHeaderLen : RowsVersion → ℕ
  | .v0 => 6
  | .v1 => 8
  | .v2 _ => 10

/-- The data of the extra header. -/
def RowsVersion.extra : RowsVersion → Bytes
  | .v0 | .v1 => []
  | .v2 extra => extra

/-- The bytes behind the flags of the post header. -/
def RowsVersion.extraBytes : RowsVersion → Bytes
  | .v0 | .v1 => []
  | .v2 extra => leBytes 2 (extra.length + 2) ++ extra

/-- An extra header is empty or holds one info: a tag byte, then its length, a format byte and the
payload. -/
def ExtraOk (extra : Bytes) : Prop :=
  extra = [] ∨ ∃ format : UInt8, ∃ payload : Bytes, payload.length + 2 < 256 ∧
    extra = 0 :: UInt8.ofNat (payload.length + 2) :: format :: payload

/-- The parts of a rows event. -/
structure RowsFrame where
  kind : RowsKind
  eventType : ℕ
  timestamp : ℕ
  serverId : ℕ
  logPos : ℕ
  flags : ℕ
  more : Bytes
  version : RowsVersion
  tableId : ℕ
  rowsFlags : ℕ
  columnCount : ℕ
  before : Bytes
  after : Bytes
  rows : Bytes
  checksum : Bytes

namespace RowsFrame

/-- The post header. -/
def post (f : RowsFrame) : Bytes :=
  leBytes f.version.idLen f.tableId ++ (leBytes 2 f.rowsFlags ++ f.version.extraBytes)

/-- The second bitmap of an UPDATE event. -/
def second (f : RowsFrame) : Bytes := if f.kind = .update then f.after else []

/-- The length of the event. -/
def size (f : RowsFrame) : ℕ :=
  19 + f.more.length + f.post.length + (packedLength f.columnCount).length + f.before.length +
    f.second.length + f.rows.length + f.checksum.length

/-- The bytes of the event. -/
def bytes (f : RowsFrame) : Bytes :=
  headerBytes f.timestamp f.eventType f.serverId f.size f.logPos f.flags ++ (f.more ++ (f.post ++
    (packedLength f.columnCount ++ (f.before ++ (f.second ++ (f.rows ++ f.checksum))))))

/-- Where the rows begin. -/
def rowsPos (f : RowsFrame) : ℕ :=
  19 + f.more.length + f.post.length + (packedLength f.columnCount).length + f.before.length +
    f.second.length

end RowsFrame

/-- A well-formed rows event under a format description. -/
structure RowsFrame.Ok (gde : CHeaderEvent) (f : RowsFrame) : Prop where
  eventType : f.eventType < 256
  timestamp : f.timestamp < 2 ^ 32
  common : gde.commonHeaderLength = 19 + f.more.length
  postHeader : gde.postHeader f.eventType = .ok f.version.postHeaderLen
  extra : ExtraOk f.version.extra
  before : ImageOk f.columnCount f.before
  after : f.kind = .update → ImageOk f.columnCount f.after
  checksum : f.checksum.length = 4
  size : f.size < 2 ^ 32

section Ok
variable {gde : CHeaderEvent} {f : RowsFrame} (h : f.Ok gde)
include h

/-- The row data are shorter than the event, whose size has 32 bits. -/
theorem RowsFrame.Ok.rows_lt : f.rows.length < 2 ^ 32 := by
  have hsize := h.size
  unfold RowsFrame.size at hsize
  omega

/-- The checksum stands behind the row data. -/
theorem RowsFrame.Ok.behind_ne_nil (rest : Bytes) : f.checksum ++ rest ≠ [] := by
  intro hnil
  have hlen := congrArg List.length hnil
  rw [List.length_append, h.checksum, List.length_nil] at hlen
  omega

end Ok

/-- The post-header lengths of a MySQL 5.7 server. -/
def description : CHeaderEvent :=
  ⟨19, [56, 13, 0, 8, 0, 18, 0, 4, 4, 4, 4, 18, 0, 0, 95, 0, 4, 26, 8, 0, 0, 0, 8, 8, 8, 2, 0, 0, 0,
    10, 10, 10, 42, 42, 0, 18, 52, 0]⟩

/-! ### Loading a frame -/

theorem length_post (f : RowsFrame) :
    f.post.length = f.version.postHeaderLen + f.version.extra.length := by
  cases hv : f.version with
  | v0 | v1 => simp [RowsFrame.post, hv, RowsVersion.idLen, RowsVersion.extraBytes,
      RowsVersion.postHeaderLen, RowsVersion.extra]
  | v2 extra =>
    simp only [RowsFrame.post, hv, RowsVersion.idLen, RowsVersion.extraBytes, List.length_append,
      length_leBytes, RowsVersion.postHeaderLen, RowsVersion.extra]
    omega

theorem skipExtraHeader_extraOk {p : Ptr} {xs extra rest : Bytes} (hok : ExtraOk extra)
    (h : p.data = xs ++ (extra ++ rest)) {pos : ℕ} (hpos : pos = xs.length) :
    skipExtraHeader p (pos + extra.length) extra.length pos = .ok true := by
  rcases hok with rfl | ⟨format, payload, hlen, rfl⟩
  · rfl
  · -- the tag, the length and the info are read; the next round is at the end
    set len := UInt8.ofNat (payload.length + 2) with hlendef
    have hb : len.toNat = payload.length + 2 := by
      rw [hlendef, UInt8.toNat_ofNat', Nat.mod_eq_of_lt (by omega)]
    have htag : p.read pos = .ok 0 := Ptr.read_at h hpos
    have h1 : p.data = (xs ++ [0]) ++ len :: (format :: payload ++ rest) := by
      rw [h]; simp
    have hread : p.read (pos + 1) = .ok len := Ptr.read_at h1 (by simp [hpos])
    have h2 : p.data = (xs ++ [0]) ++ (len :: format :: payload) ++ rest := by
      rw [h]; simp
    have hbytes : p.bytes (pos + 1) (payload.length + 2) = .ok (len :: format :: payload) :=
      Ptr.bytes_at h2 (by simp [hpos]) (by simp)
    have hl : (0 :: len :: format :: payload).length = payload.length + 1 + 1 + 1 := by simp
    have hend : pos + (payload.length + 1 + 1 + 1) - (pos + 1) = payload.length + 2 := by omega
    rw [hl, skipExtraHeader, if_pos (by omega), htag, Res.ok_bind]
    simp only [UInt8.toNat_zero, if_true, hend, hread, Res.ok_bind, hb, hbytes,
      if_neg (show ¬ payload.length + 2 < 2 by omega), lt_irrefl, if_false]
    rw [skipExtraHeader, if_neg (by omega)]

section Load
variable {gde : CHeaderEvent} {f : RowsFrame} (hok : f.Ok gde) {p : Ptr} {rest : Bytes}
  (hp : p.data = f.bytes ++ rest)
include hok hp

/-- The extra header is stepped over. -/
theorem extra_frame : (if f.version.postHeaderLen = rowsHeaderLenV2 then
      loadExtraHeader p (gde.commonHeaderLength + f.version.idLen + 2) else pure (some 0)) =
    .ok (some f.version.extra.length) := by
  have hc := hok.common
  have hex := hok.extra
  have hsize := hok.size
  have hpl := length_post f
  cases hv : f.version with
  | v0 => rfl
  | v1 => rfl
  | v2 extra =>
    have hlen : extra.length + 2 < 65536 := by
      rw [hv] at hex
      rcases hex with hnil | ⟨format, payload, hlt, hextra⟩
      · have : extra = [] := hnil
        rw [this]; simp
      · have : extra = _ := hextra
        rw [this]; simp only [List.length_cons]; omega
    have hdata : p.data = (headerBytes f.timestamp f.eventType f.serverId f.size f.logPos f.flags ++
        (f.more ++ (leBytes 6 f.tableId ++ leBytes 2 f.rowsFlags))) ++
        (leBytes 2 (extra.length + 2) ++ (extra ++ (packedLength f.columnCount ++ (f.before ++
          (f.second ++ (f.rows ++ (f.checksum ++ rest))))))) := by
      rw [hp, RowsFrame.bytes, RowsFrame.post, hv]
      simp only [RowsVersion.idLen, RowsVersion.extraBytes, List.append_assoc]
    have hpos : gde.commonHeaderLength + 6 + 2 =
        (headerBytes f.timestamp f.eventType f.serverId f.size f.logPos f.flags ++
        (f.more ++ (leBytes 6 f.tableId ++ leBytes 2 f.rowsFlags))).length := by
      simp only [List.length_append, length_headerBytes, length_leBytes]; omega
    have hle : p.le (gde.commonHeaderLength + 6 + 2) 2 = .ok (extra.length + 2) := by
      rw [← List.append_assoc] at hdata
      rw [Ptr.le_at hdata hpos (by simp), leNat_leBytes_of_lt (by norm_num; omega)]
    have hskip : skipExtraHeader p (gde.commonHeaderLength + 6 + 2 + 2 + extra.length) extra.length
        (gde.commonHeaderLength + 6 + 2 + 2) = .ok true :=
      skipExtraHeader_extraOk (by rw [hv] at hex; exact hex)
      (by rw [hdata, ← List.append_assoc]) (by rw [List.length_append, ← hpos, length_leBytes])
    simp only [RowsVersion.postHeaderLen, rowsHeaderLenV2, if_true, RowsVersion.idLen, loadExtraHeader,
      RowsVersion.extra, hle, Res.ok_bind, if_neg (show ¬ extra.length + 2 < 2 by omega),
      Nat.add_sub_cancel, hskip, Res.pure_eq]

/-- The table id stands behind the common header. -/
theorem tableId_frame : p.le gde.commonHeaderLength f.version.idLen =
    .ok (f.tableId % 256 ^ f.version.idLen) := by
  have hc := hok.common
  have hdata : p.data = (headerBytes f.timestamp f.eventType f.serverId f.size f.logPos f.flags ++
      f.more) ++ leBytes f.version.idLen f.tableId ++ (leBytes 2 f.rowsFlags ++ (f.version.extraBytes ++
        (packedLength f.columnCount ++ (f.before ++ (f.second ++ (f.rows ++ (f.checksum ++ rest))))))) := by
    rw [hp, RowsFrame.bytes, RowsFrame.post]; simp only [List.append_assoc]
  rw [Ptr.le_at hdata ?_ (by simp), leNat_leBytes]
  rw [List.length_append, length_headerBytes]; omega

/-- Behind it stand the flags. -/
theorem rowsFlags_frame : p.bytes (gde.commonHeaderLength + f.version.idLen) 2 =
    .ok (leBytes 2 f.rowsFlags) := by
  have hc := hok.common
  have hdata : p.data = (headerBytes f.timestamp f.eventType f.serverId f.size f.logPos f.flags ++
      (f.more ++ leBytes f.version.idLen f.tableId)) ++ leBytes 2 f.rowsFlags ++ (f.version.extraBytes ++
        (packedLength f.columnCount ++ (f.before ++ (f.second ++ (f.rows ++ (f.checksum ++ rest)))))) := by
    rw [hp, RowsFrame.bytes, RowsFrame.post]; simp only [List.append_assoc]
  refine Ptr.bytes_at hdata ?_ (by simp)
  simp only [List.length_append, length_leBytes, length_headerBytes]; omega

/-- The number of columns stands behind the post-header. -/
theorem columnCount_frame : getFieldLength p
      (gde.commonHeaderLength + f.version.postHeaderLen + f.version.extra.length) =
    .ok (f.columnCount, gde.commonHeaderLength + f.version.postHeaderLen + f.version.extra.length +
      (packedLength f.columnCount).length) := by
  have hc := hok.common
  have hpl := length_post f
  have hcount : f.columnCount < 2 ^ 32 := by have := hok.before.lt; omega
  have hdata : p.data = (headerBytes f.timestamp f.eventType f.serverId f.size f.logPos f.flags ++
      (f.more ++ f.post)) ++ (packedLength f.columnCount ++ (f.before ++ (f.second ++ (f.rows ++
        (f.checksum ++ rest))))) := by
    rw [hp, RowsFrame.bytes]; simp only [List.append_assoc]
  refine getFieldLength_packedLength hcount hdata ?_
  simp only [List.length_append, length_headerBytes]; omega

/-- Behind it stands the image of the columns before the change. -/
theorem before_frame : p.bytes (gde.commonHeaderLength + f.version.postHeaderLen +
      f.version.extra.length + (packedLength f.columnCount).length) f.before.length = .ok f.before := by
  have hc := hok.common
  have hpl := length_post f
  have hdata : p.data = (headerBytes f.timestamp f.eventType f.serverId f.size f.logPos f.flags ++
      (f.more ++ (f.post ++ packedLength f.columnCount))) ++ f.before ++ (f.second ++ (f.rows ++
        (f.checksum ++ rest))) := by
    rw [hp, RowsFrame.bytes]; simp only [List.append_assoc]
  refine Ptr.bytes_at hdata ?_ rfl
  simp only [List.length_append, length_headerBytes]; omega

/-- An update has a second image, of the same length. -/
theorem after_frame (hk : f.kind = .update) : p.bytes (gde.commonHeaderLength +
      f.version.postHeaderLen + f.version.extra.length + (packedLength f.columnCount).length +
      f.before.length) f.before.length = .ok f.after := by
  have hc := hok.common
  have hpl := length_post f
  have hsecond : f.second = f.after := by rw [RowsFrame.second, if_pos hk]
  have hdata : p.data = (headerBytes f.timestamp f.eventType f.serverId f.size f.logPos f.flags ++
      (f.more ++ (f.post ++ (packedLength f.columnCount ++ f.before)))) ++ f.after ++ (f.rows ++
        (f.checksum ++ rest)) := by
    rw [hp, RowsFrame.bytes, hsecond]; simp only [List.append_assoc]
  refine Ptr.bytes_at hdata ?_ (by rw [hok.before.length, (hok.after hk).length])
  simp only [List.length_append, length_headerBytes]; omega

/-- **Loading a rows event** reads its frame back. -/
theorem loadEvent_frame {cols colsAi : MyBitmap} (hcols : loadBitmap f.columnCount f.before = .ok cols)
    (hcolsAi : (if f.kind = .update then loadBitmap f.columnCount f.after else pure zeroBitmap) =
      .ok colsAi) :
    CRowsEvent.loadEvent gde f.kind p = .ok (⟨f.kind, f.eventType, f.timestamp,
      some (f.tableId % 256 ^ f.version.idLen % 2 ^ 32), some f.columnCount, cols, colsAi,
      some (p.add f.rowsPos), some (f.rows.length + 4), [], []⟩, .success) := by
  have hc := hok.common
  have hsize := hok.size
  have hpl := length_post f
  have hck := hok.checksum
  have hheader : parseHeader p = .ok ⟨f.timestamp, f.eventType, f.size⟩ := by
    rw [RowsFrame.bytes, List.append_assoc] at hp
    exact parseHeader_headerBytes hp hok.timestamp hok.eventType hsize
  have hfit : ¬ f.size < gde.commonHeaderLength + f.version.postHeaderLen := by
    unfold RowsFrame.size; omega
  have hid : (if f.version.postHeaderLen = 6 then 4 else 6) = f.version.idLen := by
    cases f.version <;> rfl
  have hrows : f.rowsPos = gde.commonHeaderLength + f.version.postHeaderLen + f.version.extra.length +
      (packedLength f.columnCount).length + f.before.length + f.second.length := by
    unfold RowsFrame.rowsPos; omega
  have hlen : (f.size + 2 ^ 32 - f.rowsPos % 2 ^ 32) % 2 ^ 32 = f.rows.length + 4 := by
    unfold RowsFrame.size RowsFrame.rowsPos at *; omega
  unfold CRowsEvent.loadEvent
  simp only [hheader, Res.ok_bind, hok.postHeader, if_neg hfit, hid, tableId_frame hok hp,
    rowsFlags_frame hok hp, extra_frame hok hp, columnCount_frame hok hp, before_frame hok hp, hcols,
    noBytes_eq hok.before]
  by_cases hk : f.kind = .update
  · have hsecond : f.second.length = f.before.length := by
      rw [RowsFrame.second, if_pos hk, hok.before.length, (hok.after hk).length]
    rw [if_pos hk] at hcolsAi
    rw [hsecond] at hrows
    simp only [if_pos hk, after_frame hok hp hk, Res.ok_bind, hcolsAi, Res.pure_eq, ← hrows, hlen]
    rfl
  · have hsecond : f.second = [] := by rw [RowsFrame.second, if_neg hk]
    rw [if_neg hk] at hcolsAi
    obtain rfl : zeroBitmap = colsAi := by simpa using hcolsAi
    rw [hsecond, List.length_nil, Nat.add_zero] at hrows
    simp only [if_neg hk, Res.ok_bind, Res.pure_eq, ← hrows, hlen]
    rfl

omit hok in
/-- Behind the read position stand the rows and the checksum. -/
theorem rows_frame : (p.add f.rowsPos).data = f.rows ++ (f.checksum ++ rest) := by
  have h' : p.data = (headerBytes f.timestamp f.eventType f.serverId f.size f.logPos f.flags ++
      (f.more ++ (f.post ++ (packedLength f.columnCount ++ (f.before ++ f.second))))) ++
      (f.rows ++ (f.checksum ++ rest)) := by
    rw [hp, RowsFrame.bytes]; simp only [List.append_assoc]
  refine Ptr.add_at h' ?_
  simp only [RowsFrame.rowsPos, List.length_append, length_headerBytes]
  omega

end Load

/-! ### Decoding a loaded event -/

/-- The TABLE_MAP event of a table. -/
def mapEvent (t : Table) (tableId : ℕ) (dbName tableName : Bytes) : CTableMapEvent :=
  ⟨some tableId, some t.colType.length, some t.metadata.length, t.colType, t.metadata, dbName,
    tableName⟩

theorem createTableDef_mapEvent (t : Table) (tableId : ℕ) (dbName tableName : Bytes) :
    (mapEvent t tableId dbName tableName).createTableDef = .ok t.tableDef := t.new_eq

/-- `parseEvent` succeeds when its loop over the rows does and the checksum can be read. -/
theorem parseEvent_iff {ev ev' : CRowsEvent} {tm : CTableMapEvent} {td : CTableDef} {ptr : Ptr}
    {len n : ℕ} (hdef : tm.createTableDef = .ok td) (hptr : ev.ptrRowsData = some ptr)
    (hlen : ev.rowsDataLen = some (len + 4)) (hlt : len < 2 ^ 32) (hn : ev.columnCount = some n) :
    ev.parseEvent (some tm) = .ok (ev', .success) ↔
      ∃ st bs, parseRows (decide (ev.kind = .update)) td ev.cols n len (ptr.data.length + 2)
          ⟨ev.rowBeforeValues, ev.rowAfterValues, ptr, 0⟩ = .ok st ∧
        st.ptr.bytes 0 4 = .ok bs ∧
        ev' = { ev with rowBeforeValues := st.before, rowAfterValues := st.after } := by
  have hlimit : rowsLimit (len + 4) = len := by unfold rowsLimit; omega
  rw [CRowsEvent.parseEvent_eq hn hptr hlen hdef, hlimit]
  constructor
  · intro h
    obtain ⟨st, hst, h⟩ := Res.bind_eq_ok.mp h
    obtain ⟨bs, hbs, h⟩ := Res.bind_eq_ok.mp h
    rw [Res.pure_eq, Except.ok.injEq, Prod.mk.injEq] at h
    exact ⟨st, bs, hst, hbs, h.1.symm⟩
  · rintro ⟨st, bs, hst, hbs, rfl⟩
    rw [hst, Res.ok_bind, hbs, Res.ok_bind, Res.pure_eq]

end DataSync.Binlog.RowsFormat
