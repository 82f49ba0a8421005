import DataSync.Binlog.RowsFormat

/-! # The bytes of a TABLE_MAP event

A TABLE_MAP event is the common header, the table id and flags, the two names, the column types, the
metadata of the columns and a null bitmap. A column has a metadata word of no, one or two bytes; the
words stand one behind the other, and the constructor of `CTableDef` cuts them apart with one running
index. `metadataWord_at`: on the bytes of a word it gives the word and steps over exactly these bytes;
the induction over the columns carries the bytes already stepped over.

`loadEvent_mapFrame`: `CTableMapEvent::loadEvent` reads the event back, and `metadata_round_trip`:
the table definition has every column's word. -/

namespace DataSync.Binlog.TableMap

open DataSync.Lib.Words DataSync.Lib.Memory DataSync.Binlog.Format DataSync.Binlog.Bitmap
open DataSync.Binlog.FieldFormat DataSync.Binlog.TableDef DataSync.Binlog.Alignment
open DataSync.Binlog.LogEvent DataSync.Binlog.RowsFormat

/-! ### Metadata words -/

/-- How the metadata word of a column is written. -/
inductive MetaCode where
  | absent
  | byte
  | typeFirst
  | lowFirst
  deriving DecidableEq, Repr

/-- One byte for the blobs, the floating point numbers, the documents and the times with a fraction;
two bytes, the high one first, for the types whose first byte is a type or a precision; two bytes, the
low one first, for the lengths of BIT and VARCHAR. -/
def metaCode : FieldType → MetaCode
  | .tinyBlob | .blob | .mediumBlob | .longBlob | .float | .double | .geometry | .json
  | .time2 | .datetime2 | .timestamp2 => .byte
  | .enum | .set | .string | .newdecimal => .typeFirst
  | .bit | .varchar => .lowFirst
  | _ => .absent

/-- The bytes of a word. -/
def MetaCode.width : MetaCode → ℕ
  | .absent => 0
  | .byte => 1
  | .typeFirst | .lowFirst => 2

/-- The word `x`, written. -/
def MetaCode.bytes (x : ℕ) : MetaCode → Bytes
  | .absent => []
  | .byte => leBytes 1 x
  | .typeFirst => beBytes 2 x
  | .lowFirst => leBytes 2 x

theorem MetaCode.length_bytes (x : ℕ) (c : MetaCode) : (c.bytes x).length = c.width := by
  cases c <;> simp [bytes, width]

/-- A column: its type and a metadata word that fits. -/
structure Column where
  type : UInt8
  word : ℕ
  lt : word < 256 ^ (metaCode (FieldType.ofCode type.toNat)).width

namespace Column

/-- How the column's word is written. -/
def code (c : Column) : MetaCode := metaCode (FieldType.ofCode c.type.toNat)

/-- The column's word, written. -/
def bytes (c : Column) : Bytes := c.code.bytes c.word

theorem length_bytes (c : Column) : c.bytes.length = c.code.width := c.code.length_bytes c.word

end Column

/-- The metadata of a table. -/
def metadataOf (columns : List Column) : Bytes := columns.flatMap Column.bytes

/-- The index behind the constructor's loop. -/
def metadataIndex (fieldMetadata : Bytes) : ℕ → List UInt8 → Res ℕ
  | index, [] => .ok index
  | index, t :: types => do
    let (_, index) ← metadataWord fieldMetadata index (FieldType.ofCode t.toNat)
    metadataIndex fieldMetadata index types

section Word
variable {xs rest : Bytes} {x : ℕ}

/-- The byte behind `xs`, as the constructor reads it. -/
theorem byte_at {b : UInt8} {k : ℕ} (hk : k = xs.length) :
    UInt8.toNat <$> Res.ofOption (xs ++ b :: rest)[k]? = .ok b.toNat := by
  subst hk; simp

/-- The second byte behind `xs`. -/
theorem byte_at_succ {b b' : UInt8} :
    UInt8.toNat <$> Res.ofOption (xs ++ b :: b' :: rest)[xs.length + 1]? = .ok b'.toNat := by
  rw [show xs ++ b :: b' :: rest = (xs ++ [b]) ++ b' :: rest by simp]
  exact byte_at (by simp)

/-- **One round** of the constructor's loop on the bytes of a word. -/
theorem metadataWord_at (t : FieldType) (h : x < 256 ^ (metaCode t).width) :
    metadataWord (xs ++ ((metaCode t).bytes x ++ rest)) xs.length t =
      .ok (x, xs.length + (metaCode t).width) := by
  have hlow : (UInt8.ofNat x).toNat = x % 256 := UInt8.toNat_ofNat'
  have hhigh : (UInt8.ofNat (x / 256)).toNat = x / 256 % 256 := UInt8.toNat_ofNat'
  unfold metadataWord
  cases t with
  | tinyBlob | blob | mediumBlob | longBlob | float | double | geometry | json | time2 | datetime2
  | timestamp2 =>
    have hx : x < 256 := by simpa [metaCode, MetaCode.width] using h
    simp only [metaCode, MetaCode.bytes, MetaCode.width, leBytes, List.cons_append, List.nil_append,
      byte_at rfl, Res.ok_bind, Res.pure_eq, hlow, Nat.mod_eq_of_lt hx]
  | enum | set | string | newdecimal =>
    have hx : x < 65536 := by simpa [metaCode, MetaCode.width] using h
    simp only [metaCode, MetaCode.bytes, MetaCode.width, beBytes, leBytes, List.reverse_cons,
      List.reverse_nil, List.cons_append, List.nil_append, byte_at rfl, byte_at_succ, Res.ok_bind,
      Res.pure_eq, hlow, hhigh]
    rw [show x / 256 % 256 * 256 + x % 256 = x by omega]
  | bit | varchar =>
    have hx : x < 65536 := by simpa [metaCode, MetaCode.width] using h
    simp only [metaCode, MetaCode.bytes, MetaCode.width, leBytes, List.cons_append, List.nil_append,
      byte_at rfl, byte_at_succ, Res.ok_bind, Res.pure_eq, hlow, hhigh]
    rw [show x % 256 + x / 256 % 256 * 256 = x by omega]
  | _ =>
    have hx : x = 0 := by simpa [metaCode, MetaCode.width] using h
    simp [metaCode, MetaCode.width, hx]

end Word

section Columns
variable (xs rest : Bytes)

/-- The metadata with the first column's word among the bytes before it. -/
theorem metadataOf_cons (c : Column) (columns : List Column) :
    xs ++ (metadataOf (c :: columns) ++ rest) = xs ++ c.bytes ++ (metadataOf columns ++ rest) := by
  simp [metadataOf]

/-- The round of a column steps over the column's word. -/
theorem metadataWord_column (c : Column) (columns : List Column) :
    metadataWord (xs ++ (metadataOf (c :: columns) ++ rest)) xs.length
      (FieldType.ofCode c.type.toNat) = .ok (c.word, (xs ++ c.bytes).length) := by
  rw [metadataOf_cons, List.append_assoc, List.length_append, c.length_bytes]
  exact metadataWord_at _ c.lt

/-- The loop reads the words, wherever they stand. -/
theorem metadataWords_at (columns : List Column) :
    metadataWords (xs ++ (metadataOf columns ++ rest)) xs.length (columns.map Column.type) =
      .ok (columns.map Column.word) := by
  induction columns generalizing xs with
  | nil => rfl
  | cons c columns ih =>
    rw [List.map_cons, metadataWords, metadataWord_column, Res.ok_bind]
    simp only [metadataOf_cons, ih, Res.ok_bind, Res.pure_eq, List.map_cons]

/-- The index comes to stand behind the last word. -/
theorem metadataIndex_at (columns : List Column) :
    metadataIndex (xs ++ (metadataOf columns ++ rest)) xs.length (columns.map Column.type) =
      .ok (xs ++ metadataOf columns).length := by
  induction columns generalizing xs with
  | nil => simp [metadataIndex, metadataOf]
  | cons c columns ih =>
    rw [List.map_cons, metadataIndex, metadataWord_column, Res.ok_bind]
    simp only [metadataOf_cons, ih]
    simp [metadataOf]

end Columns

/-! ### The frame -/

/-- The parts of a TABLE_MAP event. `short` is the post header with a table id of four bytes. -/
structure MapFrame where
  eventType : ℕ
  timestamp : ℕ
  serverId : ℕ
  logPos : ℕ
  flags : ℕ
  more : Bytes
  short : Bool
  tableId : ℕ
  tableFlags : ℕ
  dbName : Bytes
  tableName : Bytes
  columns : List Column
  nullBits : Bytes
  checksum : Bytes

namespace MapFrame

/-- The bytes of the table id. -/
def idLen (f : MapFrame) : ℕ := if f.short then 4 else 6

/-- The post header. -/
def post (f : MapFrame) : Bytes := leBytes f.idLen f.tableId ++ leBytes 2 f.tableFlags

/-- The two names, each behind its length and before a NUL. -/
def names (f : MapFrame) : Bytes :=
  UInt8.ofNat f.dbName.length :: (f.dbName ++ 0 :: UInt8.ofNat f.tableName.length ::
    (f.tableName ++ [0]))

/-- The column types. -/
def types (f : MapFrame) : Bytes := f.columns.map Column.type

/-- The metadata. -/
def metadata (f : MapFrame) : Bytes := metadataOf f.columns

/-- The length of the event. -/
def size (f : MapFrame) : ℕ :=
  19 + f.more.length + f.post.length + f.names.length + (packedLength f.types.length).length +
    f.types.length + (packedLength f.metadata.length).length + f.metadata.length +
    f.nullBits.length + f.checksum.length

/-- The bytes of the event. -/
def bytes (f : MapFrame) : Bytes :=
  headerBytes f.timestamp f.eventType f.serverId f.size f.logPos f.flags ++ (f.more ++ (f.post ++
    (f.names ++ (packedLength f.types.length ++ (f.types ++ (packedLength f.metadata.length ++
      (f.metadata ++ (f.nullBits ++ f.checksum))))))))

end MapFrame

/-- A well-formed TABLE_MAP event under a format description. The names have length bytes; twice the
number of columns is a 32-bit number, which MySQL's limit of 4096 columns is far below. -/
structure MapFrame.Ok (gde : CHeaderEvent) (f : MapFrame) : Prop where
  eventType : f.eventType < 256
  timestamp : f.timestamp < 2 ^ 32
  common : gde.commonHeaderLength = 19 + f.more.length
  postHeader : gde.postHeader f.eventType = .ok (f.idLen + 2)
  dbName : f.dbName.length < 256
  tableName : f.tableName.length < 256
  columns : f.columns.length < 2 ^ 31
  nullBits : f.nullBits.length = (f.columns.length + 7) / 8
  size : f.size < 2 ^ 32

/-! ### Loading a frame -/

theorem length_names (f : MapFrame) :
    f.names.length = f.dbName.length + f.tableName.length + 4 := by
  simp only [MapFrame.names, List.length_cons, List.length_append, List.length_nil]
  omega

theorem length_types (f : MapFrame) : f.types.length = f.columns.length := List.length_map ..

theorem length_mapPost (f : MapFrame) : f.post.length = f.idLen + 2 := by simp [MapFrame.post]

/-- No column has more than two bytes of metadata. -/
theorem length_metadata_le (f : MapFrame) : f.metadata.length ≤ f.columns.length * 2 := by
  have hbytes (c : Column) : c.bytes.length ≤ 2 := by
    rw [c.length_bytes]
    cases c.code <;> simp [MetaCode.width]
  unfold MapFrame.metadata metadataOf
  induction f.columns with
  | nil => simp
  | cons c columns ih =>
    have := hbytes c
    simp only [List.flatMap_cons, List.length_append, List.length_cons]
    omega

/-- The names behind `xs`, each behind its length and before a NUL. -/
theorem names_at {p : Ptr} {xs db table rest : Bytes}
    (h : p.data = xs ++ (UInt8.ofNat db.length :: (db ++ 0 :: UInt8.ofNat table.length ::
      (table ++ 0 :: rest)))) :
    p.read xs.length = .ok (UInt8.ofNat db.length) ∧
      p.read (xs.length + db.length + 2) = .ok (UInt8.ofNat table.length) ∧
      p.bytes (xs.length + 1) db.length = .ok db ∧
      p.bytes (xs.length + db.length + 3) table.length = .ok table := by
  have h1 : p.data = xs ++ [UInt8.ofNat db.length] ++ (db ++ (0 :: UInt8.ofNat table.length ::
      (table ++ 0 :: rest))) := by
    rw [h]; simp only [List.append_assoc, List.cons_append, List.nil_append]
  have h2 : p.data = (xs ++ UInt8.ofNat db.length :: (db ++ [0])) ++ UInt8.ofNat table.length ::
      (table ++ 0 :: rest) := by
    rw [h]; simp only [List.append_assoc, List.cons_append, List.nil_append]
  have h3 : p.data = (xs ++ UInt8.ofNat db.length :: (db ++ [0, UInt8.ofNat table.length])) ++ table ++
      (0 :: rest) := by
    rw [h]; simp only [List.append_assoc, List.cons_append, List.nil_append]
  refine ⟨Ptr.read_at h rfl, Ptr.read_at h2 ?_, ?_, Ptr.bytes_at h3 ?_ rfl⟩
  · simp only [List.length_append, List.length_cons, List.length_nil]; omega
  · rw [List.append_assoc] at h1
    exact Ptr.bytes_behind h1 rfl rfl
  · simp only [List.length_append, List.length_cons, List.length_nil]; omega

/-- The columns behind `xs`: their number and types, the size of the metadata, the metadata and the null
bits, each behind the other. -/
theorem columns_at {p : Ptr} {xs types metadata nullBits rest : Bytes}
    (htypes : types.length < 2 ^ 32) (hmeta : metadata.length < 2 ^ 32)
    (h : p.data = xs ++ (packedLength types.length ++ (types ++ (packedLength metadata.length ++
      (metadata ++ (nullBits ++ rest)))))) :
    ∃ k l, k + types.length + (packedLength metadata.length).length = l ∧
      xs.length + (packedLength types.length).length = k ∧
      getFieldLength p xs.length = .ok (types.length, k) ∧ p.bytes k types.length = .ok types ∧
      getFieldLength p (k + types.length) = .ok (metadata.length, l) ∧
      p.bytes l metadata.length = .ok metadata ∧
      p.bytes (l + metadata.length) nullBits.length = .ok nullBits := by
  have h1 : p.data = (xs ++ packedLength types.length) ++ (types ++ (packedLength metadata.length ++
      (metadata ++ (nullBits ++ rest)))) := by
    rw [h]; simp only [List.append_assoc]
  have h2 : p.data = (xs ++ packedLength types.length ++ types) ++ (packedLength metadata.length ++
      (metadata ++ (nullBits ++ rest))) := by
    rw [h]; simp only [List.append_assoc]
  have h3 : p.data = (xs ++ packedLength types.length ++ types ++ packedLength metadata.length) ++
      (metadata ++ (nullBits ++ rest)) := by
    rw [h]; simp only [List.append_assoc]
  refine ⟨_, _, rfl, rfl, getFieldLength_packedLength htypes h rfl, Ptr.bytes_behind h rfl rfl,
    getFieldLength_packedLength hmeta h2 ?_, Ptr.bytes_behind h2 ?_ rfl, Ptr.bytes_behind h3 ?_ rfl⟩
  all_goals simp only [List.length_append]

section Load
variable {gde : CHeaderEvent} {f : MapFrame} (hok : f.Ok gde) {p : Ptr} {rest : Bytes}
  (hp : p.data = f.bytes ++ rest)
include hok hp

/-- The names stand behind the post header, the columns behind the names. -/
theorem payload_frame : ∃ xs ys : Bytes, xs.length = gde.commonHeaderLength + (f.idLen + 2) ∧
    ys.length = gde.commonHeaderLength + (f.idLen + 2) + f.dbName.length + f.tableName.length + 4 ∧
    (∃ zs, p.data = xs ++ (UInt8.ofNat f.dbName.length :: (f.dbName ++ 0 ::
      UInt8.ofNat f.tableName.length :: (f.tableName ++ 0 :: zs)))) ∧
    p.data = ys ++ (packedLength f.types.length ++ (f.types ++ (packedLength f.metadata.length ++
      (f.metadata ++ (f.nullBits ++ (f.checksum ++ rest)))))) := by
  have hc := hok.common
  have hpost := length_mapPost f
  have hnames := length_names f
  set front := headerBytes f.timestamp f.eventType f.serverId f.size f.logPos f.flags ++
    (f.more ++ f.post) with hfront
  have hlen : front.length = gde.commonHeaderLength + (f.idLen + 2) := by
    simp only [hfront, List.length_append, length_headerBytes]; omega
  have hdata : p.data = front ++ (f.names ++ (packedLength f.types.length ++ (f.types ++
      (packedLength f.metadata.length ++ (f.metadata ++ (f.nullBits ++ (f.checksum ++ rest))))))) := by
    rw [hp, MapFrame.bytes, hfront]; simp only [List.append_assoc]
  refine ⟨front, front ++ f.names, hlen, ?_, ?_, ?_⟩
  · rw [List.length_append, hlen, hnames]; omega
  · refine ⟨packedLength f.types.length ++ (f.types ++ (packedLength f.metadata.length ++ (f.metadata ++
      (f.nullBits ++ (f.checksum ++ rest))))), ?_⟩
    rw [hdata, MapFrame.names]; simp only [List.append_assoc, List.cons_append, List.nil_append]
  · rw [hdata, List.append_assoc front]

omit hok in
/-- The first bytes behind the nineteen of the header can be read. With extra bytes in the header these
are not the table id. -/
theorem post_frame : (∃ id, p.le logEventHeaderLen f.idLen = .ok id) ∧
    ∃ bs, p.bytes (logEventHeaderLen + f.idLen) 2 = .ok bs := by
  have hpost := length_mapPost f
  have hlen : logEventHeaderLen + f.idLen + 2 ≤ p.data.length := by
    rw [hp, MapFrame.bytes, List.append_assoc, List.length_append, length_headerBytes]
    simp only [List.length_append, logEventHeaderLen]; omega
  constructor
  · exact le_of_le (by omega)
  · exact bytes_of_le hlen

/-- **Loading a TABLE_MAP event** reads its names, its types and its metadata back. -/
theorem loadEvent_mapFrame : ∃ id, CTableMapEvent.loadEvent gde p =
    .ok (⟨some id, some f.types.length, some f.metadata.length, f.types, f.metadata, f.dbName,
      f.tableName⟩, .success) := by
  have hc := hok.common
  have hsize := hok.size
  have hcols := hok.columns
  have hpost := length_mapPost f
  have hnames := length_names f
  have htypes := length_types f
  have hmeta := length_metadata_le f
  have hheader : parseHeader p = .ok ⟨f.timestamp, f.eventType, f.size⟩ := by
    rw [MapFrame.bytes, List.append_assoc] at hp
    exact parseHeader_headerBytes hp hok.timestamp hok.eventType hsize
  have hfit : ¬ f.size < gde.commonHeaderLength + (f.idLen + 2) := by
    unfold MapFrame.size; omega
  have hlen : ¬ (f.idLen + 2 ≠ 6 ∧ f.idLen + 2 ≠ tableMapHeaderLen) := by
    unfold MapFrame.idLen; cases f.short <;> decide
  have hid : (if f.idLen + 2 = 6 then 4 else 6) = f.idLen := by
    unfold MapFrame.idLen; cases f.short <;> rfl
  have hbyte {n : ℕ} (h : n < 256) : (UInt8.ofNat n).toNat = n := by
    rw [UInt8.toNat_ofNat', Nat.mod_eq_of_lt h]
  obtain ⟨⟨id, hidOk⟩, fl, hfl⟩ := post_frame hp
  obtain ⟨xs, ys, hxs, hys, ⟨zs, hnamesAt⟩, hcolumnsAt⟩ := payload_frame hok hp
  obtain ⟨hdbLen, htableLen, hdb, htable⟩ := names_at hnamesAt
  obtain ⟨k, l, hl, hk, hcount, htypesAt, hmetaSize, hmetaAt, hnull⟩ :=
    columns_at (by omega) (by omega) hcolumnsAt
  rw [hxs] at hdbLen htableLen hdb htable
  have hread : k + f.types.length < f.size := by
    have : 0 < (packedLength f.metadata.length).length := by
      unfold packedLength; split_ifs <;> simp
    unfold MapFrame.size; omega
  have hfits : ¬ f.types.length * 2 % 2 ^ 32 < f.metadata.length := by
    rw [Nat.mod_eq_of_lt (by omega)]; omega
  have hbits : noBytesInMap f.types.length = f.nullBits.length := by
    rw [hok.nullBits, noBytesInMap, htypes, Nat.mod_eq_of_lt (by omega)]
  refine ⟨id % 2 ^ 32, ?_⟩
  unfold CTableMapEvent.loadEvent
  simp only [hheader, Res.ok_bind, hok.postHeader, if_neg hfit, if_neg hlen, hid, hidOk, hfl, hdbLen,
    hbyte hok.dbName, htableLen, hbyte hok.tableName, hdb, htable, ← hys, hcount, htypesAt,
    if_pos hread, hmetaSize, if_neg hfits, hmetaAt, hbits, hnull, Res.pure_eq]

end Load

/-! ### The table definition -/

/-- The table of an event with columns. -/
def MapFrame.table (f : MapFrame) (hne : f.columns ≠ []) : Table where
  colType := f.types
  metadata := f.metadata
  words := f.columns.map Column.word
  words_eq := by simpa [MapFrame.types, MapFrame.metadata] using metadataWords_at [] [] f.columns
  ne_nil := by simpa [MapFrame.types] using hne

/-- A column with a word makes the metadata nonempty. -/
theorem metadata_ne_nil {f : MapFrame} {c : Column} (hc : c ∈ f.columns) (hcode : c.code ≠ .absent) :
    f.metadata ≠ [] := by
  have hlen : 0 < c.bytes.length := by
    rw [c.length_bytes]
    cases h : c.code <;> simp_all [MetaCode.width]
  intro hnil
  have hbytes : c.bytes = [] := List.flatMap_eq_nil_iff.mp hnil c hc
  rw [hbytes] at hlen
  exact Nat.lt_irrefl 0 hlen

/-- **The metadata of a TABLE_MAP event** is read as it was written: where some column has a metadata
word, the table definition made of the loaded event has the word of every column, and the constructor's
index stops at the declared size of the metadata. -/
theorem metadata_round_trip {gde : CHeaderEvent} {f : MapFrame} (hok : f.Ok gde)
    (hmeta : ∃ c ∈ f.columns, c.code ≠ .absent) {p : Ptr} {rest : Bytes}
    (hp : p.data = f.bytes ++ rest) :
    ∃ ev td, CTableMapEvent.loadEvent gde p = .ok (ev, .success) ∧ ev.createTableDef = .ok td ∧
      td.columnType = f.columns.map Column.type ∧
      (∀ (i : ℕ) (hi : i < f.columns.length), td.fieldMeta i = .ok f.columns[i].word) ∧
      ev.fieldMetadataSize = some f.metadata.length ∧
      metadataIndex ev.fieldMetadata 0 ev.columnType = .ok f.metadata.length := by
  obtain ⟨c, hc, hcode⟩ := hmeta
  have hne : f.columns ≠ [] := List.ne_nil_of_mem hc
  have hnil : f.metadata ≠ [] := metadata_ne_nil hc hcode
  obtain ⟨id, hload⟩ := loadEvent_mapFrame hok hp
  refine ⟨_, (f.table hne).tableDef, hload,
    createTableDef_mapEvent (f.table hne) id f.dbName f.tableName, rfl, ?_, rfl, ?_⟩
  · intro i hi
    have hword : (f.columns.map Column.word)[i]? = some f.columns[i].word := by
      rw [List.getElem?_map, List.getElem?_eq_getElem hi]; rfl
    have hlen : f.metadata.length ≠ 0 := fun h => hnil (List.length_eq_zero_iff.mp h)
    have hfull : (f.table hne).tableDef = (f.table hne).full := by
      rw [Table.tableDef, if_neg (show (f.table hne).metadata ≠ [] from hnil)]; rfl
    rw [hfull]
    simp only [CTableDef.fieldMeta, Table.full, MapFrame.table, Res.ofOption_some, Res.ok_bind,
      if_pos hlen, hword]
  · simpa [MapFrame.types, MapFrame.metadata] using metadataIndex_at [] [] f.columns

/-- A table `s.t` with a VARCHAR(300), an INT, a DECIMAL(10,2) and a DATETIME(3). -/
def mapFrame : MapFrame :=
  { eventType := 19, timestamp := 0, serverId := 0, logPos := 0, flags := 0, more := [], short := false,
    tableId := 7, tableFlags := 1, dbName := [115], tableName := [116],
    columns := [⟨15, 300, by decide⟩, ⟨3, 0, by decide⟩, ⟨246, 2562, by decide⟩, ⟨18, 3, by decide⟩],
    nullBits := [15], checksum := [0, 0, 0, 0] }

/-- The words `300`, `0`, `10 * 256 + 2` and `3` come back. -/
theorem mapFrame_metadata : ∃ ev td, CTableMapEvent.loadEvent description ⟨0, mapFrame.bytes ++ [0]⟩ =
      .ok (ev, .success) ∧ ev.createTableDef = .ok td ∧
    td.columnType = mapFrame.columns.map Column.type ∧
    (∀ (i : ℕ) (hi : i < mapFrame.columns.length), td.fieldMeta i = .ok mapFrame.columns[i].word) ∧
    ev.fieldMetadataSize = some mapFrame.metadata.length ∧
    metadataIndex ev.fieldMetadata 0 ev.columnType = .ok mapFrame.metadata.length :=
  metadata_round_trip
    { eventType := by decide
      timestamp := by decide
      common := rfl
      postHeader := rfl
      dbName := by decide
      tableName := by decide
      columns := by decide
      nullBits := rfl
      size := by decide }
    ⟨⟨15, 300, by decide⟩, List.mem_cons_self, by decide⟩ rfl

end DataSync.Binlog.TableMap
