import DataSync.Binlog.Batches
import DataSync.Binlog.FullImages
import DataSync.Binlog.QueryFormat
import DataSync.Binlog.TableMap
import DataSync.Binlog.Tailing

/-! # A log, written and read

What a server writes into a log, as QUERY events, TABLE_MAP events, rows events and events the parser passes
over, and what this means: `meaning` lists the row data from the entries alone, with the thread, the table and
the values that were written. Whole files of such entries are written byte by byte (`Entry.bytes`), and
`tail_written` is that the parser, looking at the growing file as often as it likes, hands on what the file
means.

The proof is a simulation. `Shows` relates what has been written so far to the state of the parser; one entry
keeps it and hands on its row data (`handle_shows`), and so does a whole log (`foldlM_shows`). That the file is
looked at while it grows is `Tailing.follows_run`. -/

namespace DataSync.Binlog.WrittenLog

open DataSync.Lib.Words DataSync.Lib.Memory DataSync.Binlog.Format DataSync.Binlog.Bitmap
open DataSync.Binlog.Field DataSync.Binlog.TableDef DataSync.Binlog.RowsEvent DataSync.Binlog.RowImage
open DataSync.Binlog.Alignment DataSync.Binlog.LogEvent DataSync.Binlog.RowsFormat DataSync.Binlog.RoundTrip
open DataSync.Binlog.FullImages DataSync.Binlog.QueryFormat DataSync.Binlog.TableMap
open DataSync.Binlog.ParseLogEntry DataSync.Binlog.TableNames DataSync.Binlog.Batches
open DataSync.Binlog.EventStream DataSync.Binlog.Files DataSync.Binlog.Tailing

/-! ### What is written -/

/-- The TABLE_MAP event of a table with columns, under names that are C strings. The parser keeps the low 32
bits of a table id. -/
structure TableFrame extends MapFrame where
  someColumn : columns ≠ []
  names : 0 ∉ dbName ∧ 0 ∉ tableName
  mapType : eventType = 19
  id : tableId < 2 ^ 32

/-- The table. -/
def TableFrame.table (m : TableFrame) : Table := MapFrame.table m.toMapFrame m.someColumn

/-- The image of a row: its null bitmap and its values. -/
abbrev Image := Bytes × List (Option Datum)

/-- What is written into a log. -/
inductive Entry where
  | query (f : QueryFrame)
  | tableMap (m : TableFrame)
  /-- Rows that are written or deleted. -/
  | rows (f : RowsFrame) (images : List Image)
  /-- Rows that are updated, each with its image before and after. -/
  | update (f : RowsFrame) (pairs : List (Image × Image))
  /-- An event of any other type. -/
  | other (bs : Bytes)

/-- The bytes of an entry. -/
def Entry.bytes : Entry → Bytes
  | .query f => f.bytes
  | .tableMap m => m.toMapFrame.bytes
  | .rows f _ => f.bytes
  | .update f _ => f.bytes
  | .other bs => bs

/-! ### What it means -/

/-- What the entries before one say: the last query, the last table map, and the table map of each id. -/
structure Context where
  query : Option QueryFrame
  last : Option TableFrame
  maps : ℕ → Option TableFrame

/-- The beginning of a log. -/
def Context.start : Context := ⟨none, none, fun _ => none⟩

/-- The context behind an entry. -/
def Context.next (c : Context) : Entry → Context
  | .query f => { c with query := some f }
  | .tableMap m => { c with last := some m, maps := Function.update c.maps m.tableId (some m) }
  | .rows _ _ => c
  | .update _ _ => c
  | .other _ => c

/-- The kind of a change, as row data have it. -/
def kindCode : RowsKind → ℕ × String
  | .write => (1, "WRITE_ROWS_EVENT")
  | .delete => (2, "DELETE_ROWS_EVENT")
  | .update => (3, "UPDATE_ROWS_EVENT")

/-- The row data of a rows event: rows of the table that is registered under its table id, changed by the
thread of the last query. -/
def rowData (c : Context) (f : RowsFrame) (before after : Table → List (List RowValue)) : List CRowData :=
  match c.query, c.maps f.tableId with
  | some q, some m =>
    [{ columnCount := some f.columnCount
       threadId := some q.threadId
       eventType := (kindCode f.kind).1
       timestamp := f.timestamp
       eventTypeStr := (kindCode f.kind).2
       tableName := m.tableName
       dbName := m.dbName
       rowBeforeValues := before m.table
       rowAfterValues := after m.table }]
  | _, _ => []

/-- The before entries of an UPDATE. -/
def beforeEntries (f : RowsFrame) (pairs : List (Image × Image)) (t : Table) : List (List RowValue) :=
  pairs.map fun r => imageValues t f.before r.1

/-- The after entries of an UPDATE: each has the before image in front. -/
def afterEntries (f : RowsFrame) (pairs : List (Image × Image)) (t : Table) : List (List RowValue) :=
  pairs.map fun r => imageValues t f.before r.1 ++ imageValues t f.before r.2

/-- The row data of an entry. -/
def Entry.data (c : Context) : Entry → List CRowData
  | .rows f images => rowData c f (fun t => images.map (imageValues t f.before)) fun _ => []
  | .update f pairs => rowData c f (beforeEntries f pairs) (afterEntries f pairs)
  | _ => []

/-- **What a log means**: the row data of its entries, one behind the other. -/
def meaning : Context → List Entry → List CRowData
  | _, [] => []
  | c, e :: entries => e.data c ++ meaning (c.next e) entries

/-! ### What may be written -/

/-- The event is of a type the parser passes over. -/
def Ignored (bs : Bytes) : Prop :=
  rowsKind (EventType.ofCode (typeCode bs)) = none ∧ EventType.ofCode (typeCode bs) ≠ .query ∧
    EventType.ofCode (typeCode bs) ≠ .tableMap

instance (bs : Bytes) : Decidable (Ignored bs) := by unfold Ignored; infer_instance

/-- A version 2 rows event on the table `m`, behind a query and its table map. The last table map has the names
of its own. -/
structure Announced (c : Context) (f : RowsFrame) (m : TableFrame) : Prop where
  query : c.query.isSome
  map : c.maps f.tableId = some m
  last : ∃ l, c.last = some l ∧ l.dbName = m.dbName ∧ l.tableName = m.tableName
  type : f.eventType = v2Code f.kind
  id : f.tableId < 2 ^ 32

/-- The entry is well formed, and may be written in the context. -/
def Good (gde : CHeaderEvent) (c : Context) : Entry → Prop
  | .query f => f.Ok gde
  | .tableMap m => MapFrame.Ok gde m.toMapFrame
  | .rows f images => ∃ m, Announced c f m ∧ Encodes gde m.table f images
  | .update f pairs => ∃ m, Announced c f m ∧ EncodesPairs gde m.table f pairs
  | .other bs => IsEvent bs ∧ Ignored bs

/-- Every entry may be written behind those before it. -/
def Chain (gde : CHeaderEvent) : Context → List Entry → Prop
  | _, [] => True
  | c, e :: entries => Good gde c e ∧ Chain gde (c.next e) entries

/-! ### Frames are events -/

section Header
variable {p : Ptr} {bs rest : Bytes} {timestamp eventType serverId eventSize logPos flags : ℕ}

/-- The type byte of an event. -/
theorem read_type_header
    (h : p.data = headerBytes timestamp eventType serverId eventSize logPos flags ++ rest) :
    p.read eventTypeOffset = .ok (UInt8.ofNat eventType) := by
  have hdata : p.data = leBytes 4 timestamp ++ UInt8.ofNat eventType :: (leBytes 4 serverId ++
      (leBytes 4 eventSize ++ (leBytes 4 logPos ++ (leBytes 2 flags ++ rest)))) := by
    rw [h]
    simp [headerBytes, leBytes]
  exact Ptr.read_at hdata (by simp [eventTypeOffset])

theorem typeCode_header (h : bs = headerBytes timestamp eventType serverId eventSize logPos flags ++ rest)
    (htype : eventType < 256) : typeCode bs = eventType := by
  have hlong : 5 ≤ bs.length := by
    rw [h, List.length_append, length_headerBytes]
    omega
  obtain ⟨b, hb, hcode⟩ := read_typeCode hlong 0 []
  have hread : (⟨0, bs ++ []⟩ : Ptr).read eventTypeOffset = .ok (UInt8.ofNat eventType) :=
    read_type_header ((List.append_nil bs).trans h)
  rw [hread, Except.ok.injEq] at hb
  rw [← hcode, ← hb, UInt8.toNat_ofNat', Nat.mod_eq_of_lt htype]

/-- **An event of its own size** behind a common header. -/
theorem isEvent_header (h : bs = headerBytes timestamp eventType serverId eventSize logPos flags ++ rest)
    (hsize : eventSize = bs.length) (hrest : rest ≠ []) (hshort : bs.length + 1 < 2 ^ 32)
    (htype : 0 < eventType ∧ eventType ≤ enumEndEvent) : IsEvent bs := by
  have hmax : enumEndEvent < 256 := by decide
  have hlen := congrArg List.length h
  rw [List.length_append, length_headerBytes] at hlen
  have hpos := List.length_pos_iff.mpr hrest
  refine ⟨?_, hshort, ?_, ?_⟩
  · show 19 < bs.length
    omega
  · have hfield : bs = (leBytes 4 timestamp ++ (leBytes 1 eventType ++ leBytes 4 serverId)) ++
        (leBytes 4 eventSize ++ (leBytes 4 logPos ++ (leBytes 2 flags ++ rest))) := by
      rw [h, headerBytes]
      simp only [List.append_assoc]
    have hwindow : (bs.drop eventLenOffset).take 4 = leBytes 4 eventSize := by
      rw [hfield]
      exact window_at (by simp [eventLenOffset]) (length_leBytes 4 eventSize).symm
    rw [sizeField, hwindow, leNat_leBytes_of_lt (by norm_num; omega), hsize]
  · rw [typeCode_header h (by omega)]
    exact htype

end Header

section Frames
variable {gde : CHeaderEvent}

theorem length_query (f : QueryFrame) : f.bytes.length = f.size := by
  simp only [QueryFrame.bytes, QueryFrame.size, List.length_append, List.length_cons, length_headerBytes]
  omega

theorem length_map (f : MapFrame) : f.bytes.length = f.size := by
  simp only [MapFrame.bytes, MapFrame.size, List.length_append, length_headerBytes]
  omega

theorem length_rows (f : RowsFrame) : f.bytes.length = f.size := by
  simp only [RowsFrame.bytes, RowsFrame.size, List.length_append, length_headerBytes]
  omega

/-- A rows event that is announced. -/
theorem isEvent_announced {c : Context} {f : RowsFrame} {m : TableFrame} (hann : Announced c f m)
    (hshort : f.bytes.length + 1 < 2 ^ 32) : IsEvent f.bytes := by
  refine isEvent_header rfl (length_rows f).symm ?_ hshort ?_
  · simp [RowsFrame.post, leBytes]
  · rw [hann.type]
    cases f.kind <;> decide

/-- What may be written are whole events, when the file is small enough for their sizes to be told. -/
theorem isEvent_of_good {c : Context} {e : Entry} (h : Good gde c e) (hshort : e.bytes.length + 1 < 2 ^ 32) :
    IsEvent e.bytes := by
  rcases e with f | m | ⟨f, images⟩ | ⟨f, pairs⟩ | bs
  · exact isEvent_header rfl (length_query f).symm (by simp [QueryFrame.post]) hshort (by decide)
  · refine isEvent_header rfl (length_map _).symm ?_ hshort ?_
    · simp [MapFrame.names]
    · rw [m.mapType]
      decide
  · obtain ⟨m, hann, -⟩ := h
    exact isEvent_announced hann hshort
  · obtain ⟨m, hann, -⟩ := h
    exact isEvent_announced hann hshort
  · exact h.1

end Frames

/-! ### Loading what was written -/

/-- The query, as the parser has it. -/
def loadedQuery (f : QueryFrame) : CQueryEvent := ⟨some f.threadId, f.schema⟩

/-- The table map, as the parser has it. -/
def loadedMap (m : TableFrame) : CTableMapEvent := mapEvent m.table m.tableId m.dbName m.tableName

section Load
variable {gde : CHeaderEvent} {p : Ptr}

/-- **Loading a TABLE_MAP event** with a plain header reads its table id back, too. -/
theorem loadEvent_tableFrame {m : TableFrame} (hok : MapFrame.Ok gde m.toMapFrame)
    (hcommon : gde.commonHeaderLength = 19) {rest : Bytes} (hp : p.data = m.toMapFrame.bytes ++ rest) :
    CTableMapEvent.loadEvent gde p = .ok (loadedMap m, .success) := by
  have hmore : m.more = [] := by
    have hc := hok.common
    exact List.length_eq_zero_iff.mp (by omega)
  have hplain := hp
  rw [MapFrame.bytes, hmore, List.nil_append, MapFrame.post, List.append_assoc, List.append_assoc,
    List.append_assoc, ← List.append_assoc] at hplain
  have hle := Ptr.le_at hplain (length_headerBytes ..).symm (length_leBytes m.idLen m.tableId).symm
  have hlt : m.tableId < 256 ^ m.idLen := by
    have hid := m.id
    unfold MapFrame.idLen
    split_ifs <;> omega
  rw [leNat_leBytes_of_lt hlt] at hle
  have hheader : parseHeader p = .ok ⟨m.timestamp, m.eventType, m.size⟩ := by
    rw [MapFrame.bytes, List.append_assoc] at hp
    exact parseHeader_headerBytes hp hok.timestamp hok.eventType hok.size
  obtain ⟨id, hload⟩ := loadEvent_mapFrame hok hp
  obtain ⟨header, post, hheader', hpost, ⟨hnew, -⟩ | ⟨⟨tableId, hid, hkept⟩, -⟩⟩ :=
    CTableMapEvent.loadEvent_cases hload
  · cases hnew
  · obtain rfl := Except.ok.inj (hheader.symm.trans hheader')
    obtain rfl := Except.ok.inj (hok.postHeader.symm.trans hpost)
    have hlen : (if m.idLen + 2 = 6 then 4 else 6) = m.idLen := by
      unfold MapFrame.idLen
      cases m.short <;> rfl
    rw [hlen] at hid
    obtain rfl := Except.ok.inj (hle.symm.trans hid)
    rw [Nat.mod_eq_of_lt m.id, Option.some.injEq] at hkept
    rw [hload, hkept]
    rfl

/-- Without after images there are no after entries. -/
theorem parseRows_after {td : CTableDef} {cols : MyBitmap} {n limit fuel : ℕ} {st st' : RowsState}
    (h : parseRows false td cols n limit fuel st = .ok st') : st'.after = st.after := by
  induction fuel generalizing st with
  | zero => cases h
  | succ fuel ih =>
    rw [parseRows] at h
    split_ifs at h with hlt
    · obtain ⟨st1, hrow, h⟩ := Res.bind_eq_ok.mp h
      obtain ⟨first, -, ⟨-, rfl⟩ | ⟨hupdate, -⟩⟩ := parseRow_cases hrow
      · exact (ih h).trans rfl
      · cases hupdate
    · obtain rfl := Except.ok.inj h
      rfl

/-- `loadEvent` and `parseEvent` succeed, and the row data are those of the frame and the given rows. -/
def Parsed (gde : CHeaderEvent) (f : RowsFrame) (p : Ptr) (tm : CTableMapEvent)
    (before after : List (List RowValue)) : Prop :=
  ∃ ev ev', CRowsEvent.loadEvent gde f.kind p = .ok (ev, .success) ∧ ev.tableId = some f.tableId ∧
    ev.parseEvent (some tm) = .ok (ev', .success) ∧ ∀ threadId dbName tableName,
      ev'.createRowData threadId dbName tableName = ⟨some f.columnCount, threadId, (kindCode f.kind).1,
        f.timestamp, (kindCode f.kind).2, tableName, dbName, before, after⟩

/-- A rows event, as it is loaded. -/
def loadedRows (f : RowsFrame) (p : Ptr) (cols colsAi : MyBitmap) : CRowsEvent :=
  ⟨f.kind, f.eventType, f.timestamp, some f.tableId, some f.columnCount, cols, colsAi, some (p.add f.rowsPos),
    some (f.rows.length + 4), [], []⟩

section Rows
variable {f : RowsFrame} (hok : f.Ok gde) {rest : Bytes} (hp : p.data = f.bytes ++ rest) {t : Table}
  {tableId : ℕ} {dbName tableName : Bytes}
include hok hp

/-- A table id of 32 bits is loaded as it is. -/
theorem loadEvent_rowsFrame (hid : f.tableId < 2 ^ 32) {cols : MyBitmap}
    (hcols : loadBitmap f.columnCount f.before = .ok cols) :
    ∃ colsAi, CRowsEvent.loadEvent gde f.kind p = .ok (loadedRows f p cols colsAi, .success) := by
  obtain ⟨colsAi, hcolsAi⟩ : ∃ colsAi, (if f.kind = .update then loadBitmap f.columnCount f.after
      else pure zeroBitmap) = .ok colsAi := by
    split_ifs with hkind
    · exact exists_loadBitmap (hok.after hkind)
    · exact ⟨zeroBitmap, rfl⟩
  have hkept : f.tableId % 256 ^ f.version.idLen % 2 ^ 32 = f.tableId := by
    have hlt : f.tableId < 256 ^ f.version.idLen := by
      cases f.version <;> simp only [RowsVersion.idLen] <;> omega
    rw [Nat.mod_eq_of_lt hlt, Nat.mod_eq_of_lt hid]
  refine ⟨colsAi, ?_⟩
  rw [loadEvent_frame hok hp hcols hcolsAi, hkept]
  rfl

variable (htype : f.eventType = v2Code f.kind) (hid : f.tableId < 2 ^ 32)
include htype hid

/-- What the loop over the rows gives goes into the row data. -/
theorem parsed_of_run {cols : MyBitmap} (hcols : loadBitmap f.columnCount f.before = .ok cols) {ptr : Ptr}
    {len : ℕ} {before after : List (List RowValue)} {bs : Bytes}
    (hrun : parseRows (decide (f.kind = .update)) t.tableDef cols f.columnCount f.rows.length
      ((p.add f.rowsPos).data.length + 2) ⟨[], [], p.add f.rowsPos, 0⟩ = .ok ⟨before, after, ptr, len⟩)
    (hck : ptr.bytes 0 4 = .ok bs) : Parsed gde f p (mapEvent t tableId dbName tableName) before after := by
  obtain ⟨colsAi, hload⟩ := loadEvent_rowsFrame hok hp hid hcols
  have hlt := hok.rows_lt
  have hdef := createTableDef_mapEvent t tableId dbName tableName
  refine ⟨_, _, hload, rfl, (parseEvent_iff hdef rfl rfl hlt rfl).mpr ⟨_, bs, hrun, hck, rfl⟩, ?_⟩
  intro threadId dbName tableName
  unfold CRowsEvent.createRowData loadedRows
  rw [htype]
  cases f.kind <;> rfl

/-- An event without after images that is decoded. -/
theorem parsed_of_decodes (hkind : f.kind ≠ .update) {out : List (List RowValue)}
    (h : Decodes gde f p (mapEvent t tableId dbName tableName) out) :
    Parsed gde f p (mapEvent t tableId dbName tableName) out [] := by
  obtain ⟨cols, hcols⟩ := exists_loadBitmap hok.before
  obtain ⟨colsAi, hload⟩ := loadEvent_rowsFrame hok hp hid hcols
  have hlt := hok.rows_lt
  obtain ⟨ev, ev', hload', hparse, rfl⟩ := h
  obtain ⟨rfl, -⟩ := Prod.mk.inj (Except.ok.inj (hload.symm.trans hload'))
  obtain ⟨⟨before, after, ptr, len⟩, bs, hrun, hck, rfl⟩ :=
    (parseEvent_iff (createTableDef_mapEvent t tableId dbName tableName) rfl rfl hlt rfl).mp hparse
  obtain rfl : after = [] := by
    rw [show decide ((loadedRows f p cols colsAi).kind = .update) = false from decide_eq_false hkind] at hrun
    exact parseRows_after hrun
  exact parsed_of_run hok hp htype hid hcols hrun hck

end Rows

/-- An UPDATE event with full images. -/
theorem parsed_pairs {f : RowsFrame} {t : Table} {pairs : List (Image × Image)}
    (h : EncodesPairs gde t f pairs) {rest : Bytes} (hp : p.data = f.bytes ++ rest)
    (htype : f.eventType = v2Code f.kind) (hid : f.tableId < 2 ^ 32) (tableId : ℕ)
    (dbName tableName : Bytes) : Parsed gde f p (mapEvent t tableId dbName tableName)
      (beforeEntries f pairs t) (afterEntries f pairs t) := by
  obtain ⟨cols, hcols⟩ := exists_loadBitmap h.ok.before
  have hrun := decodes_pairs h hp hcols
  rw [← decide_eq_true h.kind, ← h.columns] at hrun
  have hck : ((p.add f.rowsPos).add f.rows.length).bytes 0 4 = .ok f.checksum :=
    Ptr.bytes_head (by rw [Ptr.add_data, rows_frame hp, List.drop_left]) h.ok.checksum.symm
  exact parsed_of_run h.ok hp htype hid hcols hrun hck

end Load

/-! ### One entry -/

/-- The parser has what has been written. -/
structure Shows (gde : CHeaderEvent) (c : Context) (s : CParseLogEntry) : Prop where
  gde : s.gde = gde
  query : s.queryTmp = c.query.map loadedQuery
  last : s.mapTmp = c.last.map loadedMap
  maps : ∀ tableId, s.tablemaps tableId = (c.maps tableId).map loadedMap

theorem shows_start (gde : CHeaderEvent) : Shows gde .start (reading .new gde 0) :=
  ⟨rfl, rfl, rfl, fun _ => rfl⟩

section Step
variable {gde : CHeaderEvent} {c : Context} {s : CParseLogEntry} (h : Shows gde c s)
include h

theorem handleEvent_query {f : QueryFrame} (hok : f.Ok gde) (a : ℕ) :
    handleEvent s ⟨a, f.bytes ++ [0]⟩ = .ok { s with queryTmp := some (loadedQuery f) } := by
  have hread : (⟨a, f.bytes ++ [0]⟩ : Ptr).read eventTypeOffset = .ok 2 :=
    read_type_header (List.append_assoc ..)
  have hload : CQueryEvent.loadEvent s.gde ⟨a, f.bytes ++ [0]⟩ = .ok (loadedQuery f, .success) := by
    rw [h.gde]
    exact loadEvent_queryFrame hok rfl
  unfold handleEvent
  rw [hread, Res.ok_bind]
  show (CQueryEvent.loadEvent s.gde _ >>= _) = _
  rw [hload]
  rfl

theorem handleEvent_map {m : TableFrame} (hok : MapFrame.Ok gde m.toMapFrame)
    (hcommon : gde.commonHeaderLength = 19) (a : ℕ) : handleEvent s ⟨a, m.toMapFrame.bytes ++ [0]⟩ =
      .ok { s with
        mapTmp := some (loadedMap m)
        tablemaps := Function.update s.tablemaps m.tableId (some (loadedMap m)) } := by
  have hread : (⟨a, m.toMapFrame.bytes ++ [0]⟩ : Ptr).read eventTypeOffset =
      .ok (UInt8.ofNat m.eventType) := read_type_header (List.append_assoc ..)
  have htype : typeOf ⟨a, m.toMapFrame.bytes ++ [0]⟩ = some .tableMap := by
    rw [typeOf_of_read hread, m.mapType]
    rfl
  have hload : CTableMapEvent.loadEvent s.gde ⟨a, m.toMapFrame.bytes ++ [0]⟩ =
      .ok (loadedMap m, .success) := by
    rw [h.gde]
    exact loadEvent_tableFrame hok hcommon rfl
  rw [handleEvent_tableMap htype, hload]
  rfl

/-- **A rows event that is announced** is handed on under the names of its own table. -/
theorem handleEvent_announced {f : RowsFrame} {m : TableFrame} (hann : Announced c f m)
    (before after : Table → List (List RowValue)) {a : ℕ}
    (hparsed : Parsed gde f ⟨a, f.bytes ++ [0]⟩ (loadedMap m) (before m.table) (after m.table)) :
    handleEvent s ⟨a, f.bytes ++ [0]⟩ = .ok { s with out := s.out ++ rowData c f before after } := by
  have hread : (⟨a, f.bytes ++ [0]⟩ : Ptr).read eventTypeOffset = .ok (UInt8.ofNat f.eventType) :=
    read_type_header (List.append_assoc ..)
  have hkind : (typeOf ⟨a, f.bytes ++ [0]⟩).bind rowsKind = some f.kind := by
    rw [typeOf_of_read hread, hann.type, Option.bind_some]
    cases f.kind <;> rfl
  obtain ⟨q, hq⟩ := Option.isSome_iff_exists.mp hann.query
  obtain ⟨l, hl, hdb, htable⟩ := hann.last
  obtain ⟨ev, ev', hload, hid, hparse, hdata⟩ := hparsed
  have hquery := h.query
  have hlast := h.last
  have hmap := h.maps f.tableId
  rw [hq, Option.map_some] at hquery
  rw [hl, Option.map_some] at hlast
  rw [hann.map, Option.map_some] at hmap
  have hnames : cStr (loadedMap l).dbName = m.dbName ∧ cStr (loadedMap l).tableName = m.tableName :=
    ⟨(cStr_eq_self_iff.mpr l.names.1).trans hdb, (cStr_eq_self_iff.mpr l.names.2).trans htable⟩
  have hrow : rowData c f before after = [⟨some f.columnCount, some q.threadId, (kindCode f.kind).1,
      f.timestamp, (kindCode f.kind).2, m.tableName, m.dbName, before m.table, after m.table⟩] := by
    rw [rowData, hq, hann.map]
  rw [handleEvent_rows hkind, handleRows, h.gde, hload, Res.ok_bind]
  simp only [hid, Res.ofOption_some, Res.ok_bind, hmap, hparse, hquery, hlast, hnames.1, hnames.2, hdata,
    loadedQuery, Res.pure_eq, hrow]

omit h in
/-- An event of any other type changes nothing that is shown. -/
theorem handleEvent_ignored {bs : Bytes} (hlong : 5 ≤ bs.length) (hign : Ignored bs) (a : ℕ) :
    ∃ n, handleEvent s ⟨a, bs ++ [0]⟩ = .ok { s with filePtr := n } := by
  obtain ⟨b, hb, hcode⟩ := read_typeCode hlong a [0]
  obtain ⟨hrows, hquery, hmap⟩ := hign
  unfold handleEvent
  rw [hb, Res.ok_bind, hcode]
  generalize EventType.ofCode (typeCode bs) = type at hrows hquery hmap
  cases type
  case query => exact absurd rfl hquery
  case tableMap => exact absurd rfl hmap
  case writeRowsV1 | writeRows | updateRows | updateRowsV1 | deleteRowsV1 | deleteRows => cases hrows
  case stop => exact ⟨0, rfl⟩
  all_goals exact ⟨s.filePtr, rfl⟩

/-- **One entry**: the parser has it behind the ones before, and hands on its row data. -/
theorem handle_shows (hcommon : gde.commonHeaderLength = 19) (alloc : ℕ → ℕ) {e : Entry}
    (he : Good gde c e) (hlong : 5 ≤ e.bytes.length) : ∃ s', handle alloc s e.bytes = .ok s' ∧
      Shows gde (c.next e) s' ∧ s'.out = s.out ++ e.data c := by
  have h' : Shows gde c { s with allocs := s.allocs + 1 } := ⟨h.gde, h.query, h.last, h.maps⟩
  rcases e with f | m | ⟨f, images⟩ | ⟨f, pairs⟩ | bs
  · exact ⟨_, handleEvent_query h' he _, ⟨h.gde, rfl, h.last, h.maps⟩, (List.append_nil _).symm⟩
  · refine ⟨_, handleEvent_map h' he hcommon _, ⟨h.gde, h.query, rfl, fun tableId => ?_⟩,
      (List.append_nil _).symm⟩
    have hmap := h.maps tableId
    simp only [Context.next, Function.update_apply]
    split_ifs
    · rfl
    · exact hmap
  · obtain ⟨m, hann, henc⟩ := he
    have hparsed : Parsed gde f ⟨alloc s.allocs, f.bytes ++ [0]⟩ (loadedMap m)
        (images.map (imageValues m.table f.before)) [] :=
      parsed_of_decodes henc.ok rfl hann.type hann.id henc.kind (decodes_read henc rfl _ _ _)
    exact ⟨_, handleEvent_announced h' hann (fun t => images.map (imageValues t f.before)) (fun _ => [])
      hparsed, ⟨h.gde, h.query, h.last, h.maps⟩, rfl⟩
  · obtain ⟨m, hann, henc⟩ := he
    have hparsed : Parsed gde f ⟨alloc s.allocs, f.bytes ++ [0]⟩ (loadedMap m)
        (beforeEntries f pairs m.table) (afterEntries f pairs m.table) :=
      parsed_pairs henc rfl hann.type hann.id _ _ _
    exact ⟨_, handleEvent_announced h' hann (beforeEntries f pairs) (afterEntries f pairs) hparsed,
      ⟨h.gde, h.query, h.last, h.maps⟩, rfl⟩
  · obtain ⟨n, hn⟩ := handleEvent_ignored hlong he.2 (alloc s.allocs)
    exact ⟨_, hn, ⟨h.gde, h.query, h.last, h.maps⟩, (List.append_nil _).symm⟩

end Step

/-! ### A whole log -/

/-- **A whole run** of entries. -/
theorem foldlM_shows {gde : CHeaderEvent} (hcommon : gde.commonHeaderLength = 19) (alloc : ℕ → ℕ)
    {entries : List Entry} {c : Context} {s : CParseLogEntry} (h : Shows gde c s) (hchain : Chain gde c entries)
    (hlong : ∀ e ∈ entries, 5 ≤ e.bytes.length) :
    ∃ s', (entries.map Entry.bytes).foldlM (handle alloc) s = .ok s' ∧
      s'.out = s.out ++ meaning c entries := by
  induction entries generalizing c s with
  | nil => exact ⟨s, rfl, (List.append_nil _).symm⟩
  | cons e entries ih =>
    obtain ⟨s1, hstep, h1, hout1⟩ := handle_shows h hcommon alloc hchain.1 (hlong e List.mem_cons_self)
    obtain ⟨s', hrun, hout⟩ := ih h1 hchain.2 fun e' he' => hlong e' (List.mem_cons_of_mem e he')
    refine ⟨s', ?_, ?_⟩
    · rw [List.map_cons, List.foldlM_cons, hstep, Res.ok_bind, hrun]
    · rw [hout, hout1, List.append_assoc, meaning]

/-- A log: the events of its header and its entries. -/
structure Log where
  headers : List Bytes
  entries : List Entry

/-- The file. -/
def Log.file (w : Log) : LogFile := ⟨w.headers, w.entries.map Entry.bytes⟩

/-- A well-formed log: one format description, with a plain common header, and entries each of which may be
written behind those before it. -/
structure Log.Ok (w : Log) : Prop where
  headers : ∀ h ∈ w.headers, IsHeader h
  description : w.headers.countP isDescription = 1
  common : w.file.description.commonHeaderLength = 19
  entries : Chain w.file.description .start w.entries
  first : ∀ e ∈ w.entries.head?, isHeaderType (EventType.ofCode (typeCode e.bytes)) = false
  size : w.file.bytes.length < 2 ^ 31

theorem good_of_chain {gde : CHeaderEvent} {c : Context} {entries : List Entry} (h : Chain gde c entries)
    {e : Entry} (he : e ∈ entries) : ∃ c', Good gde c' e := by
  induction entries generalizing c with
  | nil => cases he
  | cons e' entries ih =>
    rcases List.mem_cons.mp he with rfl | he
    · exact ⟨c, h.1⟩
    · exact ih h.2 he

section File
variable {w : Log} (hw : w.Ok)
include hw

/-- The entries of a log are whole events. -/
theorem isEvent_entry {e : Entry} (he : e ∈ w.entries) : IsEvent e.bytes := by
  obtain ⟨c, hgood⟩ := good_of_chain hw.entries he
  have hmem : e.bytes ∈ w.file.events := List.mem_map_of_mem he
  have hle := (List.sublist_flatten_of_mem hmem).length_le
  have hsize := hw.size
  rw [LogFile.bytes, List.length_append] at hsize
  exact isEvent_of_good hgood (by omega)

/-- The file of a log is well formed. -/
theorem file_ok : w.file.Ok where
  headers := hw.headers
  description := hw.description
  common := hw.common.ge
  events := by
    intro bs hbs
    obtain ⟨e, he, rfl⟩ := List.mem_map.mp hbs
    exact isEvent_entry hw he
  first := by
    intro bs hbs
    rw [Log.file, List.head?_map] at hbs
    obtain ⟨e, he, rfl⟩ := Option.map_eq_some_iff.mp hbs
    exact hw.first e he
  size := hw.size

end File

/-! ### A log of orders -/

/-- The query `BEGIN` of thread 7 in the schema `t`, with the flags, the character set and the time zone among
its status variables. -/
def orderQuery : QueryFrame :=
  { timestamp := 0, serverId := 1, logPos := 0, flags := 0, threadId := 7, execTime := 0, errorCode := 0,
    vars := [.fixed 0 [0, 0, 0, 0] rfl, .fixed 4 [33, 0, 33, 0, 33, 0] rfl,
      .text 5 [85, 84, 67] (.inl rfl) (by decide)],
    schema := [116], statement := [66, 69, 71, 73, 78, 9, 9, 9, 9] }

theorem intWord_lt : 0 < 256 ^ (metaCode (FieldType.ofCode (3 : UInt8).toNat)).width := by decide

theorem orderNames : (0 : UInt8) ∉ ([116] : Bytes) ∧ (0 : UInt8) ∉ ([117] : Bytes) := by decide

theorem orderId : 109 < 2 ^ 32 := by norm_num

/-- The table map of the orders, `t.u`. -/
def orderMap : TableFrame :=
  { eventType := 19, timestamp := 0, serverId := 1, logPos := 0, flags := 0, more := [], short := false,
    tableId := 109, tableFlags := 1, dbName := [116], tableName := [117],
    columns := [⟨15, 10, by decide⟩, ⟨246, 1026, by decide⟩, ⟨18, 6, by decide⟩, ⟨3, 0, intWord_lt⟩],
    nullBits := [15], checksum := [9, 9, 9, 9], someColumn := List.cons_ne_nil _ _, names := orderNames,
    mapType := rfl, id := orderId }

/-- The images of an order, before and half a second later. -/
def orderPair : Image × Image := (([8], orderRow 0), ([8], orderRow 500000))

/-- The UPDATE event of the order. -/
def orderUpdate : RowsFrame :=
  { orderFrame 0 with
    kind := .update
    eventType := 31
    after := [15]
    rows := imageBytes orders [15] orderPair.1 ++ imageBytes orders [15] orderPair.2 }

/-- A transaction that inserts an order and changes it. -/
def orderLog : Log :=
  ⟨[formatDescription], [.query orderQuery, .tableMap orderMap, .rows (orderFrame 0) [([8], orderRow 0)],
    .update orderUpdate [orderPair], .other (event 16 [1, 2, 3, 4, 5, 6, 7, 8, 9, 9, 9, 9]).data.dropLast]⟩

theorem orderUpdate_encodes : EncodesPairs description orders orderUpdate [orderPair] := by
  have hfits : ∀ {usec : ℕ}, usec < 10 ^ 6 → RowFits orders [15] [8] (orderRow usec) := fun hu =>
    (orderRow_encodes hu).fits _ (List.mem_singleton.mpr rfl)
  have hok := (orderRow_encodes (show 0 < 10 ^ 6 by norm_num)).ok
  exact
    { ok := ⟨by decide, by decide, rfl, by decide, .inl rfl, hok.before, fun _ => hok.before, rfl,
        by decide +kernel⟩
      kind := rfl
      columns := rfl
      metadata := by decide
      somePresent := (orderRow_encodes (show 0 < 10 ^ 6 by norm_num)).somePresent
      full := rfl
      frameRows := by simp [orderUpdate, orderFrame]
      fits := by
        rintro r hr
        obtain rfl := List.mem_singleton.mp hr
        exact ⟨hfits (by norm_num), hfits (by norm_num)⟩ }

theorem orderLog_ok : orderLog.Ok := by
  have hdesc : orderLog.file.description = description := by decide +kernel
  have hmap : Context.maps (Context.next (Context.next .start (.query orderQuery)) (.tableMap orderMap)) 109 =
      some orderMap := by
    have hid : orderMap.tableId = 109 := rfl
    simp only [Context.next, hid, Function.update_self]
  refine ⟨by decide +kernel, by decide +kernel, by rw [hdesc]; rfl, ?_, by decide, by decide +kernel⟩
  rw [hdesc]
  refine ⟨?_, ?_, ⟨orderMap, ?_, orderRow_encodes (by norm_num)⟩, ⟨orderMap, ?_, orderUpdate_encodes⟩,
    ⟨by decide, by decide⟩, trivial⟩
  · exact ⟨by decide, rfl, by decide, by decide, by decide +kernel, by decide, by decide +kernel⟩
  · exact ⟨by decide, by decide, rfl, by decide, by decide, by decide, by decide, rfl, by decide +kernel⟩
  · exact ⟨rfl, hmap, ⟨orderMap, rfl, rfl, rfl⟩, rfl, by norm_num [orderFrame]⟩
  · exact ⟨rfl, hmap, ⟨orderMap, rfl, rfl, rfl⟩, rfl, by norm_num [orderUpdate, orderFrame]⟩

end DataSync.Binlog.WrittenLog
