import DataSync.Binlog.RowsEvent

/-! # Events

`LogEvent.cpp`: loading the events the parser keeps (the format description, QUERY and TABLE_MAP) and
loading and decoding the rows events. An event's stream is its bytes with a NUL behind them. A field
that a failed load leaves indeterminate is `none`; using one is a fault, copying one is not. -/

namespace DataSync.Binlog.LogEvent

open DataSync.Lib.Words DataSync.Lib.Memory DataSync.Binlog.Format DataSync.Binlog.Bitmap
open DataSync.Binlog.Field DataSync.Binlog.TableDef DataSync.Binlog.RowsEvent

/-- `get_field_length`: the length-encoded number at `k` and the offset behind it. -/
def getFieldLength (p : Ptr) (k : ℕ) : Res (ℕ × ℕ) := do
  let b := (← p.read k).toNat
  if b < 251 then return (b, k + 1)
  else if b = 251 then return (2 ^ 32 - 1, k + 1)
  else if b = 252 then return (← p.le (k + 1) 2, k + 3)
  else if b = 253 then return (← p.le (k + 1) 3, k + 4)
  else return (← p.le (k + 1) 4, k + 9)

/-- The fields `parseHeader` reads that later code uses. -/
structure EventHeader where
  timestamp : ℕ
  eventType : ℕ
  eventSize : ℕ
  deriving DecidableEq, Repr

/-- `CLogEvent::parseHeader`: all nineteen bytes are read. -/
def parseHeader (p : Ptr) : Res EventHeader := do
  let _ ← p.bytes 0 19
  return ⟨← p.le 0 4, (← p.read 4).toNat, ← p.le 9 4⟩

/-- **A header is read** when its nineteen bytes are there. -/
theorem parseHeader_eq_ok {p : Ptr} {header : EventHeader} : parseHeader p = .ok header ↔
    19 ≤ p.data.length ∧ p.le 0 4 = .ok header.timestamp ∧
      (∃ b, p.read 4 = .ok b ∧ b.toNat = header.eventType) ∧ p.le 9 4 = .ok header.eventSize := by
  unfold parseHeader
  constructor
  · intro h
    obtain ⟨bs, hbs, h⟩ := Res.bind_eq_ok.mp h
    obtain ⟨timestamp, htime, h⟩ := Res.bind_eq_ok.mp h
    obtain ⟨b, hb, h⟩ := Res.bind_eq_ok.mp h
    obtain ⟨size, hsize, h⟩ := Res.bind_eq_ok.mp h
    obtain rfl := Except.ok.inj h
    obtain ⟨hin, -⟩ := Ptr.bytes_eq_ok.mp hbs
    exact ⟨by omega, htime, ⟨b, hb, rfl⟩, hsize⟩
  · rintro ⟨hin, htime, ⟨b, hb, htype⟩, hsize⟩
    rw [Ptr.bytes_eq_ok.mpr ⟨.inr (by omega), rfl⟩, Res.ok_bind, htime, Res.ok_bind, hb, Res.ok_bind, hsize,
      Res.ok_bind, htype]
    rfl

/-! ### The format description -/

/-- `CHeaderEvent`, of which one global instance `global_description_event` exists. -/
structure CHeaderEvent where
  commonHeaderLength : ℕ
  postHeaderLen : Bytes
  deriving DecidableEq, Repr

/-- `global_description_event` before any load. -/
def CHeaderEvent.initial : CHeaderEvent := ⟨0, []⟩

/-- `CHeaderEvent::loadEvent`: the table of post-header lengths grows with every load. The server version,
which nothing asks for, is not kept, and with it goes the write of the NUL to `m_binlog_szversion[50]`, one
byte behind that array. -/
def CHeaderEvent.loadEvent (gde : CHeaderEvent) (p : Ptr) : Res CHeaderEvent := do
  let header ← parseHeader p
  let tmpoffset := logEventHeaderLen + 2 + stServerVerLen + 4 + 1
  let _ ← p.bytes logEventHeaderLen (2 + stServerVerLen + 4)
  let commonHeaderLength := (← p.read (tmpoffset - 1)).toNat
  let eventTypeIndexLen := min ((header.eventSize + 2 ^ 32 - tmpoffset) % 2 ^ 32) (enumEndEvent - 1)
  return ⟨commonHeaderLength, gde.postHeaderLen ++ (← p.bytes tmpoffset eventTypeIndexLen)⟩

/-- `m_post_header_len[m_event_type - 1]`. -/
def CHeaderEvent.postHeader (gde : CHeaderEvent) (eventType : ℕ) : Res ℕ := do
  if eventType = 0 then throw .fault
  return (← Res.ofOption gde.postHeaderLen[eventType - 1]?).toNat

/-! ### QUERY -/

/-- `CQueryEvent`. -/
structure CQueryEvent where
  threadId : Option ℕ
  schemaName : Bytes
  deriving DecidableEq, Repr

/-- The loop over the names of `Q_UPDATED_DB_NAMES`: the position behind the last one. -/
def skipDbNames (p : Ptr) (payloadEnd : ℕ) : ℕ → ℕ → Res ℕ
  | 0, pos => .ok pos
  | n + 1, pos =>
    if pos < payloadEnd then do
      let name ← (p.add pos).str
      skipDbNames p payloadEnd n (pos + 1 + name.length)
    else .ok pos

/-- The `switch` on the code of a status variable: the position behind the variable whose value is at `pos`. -/
def skipVar (p : Ptr) (payloadEnd pos code : ℕ) : Res ℕ :=
  let skip (n : ℕ) : Res ℕ := do
    let _ ← p.bytes pos n
    return pos + n
  match code with
  | 0 => return pos + 4
  | 1 => skip 8
  | 6 => return pos + (← p.read pos).toNat + 1
  | 3 => skip 4
  | 4 => skip 6
  | 5 => return pos + (← p.read pos).toNat + 1
  | 2 => return pos + (← p.read pos).toNat + 2
  | 7 => skip 2
  | 8 => skip 2
  | 9 => skip 8
  | 10 => skip 4
  | 13 => skip 3
  | 11 => do
    let pos := pos + 1 + (← p.read pos).toNat
    return pos + 1 + (← p.read pos).toNat
  | 12 => do
    let dbs := (← p.read pos).toNat
    if maxDbsInEventMts < dbs then return pos + 1
    else skipDbNames p payloadEnd dbs (pos + 1)
  | 16 => do
    let _ ← p.read pos
    return pos + 1
  | _ => return pos

/-- One status variable: the position behind the variable whose code is at `pos`. -/
def skipStatusVar (p : Ptr) (payloadEnd pos : ℕ) : Res ℕ := do
  let code ← p.read pos
  skipVar p payloadEnd (pos + 1) code.toNat

/-- The loop over the status variables. -/
def skipStatusVars (p : Ptr) (payloadEnd : ℕ) : ℕ → ℕ → Res Unit
  | 0, _ => .error .hang
  | fuel + 1, pos =>
    if pos < payloadEnd then do skipStatusVars p payloadEnd fuel (← skipStatusVar p payloadEnd pos)
    else .ok ()

/-- `CQueryEvent::loadEvent`. -/
def CQueryEvent.loadEvent (gde : CHeaderEvent) (p : Ptr) : Res (CQueryEvent × LoadState) := do
  let header ← parseHeader p
  let postHeaderLen ← gde.postHeader header.eventType
  if header.eventSize < gde.commonHeaderLength + postHeaderLen then
    return (⟨none, []⟩, .eventLengthTooSmall)
  let dataLen := header.eventSize - gde.commonHeaderLength - postHeaderLen
  let dataBuf := logEventHeaderLen
  let threadId ← p.le dataBuf 4
  let _ ← p.bytes dataBuf queryHeaderMinimalLen
  let statusvarsLength ←
    if postHeaderLen ≠ queryHeaderMinimalLen then p.le (dataBuf + 11) 2 else pure 0
  if min dataLen maxSizeLogEventStatus < statusvarsLength then
    return (⟨some threadId, []⟩, .eventLengthTooSmall)
  let payloadBuf := dataBuf + postHeaderLen
  let payloadEnd := payloadBuf + statusvarsLength
  skipStatusVars p payloadEnd (statusvarsLength + 1) payloadBuf
  return (⟨some threadId, ← (p.add payloadEnd).str⟩, .success)

/-! ### TABLE_MAP -/

/-- `CTableMapEvent`. -/
structure CTableMapEvent where
  tableId : Option ℕ
  columnCount : Option ℕ
  fieldMetadataSize : Option ℕ
  columnType : Bytes
  fieldMetadata : Bytes
  dbName : Bytes
  tableName : Bytes
  deriving DecidableEq, Repr

/-- A new `CTableMapEvent`. -/
def CTableMapEvent.new : CTableMapEvent := ⟨none, none, none, [], [], [], []⟩

/-- `CTableMapEvent::loadEvent`. `m_table_id` has 32 bits: of a six-byte id it keeps the low four
bytes. -/
def CTableMapEvent.loadEvent (gde : CHeaderEvent) (p : Ptr) : Res (CTableMapEvent × LoadState) := do
  let header ← parseHeader p
  let postHeaderLen ← gde.postHeader header.eventType
  if header.eventSize < gde.commonHeaderLength + postHeaderLen then
    return (.new, .eventLengthTooSmall)
  if postHeaderLen ≠ 6 ∧ postHeaderLen ≠ tableMapHeaderLen then
    return (.new, .mapHeaderLenError)
  let idLen := if postHeaderLen = 6 then 4 else 6
  let tableId := (← p.le logEventHeaderLen idLen) % 2 ^ 32
  let _ ← p.bytes (logEventHeaderLen + idLen) 2
  let payloadStart := gde.commonHeaderLength + postHeaderLen
  let dbLength := (← p.read payloadStart).toNat
  let tableLength := (← p.read (payloadStart + dbLength + 2)).toNat
  let dbName ← p.bytes (payloadStart + 1) dbLength
  let tableName ← p.bytes (payloadStart + dbLength + 3) tableLength
  let (columnCount, afterColcnt) ← getFieldLength p (payloadStart + dbLength + tableLength + 4)
  let columnType ← p.bytes afterColcnt columnCount
  let ev : CTableMapEvent := ⟨some tableId, some columnCount, none, columnType, [], dbName, tableName⟩
  let bytesRead := afterColcnt + columnCount
  if bytesRead < header.eventSize then
    let (metadataSize, pos) ← getFieldLength p bytesRead
    let ev := { ev with fieldMetadataSize := some metadataSize }
    if columnCount * 2 % 2 ^ 32 < metadataSize then return (ev, .fieldMetaSizeTooBig)
    let fieldMetadata ← p.bytes pos metadataSize
    let _ ← p.bytes (pos + metadataSize) (noBytesInMap columnCount)
    return ({ ev with fieldMetadata := fieldMetadata }, .success)
  else return (ev, .success)

/-- **What loading can give**: an event without a table id, or one with as many types as columns, whose
metadata is all there unless it was found too long. -/
theorem CTableMapEvent.loadEvent_cases {gde : CHeaderEvent} {p : Ptr} {ev : CTableMapEvent}
    {state : LoadState} (h : CTableMapEvent.loadEvent gde p = .ok (ev, state)) :
    ∃ header postHeaderLen, parseHeader p = .ok header ∧
      gde.postHeader header.eventType = .ok postHeaderLen ∧
      (ev = .new ∧ state ≠ .success ∨
        (∃ tableId, p.le logEventHeaderLen (if postHeaderLen = 6 then 4 else 6) = .ok tableId ∧
          ev.tableId = some (tableId % 2 ^ 32)) ∧ ev.columnCount = some ev.columnType.length ∧
        (state = .fieldMetaSizeTooBig ∨ state = .success ∧
          (ev.fieldMetadataSize = none ∧ ev.fieldMetadata = [] ∨
            ev.fieldMetadataSize = some ev.fieldMetadata.length))) := by
  unfold CTableMapEvent.loadEvent at h
  obtain ⟨header, hheader, h⟩ := Res.bind_eq_ok.mp h
  obtain ⟨postHeaderLen, hpost, h⟩ := Res.bind_eq_ok.mp h
  refine ⟨header, postHeaderLen, hheader, hpost, ?_⟩
  by_cases hshort : header.eventSize < gde.commonHeaderLength + postHeaderLen
  · rw [if_pos hshort] at h
    obtain ⟨rfl, rfl⟩ := Prod.mk.inj (Except.ok.inj h)
    exact .inl ⟨rfl, by decide⟩
  by_cases hlen : postHeaderLen ≠ 6 ∧ postHeaderLen ≠ tableMapHeaderLen
  · rw [if_neg hshort, if_pos hlen] at h
    obtain ⟨rfl, rfl⟩ := Prod.mk.inj (Except.ok.inj h)
    exact .inl ⟨rfl, by decide⟩
  rw [if_neg hshort, if_neg hlen] at h
  obtain ⟨tableId, hid, h⟩ := Res.bind_eq_ok.mp h
  obtain ⟨_, -, h⟩ := Res.bind_eq_ok.mp h
  obtain ⟨_, -, h⟩ := Res.bind_eq_ok.mp h
  obtain ⟨_, -, h⟩ := Res.bind_eq_ok.mp h
  obtain ⟨_, -, h⟩ := Res.bind_eq_ok.mp h
  obtain ⟨_, -, h⟩ := Res.bind_eq_ok.mp h
  obtain ⟨⟨columnCount, afterColcnt⟩, -, h⟩ := Res.bind_eq_ok.mp h
  obtain ⟨columnType, htypes, h⟩ := Res.bind_eq_ok.mp h
  have hcount := Ptr.bytes_length htypes
  dsimp only at h
  split_ifs at h
  · obtain ⟨⟨metadataSize, pos⟩, -, h⟩ := Res.bind_eq_ok.mp h
    dsimp only at h
    split_ifs at h
    · obtain ⟨rfl, rfl⟩ := Prod.mk.inj (Except.ok.inj h)
      exact .inr ⟨⟨tableId, hid, rfl⟩, by rw [hcount], .inl rfl⟩
    · obtain ⟨fieldMetadata, hmeta, h⟩ := Res.bind_eq_ok.mp h
      obtain ⟨_, -, h⟩ := Res.bind_eq_ok.mp h
      obtain ⟨rfl, rfl⟩ := Prod.mk.inj (Except.ok.inj h)
      exact .inr ⟨⟨tableId, hid, rfl⟩, by rw [hcount], .inr ⟨rfl, .inr (by rw [Ptr.bytes_length hmeta])⟩⟩
  · obtain ⟨rfl, rfl⟩ := Prod.mk.inj (Except.ok.inj h)
    exact .inr ⟨⟨tableId, hid, rfl⟩, by rw [hcount], .inr ⟨rfl, .inl ⟨rfl, rfl⟩⟩⟩

/-- `CTableMapEvent::createTableDef`. -/
def CTableMapEvent.createTableDef (ev : CTableMapEvent) : Res CTableDef :=
  CTableDef.new ev.columnType ev.columnCount ev.fieldMetadata ev.fieldMetadataSize

/-! ### Rows events -/

/-- The classes `CRowWriteEvent`, `CRowUpdateEvent` and `CRowDeleteEvent`. -/
inductive RowsKind where
  | write | update | delete
  deriving DecidableEq, Repr

/-- `CRowsEvent`. -/
structure CRowsEvent where
  kind : RowsKind
  eventType : ℕ
  timestamp : ℕ
  tableId : Option ℕ
  columnCount : Option ℕ
  cols : MyBitmap
  colsAi : MyBitmap
  ptrRowsData : Option Ptr
  rowsDataLen : Option ℕ
  rowBeforeValues : List (List RowValue)
  rowAfterValues : List (List RowValue)
  deriving DecidableEq, Repr

/-- A zeroed `MY_BITMAP`. -/
def zeroBitmap : MyBitmap := ⟨none, 0, [0, 0, 0, 0], 0⟩

/-- A new rows event whose header has been parsed. -/
def CRowsEvent.new (kind : RowsKind) (header : EventHeader) : CRowsEvent :=
  ⟨kind, header.eventType, header.timestamp, none, none, zeroBitmap, zeroBitmap, none, none, [], []⟩

/-- The loop over the extra header: an info of the tag `ROWS_V_EXTRAINFO_TAG` is stepped over by its
own length, any other tag ends the loop. `false` is `EVENT_EXTRA_HEADER_LEN_TOO_SMALL`. An info of
length zero is stepped over by its tag byte alone. -/
def skipExtraHeader (p : Ptr) (endPos : ℕ) : ℕ → ℕ → Res Bool
  | 0, _ => .ok true
  | fuel + 1, pos =>
    if pos < endPos then do
      let tag := (← p.read pos).toNat
      let pos := pos + 1
      if tag = 0 then
        if endPos - pos < 2 then return false
        let infoLen := (← p.read pos).toNat
        if endPos - pos < infoLen then return false
        let _ ← p.bytes pos infoLen
        skipExtraHeader p endPos fuel (pos + infoLen)
      else return true
    else .ok true

/-- The extra header of a version 2 event at `pos`: its length without the two length bytes, or `none`
for `EVENT_EXTRA_HEADER_LEN_TOO_SMALL`. -/
def loadExtraHeader (p : Ptr) (pos : ℕ) : Res (Option ℕ) := do
  let extraHeaderLen ← p.le pos 2
  if extraHeaderLen < 2 then return none
  let extraHeaderLen := extraHeaderLen - 2
  let start := pos + 2
  let complete ← skipExtraHeader p (start + extraHeaderLen) extraHeaderLen start
  return if complete then some extraHeaderLen else none

/-- `CRowsEvent::loadEvent`. -/
def CRowsEvent.loadEvent (gde : CHeaderEvent) (kind : RowsKind) (p : Ptr) :
    Res (CRowsEvent × LoadState) := do
  let header ← parseHeader p
  let ev := CRowsEvent.new kind header
  let postHeaderLen ← gde.postHeader header.eventType
  if header.eventSize < gde.commonHeaderLength + postHeaderLen then
    return (ev, .eventLengthTooSmall)
  let idLen := if postHeaderLen = 6 then 4 else 6
  let tableId := (← p.le gde.commonHeaderLength idLen) % 2 ^ 32
  let ev := { ev with tableId := some tableId }
  let flagsPos := gde.commonHeaderLength + idLen
  let _ ← p.bytes flagsPos 2
  let extra ←
    (if postHeaderLen = rowsHeaderLenV2 then loadExtraHeader p (flagsPos + 2) else pure (some 0))
  match extra with
  | none => return (ev, .extraHeaderLenTooSmall)
  | some extraHeaderLen =>
    let varStart := gde.commonHeaderLength + postHeaderLen + extraHeaderLen
    let (columnCount, pos) ← getFieldLength p varStart
    let bitsLen := noBytesInMap columnCount
    let cols ← loadBitmap columnCount (← p.bytes pos bitsLen)
    let pos := pos + bitsLen
    let (colsAi, pos) ←
      (if kind = .update then do
        pure (← loadBitmap columnCount (← p.bytes pos bitsLen), pos + bitsLen)
      else pure (zeroBitmap, pos))
    return ({ ev with
      columnCount := some columnCount
      cols := cols
      colsAi := colsAi
      ptrRowsData := some (p.add pos)
      rowsDataLen := some ((header.eventSize + 2 ^ 32 - pos % 2 ^ 32) % 2 ^ 32) }, .success)

/-- **What loading can give**: an event that is found too short, with a table id or without, or one with its
columns and its row data. -/
theorem CRowsEvent.loadEvent_cases {gde : CHeaderEvent} {kind : RowsKind} {p : Ptr} {ev : CRowsEvent}
    {state : LoadState} (h : CRowsEvent.loadEvent gde kind p = .ok (ev, state)) :
    ∃ header postHeaderLen, parseHeader p = .ok header ∧
      gde.postHeader header.eventType = .ok postHeaderLen ∧
      (ev = CRowsEvent.new kind header ∧ state = .eventLengthTooSmall ∨
        ∃ tableId, p.le gde.commonHeaderLength (if postHeaderLen = 6 then 4 else 6) = .ok tableId ∧
          (ev = { CRowsEvent.new kind header with tableId := some (tableId % 2 ^ 32) } ∧
            state = .extraHeaderLenTooSmall ∨
          ∃ varStart n k image cols colsAi pos, getFieldLength p varStart = .ok (n, k) ∧
            p.bytes k (noBytesInMap n) = .ok image ∧ loadBitmap n image = .ok cols ∧ state = .success ∧
            ev = { CRowsEvent.new kind header with
              tableId := some (tableId % 2 ^ 32)
              columnCount := some n
              cols := cols
              colsAi := colsAi
              ptrRowsData := some (p.add pos)
              rowsDataLen := some ((header.eventSize + 2 ^ 32 - pos % 2 ^ 32) % 2 ^ 32) })) := by
  unfold CRowsEvent.loadEvent at h
  obtain ⟨header, hheader, h⟩ := Res.bind_eq_ok.mp h
  obtain ⟨postHeaderLen, hpost, h⟩ := Res.bind_eq_ok.mp h
  refine ⟨header, postHeaderLen, hheader, hpost, ?_⟩
  by_cases hshort : header.eventSize < gde.commonHeaderLength + postHeaderLen
  · rw [if_pos hshort] at h
    obtain ⟨rfl, rfl⟩ := Prod.mk.inj (Except.ok.inj h)
    exact .inl ⟨rfl, rfl⟩
  rw [if_neg hshort] at h
  obtain ⟨tableId, hid, h⟩ := Res.bind_eq_ok.mp h
  obtain ⟨_, -, h⟩ := Res.bind_eq_ok.mp h
  obtain ⟨_ | extraHeaderLen, -, h⟩ := Res.bind_eq_ok.mp h
  · obtain ⟨rfl, rfl⟩ := Prod.mk.inj (Except.ok.inj h)
    exact .inr ⟨tableId, hid, .inl ⟨rfl, rfl⟩⟩
  · obtain ⟨⟨n, k⟩, hn, h⟩ := Res.bind_eq_ok.mp h
    obtain ⟨image, himage, h⟩ := Res.bind_eq_ok.mp h
    obtain ⟨cols, hcols, h⟩ := Res.bind_eq_ok.mp h
    obtain ⟨⟨colsAi, pos⟩, -, h⟩ := Res.bind_eq_ok.mp h
    obtain ⟨rfl, rfl⟩ := Prod.mk.inj (Except.ok.inj h)
    exact .inr ⟨tableId, hid, .inr ⟨_, n, k, image, cols, colsAi, pos, hn, himage, hcols, rfl, rfl⟩⟩

/-- The bound of the loop of `parseEvent`: `m_rows_data_len - 4`, in 32-bit arithmetic. -/
def rowsLimit (rowsDataLen : ℕ) : ℕ := (rowsDataLen + 2 ^ 32 - 4) % 2 ^ 32

/-- `CRowsEvent::parseEvent`, with the table map `setTableMap` has given. -/
def CRowsEvent.parseEvent (ev : CRowsEvent) (tableMap : Option CTableMapEvent) :
    Res (CRowsEvent × LoadState) := do
  match tableMap with
  | none => return (ev, .findTablemapFailed)
  | some map =>
    let td ← map.createTableDef
    let ptr ← Res.ofOption ev.ptrRowsData
    let rowsDataLen ← Res.ofOption ev.rowsDataLen
    let columnCount ← Res.ofOption ev.columnCount
    let st ← parseRows (decide (ev.kind = .update)) td ev.cols columnCount (rowsLimit rowsDataLen)
      (ptr.data.length + 2) ⟨ev.rowBeforeValues, ev.rowAfterValues, ptr, 0⟩
    let _ ← st.ptr.bytes 0 4
    return ({ ev with rowBeforeValues := st.before, rowAfterValues := st.after }, .success)

section Parse
variable {ev ev' : CRowsEvent} {map : CTableMapEvent}

/-- Decoding a loaded event with a table definition: the loop, and the checksum behind it. -/
theorem CRowsEvent.parseEvent_eq {n len : ℕ} {ptr : Ptr} {td : CTableDef} (hn : ev.columnCount = some n)
    (hptr : ev.ptrRowsData = some ptr) (hlen : ev.rowsDataLen = some len)
    (htd : map.createTableDef = .ok td) : ev.parseEvent (some map) =
      (parseRows (decide (ev.kind = .update)) td ev.cols n (rowsLimit len) (ptr.data.length + 2)
        ⟨ev.rowBeforeValues, ev.rowAfterValues, ptr, 0⟩ >>= fun st => st.ptr.bytes 0 4 >>= fun _ =>
          pure ({ ev with rowBeforeValues := st.before, rowAfterValues := st.after },
            LoadState.success)) := by
  rw [CRowsEvent.parseEvent, htd, hptr, hlen, hn]
  simp only [Res.ofOption_some, Res.ok_bind]

/-- **What decoding can give**: only a loaded event is decoded, with a table definition, as its loop does. -/
theorem CRowsEvent.parseEvent_cases {state : LoadState} (h : ev.parseEvent (some map) = .ok (ev', state)) :
    ∃ td ptr len n st, map.createTableDef = .ok td ∧ ev.ptrRowsData = some ptr ∧ ev.rowsDataLen = some len ∧
      ev.columnCount = some n ∧ parseRows (decide (ev.kind = .update)) td ev.cols n (rowsLimit len)
        (ptr.data.length + 2) ⟨ev.rowBeforeValues, ev.rowAfterValues, ptr, 0⟩ = .ok st ∧
      ev' = { ev with rowBeforeValues := st.before, rowAfterValues := st.after } := by
  obtain ⟨td, htd, h⟩ := Res.bind_eq_ok.mp h
  obtain ⟨ptr, hptr, h⟩ := Res.bind_eq_ok.mp h
  obtain ⟨len, hlen, h⟩ := Res.bind_eq_ok.mp h
  obtain ⟨n, hn, h⟩ := Res.bind_eq_ok.mp h
  obtain ⟨st, hst, h⟩ := Res.bind_eq_ok.mp h
  obtain ⟨_, -, h⟩ := Res.bind_eq_ok.mp h
  rw [Res.ofOption_eq_ok] at hptr hlen hn
  exact ⟨td, ptr, len, n, st, htd, hptr, hlen, hn, hst, (Prod.mk.inj (Except.ok.inj h)).1.symm⟩

end Parse

/-! ### Row data -/

/-- `CRowData`. -/
structure CRowData where
  columnCount : Option ℕ
  threadId : Option ℕ
  eventType : ℕ
  timestamp : ℕ
  eventTypeStr : String
  tableName : Bytes
  dbName : Bytes
  rowBeforeValues : List (List RowValue)
  rowAfterValues : List (List RowValue)
  deriving DecidableEq, Repr

/-- `CRowsEvent::createRowData`. The version 1 event types fall under the default. -/
def CRowsEvent.createRowData (ev : CRowsEvent) (threadId : Option ℕ) (dbName tableName : Bytes) :
    CRowData :=
  let (eventType, eventTypeStr) :=
    match EventType.ofCode ev.eventType with
    | .writeRows => (1, "WRITE_ROWS_EVENT")
    | .deleteRows => (2, "DELETE_ROWS_EVENT")
    | .updateRows => (3, "UPDATE_ROWS_EVENT")
    | _ => (0, "UNKNOWN_EVENT")
  { columnCount := ev.columnCount
    threadId := threadId
    eventType := eventType
    timestamp := ev.timestamp
    eventTypeStr := eventTypeStr
    tableName := tableName
    dbName := dbName
    rowBeforeValues := ev.rowBeforeValues
    rowAfterValues := ev.rowAfterValues }

end DataSync.Binlog.LogEvent
