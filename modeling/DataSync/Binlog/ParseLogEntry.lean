import DataSync.Binlog.LogEvent

/-! # The binary log parser

`FileCache.cpp` and `ParseLogEntry.cpp`: the parser opens the log file anew for every call, checks the
header once, then reads event after event from where the last call stopped and hands the rows events
to `productRowData`. `long` has 32 bits: positions from `2 ^ 31` on cannot be told or sought.

The addresses of the event buffers are those an allocator `alloc` gives out, one per event.

`handleEvent_inv` and `parseOneEvent_cases` say what one event can do to the parser. -/

namespace DataSync.Binlog.ParseLogEntry

open DataSync.Lib.Words DataSync.Lib.Memory DataSync.Binlog.Format DataSync.Binlog.LogEvent

/-! ### The file -/

/-- `FileCache`: the contents of the open file and the read position. The end-of-file flag is left
out: it is set by a short read only, and after one no caller asks for it. -/
structure FileCache where
  file : Bytes
  pos : ℕ
  deriving DecidableEq, Repr

namespace FileCache

/-- `FileCache::init`. -/
def init (file : Bytes) : FileCache := ⟨file, 0⟩

/-- The position or size `ftell` gives for `n`, as a `ulonglong`. -/
def tell (n : ℕ) : ℕ := if n < 2 ^ 31 then n else 2 ^ 64 - 1

/-- `getFileSize`, a `uint32`. -/
def getFileSize (fc : FileCache) : ℕ := tell fc.file.length % 2 ^ 32

/-- `fileEof`. -/
def fileEof (fc : FileCache) : Bool := tell fc.file.length ≤ tell fc.pos

/-- `fileSeek` with `SEEK_CUR`: a seek before the start of the file fails and changes nothing. -/
def seekCur (fc : FileCache) (offset : ℤ) : FileCache :=
  let pos := (fc.pos : ℤ) + offset
  if pos < 0 then fc else { fc with pos := pos.toNat }

/-- `fileSeek` with `SEEK_SET`. -/
def seekSet (fc : FileCache) (offset : ℤ) : FileCache :=
  if offset < 0 then fc else { fc with pos := offset.toNat }

/-- `readCache` without a seek. `fread` of one item of size zero reads no item. -/
def readCache (fc : FileCache) (readsize : ℕ) : Option Bytes × FileCache :=
  if readsize = 0 then (none, fc)
  else if fc.pos + readsize ≤ fc.file.length then
    (some ((fc.file.drop fc.pos).take readsize), { fc with pos := fc.pos + readsize })
  else (none, { fc with pos := max fc.pos fc.file.length })

end FileCache

/-! ### The parser -/

/-- `CParseLogEntry` with the global `global_description_event`, the number of event buffers allocated
so far and the row data handed to `productRowData`. -/
structure CParseLogEntry where
  tablemaps : ℕ → Option CTableMapEvent
  queryTmp : Option CQueryEvent
  mapTmp : Option CTableMapEvent
  filePtr : ℕ
  gde : CHeaderEvent
  allocs : ℕ
  out : List CRowData

/-- A fresh parser in a new process. -/
def CParseLogEntry.new : CParseLogEntry := ⟨fun _ => none, none, none, 0, .initial, 0, []⟩

/-- `updateTableMap`, behind the assignment of `m_p_map_tmp`. -/
def updateTableMap (s : CParseLogEntry) (ev : CTableMapEvent) : Res CParseLogEntry := do
  let tableId ← Res.ofOption ev.tableId
  return { s with mapTmp := some ev, tablemaps := Function.update s.tablemaps tableId (some ev) }

/-- A rows event: load it, decode it with the table map registered under its table id and hand it on
under the names of the last table map. -/
def handleRows (s : CParseLogEntry) (kind : RowsKind) (p : Ptr) : Res CParseLogEntry := do
  let (ev, _) ← CRowsEvent.loadEvent s.gde kind p
  let tableId ← Res.ofOption ev.tableId
  let (ev, _) ← ev.parseEvent (s.tablemaps tableId)
  let query ← Res.ofOption s.queryTmp
  let map ← Res.ofOption s.mapTmp
  let data := ev.createRowData query.threadId (cStr map.dbName) (cStr map.tableName)
  return { s with out := s.out ++ [data] }

/-- The `switch` of `parseOneEvent` on the event in the buffer `p`. -/
def handleEvent (s : CParseLogEntry) (p : Ptr) : Res CParseLogEntry := do
  match EventType.ofCode (← p.read eventTypeOffset).toNat with
  | .query =>
    let (ev, _) ← CQueryEvent.loadEvent s.gde p
    return { s with queryTmp := some ev }
  | .tableMap =>
    let (ev, _) ← CTableMapEvent.loadEvent s.gde p
    updateTableMap s ev
  | .writeRowsV1 | .writeRows => handleRows s .write p
  | .updateRows | .updateRowsV1 => handleRows s .update p
  | .deleteRowsV1 | .deleteRows => handleRows s .delete p
  | .stop => return { s with filePtr := 0 }
  | _ => return s

/-- `parseOneEvent`. The buffer holds the event and a NUL behind it. -/
def parseOneEvent (alloc : ℕ → ℕ) (fc : FileCache) (s : CParseLogEntry) :
    Res (Bool × FileCache × CParseLogEntry) := do
  let headSize := min s.gde.commonHeaderLength logEventHeaderLen
  match fc.readCache headSize with
  | (none, fc) => return (false, fc, s)
  | (some ucHeader, fc) =>
    let eventSize ← (Ptr.mk 0 ucHeader).le eventLenOffset 4
    if eventSize < headSize then return (false, fc, s)
    if eventSize + 1 = 2 ^ 32 then throw .fault
    match fc.readCache (eventSize - headSize) with
    | (none, fc) => return (false, fc, { s with allocs := s.allocs + 1 })
    | (some body, fc) =>
      let cBuf : Ptr := ⟨alloc s.allocs, ucHeader ++ body ++ [0]⟩
      let s := { s with allocs := s.allocs + 1 }
      if eventSize < eventLenOffset ∨ eventSize ≠ (← cBuf.le eventLenOffset 4) then
        return (false, fc, s)
      let eventType := (← cBuf.read eventTypeOffset).toNat
      if enumEndEvent < eventType ∨ eventType = 0 then return (false, fc, s)
      return (true, fc, ← handleEvent s cBuf)

/-- The loop of `parseEvents`; every round that goes on has read at least two bytes. -/
def parseEventsLoop (alloc : ℕ → ℕ) : ℕ → FileCache → CParseLogEntry →
    Res (FileCache × CParseLogEntry)
  | 0, _, _ => .error .hang
  | fuel + 1, fc, s => do
    let (more, fc, s) ← parseOneEvent alloc fc s
    if more && !fc.fileEof then parseEventsLoop alloc fuel fc s else return (fc, s)

/-- `parseEvents`, which always returns `true`. -/
def parseEvents (alloc : ℕ → ℕ) (fc : FileCache) (s : CParseLogEntry) :
    Res (FileCache × CParseLogEntry) :=
  parseEventsLoop alloc (fc.file.length + 1) fc s

/-- The loop of `checkHeader`. Where it goes next depends on the position alone, so a loop that has not
ended within as many rounds as there are positions never does. -/
def checkHeaderLoop : ℕ → FileCache → CHeaderEvent → Res (Bool × FileCache × CHeaderEvent)
  | 0, _, _ => .error .hang
  | fuel + 1, fc, gde => do
    match fc.readCache logEventHeaderLen with
    | (none, fc) => return (false, fc, gde)
    | (some ucHeaderBuf, fc) =>
      let eventSize ← (Ptr.mk 0 ucHeaderBuf).le eventLenOffset 4
      let eventType := (← (Ptr.mk 0 ucHeaderBuf).read eventTypeOffset).toNat
      let skip := toSigned 32 (eventSize + 2 ^ 32 - logEventHeaderLen)
      match EventType.ofCode eventType with
      | .startV3 | .previousGtids | .rotate => checkHeaderLoop fuel (fc.seekCur skip) gde
      | .formatDescription =>
        match (fc.seekCur (-logEventHeaderLen)).readCache eventSize with
        | (none, fc) => return (false, fc, gde)
        | (some ucBuf, fc) => checkHeaderLoop fuel fc (← gde.loadEvent ⟨0, ucBuf⟩)
      | _ => return (true, fc.seekCur (-logEventHeaderLen), gde)

/-- `checkHeader`. -/
def checkHeader (fc : FileCache) (gde : CHeaderEvent) : Res (Bool × FileCache × CHeaderEvent) :=
  match fc.readCache binlogMagic.length with
  | (none, fc) => .ok (false, fc, gde)
  | (some ucHeader, fc) =>
    if ucHeader ≠ binlogMagic then .ok (false, fc, gde)
    else checkHeaderLoop (fc.file.length + 2) fc gde

/-- `parseBegin`. -/
def parseBegin (alloc : ℕ → ℕ) (fc : FileCache) (s : CParseLogEntry) :
    Res (Bool × CParseLogEntry) := do
  if s.filePtr = 0 then
    let (ok, fc, gde) ← checkHeader fc s.gde
    if ok then
      let (fc, s) ← parseEvents alloc fc { s with gde := gde }
      return (true, { s with filePtr := fc.getFileSize })
    else return (false, { s with gde := gde })
  else if fc.getFileSize ≤ s.filePtr then return (true, s)
  else
    let (fc, s) ← parseEvents alloc (fc.seekSet (toSigned 32 s.filePtr)) s
    return (true, { s with filePtr := fc.getFileSize })

/-- One notification of the monitor: `refreshFileCache` on the file as it is now, then
`parseBegin`. -/
def refreshAndParse (alloc : ℕ → ℕ) (s : CParseLogEntry) (file : Bytes) : Res CParseLogEntry := do
  return (← parseBegin alloc (FileCache.init file) s).2

/-- One parser tailing a growing file, called on each of its states in turn. -/
def tailFile (alloc : ℕ → ℕ) (files : List Bytes) : Res CParseLogEntry :=
  files.foldlM (refreshAndParse alloc) .new

theorem tailFile_singleton (alloc : ℕ → ℕ) (file : Bytes) :
    tailFile alloc [file] = refreshAndParse alloc .new file := by
  rw [tailFile, List.foldlM_cons]
  exact bind_pure _

/-! ### What one event can do -/

/-- The parser behind the event in the buffer `p`, by the type of the event. -/
def Handled (s : CParseLogEntry) (p : Ptr) (s' : CParseLogEntry) : EventType → Prop
  | .query => ∃ ev, s' = { s with queryTmp := some ev }
  | .tableMap => ∃ ev state tableId, CTableMapEvent.loadEvent s.gde p = .ok (ev, state) ∧
      ev.tableId = some tableId ∧
      s' = { s with mapTmp := some ev, tablemaps := Function.update s.tablemaps tableId (some ev) }
  | .writeRowsV1 | .writeRows | .updateRowsV1 | .updateRows | .deleteRowsV1 | .deleteRows =>
      ∃ last data, s.mapTmp = some last ∧ s' = { s with out := s.out ++ [data] } ∧
        (data.dbName, data.tableName) = (cStr last.dbName, cStr last.tableName)
  | .stop => s' = { s with filePtr := 0 }
  | _ => s' = s

/-- A rows event is handed on under the names of the last table map. -/
theorem handleRows_inv {s s' : CParseLogEntry} {kind : RowsKind} {p : Ptr}
    (h : handleRows s kind p = .ok s') : ∃ last data, s.mapTmp = some last ∧
      s' = { s with out := s.out ++ [data] } ∧
      (data.dbName, data.tableName) = (cStr last.dbName, cStr last.tableName) := by
  unfold handleRows at h
  obtain ⟨⟨ev, _⟩, -, h⟩ := Res.bind_eq_ok.mp h
  obtain ⟨tableId, -, h⟩ := Res.bind_eq_ok.mp h
  obtain ⟨⟨ev', _⟩, -, h⟩ := Res.bind_eq_ok.mp h
  obtain ⟨query, -, h⟩ := Res.bind_eq_ok.mp h
  obtain ⟨last, hlast, h⟩ := Res.bind_eq_ok.mp h
  obtain rfl := Except.ok.inj h
  exact ⟨last, _, Res.ofOption_eq_ok.mp hlast, rfl, rfl⟩

/-- **What one event can do.** -/
theorem handleEvent_inv {s s' : CParseLogEntry} {p : Ptr} (h : handleEvent s p = .ok s') :
    ∃ b, p.read eventTypeOffset = .ok b ∧ Handled s p s' (EventType.ofCode b.toNat) := by
  unfold handleEvent at h
  obtain ⟨b, hb, h⟩ := Res.bind_eq_ok.mp h
  refine ⟨b, hb, ?_⟩
  generalize EventType.ofCode b.toNat = type at h
  cases type
  case query =>
    obtain ⟨⟨ev, _⟩, -, h⟩ := Res.bind_eq_ok.mp h
    exact ⟨ev, (Except.ok.inj h).symm⟩
  case tableMap =>
    obtain ⟨⟨ev, state⟩, hload, h⟩ := Res.bind_eq_ok.mp h
    unfold updateTableMap at h
    obtain ⟨tableId, hid, h⟩ := Res.bind_eq_ok.mp h
    exact ⟨ev, state, tableId, hload, Res.ofOption_eq_ok.mp hid, (Except.ok.inj h).symm⟩
  case writeRowsV1 | writeRows | updateRowsV1 | updateRows | deleteRowsV1 | deleteRows =>
    exact handleRows_inv h
  all_goals exact (Except.ok.inj h).symm

/-- What no event changes. -/
theorem handleEvent_frame {s s' : CParseLogEntry} {p : Ptr} (h : handleEvent s p = .ok s') :
    s'.gde = s.gde ∧ s'.allocs = s.allocs := by
  obtain ⟨b, -, h⟩ := handleEvent_inv h
  generalize EventType.ofCode b.toNat = type at h
  cases type
  case query =>
    obtain ⟨ev, rfl⟩ := h
    exact ⟨rfl, rfl⟩
  case tableMap =>
    obtain ⟨ev, state, tableId, -, -, rfl⟩ := h
    exact ⟨rfl, rfl⟩
  case writeRowsV1 | writeRows | updateRowsV1 | updateRows | deleteRowsV1 | deleteRows =>
    obtain ⟨last, data, -, rfl, -⟩ := h
    exact ⟨rfl, rfl⟩
  all_goals
    obtain rfl := h
    exact ⟨rfl, rfl⟩

/-- The buffer of an event of `size` bytes: as many as its header says, and a NUL behind them. -/
structure EventBuffer (p : Ptr) (size : ℕ) : Prop where
  header : p.le eventLenOffset 4 = .ok size
  length : p.data.length = size + 1
  nul : p.data[size]? = some 0

theorem length_readCache {fc fc' : FileCache} {n : ℕ} {bs : Bytes}
    (h : fc.readCache n = (some bs, fc')) : bs.length = n := by
  unfold FileCache.readCache at h
  split_ifs at h with hzero hle
  · cases h
  · obtain ⟨hbs, -⟩ := Prod.mk.inj h
    rw [← Option.some.inj hbs, List.length_take, List.length_drop]
    omega
  · cases h

/-- **What reading one event can do**: it stops before the event is handled, or handles it in a buffer
of its size. -/
theorem parseOneEvent_cases (alloc : ℕ → ℕ) (fc : FileCache) (s : CParseLogEntry) :
    (∃ fc' n, parseOneEvent alloc fc s = .ok (false, fc', { s with allocs := n })) ∨
    parseOneEvent alloc fc s = .error .fault ∨
    ∃ p size fc', EventBuffer p size ∧ parseOneEvent alloc fc s =
      (handleEvent { s with allocs := s.allocs + 1 } p >>= fun s' => .ok (true, fc', s')) := by
  unfold parseOneEvent
  dsimp only
  rcases hhead : fc.readCache (min s.gde.commonHeaderLength logEventHeaderLen) with ⟨_ | ucHeader, fc1⟩
  · exact .inl ⟨fc1, s.allocs, rfl⟩
  dsimp only
  rcases Res.Ends.fault_or_ok (Ptr.ends_le ⟨0, ucHeader⟩ eventLenOffset 4) with hbad | ⟨eventSize, hsize⟩
  · exact .inr (.inl (by rw [hbad, Res.error_bind]))
  rw [hsize, Res.ok_bind]
  split_ifs with hsmall hover
  · exact .inl ⟨fc1, s.allocs, rfl⟩
  · exact .inr (.inl rfl)
  rcases hbody : fc1.readCache (eventSize - min s.gde.commonHeaderLength logEventHeaderLen) with
    ⟨_ | body, fc2⟩
  · exact .inl ⟨fc2, s.allocs + 1, rfl⟩
  dsimp only
  have hlen : (ucHeader ++ body ++ [0]).length = eventSize + 1 := by
    have h1 := length_readCache hhead
    have h2 := length_readCache hbody
    simp only [List.length_append, List.length_cons, List.length_nil]
    omega
  rcases Res.Ends.fault_or_ok (Ptr.ends_le ⟨alloc s.allocs, ucHeader ++ body ++ [0]⟩ eventLenOffset 4)
    with hbad | ⟨size, hle⟩
  · exact .inr (.inl (by rw [hbad, Res.error_bind]))
  rw [hle, Res.ok_bind]
  split_ifs with hsanity
  · exact .inl ⟨fc2, s.allocs + 1, rfl⟩
  rcases Res.Ends.fault_or_ok (Ptr.ends_read ⟨alloc s.allocs, ucHeader ++ body ++ [0]⟩ eventTypeOffset)
    with hbad | ⟨b, hb⟩
  · exact .inr (.inl (by rw [hbad, Res.error_bind]))
  rw [hb, Res.ok_bind]
  split_ifs with htype
  · exact .inl ⟨fc2, s.allocs + 1, rfl⟩
  · obtain rfl : eventSize = size := by omega
    have hnul : (ucHeader ++ body ++ [0])[eventSize]? = some 0 := by
      have hfront : eventSize = (ucHeader ++ body).length := by
        rw [List.length_append, List.length_singleton] at hlen; omega
      rw [hfront, List.getElem?_concat_length]
    exact .inr (.inr ⟨_, eventSize, fc2, ⟨hle, hlen, hnul⟩, rfl⟩)

theorem parseOneEvent_inv {alloc : ℕ → ℕ} {fc fc' : FileCache} {s s' : CParseLogEntry} {more : Bool}
    (h : parseOneEvent alloc fc s = .ok (more, fc', s')) : (∃ n, s' = { s with allocs := n }) ∨
      ∃ p, handleEvent { s with allocs := s.allocs + 1 } p = .ok s' := by
  rcases parseOneEvent_cases alloc fc s with ⟨fc₁, n, hstop⟩ | hfault | ⟨p, size, fc₁, -, hevent⟩
  · rw [hstop, Except.ok.injEq] at h
    obtain ⟨-, -, rfl⟩ : _ ∧ _ ∧ _ := by simpa using h
    exact .inl ⟨n, rfl⟩
  · rw [hfault] at h; cases h
  · rw [hevent] at h
    obtain ⟨s₁, hs₁, h⟩ := Res.bind_eq_ok.mp h
    obtain ⟨-, -, rfl⟩ : _ ∧ _ ∧ _ := by simpa using h
    exact .inr ⟨p, hs₁⟩

end DataSync.Binlog.ParseLogEntry
