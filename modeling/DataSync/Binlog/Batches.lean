import DataSync.Binlog.TableNames

/-! # What an event is handed on as

`parseOneEvent` asks neither `loadEvent` nor `parseEvent` whether it has succeeded: a rejected rows event
is handed on all the same, and a rejected table map is registered. `rejected_noEffect_iff` says for which
rejected events nothing comes of it.

The two versions of a rows event are loaded alike (`loadEvent_versions`), but the row data say what kind of
event it was, and `createRowData` knows the version 2 types only: `versions_differ`. -/

namespace DataSync.Binlog.Batches

open DataSync.Lib.Words DataSync.Lib.Memory DataSync.Binlog.Format DataSync.Binlog.LogEvent
open DataSync.Binlog.ParseLogEntry DataSync.Binlog.RowsFormat DataSync.Binlog.TableNames

/-! ### The event at the read position -/

/-- What `parseOneEvent` reads before its `switch`: the buffer with the event, if there is one, and the
file behind it. -/
def eventAt (alloc : ℕ → ℕ) (fc : FileCache) (s : CParseLogEntry) : Res (Option (Ptr × FileCache)) := do
  let headSize := min s.gde.commonHeaderLength logEventHeaderLen
  match fc.readCache headSize with
  | (none, _) => return none
  | (some ucHeader, fc) =>
    let eventSize ← (Ptr.mk 0 ucHeader).le eventLenOffset 4
    if eventSize < headSize then return none
    if eventSize + 1 = 2 ^ 32 then throw .fault
    match fc.readCache (eventSize - headSize) with
    | (none, _) => return none
    | (some body, fc) =>
      let cBuf : Ptr := ⟨alloc s.allocs, ucHeader ++ body ++ [0]⟩
      if eventSize < eventLenOffset ∨ eventSize ≠ (← cBuf.le eventLenOffset 4) then return none
      let eventType := (← cBuf.read eventTypeOffset).toNat
      if enumEndEvent < eventType ∨ eventType = 0 then return none
      return some (cBuf, fc)

/-- The event goes to the `switch`. -/
theorem parseOneEvent_eventAt {alloc : ℕ → ℕ} {fc fc' : FileCache} {s : CParseLogEntry} {p : Ptr}
    (h : eventAt alloc fc s = .ok (some (p, fc'))) : parseOneEvent alloc fc s =
      (handleEvent { s with allocs := s.allocs + 1 } p >>= fun s' => .ok (true, fc', s')) := by
  unfold eventAt at h
  unfold parseOneEvent
  dsimp only at h ⊢
  rcases hhead : fc.readCache (min s.gde.commonHeaderLength logEventHeaderLen) with ⟨_ | ucHeader, fc1⟩
  · rw [hhead] at h
    cases h
  rw [hhead] at h
  dsimp only at h ⊢
  obtain ⟨eventSize, hsize, h⟩ := Res.bind_eq_ok.mp h
  rw [hsize, Res.ok_bind]
  split_ifs at h ⊢ with hsmall hfault
  · cases h
  · cases h
  rcases hbody : fc1.readCache (eventSize - min s.gde.commonHeaderLength logEventHeaderLen) with
    ⟨_ | body, fc2⟩
  · rw [hbody] at h
    cases h
  rw [hbody] at h
  dsimp only at h ⊢
  obtain ⟨size, hsize', h⟩ := Res.bind_eq_ok.mp h
  rw [hsize', Res.ok_bind]
  split_ifs at h ⊢ with hbad
  · cases h
  obtain ⟨b, hb, h⟩ := Res.bind_eq_ok.mp h
  rw [hb, Res.ok_bind]
  split_ifs at h ⊢ with htype
  · cases h
  rw [Res.pure_eq, Except.ok.injEq, Option.some.injEq, Prod.mk.injEq] at h
  obtain ⟨rfl, rfl⟩ := h
  rfl

theorem read_of_typeOf {p : Ptr} {type : EventType} (h : typeOf p = some type) :
    ∃ b, p.read eventTypeOffset = .ok b ∧ EventType.ofCode b.toNat = type := by
  unfold typeOf at h
  obtain ⟨b, hb, htype⟩ := Option.map_eq_some_iff.mp h
  refine ⟨b, ?_, htype⟩
  cases hread : p.read eventTypeOffset with
  | error e =>
    rw [hread] at hb
    cases hb
  | ok b' =>
    rw [hread] at hb
    rw [Option.some.inj hb]

theorem handleEvent_tableMap {s : CParseLogEntry} {p : Ptr} (h : typeOf p = some .tableMap) :
    handleEvent s p = (CTableMapEvent.loadEvent s.gde p >>= fun x => updateTableMap s x.1) := by
  obtain ⟨b, hb, htype⟩ := read_of_typeOf h
  rw [handleEvent, hb, Res.ok_bind, htype]

theorem handleEvent_rows {s : CParseLogEntry} {p : Ptr} {kind : RowsKind}
    (h : (typeOf p).bind rowsKind = some kind) : handleEvent s p = handleRows s kind p := by
  obtain ⟨type, htype, hkind⟩ := Option.bind_eq_some_iff.mp h
  obtain ⟨b, hb, rfl⟩ := read_of_typeOf htype
  rw [handleEvent, hb, Res.ok_bind]
  rcases hcode : EventType.ofCode b.toNat <;> rw [hcode] at hkind <;> cases hkind <;> rfl

/-! ### Rejected events -/

/-- A TABLE_MAP event that is not loaded, or a rows event that is not loaded or not decoded. -/
def Rejected (s : CParseLogEntry) (p : Ptr) : Prop :=
  (typeOf p = some .tableMap ∧
    ∃ ev state, CTableMapEvent.loadEvent s.gde p = .ok (ev, state) ∧ state ≠ .success) ∨
  ∃ kind ev state, (typeOf p).bind rowsKind = some kind ∧
    CRowsEvent.loadEvent s.gde kind p = .ok (ev, state) ∧
    (state ≠ .success ∨ ∃ tableId ev' state', ev.tableId = some tableId ∧
      ev.parseEvent (s.tablemaps tableId) = .ok (ev', state') ∧ state' ≠ .success)

/-- The event at the read position is not handed on, and the table maps stay as they are. -/
def NoEffect (alloc : ℕ → ℕ) (fc : FileCache) (s : CParseLogEntry) : Prop :=
  ∃ more fc' s', parseOneEvent alloc fc s = .ok (more, fc', s') ∧ s'.out = s.out ∧
    s'.tablemaps = s.tablemaps

/-- A TABLE_MAP event with too much metadata, of which all that was loaded is registered already. -/
def AlreadyThere (s : CParseLogEntry) (p : Ptr) : Prop :=
  typeOf p = some .tableMap ∧ ∃ ev tableId,
    CTableMapEvent.loadEvent s.gde p = .ok (ev, .fieldMetaSizeTooBig) ∧ ev.tableId = some tableId ∧
    s.tablemaps tableId = some ev

/-- A rejected table map that has its table id was rejected for its metadata. -/
theorem fieldMetaSizeTooBig_of_tableId {gde : CHeaderEvent} {p : Ptr} {ev : CTableMapEvent}
    {state : LoadState} {tableId : ℕ} (h : CTableMapEvent.loadEvent gde p = .ok (ev, state))
    (hstate : state ≠ .success) (hid : ev.tableId = some tableId) : state = .fieldMetaSizeTooBig := by
  obtain ⟨header, postHeaderLen, -, -, ⟨rfl, -⟩ | ⟨-, -, hbig | ⟨hsuccess, -⟩⟩⟩ :=
    CTableMapEvent.loadEvent_cases h
  · cases hid
  · exact hbig
  · exact absurd hsuccess hstate

/-- **A rejected event has no effect exactly when** it is a table map that was rejected for its metadata
and is registered already. -/
theorem rejected_noEffect_iff (alloc : ℕ → ℕ) (fc fc' : FileCache) (s : CParseLogEntry) (p : Ptr)
    (h : eventAt alloc fc s = .ok (some (p, fc'))) (hrej : Rejected s p) :
    NoEffect alloc fc s ↔ AlreadyThere s p := by
  have hparse := parseOneEvent_eventAt h
  rcases hrej with ⟨htype, ev, state, hload, hstate⟩ | ⟨kind, ev, state, htype, -⟩
  · rw [handleEvent_tableMap htype] at hparse
    dsimp only at hparse
    rw [hload, Res.ok_bind] at hparse
    rcases hid : ev.tableId with _ | tableId
    · -- a table map without a table id: the id it is registered under is indeterminate
      rw [updateTableMap, hid] at hparse
      constructor
      · rintro ⟨more, fc1, s1, hrun, -⟩
        rw [hparse] at hrun
        cases hrun
      · rintro ⟨-, ev', tableId, hload', hid', -⟩
        rw [hload] at hload'
        obtain ⟨rfl, -⟩ := Prod.mk.inj (Except.ok.inj hload')
        rw [hid] at hid'
        cases hid'
    · rw [updateTableMap, hid] at hparse
      obtain rfl := fieldMetaSizeTooBig_of_tableId hload hstate hid
      constructor
      · rintro ⟨more, fc1, s1, hrun, -, hmaps⟩
        rw [hparse] at hrun
        obtain ⟨-, -, rfl⟩ : _ ∧ _ ∧ _ := by simpa using hrun
        exact ⟨htype, ev, tableId, hload, hid, (Function.update_eq_self_iff.mp hmaps).symm⟩
      · rintro ⟨-, ev', tableId', hload', hid', hmaps⟩
        rw [hload] at hload'
        obtain ⟨rfl, -⟩ := Prod.mk.inj (Except.ok.inj hload')
        rw [hid] at hid'
        obtain rfl := Option.some.inj hid'
        exact ⟨_, _, _, hparse, rfl, Function.update_eq_self_iff.mpr hmaps.symm⟩
  · rw [handleEvent_rows htype] at hparse
    constructor
    · rintro ⟨more, fc1, s1, hrun, hout, -⟩
      rw [hparse] at hrun
      obtain ⟨s2, hrows, hs⟩ := Res.bind_eq_ok.mp hrun
      obtain ⟨-, -, rfl⟩ : _ ∧ _ ∧ _ := by simpa using hs
      obtain ⟨last, data, -, rfl, -⟩ := handleRows_inv hrows
      simp at hout
    · rintro ⟨hmap, -⟩
      rw [hmap] at htype
      cases htype

/-- A file that holds one event. -/
def fileOf (p : Ptr) : Bytes := p.data.dropLast

/-- A parser behind the QUERY event of a transaction and a table map. -/
def behindMap (tableId : ℕ) (ev : CTableMapEvent) : CParseLogEntry :=
  { fresh description with
    tablemaps := Function.update (fun _ => none) tableId (some ev)
    queryTmp := some ⟨some 7, []⟩
    mapTmp := some ev }

/-- A table map with nine bytes of metadata for one column, and what is loaded of it. -/
def tooMuchMetadata : Ptr :=
  event 19 [1, 0, 0, 0, 0, 0, 1, 0, 1, 97, 0, 1, 120, 0, 1, 15, 9, 32, 0, 0, 0, 0, 0, 0]

@[inherit_doc tooMuchMetadata]
def tooMuchLoaded : CTableMapEvent := ⟨some 1, some 1, some 9, [15], [], [97], [120]⟩

/-- The same rejected table map once more. -/
theorem rejected_noEffect_iff_again :
    Rejected (behindMap 1 tooMuchLoaded) tooMuchMetadata ∧
      NoEffect (fun _ => 0) ⟨fileOf tooMuchMetadata, 0⟩ (behindMap 1 tooMuchLoaded) := by
  have hload : CTableMapEvent.loadEvent description tooMuchMetadata =
      .ok (tooMuchLoaded, .fieldMetaSizeTooBig) := by decide
  have htype : typeOf tooMuchMetadata = some .tableMap := by decide
  have hrej : Rejected (behindMap 1 tooMuchLoaded) tooMuchMetadata :=
    Or.inl ⟨htype, _, _, hload, by simp⟩
  refine ⟨hrej, (rejected_noEffect_iff _ _ ⟨fileOf tooMuchMetadata, 43⟩ _ _ ?_ hrej).mpr ?_⟩
  · decide
  · exact ⟨htype, tooMuchLoaded, 1, hload, rfl, by simp [behindMap]⟩

/-- A rows event with an unknown table id is handed on as a batch without rows. -/
theorem unknownTable_emitted : ¬ ∀ (alloc : ℕ → ℕ) (fc fc' : FileCache) (s : CParseLogEntry) (p : Ptr),
    eventAt alloc fc s = .ok (some (p, fc')) → Rejected s p → NoEffect alloc fc s := by
  intro h
  have hload : (CRowsEvent.loadEvent description .write (insertRow 2)).map
      (fun x => (x.1.tableId, x.2)) = .ok (some 2, .success) := by decide
  have hrej : Rejected (behindMap 1 ⟨some 1, some 1, some 2, [15], [32, 0], [97], [120]⟩)
      (insertRow 2) := by
    obtain ⟨x, hrun, hx⟩ := Res.map_eq_ok.mp hload
    exact Or.inr ⟨.write, x.1, x.2, by decide, hrun, Or.inr ⟨2, x.1, .findTablemapFailed,
      congrArg Prod.fst hx, rfl, by simp⟩⟩
  obtain ⟨more, fc', s', hrun, hout, -⟩ := h (fun _ => 0) ⟨fileOf (insertRow 2), 0⟩
    ⟨fileOf (insertRow 2), 38⟩ _ _ (by decide) hrej
  have hone : (parseOneEvent (fun _ => 0) ⟨fileOf (insertRow 2), 0⟩
      (behindMap 1 ⟨some 1, some 1, some 2, [15], [32, 0], [97], [120]⟩)).map
      (fun x => x.2.2.out.length) = .ok 1 := by decide
  rw [hrun] at hone
  have hlen : s'.out.length = 1 := Except.ok.inj hone
  rw [hout] at hlen
  cases hlen

/-! ### The two versions of a rows event -/

/-- The type codes of the version 1 rows events. -/
def v1Code : RowsKind → ℕ
  | .write => 23
  | .update => 24
  | .delete => 25

/-- The type codes of the version 2 rows events. -/
def v2Code : RowsKind → ℕ
  | .write => 30
  | .update => 31
  | .delete => 32

/-- The contents of a rows event, encoded as a version 1 event. -/
def asV1 (f : RowsFrame) : RowsFrame := { f with version := .v1, eventType := v1Code f.kind }

/-- The contents of a rows event, encoded as a version 2 event with this extra header. -/
def asV2 (f : RowsFrame) (extra : Bytes) : RowsFrame :=
  { f with version := .v2 extra, eventType := v2Code f.kind }

/-- Loaded, the two versions differ in the type code and in where the rows stand, not in what they are. -/
theorem loadEvent_versions {gde : CHeaderEvent} {f : RowsFrame} {extra : Bytes}
    (h1 : (asV1 f).Ok gde) (h2 : (asV2 f extra).Ok gde) (a1 a2 : ℕ) :
    ∃ (ev : CRowsEvent) (q1 q2 : Ptr),
      CRowsEvent.loadEvent gde f.kind ⟨a1, (asV1 f).bytes ++ [0]⟩ =
        .ok ({ ev with eventType := v1Code f.kind, ptrRowsData := some q1 }, .success) ∧
      CRowsEvent.loadEvent gde f.kind ⟨a2, (asV2 f extra).bytes ++ [0]⟩ =
        .ok ({ ev with eventType := v2Code f.kind, ptrRowsData := some q2 }, .success) ∧
      q1.data = q2.data := by
  obtain ⟨cols, hcols⟩ := Bitmap.exists_loadBitmap h1.before
  obtain ⟨colsAi, hcolsAi⟩ : ∃ colsAi,
      (if f.kind = .update then Bitmap.loadBitmap f.columnCount f.after else pure zeroBitmap) =
        .ok colsAi := by
    by_cases hk : f.kind = .update
    · rw [if_pos hk]
      exact Bitmap.exists_loadBitmap (h1.after hk)
    · rw [if_neg hk]
      exact ⟨zeroBitmap, rfl⟩
  refine ⟨⟨f.kind, 0, f.timestamp, some (f.tableId % 256 ^ 6 % 2 ^ 32), some f.columnCount, cols, colsAi,
    none, some (f.rows.length + 4), [], []⟩, Ptr.add ⟨a1, (asV1 f).bytes ++ [0]⟩ (asV1 f).rowsPos,
    Ptr.add ⟨a2, (asV2 f extra).bytes ++ [0]⟩ (asV2 f extra).rowsPos,
    loadEvent_frame h1 rfl hcols hcolsAi, loadEvent_frame h2 rfl hcols hcolsAi, ?_⟩
  have hrows1 : (Ptr.add ⟨a1, (asV1 f).bytes ++ [0]⟩ (asV1 f).rowsPos).data = _ := rows_frame rfl
  have hrows2 : (Ptr.add ⟨a2, (asV2 f extra).bytes ++ [0]⟩ (asV2 f extra).rowsPos).data = _ :=
    rows_frame rfl
  rw [hrows1, hrows2]
  rfl

/-- The event in its buffer is handed on as `data`. -/
def HandsOn (s : CParseLogEntry) (p : Ptr) (data : CRowData) : Prop :=
  ∃ s', handleEvent s p = .ok s' ∧ s'.out = s.out ++ [data]

/-- The kind of event `createRowData` makes of a type code. -/
def kindOf (eventType : ℕ) : ℕ :=
  match EventType.ofCode eventType with
  | .writeRows => 1
  | .deleteRows => 2
  | .updateRows => 3
  | _ => 0

theorem createRowData_eventType (ev : CRowsEvent) (threadId : Option ℕ) (dbName tableName : Bytes) :
    (ev.createRowData threadId dbName tableName).eventType = kindOf ev.eventType := by
  unfold CRowsEvent.createRowData kindOf
  generalize EventType.ofCode ev.eventType = type
  cases type <;> rfl

theorem parseHeader_eventType {p : Ptr} {header : EventHeader} (h : parseHeader p = .ok header) {b : UInt8}
    (hb : p.read 4 = .ok b) : header.eventType = b.toNat := by
  obtain ⟨-, -, ⟨b', hb', htype⟩, -⟩ := parseHeader_eq_ok.mp h
  obtain rfl := Except.ok.inj (hb.symm.trans hb')
  exact htype.symm

theorem loadEvent_eventType {gde : CHeaderEvent} {kind : RowsKind} {p : Ptr} {ev : CRowsEvent}
    {state : LoadState} (h : CRowsEvent.loadEvent gde kind p = .ok (ev, state)) {b : UInt8}
    (hb : p.read 4 = .ok b) : ev.eventType = b.toNat := by
  obtain ⟨header, post, hheader, -, hcases⟩ := CRowsEvent.loadEvent_cases h
  rw [← parseHeader_eventType hheader hb]
  obtain ⟨rfl, -⟩ | ⟨tableId, -, ⟨rfl, -⟩ | ⟨-, -, -, -, -, -, -, -, -, -, -, rfl⟩⟩ := hcases
  all_goals rfl

theorem parseEvent_eventType {ev ev' : CRowsEvent} {tableMap : Option CTableMapEvent} {state : LoadState}
    (h : ev.parseEvent tableMap = .ok (ev', state)) : ev'.eventType = ev.eventType := by
  rcases tableMap with _ | tm
  · obtain ⟨rfl, -⟩ := Prod.mk.inj (Except.ok.inj h)
    rfl
  · obtain ⟨_, _, _, _, _, -, -, -, -, -, rfl⟩ := CRowsEvent.parseEvent_cases h
    rfl

/-- The kind of event a rows event is handed on as. -/
theorem handsOn_eventType {s : CParseLogEntry} {p : Ptr} {kind : RowsKind} {b : UInt8} {data : CRowData}
    (hb : p.read 4 = .ok b) (hkind : rowsKind (EventType.ofCode b.toNat) = some kind)
    (h : HandsOn s p data) : data.eventType = kindOf b.toNat := by
  obtain ⟨s', hs', hout⟩ := h
  have htype : (typeOf p).bind rowsKind = some kind := by
    rw [typeOf, show eventTypeOffset = 4 from rfl, hb]
    exact hkind
  rw [handleEvent_rows htype] at hs'
  unfold handleRows at hs'
  obtain ⟨⟨ev, _⟩, hload, hs'⟩ := Res.bind_eq_ok.mp hs'
  obtain ⟨_, -, hs'⟩ := Res.bind_eq_ok.mp hs'
  obtain ⟨⟨ev', _⟩, hparse, hs'⟩ := Res.bind_eq_ok.mp hs'
  obtain ⟨_, -, hs'⟩ := Res.bind_eq_ok.mp hs'
  obtain ⟨_, -, hs'⟩ := Res.bind_eq_ok.mp hs'
  obtain rfl := Except.ok.inj hs'
  obtain rfl := List.singleton_injective (List.append_cancel_left hout)
  rw [createRowData_eventType, parseEvent_eventType hparse, loadEvent_eventType hload hb]

/-- The type byte of a frame. -/
theorem read_type_frame (f : RowsFrame) (a : ℕ) :
    Ptr.read ⟨a, f.bytes ++ [0]⟩ 4 = .ok (UInt8.ofNat f.eventType) := by
  have hdata : (⟨a, f.bytes ++ [0]⟩ : Ptr).data = leBytes 4 f.timestamp ++ UInt8.ofNat f.eventType ::
      (leBytes 4 f.serverId ++ (leBytes 4 f.size ++ (leBytes 4 f.logPos ++ (leBytes 2 f.flags ++ (f.more ++
        (f.post ++ (packedLength f.columnCount ++ (f.before ++ (f.second ++ (f.rows ++ (f.checksum ++
          [0])))))))))))  := by
    simp [RowsFrame.bytes, headerBytes, leBytes, List.append_assoc]
  exact Ptr.read_at hdata (by simp)

/-- **The two versions of a rows event never mean the same**: whatever its contents, a version 1 event is
handed on as an event of an unknown kind. -/
theorem versions_differ (s : CParseLogEntry) (f : RowsFrame) (extra : Bytes) (a1 a2 : ℕ) :
    ¬ ∃ data, HandsOn s ⟨a1, (asV1 f).bytes ++ [0]⟩ data ∧
      HandsOn s ⟨a2, (asV2 f extra).bytes ++ [0]⟩ data := by
  rintro ⟨data, h1, h2⟩
  have hread1 : Ptr.read ⟨a1, (asV1 f).bytes ++ [0]⟩ 4 = .ok (UInt8.ofNat (v1Code f.kind)) :=
    read_type_frame (asV1 f) a1
  have hread2 : Ptr.read ⟨a2, (asV2 f extra).bytes ++ [0]⟩ 4 = .ok (UInt8.ofNat (v2Code f.kind)) :=
    read_type_frame (asV2 f extra) a2
  have hunknown : data.eventType = 0 := by
    rcases hk : f.kind <;> rw [hk] at hread1 <;> exact handsOn_eventType hread1 rfl h1
  have hknown : data.eventType ≠ 0 := by
    rcases hk : f.kind <;> rw [hk] at hread2 <;> rw [handsOn_eventType hread2 rfl h2] <;> decide
  exact hknown hunknown

theorem handsOn_of_out {s : CParseLogEntry} {p : Ptr} {data : CRowData}
    (h : (handleEvent s p).map (fun s' => s'.out) = .ok (s.out ++ [data])) : HandsOn s p data := by
  exact Res.map_eq_ok.mp h

/-- The insertion of one row into a table with one VARCHAR column, as parts. -/
def insertFrame : RowsFrame := ⟨.write, 30, 0, 1, 0, 0, [], .v2 [], 1, 1, 1, [1], [], [0, 1, 98], [0, 0, 0, 0]⟩

theorem insertFrame_ok : (asV1 insertFrame).Ok description ∧ (asV2 insertFrame []).Ok description := by
  refine ⟨⟨by decide, by decide, rfl, rfl, Or.inl rfl, ⟨by decide, by decide, by decide⟩, ?_, rfl,
    by decide⟩, ⟨by decide, by decide, rfl, rfl, Or.inl rfl, ⟨by decide, by decide, by decide⟩, ?_, rfl,
    by decide⟩⟩ <;> rintro ⟨⟩

/-- An insertion in a version 1 event is handed on as an event of an unknown kind. -/
theorem v1Insert_unknown : ¬ ∀ (s : CParseLogEntry) (f : RowsFrame) (extra : Bytes) (a1 a2 : ℕ)
    (data1 data2 : CRowData), (asV1 f).Ok s.gde → (asV2 f extra).Ok s.gde →
      HandsOn s ⟨a1, (asV1 f).bytes ++ [0]⟩ data1 → HandsOn s ⟨a2, (asV2 f extra).bytes ++ [0]⟩ data2 →
      data1 = data2 := by
  intro h
  have h1 : HandsOn (behindMap 1 ⟨some 1, some 1, some 2, [15], [32, 0], [97], [120]⟩)
      ⟨0, (asV1 insertFrame).bytes ++ [0]⟩ ⟨some 1, some 7, 0, 0, "UNKNOWN_EVENT", [120], [97],
        [[⟨15, .char [98]⟩]], []⟩ := handsOn_of_out (by decide)
  have h2 : HandsOn (behindMap 1 ⟨some 1, some 1, some 2, [15], [32, 0], [97], [120]⟩)
      ⟨0, (asV2 insertFrame []).bytes ++ [0]⟩ ⟨some 1, some 7, 1, 0, "WRITE_ROWS_EVENT", [120], [97],
        [[⟨15, .char [98]⟩]], []⟩ := handsOn_of_out (by decide)
  have heq := h _ _ _ _ _ _ _ insertFrame_ok.1 insertFrame_ok.2 h1 h2
  exact absurd (congrArg CRowData.eventType heq) (by decide)

end DataSync.Binlog.Batches
