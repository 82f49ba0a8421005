import DataSync.Binlog.ParseLogEntry
import DataSync.Binlog.RowsFormat

/-! # Whose rows are they

The parser keeps the table maps by table id and, apart from that, the last table map it has seen. A
rows event is decoded with the table map registered under its table id, but its names are those of the
last table map. `handleEvent_cases` says what one event can do, `run_spec` what a whole stream hands to
`productRowData`, and `names_own_iff` when every batch names its own table. -/

namespace DataSync.Binlog.TableNames

open DataSync.Lib.Words DataSync.Lib.Memory DataSync.Binlog.Format DataSync.Binlog.LogEvent
open DataSync.Binlog.ParseLogEntry DataSync.Binlog.RowsFormat

/-! ### The stream, as it is written -/

/-- The event type of the event in a buffer. -/
def typeOf (p : Ptr) : Option EventType :=
  (p.read eventTypeOffset).toOption.map fun b => EventType.ofCode b.toNat

theorem typeOf_of_read {p : Ptr} {b : UInt8} (hb : p.read eventTypeOffset = .ok b) :
    typeOf p = some (EventType.ofCode b.toNat) := by
  rw [typeOf, hb]
  rfl

/-- The classes of the rows event types. -/
def rowsKind : EventType → Option RowsKind
  | .writeRowsV1 | .writeRows => some .write
  | .updateRowsV1 | .updateRows => some .update
  | .deleteRowsV1 | .deleteRows => some .delete
  | _ => none

/-- The buffer holds a rows event. -/
def isRows (p : Ptr) : Bool := ((typeOf p).bind rowsKind).isSome

/-- The table id at `k`, of four or six bytes. -/
def idAt (gde : CHeaderEvent) (p : Ptr) (k : ℕ) : Res ℕ := do
  let header ← parseHeader p
  let postHeaderLen ← gde.postHeader header.eventType
  p.le k (if postHeaderLen = 6 then 4 else 6)

/-- The table id of a rows event. -/
def rowsId (gde : CHeaderEvent) (p : Ptr) : Res ℕ := idAt gde p gde.commonHeaderLength

/-- The table id and the contents of a TABLE_MAP event. -/
def mapOf (gde : CHeaderEvent) (p : Ptr) : Option (ℕ × CTableMapEvent) :=
  if typeOf p = some .tableMap then
    match idAt gde p logEventHeaderLen, CTableMapEvent.loadEvent gde p with
    | .ok tableId, .ok (ev, _) => some (tableId, ev)
    | _, _ => none
  else none

/-- The table maps of a stream, the most recent first. -/
def maps (gde : CHeaderEvent) (events : List Ptr) : List (ℕ × CTableMapEvent) :=
  (events.filterMap (mapOf gde)).reverse

/-- The most recent table map with the given table id. -/
def latestOf (gde : CHeaderEvent) (events : List Ptr) (tableId : ℕ) : Option CTableMapEvent :=
  ((maps gde events).find? fun x => x.1 == tableId).map Prod.snd

/-- The most recent table map of all. -/
def latest (gde : CHeaderEvent) (events : List Ptr) : Option CTableMapEvent :=
  (maps gde events).head?.map Prod.snd

/-- The rows events of a stream, each with the events before it. -/
def rowsAfter : List Ptr → List Ptr → List (List Ptr × Ptr)
  | _, [] => []
  | pre, p :: events =>
    if isRows p then (pre, p) :: rowsAfter (pre ++ [p]) events else rowsAfter (pre ++ [p]) events

/-- The names of a table map, as C strings. -/
def namesOf (ev : CTableMapEvent) : Bytes × Bytes := (cStr ev.dbName, cStr ev.tableName)

/-- The batch of the rows event `x.2` carries the names of the most recent table map with its table
id. -/
def NamesOwn (gde : CHeaderEvent) (x : List Ptr × Ptr) (data : CRowData) : Prop :=
  ∃ tableId ev, rowsId gde x.2 = .ok tableId ∧ latestOf gde x.1 tableId = some ev ∧
    (data.dbName, data.tableName) = namesOf ev

/-- Before the rows event `x.2` the most recent table map of all has the names of the most recent one
with its table id. -/
def LatestIsOwn (gde : CHeaderEvent) (x : List Ptr × Ptr) : Prop :=
  ∃ tableId ev last, rowsId gde x.2 = .ok tableId ∧ latestOf gde x.1 tableId = some ev ∧
    latest gde x.1 = some last ∧ namesOf last = namesOf ev

/-! ### One event -/

/-- A table map that was loaded as far as its table id has 32 bits of it. -/
theorem idAt_of_loadEvent {gde : CHeaderEvent} {p : Ptr} {ev : CTableMapEvent} {state : LoadState}
    (h : CTableMapEvent.loadEvent gde p = .ok (ev, state)) {k : ℕ} (hid : ev.tableId = some k) :
    ∃ tableId, idAt gde p logEventHeaderLen = .ok tableId ∧ k = tableId % 2 ^ 32 := by
  obtain ⟨header, postHeaderLen, hheader, hpost, ⟨rfl, -⟩ | ⟨⟨tableId, hle, hkey⟩, -⟩⟩ :=
    CTableMapEvent.loadEvent_cases h
  · cases hid
  · exact ⟨tableId, by rw [idAt, hheader, Res.ok_bind, hpost, Res.ok_bind, hle],
      Option.some.inj (hid.symm.trans hkey)⟩

/-- A rows event that was loaded as far as its table id has 32 bits of it. -/
theorem rowsId_of_loadEvent {gde : CHeaderEvent} {kind : RowsKind} {p : Ptr} {ev : CRowsEvent}
    {state : LoadState} (h : CRowsEvent.loadEvent gde kind p = .ok (ev, state)) {k : ℕ}
    (hid : ev.tableId = some k) : ∃ tableId, rowsId gde p = .ok tableId ∧ k = tableId % 2 ^ 32 := by
  obtain ⟨header, postHeaderLen, hheader, hpost, ⟨rfl, -⟩ | ⟨tableId, hle, hcases⟩⟩ :=
    CRowsEvent.loadEvent_cases h
  · cases hid
  · have hkey : ev.tableId = some (tableId % 2 ^ 32) := by
      obtain ⟨rfl, -⟩ | ⟨-, -, -, -, -, -, -, -, -, -, -, rfl⟩ := hcases <;> rfl
    exact ⟨tableId, by rw [rowsId, idAt, hheader, Res.ok_bind, hpost, Res.ok_bind, hle],
      Option.some.inj (hid.symm.trans hkey)⟩

/-- **What one event can do** to the last table map and to the row data. -/
theorem handleEvent_cases {s s' : CParseLogEntry} {p : Ptr} (h : handleEvent s p = .ok s') :
    s'.gde = s.gde ∧
    ((isRows p = false ∧ s'.out = s.out ∧
        ((∃ x, mapOf s.gde p = some x ∧ s'.mapTmp = some x.2) ∨
          (mapOf s.gde p = none ∧ s'.mapTmp = s.mapTmp))) ∨
      (isRows p = true ∧ mapOf s.gde p = none ∧ s'.mapTmp = s.mapTmp ∧
        ∃ last data, s.mapTmp = some last ∧ s'.out = s.out ++ [data] ∧
          (data.dbName, data.tableName) = namesOf last)) := by
  refine ⟨(handleEvent_frame h).1, ?_⟩
  obtain ⟨b, hb, h⟩ := handleEvent_inv h
  have htype := typeOf_of_read hb
  generalize EventType.ofCode b.toNat = type at h htype
  have hrowsEq : isRows p = (rowsKind type).isSome := by rw [isRows, htype, Option.bind_some]
  have hnomap : type ≠ .tableMap → mapOf s.gde p = none := by
    intro hne
    rw [mapOf, htype, if_neg (by simpa using hne)]
  cases type
  case query =>
    obtain ⟨ev, rfl⟩ := h
    exact Or.inl ⟨hrowsEq, rfl, Or.inr ⟨hnomap (by simp), rfl⟩⟩
  case tableMap =>
    obtain ⟨ev, state, k, hload, hk, rfl⟩ := h
    obtain ⟨tableId, hid, -⟩ := idAt_of_loadEvent hload hk
    refine Or.inl ⟨hrowsEq, rfl, Or.inl ⟨(tableId, ev), ?_, rfl⟩⟩
    rw [mapOf, if_pos htype, hid, hload]
  case writeRowsV1 | writeRows | updateRowsV1 | updateRows | deleteRowsV1 | deleteRows =>
    obtain ⟨last, data, hlast, rfl, hnames⟩ := h
    exact Or.inr ⟨hrowsEq, hnomap (by simp), rfl, last, data, hlast, rfl, hnames⟩
  all_goals
    obtain rfl := h
    exact Or.inl ⟨hrowsEq, rfl, Or.inr ⟨hnomap (by simp), rfl⟩⟩

/-! ### A whole stream -/

/-- A fresh parser under a format description. -/
def fresh (gde : CHeaderEvent) : CParseLogEntry := { CParseLogEntry.new with gde := gde }

theorem latest_concat (gde : CHeaderEvent) (pre : List Ptr) (p : Ptr) :
    latest gde (pre ++ [p]) = ((mapOf gde p).map Prod.snd).or (latest gde pre) := by
  unfold latest maps
  rw [List.filterMap_append, List.reverse_append]
  cases h : mapOf gde p <;> simp [h]

/-- **A whole stream**: the batches come from the rows events in order, each named after the last table
map before it. -/
theorem run_spec {gde : CHeaderEvent} {events pre : List Ptr} {s s' : CParseLogEntry}
    (hgde : s.gde = gde) (hlast : s.mapTmp = latest gde pre)
    (h : events.foldlM handleEvent s = .ok s') :
    ∃ out, s'.out = s.out ++ out ∧ List.Forall₂ (fun x data => ∃ last, latest gde x.1 = some last ∧
      (data.dbName, data.tableName) = namesOf last) (rowsAfter pre events) out := by
  induction events generalizing pre s with
  | nil =>
    obtain rfl : s = s' := by simpa using h
    exact ⟨[], by simp, List.Forall₂.nil⟩
  | cons p events ih =>
    rw [List.foldlM_cons] at h
    obtain ⟨s1, hstep, h⟩ := Res.bind_eq_ok.mp h
    obtain ⟨hgde1, hcases⟩ := handleEvent_cases hstep
    rw [hgde] at hgde1 hcases
    rw [rowsAfter]
    rcases hcases with ⟨hrows, hout, hmap⟩ | ⟨hrows, hmap, htmp, last, data, hl, hout, hnames⟩
    · have hlast1 : s1.mapTmp = latest gde (pre ++ [p]) := by
        rw [latest_concat]
        rcases hmap with ⟨x, hx, htmp⟩ | ⟨hnone, htmp⟩
        · rw [hx, htmp]; rfl
        · rw [hnone, htmp, hlast]; rfl
      obtain ⟨out, hout', hall⟩ := ih hgde1 hlast1 h
      refine ⟨out, by rw [hout', hout], ?_⟩
      rw [if_neg (by simp [hrows])]
      exact hall
    · have hlast1 : s1.mapTmp = latest gde (pre ++ [p]) := by
        rw [latest_concat, hmap, htmp, hlast]
        rfl
      obtain ⟨out, hout', hall⟩ := ih hgde1 hlast1 h
      refine ⟨data :: out, by rw [hout', hout, List.append_assoc, List.singleton_append], ?_⟩
      rw [if_pos hrows]
      exact List.Forall₂.cons ⟨last, hlast ▸ hl, hnames⟩ hall

/-- **Every batch names its own table, exactly when** at every rows event the last table map has the
names of the last one with the event's table id. -/
theorem names_own_iff (gde : CHeaderEvent) (events : List Ptr) (s : CParseLogEntry)
    (h : events.foldlM handleEvent (fresh gde) = .ok s) :
    List.Forall₂ (NamesOwn gde) (rowsAfter [] events) s.out ↔
      ∀ x ∈ rowsAfter [] events, LatestIsOwn gde x := by
  obtain ⟨out, hout, hall⟩ := run_spec (show (fresh gde).gde = gde from rfl)
    (show _ = latest gde [] from rfl) h
  rw [show (fresh gde).out = [] from rfl, List.nil_append] at hout
  rw [hout]
  clear h hout
  generalize rowsAfter [] events = rows at hall ⊢
  induction hall with
  | nil => simp
  | @cons x data xs out hx hall ih =>
    obtain ⟨last, hlast, hnames⟩ := hx
    have hone : NamesOwn gde x data ↔ LatestIsOwn gde x := by
      constructor
      · rintro ⟨tableId, ev, hid, hev, hown⟩
        exact ⟨tableId, ev, last, hid, hev, hlast, hnames ▸ hown⟩
      · rintro ⟨tableId, ev, last', hid, hev, hlast', hown⟩
        rw [hlast, Option.some.injEq] at hlast'
        subst hlast'
        exact ⟨tableId, ev, hid, hev, hnames.trans hown⟩
    rw [List.forall₂_cons, hone, ih, List.forall_mem_cons]

/-! ### Two tables in one statement -/

/-- An event in its buffer. -/
def event (eventType : ℕ) (body : Bytes) : Ptr :=
  ⟨0, headerBytes 0 eventType 1 (19 + body.length) 0 0 ++ body ++ [0]⟩

/-- The QUERY event `BEGIN` of thread 7. -/
def beginQuery : Ptr :=
  event 2 [7, 0, 0, 0, 0, 0, 0, 0, 0, 0, 0, 0, 0, 0, 66, 69, 71, 73, 78, 0, 0, 0, 0]

/-- The table map of a table `a.name` with one VARCHAR column. -/
def oneColumn (tableId name : UInt8) : Ptr :=
  event 19 [tableId, 0, 0, 0, 0, 0, 1, 0, 1, 97, 0, 1, name, 0, 1, 15, 2, 32, 0, 0, 0, 0, 0, 0]

/-- The insertion of one row into such a table. -/
def insertRow (tableId : UInt8) : Ptr :=
  event 30 [tableId, 0, 0, 0, 0, 0, 1, 0, 2, 0, 1, 1, 0, 1, 98, 0, 0, 0, 0]

/-- One table after the other: each batch names its own. -/
theorem names_own_iff_inTurn : ∃ s, [beginQuery, oneColumn 1 120, insertRow 1, oneColumn 2 121,
      insertRow 2].foldlM handleEvent (fresh description) = .ok s ∧
    List.Forall₂ (NamesOwn description) (rowsAfter [] [beginQuery, oneColumn 1 120, insertRow 1,
      oneColumn 2 121, insertRow 2]) s.out := by
  obtain ⟨s, hrun⟩ := Res.exists_ok (show ([beginQuery, oneColumn 1 120, insertRow 1, oneColumn 2 121,
    insertRow 2].foldlM handleEvent (fresh description)).toBool = true by decide)
  refine ⟨s, hrun, (names_own_iff _ _ s hrun).mpr ?_⟩
  have hrows : rowsAfter [] [beginQuery, oneColumn 1 120, insertRow 1, oneColumn 2 121,
      insertRow 2] = [([beginQuery, oneColumn 1 120], insertRow 1),
        ([beginQuery, oneColumn 1 120, insertRow 1, oneColumn 2 121], insertRow 2)] := by
    decide
  rw [hrows]
  rintro x hx
  rcases List.mem_pair.mp hx with rfl | rfl
  · exact ⟨1, ⟨some 1, some 1, some 2, [15], [32, 0], [97], [120]⟩, _, by decide,
      by decide, by decide, rfl⟩
  · exact ⟨2, ⟨some 2, some 1, some 2, [15], [32, 0], [97], [121]⟩, _, by decide,
      by decide, by decide, rfl⟩

/-- Both table maps first, as in a statement on two tables: the row of `a.x` is handed on as a row of
`a.y`. -/
theorem twoTables_misnamed : ¬ ∀ (gde : CHeaderEvent) (events : List Ptr) (s : CParseLogEntry),
    events.foldlM handleEvent (fresh gde) = .ok s →
    List.Forall₂ (NamesOwn gde) (rowsAfter [] events) s.out := by
  intro h
  have hout : ([beginQuery, oneColumn 1 120, oneColumn 2 121, insertRow 1].foldlM handleEvent
      (fresh description)).map (fun s => s.out.map fun data => (data.dbName, data.tableName)) =
      .ok [([97], [121])] := by decide
  have hrows : rowsAfter [] [beginQuery, oneColumn 1 120, oneColumn 2 121, insertRow 1] =
      [([beginQuery, oneColumn 1 120, oneColumn 2 121], insertRow 1)] := by decide
  have hid : rowsId description (insertRow 1) = .ok 1 := by decide
  have hown : latestOf description [beginQuery, oneColumn 1 120, oneColumn 2 121] 1 =
      some ⟨some 1, some 1, some 2, [15], [32, 0], [97], [120]⟩ := by decide
  obtain ⟨s, hrun, hout⟩ := Res.map_eq_ok.mp hout
  have hall := h _ _ s hrun
  obtain ⟨data, hdata, hnames⟩ := List.map_eq_singleton_iff.mp hout
  rw [hrows, hdata, List.forall₂_cons] at hall
  obtain ⟨⟨tableId, ev, hid', hev, heq⟩, -⟩ := hall
  obtain rfl : 1 = tableId := by simpa [hid] using hid'
  rw [hown, Option.some.injEq] at hev
  rw [hnames, ← hev] at heq
  exact absurd heq (by decide)

end DataSync.Binlog.TableNames
