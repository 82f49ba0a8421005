import DataSync.Binlog.TableNames
import DataSync.Lib.LastWrite

/-! # Which table map is looked up

The table id of an event has six bytes and is copied into `m_table_id`, an `uint32`: `m_p_tablemaps` is
kept and asked by the lower 32 bits. A table map with the same lower bits takes the place of another
table's.

`Tracked` adds to the parser which event of the stream the object behind each key was made from.
`tracks_run` says where these objects come from behind a whole stream, and `rightMaps_iff` when every rows
event finds the most recent table map with its own id. -/

namespace DataSync.Binlog.TableLookup

open DataSync.Lib.Words DataSync.Lib.Memory DataSync.Lib.LastWrite DataSync.Binlog.Format
open DataSync.Binlog.LogEvent DataSync.Binlog.ParseLogEntry DataSync.Binlog.RowsFormat
open DataSync.Binlog.TableNames

/-- `getTableMapEvent`. -/
def getTableMapEvent (s : CParseLogEntry) (tableId : ℕ) : Option CTableMapEvent := s.tablemaps tableId

/-- The parser, the number of events it has handled, and for every key of `m_p_tablemaps` the event its
object was made from. -/
structure Tracked where
  parser : CParseLogEntry
  handled : ℕ
  origin : ℕ → Option ℕ

/-- One event: `updateTableMap` puts the object made from a table map under its `m_table_id`. -/
def track (t : Tracked) (p : Ptr) : Res Tracked := do
  let parser ← handleEvent t.parser p
  return ⟨parser, t.handled + 1, fun key =>
    if ((mapOf t.parser.gde p).bind fun x => x.2.tableId) = some key then some t.handled
    else t.origin key⟩

/-- A fresh parser under a format description. -/
def start (gde : CHeaderEvent) : Tracked := ⟨fresh gde, 0, fun _ => none⟩

section Stream
variable (gde : CHeaderEvent)

/-- The table id of a TABLE_MAP event, all of its bytes. -/
def mapId (p : Ptr) : Option ℕ := (mapOf gde p).map Prod.fst

/-- The last table map of a stream with the table id. -/
def lastMap (events : List Ptr) (tableId : ℕ) : Option ℕ :=
  lastWhere (fun p => mapId gde p = some tableId) events

/-- The last table map of a stream whose table id has the same lower 32 bits. -/
def lastAlias (events : List Ptr) (tableId : ℕ) : Option ℕ :=
  lastWhere (fun p => (mapId gde p).map (· % 2 ^ 32) = some (tableId % 2 ^ 32)) events

/-- What the table map at place `i` of a stream says. -/
def contents (events : List Ptr) (i : ℕ) : Option CTableMapEvent :=
  events[i]?.bind fun p => (mapOf gde p).map Prod.snd

/-- The rows event in `p` stands behind the events `pre` of the stream, and is looked up under `key` in the
state `t`. -/
structure LooksUp (events pre : List Ptr) (p : Ptr) (t : Tracked) (key : ℕ) : Prop where
  stream : ∃ post, events = pre ++ p :: post
  run : pre.foldlM track (start gde) = .ok t
  load : ∃ kind ev state, (typeOf p).bind rowsKind = some kind ∧
    CRowsEvent.loadEvent gde kind p = .ok (ev, state) ∧ ev.tableId = some key

/-- **Every rows event finds its own table map**: the object `getTableMapEvent` returns is the one made
from the last table map with the event's table id, and says what that one says; there is none when there
was no such table map. -/
def RightMaps (events : List Ptr) : Prop :=
  ∀ pre p t key, LooksUp gde events pre p t key → ∃ tableId, rowsId gde p = .ok tableId ∧
    t.origin key = lastMap gde pre tableId ∧
    getTableMapEvent t.parser key = (lastMap gde pre tableId).bind (contents gde pre)

/-- The last table map whose table id has the same lower 32 bits as the rows event's has all its bits. -/
def Unaliased (pre : List Ptr) (p : Ptr) : Prop :=
  ∀ tableId i q, rowsId gde p = .ok tableId → lastAlias gde pre tableId = some i → pre[i]? = some q →
    mapId gde q = some tableId

end Stream

/-! ### One event -/

/-- A table map that is registered has a table id; its lower 32 bits are the key. -/
theorem tableId_of_mapOf {s s' : CParseLogEntry} {p : Ptr} (h : handleEvent s p = .ok s')
    {tableId : ℕ} {ev : CTableMapEvent} (hmap : mapOf s.gde p = some (tableId, ev)) :
    ev.tableId = some (tableId % 2 ^ 32) ∧
      s'.tablemaps = Function.update s.tablemaps (tableId % 2 ^ 32) (some ev) := by
  obtain ⟨b, hb, h⟩ := handleEvent_inv h
  have htype := typeOf_of_read hb
  unfold mapOf at hmap
  split_ifs at hmap with htable
  rw [htable, Option.some.injEq] at htype
  rw [← htype] at h
  obtain ⟨ev', state, key, hload, hkey, rfl⟩ := h
  obtain ⟨tableId', hid, rfl⟩ := idAt_of_loadEvent hload hkey
  rw [hid, hload] at hmap
  obtain ⟨rfl, rfl⟩ := Prod.mk.inj (Option.some.inj hmap)
  exact ⟨hkey, rfl⟩

/-- Every other event leaves the registry alone. -/
theorem tablemaps_of_mapOf_none {s s' : CParseLogEntry} {p : Ptr} (h : handleEvent s p = .ok s')
    (hmap : mapOf s.gde p = none) : s'.tablemaps = s.tablemaps := by
  obtain ⟨b, hb, h⟩ := handleEvent_inv h
  have htype := typeOf_of_read hb
  generalize EventType.ofCode b.toNat = type at h htype
  cases type
  case tableMap =>
    obtain ⟨ev, state, key, hload, hkey, rfl⟩ := h
    obtain ⟨tableId, hid, -⟩ := idAt_of_loadEvent hload hkey
    rw [mapOf, if_pos htype, hid, hload] at hmap
    cases hmap
  case query =>
    obtain ⟨ev, rfl⟩ := h
    rfl
  case writeRowsV1 | writeRows | updateRowsV1 | updateRows | deleteRowsV1 | deleteRows =>
    obtain ⟨last, data, -, rfl, -⟩ := h
    rfl
  all_goals
    obtain rfl := h
    rfl

/-! ### A whole stream -/

/-- Where the objects of the registry come from behind the events `pre`. -/
structure Tracks (gde : CHeaderEvent) (pre : List Ptr) (t : Tracked) : Prop where
  described : t.parser.gde = gde
  handled : t.handled = pre.length
  origin : ∀ tableId, t.origin (tableId % 2 ^ 32) = lastAlias gde pre tableId
  object : ∀ tableId, t.parser.tablemaps (tableId % 2 ^ 32) =
    (lastAlias gde pre tableId).bind (contents gde pre)

section Run
variable {gde : CHeaderEvent} {pre : List Ptr} {t t' : Tracked} {p : Ptr}

theorem tracks_start : Tracks gde [] (start gde) := ⟨rfl, rfl, fun _ => rfl, fun _ => rfl⟩

/-- What a place of the stream says does not change behind it. -/
theorem contents_concat {i : ℕ} (h : i < pre.length) :
    contents gde (pre ++ [p]) i = contents gde pre i := by
  unfold contents
  rw [List.getElem?_append_left h]

theorem lastAlias_lt {tableId i : ℕ} (h : lastAlias gde pre tableId = some i) : i < pre.length := by
  obtain ⟨⟨q, hq, -⟩, -⟩ := lastWhere_eq_some_iff.mp h
  exact (List.getElem?_eq_some_iff.mp hq).1

/-- Another event changes neither the last table map with these bits nor what it says. -/
theorem contents_lastAlias_concat (tableId : ℕ) :
    (lastAlias gde pre tableId).bind (contents gde (pre ++ [p])) =
      (lastAlias gde pre tableId).bind (contents gde pre) :=
  Option.bind_congr fun _ hi => contents_concat (lastAlias_lt hi)

/-- One more event is the last table map with these bits, or leaves the last one where it was. -/
theorem lastAlias_concat (tableId : ℕ) : lastAlias gde (pre ++ [p]) tableId =
    if (mapId gde p).map (· % 2 ^ 32) = some (tableId % 2 ^ 32) then some pre.length
    else lastAlias gde pre tableId := by
  rw [lastAlias, lastWhere_concat]
  exact if_congr decide_eq_true_iff rfl rfl

/-- **One event** moves the origins along. -/
theorem tracks_step (h : Tracks gde pre t) (hstep : track t p = .ok t') : Tracks gde (pre ++ [p]) t' := by
  obtain ⟨parser, hparser, hret⟩ := Res.bind_eq_ok.mp hstep
  obtain rfl := Except.ok.inj hret
  have hgde : parser.gde = gde := (handleEvent_frame hparser).1.trans h.described
  have hlen : t.handled + 1 = (pre ++ [p]).length := by
    rw [h.handled, List.length_append, List.length_singleton]
  cases hmap : mapOf t.parser.gde p with
  | none =>
    have hid : mapId gde p = none := by rw [mapId, ← h.described, hmap, Option.map_none]
    have hlast (tableId : ℕ) : lastAlias gde (pre ++ [p]) tableId = lastAlias gde pre tableId := by
      rw [lastAlias_concat, hid]
      exact if_neg (by simp)
    refine ⟨hgde, hlen, fun tableId => ?_, fun tableId => ?_⟩
    · rw [hlast]
      simpa [hmap] using h.origin tableId
    · rw [hlast, contents_lastAlias_concat, tablemaps_of_mapOf_none hparser hmap, h.object]
  | some x =>
    obtain ⟨mapped, ev⟩ := x
    obtain ⟨hkey, hput⟩ := tableId_of_mapOf hparser hmap
    have hid : mapId gde p = some mapped := by rw [mapId, ← h.described, hmap, Option.map_some]
    have hlast (tableId : ℕ) : lastAlias gde (pre ++ [p]) tableId =
        if mapped % 2 ^ 32 = tableId % 2 ^ 32 then some pre.length else lastAlias gde pre tableId := by
      rw [lastAlias_concat, hid, Option.map_some]
      simp only [Option.some.injEq]
    have hsays : contents gde (pre ++ [p]) pre.length = some ev := by
      rw [contents, List.getElem?_concat_length, Option.bind_some, ← h.described, hmap, Option.map_some]
    refine ⟨hgde, hlen, fun tableId => ?_, fun tableId => ?_⟩
    · rw [hlast, ← h.handled, ← h.origin]
      simp only [Option.bind_some, hkey, Option.some.injEq]
    · rw [hlast, hput]
      by_cases heq : mapped % 2 ^ 32 = tableId % 2 ^ 32
      · rw [if_pos heq, heq, Function.update_self, Option.bind_some, hsays]
      · rw [if_neg heq, Function.update_of_ne (Ne.symm heq), contents_lastAlias_concat, h.object]

/-- **A whole stream**: the object behind a key is the last table map with these lower 32 bits. -/
theorem tracks_run {events : List Ptr} (h : Tracks gde [] t) (hrun : events.foldlM track t = .ok t') :
    Tracks gde events t' :=
  Res.foldlM_invariant hrun h fun _ _ _ _ _ => tracks_step

end Run

/-- **Every rows event finds its own table map, exactly when** the last table map before it whose id
agrees with its own in the lower 32 bits has its id. -/
theorem rightMaps_iff (gde : CHeaderEvent) (events : List Ptr) : RightMaps gde events ↔
    ∀ pre p t key, LooksUp gde events pre p t key → Unaliased gde pre p := by
  unfold RightMaps
  refine forall_congr' fun pre => forall_congr' fun p => forall_congr' fun t => forall_congr' fun key =>
    forall_congr' fun hlook => ?_
  obtain ⟨kind, ev, state, -, hload, hkey⟩ := hlook.load
  obtain ⟨tableId, hid, rfl⟩ := rowsId_of_loadEvent hload hkey
  have htracks : Tracks gde pre t := tracks_run tracks_start hlook.run
  have hfiner : ∀ q, decide (mapId gde q = some tableId) = true →
      decide ((mapId gde q).map (· % 2 ^ 32) = some (tableId % 2 ^ 32)) = true := by
    intro q hq
    rw [decide_eq_true_eq] at hq ⊢
    rw [hq, Option.map_some]
  have hsame : lastAlias gde pre tableId = lastMap gde pre tableId ↔
      ∀ i q, lastAlias gde pre tableId = some i → pre[i]? = some q → mapId gde q = some tableId := by
    unfold lastAlias lastMap
    simpa only [decide_eq_true_eq] using @lastWhere_eq_iff_of_imp _ _ _ hfiner pre
  constructor
  · rintro ⟨tableId', hid', horigin, -⟩ tableId'' i q hid'' hi hq
    obtain rfl : tableId = tableId' := Except.ok.inj (hid.symm.trans hid')
    obtain rfl : tableId = tableId'' := Except.ok.inj (hid.symm.trans hid'')
    rw [htracks.origin] at horigin
    exact hsame.mp horigin i q hi hq
  · intro hun
    have hlast : lastAlias gde pre tableId = lastMap gde pre tableId :=
      hsame.mpr fun i q hi hq => hun tableId i q hid hi hq
    exact ⟨tableId, hid, hlast ▸ htracks.origin tableId, hlast ▸ htracks.object tableId⟩

/-- The table map of `a.y` under the table id `2 ^ 32 + 1`. -/
def otherTable : Ptr :=
  event 19 [1, 0, 0, 0, 1, 0, 1, 0, 1, 97, 0, 1, 121, 0, 1, 15, 2, 32, 0, 0, 0, 0, 0, 0]

/-- Behind the table maps of `a.x` under 1 and of `a.y` under `2 ^ 32 + 1`, a row of `a.x` is decoded with
the columns of `a.y`. -/
theorem otherTable_found :
    ¬ RightMaps description [beginQuery, oneColumn 1 120, otherTable, insertRow 1] := by
  intro h
  obtain ⟨t, hrun⟩ := Res.exists_ok (show ([beginQuery, oneColumn 1 120, otherTable].foldlM track
    (start description)).toBool = true by decide)
  obtain ⟨loaded, hload, hkey⟩ := Res.map_eq_ok.mp (show (CRowsEvent.loadEvent description .write
    (insertRow 1)).map (fun loaded => loaded.1.tableId) = .ok (some 1) by decide)
  obtain ⟨tableId, hid, horigin, -⟩ := h [beginQuery, oneColumn 1 120, otherTable] (insertRow 1) t 1
    ⟨⟨[], rfl⟩, hrun, .write, loaded.1, loaded.2, by decide, hload, hkey⟩
  have hrows : rowsId description (insertRow 1) = .ok 1 := by decide
  obtain rfl : 1 = tableId := Except.ok.inj (hrows.symm.trans hid)
  have hlast : t.origin 1 = some 2 := ((tracks_run tracks_start hrun).origin 1).trans (by decide)
  exact absurd (hlast.symm.trans horigin) (by decide)

end DataSync.Binlog.TableLookup
