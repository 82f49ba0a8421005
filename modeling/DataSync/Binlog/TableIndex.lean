import DataSync.Binlog.TableMap

/-! # Where a table definition is looked up

`CTableMapEvent::loadEvent` bounds the metadata size from above only, and the constructor of `CTableDef`
builds the metadata words only when that size is not zero. `createTableDef_iff`: the constructor stays
inside the loaded metadata exactly when the words of all columns fit into it. `column_iff`: a column is
looked up inside the definition exactly when the table has it and the definition has metadata words.

`indexed_iff` puts the two together for a table and a rows event; `indexed_of_parseEvent` ties it to the
decoding: an event is decoded only when every present column is looked up inside. -/

namespace DataSync.Binlog.TableIndex

open DataSync.Lib.Words DataSync.Lib.Memory DataSync.Binlog.Format DataSync.Binlog.Bitmap
open DataSync.Binlog.TableDef DataSync.Binlog.LogEvent DataSync.Binlog.RowsEvent
open DataSync.Binlog.Alignment DataSync.Binlog.RowsFormat DataSync.Binlog.TableMap

/-! ### The constructor's loop -/

/-- The metadata bytes of the column types. -/
def metadataWidth (types : Bytes) : ℕ :=
  (types.map fun t => (metaCode (FieldType.ofCode t.toNat)).width).sum

section Words
variable {fieldMetadata : Bytes} {index : ℕ}

/-- A metadata byte is there when its index is inside. -/
theorem byte_ok_iff {x : ℕ} : UInt8.toNat <$> Res.ofOption fieldMetadata[index]? = .ok x ↔
    ∃ h : index < fieldMetadata.length, fieldMetadata[index].toNat = x := by
  rcases Nat.lt_or_ge index fieldMetadata.length with h | h
  · simp [h]
  · have hn : fieldMetadata[index]? = none := List.getElem?_eq_none h
    rw [hn]
    constructor
    · intro hx; cases hx
    · rintro ⟨hlt, -⟩; omega

/-- **One round** of the constructor's loop steps over the word of the column's type. -/
theorem metadataWord_snd {t : FieldType} {r : ℕ × ℕ} (h : metadataWord fieldMetadata index t = .ok r) :
    r.2 = index + (metaCode t).width := by
  unfold metadataWord at h
  cases t <;>
    simp only [Res.bind_eq_ok, Res.pure_eq, Except.ok.injEq] at h <;>
    simp only [metaCode, MetaCode.width] <;> grind

/-- One round stays inside when the word does. -/
theorem metadataWord_iff (t : FieldType) (hi : index ≤ fieldMetadata.length) :
    (∃ r, metadataWord fieldMetadata index t = .ok r) ↔
      index + (metaCode t).width ≤ fieldMetadata.length := by
  unfold metadataWord
  cases t <;>
    simp only [Res.bind_eq_ok, Res.pure_eq, Except.ok.injEq, byte_ok_iff, metaCode, MetaCode.width] <;>
    grind

/-- **The loop stays inside** when the words of all columns do. -/
theorem metadataWords_iff (types : Bytes) (hi : index ≤ fieldMetadata.length) :
    (∃ ws, metadataWords fieldMetadata index types = .ok ws) ↔
      index + metadataWidth types ≤ fieldMetadata.length := by
  induction types generalizing index with
  | nil => simpa [metadataWords, metadataWidth] using hi
  | cons t types ih =>
    have hsum : metadataWidth (t :: types) =
        (metaCode (FieldType.ofCode t.toNat)).width + metadataWidth types := by
      simp [metadataWidth]
    have hround := metadataWord_iff (FieldType.ofCode t.toNat) hi
    constructor
    · rintro ⟨ws, hws⟩
      rw [metadataWords] at hws
      obtain ⟨r, hr, hws⟩ := Res.bind_eq_ok.mp hws
      obtain ⟨ws', hws', -⟩ := Res.bind_eq_ok.mp hws
      have hsnd := metadataWord_snd hr
      have hin := hround.mp ⟨r, hr⟩
      have := (ih (by omega)).mp ⟨ws', hws'⟩
      omega
    · intro hle
      obtain ⟨r, hr⟩ := hround.mpr (by omega)
      have hsnd := metadataWord_snd hr
      obtain ⟨ws, hws⟩ := (ih (by omega)).mpr (by omega : r.2 + metadataWidth types ≤ _)
      refine ⟨r.1 :: ws, ?_⟩
      rw [metadataWords, hr, Res.ok_bind]
      simp only [hws, Res.ok_bind, Res.pure_eq]

/-- A metadata word has 16 bits. -/
theorem metadataWord_fst_lt {t : FieldType} {r : ℕ × ℕ} (h : metadataWord fieldMetadata index t = .ok r) :
    r.1 < 65536 := by
  have hbyte (k : ℕ) (hk : k < fieldMetadata.length) : fieldMetadata[k].toNat < 256 :=
    fieldMetadata[k].toNat_lt
  unfold metadataWord at h
  cases t <;>
    simp only [Res.bind_eq_ok, Res.pure_eq, Except.ok.injEq, byte_ok_iff] at h <;> grind

theorem metadataWords_lt {types : Bytes} {ws : List ℕ}
    (h : metadataWords fieldMetadata index types = .ok ws) {x : ℕ} (hx : x ∈ ws) : x < 65536 := by
  induction types generalizing index ws with
  | nil =>
    obtain rfl := Except.ok.inj h
    simp at hx
  | cons t types ih =>
    rw [metadataWords] at h
    obtain ⟨r, hr, h⟩ := Res.bind_eq_ok.mp h
    obtain ⟨ws', hws, h⟩ := Res.bind_eq_ok.mp h
    obtain rfl := Except.ok.inj h
    rcases List.mem_cons.mp hx with rfl | hx
    · exact metadataWord_fst_lt hr
    · exact ih hws hx

end Words

/-! ### Loaded events -/

/-- What a successful load says of the fields the constructor uses. -/
structure LoadedMap (map : CTableMapEvent) : Prop where
  columns : map.columnCount = some map.columnType.length
  metadata : map.fieldMetadataSize = none ∧ map.fieldMetadata = [] ∨
    map.fieldMetadataSize = some map.fieldMetadata.length

/-- **A loaded event** has as many types as columns and as many metadata bytes as it says. -/
theorem loadedMap {gde : CHeaderEvent} {p : Ptr} {map : CTableMapEvent}
    (h : CTableMapEvent.loadEvent gde p = .ok (map, .success)) : LoadedMap map := by
  obtain ⟨header, postHeaderLen, -, -, ⟨-, hstate⟩ | ⟨-, hcount, hstate | ⟨-, hmeta⟩⟩⟩ :=
    CTableMapEvent.loadEvent_cases h
  · exact absurd rfl hstate
  · cases hstate
  · exact ⟨hcount, hmeta⟩

/-- The metadata holds the words of all columns. An event with columns and no metadata block leaves the
size indeterminate. -/
def MetadataFits (map : CTableMapEvent) : Prop :=
  map.columnType = [] ∨ map.fieldMetadataSize = some 0 ∨
    ∃ size, map.fieldMetadataSize = some size ∧ metadataWidth map.columnType ≤ size

/-- The definition of a table whose metadata holds all words: one word per column, and none at all when
there is no metadata. -/
theorem createTableDef_iff {map : CTableMapEvent} (hmap : LoadedMap map) :
    (∃ td, map.createTableDef = .ok td) ↔ MetadataFits map := by
  unfold CTableMapEvent.createTableDef CTableDef.new MetadataFits
  rw [hmap.columns, Res.ofOption_some, Res.ok_bind]
  rcases eq_or_ne map.columnType [] with hnil | hne
  · simp [hnil]
  · rw [if_neg (by simpa using hne)]
    rcases hmap.metadata with ⟨hnone, -⟩ | hsome
    · simp [hnone, hne]
    · rw [hsome, Res.ofOption_some, Res.ok_bind]
      rcases eq_or_ne map.fieldMetadata.length 0 with hzero | hpos
      · simp [hzero]
      · rw [if_neg hpos]
        have hwords := metadataWords_iff map.columnType (Nat.zero_le map.fieldMetadata.length)
        rw [Nat.zero_add] at hwords
        simp only [Res.bind_eq_ok, Res.pure_eq, Except.ok.injEq, Option.some.injEq, hne, hpos, false_or]
        constructor
        · rintro ⟨td, ws, hws, -⟩
          exact ⟨_, rfl, hwords.mp ⟨ws, hws⟩⟩
        · rintro ⟨size, rfl, hle⟩
          obtain ⟨ws, hws⟩ := hwords.mpr hle
          exact ⟨_, ws, hws, rfl⟩

/-- What the constructor makes of a loaded event. -/
theorem createTableDef_shape {map : CTableMapEvent} (hmap : LoadedMap map) {td : CTableDef}
    (h : map.createTableDef = .ok td) : td.columnType = map.columnType ∧
      td.fieldMetadataSize = map.fieldMetadataSize ∧
      td.fieldMetadata.length = if map.fieldMetadataSize = some 0 then 0 else map.columnType.length := by
  unfold CTableMapEvent.createTableDef CTableDef.new at h
  rw [hmap.columns, Res.ofOption_some, Res.ok_bind] at h
  split_ifs at h with hcols
  · obtain rfl := Except.ok.inj h
    exact ⟨rfl, rfl, by simp [hcols]⟩
  · obtain ⟨size, hsize, h⟩ := Res.bind_eq_ok.mp h
    rw [Res.ofOption_eq_ok] at hsize
    split_ifs at h with hzero
    · obtain rfl := Except.ok.inj h
      exact ⟨rfl, rfl, by simp [hsize, hzero]⟩
    · obtain ⟨ws, hws, h⟩ := Res.bind_eq_ok.mp h
      obtain rfl := Except.ok.inj h
      exact ⟨rfl, rfl, by simp [hsize, hzero, length_metadataWords hws]⟩

/-! ### Lookups -/

theorem type_iff (td : CTableDef) (i : ℕ) : (∃ t, td.type i = .ok t) ↔
    i < td.columnType.length ∧ i < td.fieldMetadata.length := by
  unfold CTableDef.type
  rcases Nat.lt_or_ge i td.columnType.length with hc | hc
  · rcases Nat.lt_or_ge i td.fieldMetadata.length with hm | hm
    · rw [List.getElem?_eq_getElem hc, List.getElem?_eq_getElem hm]
      simp only [Res.ofOption_some, Res.ok_bind, hc, hm, and_self, iff_true]
      split <;> exact ⟨_, rfl⟩
    · simp [List.getElem?_eq_getElem hc, hm]
  · simp [hc]

/-- **A column is looked up inside** when the table has it and the definition has metadata words. -/
theorem column_iff {map : CTableMapEvent} (hmap : LoadedMap map) {td : CTableDef}
    (h : map.createTableDef = .ok td) (i : ℕ) : (∃ c, td.column i = .ok c) ↔
      i < map.columnType.length ∧ map.fieldMetadataSize ≠ some 0 := by
  obtain ⟨htype, hsize, hwords⟩ := createTableDef_shape hmap h
  have hi := type_iff td i
  rw [htype, hwords] at hi
  unfold CTableDef.column
  constructor
  · rintro ⟨c, hc⟩
    obtain ⟨t, ht, -⟩ := Res.bind_eq_ok.mp hc
    obtain ⟨hcol, hword⟩ := hi.mp ⟨t, ht⟩
    refine ⟨hcol, fun hzero => ?_⟩
    rw [if_pos hzero] at hword
    omega
  · rintro ⟨hcol, hzero⟩
    rw [if_neg hzero] at hi hwords
    obtain ⟨t, ht⟩ := hi.mpr ⟨hcol, hcol⟩
    -- the constructor has used the size, so it is known
    obtain ⟨size, hsome⟩ : ∃ size, map.fieldMetadataSize = some size := by
      rcases (createTableDef_iff hmap).mp ⟨td, h⟩ with hnil | h0 | ⟨size, hsome, -⟩
      · rw [hnil] at hcol; simp at hcol
      · exact ⟨0, h0⟩
      · exact ⟨size, hsome⟩
    have hword : td.fieldMetadata[i]? = some td.fieldMetadata[i] :=
      List.getElem?_eq_getElem (by omega)
    have hne : size ≠ 0 := fun h0 => hzero (h0 ▸ hsome)
    refine ⟨(t, td.fieldMetadata[i]), ?_⟩
    unfold CTableDef.fieldMeta
    simp [ht, hsize, hsome, hne, hword]

/-- The metadata word of a column has 16 bits. -/
theorem column_meta_lt {map : CTableMapEvent} {td : CTableDef} (htd : map.createTableDef = .ok td)
    {i type fmeta : ℕ} (hcol : td.column i = .ok (type, fmeta)) : fmeta < 65536 := by
  have hwords : ∀ x ∈ td.fieldMetadata, x < 65536 := by
    unfold CTableMapEvent.createTableDef CTableDef.new at htd
    obtain ⟨colSize, -, htd⟩ := Res.bind_eq_ok.mp htd
    split_ifs at htd
    · obtain rfl := Except.ok.inj htd
      simp
    · obtain ⟨metadataSize, -, htd⟩ := Res.bind_eq_ok.mp htd
      split_ifs at htd
      · obtain rfl := Except.ok.inj htd
        simp
      · obtain ⟨ws, hws, htd⟩ := Res.bind_eq_ok.mp htd
        obtain rfl := Except.ok.inj htd
        exact fun x hx => metadataWords_lt hws hx
  unfold CTableDef.column at hcol
  obtain ⟨t, -, hcol⟩ := Res.bind_eq_ok.mp hcol
  obtain ⟨m, hm, hcol⟩ := Res.bind_eq_ok.mp hcol
  obtain ⟨-, rfl⟩ := Prod.mk.inj (Except.ok.inj hcol)
  unfold CTableDef.fieldMeta at hm
  obtain ⟨size, -, hm⟩ := Res.bind_eq_ok.mp hm
  split_ifs at hm
  · exact hwords m (List.mem_of_getElem? (Res.ofOption_eq_ok.mp hm))
  · obtain rfl := Except.ok.inj hm
    norm_num

/-! ### Tables and their rows events -/

/-- The columns `printOneRow` looks up in the rows of an event: the present ones, when there is a row to
decode. -/
def LookedUp (ev : CRowsEvent) (i : ℕ) : Prop :=
  ∃ n rowsDataLen, ev.columnCount = some n ∧ ev.rowsDataLen = some rowsDataLen ∧
    0 < rowsLimit rowsDataLen ∧ i < n ∧ bitmapIsSet ev.cols i = .ok true

/-- The table definition is built inside the loaded metadata and looked up inside its arrays. -/
def Indexed (map : CTableMapEvent) (ev : CRowsEvent) : Prop :=
  ∃ td, map.createTableDef = .ok td ∧ ∀ i, LookedUp ev i → ∃ c, td.column i = .ok c

/-- **An event is decoded only** with a table definition that is indexed in range. -/
theorem indexed_of_parseEvent {map : CTableMapEvent} {ev : CRowsEvent} {r : CRowsEvent × LoadState}
    (h : ev.parseEvent (some map) = .ok r) : Indexed map ev := by
  obtain ⟨td, ptr, rowsDataLen, columnCount, st, htd, -, hlen, hcount, hst, -⟩ := CRowsEvent.parseEvent_cases h
  refine ⟨td, htd, ?_⟩
  rintro i ⟨n, len, hn, hl, hpos, hi, hset⟩
  obtain rfl := Option.some.inj (hcount.symm.trans hn)
  obtain rfl := Option.some.inj (hlen.symm.trans hl)
  -- the first round decodes a row
  rw [parseRows, if_pos hpos] at hst
  obtain ⟨st₁, hrow, -⟩ := Res.bind_eq_ok.mp hst
  obtain ⟨row, hrow, -⟩ := parseRow_cases hrow
  exact column_of_printOneRow hrow hi hset

/-- **Table definitions are indexed in range** exactly when the metadata holds the words of all columns
and every looked-up column is one of the table's, with metadata words built at all: a table whose columns
have no metadata has none, and its first present column is looked up in an empty array. -/
theorem indexed_iff {gde : CHeaderEvent} {p : Ptr} {map : CTableMapEvent}
    (hmap : CTableMapEvent.loadEvent gde p = .ok (map, .success)) (ev : CRowsEvent) :
    Indexed map ev ↔ MetadataFits map ∧
      ∀ i, LookedUp ev i → i < map.columnType.length ∧ map.fieldMetadataSize ≠ some 0 := by
  have hloaded := loadedMap hmap
  constructor
  · rintro ⟨td, htd, hcols⟩
    refine ⟨(createTableDef_iff hloaded).mp ⟨td, htd⟩, fun i hi => ?_⟩
    exact (column_iff hloaded htd i).mp (hcols i hi)
  · rintro ⟨hfits, hcols⟩
    obtain ⟨td, htd⟩ := (createTableDef_iff hloaded).mpr hfits
    exact ⟨td, htd, fun i hi => (column_iff hloaded htd i).mpr (hcols i hi)⟩

/-- The TABLE_MAP event of a table with one column. -/
def oneColumn (c : Column) : MapFrame :=
  { eventType := 19, timestamp := 0, serverId := 0, logPos := 0, flags := 0, more := [], short := false,
    tableId := 7, tableFlags := 1, dbName := [115], tableName := [116], columns := [c],
    nullBits := [1], checksum := [0, 0, 0, 0] }

/-- A WRITE event of that table with one row of five bytes. -/
def oneRow : RowsFrame :=
  { kind := .write, eventType := 30, timestamp := 0, serverId := 0, logPos := 0, flags := 0, more := [],
    version := .v2 [], tableId := 7, rowsFlags := 1, columnCount := 1, before := [1], after := [],
    rows := [0, 3, 97, 98, 99], checksum := [0, 0, 0, 0] }

/-- The loaded WRITE event. -/
def oneRowEvent : CRowsEvent :=
  { CRowsEvent.new .write ⟨0, 30, oneRow.size⟩ with
    tableId := some 7
    columnCount := some 1
    cols := ⟨some [1, 0, 0, 0], 1, [254, 255, 255, 255], 0⟩
    ptrRowsData := some ⟨31, [0, 3, 97, 98, 99, 0, 0, 0, 0, 0]⟩
    rowsDataLen := some 9 }

theorem load_oneRow : CRowsEvent.loadEvent description .write ⟨0, oneRow.bytes ++ [0]⟩ =
    .ok (oneRowEvent, .success) := by decide +kernel

theorem lookedUp_oneRowEvent {i : ℕ} : LookedUp oneRowEvent i ↔ i = 0 := by
  constructor
  · rintro ⟨n, len, hn, -, -, hi, -⟩
    obtain rfl := Option.some.inj hn
    omega
  · rintro rfl
    exact ⟨1, 9, rfl, rfl, by decide, by decide, rfl⟩

/-- A VARCHAR column is looked up inside: the table has a metadata word. -/
theorem varchar_indexed : ∃ map, CTableMapEvent.loadEvent description
      ⟨0, (oneColumn ⟨15, 10, by decide⟩).bytes ++ [0]⟩ = .ok (map, .success) ∧
    (Indexed map oneRowEvent ↔ MetadataFits map ∧
      ∀ i, LookedUp oneRowEvent i → i < map.columnType.length ∧ map.fieldMetadataSize ≠ some 0) ∧
    Indexed map oneRowEvent := by
  have hload : CTableMapEvent.loadEvent description ⟨0, (oneColumn ⟨15, 10, by decide⟩).bytes ++ [0]⟩ =
      .ok (⟨some 7, some 1, some 2, [15], [10, 0], [115], [116]⟩, .success) := by decide +kernel
  have hiff := indexed_iff hload oneRowEvent
  refine ⟨_, hload, hiff, hiff.mpr ⟨.inr (.inr ⟨2, rfl, by decide⟩), fun i hi => ?_⟩⟩
  obtain rfl := lookedUp_oneRowEvent.mp hi
  decide

/-- **An INT column is not**: the table has no metadata, and its word is looked up in an empty array. -/
theorem int_not_indexed : ∃ map, CTableMapEvent.loadEvent description
      ⟨0, (oneColumn ⟨3, 0, by decide⟩).bytes ++ [0]⟩ = .ok (map, .success) ∧
    CRowsEvent.loadEvent description .write ⟨0, oneRow.bytes ++ [0]⟩ = .ok (oneRowEvent, .success) ∧
    oneRowEvent.tableId = map.tableId ∧ ¬ Indexed map oneRowEvent := by
  have hload : CTableMapEvent.loadEvent description ⟨0, (oneColumn ⟨3, 0, by decide⟩).bytes ++ [0]⟩ =
      .ok (⟨some 7, some 1, some 0, [3], [], [115], [116]⟩, .success) := by decide +kernel
  refine ⟨_, hload, load_oneRow, rfl, fun hindexed => ?_⟩
  obtain ⟨td, htd, hcols⟩ := hindexed
  obtain ⟨-, hzero⟩ := (column_iff (loadedMap hload) htd 0).mp (hcols 0 (lookedUp_oneRowEvent.mpr rfl))
  exact hzero rfl

end DataSync.Binlog.TableIndex
