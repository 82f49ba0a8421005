import DataSync.Binlog.RowsFormat

/-! # Decoding undoes encoding

Rows of SHORT, INT24, LONG, LONGLONG, VARCHAR, NEWDECIMAL and DATETIME2 values, written in MySQL's row
format into a WRITE or DELETE event, are read back by `loadEvent` and `parseEvent` as they were written,
except that a DATETIME2 value loses its microseconds: `ROW_VALUE_TIME` has room for them, but no call
of `time_init` passes them on.

`decodes_read` is the decoding of every such event, `round_trip_iff` when it is the identity. -/

namespace DataSync.Binlog.RoundTrip

open DataSync.Lib.Words DataSync.Lib.Memory DataSync.Lib.Digits DataSync.Binlog.Format
open DataSync.Binlog.Bitmap DataSync.Binlog.Decimal DataSync.Binlog.DecimalText
open DataSync.Binlog.MyTime DataSync.Binlog.Field DataSync.Binlog.TableDef DataSync.Binlog.RowsEvent
open DataSync.Binlog.FieldFormat DataSync.Binlog.RowImage DataSync.Binlog.Alignment DataSync.Binlog.LogEvent
open DataSync.Binlog.RowsFormat

/-! ### Values -/

/-- A value that is not NULL. -/
inductive Datum where
  | int (v : ℤ)
  | varchar (s : Bytes)
  | newdecimal (precision scale : ℕ) (v : DecimalValue precision scale)
  | datetime2 (t : MysqlTime)

/-- The bytes of an integer column. -/
def intWidth : FieldType → ℕ
  | .short => 2
  | .int24 => 3
  | .long => 4
  | .longlong => 8
  | _ => 0

/-- The value fits a column of the type and metadata. -/
def Datum.Fits (type : FieldType) (fmeta : ℕ) : Datum → Prop
  | .int v => 0 < intWidth type ∧ -2 ^ (8 * intWidth type) ≤ 2 * v ∧ 2 * v < 2 ^ (8 * intWidth type)
  | .varchar s => type = .varchar ∧ fmeta < 65536 ∧ s.length ≤ fmeta ∧ ∀ b ∈ s, b ≠ 0
  | .newdecimal precision scale _ => type = .newdecimal ∧ fmeta >>> 8 = precision ∧
      fmeta &&& 0xff = scale ∧ 0 < precision ∧ precision ≤ 65 ∧ scale ≤ precision
  | .datetime2 t => type = .datetime2 ∧ DatetimeOk t fmeta

/-- The field of a value. -/
def Datum.bytes (type : FieldType) (fmeta : ℕ) : Datum → Bytes
  | .int v => leBytes (intWidth type) (ofSigned (8 * intWidth type) v)
  | .varchar s => leBytes (if fmeta < 256 then 1 else 2) s.length ++ s
  | .newdecimal _ _ v => v.bytes
  | .datetime2 t => myDatetimePackedToBinary (timeToLonglongDatetimePacked t) fmeta

/-- The value as a row holds it. -/
def Datum.value : Datum → Value
  | .int v => .longlong v
  | .varchar s => .char s
  | .newdecimal _ _ v => .char v.text
  | .datetime2 t => .time ⟨t.year, t.month, t.day, t.hour, t.minute, t.second, t.secondPart⟩

/-- The value as it is read back: a DATETIME2 in whole seconds. -/
def Datum.read : Datum → Value
  | .datetime2 t => .time ⟨t.year, t.month, t.day, t.hour, t.minute, t.second, 0⟩
  | d => d.value

/-- The value has no microseconds. -/
def Datum.WholeSeconds : Datum → Prop
  | .datetime2 t => t.secondPart = 0
  | _ => True

theorem Datum.read_eq_value_iff (d : Datum) : d.read = d.value ↔ d.WholeSeconds := by
  cases d with
  | datetime2 t =>
    simp only [Datum.read, Datum.value, Datum.WholeSeconds, Value.time.injEq, RowValueTime.mk.injEq,
      true_and]
    exact eq_comm
  | _ => simp [Datum.read, Datum.value, Datum.WholeSeconds]

theorem text_no_nul {precision scale : ℕ} (v : DecimalValue precision scale) :
    ∀ b ∈ v.text, b ≠ 0 := by
  have hdigit : ∀ ds : List ℕ, AreDigits ds → ∀ b ∈ ds.map digitChar, b ≠ 0 := by
    intro ds hds b hb
    obtain ⟨d, hd, rfl⟩ := List.mem_map.mp hb
    have hlt := hds d hd
    interval_cases d <;> decide
  intro b hb
  simp only [DecimalValue.text, List.mem_append] at hb
  rcases hb with (hb | hb) | hb
  · split_ifs at hb with hneg
    · obtain rfl : b = 45 := by simpa using hb
      decide
    · simp at hb
  · split at hb
    · obtain rfl : b = 48 := by simpa using hb
      decide
    · refine hdigit _ (fun d hd => v.intg_digits d ?_) b hb
      exact (List.dropWhile_sublist _).subset hd
  · split_ifs at hb with hfrac
    · simp at hb
    · rcases List.mem_cons.mp hb with rfl | hb
      · decide
      · exact hdigit _ v.frac_digits b hb

/-! ### One field -/

section Field
variable {type fmeta length : ℕ} {d : Datum} (h : d.Fits (FieldType.ofCode type) fmeta)

theorem le_int {w : ℕ} {v : ℤ} (hw : 0 < w) (hlo : -2 ^ (8 * w) ≤ 2 * v) (hhi : 2 * v < 2 ^ (8 * w))
    (a : ℕ) : ∃ x, Ptr.le ⟨a, leBytes w (ofSigned (8 * w) v)⟩ 0 w = .ok x ∧ toSigned (8 * w) x = v := by
  have hpow : (2 : ℕ) ^ (8 * w) = 256 ^ w := by rw [pow_mul]; norm_num
  refine ⟨ofSigned (8 * w) v, ?_, toSigned_ofSigned (by omega) hlo hhi⟩
  rw [Ptr.le_head (y := leBytes w (ofSigned (8 * w) v)) (z := []) (by simp) (by simp),
    leNat_leBytes_of_lt (hpow ▸ ofSigned_lt (8 * w) v)]

include h

/-- **A field reads back**, its microseconds apart. -/
theorem parseField_datum (a length : ℕ) :
    parseField ⟨a, d.bytes (FieldType.ofCode type) fmeta⟩ (FieldType.ofCode type) fmeta length =
      .ok (some d.read, (d.bytes (FieldType.ofCode type) fmeta).length) := by
  generalize FieldType.ofCode type = ft at h ⊢
  cases d with
  | int v =>
    obtain ⟨hw, hlo, hhi⟩ := h
    obtain ⟨x, hx, hv⟩ := le_int hw hlo hhi a
    cases ft
    case int24 =>
      rw [parseField_int24]
      simp only [intWidth] at hx hv
      simp only [Datum.bytes, intWidth, hx, Res.ok_bind, length_leBytes, Datum.read, Datum.value]
      rw [← hv]
    case short | long | longlong =>
      simp only [intWidth] at hx hv
      simp only [Datum.bytes, intWidth, parseField, hx, Res.ok_bind, Res.pure_eq, length_leBytes,
        Datum.read, Datum.value]
      rw [← hv]
    all_goals exact absurd hw (by simp [intWidth])
  | varchar s =>
    obtain ⟨rfl, hmeta, hlen, hnul⟩ := h
    have hstr : parseRowDataToString ⟨a, Datum.bytes .varchar fmeta (.varchar s)⟩ fmeta =
        .ok (s, (Datum.bytes .varchar fmeta (.varchar s)).length) := by
      have hfit : s.length < if fmeta < 256 then 256 else 65536 := by split_ifs <;> omega
      have hdata : (Ptr.mk a (Datum.bytes .varchar fmeta (.varchar s))).data =
          leBytes (if fmeta < 256 then 1 else 2) s.length ++ s ++ [] := (List.append_nil _).symm
      rw [parseRowDataToString_at hdata hfit, cStr_of_no_nul hnul, Datum.bytes, List.length_append,
        length_leBytes]
    simp only [parseField, hstr, Res.ok_bind, Res.pure_eq, Datum.read, Datum.value]
  | newdecimal precision scale v =>
    obtain ⟨rfl, rfl, rfl, hpos, hp, hs⟩ := h
    have hbin := bin2decimal_bytes v hpos hp hs (show (Ptr.mk a v.bytes).data = v.bytes ++ [] by simp)
    have hstr := decimal2string_decimal v hp hs
    simp only [parseField, Datum.bytes, hbin, hstr, Res.ok_bind, Res.pure_eq, v.length_bytes,
      Datum.read, Datum.value]
  | datetime2 t =>
    obtain ⟨rfl, ht⟩ := h
    have hpacked := datetime_packed_round_trip ht
      (show (Ptr.mk a (myDatetimePackedToBinary (timeToLonglongDatetimePacked t) fmeta)).data =
        _ ++ [] by simp)
    simp only [parseField, Datum.bytes, hpacked, Res.ok_bind, timeFrom_timeTo ht, Res.pure_eq,
      length_datetime_binary ht, Datum.read, timeInit]

/-- The types of these values stand for themselves. -/
theorem resolveType_datum : (resolveType type fmeta).1 = type := by
  unfold resolveType
  rw [if_neg]
  rintro rfl
  cases d with
  | int v => exact absurd h.1 (by decide)
  | varchar s => exact absurd h.1 (by decide)
  | newdecimal precision scale v => exact absurd h.1 (by decide)
  | datetime2 t => exact absurd h.1 (by decide)

theorem parseOneRowData_datum (a : ℕ) :
    parseOneRowData [] (some ⟨a, d.bytes (FieldType.ofCode type) fmeta⟩) type fmeta =
      .ok ([⟨type, d.read⟩], (d.bytes (FieldType.ofCode type) fmeta).length) := by
  have hres := resolveType_datum h
  have hcopy : RowValue.copy ⟨type, d.read⟩ = ⟨type, d.read⟩ := by
    cases d with
    | int v => rfl
    | varchar s =>
      simp only [RowValue.copy, Datum.read, Datum.value, cStr_of_no_nul h.2.2.2]
    | newdecimal precision scale v =>
      simp only [RowValue.copy, Datum.read, Datum.value, cStr_of_no_nul (text_no_nul v)]
    | datetime2 t => rfl
  unfold parseOneRowData
  cases hr : resolveType type fmeta with
  | mk type' length =>
    obtain rfl : type' = type := by rw [hr] at hres; exact hres
    simp only [parseField_datum h, Res.ok_bind, List.nil_append, Res.pure_eq, hcopy]

end Field

/-! ### One row -/

/-- The type and the metadata word of a column. -/
def column (t : Table) (i : ℕ) : ℕ × ℕ := (t.full.column i).toOption.getD (0, 0)

theorem column_eq (t : Table) {i : ℕ} (hi : i < t.colType.length) :
    t.full.column i = .ok (column t i) := by
  obtain ⟨type, fmeta, h⟩ := t.column_full hi
  rw [column, h]
  rfl

/-- The cell of a value, NULL or not, in a column. -/
def cellOf (t : Table) (i : ℕ) (d : Option Datum) : Cell :=
  d.map (Datum.bytes (FieldType.ofCode (column t i).1) (column t i).2)

/-- The `ROW_VALUE` of a value, NULL or not, in a column. -/
def rowValueOf (value : Datum → Value) (t : Table) (i : ℕ) (d : Option Datum) : RowValue :=
  ⟨(resolveType (column t i).1 (column t i).2).1, (d.map value).getD .null⟩

/-- The cells of a row over the present columns. -/
def rowCells (t : Table) (image : Bytes) (row : List (Option Datum)) : List Cell :=
  List.zipWith (cellOf t) (present t.colType.length image) row

/-- The `ROW_VALUE`s of a row over the present columns. -/
def rowValues (value : Datum → Value) (t : Table) (image : Bytes) (row : List (Option Datum)) :
    List RowValue :=
  List.zipWith (rowValueOf value t) (present t.colType.length image) row

/-- A row over the present columns, every value fitting its column, behind its null bitmap. -/
structure RowFits (t : Table) (image mask : Bytes) (row : List (Option Datum)) : Prop where
  length : row.length = (present t.colType.length image).length
  fits : ∀ x ∈ (present t.colType.length image).zip row, ∀ d, x.2 = some d →
    d.Fits (FieldType.ofCode (column t x.1).1) (column t x.1).2
  nullMask : NullMask mask (rowCells t image row)

/-- The image of a row. -/
def rowBytes (t : Table) (image mask : Bytes) (row : List (Option Datum)) : Bytes :=
  mask ++ fields (rowCells t image row)

theorem parseOneRowData_cellOf {t : Table} {i : ℕ} {d : Option Datum}
    (h : ∀ x, d = some x → x.Fits (FieldType.ofCode (column t i).1) (column t i).2) (a : ℕ) :
    parseOneRowData [] ((cellOf t i d).map (Ptr.mk a)) (column t i).1 (column t i).2 =
      .ok ([rowValueOf Datum.read t i d], (cellOf t i d).bytes.length) := by
  cases d with
  | none => rfl
  | some x =>
    have hx := h x rfl
    have hp := parseOneRowData_datum hx a
    have hres := resolveType_datum hx
    simp only [cellOf, Option.map_some, Cell.bytes_some, hp, rowValueOf, hres, Option.getD_some]

theorem parseCells_row {t : Table} {is : List ℕ} (his : ∀ i ∈ is, i < t.colType.length)
    {row : List (Option Datum)} (hlen : row.length = is.length)
    (hfits : ∀ x ∈ is.zip row, ∀ d, x.2 = some d →
      d.Fits (FieldType.ofCode (column t x.1).1) (column t x.1).2) (a : ℕ) :
    parseCells t.full a (is.zip (List.zipWith (cellOf t) is row)) =
      .ok (List.zipWith (rowValueOf Datum.read t) is row) := by
  induction is generalizing row a with
  | nil => rfl
  | cons i is ih =>
    match row, hlen with
    | d :: row, hlen =>
      simp only [List.length_cons, Nat.add_right_cancel_iff] at hlen
      have hcell := parseOneRowData_cellOf (t := t) (i := i) (d := d)
        (fun x hx => hfits (i, d) (by simp) x hx) a
      have hrest := ih (fun i hi => his i (by simp [hi])) hlen
        (fun x hx => hfits x (by simp [hx])) (a + (cellOf t i d).bytes.length)
      rw [List.zipWith_cons_cons, List.zip_cons_cons, parseCells, column_eq t (his i (by simp)),
        Res.ok_bind]
      simp only [hcell, Res.ok_bind, hrest, Res.pure_eq]
      rfl

section Row
variable {t : Table} {image mask : Bytes} {row : List (Option Datum)} (h : RowFits t image mask row)
include h

theorem length_rowCells : (rowCells t image row).length = (present t.colType.length image).length := by
  rw [rowCells, List.length_zipWith, h.length, Nat.min_self]

/-- A row takes at least the byte of its null bitmap. -/
theorem rowBytes_ne_nil (hpresent : present t.colType.length image ≠ []) :
    rowBytes t image mask row ≠ [] := by
  have hlen := List.length_pos_iff.mpr hpresent
  have hmask := h.nullMask.length
  rw [length_rowCells h] at hmask
  intro hnil
  have hz := congrArg List.length hnil
  rw [rowBytes, List.length_append, List.length_nil] at hz
  omega

/-- **A row reads back**, its microseconds apart. -/
theorem printOneRow_row (hmeta : t.metadata ≠ []) (himage : ImageOk t.colType.length image)
    {map : MyBitmap} (hmap : loadBitmap t.colType.length image = .ok map)
    (hsize : (rowBytes t image mask row).length < 2 ^ 32) {p : Ptr} {rest : Bytes} (hrest : rest ≠ [])
    (hp : p.data = rowBytes t image mask row ++ rest) :
    printOneRow [] t.tableDef map t.colType.length p =
      .ok (rowValues Datum.read t image row, (rowBytes t image mask row).length) := by
  have hcells := length_rowCells h
  have his : ∀ i ∈ present t.colType.length image, i < t.colType.length := fun i hi =>
    List.mem_range.mp (List.mem_of_mem_filter hi)
  have hfull : t.tableDef = t.full := by simp [Table.tableDef, Table.full, hmeta]
  have hok : ∀ x ∈ (present t.colType.length image).zip (rowCells t image row),
      CellOk t.full x.1 x.2 := by
    intro x hx
    obtain ⟨k, hk, rfl⟩ := List.getElem_of_mem hx
    have hk1 : k < (present t.colType.length image).length := by
      rw [List.length_zip] at hk; omega
    have hk2 : k < row.length := by rw [h.length]; exact hk1
    have hmem : ((present t.colType.length image)[k], row[k]) ∈
        (present t.colType.length image).zip row :=
      List.mem_iff_getElem.mpr ⟨k, by rw [List.length_zip]; omega, by simp⟩
    have hk3 : k < (rowCells t image row).length := by rw [hcells]; exact hk1
    have hcell : (rowCells t image row)[k] =
        cellOf t (present t.colType.length image)[k] row[k] := by simp [rowCells]
    rw [List.getElem_zip, hcell]
    exact ⟨_, _, column_eq t (his _ (List.getElem_mem hk1)),
      fun a => ⟨_, parseOneRowData_cellOf (h.fits _ hmem) a⟩⟩
  obtain ⟨values, hvalues, hrun⟩ := printOneRow_image himage hmap hcells h.nullMask hok [] p.addr hrest
  have hread := parseCells_row his h.length h.fits (p.addr + mask.length)
  rw [show List.zipWith (cellOf t) (present t.colType.length image) row = rowCells t image row from rfl,
    hvalues, Except.ok.injEq] at hread
  have hptr : p = ⟨p.addr, mask ++ (fields (rowCells t image row) ++ rest)⟩ := by
    rw [rowBytes, List.append_assoc] at hp
    rw [← hp]
  rw [rowBytes, List.length_append] at hsize
  rw [hfull, hptr, hrun, hread, List.nil_append, Nat.mod_eq_of_lt hsize, rowBytes, List.length_append]
  rfl

end Row

/-! ### The rows of an event -/

/-- The loop over rows that are each read back: `read` gives an image and what it is read as. -/
theorem parseRows_read {td : CTableDef} {map : MyBitmap} {n limit : ℕ} {α : Type} (bytes : α → Bytes)
    (values : α → List RowValue) {rows : List α} {behind : Bytes}
    (hread : ∀ r ∈ rows, bytes r ≠ [] ∧ ∀ (p : Ptr) (rest : Bytes), rest ≠ [] →
      p.data = bytes r ++ rest → printOneRow [] td map n p = .ok (values r, (bytes r).length))
    (hbehind : behind ≠ []) {fuel : ℕ} (hfuel : rows.length < fuel) {st : RowsState}
    (hdata : st.ptr.data = rows.flatMap bytes ++ behind)
    (hlimit : st.tmpDataLen + (rows.flatMap bytes).length = limit) (hlt : limit < 2 ^ 32) :
    parseRows false td map n limit fuel st =
      .ok ⟨st.before ++ rows.map values, st.after, st.ptr.add (rows.flatMap bytes).length, limit⟩ := by
  induction rows generalizing fuel st with
  | nil =>
    obtain ⟨fuel, rfl⟩ : ∃ k, fuel = k + 1 := ⟨fuel - 1, by simp only [List.length_nil] at hfuel; omega⟩
    simp only [List.flatMap_nil, List.length_nil, Nat.add_zero] at hlimit
    rw [parseRows, if_neg (by omega), ← hlimit]
    simp
  | cons r rows ih =>
    obtain ⟨hne, hr⟩ := hread r (by simp)
    have hpos : 0 < (bytes r).length := List.length_pos_iff.mpr hne
    obtain ⟨fuel, rfl⟩ : ∃ k, fuel = k + 1 := ⟨fuel - 1, by omega⟩
    rw [List.flatMap_cons, List.append_assoc] at hdata
    rw [List.flatMap_cons, List.length_append] at hlimit
    have hrow := hr st.ptr (rows.flatMap bytes ++ behind) (by simp [hbehind]) hdata
    have hmod : (st.tmpDataLen + (bytes r).length) % 2 ^ 32 = st.tmpDataLen + (bytes r).length :=
      Nat.mod_eq_of_lt (by omega)
    have hstep : parseRow false td map n st = .ok ⟨st.before ++ [values r], st.after,
        st.ptr.add (bytes r).length, st.tmpDataLen + (bytes r).length⟩ := by
      unfold parseRow
      rw [hrow, Res.ok_bind]
      simp only [Bool.false_eq_true, if_false, Res.pure_eq, hmod]
    have hnext : parseRows false td map n limit fuel ⟨st.before ++ [values r], st.after,
        st.ptr.add (bytes r).length, st.tmpDataLen + (bytes r).length⟩ = _ :=
      ih (fun r hr => hread r (by simp [hr])) (by simp only [List.length_cons] at hfuel; omega)
      (by simp only [Ptr.add_data, hdata, List.drop_left]) (by simp only; omega)
    rw [parseRows, if_pos (by omega), hstep, Res.ok_bind, hnext]
    simp only [List.map_cons, List.append_assoc, List.singleton_append, Ptr.add_add,
      List.flatMap_cons, List.length_append]

/-- The frame is a WRITE or DELETE event of the table that holds the rows; the table definition has its
metadata words and at least one column is present. -/
structure Encodes (gde : CHeaderEvent) (t : Table) (f : RowsFrame)
    (rows : List (Bytes × List (Option Datum))) : Prop where
  ok : f.Ok gde
  kind : f.kind ≠ .update
  columns : f.columnCount = t.colType.length
  metadata : t.metadata ≠ []
  somePresent : present t.colType.length f.before ≠ []
  frameRows : f.rows = rows.flatMap fun r => rowBytes t f.before r.1 r.2
  fits : ∀ r ∈ rows, RowFits t f.before r.1 r.2

/-- `loadEvent` and `parseEvent` succeed, and `m_row_before_values` is `out`. -/
def Decodes (gde : CHeaderEvent) (f : RowsFrame) (p : Ptr) (tm : CTableMapEvent)
    (out : List (List RowValue)) : Prop :=
  ∃ ev ev', CRowsEvent.loadEvent gde f.kind p = .ok (ev, .success) ∧
    ev.parseEvent (some tm) = .ok (ev', .success) ∧ ev'.rowBeforeValues = out

theorem decodes_unique {gde : CHeaderEvent} {f : RowsFrame} {p : Ptr} {tm : CTableMapEvent}
    {out out' : List (List RowValue)} (h : Decodes gde f p tm out) (h' : Decodes gde f p tm out') :
    out = out' := by
  obtain ⟨ev, ev1, hload, hparse, rfl⟩ := h
  obtain ⟨ev', ev1', hload', hparse', rfl⟩ := h'
  rw [hload, Except.ok.injEq, Prod.mk.injEq] at hload'
  rw [← hload'.1, hparse, Except.ok.injEq, Prod.mk.injEq] at hparse'
  rw [hparse'.1]

/-- **Every such event is decoded** to its rows, a DATETIME2 in whole seconds. -/
theorem decodes_read {gde : CHeaderEvent} {t : Table} {f : RowsFrame}
    {rows : List (Bytes × List (Option Datum))} (h : Encodes gde t f rows) {p : Ptr} {rest : Bytes}
    (hp : p.data = f.bytes ++ rest) (tableId : ℕ) (dbName tableName : Bytes) :
    Decodes gde f p (mapEvent t tableId dbName tableName)
      (rows.map fun r => rowValues Datum.read t f.before r.2) := by
  obtain ⟨cols, hcols⟩ := exists_loadBitmap h.ok.before
  have hload := loadEvent_frame h.ok hp hcols (by rw [if_neg h.kind]; rfl)
  have hdef := createTableDef_mapEvent t tableId dbName tableName
  have hck := h.ok.checksum
  have hlt := h.ok.rows_lt
  have hdata := rows_frame hp
  -- every row is one of the rows of the event, hence small enough
  have hrow : ∀ r ∈ rows, (rowBytes t f.before r.1 r.2).length ≤ f.rows.length := by
    intro r hr
    rw [h.frameRows]
    exact length_le_flatMap_of_mem (f := fun r => rowBytes t f.before r.1 r.2) hr
  have hcount : rows.length ≤ f.rows.length := by
    rw [h.frameRows]
    exact length_le_flatMap fun r hr => rowBytes_ne_nil (h.fits r hr) h.somePresent
  have himage : ImageOk t.colType.length f.before := h.columns ▸ h.ok.before
  have hcols' : loadBitmap t.colType.length f.before = .ok cols := h.columns ▸ hcols
  have hrun : parseRows false t.tableDef cols t.colType.length f.rows.length
      ((p.add f.rowsPos).data.length + 2) ⟨[], [], p.add f.rowsPos, 0⟩ = _ := parseRows_read
    (fun r : Bytes × List (Option Datum) => rowBytes t f.before r.1 r.2)
    (fun r => rowValues Datum.read t f.before r.2)
    (fun r hr => ⟨rowBytes_ne_nil (h.fits r hr) h.somePresent, fun q rest' hrest' hq =>
      printOneRow_row (h.fits r hr) h.metadata himage hcols' (lt_of_le_of_lt (hrow r hr) hlt) hrest' hq⟩)
    (h.ok.behind_ne_nil rest) (by rw [hdata, List.length_append]; omega)
    (by rw [← h.frameRows]; exact hdata) (by rw [← h.frameRows]; exact Nat.zero_add _) hlt
  have hchecksum : ((p.add f.rowsPos).add f.rows.length).bytes 0 4 = .ok f.checksum :=
    Ptr.bytes_head (by rw [Ptr.add_data, hdata, List.drop_left]) hck.symm
  rw [← h.frameRows, ← decide_eq_false h.kind, ← h.columns] at hrun
  exact ⟨_, _, hload, (parseEvent_iff hdef rfl rfl hlt rfl).mpr ⟨_, _, hrun, hchecksum, rfl⟩, rfl⟩

/-! ### When the decoding is the identity -/

theorem zipWith_rowValueOf_iff {t : Table} {is : List ℕ} {row : List (Option Datum)}
    (hlen : row.length = is.length) :
    List.zipWith (rowValueOf Datum.read t) is row = List.zipWith (rowValueOf Datum.value t) is row ↔
      ∀ d, some d ∈ row → d.WholeSeconds := by
  induction is generalizing row with
  | nil =>
    obtain rfl : row = [] := by simpa using hlen
    simp
  | cons i is ih =>
    match row, hlen with
    | d :: row, hlen =>
      simp only [List.length_cons, Nat.add_right_cancel_iff] at hlen
      have hhead : rowValueOf Datum.read t i d = rowValueOf Datum.value t i d ↔
          ∀ x, d = some x → x.WholeSeconds := by
        cases d with
        | none => simp [rowValueOf]
        | some x => simp [rowValueOf, x.read_eq_value_iff]
      rw [List.zipWith_cons_cons, List.zipWith_cons_cons, List.cons.injEq, hhead, ih hlen]
      constructor
      · rintro ⟨h1, h2⟩ x hx
        rcases List.mem_cons.mp hx with hx | hx
        · exact h1 x hx.symm
        · exact h2 x hx
      · intro h
        exact ⟨fun x hx => h x (by simp [hx]), fun x hx => h x (by simp [hx])⟩

/-- **Decoding undoes encoding, exactly when** no DATETIME2 value of the rows has microseconds. -/
theorem round_trip_iff {gde : CHeaderEvent} {t : Table} {f : RowsFrame}
    {rows : List (Bytes × List (Option Datum))} (h : Encodes gde t f rows) {p : Ptr} {rest : Bytes}
    (hp : p.data = f.bytes ++ rest) (tableId : ℕ) (dbName tableName : Bytes) :
    Decodes gde f p (mapEvent t tableId dbName tableName)
        (rows.map fun r => rowValues Datum.value t f.before r.2) ↔
      ∀ r ∈ rows, ∀ d, some d ∈ r.2 → d.WholeSeconds := by
  have hread := decodes_read h hp tableId dbName tableName
  have hiff : ∀ r ∈ rows, rowValues Datum.read t f.before r.2 = rowValues Datum.value t f.before r.2 ↔
      ∀ d, some d ∈ r.2 → d.WholeSeconds := fun r hr => zipWith_rowValueOf_iff (h.fits r hr).length
  constructor
  · intro hvalue r hr
    have heq := decodes_unique hread hvalue
    exact (hiff r hr).mp (List.map_inj_left.mp heq r hr)
  · intro hwhole
    rwa [List.map_congr_left fun r hr => (hiff r hr).mpr (hwhole r hr)] at hread

/-! ### A table of orders -/

/-- A table of a VARCHAR(10), a DECIMAL(4, 2), a DATETIME(6) and an INT column. -/
def orders : Table := ⟨[15, 246, 18, 3], [10, 0, 4, 2, 6], [10, 1026, 6, 0], by decide, by decide⟩

/-- The amount −12.50. -/
def amount : DecimalValue 4 2 :=
  ⟨true, [1, 2], [5, 0], rfl, rfl, by decide, by decide, fun _ => by decide⟩

/-- The row `('ab', -12.50, '2024-05-06 07:08:09.…', NULL)` with the given microseconds. -/
def orderRow (usec : ℕ) : List (Option Datum) :=
  [some (.varchar [97, 98]), some (.newdecimal 4 2 amount),
    some (.datetime2 ⟨2024, 5, 6, 7, 8, 9, usec, false⟩), none]

/-- A WRITE event with that row. -/
def orderFrame (usec : ℕ) : RowsFrame :=
  ⟨.write, 30, 0, 1, 0, 0, [], .v2 [], 109, 1, 4, [15], [], rowBytes orders [15] [8] (orderRow usec),
    [9, 9, 9, 9]⟩

theorem present_orders : present 4 [15] = [0, 1, 2, 3] := by decide

theorem column_orders : column orders 0 = (15, 10) ∧ column orders 1 = (246, 1026) ∧
    column orders 2 = (18, 6) := by decide

theorem orderTime_ok {usec : ℕ} (hu : usec < 10 ^ 6) : DatetimeOk ⟨2024, 5, 6, 7, 8, 9, usec, false⟩ 6 :=
  ⟨by norm_num, by norm_num, by norm_num, by norm_num, by norm_num, by norm_num, hu, by simp, le_rfl, rfl⟩

theorem rowCells_orderRow (usec : ℕ) : rowCells orders [15] (orderRow usec) = [some [2, 97, 98],
    some amount.bytes, some (myDatetimePackedToBinary
      (timeToLonglongDatetimePacked ⟨2024, 5, 6, 7, 8, 9, usec, false⟩) 6), none] := by
  obtain ⟨h0, h1, h2⟩ := column_orders
  rw [rowCells, show orders.colType.length = 4 from rfl, present_orders]
  simp only [orderRow, List.zipWith_cons_cons, List.zipWith_nil_left, cellOf, Option.map_some,
    Option.map_none, h0, h1, h2, Datum.bytes]
  rfl

theorem orderFrame_size_lt {usec : ℕ} (hu : usec < 10 ^ 6) : (orderFrame usec).size < 2 ^ 32 := by
  have hrow : (orderFrame usec).rows.length = 14 := by
    have h1 := length_datetime_binary (orderTime_ok hu)
    have h2 := amount.length_bytes
    simp only [orderFrame, rowBytes, rowCells_orderRow, fields, List.flatMap_cons, List.flatMap_nil,
      Cell.bytes_some, Cell.bytes_none, List.length_append, h1, h2]
    decide
  have hpostlen : (orderFrame usec).post.length = 10 := length_post (orderFrame usec)
  have hparts : (orderFrame usec).more.length = 0 ∧ (orderFrame usec).before.length = 1 ∧
      (orderFrame usec).second.length = 0 ∧ (orderFrame usec).checksum.length = 4 :=
    ⟨rfl, rfl, rfl, rfl⟩
  have hpacked : (packedLength (orderFrame usec).columnCount).length = 1 := by
    show (packedLength 4).length = 1
    decide
  unfold RowsFrame.size
  omega

/-- The columns of the order hold values of their types. -/
theorem orderRow_fits {usec : ℕ} (hu : usec < 10 ^ 6) {x : ℕ × Option Datum}
    (hx : x ∈ [0, 1, 2, 3].zip (orderRow usec)) {d : Datum} (hd : x.2 = some d) :
    d.Fits (FieldType.ofCode (column orders x.1).1) (column orders x.1).2 := by
  obtain ⟨h0, h1, h2⟩ := column_orders
  simp only [orderRow, List.zip_cons_cons, List.zip_nil_left, List.mem_cons, List.not_mem_nil,
    or_false] at hx
  rcases hx with rfl | rfl | rfl | rfl
  · obtain rfl : Datum.varchar [97, 98] = d := by simpa using hd
    rw [h0]
    exact ⟨rfl, by norm_num, by simp, by simp⟩
  · obtain rfl : Datum.newdecimal 4 2 amount = d := by simpa using hd
    rw [h1]
    exact ⟨rfl, rfl, rfl, by norm_num, by norm_num, by norm_num⟩
  · obtain rfl : Datum.datetime2 ⟨2024, 5, 6, 7, 8, 9, usec, false⟩ = d := by simpa using hd
    rw [h2]
    exact ⟨rfl, orderTime_ok hu⟩
  · cases hd

theorem orderRow_encodes {usec : ℕ} (hu : usec < 10 ^ 6) :
    Encodes description orders (orderFrame usec) [([8], orderRow usec)] := by
  have himage : ImageOk 4 [15] := ⟨by decide, by decide, by decide⟩
  have hpost : description.postHeader 30 = .ok 10 := by decide
  have hbefore : (orderFrame usec).before = [15] := rfl
  refine ⟨⟨by simp [orderFrame], by simp [orderFrame], rfl, hpost, Or.inl rfl, himage, ?_, rfl,
    orderFrame_size_lt hu⟩, by simp [orderFrame], rfl, by decide, ?_, by simp [orderFrame], ?_⟩
  · intro hk
    cases hk
  · show present 4 [15] ≠ []
    rw [present_orders]
    simp
  · intro r hr
    rw [List.mem_singleton.mp hr]
    refine ⟨?_, ?_, ?_, ?_⟩
    · show (orderRow usec).length = (present 4 [15]).length
      rw [present_orders]
      rfl
    · intro x hx d hd
      rw [show orders.colType.length = 4 from rfl, hbefore, present_orders] at hx
      exact orderRow_fits hu hx hd
    · rw [hbefore, rowCells_orderRow]
      simp
    · rw [hbefore, rowCells_orderRow]
      intro j hj
      simp only [List.length_cons, List.length_nil] at hj
      have hbits : bitAt [8] 0 = false ∧ bitAt [8] 1 = false ∧ bitAt [8] 2 = false ∧
          bitAt [8] 3 = true := by decide
      interval_cases j
      exacts [hbits.1, hbits.2.1, hbits.2.2.1, hbits.2.2.2]

/-- On the full second the order is read back. -/
theorem round_trip_iff_order : Decodes description (orderFrame 0) ⟨0, (orderFrame 0).bytes ++ [0]⟩
    (mapEvent orders 109 [116] [117])
    ([([8], orderRow 0)].map fun r => rowValues Datum.value orders [15] r.2) := by
  refine (round_trip_iff (orderRow_encodes (by norm_num)) rfl 109 [116] [117]).mpr ?_
  intro r hr d hd
  rw [List.mem_singleton.mp hr] at hd
  simp only [orderRow, List.mem_cons, Option.some.injEq, List.not_mem_nil, or_false] at hd
  rcases hd with rfl | rfl | rfl | hd
  · trivial
  · trivial
  · rfl
  · cases hd

/-- Half a second later it is not. -/
theorem order_loses_microseconds : ¬ ∀ (gde : CHeaderEvent) (t : Table) (f : RowsFrame)
    (rows : List (Bytes × List (Option Datum))) (p : Ptr) (rest : Bytes) (tableId : ℕ)
    (dbName tableName : Bytes), Encodes gde t f rows → p.data = f.bytes ++ rest →
    Decodes gde f p (mapEvent t tableId dbName tableName)
      (rows.map fun r => rowValues Datum.value t f.before r.2) := by
  intro h
  have henc := orderRow_encodes (show 500000 < 10 ^ 6 by norm_num)
  have hvalue := h description orders (orderFrame 500000) [([8], orderRow 500000)]
    ⟨0, (orderFrame 500000).bytes ++ [0]⟩ [0] 109 [116] [117] henc rfl
  have heq := decodes_unique (decodes_read henc rfl 109 [116] [117]) hvalue
  have hrow := (zipWith_rowValueOf_iff (henc.fits _ (by simp)).length).mp
    (List.map_inj_left.mp heq ([8], orderRow 500000) (by simp))
  have husec : (500000 : ℕ) = 0 := hrow (.datetime2 ⟨2024, 5, 6, 7, 8, 9, 500000, false⟩)
    (by simp [orderRow])
  cases husec

end DataSync.Binlog.RoundTrip
