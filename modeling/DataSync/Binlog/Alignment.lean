import DataSync.Binlog.RowImage

/-! # One value per present column

`printOneRow` pushes a value only when the branch of the column's type has set one, so the values of a
row stay aligned with the present columns exactly when every present column is NULL or has a type whose
branch sets a value, and the table definition can be asked for the columns at all: a table without
metadata bytes leaves `m_field_metadata` empty, and `CTableDef::type` reads out of it.

`aligned_iff` is that equivalence. -/

namespace DataSync.Binlog.Alignment

open DataSync.Lib.Words DataSync.Lib.Memory DataSync.Binlog.Bitmap DataSync.Binlog.Format
open DataSync.Binlog.Field DataSync.Binlog.FieldFormat DataSync.Binlog.TableDef
open DataSync.Binlog.RowsEvent DataSync.Binlog.RowImage

/-! ### Tables and rows -/

/-- A table as a TABLE_MAP event carries it: its column types, its metadata bytes and the metadata word
they hold for each column. -/
structure Table where
  colType : Bytes
  metadata : Bytes
  words : List ℕ
  words_eq : metadataWords metadata 0 colType = .ok words
  ne_nil : colType ≠ []

/-- What the constructor of `CTableDef` makes of a table. -/
def Table.tableDef (t : Table) : CTableDef :=
  ⟨t.colType, some t.metadata.length, if t.metadata = [] then [] else t.words⟩

/-- The definition that holds one metadata word per column. -/
def Table.full (t : Table) : CTableDef := ⟨t.colType, some t.metadata.length, t.words⟩

theorem Table.new_eq (t : Table) :
    CTableDef.new t.colType (some t.colType.length) t.metadata (some t.metadata.length) =
      .ok t.tableDef := by
  have hne : t.colType.length ≠ 0 := fun h => t.ne_nil (List.length_eq_zero_iff.mp h)
  unfold CTableDef.new Table.tableDef
  by_cases hm : t.metadata = []
  · simp [hm]
  · have hm' : t.metadata.length ≠ 0 := fun h => hm (List.length_eq_zero_iff.mp h)
    simp [hne, hm', hm, t.words_eq]

theorem length_metadataWords {metadata : Bytes} {index : ℕ} {types : List UInt8} {words : List ℕ}
    (h : metadataWords metadata index types = .ok words) : words.length = types.length := by
  induction types generalizing index words with
  | nil =>
    obtain rfl : [] = words := by simpa [metadataWords] using h
    rfl
  | cons t types ih =>
    rw [metadataWords] at h
    obtain ⟨x, -, h⟩ := Res.bind_eq_ok.mp h
    obtain ⟨ws, hws, h⟩ := Res.bind_eq_ok.mp h
    simp only [Res.pure_eq, Except.ok.injEq] at h
    rw [← h, List.length_cons, List.length_cons, ih hws]

theorem Table.column_full (t : Table) {i : ℕ} (hi : i < t.colType.length) :
    ∃ type fmeta, t.full.column i = .ok (type, fmeta) := by
  have hw : i < t.words.length := by rwa [length_metadataWords t.words_eq]
  have htype : ∃ type, t.full.type i = .ok type := by
    simp only [CTableDef.type, Table.full, List.getElem?_eq_getElem hi, List.getElem?_eq_getElem hw,
      Res.ofOption_some, Res.ok_bind, Res.pure_eq]
    split <;> exact ⟨_, rfl⟩
  have hmeta : ∃ fmeta, t.full.fieldMeta i = .ok fmeta := by
    simp only [CTableDef.fieldMeta, Table.full, List.getElem?_eq_getElem hw, Res.ofOption_some,
      Res.ok_bind, Res.pure_eq]
    split_ifs <;> exact ⟨_, rfl⟩
  obtain ⟨type, ht⟩ := htype
  obtain ⟨fmeta, hm⟩ := hmeta
  exact ⟨type, fmeta, by rw [CTableDef.column, ht, Res.ok_bind, hm]; rfl⟩

/-- The bytes of a cell are a well-formed field of its column. -/
def CellFormat (t : Table) (i : ℕ) (c : Cell) : Prop :=
  ∀ bs, c = some bs → ∃ type fmeta, t.full.column i = .ok (type, fmeta) ∧
    FieldOk (FieldType.ofCode (resolveType type fmeta).1) fmeta (resolveType type fmeta).2 bs

/-- A well-formed row image: a null bitmap over the present columns and their fields. -/
structure RowFormat (t : Table) (image mask : Bytes) (cells : List Cell) : Prop where
  imageOk : ImageOk t.colType.length image
  length : cells.length = (present t.colType.length image).length
  nullMask : NullMask mask cells
  format : ∀ x ∈ (present t.colType.length image).zip cells, CellFormat t x.1 x.2
  size : mask.length + (fields cells).length < 2 ^ 32

/-- No JSON document of 2¹⁶ bytes or more. -/
def NoLongJson (t : Table) (image : Bytes) (cells : List Cell) : Prop :=
  ∀ x ∈ (present t.colType.length image).zip cells, ∀ bs, x.2 = some bs →
    ∀ type fmeta, t.full.column x.1 = .ok (type, fmeta) →
      JsonShort (FieldType.ofCode (resolveType type fmeta).1) bs

/-! ### What is asked of a row -/

/-- The cell is NULL or its column's branch sets a value. -/
def CellSets (t : Table) (i : ℕ) (c : Cell) : Prop :=
  c = none ∨ ∃ type fmeta, t.full.column i = .ok (type, fmeta) ∧
    setsValue (FieldType.ofCode (resolveType type fmeta).1) fmeta = true

/-- The table has metadata, if a column is present, and every cell is NULL or sets a value. -/
def AllSet (t : Table) (image : Bytes) (cells : List Cell) : Prop :=
  (t.metadata = [] → present t.colType.length image = []) ∧
    ∀ x ∈ (present t.colType.length image).zip cells, CellSets t x.1 x.2

/-- The value belongs to the column: it has the column's type and is decoded from its cell. -/
def Belongs (t : Table) (x : ℕ × Cell) (v : RowValue) : Prop :=
  ∃ type fmeta, t.full.column x.1 = .ok (type, fmeta) ∧ v.mysqlType = (resolveType type fmeta).1 ∧
    ∃ a n, parseOneRowData [] (x.2.map (Ptr.mk a)) type fmeta = .ok ([v], n)

/-- `printOneRow` appends one value per present column, each belonging to its column. -/
def Aligned (t : Table) (map : MyBitmap) (image : Bytes) (cells : List Cell)
    (rowValues : List RowValue) (p : Ptr) : Prop :=
  ∃ values n, printOneRow rowValues t.tableDef map t.colType.length p = .ok (rowValues ++ values, n) ∧
    List.Forall₂ (Belongs t) ((present t.colType.length image).zip cells) values

/-- `printOneRow` appends as many values as columns are present. -/
def Counted (t : Table) (map : MyBitmap) (cells : List Cell) (rowValues : List RowValue) (p : Ptr) :
    Prop :=
  ∃ values n, printOneRow rowValues t.tableDef map t.colType.length p = .ok (rowValues ++ values, n) ∧
    values.length = cells.length

/-! ### One cell -/

/-- What one cell decodes to: at most one value, one exactly when the cell is NULL or its branch sets
one. -/
theorem parseOneRowData_values {ptrData : Option Ptr} {type fmeta n : ℕ} {values : List RowValue}
    (h : parseOneRowData [] ptrData type fmeta = .ok (values, n)) :
    ((ptrData = none ∨ setsValue (FieldType.ofCode (resolveType type fmeta).1) fmeta = true) ∧
      ∃ v, values = [v] ∧ v.mysqlType = (resolveType type fmeta).1) ∨
    (ptrData ≠ none ∧ setsValue (FieldType.ofCode (resolveType type fmeta).1) fmeta = false ∧
      values = []) := by
  have hcopy : ∀ v : RowValue, v.copy.mysqlType = v.mysqlType := by
    rintro ⟨t, v⟩
    cases v <;> rfl
  unfold parseOneRowData at h
  cases hr : resolveType type fmeta with
  | mk type length =>
    rw [hr] at h
    cases ptrData with
    | none =>
      simp only [Res.pure_eq, Res.ok_bind, List.nil_append, Except.ok.injEq, Prod.mk.injEq] at h
      exact Or.inl ⟨Or.inl rfl, _, h.1.symm, hcopy _⟩
    | some p =>
      simp only at h ⊢
      obtain ⟨⟨v, rLen⟩, hf, h⟩ := Res.bind_eq_ok.mp h
      have hset := parseField_isSome hf
      cases v with
      | none =>
        simp only [Res.pure_eq, Except.ok.injEq, Prod.mk.injEq] at h
        exact Or.inr ⟨by simp, hset.symm, h.1.symm⟩
      | some v =>
        simp only [Res.pure_eq, List.nil_append, Except.ok.injEq, Prod.mk.injEq] at h
        exact Or.inl ⟨Or.inr hset.symm, _, h.1.symm, hcopy _⟩

theorem cellSets_of_belongs {t : Table} {x : ℕ × Cell} {v : RowValue} (h : Belongs t x v) :
    CellSets t x.1 x.2 := by
  obtain ⟨type, fmeta, hcol, -, a, n, hp⟩ := h
  rcases parseOneRowData_values hp with ⟨hset, -⟩ | ⟨-, -, hnil⟩
  · rcases hset with hnone | hset
    · exact Or.inl (by simpa using hnone)
    · exact Or.inr ⟨type, fmeta, hcol, hset⟩
  · cases hnil

/-- A well-formed cell is decoded from its own bytes and to their end. -/
theorem cellOk_of_format {t : Table} {i : ℕ} {c : Cell} (hi : i < t.colType.length)
    (hformat : CellFormat t i c) (hsize : c.bytes.length < 2 ^ 32)
    (hshort : ∀ bs, c = some bs → ∀ type fmeta, t.full.column i = .ok (type, fmeta) →
      JsonShort (FieldType.ofCode (resolveType type fmeta).1) bs) : CellOk t.full i c := by
  cases c with
  | none =>
    obtain ⟨type, fmeta, hcol⟩ := t.column_full hi
    exact ⟨type, fmeta, hcol, fun a => ⟨_, rfl⟩⟩
  | some bs =>
    obtain ⟨type, fmeta, hcol, hok⟩ := hformat bs rfl
    refine ⟨type, fmeta, hcol, fun a => ?_⟩
    obtain ⟨v, hv⟩ := parseField_of_fieldOk hok (hshort bs rfl type fmeta hcol) hsize a
    cases v with
    | none => exact ⟨[], by simp [parseOneRowData, hv]⟩
    | some v => exact ⟨[RowValue.copy ⟨_, v⟩], by simp [parseOneRowData, hv]; rfl⟩

/-! ### One row -/

/-- One value per cell, each its own, when every cell sets one. -/
theorem parseCells_belongs {t : Table} {xs : List (ℕ × Cell)} {a : ℕ} {values : List RowValue}
    (h : parseCells t.full a xs = .ok values) (hset : ∀ x ∈ xs, CellSets t x.1 x.2) :
    List.Forall₂ (Belongs t) xs values := by
  induction xs generalizing a values with
  | nil =>
    obtain rfl : [] = values := by simpa [parseCells] using h
    exact List.Forall₂.nil
  | cons x xs ih =>
    obtain ⟨i, c⟩ := x
    rw [parseCells] at h
    obtain ⟨⟨type, fmeta⟩, hcol, h⟩ := Res.bind_eq_ok.mp h
    obtain ⟨⟨vs, n⟩, hvs, h⟩ := Res.bind_eq_ok.mp h
    obtain ⟨rest, hrest, h⟩ := Res.bind_eq_ok.mp h
    simp only [Res.pure_eq, Except.ok.injEq] at h
    have htail := ih hrest fun x hx => hset x (by simp [hx])
    rcases parseOneRowData_values hvs with ⟨-, v, rfl, htype⟩ | ⟨hne, hunset, -⟩
    · rw [← h, List.singleton_append]
      exact List.Forall₂.cons ⟨type, fmeta, hcol, htype, a, n, hvs⟩ htail
    · -- the cell sets a value: this branch cannot have been taken
      rcases hset (i, c) (by simp) with hnone | ⟨type', fmeta', hcol', hset'⟩
      · exact absurd (by simp only at hnone; rw [hnone]; rfl) hne
      · rw [hcol] at hcol'
        simp only [Except.ok.injEq, Prod.mk.injEq] at hcol'
        obtain ⟨rfl, rfl⟩ := hcol'
        rw [hunset] at hset'
        cases hset'

/-- Never more values than cells; as many only when every cell sets one. -/
theorem parseCells_length {t : Table} {xs : List (ℕ × Cell)} {a : ℕ} {values : List RowValue}
    (h : parseCells t.full a xs = .ok values) : values.length ≤ xs.length ∧
      (values.length = xs.length → ∀ x ∈ xs, CellSets t x.1 x.2) := by
  induction xs generalizing a values with
  | nil =>
    obtain rfl : [] = values := by simpa [parseCells] using h
    simp
  | cons x xs ih =>
    obtain ⟨i, c⟩ := x
    rw [parseCells] at h
    obtain ⟨⟨type, fmeta⟩, hcol, h⟩ := Res.bind_eq_ok.mp h
    obtain ⟨⟨vs, n⟩, hvs, h⟩ := Res.bind_eq_ok.mp h
    obtain ⟨rest, hrest, h⟩ := Res.bind_eq_ok.mp h
    simp only [Res.pure_eq, Except.ok.injEq] at h
    obtain ⟨hle, heq⟩ := ih hrest
    rw [← h, List.length_append, List.length_cons]
    rcases parseOneRowData_values hvs with ⟨hset, v, rfl, htype⟩ | ⟨-, -, rfl⟩
    · rw [List.length_singleton]
      refine ⟨by omega, fun hlen x hx => ?_⟩
      rcases List.mem_cons.mp hx with rfl | hx
      · exact cellSets_of_belongs (v := v) ⟨type, fmeta, hcol, htype, a, n, hvs⟩
      · exact heq (by omega) x hx
    · rw [List.length_nil]
      exact ⟨by omega, fun hlen => by omega⟩

/-- The columns of a row are gone through only if the table definition can be asked for every present
one. -/
theorem column_of_foldlM {td : CTableDef} {map : MyBitmap} {nullBits : Ptr} {is : List ℕ} {i : ℕ}
    (hi : i ∈ is) (hset : bitmapIsSet map i = .ok true) {st st' : RowState}
    (h : is.foldlM (printColumn td map nullBits) st = .ok st') : ∃ r, td.column i = .ok r := by
  have hall : ∀ j ∈ is, bitmapIsSet map j = .ok true → ∃ r, td.column j = .ok r := by
    refine Res.foldlM_invariant (P := fun pre _ => ∀ j ∈ pre, bitmapIsSet map j = .ok true →
      ∃ r, td.column j = .ok r) h (by simp) fun pre k b b' _ hpre hstep j hj hjset => ?_
    rcases List.mem_append.mp hj with hj | hj
    · exact hpre j hj hjset
    · obtain rfl := List.mem_singleton.mp hj
      obtain ⟨_, -, ⟨hunset, -⟩ | ⟨-, column, _, hcolumn, -⟩⟩ := printColumn_cases hstep
      · rw [hjset] at hunset
        cases hunset
      · exact ⟨column, hcolumn⟩
  exact hall i hi hset

/-- A row is printed only if the table definition can be asked for every present column. -/
theorem column_of_printOneRow {td : CTableDef} {map : MyBitmap} {n i : ℕ} {value : Ptr}
    {rowValues : List RowValue} {r : List RowValue × ℕ}
    (h : printOneRow rowValues td map n value = .ok r) (hi : i < n)
    (hset : bitmapIsSet map i = .ok true) : ∃ c, td.column i = .ok c := by
  obtain ⟨_, st, -, hst, -⟩ := printOneRow_cases h
  exact column_of_foldlM (List.mem_range.mpr hi) hset hst

theorem length_bytes_le {cells : List Cell} {c : Cell} (hc : c ∈ cells) :
    c.bytes.length ≤ (fields cells).length := by
  obtain ⟨xs, ys, rfl⟩ := List.append_of_mem hc
  simp only [fields, List.flatMap_append, List.flatMap_cons, List.length_append]
  omega

section Rows
variable {t : Table} {image mask : Bytes} {cells : List Cell} (h : RowFormat t image mask cells)
  {map : MyBitmap} (hmap : loadBitmap t.colType.length image = .ok map)
  (rowValues : List RowValue) (a : ℕ) {rest : Bytes}
include h hmap

/-- A table without metadata bytes cannot print a row with a present column. -/
theorem present_eq_nil {r : List RowValue × ℕ}
    (hrun : printOneRow rowValues t.tableDef map t.colType.length ⟨a, rest⟩ = .ok r)
    (hm : t.metadata = []) : present t.colType.length image = [] := by
  rw [List.eq_nil_iff_forall_not_mem]
  intro i hi
  obtain ⟨hin, hbit⟩ := List.mem_filter.mp hi
  rw [List.mem_range] at hin
  have hset : bitmapIsSet map i = .ok true := by
    rw [bitmapIsSet_loadBitmap h.imageOk hmap hin, hbit]
  obtain ⟨r, hr⟩ := column_of_printOneRow hrun hin hset
  have herr : t.tableDef.column i = .error .fault := by
    cases hx : t.colType[i]? <;> simp [CTableDef.column, CTableDef.type, Table.tableDef, hm, hx]
  rw [herr] at hr
  cases hr

theorem allSet_of_aligned (halign : Aligned t map image cells rowValues ⟨a, rest⟩) :
    AllSet t image cells := by
  obtain ⟨values, n, hrun, hbelongs⟩ := halign
  refine ⟨present_eq_nil h hmap rowValues a hrun, fun x hx => ?_⟩
  obtain ⟨k, hk, rfl⟩ := List.getElem_of_mem hx
  exact cellSets_of_belongs ((List.forall₂_iff_get.mp hbelongs).2 k hk (hbelongs.length_eq ▸ hk))

/-- On a well-formed row of a table with metadata, `printOneRow` appends what the cells decode to. -/
theorem printOneRow_format (hshort : NoLongJson t image cells)
    (hm : t.metadata = [] → present t.colType.length image = []) (hrest : rest ≠ []) :
    ∃ values, parseCells t.full (a + mask.length) ((present t.colType.length image).zip cells) =
        .ok values ∧
      printOneRow rowValues t.tableDef map t.colType.length ⟨a, mask ++ (fields cells ++ rest)⟩ =
        .ok (rowValues ++ values, mask.length + (fields cells).length) := by
  have hcells : ∀ x ∈ (present t.colType.length image).zip cells, CellOk t.full x.1 x.2 := by
    intro x hx
    have hmem := List.of_mem_zip hx
    refine cellOk_of_format ?_ (h.format x hx) ?_ (hshort x hx)
    · exact List.mem_range.mp (List.mem_of_mem_filter hmem.1)
    · have h1 := length_bytes_le hmem.2
      have h2 := h.size
      omega
  by_cases hmeta : t.metadata = []
  · -- no column is present, so the definition is never asked
    have hpresent := hm hmeta
    have hnil : cells = [] := by
      have hl := h.length
      rw [hpresent, List.length_nil] at hl
      exact List.length_eq_zero_iff.mp hl
    have hok : ∀ x ∈ (present t.colType.length image).zip cells, CellOk t.tableDef x.1 x.2 := by
      rw [hpresent]
      simp
    obtain ⟨values, hvalues, hrun⟩ := printOneRow_image h.imageOk hmap h.length h.nullMask hok
      rowValues a hrest
    rw [Nat.mod_eq_of_lt h.size] at hrun
    rw [hpresent] at hvalues ⊢
    exact ⟨values, hvalues, hrun⟩
  · have hfull : t.tableDef = t.full := by simp [Table.tableDef, Table.full, hmeta]
    obtain ⟨values, hvalues, hrun⟩ := printOneRow_image h.imageOk hmap h.length
      h.nullMask hcells rowValues a hrest
    rw [Nat.mod_eq_of_lt h.size] at hrun
    exact ⟨values, hvalues, by rw [hfull, hrun]⟩

theorem aligned_of_allSet (hshort : NoLongJson t image cells) (hset : AllSet t image cells)
    (hrest : rest ≠ []) :
    Aligned t map image cells rowValues ⟨a, mask ++ (fields cells ++ rest)⟩ := by
  obtain ⟨values, hvalues, hrun⟩ := printOneRow_format h hmap rowValues a hshort hset.1 hrest
  exact ⟨values, _, hrun, parseCells_belongs hvalues hset.2⟩

theorem allSet_of_counted (hshort : NoLongJson t image cells) (hrest : rest ≠ [])
    (hcount : Counted t map cells rowValues ⟨a, mask ++ (fields cells ++ rest)⟩) :
    AllSet t image cells := by
  obtain ⟨values, n, hrun, hlen⟩ := hcount
  have hm := present_eq_nil h hmap rowValues a hrun
  obtain ⟨values', hvalues, hrun'⟩ := printOneRow_format h hmap rowValues a hshort hm hrest
  rw [hrun] at hrun'
  simp only [Except.ok.injEq, Prod.mk.injEq, List.append_cancel_left_eq] at hrun'
  obtain ⟨rfl, -⟩ := hrun'
  refine ⟨hm, (parseCells_length hvalues).2 ?_⟩
  rw [List.length_zip, ← h.length, hlen, Nat.min_self]

end Rows

/-- **Aligned, exactly when.** One value per present column, in column order, each belonging to its
column: the table has metadata, every present column is NULL or has a type whose branch sets a value, and
no cell is a JSON document of 2¹⁶ bytes or more. The first two are needed whatever the row holds, and for
a row without a long document they are the same as the right number of values. Behind the row stand
further rows or the checksum. -/
theorem aligned_iff {t : Table} {image mask : Bytes} {cells : List Cell}
    (h : RowFormat t image mask cells) {map : MyBitmap}
    (hmap : loadBitmap t.colType.length image = .ok map) (rowValues : List RowValue) (a : ℕ)
    {rest : Bytes} (hbehind : 4 ≤ rest.length) :
    (AllSet t image cells ∧ NoLongJson t image cells →
      Aligned t map image cells rowValues ⟨a, mask ++ (fields cells ++ rest)⟩) ∧
    (Aligned t map image cells rowValues ⟨a, mask ++ (fields cells ++ rest)⟩ →
      AllSet t image cells) ∧
    (NoLongJson t image cells →
      (Counted t map cells rowValues ⟨a, mask ++ (fields cells ++ rest)⟩ ↔
        AllSet t image cells)) := by
  have hrest : rest ≠ [] := by
    rintro rfl
    simp at hbehind
  have hlen : ((present t.colType.length image).zip cells).length = cells.length := by
    rw [List.length_zip, ← h.length, Nat.min_self]
  refine ⟨?_, allSet_of_aligned h hmap rowValues a, fun hshort => ⟨?_, ?_⟩⟩
  · exact fun ⟨hset, hshort⟩ => aligned_of_allSet h hmap rowValues a hshort hset hrest
  · exact allSet_of_counted h hmap rowValues a hshort hrest
  · intro hset
    obtain ⟨values, n, hrun, hbelongs⟩ := aligned_of_allSet h hmap rowValues a hshort hset hrest
    exact ⟨values, n, hrun, by rw [← hbelongs.length_eq, hlen]⟩

/-- A table of a VARCHAR(10) and an INT column. -/
def nameAndId : Table := ⟨[15, 3], [10, 0], [10, 0], by decide, by decide⟩

/-- A table of a TINYTEXT and an INT column. -/
def noteAndId : Table := ⟨[252, 3], [1], [1, 0], by decide, by decide⟩

theorem nameAndId_format : RowFormat nameAndId [3] [2] [some [2, 97, 98], none] := by
  have hzip : (present 2 [3]).zip [some [2, 97, 98], (none : Cell)] =
      [(0, some [2, 97, 98]), (1, none)] := by decide
  refine ⟨⟨by decide, by decide, by decide⟩, by decide, ⟨by decide, by decide⟩, ?_, by decide⟩
  intro x hx bs hbs
  rw [show nameAndId.colType.length = 2 from rfl, hzip] at hx
  rcases List.mem_pair.mp hx with rfl | rfl
  · obtain rfl : [2, 97, 98] = bs := by simpa using hbs
    exact ⟨15, 10, by decide, [97, 98], by decide, by decide⟩
  · cases hbs

/-- The two columns of `nameAndId` stay aligned. -/
theorem aligned_iff_nameAndId : ∃ map, loadBitmap 2 [3] = .ok map ∧
    Aligned nameAndId map [3] [some [2, 97, 98], none] [] ⟨100, [2, 2, 97, 98, 9, 9, 9, 9]⟩ := by
  have hzip : (present 2 [3]).zip [some [2, 97, 98], (none : Cell)] =
      [(0, some [2, 97, 98]), (1, none)] := by decide
  refine ⟨⟨some [3, 0, 0, 0], 2, [252, 255, 255, 255], 0⟩, by decide, ?_⟩
  have hiff := (aligned_iff nameAndId_format
    (show loadBitmap 2 [3] = .ok ⟨some [3, 0, 0, 0], 2, [252, 255, 255, 255], 0⟩ by decide) [] 100
    (show 4 ≤ ([9, 9, 9, 9] : Bytes).length by decide)).1
  refine hiff ⟨⟨by decide, fun x hx => ?_⟩, fun x hx bs hbs type fmeta hcol hjson => ?_⟩
  · rw [show nameAndId.colType.length = 2 from rfl, hzip] at hx
    rcases List.mem_pair.mp hx with rfl | rfl
    · exact Or.inr ⟨15, 10, by decide, by decide⟩
    · exact Or.inl rfl
  · rw [show nameAndId.colType.length = 2 from rfl, hzip] at hx
    rcases List.mem_pair.mp hx with rfl | rfl
    · obtain rfl : [2, 97, 98] = bs := by simpa using hbs
      decide
    · cases hbs

/-- A row with a TINYTEXT column that is not NULL has no value for it: the INT value stands in its
place. -/
theorem noteAndId_shifted : ¬ ∀ (t : Table) (image mask : Bytes) (cells : List Cell) (map : MyBitmap)
    (rowValues : List RowValue) (a : ℕ) (rest : Bytes), RowFormat t image mask cells →
    loadBitmap t.colType.length image = .ok map → 4 ≤ rest.length →
    Aligned t map image cells rowValues ⟨a, mask ++ (fields cells ++ rest)⟩ := by
  have hzip : (present 2 [3]).zip [some [1, 97], some [7, 0, 0, 0]] =
      [(0, some [1, 97]), (1, (some [7, 0, 0, 0] : Cell))] := by decide
  have hformat : RowFormat noteAndId [3] [0] [some [1, 97], some [7, 0, 0, 0]] := by
    refine ⟨⟨by decide, by decide, by decide⟩, by decide, ⟨by decide, by decide⟩, ?_, by decide⟩
    intro x hx bs hbs
    rw [show noteAndId.colType.length = 2 from rfl, hzip] at hx
    rcases List.mem_pair.mp hx with rfl | rfl
    · obtain rfl : [1, 97] = bs := by simpa using hbs
      exact ⟨252, 1, by decide, by decide, by decide, [97], by decide, by decide⟩
    · obtain rfl : [7, 0, 0, 0] = bs := by simpa using hbs
      exact ⟨3, 0, by decide, by show List.length [7, 0, 0, 0] = 4; rfl⟩
  intro h
  obtain ⟨values, n, hrun, hbelongs⟩ := h noteAndId [3] [0] [some [1, 97], some [7, 0, 0, 0]]
    ⟨some [3, 0, 0, 0], 2, [252, 255, 255, 255], 0⟩ [] 100 [9, 9, 9, 9] hformat (by decide) (by decide)
  have heval : printOneRow [] noteAndId.tableDef ⟨some [3, 0, 0, 0], 2, [252, 255, 255, 255], 0⟩ 2
      ⟨100, [0, 1, 97, 7, 0, 0, 0, 9, 9, 9, 9]⟩ = .ok ([⟨3, .longlong 7⟩], 7) := by
    decide +kernel
  have hlen := hbelongs.length_eq
  rw [show noteAndId.colType.length = 2 from rfl, hzip] at hlen
  have hvalues : [⟨3, .longlong 7⟩] = values ∧ 7 = n := by
    simpa using (heval.symm.trans hrun)
  rw [← hvalues.1] at hlen
  simp at hlen

end DataSync.Binlog.Alignment
