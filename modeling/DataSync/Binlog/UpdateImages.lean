import DataSync.Binlog.RowsFormat

/-! # Before and after images of an UPDATE

The loop of `parseEvent` reads the after image of an UPDATE into the vector that still holds the before
image, and under the before-image bitmap. So every after entry begins with its before entry
(`parseRows_appends`), and the images are kept apart only when there are none, or by accident: when the
after image begins with the very values of the before image.

`separated_iff` states this for every UPDATE event. -/

namespace DataSync.Binlog.UpdateImages

open DataSync.Lib.Words DataSync.Lib.Memory DataSync.Binlog.Format DataSync.Binlog.Bitmap
open DataSync.Binlog.Field DataSync.Binlog.TableDef DataSync.Binlog.RowsEvent
open DataSync.Binlog.RowImage DataSync.Binlog.Alignment DataSync.Binlog.LogEvent
open DataSync.Binlog.RowsFormat

/-! ### Events -/

/-- A row pair: the null bitmap and the cells of the before and of the after image. -/
structure Pair where
  beforeMask : Bytes
  before : List Cell
  afterMask : Bytes
  after : List Cell

/-- The bytes of a row pair. -/
def Pair.bytes (pr : Pair) : Bytes :=
  pr.beforeMask ++ (fields pr.before ++ (pr.afterMask ++ fields pr.after))

/-- The frame is an UPDATE event of the table that holds the pairs, each image well formed under its
bitmap. -/
structure Encodes (gde : CHeaderEvent) (t : Table) (f : RowsFrame) (pairs : List Pair) : Prop where
  ok : f.Ok gde
  kind : f.kind = .update
  columns : f.columnCount = t.colType.length
  rows : f.rows = pairs.flatMap Pair.bytes
  before : ∀ pr ∈ pairs, RowFormat t f.before pr.beforeMask pr.before
  after : ∀ pr ∈ pairs, RowFormat t f.after pr.afterMask pr.after

/-- The cells of the columns present in an image. -/
def cellsOf (t : Table) (image : Bytes) (cells : List Cell) : List (ℕ × Cell) :=
  (present t.colType.length image).zip cells

/-- `loadEvent` and `parseEvent` keep the images apart: one before and one after entry per pair, each
the decoding of its image under its own bitmap, one value per present column. -/
def Separated (gde : CHeaderEvent) (t : Table) (f : RowsFrame) (pairs : List Pair) (p : Ptr)
    (tm : CTableMapEvent) : Prop :=
  ∃ ev ev', CRowsEvent.loadEvent gde f.kind p = .ok (ev, .success) ∧
    ev.parseEvent (some tm) = .ok (ev', .success) ∧
    List.Forall₂ (fun pr values => List.Forall₂ (Belongs t) (cellsOf t f.before pr.before) values)
      pairs ev'.rowBeforeValues ∧
    List.Forall₂ (fun pr values => List.Forall₂ (Belongs t) (cellsOf t f.after pr.after) values)
      pairs ev'.rowAfterValues

/-- The accident: the after bitmap has at least as many columns as the before bitmap and at most twice
as many, and every after image begins with the values of its before image. -/
def Repeats (t : Table) (f : RowsFrame) (pairs : List Pair) : Prop :=
  (present t.colType.length f.before).length ≤ (present t.colType.length f.after).length ∧
  (present t.colType.length f.after).length ≤ 2 * (present t.colType.length f.before).length ∧
  ∀ pr ∈ pairs, ∃ values, List.Forall₂ (Belongs t) (cellsOf t f.before pr.before) values ∧
    List.Forall₂ (Belongs t)
      ((cellsOf t f.after pr.after).take (present t.colType.length f.before).length) values

/-! ### What a row appends -/

section Appends
variable {td : CTableDef} {map : MyBitmap} {image : Bytes} {n : ℕ}

theorem foldlM_appends {nullBits : Ptr} {is : List ℕ}
    (hset : ∀ i ∈ is, bitmapIsSet map i = .ok (bitAt image i)) {st st' : RowState}
    (h : is.foldlM (printColumn td map nullBits) st = .ok st') :
    ∃ values, st'.rowValues = st.rowValues ++ values ∧
      values.length ≤ (is.filter (bitAt image)).length := by
  refine Res.foldlM_invariant (P := fun pre s => ∃ values, s.rowValues = st.rowValues ++ values ∧
    values.length ≤ (pre.filter (bitAt image)).length) h ⟨[], by simp, by simp⟩ ?_
  rintro pre i s s' hi ⟨values, hvalues, hlen⟩ hstep
  obtain ⟨_, -, ⟨hunset, rfl⟩ | ⟨hisset, column, r, -, hparse, rfl⟩⟩ := printColumn_cases hstep
  · have hbit : bitAt image i = false := Except.ok.inj ((hset i hi).symm.trans hunset)
    exact ⟨values, hvalues, by simpa [List.filter_append, hbit] using hlen⟩
  · have hbit : bitAt image i = true := Except.ok.inj ((hset i hi).symm.trans hisset)
    rw [parseOneRowData_append] at hparse
    obtain ⟨⟨vs, k⟩, hone, rfl⟩ := Res.map_eq_ok.mp hparse
    have hvs : vs.length ≤ 1 := by
      rcases parseOneRowData_values hone with ⟨-, v, rfl, -⟩ | ⟨-, -, rfl⟩ <;> simp
    refine ⟨values ++ vs, by rw [hvalues, List.append_assoc], ?_⟩
    rw [List.filter_append, List.filter_singleton, hbit, List.length_append, List.length_append]
    simpa using Nat.add_le_add hlen hvs

variable (himage : ImageOk n image) (hmap : loadBitmap n image = .ok map)
include himage hmap

theorem printOneRow_appends {rowValues out : List RowValue} {p : Ptr} {len : ℕ}
    (h : printOneRow rowValues td map n p = .ok (out, len)) :
    ∃ values, out = rowValues ++ values ∧ values.length ≤ (present n image).length := by
  obtain ⟨_, st, -, hfold, hr⟩ := printOneRow_cases h
  obtain ⟨rfl, -⟩ := Prod.mk.inj hr
  exact foldlM_appends (fun i hi => bitmapIsSet_loadBitmap himage hmap (List.mem_range.mp hi)) hfold

/-- One round of an UPDATE: the after entry is the before entry with at most as many values behind it
as the before bitmap has columns. -/
theorem parseRow_appends {st st' : RowsState} (h : parseRow true td map n st = .ok st') :
    ∃ b w, st'.before = st.before ++ [b] ∧ st'.after = st.after ++ [b ++ w] ∧
      w.length ≤ (present n image).length := by
  obtain ⟨⟨b, len⟩, -, ⟨hnot, -⟩ | ⟨-, ⟨a, len'⟩, hafter, rfl⟩⟩ := parseRow_cases h
  · cases hnot
  · obtain ⟨w, rfl, hw⟩ := printOneRow_appends himage hmap hafter
    exact ⟨b, w, rfl, rfl, hw⟩

/-- **A whole UPDATE**: every after entry begins with its before entry. -/
theorem parseRows_appends {limit fuel : ℕ} {st st' : RowsState}
    (h : parseRows true td map n limit fuel st = .ok st') :
    ∃ bs as, st'.before = st.before ++ bs ∧ st'.after = st.after ++ as ∧
      List.Forall₂ (fun b a => ∃ w, a = b ++ w ∧ w.length ≤ (present n image).length) bs as := by
  induction fuel generalizing st with
  | zero => cases h
  | succ fuel ih =>
    rw [parseRows] at h
    split_ifs at h with hlt
    · obtain ⟨st1, hrow, h⟩ := Res.bind_eq_ok.mp h
      obtain ⟨b, w, hb, ha, hw⟩ := parseRow_appends himage hmap hrow
      obtain ⟨bs, as, hbs, has, hall⟩ := ih h
      refine ⟨b :: bs, (b ++ w) :: as, ?_, ?_, List.Forall₂.cons ⟨w, rfl, hw⟩ hall⟩
      · rw [hbs, hb, List.append_assoc, List.singleton_append]
      · rw [has, ha, List.append_assoc, List.singleton_append]
    · obtain rfl : st = st' := by simpa using h
      exact ⟨[], [], by simp, by simp, List.Forall₂.nil⟩

end Appends

/-! ### From the event to its rows -/

section Event
variable {gde : CHeaderEvent} {t : Table} {f : RowsFrame} {pairs : List Pair}
  (h : Encodes gde t f pairs) {p : Ptr} {rest : Bytes} (hp : p.data = f.bytes ++ rest)
  (tableId : ℕ) (dbName tableName : Bytes)
include h hp

/-- The event is decoded by the loop over its rows, under the before bitmap. -/
theorem separated_run : ∃ cols, loadBitmap t.colType.length f.before = .ok cols ∧
    (Separated gde t f pairs p (mapEvent t tableId dbName tableName) ↔
      ∃ st bs, parseRows true t.tableDef cols t.colType.length f.rows.length
          ((p.add f.rowsPos).data.length + 2) ⟨[], [], p.add f.rowsPos, 0⟩ = .ok st ∧
        st.ptr.bytes 0 4 = .ok bs ∧
        List.Forall₂ (fun pr values => List.Forall₂ (Belongs t) (cellsOf t f.before pr.before) values)
          pairs st.before ∧
        List.Forall₂ (fun pr values => List.Forall₂ (Belongs t) (cellsOf t f.after pr.after) values)
          pairs st.after) := by
  obtain ⟨cols, hcols⟩ := exists_loadBitmap h.ok.before
  obtain ⟨colsAi, hcolsAi⟩ := exists_loadBitmap (h.ok.after h.kind)
  have hload := loadEvent_frame h.ok hp hcols (by rw [if_pos h.kind]; exact hcolsAi)
  refine ⟨cols, by rw [← h.columns, hcols], ?_⟩
  have hdef := createTableDef_mapEvent t tableId dbName tableName
  have hlt := h.ok.rows_lt
  have hiff := fun ev' => @parseEvent_iff ⟨f.kind, f.eventType, f.timestamp,
    some (f.tableId % 256 ^ f.version.idLen % 2 ^ 32), some f.columnCount, cols, colsAi,
    some (p.add f.rowsPos), some (f.rows.length + 4), [], []⟩ ev' _ _ _ _ _ hdef rfl rfl hlt rfl
  constructor
  · rintro ⟨ev, ev', hev, hparse, hbefore, hafter⟩
    rw [hload, Except.ok.injEq, Prod.mk.injEq] at hev
    rw [← hev.1] at hparse
    obtain ⟨st, bs, hrun, hbs, rfl⟩ := (hiff ev').mp hparse
    simp only [h.kind, decide_true] at hrun
    rw [h.columns] at hrun
    exact ⟨st, bs, hrun, hbs, hbefore, hafter⟩
  · rintro ⟨st, bs, hrun, hbs, hbefore, hafter⟩
    rw [← h.columns] at hrun
    refine ⟨_, _, hload, (hiff _).mpr ⟨st, bs, ?_, hbs, rfl⟩, hbefore, hafter⟩
    simp only [h.kind, decide_true]
    exact hrun

/-- Without row pairs there is nothing to mix. -/
theorem separated_of_nil (hnil : pairs = []) :
    Separated gde t f pairs p (mapEvent t tableId dbName tableName) := by
  obtain ⟨cols, -, hiff⟩ := separated_run h hp tableId dbName tableName
  have hrows : f.rows = [] := by rw [h.rows, hnil]; rfl
  have hdata := rows_frame hp
  rw [hrows, List.nil_append] at hdata
  have hck : (p.add f.rowsPos).bytes 0 4 = .ok f.checksum :=
    Ptr.bytes_head hdata h.ok.checksum.symm
  refine hiff.mpr ⟨⟨[], [], p.add f.rowsPos, 0⟩, f.checksum, ?_, hck, ?_, ?_⟩
  · rw [hrows]
    rfl
  · rw [hnil]; exact List.Forall₂.nil
  · rw [hnil]; exact List.Forall₂.nil

/-- Images that are kept apart although there are some repeat themselves. -/
theorem repeats_of_separated (hsep : Separated gde t f pairs p (mapEvent t tableId dbName tableName)) :
    pairs = [] ∨ Repeats t f pairs := by
  obtain ⟨cols, hcols, hiff⟩ := separated_run h hp tableId dbName tableName
  obtain ⟨st, bs, hrun, -, hbefore, hafter⟩ := hiff.mp hsep
  obtain ⟨bs, as, hbs, has, hall⟩ := parseRows_appends (h.columns ▸ h.ok.before) hcols hrun
  rw [List.nil_append] at hbs has
  rw [hbs] at hbefore
  rw [has] at hafter
  -- pair by pair: the two entries and the images they are decoded from
  have hentries : ∀ pr ∈ pairs, ∃ values w,
      List.Forall₂ (Belongs t) (cellsOf t f.before pr.before) values ∧
      List.Forall₂ (Belongs t) (cellsOf t f.after pr.after) (values ++ w) ∧
      w.length ≤ (present t.colType.length f.before).length := by
    intro pr hpr
    obtain ⟨k, hk, rfl⟩ := List.getElem_of_mem hpr
    have hkb : k < bs.length := hbefore.length_eq ▸ hk
    have hka : k < as.length := hafter.length_eq ▸ hk
    obtain ⟨w, hw, hlen⟩ := (List.forall₂_iff_get.mp hall).2 k hkb hka
    have h1 := (List.forall₂_iff_get.mp hbefore).2 k hk hkb
    have h2 := (List.forall₂_iff_get.mp hafter).2 k hk hka
    rw [hw] at h2
    exact ⟨_, w, h1, h2, hlen⟩
  have hlenb : ∀ pr ∈ pairs, (cellsOf t f.before pr.before).length =
      (present t.colType.length f.before).length := by
    intro pr hpr
    rw [cellsOf, List.length_zip, (h.before pr hpr).length, Nat.min_self]
  have hlena : ∀ pr ∈ pairs, (cellsOf t f.after pr.after).length =
      (present t.colType.length f.after).length := by
    intro pr hpr
    rw [cellsOf, List.length_zip, (h.after pr hpr).length, Nat.min_self]
  rcases pairs with _ | ⟨pr, prs⟩
  · exact Or.inl rfl
  · right
    have hcount : (present t.colType.length f.before).length ≤
          (present t.colType.length f.after).length ∧
        (present t.colType.length f.after).length ≤
          2 * (present t.colType.length f.before).length := by
      obtain ⟨values, w, h1, h2, hw⟩ := hentries pr (by simp)
      have hl1 := h1.length_eq
      have hl2 := h2.length_eq
      rw [hlenb pr (by simp)] at hl1
      rw [hlena pr (by simp), List.length_append] at hl2
      omega
    refine ⟨hcount.1, hcount.2, fun pr hpr => ?_⟩
    obtain ⟨values, w, h1, h2, -⟩ := hentries pr hpr
    have hl1 := h1.length_eq
    rw [hlenb pr hpr] at hl1
    have h3 := List.forall₂_take (present t.colType.length f.before).length h2
    rw [hl1, List.take_left] at h3
    exact ⟨values, h1, hl1 ▸ h3⟩

omit hp in
/-- Images of no column at all take no bytes. -/
theorem rows_eq_nil (hb : (present t.colType.length f.before).length = 0)
    (ha : (present t.colType.length f.after).length = 0) : f.rows = [] := by
  have hempty : ∀ {image mask : Bytes} {cells : List Cell}, RowFormat t image mask cells →
      (present t.colType.length image).length = 0 → mask = [] ∧ fields cells = [] := by
    intro image mask cells hr h0
    have hl := hr.length
    have hm := hr.nullMask.length
    rw [h0] at hl
    rw [hl] at hm
    refine ⟨List.length_eq_zero_iff.mp hm, ?_⟩
    rw [List.length_eq_zero_iff.mp hl]
    rfl
  rw [h.rows, List.flatMap_eq_nil_iff]
  intro pr hpr
  obtain ⟨h1, h2⟩ := hempty (h.before pr hpr) hb
  obtain ⟨h3, h4⟩ := hempty (h.after pr hpr) ha
  rw [Pair.bytes, h1, h2, h3, h4]
  rfl

omit hp in
/-- The first round of an event with equal bitmaps: both images are decoded, one behind the other. -/
theorem parseRow_equal {pr : Pair} (hpr : pr ∈ pairs) (heq : f.before = f.after)
    (hshort : NoLongJson t f.before pr.before ∧ NoLongJson t f.after pr.after) {cols : MyBitmap}
    (hcols : loadBitmap t.colType.length f.before = .ok cols) {ptr : Ptr} {behind : Bytes}
    (hdata : ptr.data = pr.bytes ++ behind) (hbehind : behind ≠ []) {st' : RowsState}
    (hrow : parseRow true t.tableDef cols t.colType.length ⟨[], [], ptr, 0⟩ = .ok st') :
    ∃ a a' values values', parseCells t.full a (cellsOf t f.before pr.before) = .ok values ∧
      parseCells t.full a' (cellsOf t f.after pr.after) = .ok values' ∧
      st'.before = [values] ∧ st'.after = [values ++ values'] := by
  have hb := h.before pr hpr
  have ha := h.after pr hpr
  have hcols' : loadBitmap t.colType.length f.after = .ok cols := heq ▸ hcols
  obtain ⟨⟨b, len⟩, hfirst, ⟨hnot, -⟩ | ⟨-, ⟨a, len'⟩, hsecond, rfl⟩⟩ := parseRow_cases hrow
  · cases hnot
  -- the before image
  have hptr : ptr = ⟨ptr.addr, pr.beforeMask ++ (fields pr.before ++
      (pr.afterMask ++ (fields pr.after ++ behind)))⟩ := by
    rw [Pair.bytes] at hdata
    simp only [List.append_assoc] at hdata
    rw [← hdata]
  rw [hptr] at hfirst
  have hm := present_eq_nil hb hcols [] ptr.addr hfirst
  have hm' : t.metadata = [] → present t.colType.length f.after = [] := heq ▸ hm
  obtain ⟨values, hvalues, hrun⟩ := printOneRow_format hb hcols [] ptr.addr hshort.1 hm
    (show pr.afterMask ++ (fields pr.after ++ behind) ≠ [] by simp [hbehind])
  rw [hrun, Except.ok.injEq, Prod.mk.injEq, List.nil_append] at hfirst
  obtain ⟨rfl, rfl⟩ := hfirst
  -- the after image
  have hptr' : ptr.add (pr.beforeMask.length + (fields pr.before).length) =
      ⟨ptr.addr + (pr.beforeMask.length + (fields pr.before).length),
        pr.afterMask ++ (fields pr.after ++ behind)⟩ := by
    rw [Ptr.add, hptr, ← List.append_assoc, drop_at (by rw [List.length_append])]
  rw [hptr'] at hsecond
  obtain ⟨values', hvalues', hrun'⟩ := printOneRow_format ha hcols' values
    (ptr.addr + (pr.beforeMask.length + (fields pr.before).length)) hshort.2 hm' hbehind
  rw [hrun', Except.ok.injEq, Prod.mk.injEq] at hsecond
  exact ⟨_, _, values, values', hvalues, hvalues', rfl, by rw [← hsecond.1]; rfl⟩

/-- With equal bitmaps the images are never kept apart. -/
theorem nil_of_separated (heq : f.before = f.after)
    (hshort : ∀ pr ∈ pairs, NoLongJson t f.before pr.before ∧ NoLongJson t f.after pr.after)
    (hsep : Separated gde t f pairs p (mapEvent t tableId dbName tableName)) : pairs = [] := by
  obtain ⟨cols, hcols, hiff⟩ := separated_run h hp tableId dbName tableName
  obtain ⟨st, bs, hrun, -, hbefore, hafter⟩ := hiff.mp hsep
  rcases pairs with _ | ⟨pr, prs⟩
  · rfl
  · exfalso
    rw [parseRows] at hrun
    split_ifs at hrun with hlt
    · obtain ⟨st1, hrow, hrun⟩ := Res.bind_eq_ok.mp hrun
      have hdata : (p.add f.rowsPos).data =
          pr.bytes ++ (prs.flatMap Pair.bytes ++ (f.checksum ++ rest)) := by
        rw [rows_frame hp, h.rows, List.flatMap_cons, List.append_assoc]
      have hbehind : prs.flatMap Pair.bytes ++ (f.checksum ++ rest) ≠ [] := by
        have hck := h.ok.checksum
        intro hnil
        have hlen := congrArg List.length hnil
        simp only [List.length_append, List.length_nil] at hlen
        omega
      obtain ⟨a, a', values, values', hv, hv', hb1, ha1⟩ := parseRow_equal h List.mem_cons_self heq
        (hshort pr (by simp)) hcols hdata hbehind hrow
      obtain ⟨bs', as', hbs', has', -⟩ := parseRows_appends (h.columns ▸ h.ok.before) hcols hrun
      rw [hbs', hb1, List.singleton_append] at hbefore
      rw [has', ha1, List.singleton_append] at hafter
      obtain ⟨hfirst, -⟩ := List.forall₂_cons.mp hbefore
      obtain ⟨hsecond, -⟩ := List.forall₂_cons.mp hafter
      -- the after entry has its own values and, in front of them, those of the before entry
      have hsets : ∀ x ∈ cellsOf t f.after pr.after, CellSets t x.1 x.2 := by
        intro x hx
        obtain ⟨k, hk, rfl⟩ := List.getElem_of_mem hx
        exact cellSets_of_belongs
          ((List.forall₂_iff_get.mp hsecond).2 k hk (hsecond.length_eq ▸ hk))
      have hl1 := hfirst.length_eq
      have hl2 := hsecond.length_eq
      have hl3 := (parseCells_belongs hv' hsets).length_eq
      rw [List.length_append] at hl2
      have hzb : (cellsOf t f.before pr.before).length =
          (present t.colType.length f.before).length := by
        rw [cellsOf, List.length_zip, (h.before pr (by simp)).length, Nat.min_self]
      have h0 : (present t.colType.length f.before).length = 0 := by omega
      have hrows := rows_eq_nil h h0 (heq ▸ h0)
      rw [hrows] at hlt
      exact absurd hlt (by simp)
    · obtain rfl : (⟨[], [], p.add f.rowsPos, 0⟩ : RowsState) = st := by simpa using hrun
      cases hbefore

end Event

/-- **Kept apart, exactly when.** An UPDATE event without row pairs keeps its images apart; one whose
bitmaps are equal does so only then; any other does so only then or by the accident `Repeats`. -/
theorem separated_iff {gde : CHeaderEvent} {t : Table} {f : RowsFrame} {pairs : List Pair}
    (h : Encodes gde t f pairs) {p : Ptr} {rest : Bytes} (hp : p.data = f.bytes ++ rest)
    (tableId : ℕ) (dbName tableName : Bytes) :
    (pairs = [] → Separated gde t f pairs p (mapEvent t tableId dbName tableName)) ∧
    (f.before = f.after →
      (∀ pr ∈ pairs, NoLongJson t f.before pr.before ∧ NoLongJson t f.after pr.after) →
      (Separated gde t f pairs p (mapEvent t tableId dbName tableName) ↔ pairs = [])) ∧
    (¬ Repeats t f pairs →
      (Separated gde t f pairs p (mapEvent t tableId dbName tableName) ↔ pairs = [])) := by
  have hnil := separated_of_nil h hp tableId dbName tableName
  refine ⟨hnil, fun heq hshort => ⟨?_, hnil⟩, fun hrep => ⟨fun hsep => ?_, hnil⟩⟩
  · exact nil_of_separated h hp tableId dbName tableName heq hshort
  · exact (repeats_of_separated h hp tableId dbName tableName hsep).resolve_right hrep

/-! ### A table of a name and an id -/

/-- An UPDATE event with full images of both columns. -/
def updateFrame (pairs : List Pair) : RowsFrame :=
  ⟨.update, 31, 0, 1, 0, 0, [], .v2 [], 108, 1, 2, [3], [3], pairs.flatMap Pair.bytes, [9, 9, 9, 9]⟩

/-- `UPDATE … SET name = 'b', id = 2` on the row `('a', 1)`. -/
def renamed : Pair := ⟨[0], [some [1, 97], some [1, 0, 0, 0]], [0], [some [1, 98], some [2, 0, 0, 0]]⟩

theorem nameAndId_image {c : UInt8} {id : Bytes} (hid : id.length = 4) :
    RowFormat nameAndId [3] [0] [some [1, c], some id] ∧
      NoLongJson nameAndId [3] [some [1, c], some id] := by
  have hzip : (present 2 [3]).zip [some [1, c], some id] =
      [(0, some [1, c]), (1, (some id : Cell))] := by
    rw [show present 2 [3] = [0, 1] by decide]
    rfl
  have hmask : NullMask [0] [some [1, c], some id] := by
    refine ⟨by simp, fun j hj => ?_⟩
    have hj' : j = 0 ∨ j = 1 := by simp only [List.length_cons, List.length_nil] at hj; omega
    rcases hj' with rfl | rfl <;> rfl
  have himage : ImageOk 2 [3] := ⟨by decide, by decide, by decide⟩
  have hcol : nameAndId.full.column 0 = .ok (15, 10) ∧ nameAndId.full.column 1 = .ok (3, 0) := by
    decide
  refine ⟨⟨himage, by simp [nameAndId, length_present]; decide, hmask, ?_, ?_⟩, ?_⟩
  · intro x hx bs hbs
    rw [show nameAndId.colType.length = 2 from rfl, hzip] at hx
    rcases List.mem_pair.mp hx with rfl | rfl
    · obtain rfl : [1, c] = bs := by simpa using hbs
      exact ⟨15, 10, hcol.1, [c], by simp, rfl⟩
    · obtain rfl : id = bs := by simpa using hbs
      exact ⟨3, 0, hcol.2, hid⟩
  · simp [fields, hid]
  · intro x hx bs hbs type fmeta hcol hjson
    rw [show nameAndId.colType.length = 2 from rfl, hzip] at hx
    rcases List.mem_pair.mp hx with rfl | rfl
    · obtain rfl : [1, c] = bs := by simpa using hbs
      simp
    · obtain rfl : id = bs := by simpa using hbs
      omega

theorem renamed_encodes (pairs : List Pair) (hpairs : ∀ pr ∈ pairs, pr = renamed)
    (hsize : (updateFrame pairs).size < 2 ^ 32) :
    Encodes description nameAndId (updateFrame pairs) pairs := by
  have himage : ImageOk 2 [3] := ⟨by decide, by decide, by decide⟩
  have hpost : description.postHeader 31 = .ok 10 := by decide
  have htype : 31 < 256 ∧ 0 < 2 ^ 32 := by decide
  refine ⟨⟨htype.1, htype.2, rfl, hpost, Or.inl rfl, himage, fun _ => himage, rfl, hsize⟩, rfl, rfl, rfl,
    ?_, ?_⟩
  · intro pr hpr
    rw [hpairs pr hpr]
    exact (nameAndId_image rfl).1
  · intro pr hpr
    rw [hpairs pr hpr]
    exact (nameAndId_image rfl).1

theorem separated_iff_renamed :
    Separated description nameAndId (updateFrame []) [] ⟨0, (updateFrame []).bytes ++ [0]⟩
      (mapEvent nameAndId 108 [116] [117]) ∧
    ¬ Separated description nameAndId (updateFrame [renamed]) [renamed]
      ⟨0, (updateFrame [renamed]).bytes ++ [0]⟩ (mapEvent nameAndId 108 [116] [117]) := by
  have h0 := renamed_encodes [] (by simp) (by decide)
  have h1 := renamed_encodes [renamed] (by simp) (by decide)
  refine ⟨(separated_iff h0 rfl 108 [116] [117]).1 rfl, ?_⟩
  have hiff := (separated_iff h1 (p := ⟨0, (updateFrame [renamed]).bytes ++ [0]⟩) rfl 108 [116]
    [117]).2.1 rfl fun pr hpr => by
      rw [List.mem_singleton.mp hpr]
      exact ⟨(nameAndId_image rfl).2, (nameAndId_image rfl).2⟩
  rw [hiff]
  simp

/-- One row pair with full images: the after entry is the before entry and the after image. -/
theorem renamed_mixed : ¬ ∀ (gde : CHeaderEvent) (t : Table) (f : RowsFrame) (pairs : List Pair)
    (p : Ptr) (rest : Bytes) (tableId : ℕ) (dbName tableName : Bytes), Encodes gde t f pairs →
    p.data = f.bytes ++ rest → Separated gde t f pairs p (mapEvent t tableId dbName tableName) := by
  intro h
  have henc := renamed_encodes [renamed] (by simp) (by decide)
  have hsep := h description nameAndId (updateFrame [renamed]) [renamed]
    ⟨0, (updateFrame [renamed]).bytes ++ [0]⟩ [0] 108 [116] [117] henc rfl
  have hnil := nil_of_separated henc rfl 108 [116] [117] rfl (fun pr hpr => by
    rw [List.mem_singleton.mp hpr]
    exact ⟨(nameAndId_image rfl).2, (nameAndId_image rfl).2⟩) hsep
  cases hnil

end DataSync.Binlog.UpdateImages
