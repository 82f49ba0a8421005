import DataSync.Binlog.RoundTrip

/-! # UPDATE events with full images

When both images of an UPDATE have the same columns, reading the after image under the before bitmap does no
harm, and only one thing is left of what the loop mixes up: the after image goes behind the before image, into
the vector that holds it. `decodes_pairs` is the decoding of every such event. `printOneRow_prepend`: what the
vector holds stays in front and is not looked at. -/

namespace DataSync.Binlog.FullImages

open DataSync.Lib.Words DataSync.Lib.Memory DataSync.Binlog.Format DataSync.Binlog.Bitmap
open DataSync.Binlog.Field DataSync.Binlog.TableDef DataSync.Binlog.RowsEvent DataSync.Binlog.RowImage
open DataSync.Binlog.Alignment DataSync.Binlog.LogEvent DataSync.Binlog.RowsFormat DataSync.Binlog.RoundTrip

/-! ### What the vector holds -/

section Prepend
variable (values : List RowValue) (td : CTableDef) (cols : MyBitmap)

/-- The state with values in front. -/
def prepend (st : RowState) : RowState := { st with rowValues := values ++ st.rowValues }

theorem printColumn_prepend (nullBits : Ptr) (st : RowState) (i : ℕ) :
    printColumn td cols nullBits (prepend values st) i =
      prepend values <$> printColumn td cols nullBits st i := by
  unfold printColumn prepend
  cases nullBits.read (st.nullBitIndex / 8) with
  | error e => rfl
  | ok byte =>
    simp only [Res.ok_bind]
    cases bitmapIsSet cols i with
    | error e => rfl
    | ok set =>
      simp only [Res.ok_bind]
      cases set with
      | false => rfl
      | true =>
        cases td.column i with
        | error e => rfl
        | ok column =>
          simp only [if_true, Res.ok_bind]
          rw [parseOneRowData_append (values ++ st.rowValues), parseOneRowData_append st.rowValues]
          cases parseOneRowData [] (if byte.toNat.testBit (st.nullBitIndex % 8) then none else some st.value)
            column.1 column.2 with
          | error e => rfl
          | ok r => simp

theorem foldlM_prepend (nullBits : Ptr) (is : List ℕ) (st : RowState) :
    is.foldlM (printColumn td cols nullBits) (prepend values st) =
      prepend values <$> is.foldlM (printColumn td cols nullBits) st := by
  induction is generalizing st with
  | nil => rfl
  | cons i is ih =>
    rw [List.foldlM_cons, List.foldlM_cons, printColumn_prepend]
    cases printColumn td cols nullBits st i with
    | error e => rfl
    | ok st' => exact ih st'

/-- **What the vector holds** stays in front. -/
theorem printOneRow_prepend (n : ℕ) (p : Ptr) : printOneRow values td cols n p =
    (fun r => (values ++ r.1, r.2)) <$> printOneRow [] td cols n p := by
  have hrun (k : ℕ) := foldlM_prepend values td cols p (List.range n) ⟨[], p.add k, 0⟩
  simp only [prepend, List.append_nil] at hrun
  unfold printOneRow
  cases bitmapBitsSet cols with
  | error e => rfl
  | ok k =>
    simp only [Res.ok_bind, hrun]
    cases (List.range n).foldlM (printColumn td cols p) ⟨[], p.add ((k + 7) / 8), 0⟩ with
    | error e => rfl
    | ok st => rfl

end Prepend

/-! ### The rows of an event -/

/-- The loop over pairs of images that are each read back: `bytes` gives an image and `values` what it is
read as. -/
theorem parseRows_pairs {td : CTableDef} {map : MyBitmap} {n limit : ℕ} {α : Type} (bytes : α → Bytes)
    (values : α → List RowValue) {pairs : List (α × α)} {behind : Bytes}
    (hread : ∀ r ∈ pairs, ∀ x, x = r.1 ∨ x = r.2 → bytes x ≠ [] ∧
      ∀ (p : Ptr) (rest : Bytes), rest ≠ [] → p.data = bytes x ++ rest →
        printOneRow [] td map n p = .ok (values x, (bytes x).length))
    (hbehind : behind ≠ []) {fuel : ℕ} (hfuel : pairs.length < fuel) {st : RowsState}
    (hdata : st.ptr.data = pairs.flatMap (fun r => bytes r.1 ++ bytes r.2) ++ behind)
    (hlimit : st.tmpDataLen + (pairs.flatMap fun r => bytes r.1 ++ bytes r.2).length = limit)
    (hlt : limit < 2 ^ 32) : parseRows true td map n limit fuel st =
      .ok ⟨st.before ++ pairs.map fun r => values r.1,
        st.after ++ pairs.map fun r => values r.1 ++ values r.2,
        st.ptr.add (pairs.flatMap fun r => bytes r.1 ++ bytes r.2).length, limit⟩ := by
  induction pairs generalizing fuel st with
  | nil =>
    obtain ⟨fuel, rfl⟩ : ∃ k, fuel = k + 1 :=
      ⟨fuel - 1, by simp only [List.length_nil] at hfuel; omega⟩
    simp only [List.flatMap_nil, List.length_nil, Nat.add_zero] at hlimit
    rw [parseRows, if_neg (by omega), ← hlimit]
    simp
  | cons r pairs ih =>
    obtain ⟨hne, hold⟩ := hread r List.mem_cons_self r.1 (.inl rfl)
    obtain ⟨-, hnew⟩ := hread r List.mem_cons_self r.2 (.inr rfl)
    have hpos : 0 < (bytes r.1).length := List.length_pos_iff.mpr hne
    obtain ⟨fuel, rfl⟩ : ∃ k, fuel = k + 1 := ⟨fuel - 1, by omega⟩
    rw [List.flatMap_cons, List.append_assoc, List.append_assoc] at hdata
    rw [List.flatMap_cons, List.length_append, List.length_append] at hlimit
    have hrow := hold st.ptr _ (by simp [hbehind]) hdata
    have hrow' : printOneRow (values r.1) td map n (st.ptr.add (bytes r.1).length) =
        .ok (values r.1 ++ values r.2, (bytes r.2).length) := by
      have hrest := hnew (st.ptr.add (bytes r.1).length) _ (by simp [hbehind]) (Ptr.add_at hdata rfl)
      rw [printOneRow_prepend, hrest, Res.map_ok]
    have hmod : (st.tmpDataLen + (bytes r.1).length) % 2 ^ 32 = st.tmpDataLen + (bytes r.1).length :=
      Nat.mod_eq_of_lt (by omega)
    have hmod' : (st.tmpDataLen + (bytes r.1).length + (bytes r.2).length) % 2 ^ 32 =
        st.tmpDataLen + (bytes r.1).length + (bytes r.2).length := Nat.mod_eq_of_lt (by omega)
    have hstep : parseRow true td map n st = .ok ⟨st.before ++ [values r.1],
        st.after ++ [values r.1 ++ values r.2], (st.ptr.add (bytes r.1).length).add (bytes r.2).length,
        st.tmpDataLen + (bytes r.1).length + (bytes r.2).length⟩ := by
      unfold parseRow
      rw [hrow, Res.ok_bind]
      simp only [if_true, hrow', Res.ok_bind, Res.pure_eq, hmod, hmod']
    have hnext : parseRows true td map n limit fuel ⟨st.before ++ [values r.1],
        st.after ++ [values r.1 ++ values r.2], (st.ptr.add (bytes r.1).length).add (bytes r.2).length,
        st.tmpDataLen + (bytes r.1).length + (bytes r.2).length⟩ = _ :=
      ih (fun r hr => hread r (List.mem_cons_of_mem _ hr)) (by simp only [List.length_cons] at hfuel; omega)
        (by rw [Ptr.add_add]
            exact Ptr.add_at (by rw [hdata, List.append_assoc]) List.length_append.symm)
        (by simp only; omega)
    rw [parseRows, if_pos (by omega), hstep, Res.ok_bind, hnext]
    simp only [List.map_cons, List.append_assoc, List.singleton_append, Ptr.add_add, List.flatMap_cons,
      List.length_append, Nat.add_assoc]

/-- The bytes of an image: its null bitmap and its values. -/
def imageBytes (t : Table) (image : Bytes) (x : Bytes × List (Option Datum)) : Bytes :=
  rowBytes t image x.1 x.2

/-- An image as it is read. -/
def imageValues (t : Table) (image : Bytes) (x : Bytes × List (Option Datum)) : List RowValue :=
  rowValues Datum.read t image x.2

/-- The frame is an UPDATE event of the table that holds the pairs of images, all of the same columns; the
table definition has its metadata words and at least one column is present. -/
structure EncodesPairs (gde : CHeaderEvent) (t : Table) (f : RowsFrame)
    (pairs : List ((Bytes × List (Option Datum)) × (Bytes × List (Option Datum)))) : Prop where
  ok : f.Ok gde
  kind : f.kind = .update
  columns : f.columnCount = t.colType.length
  metadata : t.metadata ≠ []
  somePresent : present t.colType.length f.before ≠ []
  full : f.after = f.before
  frameRows : f.rows = pairs.flatMap fun r => imageBytes t f.before r.1 ++ imageBytes t f.before r.2
  fits : ∀ r ∈ pairs, RowFits t f.before r.1.1 r.1.2 ∧ RowFits t f.before r.2.1 r.2.2

/-- **An UPDATE event with full images** is decoded to its pairs of rows, the after entry of each with the
before image in front. -/
theorem decodes_pairs {gde : CHeaderEvent} {t : Table} {f : RowsFrame}
    {pairs : List ((Bytes × List (Option Datum)) × (Bytes × List (Option Datum)))}
    (h : EncodesPairs gde t f pairs) {p : Ptr} {rest : Bytes} (hp : p.data = f.bytes ++ rest)
    {cols : MyBitmap} (hcols : loadBitmap f.columnCount f.before = .ok cols) :
    parseRows true t.tableDef cols t.colType.length f.rows.length ((p.add f.rowsPos).data.length + 2)
      ⟨[], [], p.add f.rowsPos, 0⟩ =
    .ok ⟨pairs.map fun r => imageValues t f.before r.1,
      pairs.map fun r => imageValues t f.before r.1 ++ imageValues t f.before r.2,
      (p.add f.rowsPos).add f.rows.length, f.rows.length⟩ := by
  have hlt := h.ok.rows_lt
  have hdata := rows_frame hp
  have hfits : ∀ r ∈ pairs, ∀ x, x = r.1 ∨ x = r.2 → RowFits t f.before x.1 x.2 := by
    rintro r hr x (rfl | rfl)
    · exact (h.fits r hr).1
    · exact (h.fits r hr).2
  have himage : ImageOk t.colType.length f.before := h.columns ▸ h.ok.before
  have hcols' : loadBitmap t.colType.length f.before = .ok cols := h.columns ▸ hcols
  have hne : ∀ r ∈ pairs, ∀ x, x = r.1 ∨ x = r.2 → imageBytes t f.before x ≠ [] := fun r hr x hx =>
    rowBytes_ne_nil (hfits r hr x hx) h.somePresent
  -- every image is part of the rows, hence small enough
  have himageLe : ∀ r ∈ pairs, ∀ x, x = r.1 ∨ x = r.2 →
      (imageBytes t f.before x).length ≤ f.rows.length := by
    intro r hr x hx
    have hpair := length_le_flatMap_of_mem
      (f := fun r => imageBytes t f.before r.1 ++ imageBytes t f.before r.2) hr
    rw [← h.frameRows, List.length_append] at hpair
    rcases hx with rfl | rfl <;> omega
  have hcount : pairs.length ≤ f.rows.length := by
    rw [h.frameRows]
    exact length_le_flatMap fun r hr => List.append_ne_nil_of_left_ne_nil (hne r hr r.1 (.inl rfl)) _
  have hrun : parseRows true t.tableDef cols t.colType.length f.rows.length
      ((p.add f.rowsPos).data.length + 2) ⟨[], [], p.add f.rowsPos, 0⟩ = _ := parseRows_pairs
    (imageBytes t f.before) (imageValues t f.before)
    (fun r hr x hx => ⟨hne r hr x hx, fun q rest' hrest' hq => printOneRow_row (hfits r hr x hx)
      h.metadata himage hcols' (lt_of_le_of_lt (himageLe r hr x hx) hlt) hrest' hq⟩)
    (h.ok.behind_ne_nil rest) (by rw [hdata, List.length_append]; omega)
    (by rw [← h.frameRows]; exact hdata) (by rw [← h.frameRows]; exact Nat.zero_add _) hlt
  rw [← h.frameRows] at hrun
  exact hrun

end DataSync.Binlog.FullImages
