import DataSync.Binlog.FieldFormat
import DataSync.Binlog.RowsEvent

/-! # Row images, cell by cell

A row image over the present columns is a null bitmap, one bit per present column, and the bytes of the
cells that are not NULL. `parseCells` decodes the cells one by one, each from its own bytes; `CellOk`
says that a cell is decoded from its own bytes and to their end.

`printOneRow_image`: on an image of such cells `printOneRow` appends what the cells decode to and takes
exactly the image. The present-column index and the null-bit index advance at different rates: the
induction is on the columns, and the null bits still to come are those of the cells still to come. -/

namespace DataSync.Binlog.RowImage

open DataSync.Lib.Words DataSync.Lib.Memory DataSync.Binlog.Bitmap DataSync.Binlog.Format
open DataSync.Binlog.Field DataSync.Binlog.FieldFormat DataSync.Binlog.TableDef
open DataSync.Binlog.RowsEvent

/-- A cell of a row: NULL, or the bytes of its field. -/
abbrev Cell := Option Bytes

/-- The bytes a cell takes behind the null bitmap. -/
def Cell.bytes (c : Cell) : Bytes := c.getD []

@[simp] theorem Cell.bytes_none : Cell.bytes none = [] := rfl

@[simp] theorem Cell.bytes_some (bs : Bytes) : Cell.bytes (some bs) = bs := rfl

/-- The fields of a row. -/
def fields (cells : List Cell) : Bytes := cells.flatMap Cell.bytes

/-- The columns that are present. -/
def present (n : ℕ) (image : Bytes) : List ℕ := (List.range n).filter (bitAt image)

theorem length_present (n : ℕ) (image : Bytes) : (present n image).length = bitCount image n :=
  List.countP_eq_length_filter.symm

/-- A null bitmap over the cells of a row; the bits behind the last cell are arbitrary. -/
structure NullMask (mask : Bytes) (cells : List Cell) : Prop where
  length : mask.length = (cells.length + 7) / 8
  bit : ∀ (j : ℕ) (h : j < cells.length), bitAt mask j = cells[j].isNone

/-- What the cells decode to, each from its own bytes. -/
def parseCells (td : CTableDef) : ℕ → List (ℕ × Cell) → Res (List RowValue)
  | _, [] => .ok []
  | a, (i, c) :: cells => do
    let (type, fmeta) ← td.column i
    let (values, _) ← parseOneRowData [] (c.map (Ptr.mk a)) type fmeta
    return values ++ (← parseCells td (a + c.bytes.length) cells)

/-- The cell is decoded from its own bytes and to their end, wherever they are. -/
def CellOk (td : CTableDef) (i : ℕ) (c : Cell) : Prop :=
  ∃ type fmeta, td.column i = .ok (type, fmeta) ∧
    ∀ a, ∃ values, parseOneRowData [] (c.map (Ptr.mk a)) type fmeta = .ok (values, c.bytes.length)

/-! ### One cell -/

theorem parseOneRowData_append (rowValues : List RowValue) (ptrData : Option Ptr) (type fmeta : ℕ) :
    parseOneRowData rowValues ptrData type fmeta =
      (fun r => (rowValues ++ r.1, r.2)) <$> parseOneRowData [] ptrData type fmeta := by
  unfold parseOneRowData
  cases hr : resolveType type fmeta with
  | mk type length =>
    cases ptrData with
    | none => rfl
    | some p =>
      simp only
      cases hf : parseField p (FieldType.ofCode type) fmeta length with
      | error e => rfl
      | ok r =>
        obtain ⟨v, n⟩ := r
        cases v with
        | none => simp
        | some v => rfl

theorem parseOneRowData_le {p q : Ptr} (h : Ptr.Extends p q) (rowValues : List RowValue)
    (type fmeta : ℕ) : Res.Le (parseOneRowData rowValues (some p) type fmeta)
      (parseOneRowData rowValues (some q) type fmeta) := by
  unfold parseOneRowData
  exact (parseField_le h _ _ _).bind fun _ => Res.Le.refl _

/-- A cell in its row: what is behind it does not matter, and its values go behind those before it. -/
theorem parseOneRowData_cell {c : Cell} {type fmeta : ℕ} {values : List RowValue} {a : ℕ}
    (h : parseOneRowData [] (c.map (Ptr.mk a)) type fmeta = .ok (values, c.bytes.length))
    (rowValues : List RowValue) (rest : Bytes) :
    parseOneRowData rowValues (if c.isNone then none else some ⟨a, c.bytes ++ rest⟩) type fmeta =
      .ok (rowValues ++ values, c.bytes.length) := by
  rw [parseOneRowData_append]
  cases c with
  | none =>
    simp only [Option.isNone_none, if_true]
    rw [show parseOneRowData [] none type fmeta = _ from h]
    rfl
  | some bs =>
    have hle := parseOneRowData_le (Ptr.extends_append a bs rest) [] type fmeta
    simp only [Option.isNone_some, Bool.false_eq_true, if_false, Cell.bytes_some]
    rw [hle _ h]
    rfl

/-! ### One row -/

theorem fields_cons (c : Cell) (cells : List Cell) : fields (c :: cells) = c.bytes ++ fields cells := by
  simp [fields]

theorem read_bit {p : Ptr} {j : ℕ} (h : j / 8 < p.data.length) :
    ∃ b, p.read (j / 8) = .ok b ∧ b.toNat.testBit (j % 8) = bitAt p.data j := by
  refine ⟨p.data[j / 8], ?_, ?_⟩
  · rw [Ptr.read, List.getElem?_eq_getElem h, Res.ofOption_some]
  · rw [bitAt, List.getD_eq_getElem?_getD, List.getElem?_eq_getElem h, Option.getD_some]

section Row
variable {td : CTableDef} {map : MyBitmap} {image : Bytes} {nullBits : Ptr}

/-- The columns of a row. -/
theorem foldlM_printColumn {is : List ℕ} (hset : ∀ i ∈ is, bitmapIsSet map i = .ok (bitAt image i))
    {cells : List Cell} (hlen : (is.filter (bitAt image)).length = cells.length)
    (hok : ∀ x ∈ (is.filter (bitAt image)).zip cells, CellOk td x.1 x.2) {s : RowState} {rest : Bytes}
    (hdata : s.value.data = fields cells ++ rest)
    (hbits : (s.nullBitIndex + cells.length) / 8 < nullBits.data.length)
    (hnull : ∀ (j : ℕ) (h : j < cells.length),
      bitAt nullBits.data (s.nullBitIndex + j) = cells[j].isNone) :
    ∃ values, parseCells td s.value.addr ((is.filter (bitAt image)).zip cells) = .ok values ∧
      is.foldlM (printColumn td map nullBits) s =
        .ok ⟨s.rowValues ++ values, s.value.add (fields cells).length,
          s.nullBitIndex + cells.length⟩ := by
  induction is generalizing cells s with
  | nil =>
    obtain rfl : cells = [] := by simpa using hlen.symm
    exact ⟨[], rfl, by simp [fields]⟩
  | cons i is ih =>
    obtain ⟨b, hread, hbit⟩ := read_bit (p := nullBits) (j := s.nullBitIndex) (by omega)
    have hi := hset i (by simp)
    have hset' : ∀ i ∈ is, bitmapIsSet map i = .ok (bitAt image i) := fun i h => hset i (by simp [h])
    by_cases hp : bitAt image i = true
    · -- a present column: its cell is the first one
      rw [List.filter_cons_of_pos (by simpa using hp)] at hlen hok ⊢
      match cells, hlen with
      | c :: cells, hlen =>
        simp only [List.length_cons, Nat.add_right_cancel_iff] at hlen
        obtain ⟨type, fmeta, hcol, hcell⟩ := hok (i, c) (by simp)
        obtain ⟨values, hvalues⟩ := hcell s.value.addr
        have hnull0 := hnull 0 (by simp)
        have hval : s.value = ⟨s.value.addr, c.bytes ++ (fields cells ++ rest)⟩ := by
          rw [← List.append_assoc, ← fields_cons, ← hdata]
        have hparse := parseOneRowData_cell hvalues s.rowValues (fields cells ++ rest)
        rw [← hval] at hparse
        have hstep : printColumn td map nullBits s i =
            .ok ⟨s.rowValues ++ values, s.value.add c.bytes.length, s.nullBitIndex + 1⟩ := by
          have hb : b.toNat.testBit (s.nullBitIndex % 8) = c.isNone := by
            rw [hbit]; simpa using hnull0
          unfold printColumn
          simp only [hread, Res.ok_bind, hi, hp, if_true, hcol, hb]
          rw [hparse, Res.ok_bind, Res.pure_eq]
        obtain ⟨vs, hvs, hrun⟩ := ih hset' hlen (fun x hx => hok x (by simp [hx]))
          (s := ⟨s.rowValues ++ values, s.value.add c.bytes.length, s.nullBitIndex + 1⟩)
          (by simp only [Ptr.add_data, hdata, fields_cons, List.append_assoc, List.drop_left])
          (by simp only [List.length_cons] at hbits ⊢; rwa [Nat.add_right_comm, Nat.add_assoc])
          (fun j hj => by
            have h := hnull (j + 1) (by simpa using hj)
            simp only [List.getElem_cons_succ] at h
            rw [← h, Nat.add_assoc, Nat.add_comm 1])
        refine ⟨values ++ vs, ?_, ?_⟩
        · rw [List.zip_cons_cons, parseCells, hcol, Res.ok_bind]
          simp only [Ptr.add_addr] at hvs
          simp only [hvalues, Res.ok_bind, hvs, Res.pure_eq]
        · rw [List.foldlM_cons, hstep, Res.ok_bind, hrun, fields_cons, List.length_cons]
          simp only [Ptr.add_add, List.append_assoc, List.length_append, Except.ok.injEq,
            RowState.mk.injEq, true_and]
          omega
    · -- an absent column: only its null bit is looked at
      have hp' : bitAt image i = false := by simpa using hp
      rw [List.filter_cons_of_neg (by simpa using hp)] at hlen hok ⊢
      have hstep : printColumn td map nullBits s i = .ok s := by
        unfold printColumn
        simp only [hread, Res.ok_bind, hi, hp', Bool.false_eq_true, if_false, Res.pure_eq]
      obtain ⟨vs, hvs, hrun⟩ := ih hset' hlen hok hdata hbits hnull
      exact ⟨vs, hvs, by rw [List.foldlM_cons, hstep, Res.ok_bind, hrun]⟩

end Row

/-- **`printOneRow` on an image**: the values of its cells are appended and exactly the image is
taken. -/
theorem printOneRow_image {td : CTableDef} {n : ℕ} {image : Bytes} (himage : ImageOk n image)
    {map : MyBitmap} (hmap : loadBitmap n image = .ok map) {mask : Bytes} {cells : List Cell}
    (hlen : cells.length = (present n image).length) (hmask : NullMask mask cells)
    (hok : ∀ x ∈ (present n image).zip cells, CellOk td x.1 x.2)
    (rowValues : List RowValue) (a : ℕ) {rest : Bytes} (hrest : rest ≠ []) :
    ∃ values, parseCells td (a + mask.length) ((present n image).zip cells) = .ok values ∧
      printOneRow rowValues td map n ⟨a, mask ++ (fields cells ++ rest)⟩ =
        .ok (rowValues ++ values, (mask.length + (fields cells).length) % 2 ^ 32) := by
  have hbits := bitmapBitsSet_loadBitmap himage hmap
  rw [← length_present, ← hlen] at hbits
  have hml := hmask.length
  have hrestlen : 0 < rest.length := List.length_pos_iff.mpr hrest
  obtain ⟨values, hvalues, hrun⟩ := @foldlM_printColumn td map image
    ⟨a, mask ++ (fields cells ++ rest)⟩ (List.range n)
    (fun i hi => bitmapIsSet_loadBitmap himage hmap (List.mem_range.mp hi)) cells hlen.symm hok
    ⟨rowValues, Ptr.add ⟨a, mask ++ (fields cells ++ rest)⟩ mask.length, 0⟩ rest
    (by simp only [Ptr.add_data, List.drop_left])
    (by simp only [List.length_append]; omega)
    (fun j hj => by
      rw [Nat.zero_add, ← hmask.bit j hj]
      exact bitAt_append (by omega))
  refine ⟨values, hvalues, ?_⟩
  unfold printOneRow
  rw [hbits, Res.ok_bind]
  simp only [← hml, hrun, Res.ok_bind, Res.pure_eq, Ptr.add_add, Ptr.add_addr,
    Nat.add_sub_cancel_left]

end DataSync.Binlog.RowImage
