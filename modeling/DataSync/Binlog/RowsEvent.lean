import DataSync.Binlog.Bitmap
import DataSync.Binlog.TableDef

/-! # Row images

`CRowsEvent::printOneRow` and the loop of `CRowsEvent::parseEvent`: a row image is a null bitmap over
the present columns followed by the fields that are not NULL, in column order. -/

namespace DataSync.Binlog.RowsEvent

open DataSync.Lib.Words DataSync.Lib.Memory DataSync.Binlog.Bitmap DataSync.Binlog.Field
open DataSync.Binlog.TableDef

/-- What `printOneRow` carries from column to column. -/
structure RowState where
  rowValues : List RowValue
  value : Ptr
  nullBitIndex : ℕ
  deriving DecidableEq, Repr

/-- One round of `printOneRow`. The null bit is read before the column is known to be present. -/
def printColumn (td : CTableDef) (cols : MyBitmap) (nullBits : Ptr) (st : RowState) (i : ℕ) :
    Res RowState := do
  let byte ← nullBits.read (st.nullBitIndex / 8)
  let isNull := byte.toNat.testBit (st.nullBitIndex % 8)
  if ← bitmapIsSet cols i then
    let (type, fmeta) ← td.column i
    let ptrData := if isNull then none else some st.value
    let (rowValues, rowSize) ← parseOneRowData st.rowValues ptrData type fmeta
    return ⟨rowValues, st.value.add rowSize, st.nullBitIndex + 1⟩
  else return st

/-- **What one round can do**: pass over a column that is not present, or read one, moving on behind it. -/
theorem printColumn_cases {td : CTableDef} {cols : MyBitmap} {nullBits : Ptr} {st st' : RowState} {i : ℕ}
    (h : printColumn td cols nullBits st i = .ok st') :
    ∃ byte, nullBits.read (st.nullBitIndex / 8) = .ok byte ∧
      (bitmapIsSet cols i = .ok false ∧ st' = st ∨
        bitmapIsSet cols i = .ok true ∧ ∃ column r, td.column i = .ok column ∧
          parseOneRowData st.rowValues (if byte.toNat.testBit (st.nullBitIndex % 8) then none else some st.value)
            column.1 column.2 = .ok r ∧
          st' = ⟨r.1, st.value.add r.2, st.nullBitIndex + 1⟩) := by
  obtain ⟨byte, hbyte, h⟩ := Res.bind_eq_ok.mp h
  obtain ⟨_ | _, hset, h⟩ := Res.bind_eq_ok.mp h
  · exact ⟨byte, hbyte, .inl ⟨hset, (Except.ok.inj h).symm⟩⟩
  · obtain ⟨column, hcolumn, h⟩ := Res.bind_eq_ok.mp h
    obtain ⟨r, hr, h⟩ := Res.bind_eq_ok.mp h
    exact ⟨byte, hbyte, .inr ⟨hset, column, r, hcolumn, hr, (Except.ok.inj h).symm⟩⟩

/-- `printOneRow`: the row with the values of the image at `value` behind it, and the image's
length. -/
def printOneRow (rowValues : List RowValue) (td : CTableDef) (cols : MyBitmap) (columnCount : ℕ)
    (value : Ptr) : Res (List RowValue × ℕ) := do
  let nullBytes := ((← bitmapBitsSet cols) + 7) / 8
  let st ← (List.range columnCount).foldlM (printColumn td cols value)
    ⟨rowValues, value.add nullBytes, 0⟩
  return (st.rowValues, (st.value.addr - value.addr) % 2 ^ 32)

/-- The parts of a row that was printed: its columns have been counted and gone through. -/
theorem printOneRow_cases {rowValues : List RowValue} {td : CTableDef} {cols : MyBitmap} {n : ℕ} {value : Ptr}
    {r : List RowValue × ℕ} (h : printOneRow rowValues td cols n value = .ok r) :
    ∃ k st, bitmapBitsSet cols = .ok k ∧
      (List.range n).foldlM (printColumn td cols value) ⟨rowValues, value.add ((k + 7) / 8), 0⟩ = .ok st ∧
      r = (st.rowValues, (st.value.addr - value.addr) % 2 ^ 32) := by
  obtain ⟨k, hk, h⟩ := Res.bind_eq_ok.mp h
  obtain ⟨st, hst, h⟩ := Res.bind_eq_ok.mp h
  exact ⟨k, st, hk, hst, (Except.ok.inj h).symm⟩

/-- The rows read so far and the read position. -/
structure RowsState where
  before : List (List RowValue)
  after : List (List RowValue)
  ptr : Ptr
  tmpDataLen : ℕ
  deriving DecidableEq, Repr

/-- One round of the loop of `parseEvent`: an UPDATE reads the after image into the vector that still
holds the before image, under the before-image bitmap. -/
def parseRow (update : Bool) (td : CTableDef) (cols : MyBitmap) (columnCount : ℕ) (st : RowsState) :
    Res RowsState := do
  let (tmpValue, rowLength) ← printOneRow [] td cols columnCount st.ptr
  let st := { st with
    before := st.before ++ [tmpValue]
    ptr := st.ptr.add rowLength
    tmpDataLen := (st.tmpDataLen + rowLength) % 2 ^ 32 }
  if update then
    let (tmpValue, rowLength) ← printOneRow tmpValue td cols columnCount st.ptr
    return { st with
      after := st.after ++ [tmpValue]
      ptr := st.ptr.add rowLength
      tmpDataLen := (st.tmpDataLen + rowLength) % 2 ^ 32 }
  else return st

/-- **What a round can do**: print one image, or for an UPDATE a second one behind it. -/
theorem parseRow_cases {update : Bool} {td : CTableDef} {cols : MyBitmap} {n : ℕ} {st st' : RowsState}
    (h : parseRow update td cols n st = .ok st') : ∃ first, printOneRow [] td cols n st.ptr = .ok first ∧
      (update = false ∧ st' = ⟨st.before ++ [first.1], st.after, st.ptr.add first.2,
          (st.tmpDataLen + first.2) % 2 ^ 32⟩ ∨
        update = true ∧ ∃ second, printOneRow first.1 td cols n (st.ptr.add first.2) = .ok second ∧
          st' = ⟨st.before ++ [first.1], st.after ++ [second.1], (st.ptr.add first.2).add second.2,
            ((st.tmpDataLen + first.2) % 2 ^ 32 + second.2) % 2 ^ 32⟩) := by
  obtain ⟨first, hfirst, h⟩ := Res.bind_eq_ok.mp h
  refine ⟨first, hfirst, ?_⟩
  cases update with
  | false => exact .inl ⟨rfl, (Except.ok.inj h).symm⟩
  | true =>
    obtain ⟨second, hsecond, h⟩ := Res.bind_eq_ok.mp h
    exact .inr ⟨rfl, second, hsecond, (Except.ok.inj h).symm⟩

/-- The loop of `parseEvent`. A round that reads nothing leaves the loop's state as it was and the
loop never ends; every other round moves the read position, so a loop that has not ended within as
many rounds as there are bytes never does. -/
def parseRows (update : Bool) (td : CTableDef) (cols : MyBitmap) (columnCount limit : ℕ) :
    ℕ → RowsState → Res RowsState
  | 0, _ => .error .hang
  | fuel + 1, st =>
    if st.tmpDataLen < limit then do
      parseRows update td cols columnCount limit fuel
        (← parseRow update td cols columnCount st)
    else .ok st

end DataSync.Binlog.RowsEvent
