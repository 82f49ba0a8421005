import DataSync.Binlog.Field

/-! # Table definitions

`TableDef.cpp`: the column types of a TABLE_MAP event and one metadata word per column, cut out of the
event's metadata bytes. `type` looks into the metadata word of every column, so a definition without
metadata words faults on its first column. -/

namespace DataSync.Binlog.TableDef

open DataSync.Lib.Words DataSync.Lib.Memory DataSync.Binlog.Format

/-- `CTableDef`. An indeterminate `m_field_metadata_size` is `none`. -/
structure CTableDef where
  columnType : Bytes
  fieldMetadataSize : Option ℕ
  fieldMetadata : List ℕ
  deriving DecidableEq, Repr

/-- One round of the constructor's loop: the metadata word of a column and the next index into the
metadata bytes. -/
def metadataWord (fieldMetadata : Bytes) (index : ℕ) (type : FieldType) : Res (ℕ × ℕ) := do
  let byte (k : ℕ) : Res ℕ := UInt8.toNat <$> Res.ofOption fieldMetadata[k]?
  match type with
  | .tinyBlob | .blob | .mediumBlob | .longBlob | .double | .float | .geometry | .json
  | .time2 | .datetime2 | .timestamp2 =>
    return (← byte index, index + 1)
  | .set | .enum | .string | .newdecimal =>
    return ((← byte index) * 256 + (← byte (index + 1)), index + 2)
  | .bit | .varchar =>
    return ((← byte index) + (← byte (index + 1)) * 256, index + 2)
  | _ => return (0, index)

/-- The constructor's loop. -/
def metadataWords (fieldMetadata : Bytes) : ℕ → List UInt8 → Res (List ℕ)
  | _, [] => .ok []
  | index, t :: types => do
    let (x, index) ← metadataWord fieldMetadata index (FieldType.ofCode t.toNat)
    return x :: (← metadataWords fieldMetadata index types)

/-- The constructor of `CTableDef`. -/
def CTableDef.new (colType : Bytes) (colSize : Option ℕ) (fieldMetadata : Bytes)
    (metadataSize : Option ℕ) : Res CTableDef := do
  if (← Res.ofOption colSize) = 0 then return ⟨colType, metadataSize, []⟩
  if (← Res.ofOption metadataSize) = 0 then return ⟨colType, metadataSize, []⟩
  return ⟨colType, metadataSize, ← metadataWords fieldMetadata 0 colType⟩

/-- `CTableDef::type`. -/
def CTableDef.type (td : CTableDef) (index : ℕ) : Res ℕ := do
  let sourceType := (← Res.ofOption td.columnType[index]?).toNat
  let sourceMetadata ← Res.ofOption td.fieldMetadata[index]?
  match FieldType.ofCode sourceType with
  | .string =>
    let realType := sourceMetadata >>> 8
    return if realType = 247 ∨ realType = 248 then realType else sourceType
  | .date => return 14
  | _ => return sourceType

/-- `CTableDef::field_metadata`. -/
def CTableDef.fieldMeta (td : CTableDef) (index : ℕ) : Res ℕ := do
  if (← Res.ofOption td.fieldMetadataSize) ≠ 0 then Res.ofOption td.fieldMetadata[index]?
  else return 0

/-- The type and the metadata word of column `index`, as `printOneRow` looks them up. -/
def CTableDef.column (td : CTableDef) (index : ℕ) : Res (ℕ × ℕ) := do
  return (← td.type index, ← td.fieldMeta index)

end DataSync.Binlog.TableDef
