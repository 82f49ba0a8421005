import DataSync.Lib.Memory

/-! # The binary log format: constants and type codes

The constants of `binlog_event.h` and `log_event.h`, the event types of `Log_event_type`, the column
types of `enum_field_types` and the states an event's `loadEvent` and `parseEvent` return. Type codes
are bytes of the input, so a code outside the enumeration is an `undefined` one, never an error. -/

namespace DataSync.Binlog.Format

open DataSync.Lib.Words

/-- `BINLOG_MAGIC`: the four bytes every binary log begins with. -/
def binlogMagic : Bytes := [0xfe, 0x62, 0x69, 0x6e]

/-- `LOG_EVENT_HEADER_LEN` and `LOG_EVENT_MINIMAL_HEADER_LEN`. -/
def logEventHeaderLen : ℕ := 19

/-- `EVENT_TYPE_OFFSET`. -/
def eventTypeOffset : ℕ := 4

/-- `EVENT_LEN_OFFSET`. -/
def eventLenOffset : ℕ := 9

/-- `ST_SERVER_VER_LEN`. -/
def stServerVerLen : ℕ := 50

/-- `ENUM_END_EVENT`, the end marker of `Log_event_type`. -/
def enumEndEvent : ℕ := 39

/-- `QUERY_HEADER_MINIMAL_LEN`. -/
def queryHeaderMinimalLen : ℕ := 11

/-- `TABLE_MAP_HEADER_LEN`. -/
def tableMapHeaderLen : ℕ := 8

/-- `ROWS_HEADER_LEN_V2`. -/
def rowsHeaderLenV2 : ℕ := 10

/-- `NAME_LEN`. -/
def nameLen : ℕ := 192

/-- `MAX_DBS_IN_EVENT_MTS`. -/
def maxDbsInEventMts : ℕ := 16

/-- `MAX_SIZE_LOG_EVENT_STATUS`. -/
def maxSizeLogEventStatus : ℕ :=
  (1 + 4) + (1 + 8) + (1 + 1 + 255) + (1 + 4) + (1 + 6) + (1 + 1 + 255) + (1 + 2) + (1 + 2) +
    (1 + 8) + (1 + 4) + (1 + maxDbsInEventMts * (1 + nameLen)) + 3 + (1 + 32 * 3 + 1 + 60)

/-! ### Event types -/

/-- The event types the parser and the header scan tell apart. -/
inductive EventType where
  | unknown | startV3 | query | stop | rotate | load | newLoad | formatDescription | tableMap
  | writeRowsV1 | updateRowsV1 | deleteRowsV1 | writeRows | updateRows | deleteRows
  | previousGtids
  | other (code : ℕ)
  deriving DecidableEq, Repr

/-- The event type of a type byte. -/
def EventType.ofCode : ℕ → EventType
  | 0 => .unknown
  | 1 => .startV3
  | 2 => .query
  | 3 => .stop
  | 4 => .rotate
  | 6 => .load
  | 12 => .newLoad
  | 15 => .formatDescription
  | 19 => .tableMap
  | 23 => .writeRowsV1
  | 24 => .updateRowsV1
  | 25 => .deleteRowsV1
  | 30 => .writeRows
  | 31 => .updateRows
  | 32 => .deleteRows
  | 35 => .previousGtids
  | c => .other c

/-- `load_event_state`. -/
inductive LoadState where
  | success | streamUnabled | headerFailed | eventLengthTooSmall | mapHeaderLenError
  | fieldMetaSizeTooBig | extraHeaderLenTooSmall | findTablemapFailed
  deriving DecidableEq, Repr

/-! ### Column types -/

/-- `enum_field_types`. -/
inductive FieldType where
  | decimal | tiny | short | long | float | double | null | timestamp | longlong | int24 | date
  | time | datetime | year | newdate | varchar | bit | timestamp2 | datetime2 | time2
  | json | newdecimal | enum | set | tinyBlob | mediumBlob | longBlob | blob | varString | string
  | geometry
  | undefined (code : ℕ)
  deriving DecidableEq, Repr

/-- The column type of a type code. -/
def FieldType.ofCode : ℕ → FieldType
  | 0 => .decimal
  | 1 => .tiny
  | 2 => .short
  | 3 => .long
  | 4 => .float
  | 5 => .double
  | 6 => .null
  | 7 => .timestamp
  | 8 => .longlong
  | 9 => .int24
  | 10 => .date
  | 11 => .time
  | 12 => .datetime
  | 13 => .year
  | 14 => .newdate
  | 15 => .varchar
  | 16 => .bit
  | 17 => .timestamp2
  | 18 => .datetime2
  | 19 => .time2
  | 245 => .json
  | 246 => .newdecimal
  | 247 => .enum
  | 248 => .set
  | 249 => .tinyBlob
  | 250 => .mediumBlob
  | 251 => .longBlob
  | 252 => .blob
  | 253 => .varString
  | 254 => .string
  | 255 => .geometry
  | c => .undefined c

end DataSync.Binlog.Format
