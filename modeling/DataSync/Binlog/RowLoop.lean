import DataSync.Binlog.RowsBounds
import DataSync.Binlog.ParseLogEntry
import DataSync.Binlog.TableIndex

/-! # When the row loop ends

The loop of `CRowsEvent::parseEvent` counts the bytes its rounds have taken, in 32 bits, up to the bytes
of row data less the four of the checksum. A round of no length leaves the count as it is, and with fewer
than four bytes of row data the bound wraps around. `walk_offset_lt` and `not_roundsMove_of_short`: the
wrapped bound is never reached, since what lies in four bytes is short.

`loopEnds_iff`: the loop ends exactly when every round it comes to lies inside the row data and has a
length; with no column present a round has none. -/

namespace DataSync.Binlog.RowLoop

open DataSync.Lib DataSync.Lib.Words DataSync.Lib.Memory DataSync.Binlog.Format DataSync.Binlog.Bitmap
open DataSync.Binlog.Field DataSync.Binlog.TableDef DataSync.Binlog.RowsEvent DataSync.Binlog.LogEvent
open DataSync.Binlog.RowImage DataSync.Binlog.RowsFormat DataSync.Binlog.TableIndex
open DataSync.Binlog.ParseLogEntry DataSync.Binlog.FieldReads DataSync.Binlog.RowsBounds

/-! ### Loaded events -/

theorem getFieldLength_lt {p : Ptr} {k : ℕ} {r : ℕ × ℕ} (h : getFieldLength p k = .ok r) :
    r.1 < 2 ^ 32 := by
  unfold getFieldLength at h
  obtain ⟨b, -, h⟩ := Res.bind_eq_ok.mp h
  dsimp only at h
  split_ifs at h
  · obtain rfl := Except.ok.inj h
    dsimp only
    omega
  · obtain rfl := Except.ok.inj h
    norm_num
  all_goals
    obtain ⟨x, hx, h⟩ := Res.bind_eq_ok.mp h
    obtain rfl := Except.ok.inj h
    have := Ptr.le_lt hx
    dsimp only
    omega

/-- What a successful load says of the fields the loop uses: the rows begin at `pos`. -/
structure LoadedRows (kind : RowsKind) (p : Ptr) (size : ℕ) (ev : CRowsEvent) (n pos : ℕ)
    (image : Bytes) : Prop where
  kind : ev.kind = kind
  columnCount : ev.columnCount = some n
  count_lt : n < 2 ^ 32
  length : image.length = noBytesInMap n
  cols : loadBitmap n image = .ok ev.cols
  ptrRowsData : ev.ptrRowsData = some (p.add pos)
  rowsDataLen : ev.rowsDataLen = some ((size + 2 ^ 32 - pos % 2 ^ 32) % 2 ^ 32)
  before : ev.rowBeforeValues = []
  after : ev.rowAfterValues = []

theorem loadedRows {gde : CHeaderEvent} {kind : RowsKind} {p : Ptr} {size : ℕ} {ev : CRowsEvent}
    (hsize : p.le eventLenOffset 4 = .ok size)
    (h : CRowsEvent.loadEvent gde kind p = .ok (ev, .success)) :
    ∃ n pos image, LoadedRows kind p size ev n pos image := by
  obtain ⟨header, post, hheader, -, hcases⟩ := CRowsEvent.loadEvent_cases h
  have hheaderSize : header.eventSize = size := by
    obtain ⟨-, -, -, hle⟩ := parseHeader_eq_ok.mp hheader
    exact Except.ok.inj (hle.symm.trans hsize)
  obtain ⟨-, hstate⟩ | ⟨tableId, -, ⟨-, hstate⟩ | ⟨_, n, _, image, _, _, pos, hn, himage, hcols, -, rfl⟩⟩ :=
    hcases
  · cases hstate
  · cases hstate
  · rw [← hheaderSize]
    exact ⟨n, pos, image, rfl, rfl, getFieldLength_lt hn, Ptr.bytes_length himage, hcols, rfl, rfl, rfl, rfl⟩

/-- A loaded bitmap that can be counted is the bitmap of an image with columns. -/
theorem imageOk_of_bitsSet {n k : ℕ} {image : Bytes} {cols : MyBitmap} (hn : n < 2 ^ 32)
    (himage : image.length = noBytesInMap n) (hload : loadBitmap n image = .ok cols)
    (hk : bitmapBitsSet cols = .ok k) : ImageOk n image := by
  unfold loadBitmap at hload
  dsimp only at hload
  split_ifs at hload with hnil hover
  · obtain rfl := Except.ok.inj hload
    cases hk
  · have hpos : 0 < image.length := List.length_pos_iff.mpr hnil
    unfold noBytesInMap noWordsInMap at *
    refine ⟨?_, ?_, ?_⟩ <;> omega

/-! ### Images in a few bytes -/

section Small
variable {td : CTableDef} {cols : MyBitmap} {data : Bytes}

/-- In four bytes of an image there are the null bits of at most thirty-two columns, and the fields
behind them are short. -/
theorem walk_offset_lt (hsmall : data.length ≤ 4)
    (hmeta : ∀ i type fmeta, td.column i = .ok (type, fmeta) → fmeta < 65536) (start : ℕ) (is : List ℕ)
    (hstart : ∀ i ∈ is, bitmapIsSet cols i = .ok true → 0 < start) {w : Walk}
    (hfit : ColumnsFit td cols data is w) (hnulls : w.nulls ≤ 32)
    (hoffset : start ≤ w.offset ∧ w.offset ≤ start + w.nulls * 2 ^ 25) :
    (walk td cols data is w).offset ≤ start + 32 * 2 ^ 25 := by
  induction is generalizing w with
  | nil =>
    show w.offset ≤ _
    omega
  | cons i is ih =>
    obtain ⟨⟨hbyte, hcase⟩, hrest⟩ := hfit
    have hnext : (w.next td cols data i).nulls ≤ 32 ∧ start ≤ (w.next td cols data i).offset ∧
        (w.next td cols data i).offset ≤ start + (w.next td cols data i).nulls * 2 ^ 25 := by
      unfold Walk.next
      rcases hcase with hset | ⟨hset, type, fmeta, hcol, hfield⟩
      · rw [hset]
        exact ⟨hnulls, hoffset⟩
      · rw [hset, hcol]
        dsimp only
        have hone := hstart i List.mem_cons_self hset
        have hstep : (if bitAt data w.nulls = true then 0
            else columnStep (data.drop w.offset) type fmeta) < 2 ^ 25 := by
          split_ifs with hnull
          · norm_num
          · have hfits := hfield.resolve_left hnull
            refine fieldStep_lt (hfits.2.trans ?_) (hmeta i type fmeta hcol)
            rw [List.length_drop]
            omega
        omega
    exact ih (fun j hj => hstart j (List.mem_cons_of_mem _ hj)) hrest hnext.1 hnext.2

/-- **An image in four bytes is short.** -/
theorem imageLength_lt {n : ℕ} {image : Bytes} (himage : ImageOk n image)
    (hload : loadBitmap n image = .ok cols) (hsmall : data.length ≤ 4)
    (hmeta : ∀ i type fmeta, td.column i = .ok (type, fmeta) → fmeta < 65536)
    (hfit : ImageFits td cols data n) : imageLength td cols data n < 2 ^ 31 := by
  have hcount := bitmapBitsSet_loadBitmap himage hload
  have hbytes : nullBytes cols = (bitCount image n + 7) / 8 := by unfold nullBytes; rw [hcount]; rfl
  have hle : bitCount image n ≤ n := by
    rw [← length_present]
    exact (List.length_filter_le _ _).trans (by simp)
  have hlt := himage.lt
  have hstart : ∀ i ∈ List.range n, bitmapIsSet cols i = .ok true → 0 < nullBytes cols := by
    intro i hi hset
    have hin := List.mem_range.mp hi
    have hbit : bitAt image i = true := by
      rw [bitmapIsSet_loadBitmap himage hload hin] at hset
      exact Except.ok.inj hset
    have hmem : i ∈ present n image := List.mem_filter.mpr ⟨hi, hbit⟩
    have hpos := List.length_pos_of_mem hmem
    rw [length_present] at hpos
    omega
  have hwalk := walk_offset_lt hsmall hmeta _ _ hstart hfit.2 (Nat.zero_le 32) ⟨le_rfl, by simp⟩
  have := Nat.mod_le (walk td cols data (List.range n) ⟨0, nullBytes cols⟩).offset (2 ^ 32)
  unfold imageLength
  omega

end Small

/-! ### When the loop ends -/

section Progress
variable {update : Bool} {td : CTableDef} {cols : MyBitmap} {n : ℕ} {data : Bytes} {limit : ℕ}

/-- An image of some columns has at least the byte of its first null bits. -/
theorem length_pos_of_imageFits (hn : 0 < n) (h : ImageFits td cols data n) : 0 < data.length := by
  obtain ⟨m, rfl⟩ : ∃ m, n = m + 1 := ⟨n - 1, by omega⟩
  obtain ⟨-, hcols⟩ := h
  rw [List.range_succ_eq_map] at hcols
  have hbyte := hcols.1.1
  omega

/-- Every round the loop comes to lies inside the row data and moves on. -/
def RoundsMove (update : Bool) (td : CTableDef) (cols : MyBitmap) (n : ℕ) (data : Bytes) (limit : ℕ) :
    Prop :=
  ∀ k, Comes update td cols n data limit k →
    RoundFits update td cols n (data.drop (position update td cols n data k)) ∧
      roundLength update td cols n (data.drop (position update td cols n data k)) ≠ 0

/-- A round that does not move is made over and over. -/
theorem position_still {k : ℕ}
    (h : roundLength update td cols n (data.drop (position update td cols n data k)) = 0) (j : ℕ) :
    position update td cols n data (k + j) = position update td cols n data k := by
  induction j with
  | zero => rfl
  | succ j ih => rw [← Nat.add_assoc, position, ih, h, Nat.add_zero]

/-- Rounds that move leave a byte behind each. -/
theorem le_position {k : ℕ}
    (h : ∀ j < k, roundLength update td cols n (data.drop (position update td cols n data j)) ≠ 0) :
    k ≤ position update td cols n data k := by
  induction k with
  | zero => exact Nat.zero_le _
  | succ k ih =>
    have := ih fun j hj => h j (by omega)
    have := h k (by omega)
    rw [position]
    omega

/-- A loop that ends has made no round that does not move. -/
theorem roundsMove_of_endsBehind {k : ℕ} (hend : EndsBehind update td cols n data limit k)
    (hfits : ∀ j < k, RoundFits update td cols n (data.drop (position update td cols n data j))) :
    RoundsMove update td cols n data limit := by
  intro j hj
  have hlt : j < k := by
    by_contra hge
    have := hj k (by omega)
    have := hend.2
    omega
  refine ⟨hfits j hlt, fun hstill => ?_⟩
  have hpos := position_still hstill (k - j)
  rw [Nat.add_sub_cancel' hlt.le] at hpos
  have := hj j le_rfl
  have := hend.2
  omega

/-- A loop that does not come to some round ends before it. -/
theorem exists_endsBehind {m : ℕ} (h : ¬ Comes update td cols n data limit m) :
    ∃ k ≤ m, EndsBehind update td cols n data limit k := by
  obtain ⟨j, hj, hge⟩ : ∃ j ≤ m, limit ≤ position update td cols n data j % 2 ^ 32 := by
    simpa [Comes] using h
  have hex : ∃ j, limit ≤ position update td cols n data j % 2 ^ 32 := ⟨j, hge⟩
  classical
  refine ⟨Nat.find hex, (Nat.find_min' hex hge).trans hj, fun i hi => ?_, Nat.find_spec hex⟩
  exact not_le.mp (Nat.find_min hex hi)

/-- A round in four bytes of row data moves by little. -/
theorem roundLength_lt {image : Bytes} (himage : ImageOk n image) (hload : loadBitmap n image = .ok cols)
    (hsmall : data.length ≤ 4)
    (hmeta : ∀ i type fmeta, td.column i = .ok (type, fmeta) → fmeta < 65536)
    (hfits : RoundFits update td cols n data) :
    roundLength update td cols n data < 2 ^ 31 + 4 := by
  have hfirst := imageLength_lt himage hload hsmall hmeta hfits.1
  unfold roundLength
  split_ifs with hupdate
  · have hsecond := hfits.2 hupdate
    have hrest := length_pos_of_imageFits himage.pos hsecond
    rw [List.length_drop] at hrest
    have := imageLength_lt himage hload (by rw [List.length_drop]; omega) hmeta hsecond
    omega
  · omega

end Progress

/-- The row data of a loaded event, to the end of its buffer: nothing, or the declared bytes and the
NUL. -/
theorem length_rowData {p : Ptr} {size pos : ℕ} (hbuf : EventBuffer p size) :
    (p.add pos).data.length = 0 ∨
      (p.add pos).data.length = (size + 2 ^ 32 - pos % 2 ^ 32) % 2 ^ 32 + 1 := by
  have hsize := Ptr.le_lt hbuf.header
  have hdata := hbuf.length
  rw [Ptr.add_data, List.length_drop]
  rcases Nat.lt_or_ge size pos with hlt | hge
  · left; omega
  · right
    rw [Nat.mod_eq_of_lt (by omega : pos < 2 ^ 32)]
    omega

section Loop
variable {update : Bool} {td : CTableDef} {cols : MyBitmap} {n : ℕ} {image : Bytes} {data : Bytes} {len : ℕ}
  (hn : n < 2 ^ 32) (himage : image.length = noBytesInMap n) (hload : loadBitmap n image = .ok cols)
  (hdata : data.length = 0 ∨ data.length = len + 1) (hlen : len < 2 ^ 32)
include hn himage hload

/-- A round that lies inside the row data starts inside it. -/
theorem imageOk_of_roundFits {xs : Bytes} (h : RoundFits update td cols n xs) :
    ImageOk n image ∧ 0 < xs.length := by
  obtain ⟨⟨⟨k, hk⟩, hcols⟩, -⟩ := h
  have hok := imageOk_of_bitsSet hn himage hload hk
  exact ⟨hok, length_pos_of_imageFits hok.pos ⟨⟨k, hk⟩, hcols⟩⟩

include hdata

/-- With fewer than four bytes of row data the bound wraps around and is never reached. -/
theorem not_roundsMove_of_short
    (hmeta : ∀ i type fmeta, td.column i = .ok (type, fmeta) → fmeta < 65536) (hshort : len < 4) :
    ¬ RoundsMove update td cols n data (rowsLimit len) := by
  intro hmove
  have hlimit : 2 ^ 32 - 4 ≤ rowsLimit len := by unfold rowsLimit; omega
  have hcomes : ∀ k, Comes update td cols n data (rowsLimit len) k := by
    intro k
    induction k with
    | zero =>
      intro j hj
      obtain rfl : j = 0 := by omega
      rw [position]
      omega
    | succ k ih =>
      intro j hj
      rcases Nat.lt_or_ge j (k + 1) with hlt | hge
      · exact ih j (by omega)
      · obtain rfl : j = k + 1 := by omega
        obtain ⟨hfits, -⟩ := hmove k ih
        obtain ⟨hok, hpos⟩ := imageOk_of_roundFits hn himage hload hfits
        rw [List.length_drop] at hpos
        have := roundLength_lt hok hload (by rw [List.length_drop]; omega) hmeta hfits
        rw [position]
        omega
  have hfour := le_position fun j (_ : j < 4) => (hmove j (hcomes j)).2
  obtain ⟨-, hpos⟩ := imageOk_of_roundFits hn himage hload (hmove 4 (hcomes 4)).1
  rw [List.length_drop] at hpos
  omega

include hlen in
/-- **The loop ends** within as many rounds as there are bytes of row data exactly when every round it
comes to lies inside them and moves on. -/
theorem exists_endsBehind_iff
    (hmeta : ∀ i type fmeta, td.column i = .ok (type, fmeta) → fmeta < 65536) :
    (∃ k < len + 1, EndsBehind update td cols n data (rowsLimit len) k ∧
        ∀ j < k, RoundFits update td cols n (data.drop (position update td cols n data j))) ↔
      RoundsMove update td cols n data (rowsLimit len) := by
  constructor
  · rintro ⟨k, -, hend, hfits⟩
    exact roundsMove_of_endsBehind hend hfits
  · intro hmove
    have hfour : 4 ≤ len := by
      by_contra hshort
      exact not_roundsMove_of_short hn himage hload hdata hmeta (by omega) hmove
    have hlimit : rowsLimit len = len - 4 := by unfold rowsLimit; omega
    -- a round behind `len - 4` others would start behind the bound
    have hstop : ¬ Comes update td cols n data (rowsLimit len) (len - 4) := by
      intro hcomes
      have hpos := le_position fun j (hj : j < len - 4) => (hmove j fun i hi => hcomes i (by omega)).2
      obtain ⟨-, hin⟩ := imageOk_of_roundFits hn himage hload (hmove _ hcomes).1
      have := hcomes (len - 4) le_rfl
      rw [List.length_drop] at hin
      omega
    obtain ⟨k, hk, hend⟩ := exists_endsBehind hstop
    refine ⟨k, by omega, hend, fun j hj => (hmove j fun i hi => hend.1 i (by omega)).1⟩

end Loop

/-- The loop of `parseEvent` on a loaded event ends after at most as many rounds as there are bytes of row
data. -/
def LoopEnds (ev : CRowsEvent) (td : CTableDef) : Prop :=
  ∃ n len ptr st, ev.columnCount = some n ∧ ev.rowsDataLen = some len ∧ ev.ptrRowsData = some ptr ∧
    parseRows (decide (ev.kind = .update)) td ev.cols n (rowsLimit len) (len + 1)
      ⟨ev.rowBeforeValues, ev.rowAfterValues, ptr, 0⟩ = .ok st

/-- Every round that the loop comes to on a loaded event lies inside the row data and moves on. -/
def EveryRoundMoves (ev : CRowsEvent) (td : CTableDef) : Prop :=
  ∀ n len ptr, ev.columnCount = some n → ev.rowsDataLen = some len → ev.ptrRowsData = some ptr →
    RoundsMove (decide (ev.kind = .update)) td ev.cols n ptr.data (rowsLimit len)

/-- **The row loop ends** exactly when every round it comes to lies inside the row data and has a length:
with no column present a round has none, and the loop goes on for ever. -/
theorem loopEnds_iff {gde : CHeaderEvent} {kind : RowsKind} {p : Ptr} {size : ℕ} {ev : CRowsEvent}
    {map : CTableMapEvent} {td : CTableDef} (hbuf : EventBuffer p size)
    (hload : CRowsEvent.loadEvent gde kind p = .ok (ev, .success))
    (htd : map.createTableDef = .ok td) : LoopEnds ev td ↔ EveryRoundMoves ev td := by
  obtain ⟨n, pos, image, h⟩ := loadedRows hbuf.header hload
  have hloop : LoopEnds ev td ↔ ∃ st, parseRows (decide (ev.kind = .update)) td ev.cols n
      (rowsLimit ((size + 2 ^ 32 - pos % 2 ^ 32) % 2 ^ 32)) ((size + 2 ^ 32 - pos % 2 ^ 32) % 2 ^ 32 + 1)
      ⟨ev.rowBeforeValues, ev.rowAfterValues, p.add pos, 0⟩ = .ok st := by
    unfold LoopEnds
    rw [h.columnCount, h.rowsDataLen, h.ptrRowsData]
    constructor
    · rintro ⟨_, _, _, st, hn, hl, hp, hst⟩
      obtain rfl := Option.some.inj hn
      obtain rfl := Option.some.inj hl
      obtain rfl := Option.some.inj hp
      exact ⟨st, hst⟩
    · rintro ⟨st, hst⟩
      exact ⟨_, _, _, st, rfl, rfl, rfl, hst⟩
  have hmoves : EveryRoundMoves ev td ↔ RoundsMove (decide (ev.kind = .update)) td ev.cols n
      (p.add pos).data (rowsLimit ((size + 2 ^ 32 - pos % 2 ^ 32) % 2 ^ 32)) := by
    unfold EveryRoundMoves
    rw [h.columnCount, h.rowsDataLen, h.ptrRowsData]
    constructor
    · intro hall
      exact hall _ _ _ rfl rfl rfl
    · intro hmove _ _ _ hn hl hp
      obtain rfl := Option.some.inj hn
      obtain rfl := Option.some.inj hl
      obtain rfl := Option.some.inj hp
      exact hmove
  rw [hloop, hmoves, exists_parseRows_iff rfl]
  exact exists_endsBehind_iff h.count_lt h.length h.cols (length_rowData hbuf)
    (Nat.mod_lt _ (by norm_num)) fun i type fmeta => column_meta_lt htd

/-- A round of no length is made for ever. -/
theorem parseRows_still {update : Bool} {td : CTableDef} {cols : MyBitmap} {n limit : ℕ} {st₀ : RowsState}
    (hstart : st₀.tmpDataLen = 0) (hlimit : 0 < limit) (hfits : RoundFits update td cols n st₀.ptr.data)
    (hzero : roundLength update td cols n st₀.ptr.data = 0) (fuel : ℕ) :
    parseRows update td cols n limit fuel st₀ = .error .hang := by
  have hpos (j : ℕ) : position update td cols n st₀.ptr.data j = 0 := by
    have hstill : roundLength update td cols n
        (st₀.ptr.data.drop (position update td cols n st₀.ptr.data 0)) = 0 := hzero
    simpa [position] using position_still hstill j
  have hrounds : ∀ j < fuel, position update td cols n st₀.ptr.data j % 2 ^ 32 < limit ∧
      RoundFits update td cols n (st₀.ptr.data.drop (position update td cols n st₀.ptr.data j)) := by
    intro j _
    rw [hpos j]
    exact ⟨hlimit, hfits⟩
  obtain ⟨st, hst⟩ := (exists_reaches_iff hstart).mpr hrounds
  rw [parseRows_eq_run]
  exact Loop.run_goes_on hst

/-- The TABLE_MAP event of a table with a VARCHAR(10), as it is loaded. -/
def varcharMap : CTableMapEvent := ⟨some 7, some 1, some 2, [15], [10, 0], [115], [116]⟩

/-- The definition of that table. -/
def varcharTable : CTableDef := ⟨[15], some 2, [10]⟩

theorem buffer_oneRow : EventBuffer ⟨0, oneRow.bytes ++ [0]⟩ 40 :=
  ⟨by decide +kernel, by decide +kernel, by decide +kernel⟩

/-- A WRITE event with one row is decoded in one round. -/
theorem oneRow_loopEnds : EventBuffer ⟨0, oneRow.bytes ++ [0]⟩ 40 ∧
    CRowsEvent.loadEvent description .write ⟨0, oneRow.bytes ++ [0]⟩ = .ok (oneRowEvent, .success) ∧
    varcharMap.createTableDef = .ok varcharTable ∧
    (LoopEnds oneRowEvent varcharTable ↔ EveryRoundMoves oneRowEvent varcharTable) ∧
    LoopEnds oneRowEvent varcharTable := by
  have htd : varcharMap.createTableDef = .ok varcharTable := by decide +kernel
  refine ⟨buffer_oneRow, load_oneRow, htd, loopEnds_iff buffer_oneRow load_oneRow htd, 1, 9,
    ⟨31, [0, 3, 97, 98, 99, 0, 0, 0, 0, 0]⟩,
    ⟨[[⟨15, .char [97, 98, 99]⟩]], [], ⟨36, [0, 0, 0, 0, 0]⟩, 5⟩, rfl, rfl, rfl, ?_⟩
  decide +kernel

/-- The same event with the bit of its column cleared. -/
def absentRow : RowsFrame := { oneRow with before := [0] }

/-- The loaded event. -/
def absentRowEvent : CRowsEvent :=
  { oneRowEvent with cols := ⟨some [0, 0, 0, 0], 1, [254, 255, 255, 255], 0⟩ }

/-- **With no column present the loop never ends.** -/
theorem absentRow_never_ends : EventBuffer ⟨0, absentRow.bytes ++ [0]⟩ 40 ∧
    CRowsEvent.loadEvent description .write ⟨0, absentRow.bytes ++ [0]⟩ =
      .ok (absentRowEvent, .success) ∧
    varcharMap.createTableDef = .ok varcharTable ∧ ¬ LoopEnds absentRowEvent varcharTable ∧
    ∀ fuel, parseRows false varcharTable absentRowEvent.cols 1 (rowsLimit 9) fuel
      ⟨[], [], ⟨31, [0, 3, 97, 98, 99, 0, 0, 0, 0, 0]⟩, 0⟩ = .error .hang := by
  have hhang (fuel : ℕ) : parseRows false varcharTable absentRowEvent.cols 1 (rowsLimit 9) fuel
      ⟨[], [], ⟨31, [0, 3, 97, 98, 99, 0, 0, 0, 0, 0]⟩, 0⟩ = .error .hang := by
    have hcols : ColumnsFit varcharTable absentRowEvent.cols [0, 3, 97, 98, 99, 0, 0, 0, 0, 0]
        (List.range 1) ⟨0, nullBytes absentRowEvent.cols⟩ := by
      rw [List.range_one]
      exact ⟨⟨by decide, .inl rfl⟩, trivial⟩
    refine parseRows_still rfl (by decide) ⟨⟨⟨0, rfl⟩, hcols⟩, ?_⟩ (by decide +kernel) fuel
    intro h
    cases h
  refine ⟨⟨by decide +kernel, by decide +kernel, by decide +kernel⟩, by decide +kernel, by decide +kernel,
    ?_, hhang⟩
  rintro ⟨n, len, ptr, st, hn, hlen, hptr, hst⟩
  obtain rfl := Option.some.inj hn
  obtain rfl := Option.some.inj hlen
  obtain rfl := Option.some.inj hptr
  exact absurd ((hhang 10).symm.trans hst) (by simp)

end DataSync.Binlog.RowLoop
