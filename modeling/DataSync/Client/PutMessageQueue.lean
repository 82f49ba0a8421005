import DataSync.Client.MyslqQueue

/-! # Cutting the rows into messages

`PutMessageQueue` and `PutOneMessageQueue` cut the rows of a table, or of several tables, into heads of at
most two rows and hand them to `ProductDataGenerate`. The index of the row in the last batch of a table
with an odd number of rows is off: it is that of the middle row, not that of the last.

`putMessageQueue_iff` says for which rows of one table nothing is lost, `putMessageQueues_iff` for which
lists of tables: there moreover the heads of small tables are numbered from zero, and with few batches
only the first table is sent. The overload of `PutOneMessageQueue` that sends every row in a head of its own
loses nothing (`putOneMessageQueues_spec`). -/

namespace DataSync.Client.PutMessageQueue

open DataSync.Lib.Memory
open DataSync.Client.MyslqQueue (Row Table)

/-! ### The code -/

/-- `GENERATE_DATA`. -/
structure GenerateData where
  tableName : String
  columnKey : List String
  columnVal : Row
  deriving DecidableEq, Repr

/-- `HEAD_GENERATE_DATA`. -/
structure HeadGenerateData where
  headID : String
  headNumber : ℕ
  headOrder : ℕ
  headBody : List GenerateData
  deriving DecidableEq, Repr

/-- `execData`. -/
def execData : ℕ := 2

/-- `lNum`, the number of batches for so many rows. -/
def batchCount (size : ℕ) : ℕ := size / execData + if size % execData ≠ 0 then 1 else 0

/-- The indices the batch `jIndex` reads. The last batch of an odd number of rows has its own formula. -/
def batchIndices (size jIndex : ℕ) : List ℕ :=
  let iRemainder := size % execData
  if jIndex = batchCount size - 1 ∧ iRemainder ≠ 0 then
    (List.range (execData - iRemainder)).map fun nIndex => (execData - iRemainder) * jIndex + nIndex
  else (List.range execData).map fun nIndex => execData * jIndex + nIndex

/-- The loops over `nIndex`: empty rows are left out. -/
def pushRows (tableName : String) (vecKeys : List String) (vecValues : List Row) (is : List ℕ) :
    Res (List GenerateData) := do
  let rows ← is.mapM fun i => Res.ofOption vecValues[i]?
  return (rows.filter fun row => 0 < row.length).map fun row => ⟨tableName, vecKeys, row⟩

/-- The return value and the heads handed to `ProductDataGenerate`, for the rows of one table. `few` are
number and order of the only head of a table with at most two rows, `many` those of the heads of a larger
one, by the number of batches and the batch. -/
def putTable (few : ℕ × ℕ) (many : ℕ → ℕ → ℕ × ℕ) (msgHeadKey tableName : String) (vecKeys : List String)
    (vecValues : List Row) : Res (Bool × List HeadGenerateData) := do
  if vecValues.length ≤ 0 ∨ vecKeys.length ≤ 0 then return (false, [])
  if vecValues.length ≤ execData then
    let body ← pushRows tableName vecKeys vecValues (List.range vecValues.length)
    return (true, [⟨msgHeadKey, few.1, few.2, body⟩])
  else
    let lNum := batchCount vecValues.length
    let heads ← (List.range lNum).mapM fun jIndex => do
      let body ← pushRows tableName vecKeys vecValues (batchIndices vecValues.length jIndex)
      return ⟨msgHeadKey, (many lNum jIndex).1, (many lNum jIndex).2, body⟩
    return (true, heads)

/-- `PutMessageQueue` for one table. -/
def putMessageQueue : String → String → List String → List Row → Res (Bool × List HeadGenerateData) :=
  putTable (1, 1) fun lNum jIndex => (lNum, jIndex + 1)

/-- `PutOneMessageQueue` for one of several tables. -/
def putOneMessageQueue (totalNum theFirstFew : ℕ) :
    String → String → List String → List Row → Res (Bool × List HeadGenerateData) :=
  putTable (totalNum, theFirstFew) fun _ jIndex => (totalNum, theFirstFew + jIndex + 1)

/-- `SendNumber`. -/
def sendNumber (vecValues : List (List Row)) : ℕ := (vecValues.map fun rows => batchCount rows.length).sum

/-- The branch for few batches: one head with the rows of the first table. The test of the row at `nIndex`
is made on the table at `nIndex`. -/
def putFew (msgHeadKey : String) (tableName : List String) (vecKeys : List (List String))
    (vecValues : List (List Row)) : Res (List HeadGenerateData) := do
  let first ← Res.ofOption vecValues[0]?
  let body ← (List.range first.length).mapM fun nIndex => do
    let tested ← Res.ofOption vecValues[nIndex]?
    if 0 < tested.length then
      let name ← Res.ofOption tableName[0]?
      let key ← Res.ofOption vecKeys[0]?
      let row ← Res.ofOption first[nIndex]?
      return some (GenerateData.mk name key row)
    else return none
  return [⟨msgHeadKey, 1, 1, body.reduceOption⟩]

/-- One round of the loop over the tables: `lSendNum` counts the batches of the tables before. -/
def putRound (msgHeadKey : String) (totalNum : ℕ) (tableName : List String) (vecKeys : List (List String))
    (vecValues : List (List Row)) (acc : ℕ × List HeadGenerateData) (iSendTable : ℕ) :
    Res (ℕ × List HeadGenerateData) := do
  let rows ← Res.ofOption vecValues[iSendTable]?
  let keys ← Res.ofOption vecKeys[iSendTable]?
  let name ← Res.ofOption tableName[iSendTable]?
  let (_, heads) ← putOneMessageQueue totalNum acc.1 msgHeadKey name keys rows
  return (acc.1 + batchCount rows.length, acc.2 ++ heads)

/-- `PutMessageQueue` for several tables. -/
def putMessageQueues (msgHeadKey : String) (tableName : List String) (vecKeys : List (List String))
    (vecValues : List (List Row)) : Res (Bool × List HeadGenerateData) := do
  if vecValues.length ≤ 0 ∨ vecKeys.length ≤ 0 then return (false, [])
  if sendNumber vecValues ≤ execData then
    return (true, ← putFew msgHeadKey tableName vecKeys vecValues)
  else
    let sent ← (List.range vecValues.length).foldlM
      (putRound msgHeadKey (sendNumber vecValues) tableName vecKeys vecValues) (0, [])
    return (true, sent.2)

/-! ### One table -/

/-- The rows of the batch `jIndex`. -/
def batchRows (rows : List Row) (jIndex : ℕ) : List Row :=
  (batchIndices rows.length jIndex).filterMap (rows[·]?)

/-- The rows a table is sent with, in order: for an odd number above two the middle row stands in the
place of the last. -/
def sentRows (rows : List Row) : List Row :=
  if rows.length ≤ execData ∨ rows.length % execData = 0 then rows
  else rows.dropLast ++ rows[rows.length / execData]?.toList

theorem batchIndices_last {size : ℕ} (h : size % execData ≠ 0) :
    batchIndices size (size / execData) = [size / execData] := by
  have hlast : size / execData = batchCount size - 1 ∧ size % execData ≠ 0 := by
    refine ⟨?_, h⟩
    rw [batchCount, if_pos h, Nat.add_sub_cancel]
  have hone : size % execData = 1 := by
    unfold execData at h ⊢
    omega
  rw [batchIndices, if_pos hlast, hone]
  simp [execData]

theorem batchIndices_whole {size jIndex : ℕ} (h : jIndex < size / execData) :
    batchIndices size jIndex = [execData * jIndex, execData * jIndex + 1] := by
  have hnot : ¬ (jIndex = batchCount size - 1 ∧ size % execData ≠ 0) := by
    rintro ⟨hlast, hrem⟩
    rw [batchCount, if_pos hrem] at hlast
    omega
  rw [batchIndices, if_neg hnot]
  rfl

/-- Every index is in range. -/
theorem batchIndices_lt {size jIndex i : ℕ} (hj : jIndex < batchCount size)
    (hi : i ∈ batchIndices size jIndex) : i < size := by
  by_cases hwhole : jIndex < size / execData
  · rw [batchIndices_whole hwhole] at hi
    unfold execData at hi hwhole
    simp only [List.mem_cons, List.not_mem_nil, or_false] at hi
    omega
  · have hrem : size % execData ≠ 0 := by
      intro hzero
      rw [batchCount, if_neg (by simpa using hzero)] at hj
      omega
    rw [batchCount, if_pos hrem] at hj
    obtain rfl : jIndex = size / execData := by omega
    rw [batchIndices_last hrem, List.mem_singleton] at hi
    unfold execData at hi hrem
    omega

theorem length_batchRows_le (rows : List Row) (jIndex : ℕ) : (batchRows rows jIndex).length ≤ execData := by
  refine (List.length_filterMap_le _ _).trans ?_
  rw [batchIndices]
  split_ifs
  · rw [List.length_map, List.length_range]
    omega
  · rw [List.length_map, List.length_range]

theorem batchRows_whole {rows : List Row} {jIndex : ℕ} (h : jIndex < rows.length / execData) :
    batchRows rows jIndex = (rows.drop (jIndex * execData)).take execData := by
  have hlt : execData * jIndex + 1 < rows.length := by
    unfold execData at h ⊢
    omega
  rw [batchRows, batchIndices_whole h, Nat.mul_comm jIndex]
  have h0 : rows[execData * jIndex]? = some rows[execData * jIndex] := List.getElem?_eq_getElem (by omega)
  have h1 : rows[execData * jIndex + 1]? = some rows[execData * jIndex + 1] := List.getElem?_eq_getElem hlt
  rw [List.filterMap_cons_some h0, List.filterMap_cons_some h1, List.drop_eq_getElem_cons (by omega),
    List.drop_eq_getElem_cons hlt]
  rfl

/-- **The batches one after another** are the rows the table is sent with. -/
theorem flatMap_batchRows {rows : List Row} (h : execData < rows.length) :
    (List.range (batchCount rows.length)).flatMap (batchRows rows) = sentRows rows := by
  have hwhole : (List.range (rows.length / execData)).flatMap (batchRows rows) =
      rows.take (rows.length / execData * execData) := by
    have hchunks : ∀ k ≤ rows.length / execData,
        (List.range k).flatMap (batchRows rows) = rows.take (k * execData) := by
      intro k
      induction k with
      | zero => simp
      | succ k ih =>
        intro hk
        rw [List.range_succ, List.flatMap_append, ih (by omega), Nat.succ_mul, List.take_add,
          List.flatMap_singleton, batchRows_whole (by omega)]
    exact hchunks _ le_rfl
  by_cases hrem : rows.length % execData = 0
  · have hall : rows.length / execData * execData = rows.length := Nat.div_mul_cancel (Nat.dvd_of_mod_eq_zero hrem)
    rw [batchCount, if_neg (by simpa using hrem), Nat.add_zero, hwhole, hall, List.take_length, sentRows,
      if_pos (Or.inr hrem)]
  · have hall : rows.length / execData * execData = rows.length - 1 := by
      unfold execData at hrem ⊢
      omega
    rw [batchCount, if_pos hrem, List.range_succ, List.flatMap_append, hwhole, List.flatMap_singleton,
      batchRows, batchIndices_last hrem, hall, ← List.dropLast_eq_take, sentRows,
      if_neg (by omega)]
    cases hmid : rows[rows.length / execData]? with
    | none => rw [List.filterMap_cons_none hmid]; rfl
    | some row => rw [List.filterMap_cons_some hmid]; rfl

theorem filterMap_range_getElem? (rows : List Row) : (List.range rows.length).filterMap (rows[·]?) = rows := by
  induction rows with
  | nil => rfl
  | cons row rows ih =>
    rw [List.length_cons, List.range_succ_eq_map,
      List.filterMap_cons_some (f := fun i => (row :: rows)[i]?) rfl, List.filterMap_map]
    exact congrArg (row :: ·) ih

/-- A row as it stands in a head. -/
def record (tableName : String) (vecKeys : List String) (row : Row) : GenerateData := ⟨tableName, vecKeys, row⟩

section Table
variable {name : String} {keys : List String} {rows : List Row} (hrows : ∀ row ∈ rows, row ≠ [])
include hrows

/-- Reads in range give their rows. -/
theorem pushRows_spec {is : List ℕ} (his : ∀ i ∈ is, i < rows.length) :
    pushRows name keys rows is = .ok ((is.filterMap (rows[·]?)).map (record name keys)) := by
  have hread : is.mapM (fun i => Res.ofOption rows[i]?) = .ok (is.filterMap (rows[·]?)) := by
    induction is with
    | nil => rfl
    | cons i is ih =>
      have hlt := his i (by simp)
      have hi : rows[i]? = some rows[i] := List.getElem?_eq_getElem hlt
      rw [List.mapM_cons, hi, Res.ofOption_some, Res.ok_bind, ih fun j hj => his j (by simp [hj]),
        List.filterMap_cons_some hi]
      rfl
  have hfilter : (is.filterMap (rows[·]?)).filter (fun row => 0 < row.length) =
      is.filterMap (rows[·]?) := by
    refine List.filter_eq_self.mpr fun row hrow => ?_
    obtain ⟨i, -, hi⟩ := List.mem_filterMap.mp hrow
    simpa using List.length_pos_iff.mpr (hrows row (List.mem_of_getElem? hi))
  rw [pushRows, hread, Res.ok_bind, hfilter]
  rfl

variable (hne : rows ≠ []) (hkeys : keys ≠ [])
include hne hkeys

/-- **One table**: the heads that are handed on. -/
theorem putTable_spec (few : ℕ × ℕ) (many : ℕ → ℕ → ℕ × ℕ) (msgHeadKey : String) :
    putTable few many msgHeadKey name keys rows = .ok (true,
      if rows.length ≤ execData then [⟨msgHeadKey, few.1, few.2, rows.map (record name keys)⟩]
      else (List.range (batchCount rows.length)).map fun j =>
        ⟨msgHeadKey, (many (batchCount rows.length) j).1, (many (batchCount rows.length) j).2,
          (batchRows rows j).map (record name keys)⟩) := by
  have hpos := List.length_pos_iff.mpr hne
  have hkpos := List.length_pos_iff.mpr hkeys
  rw [putTable, if_neg (by omega)]
  split_ifs with hfew
  · rw [pushRows_spec hrows (by simp), filterMap_range_getElem?]
    rfl
  · dsimp only
    rw [Res.mapM_ok fun j hj => by
      rw [pushRows_spec hrows fun i hi => batchIndices_lt (List.mem_range.mp hj) hi, Res.ok_bind, Res.pure_eq]]
    rfl

end Table

/-- What the heads of one table should be: its rows in order, at most two to a head, numbered from one on
under their number. -/
structure Partitions (name : String) (keys : List String) (rows : List Row) (heads : List HeadGenerateData) :
    Prop where
  bodies : heads.flatMap HeadGenerateData.headBody = rows.map (record name keys)
  small : ∀ h ∈ heads, h.headBody.length ≤ 2
  orders : heads.map HeadGenerateData.headOrder = List.range' 1 heads.length
  numbers : ∀ h ∈ heads, h.headNumber = heads.length

theorem record_injective (name : String) (keys : List String) : Function.Injective (record name keys) :=
  fun _ _ h => (GenerateData.mk.inj h).2.2

theorem dropLast_append_getLast?_toList {rows : List Row} (hne : rows ≠ []) :
    rows.dropLast ++ rows.getLast?.toList = rows := by
  rw [List.getLast?_eq_getLast_of_ne_nil hne]
  exact List.dropLast_append_getLast hne

/-- The rows that are sent are the rows of the table. -/
theorem sentRows_eq_iff {rows : List Row} (hne : rows ≠ []) : sentRows rows = rows ↔
    rows.length ≤ 2 ∨ rows.length % 2 = 0 ∨ rows[rows.length / 2]? = rows.getLast? := by
  unfold sentRows
  split_ifs with h
  · exact iff_of_true rfl (h.imp id Or.inl)
  · have hlast := dropLast_append_getLast?_toList hne
    have htoList : ∀ o o' : Option Row, o.toList = o'.toList ↔ o = o' := by
      rintro (_ | a) (_ | b) <;> simp
    rw [not_or] at h
    constructor
    · intro heq
      exact Or.inr (Or.inr ((htoList _ _).mp (List.append_cancel_left (heq.trans hlast.symm))))
    · rintro (hfew | heven | hmid)
      · exact absurd hfew h.1
      · exact absurd heven h.2
      · show rows.dropLast ++ rows[rows.length / 2]?.toList = rows
        rw [hmid, hlast]

/-- **Single-table batching** partitions the rows exactly if there are at most two or an even number of
them, or the middle row is like the last. -/
theorem putMessageQueue_iff (msgHeadKey name : String) {keys : List String} {rows : List Row}
    (hkeys : keys ≠ []) (hne : rows ≠ []) (hrows : ∀ row ∈ rows, row ≠ []) :
    (∃ heads, putMessageQueue msgHeadKey name keys rows = .ok (true, heads) ∧
      Partitions name keys rows heads) ↔
    rows.length ≤ 2 ∨ rows.length % 2 = 0 ∨ rows[rows.length / 2]? = rows.getLast? := by
  rw [putMessageQueue, putTable_spec hrows hne hkeys, ← sentRows_eq_iff hne]
  constructor
  · rintro ⟨heads, hrun, hpart⟩
    obtain ⟨-, rfl⟩ := Prod.mk.inj (Except.ok.inj hrun)
    have hbodies := hpart.bodies
    split_ifs at hbodies with hfew
    · exact if_pos (Or.inl hfew)
    · rw [List.flatMap_map, ← List.map_flatMap, flatMap_batchRows (by omega)] at hbodies
      exact (List.map_injective_iff.mpr (record_injective name keys)) hbodies
  · intro hsent
    refine ⟨_, rfl, ?_⟩
    split_ifs with hfew
    · exact ⟨by simp, by simpa [execData] using hfew, by simp, by simp⟩
    · refine ⟨?_, ?_, ?_, ?_⟩
      · rw [List.flatMap_map, ← List.map_flatMap, flatMap_batchRows (by omega), hsent]
      · rintro h hh
        obtain ⟨j, -, rfl⟩ := List.mem_map.mp hh
        simpa [execData] using length_batchRows_le rows j
      · rw [List.map_map, List.length_map, List.length_range, List.range'_eq_map_range]
        exact List.map_congr_left fun j _ => Nat.add_comm j 1
      · rintro h hh
        obtain ⟨j, -, rfl⟩ := List.mem_map.mp hh
        simp

/-- Four rows are sent in two heads. -/
theorem putMessageQueue_four : ∃ heads, putMessageQueue "head" "t" ["k"] [["1"], ["2"], ["3"], ["4"]] =
    .ok (true, heads) ∧ Partitions "t" ["k"] [["1"], ["2"], ["3"], ["4"]] heads :=
  (putMessageQueue_iff "head" "t" (by simp) (by simp) (by simp)).mpr (Or.inr (Or.inl (by decide)))

/-- Of three rows the second is sent twice and the third never. -/
theorem putMessageQueue_three : ¬ ∃ heads, putMessageQueue "head" "t" ["k"] [["1"], ["2"], ["3"]] =
    .ok (true, heads) ∧ Partitions "t" ["k"] [["1"], ["2"], ["3"]] heads := by
  rintro ⟨heads, hrun, hpart⟩
  obtain ⟨-, rfl⟩ := Prod.mk.inj (Except.ok.inj hrun)
  exact absurd hpart.bodies (by decide)

/-! ### Several tables -/

/-- Rows of the table, as they stand in a head. -/
def records (t : Table) (rows : List Row) : List GenerateData := rows.map (record t.name t.keys)

/-- The heads of one of several tables, behind so many batches of the tables before it. -/
def tableHeads (msgHeadKey : String) (totalNum theFirstFew : ℕ) (t : Table) : List HeadGenerateData :=
  if t.keys = [] then []
  else if t.rows.length ≤ execData then [⟨msgHeadKey, totalNum, theFirstFew, records t t.rows⟩]
  else (List.range (batchCount t.rows.length)).map fun j =>
    ⟨msgHeadKey, totalNum, theFirstFew + j + 1, records t (batchRows t.rows j)⟩

/-- The heads of all tables. -/
def headsFrom (msgHeadKey : String) (totalNum : ℕ) : ℕ → List Table → List HeadGenerateData
  | _, [] => []
  | lSendNum, t :: tables => tableHeads msgHeadKey totalNum lSendNum t ++
      headsFrom msgHeadKey totalNum (lSendNum + batchCount t.rows.length) tables

/-- Every table has rows, and every row columns. -/
def Filled (tables : List Table) : Prop := ∀ t ∈ tables, t.rows ≠ [] ∧ ∀ row ∈ t.rows, row ≠ []

theorem putOneMessageQueue_spec {t : Table} (hne : t.rows ≠ []) (hrows : ∀ row ∈ t.rows, row ≠ [])
    (msgHeadKey : String) (totalNum theFirstFew : ℕ) : ∃ rv,
      putOneMessageQueue totalNum theFirstFew msgHeadKey t.name t.keys t.rows =
        .ok (rv, tableHeads msgHeadKey totalNum theFirstFew t) := by
  by_cases hkeys : t.keys = []
  · refine ⟨false, ?_⟩
    rw [putOneMessageQueue, putTable, if_pos (Or.inr (by simp [hkeys])), tableHeads, if_pos hkeys]
    rfl
  · refine ⟨true, ?_⟩
    rw [putOneMessageQueue, putTable_spec hrows hne hkeys, tableHeads, if_neg hkeys]
    rfl

theorem putRound_eq (msgHeadKey : String) (totalNum : ℕ) (tables : List Table)
    (acc : ℕ × List HeadGenerateData) (i : ℕ) :
    putRound msgHeadKey totalNum (tables.map Table.name) (tables.map Table.keys) (tables.map Table.rows)
      acc i = (Res.ofOption tables[i]? >>= fun t =>
        putOneMessageQueue totalNum acc.1 msgHeadKey t.name t.keys t.rows >>= fun r =>
          .ok (acc.1 + batchCount t.rows.length, acc.2 ++ r.2)) := by
  unfold putRound
  simp only [List.getElem?_map]
  cases tables[i]? with
  | none => rfl
  | some t => rfl

/-- The loop over the tables. -/
theorem foldlM_putRound (msgHeadKey : String) (totalNum : ℕ) {tables : List Table} (h : Filled tables)
    (acc : ℕ × List HeadGenerateData) :
    tables.foldlM (fun acc t => putOneMessageQueue totalNum acc.1 msgHeadKey t.name t.keys t.rows >>=
      fun r => (.ok (acc.1 + batchCount t.rows.length, acc.2 ++ r.2) :
        Res (ℕ × List HeadGenerateData))) acc =
      .ok (acc.1 + sendNumber (tables.map Table.rows),
        acc.2 ++ headsFrom msgHeadKey totalNum acc.1 tables) := by
  induction tables generalizing acc with
  | nil => simp [sendNumber, headsFrom]
  | cons t tables ih =>
    obtain ⟨hne, hrows⟩ := h t (by simp)
    obtain ⟨rv, hone⟩ := putOneMessageQueue_spec hne hrows msgHeadKey totalNum acc.1
    rw [List.foldlM_cons, hone, Res.ok_bind, Res.ok_bind, ih fun u hu => h u (by simp [hu])]
    simp [sendNumber, headsFrom, Nat.add_assoc, List.append_assoc]

/-- **More than two batches**: the heads of the tables one after another. -/
theorem putMessageQueues_many (msgHeadKey : String) {tables : List Table} (h : Filled tables)
    (hmany : execData < sendNumber (tables.map Table.rows)) :
    putMessageQueues msgHeadKey (tables.map Table.name) (tables.map Table.keys) (tables.map Table.rows) =
      .ok (true, headsFrom msgHeadKey (sendNumber (tables.map Table.rows)) 0 tables) := by
  have hne : tables ≠ [] := by
    rintro rfl
    exact absurd hmany (by decide)
  have hpos := List.length_pos_iff.mpr hne
  have hloop := foldlM_putRound msgHeadKey (sendNumber (tables.map Table.rows)) h (0, [])
  rw [← Res.foldlM_range_getElem?] at hloop
  have hround : putRound msgHeadKey (sendNumber (tables.map Table.rows)) (tables.map Table.name)
      (tables.map Table.keys) (tables.map Table.rows) = _ :=
    funext fun acc => funext fun i => putRound_eq msgHeadKey _ tables acc i
  rw [putMessageQueues, if_neg (by simp only [List.length_map]; omega), if_neg (by omega), hround,
    List.length_map, hloop]
  simp

/-! ### Numbers and orders -/

section Numbers
variable {msgHeadKey : String} {totalNum : ℕ}

theorem headNumber_headsFrom {lSendNum : ℕ} {tables : List Table} {h : HeadGenerateData}
    (hh : h ∈ headsFrom msgHeadKey totalNum lSendNum tables) : h.headNumber = totalNum := by
  induction tables generalizing lSendNum with
  | nil => cases hh
  | cons t tables ih =>
    rcases List.mem_append.mp hh with hh | hh
    · rw [tableHeads] at hh
      split_ifs at hh
      · cases hh
      · rw [List.mem_singleton] at hh
        rw [hh]
      · obtain ⟨j, -, rfl⟩ := List.mem_map.mp hh
        rfl
    · exact ih hh

/-- There are as many heads as batches, unless a table has no keys. -/
theorem length_headsFrom {lSendNum : ℕ} {tables : List Table} (hfilled : Filled tables) :
    (headsFrom msgHeadKey totalNum lSendNum tables).length ≤ sendNumber (tables.map Table.rows) ∧
    ((headsFrom msgHeadKey totalNum lSendNum tables).length = sendNumber (tables.map Table.rows) ↔
      ∀ t ∈ tables, t.keys ≠ []) := by
  induction tables generalizing lSendNum with
  | nil => simp [headsFrom, sendNumber]
  | cons t tables ih =>
    obtain ⟨hle, hiff⟩ := @ih (lSendNum + batchCount t.rows.length) fun u hu => hfilled u (by simp [hu])
    have hpos := List.length_pos_iff.mpr (hfilled t (by simp)).1
    have hcount : 0 < batchCount t.rows.length := by
      unfold batchCount execData
      split_ifs <;> omega
    have hone : t.keys ≠ [] → (tableHeads msgHeadKey totalNum lSendNum t).length =
        batchCount t.rows.length := by
      intro hkeys
      rw [tableHeads, if_neg hkeys]
      split_ifs with hfew
      · rw [List.length_singleton, batchCount]
        unfold execData at hfew ⊢
        split_ifs <;> omega
      · rw [List.length_map, List.length_range]
    have hsum : sendNumber ((t :: tables).map Table.rows) =
        batchCount t.rows.length + sendNumber (tables.map Table.rows) := by simp [sendNumber]
    rw [headsFrom, List.length_append, hsum, List.forall_mem_cons]
    by_cases hkeys : t.keys = []
    · have hnil : tableHeads msgHeadKey totalNum lSendNum t = [] := by rw [tableHeads, if_pos hkeys]
      rw [hnil, List.length_nil]
      refine ⟨by omega, iff_of_false (by omega) fun h => h.1 hkeys⟩
    · rw [hone hkeys]
      refine ⟨by omega, ?_⟩
      rw [← hiff]
      constructor
      · intro h
        exact ⟨hkeys, by omega⟩
      · rintro ⟨-, h⟩
        omega

/-- The orders within a table: those of a small one begin with the batches before it. -/
theorem headOrder_tableHeads {t : Table} (hkeys : t.keys ≠ []) (lSendNum : ℕ) :
    (tableHeads msgHeadKey totalNum lSendNum t).map HeadGenerateData.headOrder =
      if t.rows.length ≤ execData then [lSendNum]
      else List.range' (lSendNum + 1) (batchCount t.rows.length) := by
  rw [tableHeads, if_neg hkeys]
  split_ifs with hfew
  · rfl
  · rw [List.map_map, List.range'_eq_map_range]
    exact List.map_congr_left fun j _ => by
      show lSendNum + j + 1 = lSendNum + 1 + j
      omega

/-- The numbers of the batches, table by table. -/
theorem range'_sendNumber (lSendNum : ℕ) (t : Table) (tables : List Table) :
    List.range' (lSendNum + 1) (sendNumber ((t :: tables).map Table.rows)) =
      List.range' (lSendNum + 1) (batchCount t.rows.length) ++
        List.range' (lSendNum + batchCount t.rows.length + 1) (sendNumber (tables.map Table.rows)) := by
  have hsum : sendNumber ((t :: tables).map Table.rows) =
      batchCount t.rows.length + sendNumber (tables.map Table.rows) := by simp [sendNumber]
  rw [hsum, ← List.range'_append_1, Nat.add_right_comm]

/-- The tables with at most two rows. -/
def smallTables (tables : List Table) : ℕ := tables.countP fun t => t.rows.length ≤ execData

/-- The orders fall short of `lSendNum + 1` onwards by one for every small table. -/
theorem sum_headOrder {lSendNum : ℕ} {tables : List Table} (hfilled : Filled tables)
    (hkeys : ∀ t ∈ tables, t.keys ≠ []) :
    ((headsFrom msgHeadKey totalNum lSendNum tables).map HeadGenerateData.headOrder).sum +
      smallTables tables =
        (List.range' (lSendNum + 1) (sendNumber (tables.map Table.rows))).sum := by
  induction tables generalizing lSendNum with
  | nil => rfl
  | cons t tables ih =>
    have hih := @ih (lSendNum + batchCount t.rows.length) (fun u hu => hfilled u (by simp [hu]))
      fun u hu => hkeys u (by simp [hu])
    have hpos := List.length_pos_iff.mpr (hfilled t (by simp)).1
    rw [range'_sendNumber, List.sum_append, ← hih, headsFrom, List.map_append, List.sum_append,
      headOrder_tableHeads (hkeys t (by simp)), smallTables, smallTables]
    by_cases hfew : t.rows.length ≤ execData
    · have hone : batchCount t.rows.length = 1 := by
        unfold batchCount execData at *
        split_ifs <;> omega
      rw [if_pos hfew, List.countP_cons_of_pos (by simpa using hfew), hone]
      simp only [List.sum_cons, List.sum_nil, List.range'_one]
      omega
    · rw [if_neg hfew, List.countP_cons_of_neg (by simpa using hfew)]
      omega

/-- Without small tables the orders run from `lSendNum + 1` on. -/
theorem headOrder_headsFrom {lSendNum : ℕ} {tables : List Table}
    (h : ∀ t ∈ tables, execData < t.rows.length ∧ t.keys ≠ []) :
    (headsFrom msgHeadKey totalNum lSendNum tables).map HeadGenerateData.headOrder =
      List.range' (lSendNum + 1) (sendNumber (tables.map Table.rows)) := by
  induction tables generalizing lSendNum with
  | nil => rfl
  | cons t tables ih =>
    obtain ⟨hmany, hkeys⟩ := h t (by simp)
    rw [headsFrom, List.map_append, headOrder_tableHeads hkeys, if_neg (by omega),
      ih fun u hu => h u (by simp [hu]), range'_sendNumber]

/-! ### Rows -/

theorem headBody_headsFrom {lSendNum : ℕ} {tables : List Table} (hkeys : ∀ t ∈ tables, t.keys ≠ []) :
    (headsFrom msgHeadKey totalNum lSendNum tables).flatMap HeadGenerateData.headBody =
      tables.flatMap fun t => records t (sentRows t.rows) := by
  induction tables generalizing lSendNum with
  | nil => rfl
  | cons t tables ih =>
    rw [headsFrom, List.flatMap_append, ih fun u hu => hkeys u (by simp [hu]), List.flatMap_cons,
      tableHeads, if_neg (hkeys t (by simp))]
    congr 1
    split_ifs with hfew
    · rw [sentRows, if_pos (Or.inl hfew)]
      simp
    · rw [List.flatMap_map, ← flatMap_batchRows (by omega)]
      simp only [records, List.map_flatMap]

end Numbers

/-- The records at the middles of the tables with an odd number of rows. -/
def middles (tables : List Table) : List GenerateData :=
  tables.flatMap fun t => if t.rows.length % 2 = 0 then [] else records t t.rows[t.rows.length / 2]?.toList

/-- The records at their ends. -/
def lasts (tables : List Table) : List GenerateData :=
  tables.flatMap fun t => if t.rows.length % 2 = 0 then [] else records t t.rows.getLast?.toList

/-- The last records have been exchanged for the middle ones. -/
theorem count_sentRows {tables : List Table} (h : ∀ t ∈ tables, execData < t.rows.length)
    (a : GenerateData) :
    (tables.flatMap fun t => records t (sentRows t.rows)).count a + (lasts tables).count a =
      (tables.flatMap fun t => records t t.rows).count a + (middles tables).count a := by
  induction tables with
  | nil => rfl
  | cons t tables ih =>
    have hih := ih fun u hu => h u (by simp [hu])
    have ht := h t (by simp)
    have hne : t.rows ≠ [] := List.ne_nil_of_length_pos (by omega)
    have hone : (records t (sentRows t.rows)).count a +
        (if t.rows.length % 2 = 0 then [] else records t t.rows.getLast?.toList).count a =
        (records t t.rows).count a +
          (if t.rows.length % 2 = 0 then [] else records t t.rows[t.rows.length / 2]?.toList).count a := by
      by_cases heven : t.rows.length % 2 = 0
      · have hsent : sentRows t.rows = t.rows := if_pos (Or.inr heven)
        rw [hsent, if_pos heven, if_pos heven]
      · have hall : (records t t.rows).count a =
            (records t t.rows.dropLast).count a + (records t t.rows.getLast?.toList).count a := by
          rw [← List.count_append, records, records, records, ← List.map_append,
            dropLast_append_getLast?_toList hne]
        have hnot : ¬ (t.rows.length ≤ execData ∨ t.rows.length % execData = 0) := by
          rw [not_or]
          exact ⟨by omega, heven⟩
        rw [sentRows, if_neg hnot, if_neg heven, if_neg heven, hall, records, List.map_append,
          List.count_append]
        unfold records execData
        omega
    simp only [lasts, middles, List.flatMap_cons, List.count_append] at hih ⊢
    omega

/-- What the heads of several tables should be: every row once, under the name and the keys of its table,
and orders from one to the number of heads. -/
structure Covers (tables : List Table) (heads : List HeadGenerateData) : Prop where
  rows : (heads.flatMap HeadGenerateData.headBody).Perm (tables.flatMap fun t => records t t.rows)
  numbers : ∀ h ∈ heads, h.headNumber = heads.length
  orders : (heads.map HeadGenerateData.headOrder).Perm (List.range' 1 heads.length)

/-- The tables the code sends as it should. -/
def Coverable (tables : List Table) : Prop :=
  (∃ t row, tables = [t] ∧ t.rows = [row]) ∨
  (2 < sendNumber (tables.map Table.rows) ∧ (∀ t ∈ tables, 2 < t.rows.length ∧ t.keys ≠ []) ∧
    (middles tables).Perm (lasts tables))

/-- **Many batches**: the heads cover the tables exactly if no table is small or without keys and the
middle rows are like the last. -/
theorem covers_headsFrom_iff {tables : List Table} (hfilled : Filled tables) (hne : tables ≠ [])
    (msgHeadKey : String) :
    Covers tables (headsFrom msgHeadKey (sendNumber (tables.map Table.rows)) 0 tables) ↔
      (∀ t ∈ tables, 2 < t.rows.length ∧ t.keys ≠ []) ∧ (middles tables).Perm (lasts tables) := by
  have hlength := @length_headsFrom msgHeadKey (sendNumber (tables.map Table.rows)) 0 tables hfilled
  -- by what the last rows have been exchanged for
  have hperm : (∀ t ∈ tables, execData < t.rows.length) →
      ((tables.flatMap fun t => records t (sentRows t.rows)).Perm
        (tables.flatMap fun t => records t t.rows) ↔ (middles tables).Perm (lasts tables)) := by
    intro hmany
    rw [List.perm_iff_count, List.perm_iff_count]
    refine forall_congr' fun a => ?_
    have hcount := count_sentRows hmany a
    omega
  constructor
  · intro hcovers
    -- a head exists, so the number of heads is the number of batches
    have hsome : headsFrom msgHeadKey (sendNumber (tables.map Table.rows)) 0 tables ≠ [] := by
      intro hnil
      obtain ⟨t, rest, rfl⟩ := List.exists_cons_of_ne_nil hne
      have hlen := hcovers.rows.length_eq
      have hpos := List.length_pos_iff.mpr (hfilled t (by simp)).1
      rw [hnil, List.flatMap_nil, List.length_nil, List.flatMap_cons, List.length_append, records,
        List.length_map] at hlen
      omega
    obtain ⟨h, hh⟩ := List.exists_mem_of_ne_nil _ hsome
    have hnumber := (hcovers.numbers h hh).symm.trans (headNumber_headsFrom hh)
    have hkeys := hlength.2.mp hnumber
    have hsum := @sum_headOrder msgHeadKey (sendNumber (tables.map Table.rows)) 0 tables hfilled hkeys
    have horders := hcovers.orders.sum_eq
    rw [hnumber] at horders
    have hsmall : smallTables tables = 0 := by
      rw [Nat.zero_add] at hsum
      omega
    have hmany : ∀ t ∈ tables, execData < t.rows.length := by
      intro t ht
      have hnot := List.countP_eq_zero.mp hsmall t ht
      simpa using hnot
    have hrows := hcovers.rows
    rw [headBody_headsFrom hkeys] at hrows
    exact ⟨fun t ht => ⟨hmany t ht, hkeys t ht⟩, (hperm hmany).mp hrows⟩
  · rintro ⟨htables, hmid⟩
    have hkeys : ∀ t ∈ tables, t.keys ≠ [] := fun t ht => (htables t ht).2
    have hnumber := hlength.2.mpr hkeys
    refine ⟨?_, fun h hh => ?_, ?_⟩
    · rw [headBody_headsFrom hkeys]
      exact (hperm fun t ht => (htables t ht).1).mpr hmid
    · rw [hnumber]
      exact headNumber_headsFrom hh
    · rw [headOrder_headsFrom htables, hnumber]

/-- What the branch for few batches hands on: a row is taken as long as there is a table at its index. -/
theorem putFew_spec {msgHeadKey : String} {t : Table} {tables : List Table} {heads : List HeadGenerateData}
    (h : putFew msgHeadKey ((t :: tables).map Table.name) ((t :: tables).map Table.keys)
      ((t :: tables).map Table.rows) = .ok heads) :
    t.rows.length ≤ (t :: tables).length ∧
      (heads.flatMap HeadGenerateData.headBody).length ≤ t.rows.length := by
  unfold putFew at h
  obtain ⟨first, hfirst, h⟩ := Res.bind_eq_ok.mp h
  obtain rfl : t.rows = first := by simpa using Res.ofOption_eq_ok.mp hfirst
  obtain ⟨body, hbody, h⟩ := Res.bind_eq_ok.mp h
  obtain rfl := Except.ok.inj h
  have hall := Res.mapM_eq_ok hbody
  have hlen := hall.length_eq
  rw [List.length_range] at hlen
  constructor
  · by_contra hlt
    have hread := hall.get (i := (t :: tables).length) (by rw [List.length_range]; omega) (by omega)
    obtain ⟨tested, htested, -⟩ := Res.bind_eq_ok.mp hread
    have hsome := Res.ofOption_eq_ok.mp htested
    simp at hsome
  · simp only [List.flatMap_cons, List.flatMap_nil, List.append_nil]
    exact (List.reduceOption_length_le body).trans_eq hlen.symm

/-- **Multi-table batching** covers the tables exactly if there is but one row to send, or there are more
than two batches, no table has less than three rows or no keys, and the middle rows of the tables with an
odd number of rows are like their last rows. -/
theorem putMessageQueues_iff (msgHeadKey : String) {tables : List Table} (hne : tables ≠ [])
    (hfilled : ∀ t ∈ tables, t.rows ≠ [] ∧ ∀ row ∈ t.rows, row ≠ []) :
    (∃ heads, putMessageQueues msgHeadKey (tables.map Table.name) (tables.map Table.keys)
      (tables.map Table.rows) = .ok (true, heads) ∧ Covers tables heads) ↔ Coverable tables := by
  obtain ⟨t, rest, rfl⟩ := List.exists_cons_of_ne_nil hne
  have hpos := List.length_pos_iff.mpr (hfilled t (by simp)).1
  by_cases hmany : execData < sendNumber ((t :: rest).map Table.rows)
  · rw [putMessageQueues_many msgHeadKey hfilled hmany]
    have hone : ¬ ∃ u row, t :: rest = [u] ∧ u.rows = [row] := by
      rintro ⟨u, row, htables, hrow⟩
      rw [htables, List.map_singleton, hrow] at hmany
      exact absurd hmany (by simp [sendNumber, batchCount, execData])
    constructor
    · rintro ⟨heads, hrun, hcovers⟩
      obtain ⟨-, rfl⟩ := Prod.mk.inj (Except.ok.inj hrun)
      exact Or.inr ⟨hmany, (covers_headsFrom_iff hfilled hne msgHeadKey).mp hcovers⟩
    · rintro (h | ⟨-, h⟩)
      · exact absurd h hone
      · exact ⟨_, rfl, (covers_headsFrom_iff hfilled hne msgHeadKey).mpr h⟩
  · have hbranch : putMessageQueues msgHeadKey ((t :: rest).map Table.name) ((t :: rest).map Table.keys)
        ((t :: rest).map Table.rows) = (putFew msgHeadKey ((t :: rest).map Table.name)
          ((t :: rest).map Table.keys) ((t :: rest).map Table.rows) >>= fun heads => .ok (true, heads)) := by
      rw [putMessageQueues, if_neg (by simp), if_pos (by omega)]
      rfl
    rw [hbranch]
    constructor
    · rintro ⟨heads, hrun, hcovers⟩
      obtain ⟨heads', hfew, hrun⟩ := Res.bind_eq_ok.mp hrun
      obtain ⟨-, rfl⟩ := Prod.mk.inj (Except.ok.inj hrun)
      obtain ⟨hrange, hlen⟩ := putFew_spec hfew
      rw [hcovers.rows.length_eq, List.flatMap_cons, List.length_append, records, List.length_map] at hlen
      -- the rows of any other table would be missing
      cases rest with
      | nil =>
        have hone : t.rows.length = 1 := by
          rw [List.length_singleton] at hrange
          omega
        obtain ⟨row, hrow⟩ := List.length_eq_one_iff.mp hone
        exact Or.inl ⟨t, row, rfl, hrow⟩
      | cons u rest =>
        have hupos := List.length_pos_iff.mpr (hfilled u (by simp)).1
        rw [List.flatMap_cons, List.length_append, records, List.length_map] at hlen
        omega
    · rintro (⟨u, row, htables, hrow⟩ | ⟨h, -⟩)
      · obtain ⟨rfl, rfl⟩ := List.cons.inj htables
        refine ⟨[⟨msgHeadKey, 1, 1, [record t.name t.keys row]⟩], ?_, ?_, by simp, by simp⟩
        · simp [putFew, hrow, record]
        · simp [records, hrow]
      · exact absurd h hmany

/-- Two tables with four rows each. -/
def twoByFour : List Table :=
  [⟨"a", ["k"], [["1"], ["2"], ["3"], ["4"]]⟩, ⟨"b", ["k"], [["1"], ["2"], ["3"], ["4"]]⟩]

theorem putMessageQueues_twoByFour : ∃ heads, putMessageQueues "head" (twoByFour.map Table.name)
    (twoByFour.map Table.keys) (twoByFour.map Table.rows) = .ok (true, heads) ∧ Covers twoByFour heads :=
  (putMessageQueues_iff "head" (by simp [twoByFour]) (by simp [twoByFour])).mpr
    (Or.inr ⟨by decide, by decide, by decide⟩)

/-- Of two tables with one row each only the first is sent. -/
def twoByOne : List Table := [⟨"a", ["k"], [["1"]]⟩, ⟨"b", ["k"], [["2"]]⟩]

theorem putMessageQueues_twoByOne : ¬ ∃ heads, putMessageQueues "head" (twoByOne.map Table.name)
    (twoByOne.map Table.keys) (twoByOne.map Table.rows) = .ok (true, heads) ∧ Covers twoByOne heads := by
  rintro ⟨heads, hrun, hcovers⟩
  obtain ⟨-, rfl⟩ := Prod.mk.inj (Except.ok.inj hrun)
  exact absurd hcovers.rows.length_eq (by decide)

/-! ### One row to a message -/

/-- The body of the inner loop of `PutOneMessageQueue` for several tables: `SendPro` counts the heads. -/
def putRow (msgHeadKey : String) (totalNum : ℕ) (tableName : List String) (vecKeys : List (List String))
    (vecValues : List (List Row)) (iTabl : ℕ) (acc : ℕ × List HeadGenerateData) (nIndex : ℕ) :
    Res (ℕ × List HeadGenerateData) := do
  let name ← Res.ofOption tableName[iTabl]?
  let keys ← Res.ofOption vecKeys[iTabl]?
  let rows ← Res.ofOption vecValues[iTabl]?
  let row ← Res.ofOption rows[nIndex]?
  return (acc.1 + 1, acc.2 ++ [⟨msgHeadKey, totalNum, acc.1 + 1, [⟨name, keys, row⟩]⟩])

/-- `PutOneMessageQueue` for several tables. -/
def putOneMessageQueues (msgHeadKey : String) (tableName : List String) (vecKeys : List (List String))
    (vecValues : List (List Row)) : Res (Bool × List HeadGenerateData) := do
  if vecValues.length ≤ 0 ∨ vecKeys.length ≤ 0 then return (false, [])
  let totalNum := (vecValues.map List.length).sum
  let sent ← (List.range vecValues.length).foldlM (fun acc iTabl => do
    let rows ← Res.ofOption vecValues[iTabl]?
    (List.range rows.length).foldlM
      (putRow msgHeadKey totalNum tableName vecKeys vecValues iTabl) acc) (0, [])
  return (true, sent.2)

/-- The heads of so many records, the first one numbered behind `SendPro` others. -/
def headsOf (msgHeadKey : String) (totalNum sendPro : ℕ) (rs : List GenerateData) : List HeadGenerateData :=
  rs.mapIdx fun m r => ⟨msgHeadKey, totalNum, sendPro + m + 1, [r]⟩

theorem headsOf_append (msgHeadKey : String) (totalNum sendPro : ℕ) (rs rs' : List GenerateData) :
    headsOf msgHeadKey totalNum sendPro (rs ++ rs') = headsOf msgHeadKey totalNum sendPro rs ++
      headsOf msgHeadKey totalNum (sendPro + rs.length) rs' := by
  rw [headsOf, List.mapIdx_append, headsOf, headsOf]
  congr 2
  funext m r
  simp only [HeadGenerateData.mk.injEq, true_and, and_true]
  omega

section OneRow
variable {msgHeadKey : String} {totalNum : ℕ}

theorem putRow_eq {tables : List Table} {i : ℕ} {t : Table} (ht : tables[i]? = some t) :
    putRow msgHeadKey totalNum (tables.map Table.name) (tables.map Table.keys) (tables.map Table.rows) i =
      fun acc nIndex => Res.ofOption t.rows[nIndex]? >>= fun row =>
        .ok (acc.1 + 1, acc.2 ++ headsOf msgHeadKey totalNum acc.1 [record t.name t.keys row]) := by
  funext acc nIndex
  simp only [putRow, List.getElem?_map, ht, Option.map_some, Res.ofOption_some, Res.ok_bind]
  rfl

/-- The loop over the rows of a table. -/
theorem foldlM_putRow (t : Table) (rows : List Row) (acc : ℕ × List HeadGenerateData) :
    rows.foldlM (fun acc row => (.ok (acc.1 + 1, acc.2 ++
      headsOf msgHeadKey totalNum acc.1 [record t.name t.keys row]) : Res (ℕ × List HeadGenerateData))) acc =
      .ok (acc.1 + rows.length, acc.2 ++ headsOf msgHeadKey totalNum acc.1 (records t rows)) := by
  induction rows generalizing acc with
  | nil => simp [records, headsOf]
  | cons row rows ih =>
    have hsplit := headsOf_append msgHeadKey totalNum acc.1 [record t.name t.keys row] (records t rows)
    rw [List.foldlM_cons, Res.ok_bind, ih, List.append_assoc, List.length_cons]
    rw [List.length_singleton] at hsplit
    rw [← hsplit, Nat.add_assoc, Nat.add_comm 1]
    rfl

/-- The loop over the tables. -/
theorem foldlM_putTables (tables : List Table) (acc : ℕ × List HeadGenerateData) :
    tables.foldlM (fun acc t => (.ok (acc.1 + t.rows.length,
      acc.2 ++ headsOf msgHeadKey totalNum acc.1 (records t t.rows)) :
        Res (ℕ × List HeadGenerateData))) acc =
      .ok (acc.1 + (tables.map fun t => t.rows.length).sum,
        acc.2 ++ headsOf msgHeadKey totalNum acc.1 (tables.flatMap fun t => records t t.rows)) := by
  induction tables generalizing acc with
  | nil => simp [headsOf]
  | cons t tables ih =>
    have hlen : (records t t.rows).length = t.rows.length := List.length_map ..
    rw [List.foldlM_cons, Res.ok_bind, ih, List.flatMap_cons, headsOf_append, hlen, List.map_cons,
      List.sum_cons, List.append_assoc, Nat.add_assoc]

end OneRow

/-- Both loops, from the first row on. -/
theorem putOneMessageQueues_headsOf (msgHeadKey : String) (tables : List Table) :
    putOneMessageQueues msgHeadKey (tables.map Table.name) (tables.map Table.keys) (tables.map Table.rows) =
      .ok (decide (tables ≠ []), headsOf msgHeadKey (tables.map fun t => t.rows.length).sum 0
        (tables.flatMap fun t => records t t.rows)) := by
  by_cases hne : tables = []
  · subst hne
    rfl
  have hpos := List.length_pos_iff.mpr hne
  have htotal : ((tables.map Table.rows).map List.length).sum = (tables.map fun t => t.rows.length).sum := by
    rw [List.map_map]
    rfl
  have hround : (fun (acc : ℕ × List HeadGenerateData) iTabl => do
      let rows ← Res.ofOption (tables.map Table.rows)[iTabl]?
      (List.range rows.length).foldlM (putRow msgHeadKey ((tables.map Table.rows).map List.length).sum
        (tables.map Table.name) (tables.map Table.keys) (tables.map Table.rows) iTabl) acc) =
      fun acc iTabl => Res.ofOption tables[iTabl]? >>= fun t => (.ok (acc.1 + t.rows.length,
        acc.2 ++ headsOf msgHeadKey (tables.map fun t => t.rows.length).sum acc.1 (records t t.rows)) :
          Res (ℕ × List HeadGenerateData)) := by
    funext acc i
    rw [List.getElem?_map, htotal]
    cases ht : tables[i]? with
    | none => rfl
    | some t =>
      rw [Option.map_some, Res.ofOption_some, Res.ok_bind, Res.ofOption_some, Res.ok_bind, putRow_eq ht,
        Res.foldlM_range_getElem?, foldlM_putRow]
  rw [putOneMessageQueues, if_neg (by simp only [List.length_map]; omega)]
  dsimp only
  rw [hround, List.length_map, Res.foldlM_range_getElem?, foldlM_putTables, Res.ok_bind, Res.pure_eq,
    decide_eq_true hne, List.nil_append]

/-- **One row to a message**: a head for every row of every table, in order, the heads numbered from one on
under their number. -/
theorem putOneMessageQueues_spec (msgHeadKey : String) (tables : List Table) :
    putOneMessageQueues msgHeadKey (tables.map Table.name) (tables.map Table.keys)
      (tables.map Table.rows) = .ok (decide (tables ≠ []),
        (tables.flatMap fun t => t.rows.map (record t.name t.keys)).mapIdx fun m r =>
          ⟨msgHeadKey, (tables.map fun t => t.rows.length).sum, m + 1, [r]⟩) := by
  rw [putOneMessageQueues_headsOf]
  simp [headsOf, records]

/-- A table without rows does not show. -/
example : putOneMessageQueues "head" ["a", "b", "c"] [["k"], ["k"], ["l"]] [[["1"], ["2"]], [], [["3"]]] =
    .ok (true, [⟨"head", 3, 1, [⟨"a", ["k"], ["1"]⟩]⟩, ⟨"head", 3, 2, [⟨"a", ["k"], ["2"]⟩]⟩,
      ⟨"head", 3, 3, [⟨"c", ["l"], ["3"]⟩]⟩]) := by decide

end DataSync.Client.PutMessageQueue
