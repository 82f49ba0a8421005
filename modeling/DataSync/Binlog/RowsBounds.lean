import DataSync.Binlog.FieldReads
import DataSync.Binlog.RowImage
import DataSync.Lib.Loop

/-! # How far the rows of an event are read

`printOneRow` takes the length of the null bitmap, of every field and so of the whole image from the bytes
themselves and compares none of them with the event. `walk` is the offset the declared lengths lead to,
`ImageFits` says that every byte looked at on the way is there.

`exists_printOneRow_iff`: an image is decoded exactly when it fits. `exists_reaches_iff` and
`exists_parseRows_iff` carry this over the rounds of the loop of `parseEvent`: round `k` starts at
`position k`. -/

namespace DataSync.Binlog.RowsBounds

open DataSync.Lib DataSync.Lib.Words DataSync.Lib.Memory DataSync.Binlog.Format DataSync.Binlog.Bitmap
open DataSync.Binlog.Field DataSync.Binlog.TableDef DataSync.Binlog.RowsEvent
open DataSync.Binlog.RowImage DataSync.Binlog.FieldReads

/-! ### Columns -/

/-- How far a column reads into the bytes of its field. -/
def columnReads (data : Bytes) (type fmeta : ℕ) : ℕ :=
  fieldReads data (FieldType.ofCode (resolveType type fmeta).1) fmeta (resolveType type fmeta).2

/-- How far a column steps. -/
def columnStep (data : Bytes) (type fmeta : ℕ) : ℕ :=
  fieldStep data (FieldType.ofCode (resolveType type fmeta).1) fmeta (resolveType type fmeta).2

/-- The field of a column lies at the front of `data`. -/
def FieldFits (data : Bytes) (type fmeta : ℕ) : Prop :=
  Decodable (FieldType.ofCode (resolveType type fmeta).1) fmeta ∧ columnReads data type fmeta ≤ data.length

theorem parseOneRowData_ptr (rowValues : List RowValue) (p : Ptr) (type fmeta : ℕ) :
    parseOneRowData rowValues (some p) type fmeta =
      (parseField p (FieldType.ofCode (resolveType type fmeta).1) fmeta (resolveType type fmeta).2).map
        fun r => (rowValues ++ (r.1.map fun v => RowValue.copy ⟨(resolveType type fmeta).1, v⟩).toList,
          r.2) := by
  have hpair : resolveType type fmeta = ((resolveType type fmeta).1, (resolveType type fmeta).2) := rfl
  exact parseOneRowData_some hpair rowValues p

theorem exists_parseOneRowData_iff {rowValues : List RowValue} {p : Ptr} {type fmeta : ℕ} :
    (∃ r, parseOneRowData rowValues (some p) type fmeta = .ok r) ↔ FieldFits p.data type fmeta := by
  unfold FieldFits columnReads
  rw [← exists_parseField_iff, parseOneRowData_ptr]
  constructor
  · rintro ⟨r, hr⟩
    obtain ⟨r', hr', -⟩ := Res.map_eq_ok.mp hr
    exact ⟨r', hr'⟩
  · rintro ⟨r, hr⟩
    exact ⟨_, by rw [hr]; rfl⟩

theorem parseOneRowData_snd {rowValues : List RowValue} {p : Ptr} {type fmeta : ℕ}
    {r : List RowValue × ℕ} (h : parseOneRowData rowValues (some p) type fmeta = .ok r) :
    r.2 = columnStep p.data type fmeta := by
  rw [parseOneRowData_ptr] at h
  obtain ⟨r', hr', rfl⟩ := Res.map_eq_ok.mp h
  exact parseField_snd hr'

theorem parseOneRowData_none (rowValues : List RowValue) (type fmeta : ℕ) :
    ∃ values, parseOneRowData rowValues none type fmeta = .ok (values, 0) := by
  unfold parseOneRowData
  exact ⟨_, rfl⟩

/-! ### Images -/

/-- Where the walk through the columns of an image stands: the present columns so far and the offset of
the next field. -/
structure Walk where
  nulls : ℕ
  offset : ℕ
  deriving DecidableEq, Repr

section Image
variable (td : CTableDef) (cols : MyBitmap) (data : Bytes)

/-- The walk behind column `i`: a present column moves it by its field, which is empty when the column is
NULL. -/
def Walk.next (w : Walk) (i : ℕ) : Walk :=
  match bitmapIsSet cols i, td.column i with
  | .ok true, .ok (type, fmeta) =>
    ⟨w.nulls + 1, w.offset +
      if bitAt data w.nulls then 0 else columnStep (data.drop w.offset) type fmeta⟩
  | _, _ => w

/-- The walk behind some columns. -/
def walk (is : List ℕ) (w : Walk) : Walk := is.foldl (Walk.next td cols data) w

/-- Column `i` lies inside the image at `data`: its null bit, which is looked at for an absent column as
well, and its field. -/
def ColumnFits (w : Walk) (i : ℕ) : Prop :=
  w.nulls / 8 < data.length ∧ (bitmapIsSet cols i = .ok false ∨ bitmapIsSet cols i = .ok true ∧
    ∃ type fmeta, td.column i = .ok (type, fmeta) ∧
      (bitAt data w.nulls = true ∨ FieldFits (data.drop w.offset) type fmeta))

/-- The columns, one behind the other, lie inside. -/
def ColumnsFit : List ℕ → Walk → Prop
  | [], _ => True
  | i :: is, w => ColumnFits td cols data w i ∧ ColumnsFit is (w.next td cols data i)

/-- The bytes of the null bitmap. -/
def nullBytes : ℕ := ((bitmapBitsSet cols).toOption.getD 0 + 7) / 8

/-- An image of `n` columns lies inside `data`. -/
def ImageFits (n : ℕ) : Prop :=
  (∃ k, bitmapBitsSet cols = .ok k) ∧ ColumnsFit td cols data (List.range n) ⟨0, nullBytes cols⟩

/-- The length of an image of `n` columns, a 32-bit number. -/
def imageLength (n : ℕ) : ℕ :=
  (walk td cols data (List.range n) ⟨0, nullBytes cols⟩).offset % 2 ^ 32

end Image

section Decode
variable {td : CTableDef} {cols : MyBitmap} {p : Ptr}

/-- The state of `printOneRow` at a place of the walk. -/
def At (p : Ptr) (w : Walk) (st : RowState) : Prop :=
  st.value = p.add w.offset ∧ st.nullBitIndex = w.nulls

/-- **One column** is decoded exactly when it lies inside. -/
theorem exists_printColumn_iff {w : Walk} {st : RowState} (hst : At p w st) (i : ℕ) :
    (∃ st', printColumn td cols p st i = .ok st') ↔ ColumnFits td cols p.data w i := by
  obtain ⟨hvalue, hnull⟩ := hst
  unfold printColumn ColumnFits
  rw [hnull]
  rcases Nat.lt_or_ge (w.nulls / 8) p.data.length with hlt | hge
  · obtain ⟨b, hb, hbit⟩ := read_bit hlt
    rw [hb, Res.ok_bind, hbit, Res.exists_bind_iff]
    constructor
    · rintro ⟨_ | _, hset, st', hst'⟩
      · exact ⟨hlt, .inl hset⟩
      · rw [if_pos rfl] at hst'
        obtain ⟨⟨type, fmeta⟩, hcol, hst'⟩ := Res.bind_eq_ok.mp hst'
        obtain ⟨r, hr, -⟩ := Res.bind_eq_ok.mp hst'
        refine ⟨hlt, .inr ⟨hset, type, fmeta, hcol, ?_⟩⟩
        rcases hnullBit : bitAt p.data w.nulls with _ | _
        · rw [hnullBit, if_neg (by simp), hvalue] at hr
          exact .inr (exists_parseOneRowData_iff.mp ⟨r, hr⟩)
        · exact .inl rfl
    · rintro ⟨-, hset | ⟨hset, type, fmeta, hcol, hfield⟩⟩
      · exact ⟨false, hset, st, rfl⟩
      · refine ⟨true, hset, ?_⟩
        rw [if_pos rfl, hcol, Res.ok_bind]
        dsimp only
        rcases hnullBit : bitAt p.data w.nulls with _ | _
        · have hfits : FieldFits (p.add w.offset).data type fmeta := by
            rcases hfield with hfield | hfield
            · rw [hnullBit] at hfield; cases hfield
            · exact hfield
          obtain ⟨r, hr⟩ := exists_parseOneRowData_iff.mpr hfits
          rw [if_neg (by simp), hvalue, hr, Res.ok_bind]
          exact ⟨_, rfl⟩
        · obtain ⟨values, hnone⟩ := parseOneRowData_none st.rowValues type fmeta
          rw [if_pos rfl, hnone, Res.ok_bind]
          exact ⟨_, rfl⟩
  · have hread : p.read (w.nulls / 8) = .error .fault := by
      unfold Ptr.read
      rw [List.getElem?_eq_none hge, Res.ofOption_none]
    rw [hread]
    simp only [Res.error_bind]
    constructor
    · rintro ⟨st', hst'⟩; cases hst'
    · rintro ⟨hlt, -⟩; omega

theorem printColumn_at {w : Walk} {st st' : RowState} (hst : At p w st) {i : ℕ}
    (h : printColumn td cols p st i = .ok st') : At p (w.next td cols p.data i) st' := by
  obtain ⟨hlt, -⟩ := (exists_printColumn_iff hst i).mp ⟨st', h⟩
  obtain ⟨hvalue, hnull⟩ := hst
  obtain ⟨b, hb, hbit⟩ := read_bit hlt
  obtain ⟨byte, hbyte, ⟨hset, rfl⟩ | ⟨hset, ⟨type, fmeta⟩, r, hcol, hr, rfl⟩⟩ := printColumn_cases h
  · have hnext : w.next td cols p.data i = w := by unfold Walk.next; rw [hset]
    rw [hnext]
    exact ⟨hvalue, hnull⟩
  · rw [hnull] at hbyte hr ⊢
    obtain rfl := Except.ok.inj (hb.symm.trans hbyte)
    rw [hbit] at hr
    unfold Walk.next
    rw [hset, hcol]
    refine ⟨?_, by dsimp only⟩
    rcases hnullBit : bitAt p.data w.nulls with _ | _
    · rw [hnullBit, if_neg (by simp), hvalue] at hr
      have hstep := parseOneRowData_snd hr
      rw [Ptr.add_data] at hstep
      simp only [hvalue, hstep, Ptr.add_add, Bool.false_eq_true, if_false]
    · obtain ⟨values, hnone⟩ := parseOneRowData_none st.rowValues type fmeta
      rw [hnullBit, if_pos rfl, hnone] at hr
      obtain rfl := Except.ok.inj hr
      simp only [hvalue, Ptr.add_add, if_true]

/-- **The columns of an image** are decoded exactly when they lie inside. -/
theorem exists_foldlM_printColumn_iff (is : List ℕ) {w : Walk} {st : RowState} (hst : At p w st) :
    (∃ st', is.foldlM (printColumn td cols p) st = .ok st') ↔ ColumnsFit td cols p.data is w := by
  induction is generalizing w st with
  | nil => exact ⟨fun _ => trivial, fun _ => ⟨st, rfl⟩⟩
  | cons i is ih =>
    rw [List.foldlM_cons, Res.exists_bind_iff, ColumnsFit, ← exists_printColumn_iff hst]
    constructor
    · rintro ⟨st₁, hst₁, hrest⟩
      exact ⟨⟨st₁, hst₁⟩, (ih (printColumn_at hst hst₁)).mp hrest⟩
    · rintro ⟨⟨st₁, hst₁⟩, hrest⟩
      exact ⟨st₁, hst₁, (ih (printColumn_at hst hst₁)).mpr hrest⟩

theorem foldlM_printColumn_at (is : List ℕ) {w : Walk} {st st' : RowState} (hst : At p w st)
    (h : is.foldlM (printColumn td cols p) st = .ok st') : At p (walk td cols p.data is w) st' := by
  induction is generalizing w st with
  | nil => exact Except.ok.inj h ▸ hst
  | cons i is ih =>
    rw [List.foldlM_cons] at h
    obtain ⟨st₁, hst₁, h⟩ := Res.bind_eq_ok.mp h
    exact ih (printColumn_at hst hst₁) h

/-- The walk starts behind the null bitmap. -/
theorem at_start {k : ℕ} (hk : bitmapBitsSet cols = .ok k) (rowValues : List RowValue) :
    At p ⟨0, nullBytes cols⟩ ⟨rowValues, p.add ((k + 7) / 8), 0⟩ := by
  unfold At nullBytes
  rw [hk]
  exact ⟨rfl, rfl⟩

/-- **An image is decoded** exactly when it lies inside. -/
theorem exists_printOneRow_iff {rowValues : List RowValue} {n : ℕ} :
    (∃ r, printOneRow rowValues td cols n p = .ok r) ↔ ImageFits td cols p.data n := by
  unfold printOneRow ImageFits
  rw [Res.exists_bind_iff]
  constructor
  · rintro ⟨k, hk, r, hr⟩
    obtain ⟨st, hst, -⟩ := Res.bind_eq_ok.mp hr
    exact ⟨⟨k, hk⟩, (exists_foldlM_printColumn_iff _ (at_start hk rowValues)).mp ⟨st, hst⟩⟩
  · rintro ⟨⟨k, hk⟩, hcols⟩
    obtain ⟨st, hst⟩ := (exists_foldlM_printColumn_iff _ (at_start hk rowValues)).mpr hcols
    refine ⟨k, hk, ?_⟩
    dsimp only
    rw [hst, Res.ok_bind]
    exact ⟨_, rfl⟩

theorem printOneRow_snd {rowValues : List RowValue} {n : ℕ} {r : List RowValue × ℕ}
    (h : printOneRow rowValues td cols n p = .ok r) : r.2 = imageLength td cols p.data n := by
  obtain ⟨k, st, hk, hst, rfl⟩ := printOneRow_cases h
  obtain ⟨hvalue, -⟩ := foldlM_printColumn_at _ (at_start hk rowValues) hst
  dsimp only
  rw [hvalue, Ptr.add_addr, Nat.add_sub_cancel_left]
  rfl

end Decode

/-! ### Decoding an image ends -/

theorem ends_bitmapIsSet (cols : MyBitmap) (i : ℕ) : Res.Ends (bitmapIsSet cols i) := by
  refine Res.Ends.bind (Res.ends_ofOption _) fun bs _ => ?_
  split_ifs
  · exact Res.ends_fault
  · exact Res.ends_ok _

theorem ends_bitmapBitsSet (cols : MyBitmap) : Res.Ends (bitmapBitsSet cols) := by
  refine Res.Ends.bind (Res.ends_ofOption _) fun bs _ => ?_
  split_ifs
  · exact Res.ends_fault
  · exact Res.ends_ok _

theorem ends_column (td : CTableDef) (i : ℕ) : Res.Ends (td.column i) := by
  have htype : Res.Ends (td.type i) := by
    refine Res.Ends.bind (Res.ends_ofOption _) fun t _ => ?_
    refine Res.Ends.bind (Res.ends_ofOption _) fun m _ => ?_
    split <;> exact Res.ends_ok _
  have hmeta : Res.Ends (td.fieldMeta i) := by
    refine Res.Ends.bind (Res.ends_ofOption _) fun size _ => ?_
    split_ifs <;> simp
  exact Res.Ends.bind htype fun _ _ => Res.Ends.bind hmeta fun _ _ => Res.ends_ok _

theorem ends_parseOneRowData (rowValues : List RowValue) (ptrData : Option Ptr) (type fmeta : ℕ) :
    Res.Ends (parseOneRowData rowValues ptrData type fmeta) := by
  cases ptrData with
  | none =>
    obtain ⟨values, h⟩ := parseOneRowData_none rowValues type fmeta
    rw [h]
    exact Res.ends_ok _
  | some p =>
    rw [parseOneRowData_ptr]
    exact Res.Ends.map _ (ends_parseField _ _ _ _)

theorem ends_printOneRow (rowValues : List RowValue) (td : CTableDef) (cols : MyBitmap) (n : ℕ) (p : Ptr) :
    Res.Ends (printOneRow rowValues td cols n p) := by
  have hcolumn (st : RowState) (i : ℕ) : Res.Ends (printColumn td cols p st i) := by
    refine Res.Ends.bind (Ptr.ends_read _ _) fun b _ => ?_
    refine Res.Ends.bind (ends_bitmapIsSet _ _) fun set _ => ?_
    cases set with
    | false => exact Res.ends_ok _
    | true =>
      rw [if_pos rfl]
      refine Res.Ends.bind (ends_column _ _) fun c _ => ?_
      exact Res.Ends.bind (ends_parseOneRowData _ _ _ _) fun r _ => Res.ends_ok _
  have hcolumns (is : List ℕ) (st : RowState) : Res.Ends (is.foldlM (printColumn td cols p) st) := by
    induction is generalizing st with
    | nil => exact Res.ends_ok _
    | cons i is ih =>
      rw [List.foldlM_cons]
      exact Res.Ends.bind (hcolumn st i) fun st' _ => ih st'
  refine Res.Ends.bind (ends_bitmapBitsSet _) fun k _ => ?_
  exact Res.Ends.bind (hcolumns _ _) fun st _ => Res.ends_ok _

/-! ### Rounds -/

section Round
variable (update : Bool) (td : CTableDef) (cols : MyBitmap) (n : ℕ)

/-- The images one round of the loop decodes lie inside `data`: one, or the two of an UPDATE. -/
def RoundFits (data : Bytes) : Prop :=
  ImageFits td cols data n ∧
    (update = true → ImageFits td cols (data.drop (imageLength td cols data n)) n)

/-- The length of the images of one round. -/
def roundLength (data : Bytes) : ℕ :=
  imageLength td cols data n +
    if update then imageLength td cols (data.drop (imageLength td cols data n)) n else 0

variable {update td cols n}

/-- **One round** is made exactly when its images lie inside. -/
theorem exists_parseRow_iff {st : RowsState} : (∃ st', parseRow update td cols n st = .ok st') ↔
    RoundFits update td cols n st.ptr.data := by
  unfold parseRow RoundFits
  rw [Res.exists_bind_iff]
  constructor
  · rintro ⟨r, hr, st', hst'⟩
    refine ⟨exists_printOneRow_iff.mp ⟨r, hr⟩, fun hupdate => ?_⟩
    dsimp only at hst'
    rw [if_pos hupdate] at hst'
    obtain ⟨r', hr', -⟩ := Res.bind_eq_ok.mp hst'
    rw [printOneRow_snd hr] at hr'
    exact exists_printOneRow_iff.mp ⟨r', hr'⟩
  · rintro ⟨hfirst, hsecond⟩
    obtain ⟨r, hr⟩ := exists_printOneRow_iff.mpr hfirst
    refine ⟨r, hr, ?_⟩
    have hlen := printOneRow_snd hr
    dsimp only
    split_ifs with hupdate
    · have hfits : ImageFits td cols (st.ptr.add r.2).data n := by
        rw [hlen]
        exact hsecond hupdate
      obtain ⟨r', hr'⟩ := exists_printOneRow_iff.mpr hfits
      exact Res.exists_bind ⟨r', hr'⟩ fun _ => ⟨_, rfl⟩
    · exact ⟨_, rfl⟩

theorem parseRow_state {st st' : RowsState} (h : parseRow update td cols n st = .ok st') :
    st'.ptr = st.ptr.add (roundLength update td cols n st.ptr.data) ∧
      st'.tmpDataLen = (st.tmpDataLen + roundLength update td cols n st.ptr.data) % 2 ^ 32 := by
  obtain ⟨r, hr, ⟨rfl, rfl⟩ | ⟨rfl, r', hr', rfl⟩⟩ := parseRow_cases h
  · have hlen := printOneRow_snd hr
    rw [roundLength, if_neg (by simp), ← hlen, Nat.add_zero]
    exact ⟨rfl, rfl⟩
  · have hlen := printOneRow_snd hr
    have hlen' := printOneRow_snd hr'
    rw [Ptr.add_data, hlen] at hlen'
    rw [roundLength, if_pos rfl, ← hlen', ← hlen]
    refine ⟨Ptr.add_add .., ?_⟩
    dsimp only
    omega

theorem ends_parseRow (st : RowsState) : Res.Ends (parseRow update td cols n st) := by
  refine Res.Ends.bind (ends_printOneRow _ _ _ _ _) fun r _ => ?_
  dsimp only
  split_ifs
  · exact Res.Ends.bind (ends_printOneRow _ _ _ _ _) fun _ _ => Res.ends_ok _
  · exact Res.ends_ok _

end Round

/-! ### The loop -/

section Rows
variable (update : Bool) (td : CTableDef) (cols : MyBitmap) (n : ℕ) (data : Bytes) (limit : ℕ)

/-- Where the rounds stand in the row data, by the lengths they have. -/
def position : ℕ → ℕ
  | 0 => 0
  | k + 1 => position k + roundLength update td cols n (data.drop (position k))

/-- The loop of `parseEvent` comes to round `k`: the bytes counted before each round, in 32 bits, have
been fewer than the bound. -/
def Comes (k : ℕ) : Prop := ∀ j ≤ k, position update td cols n data j % 2 ^ 32 < limit

/-- The loop of `parseEvent` ends behind `k` rounds. -/
def EndsBehind (k : ℕ) : Prop :=
  (∀ j < k, position update td cols n data j % 2 ^ 32 < limit) ∧
    limit ≤ position update td cols n data k % 2 ^ 32

/-- One round of the loop, as a round of a general loop. -/
def rowsRound (st : RowsState) : Res (RowsState ⊕ RowsState) :=
  if st.tmpDataLen < limit then Sum.inl <$> parseRow update td cols n st else .ok (.inr st)

variable {update td cols n limit}

theorem parseRows_eq_run (fuel : ℕ) (st : RowsState) :
    parseRows update td cols n limit fuel st = Loop.run (rowsRound update td cols n limit) fuel st := by
  induction fuel generalizing st with
  | zero => rfl
  | succ fuel ih =>
    unfold parseRows Loop.run rowsRound
    split_ifs with hlt
    · cases hrow : parseRow update td cols n st with
      | error e => rfl
      | ok st' =>
        rw [Res.ok_bind, Res.map_ok, Res.ok_bind]
        exact ih st'
    · rfl

/-- A round goes on when the bound is not reached and its images lie inside. -/
theorem rowsRound_inl_iff {st st' : RowsState} : rowsRound update td cols n limit st = .ok (.inl st') ↔
    st.tmpDataLen < limit ∧ parseRow update td cols n st = .ok st' := by
  unfold rowsRound
  split_ifs with hlt
  · cases parseRow update td cols n st <;> simp [hlt, Functor.map, Except.map]
  · simp [hlt]

theorem rowsRound_inr_iff {st st' : RowsState} : rowsRound update td cols n limit st = .ok (.inr st') ↔
    limit ≤ st.tmpDataLen ∧ st = st' := by
  unfold rowsRound
  split_ifs with hlt
  · cases parseRow update td cols n st <;> simp [hlt, Functor.map, Except.map]
  · simp [not_lt.mp hlt]

section Start
variable {st₀ : RowsState} (hstart : st₀.tmpDataLen = 0)
include hstart

/-- **The state of the loop** behind `k` rounds. -/
theorem reaches_state {k : ℕ} {st : RowsState}
    (h : Loop.Reaches (rowsRound update td cols n limit) k st₀ st) :
    st.ptr = st₀.ptr.add (position update td cols n st₀.ptr.data k) ∧
      st.tmpDataLen = position update td cols n st₀.ptr.data k % 2 ^ 32 := by
  induction k generalizing st with
  | zero =>
    obtain _ | _ := h
    exact ⟨rfl, hstart⟩
  | succ k ih =>
    obtain ⟨st₁, h₁, hround⟩ := h.succ_cases
    obtain ⟨hptr, htmp⟩ := ih h₁
    obtain ⟨hptr', htmp'⟩ := parseRow_state (rowsRound_inl_iff.mp hround).2
    rw [hptr, Ptr.add_data] at hptr' htmp'
    rw [hptr', htmp', htmp, position, Ptr.add_add, Nat.mod_add_mod]
    exact ⟨rfl, rfl⟩

/-- **The loop comes behind `k` rounds** when the bound is not reached before any of them and each of
them lies inside. -/
theorem exists_reaches_iff {k : ℕ} :
    (∃ st, Loop.Reaches (rowsRound update td cols n limit) k st₀ st) ↔
      ∀ j < k, position update td cols n st₀.ptr.data j % 2 ^ 32 < limit ∧
        RoundFits update td cols n (st₀.ptr.data.drop (position update td cols n st₀.ptr.data j)) := by
  induction k with
  | zero => exact ⟨fun _ j hj => by omega, fun _ => ⟨st₀, .refl st₀⟩⟩
  | succ k ih =>
    constructor
    · rintro ⟨st, hst⟩ j hj
      obtain ⟨st₁, h₁, hround⟩ := hst.succ_cases
      rcases Nat.lt_or_ge j k with hlt | hge
      · exact ih.mp ⟨st₁, h₁⟩ j hlt
      · obtain rfl : j = k := by omega
        obtain ⟨hptr, htmp⟩ := reaches_state hstart h₁
        obtain ⟨hlimit, hrow⟩ := rowsRound_inl_iff.mp hround
        have hfits := exists_parseRow_iff.mp ⟨st, hrow⟩
        rw [hptr] at hfits
        exact ⟨htmp ▸ hlimit, hfits⟩
    · intro h
      obtain ⟨st₁, h₁⟩ := ih.mpr fun j hj => h j (by omega)
      obtain ⟨hptr, htmp⟩ := reaches_state hstart h₁
      obtain ⟨hlimit, hfits⟩ := h k (by omega)
      rw [← Ptr.add_data, ← hptr] at hfits
      obtain ⟨st, hst⟩ := exists_parseRow_iff.mpr hfits
      exact ⟨st, h₁.tail (rowsRound_inl_iff.mpr ⟨htmp ▸ hlimit, hst⟩)⟩

/-- **The loop has a result within `fuel` rounds** when it ends and every round before lies inside. -/
theorem exists_parseRows_iff {fuel : ℕ} :
    (∃ st, parseRows update td cols n limit fuel st₀ = .ok st) ↔
      ∃ k < fuel, EndsBehind update td cols n st₀.ptr.data limit k ∧
        ∀ j < k, RoundFits update td cols n
          (st₀.ptr.data.drop (position update td cols n st₀.ptr.data j)) := by
  simp only [parseRows_eq_run, Loop.run_ok_iff]
  constructor
  · rintro ⟨st, k, hk, st', hreach, hleave⟩
    have hrounds := (exists_reaches_iff hstart).mp ⟨st', hreach⟩
    obtain ⟨hlimit, -⟩ := rowsRound_inr_iff.mp hleave
    obtain ⟨-, htmp⟩ := reaches_state hstart hreach
    exact ⟨k, hk, ⟨fun j hj => (hrounds j hj).1, htmp ▸ hlimit⟩, fun j hj => (hrounds j hj).2⟩
  · rintro ⟨k, hk, ⟨hbefore, hlimit⟩, hfits⟩
    obtain ⟨st, hst⟩ := (exists_reaches_iff hstart).mpr fun j hj => ⟨hbefore j hj, hfits j hj⟩
    obtain ⟨-, htmp⟩ := reaches_state hstart hst
    exact ⟨st, k, hk, st, hst, rowsRound_inr_iff.mpr ⟨htmp ▸ hlimit, rfl⟩⟩

end Start

end Rows

end DataSync.Binlog.RowsBounds
