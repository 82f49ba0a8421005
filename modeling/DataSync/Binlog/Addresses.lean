import DataSync.Binlog.Files
import DataSync.Binlog.RowsBounds
import DataSync.Binlog.TableLookup

/-! # Where an event is in memory

Every event is read into a buffer of its own, and two parsers have their buffers at different addresses.
What is made of an event depends on its bytes alone, except that the TINYINT branch of `parseOneRowData`
stores the address of the field instead of its value.

`AddressFree` says of a file that no rows event in it holds a TINYINT value, under the table map that is
registered for it by then; tables without such a column are enough. `foldlM_handle_addr`: the events of such a file are handled alike wherever their
buffers are. -/

namespace DataSync.Binlog.Addresses

open DataSync.Lib DataSync.Lib.Words DataSync.Lib.Memory DataSync.Binlog.Format DataSync.Binlog.Bitmap
open DataSync.Binlog.Field DataSync.Binlog.TableDef DataSync.Binlog.RowsEvent DataSync.Binlog.LogEvent
open DataSync.Binlog.RowImage DataSync.Binlog.RowsBounds DataSync.Binlog.ParseLogEntry
open DataSync.Binlog.EventStream DataSync.Binlog.Files DataSync.Binlog.TableNames
open DataSync.Binlog.TableLookup

/-! ### Row data without TINYINT values -/

section Image
variable (td : CTableDef) (cols : MyBitmap) (data : Bytes)

/-- Column `i` is present, of type TINYINT and not NULL. -/
def StoresAddress (w : Walk) (i : ℕ) : Prop :=
  bitmapIsSet cols i = .ok true ∧ td.columnType[i]? = some 1 ∧ bitAt data w.nulls = false

/-- None of the columns is, one behind the other. -/
def ColumnsFree : List ℕ → Walk → Prop
  | [], _ => True
  | i :: is, w => ¬ StoresAddress td cols data w i ∧ ColumnsFree is (w.next td cols data i)

/-- An image of `n` columns has no TINYINT value. -/
def ImageFree (n : ℕ) : Prop := ColumnsFree td cols data (List.range n) ⟨0, nullBytes cols⟩

end Image

/-- Nor have the images of one round: one, or the two of an UPDATE. -/
def RoundFree (update : Bool) (td : CTableDef) (cols : MyBitmap) (n : ℕ) (data : Bytes) : Prop :=
  ImageFree td cols data n ∧
    (update = true → ImageFree td cols (data.drop (imageLength td cols data n)) n)

/-- The rows of a loaded event have no TINYINT value, in any round the loop of `parseEvent` comes to. -/
def RowsFree (ev : CRowsEvent) (td : CTableDef) : Prop :=
  ∀ ptr len n, ev.ptrRowsData = some ptr → ev.rowsDataLen = some len → ev.columnCount = some n →
    ∀ k, Comes (decide (ev.kind = .update)) td ev.cols n ptr.data (rowsLimit len) k →
      RoundFree (decide (ev.kind = .update)) td ev.cols n
        (ptr.data.drop (position (decide (ev.kind = .update)) td ev.cols n ptr.data k))

/-- The registry of table maps behind an event. -/
def register (gde : CHeaderEvent) (maps : ℕ → Option CTableMapEvent) (p : Ptr) : ℕ → Option CTableMapEvent :=
  match mapOf gde p with
  | some (tableId, ev) => Function.update maps (tableId % 2 ^ 32) (some ev)
  | none => maps

/-- If the event is a rows event, its rows have no TINYINT value under the table map registered for it. -/
def EventFree (gde : CHeaderEvent) (maps : ℕ → Option CTableMapEvent) (p : Ptr) : Prop :=
  ∀ kind ev state tableId map td, (typeOf p).bind rowsKind = some kind →
    CRowsEvent.loadEvent gde kind p = .ok (ev, state) → ev.tableId = some tableId →
      maps tableId = some map → map.createTableDef = .ok td → RowsFree ev td

/-- No event of the stream holds a TINYINT value. -/
def StreamFree (gde : CHeaderEvent) : (ℕ → Option CTableMapEvent) → List Bytes → Prop
  | _, [] => True
  | maps, bs :: events => EventFree gde maps ⟨0, bs ++ [0]⟩ ∧
      StreamFree gde (register gde maps ⟨0, bs ++ [0]⟩) events

/-- No rows event of the file holds a TINYINT value. -/
def AddressFree (f : LogFile) : Prop := StreamFree f.description (fun _ => none) f.events

/-! ### Tables without a TINYINT column -/

/-- No column of the table is a TINYINT. -/
def NoTiny (map : CTableMapEvent) : Prop := 1 ∉ map.columnType

instance (map : CTableMapEvent) : Decidable (NoTiny map) := inferInstanceAs (Decidable (1 ∉ map.columnType))

theorem imageFree_of_noTiny {td : CTableDef} (h : 1 ∉ td.columnType) (cols : MyBitmap) (data : Bytes) (n : ℕ) :
    ImageFree td cols data n := by
  suffices hcolumns : ∀ is w, ColumnsFree td cols data is w from hcolumns _ _
  intro is
  induction is with
  | nil => exact fun _ => trivial
  | cons i is ih => exact fun w => ⟨fun hstores => h (List.mem_of_getElem? hstores.2.1), ih _⟩

/-- A definition has the column types of its table map. -/
theorem columnType_of_createTableDef {map : CTableMapEvent} {td : CTableDef}
    (h : map.createTableDef = .ok td) : td.columnType = map.columnType := by
  unfold CTableMapEvent.createTableDef CTableDef.new at h
  obtain ⟨count, -, h⟩ := Res.bind_eq_ok.mp h
  split_ifs at h
  · obtain rfl := Except.ok.inj h
    rfl
  obtain ⟨size, -, h⟩ := Res.bind_eq_ok.mp h
  split_ifs at h
  · obtain rfl := Except.ok.inj h
    rfl
  obtain ⟨words, -, h⟩ := Res.bind_eq_ok.mp h
  obtain rfl := Except.ok.inj h
  rfl

/-- **A stream whose tables have no TINYINT column** has no TINYINT value. -/
theorem streamFree_of_noTiny {gde : CHeaderEvent} {events : List Bytes}
    (h : ∀ bs ∈ events, ∀ x ∈ mapOf gde ⟨0, bs ++ [0]⟩, NoTiny x.2) {maps : ℕ → Option CTableMapEvent}
    (hmaps : ∀ k map, maps k = some map → NoTiny map) : StreamFree gde maps events := by
  induction events generalizing maps with
  | nil => trivial
  | cons bs events ih =>
    refine ⟨?_, ih (fun e he => h e (List.mem_cons_of_mem bs he)) ?_⟩
    · intro kind ev state tableId map td _ _ _ hmap htd ptr len n _ _ _ k _
      have htiny : 1 ∉ td.columnType := columnType_of_createTableDef htd ▸ hmaps tableId map hmap
      exact ⟨imageFree_of_noTiny htiny _ _ _, fun _ => imageFree_of_noTiny htiny _ _ _⟩
    · intro k map hk
      unfold register at hk
      rcases hmap : mapOf gde ⟨0, bs ++ [0]⟩ with _ | ⟨tableId, ev⟩ <;> rw [hmap] at hk
      · exact hmaps k map hk
      · dsimp only at hk
        rw [Function.update_apply] at hk
        split_ifs at hk
        · exact Option.some.inj hk ▸ h bs List.mem_cons_self _ hmap
        · exact hmaps k map hk

theorem addressFree_of_noTiny {f : LogFile}
    (h : ∀ bs ∈ f.events, ∀ x ∈ mapOf f.description ⟨0, bs ++ [0]⟩, NoTiny x.2) : AddressFree f :=
  streamFree_of_noTiny h nofun

/-! ### One field -/

/-- Every branch but that of TINYINT reads the bytes alone. -/
theorem parseField_addr {type : FieldType} (htype : type ≠ .tiny) (a b : ℕ) (data : Bytes) (fmeta length : ℕ) :
    parseField ⟨a, data⟩ type fmeta length = parseField ⟨b, data⟩ type fmeta length := by
  cases type
  case tiny => exact absurd rfl htype
  all_goals rfl

/-- A column is decoded as TINYINT only if it is one. -/
theorem columnType_of_tiny {td : CTableDef} {i type fmeta : ℕ} (hcolumn : td.column i = .ok (type, fmeta))
    (htiny : FieldType.ofCode (resolveType type fmeta).1 = .tiny) : td.columnType[i]? = some 1 := by
  have hcode : ∀ code, FieldType.ofCode code = .tiny → code = 1 := by
    intro code h
    unfold FieldType.ofCode at h
    split at h <;> first | rfl | cases h
  have htype : type = 1 := by
    have hone := hcode _ htiny
    unfold resolveType at hone
    dsimp only at hone
    split_ifs at hone
    · -- the real type of a STRING column has the bits `0x30`
      have hbit := congrArg (Nat.testBit · 4) hone
      simp only [Nat.testBit_or, show Nat.testBit 48 4 = true by decide, Bool.or_true] at hbit
      exact absurd hbit (by decide)
    all_goals exact hone
  obtain ⟨type', hlook, hcolumn⟩ := Res.bind_eq_ok.mp hcolumn
  obtain ⟨fmeta', -, hcolumn⟩ := Res.bind_eq_ok.mp hcolumn
  obtain ⟨rfl, rfl⟩ := Prod.mk.inj (Except.ok.inj hcolumn)
  obtain ⟨source, hsource, hlook⟩ := Res.bind_eq_ok.mp hlook
  obtain ⟨sourceMetadata, -, hlook⟩ := Res.bind_eq_ok.mp hlook
  rw [Res.ofOption_eq_ok] at hsource
  have hbyte : source.toNat = 1 := by
    dsimp only at hlook
    split at hlook
    · split_ifs at hlook with hreal
      · have := Except.ok.inj hlook
        omega
      · exact (Except.ok.inj hlook).trans htype
    · have := Except.ok.inj hlook
      omega
    · exact (Except.ok.inj hlook).trans htype
  rw [hsource, Option.some.injEq]
  exact UInt8.toNat_inj.mp hbyte

/-! ### Row data -/

section Rows
variable {td : CTableDef} {cols : MyBitmap} {data : Bytes} {a b n : ℕ}

/-- **One column** that stores no address. -/
theorem printColumn_addr {w : Walk} {i : ℕ} (hfree : ¬ StoresAddress td cols data w i) {st st' u : RowState}
    (hst : At ⟨a, data⟩ w st) (hu : At ⟨b, data⟩ w u) (hvalues : u.rowValues = st.rowValues)
    (h : printColumn td cols ⟨a, data⟩ st i = .ok st') :
    ∃ u', printColumn td cols ⟨b, data⟩ u i = .ok u' ∧ u'.rowValues = st'.rowValues := by
  obtain ⟨hlt, -⟩ := (exists_printColumn_iff hst i).mp ⟨st', h⟩
  obtain ⟨byte, hbyte, hbit⟩ := read_bit hlt
  obtain ⟨byte', hread, hcases⟩ := printColumn_cases h
  rw [hst.2, hbyte, Except.ok.injEq] at hread
  subst hread
  have hread' : (⟨b, data⟩ : Ptr).read (u.nullBitIndex / 8) = .ok byte := by
    rw [hu.2]
    exact hbyte
  unfold printColumn
  rw [hread', Res.ok_bind, hu.2, hu.1]
  obtain ⟨hset, rfl⟩ | ⟨hset, ⟨type, fmeta⟩, r, hcolumn, hfield, rfl⟩ := hcases
  · exact ⟨u, by rw [hset]; rfl, hvalues⟩
  · rw [hst.2, hst.1, ← hvalues] at hfield
    have hfield' : parseOneRowData u.rowValues
        (if byte.toNat.testBit (w.nulls % 8) then none else some (Ptr.add ⟨b, data⟩ w.offset)) type fmeta =
          .ok r := by
      rw [← hfield]
      split_ifs with hnull
      · rfl
      · rw [parseOneRowData_ptr, parseOneRowData_ptr, Ptr.add, Ptr.add, parseField_addr]
        exact fun htiny => hfree ⟨hset, columnType_of_tiny hcolumn htiny, by simpa [hbit] using hnull⟩
    refine ⟨⟨r.1, (Ptr.add ⟨b, data⟩ w.offset).add r.2, w.nulls + 1⟩, ?_, rfl⟩
    rw [hset, Res.ok_bind, if_pos rfl, hcolumn, Res.ok_bind]
    dsimp only
    rw [hfield']
    rfl

/-- Columns, one behind the other. -/
theorem foldlM_printColumn_addr (is : List ℕ) {w : Walk} (hfree : ColumnsFree td cols data is w)
    {st st' u : RowState} (hst : At ⟨a, data⟩ w st) (hu : At ⟨b, data⟩ w u)
    (hvalues : u.rowValues = st.rowValues) (h : is.foldlM (printColumn td cols ⟨a, data⟩) st = .ok st') :
    ∃ u', is.foldlM (printColumn td cols ⟨b, data⟩) u = .ok u' ∧ u'.rowValues = st'.rowValues := by
  induction is generalizing w st u with
  | nil =>
    obtain rfl := Except.ok.inj h
    exact ⟨u, rfl, hvalues⟩
  | cons i is ih =>
    rw [List.foldlM_cons] at h
    obtain ⟨st₁, hst₁, h⟩ := Res.bind_eq_ok.mp h
    obtain ⟨u₁, hu₁, hvalues₁⟩ := printColumn_addr hfree.1 hst hu hvalues hst₁
    obtain ⟨u', hrest, hvalues'⟩ := ih hfree.2 (printColumn_at hst hst₁) (printColumn_at hu hu₁) hvalues₁ h
    exact ⟨u', by rw [List.foldlM_cons, hu₁, Res.ok_bind, hrest], hvalues'⟩

/-- **An image** without TINYINT values. -/
theorem printOneRow_addr (hfree : ImageFree td cols data n) {rowValues : List RowValue}
    {r : List RowValue × ℕ} (h : printOneRow rowValues td cols n ⟨a, data⟩ = .ok r) (b : ℕ) :
    printOneRow rowValues td cols n ⟨b, data⟩ = .ok r := by
  obtain ⟨k, st, hk, hst, hr⟩ := printOneRow_cases h
  obtain ⟨u, hu, hvalues⟩ := foldlM_printColumn_addr (a := a) (b := b) _ hfree (at_start hk rowValues)
    (at_start hk rowValues) rfl hst
  have hrun : printOneRow rowValues td cols n ⟨b, data⟩ =
      .ok (u.rowValues, (u.value.addr - b) % 2 ^ 32) := by
    unfold printOneRow
    rw [hk, Res.ok_bind]
    dsimp only
    rw [hu]
    rfl
  have hlen := (printOneRow_snd h).trans (printOneRow_snd hrun).symm
  rw [hrun, hvalues]
  dsimp only at hlen
  rw [← hlen, hr]

variable {update : Bool} {limit : ℕ}

/-- Two states of the loop that differ in the address of the read position alone. -/
structure Same (st u : RowsState) : Prop where
  before : u.before = st.before
  after : u.after = st.after
  data : u.ptr.data = st.ptr.data
  tmpDataLen : u.tmpDataLen = st.tmpDataLen

/-- **A round** without TINYINT values. -/
theorem parseRow_addr {st st' u : RowsState} (hsame : Same st u)
    (hfree : RoundFree update td cols n st.ptr.data) (h : parseRow update td cols n st = .ok st') :
    ∃ u', parseRow update td cols n u = .ok u' ∧ Same st' u' := by
  obtain ⟨before, after, ⟨addr, _⟩, tmpDataLen⟩ := u
  obtain ⟨rfl, rfl, rfl, rfl⟩ := hsame
  obtain ⟨first, hfirst, hcases⟩ := parseRow_cases h
  have hfirst' := printOneRow_addr hfree.1 hfirst addr
  unfold parseRow
  rw [hfirst', Res.ok_bind]
  obtain ⟨rfl, rfl⟩ | ⟨rfl, second, hsecond, rfl⟩ := hcases
  · exact ⟨_, rfl, rfl, rfl, rfl, rfl⟩
  · have hfree' := hfree.2 rfl
    rw [← printOneRow_snd hfirst] at hfree'
    have hsecond' := printOneRow_addr hfree' hsecond (addr + first.2)
    dsimp only [Ptr.add]
    rw [if_pos rfl, hsecond', Res.ok_bind]
    exact ⟨_, rfl, rfl, rfl, rfl, rfl⟩

section Loop
variable {st₀ u₀ : RowsState} (hstart : st₀.tmpDataLen = 0) (hsame : Same st₀ u₀)
  (hfree : ∀ k, Comes update td cols n st₀.ptr.data limit k →
    RoundFree update td cols n (st₀.ptr.data.drop (position update td cols n st₀.ptr.data k)))
include hstart hsame hfree

/-- The loop comes to the same round at either address. -/
theorem reaches_addr {k : ℕ} {st : RowsState}
    (h : Loop.Reaches (rowsRound update td cols n limit) k st₀ st) :
    ∃ u, Loop.Reaches (rowsRound update td cols n limit) k u₀ u ∧ Same st u := by
  induction k generalizing st with
  | zero =>
    obtain _ | _ := h
    exact ⟨u₀, .refl u₀, hsame⟩
  | succ k ih =>
    have hrounds := (exists_reaches_iff hstart).mp ⟨st, h⟩
    obtain ⟨st₁, h₁, hround⟩ := h.succ_cases
    obtain ⟨hlimit, hrow⟩ := rowsRound_inl_iff.mp hround
    obtain ⟨u₁, hu₁, hsame₁⟩ := ih h₁
    have hround' := hfree k fun j hj => (hrounds j (by omega)).1
    rw [← Ptr.add_data, ← (reaches_state hstart h₁).1] at hround'
    obtain ⟨u, hu, hsame'⟩ := parseRow_addr hsame₁ hround' hrow
    exact ⟨u, hu₁.tail (rowsRound_inl_iff.mpr ⟨hsame₁.tmpDataLen ▸ hlimit, hu⟩), hsame'⟩

/-- **The rows of an event** without TINYINT values. -/
theorem parseRows_addr {fuel : ℕ} {st : RowsState} (h : parseRows update td cols n limit fuel st₀ = .ok st) :
    ∃ u, parseRows update td cols n limit fuel u₀ = .ok u ∧ Same st u := by
  rw [parseRows_eq_run] at h
  obtain ⟨k, hk, st', hreach, hleave⟩ := Loop.run_ok_iff.mp h
  obtain ⟨hlimit, rfl⟩ := rowsRound_inr_iff.mp hleave
  obtain ⟨u, hu, hsame'⟩ := reaches_addr hstart hsame hfree hreach
  refine ⟨u, ?_, hsame'⟩
  rw [parseRows_eq_run]
  exact Loop.run_ok_iff.mpr ⟨k, hk, u, hu, rowsRound_inr_iff.mpr ⟨hsame'.tmpDataLen ▸ hlimit, rfl⟩⟩

end Loop

end Rows

/-! ### Events -/

section Event
variable {gde : CHeaderEvent} {data : Bytes} (a b : ℕ)

theorem skipExtraHeader_addr (endPos fuel pos : ℕ) :
    skipExtraHeader ⟨a, data⟩ endPos fuel pos = skipExtraHeader ⟨b, data⟩ endPos fuel pos := by
  induction fuel generalizing pos with
  | zero => rfl
  | succ fuel ih =>
    unfold skipExtraHeader
    simp only [ih]
    rfl

theorem loadExtraHeader_addr (pos : ℕ) : loadExtraHeader ⟨a, data⟩ pos = loadExtraHeader ⟨b, data⟩ pos := by
  unfold loadExtraHeader
  simp only [skipExtraHeader_addr a b]
  rfl

theorem skipDbNames_addr (payloadEnd n pos : ℕ) :
    skipDbNames ⟨a, data⟩ payloadEnd n pos = skipDbNames ⟨b, data⟩ payloadEnd n pos := by
  induction n generalizing pos with
  | zero => rfl
  | succ n ih =>
    unfold skipDbNames
    simp only [ih]
    rfl

theorem skipStatusVars_addr (payloadEnd fuel pos : ℕ) :
    skipStatusVars ⟨a, data⟩ payloadEnd fuel pos = skipStatusVars ⟨b, data⟩ payloadEnd fuel pos := by
  induction fuel generalizing pos with
  | zero => rfl
  | succ fuel ih =>
    have hone : skipStatusVar ⟨a, data⟩ payloadEnd pos = skipStatusVar ⟨b, data⟩ payloadEnd pos := by
      unfold skipStatusVar skipVar
      simp only [skipDbNames_addr a b]
      rfl
    unfold skipStatusVars
    rw [hone]
    simp only [ih]

theorem query_addr : CQueryEvent.loadEvent gde ⟨a, data⟩ = CQueryEvent.loadEvent gde ⟨b, data⟩ := by
  unfold CQueryEvent.loadEvent
  simp only [skipStatusVars_addr a b]
  rfl

/-- A rows event at another address is the same event, with its rows at another address. -/
theorem rows_addr {kind : RowsKind} {ev : CRowsEvent} {state : LoadState}
    (h : CRowsEvent.loadEvent gde kind ⟨a, data⟩ = .ok (ev, state)) :
    ∃ ptr, ptr.map Ptr.data = ev.ptrRowsData.map Ptr.data ∧
      CRowsEvent.loadEvent gde kind ⟨b, data⟩ = .ok ({ ev with ptrRowsData := ptr }, state) := by
  unfold CRowsEvent.loadEvent at h ⊢
  obtain ⟨header, hheader, h⟩ := Res.bind_eq_ok.mp h
  obtain ⟨postHeaderLen, hpost, h⟩ := Res.bind_eq_ok.mp h
  by_cases hshort : header.eventSize < gde.commonHeaderLength + postHeaderLen
  · rw [if_pos hshort] at h
    obtain ⟨rfl, rfl⟩ := Prod.mk.inj (Except.ok.inj h)
    refine ⟨none, rfl, Res.bind_eq_ok.mpr ⟨header, hheader, Res.bind_eq_ok.mpr ⟨postHeaderLen, hpost, ?_⟩⟩⟩
    rw [if_pos hshort]
    rfl
  rw [if_neg hshort] at h
  obtain ⟨tableId, hid, h⟩ := Res.bind_eq_ok.mp h
  obtain ⟨flags, hflags, h⟩ := Res.bind_eq_ok.mp h
  obtain ⟨extra, hextra, h⟩ := Res.bind_eq_ok.mp h
  rw [loadExtraHeader_addr a b] at hextra
  cases extra with
  | none =>
    obtain ⟨rfl, rfl⟩ := Prod.mk.inj (Except.ok.inj h)
    refine ⟨none, rfl, Res.bind_eq_ok.mpr ⟨header, hheader, Res.bind_eq_ok.mpr ⟨postHeaderLen, hpost, ?_⟩⟩⟩
    rw [if_neg hshort]
    exact Res.bind_eq_ok.mpr ⟨tableId, hid, Res.bind_eq_ok.mpr ⟨flags, hflags,
      Res.bind_eq_ok.mpr ⟨none, hextra, rfl⟩⟩⟩
  | some extraHeaderLen =>
    obtain ⟨⟨n, k⟩, hn, h⟩ := Res.bind_eq_ok.mp h
    obtain ⟨image, himage, h⟩ := Res.bind_eq_ok.mp h
    obtain ⟨cols, hcols, h⟩ := Res.bind_eq_ok.mp h
    obtain ⟨⟨colsAi, pos⟩, hai, h⟩ := Res.bind_eq_ok.mp h
    obtain ⟨rfl, rfl⟩ := Prod.mk.inj (Except.ok.inj h)
    refine ⟨some (Ptr.add ⟨b, data⟩ pos), rfl,
      Res.bind_eq_ok.mpr ⟨header, hheader, Res.bind_eq_ok.mpr ⟨postHeaderLen, hpost, ?_⟩⟩⟩
    rw [if_neg hshort]
    exact Res.bind_eq_ok.mpr ⟨tableId, hid, Res.bind_eq_ok.mpr ⟨flags, hflags,
      Res.bind_eq_ok.mpr ⟨some extraHeaderLen, hextra, Res.bind_eq_ok.mpr ⟨(n, k), hn,
        Res.bind_eq_ok.mpr ⟨image, himage, Res.bind_eq_ok.mpr ⟨cols, hcols,
          Res.bind_eq_ok.mpr ⟨(colsAi, pos), hai, rfl⟩⟩⟩⟩⟩⟩⟩

/-- **Decoding** an event without TINYINT values. -/
theorem parseEvent_addr {ev ev' : CRowsEvent} {map : CTableMapEvent} {state : LoadState}
    (hfree : ∀ td, map.createTableDef = .ok td → RowsFree ev td)
    (h : ev.parseEvent (some map) = .ok (ev', state)) {ptr : Option Ptr}
    (hptr : ptr.map Ptr.data = ev.ptrRowsData.map Ptr.data) :
    { ev with ptrRowsData := ptr }.parseEvent (some map) = .ok ({ ev' with ptrRowsData := ptr }, state) := by
  obtain ⟨td, p, len, n, -, htd, hp, hlen, hn, -⟩ := CRowsEvent.parseEvent_cases h
  obtain ⟨q, rfl, hq⟩ : ∃ q, ptr = some q ∧ q.data = p.data := by
    rw [hp] at hptr
    cases ptr with
    | none => cases hptr
    | some q => exact ⟨q, rfl, Option.some.inj hptr⟩
  rw [CRowsEvent.parseEvent_eq hn hp hlen htd] at h
  obtain ⟨st, hst, h⟩ := Res.bind_eq_ok.mp h
  obtain ⟨checksum, hchecksum, h⟩ := Res.bind_eq_ok.mp h
  obtain ⟨rfl, rfl⟩ := Prod.mk.inj (Except.ok.inj h)
  have hstart : Same ⟨ev.rowBeforeValues, ev.rowAfterValues, p, 0⟩
      ⟨ev.rowBeforeValues, ev.rowAfterValues, q, 0⟩ := ⟨rfl, rfl, hq, rfl⟩
  obtain ⟨u, hu, hsame⟩ := parseRows_addr rfl hstart (hfree td htd p len n hp hlen hn) hst
  have hchecksum' : u.ptr.bytes 0 4 = .ok checksum := by
    rw [← hchecksum, Ptr.bytes, Ptr.bytes, hsame.data]
  have hcount : ({ ev with ptrRowsData := some q } : CRowsEvent).columnCount = some n := hn
  rw [CRowsEvent.parseEvent_eq hcount rfl hlen htd, hq]
  refine Res.bind_eq_ok.mpr ⟨u, hu, Res.bind_eq_ok.mpr ⟨checksum, hchecksum', ?_⟩⟩
  rw [Res.pure_eq, hsame.before, hsame.after]

theorem handleRows_addr {s s' : CParseLogEntry} {kind : RowsKind}
    (htype : (typeOf ⟨a, data⟩).bind rowsKind = some kind) (hfree : EventFree s.gde s.tablemaps ⟨a, data⟩)
    (h : handleRows s kind ⟨a, data⟩ = .ok s') : handleRows s kind ⟨b, data⟩ = .ok s' := by
  unfold handleRows at h ⊢
  obtain ⟨⟨ev, state⟩, hload, h⟩ := Res.bind_eq_ok.mp h
  obtain ⟨tableId, hid, h⟩ := Res.bind_eq_ok.mp h
  obtain ⟨⟨ev', state'⟩, hparse, h⟩ := Res.bind_eq_ok.mp h
  obtain ⟨ptr, hptr, hload'⟩ := rows_addr a b hload
  refine Res.bind_eq_ok.mpr ⟨_, hload', Res.bind_eq_ok.mpr ⟨tableId, hid, ?_⟩⟩
  rcases hmap : s.tablemaps tableId with _ | map
  · rw [hmap] at hparse
    obtain ⟨rfl, rfl⟩ := Prod.mk.inj (Except.ok.inj hparse)
    exact Res.bind_eq_ok.mpr ⟨_, rfl, h⟩
  · rw [hmap] at hparse
    have hrows := fun td => hfree kind ev state tableId map td htype hload (Res.ofOption_eq_ok.mp hid) hmap
    exact Res.bind_eq_ok.mpr ⟨_, parseEvent_addr hrows hparse hptr, h⟩

/-- **An event without TINYINT values** is handled alike wherever it is. -/
theorem handleEvent_addr {s s' : CParseLogEntry} (hfree : EventFree s.gde s.tablemaps ⟨a, data⟩)
    (h : handleEvent s ⟨a, data⟩ = .ok s') : handleEvent s ⟨b, data⟩ = .ok s' := by
  unfold handleEvent at h ⊢
  obtain ⟨code, hcode, h⟩ := Res.bind_eq_ok.mp h
  have htype := typeOf_of_read hcode
  refine Res.bind_eq_ok.mpr ⟨code, hcode, ?_⟩
  rcases htypeOf : EventType.ofCode code.toNat <;> rw [htypeOf] at h htype
  case query =>
    rw [query_addr a b] at h
    exact h
  case tableMap => exact h
  case writeRowsV1 | writeRows | updateRows | updateRowsV1 | deleteRowsV1 | deleteRows =>
    exact handleRows_addr a b (by rw [htype]; rfl) hfree h
  all_goals exact h

/-- The rows of an event are the same at either address. -/
theorem eventFree_addr {maps : ℕ → Option CTableMapEvent} (h : EventFree gde maps ⟨a, data⟩) :
    EventFree gde maps ⟨b, data⟩ := by
  rintro kind ev state tableId map td htype hload hid hmap htd ptr len n hp hlen hn
  obtain ⟨q, hq, hload'⟩ := rows_addr b a hload
  rw [hp] at hq
  obtain ⟨q, rfl, hdata⟩ : ∃ p, q = some p ∧ p.data = ptr.data := by
    cases q with
    | none => cases hq
    | some p => exact ⟨p, rfl, Option.some.inj hq⟩
  have hrows := h kind _ state tableId map td htype hload' hid hmap htd q len n rfl hlen hn
  rwa [hdata] at hrows

end Event

/-! ### Streams -/

/-- The registry behind an event. -/
theorem tablemaps_eq_register {s s' : CParseLogEntry} {p : Ptr} (h : handleEvent s p = .ok s') :
    s'.tablemaps = register s.gde s.tablemaps p := by
  unfold register
  rcases hmap : mapOf s.gde p with _ | ⟨tableId, ev⟩
  · exact tablemaps_of_mapOf_none h hmap
  · exact (tableId_of_mapOf h hmap).2

/-- **A stream without TINYINT values** is handled alike wherever its buffers are. -/
theorem foldlM_handle_addr {events : List Bytes} {s s' : CParseLogEntry} {alloc : ℕ → ℕ}
    (hfree : StreamFree s.gde s.tablemaps events) (h : events.foldlM (handle alloc) s = .ok s')
    (alloc' : ℕ → ℕ) : events.foldlM (handle alloc') s = .ok s' := by
  induction events generalizing s with
  | nil =>
    rw [List.foldlM_nil] at h ⊢
    exact h
  | cons bs events ih =>
    obtain ⟨hevent, hrest⟩ := hfree
    rw [List.foldlM_cons] at h ⊢
    obtain ⟨s₁, hs₁, h⟩ := Res.bind_eq_ok.mp h
    refine Res.bind_eq_ok.mpr ⟨s₁, handleEvent_addr _ _ (eventFree_addr 0 _ hevent) hs₁, ih ?_ h⟩
    rw [(handleEvent_frame hs₁).1, tablemaps_eq_register hs₁]
    exact hrest

end DataSync.Binlog.Addresses
