import DataSync.Binlog.RowLoop

/-! # The width of the null bitmap

`printOneRow` steps over a null bitmap with one bit for every column of its loop that is present. It takes
the number of these columns from `bitmap_bits_set`, which counts the words of `m_cols` under a mask, and
the loop asks `bitmap_is_set`, which looks at single bytes. `widthMatches_iff`: for every image of the
columns, whatever its padding bits are, both agree, unless the number of words overflows. -/

namespace DataSync.Binlog.NullWidth

open DataSync.Lib.Words DataSync.Lib.Memory DataSync.Binlog.Bitmap DataSync.Binlog.TableDef
open DataSync.Binlog.RowsEvent DataSync.Binlog.LogEvent DataSync.Binlog.RowsBounds DataSync.Binlog.RowLoop

/-- What `CRowsEvent::loadEvent` makes `m_cols` of, the image of `n` columns standing at `k`. -/
def setUpCols (p : Ptr) (k n : ℕ) : Res MyBitmap := do loadBitmap n (← p.bytes k (noBytesInMap n))

/-- The number of columns `bitmap_is_set` says are present. -/
def presentColumns (cols : MyBitmap) (n : ℕ) : ℕ :=
  (List.range n).countP fun i => bitmapIsSet cols i = .ok true

/-- **The columns are counted as they are tested**, and `printOneRow` steps over the null bitmap of the
columns its loop visits. -/
structure Width (n : ℕ) (cols : MyBitmap) : Prop where
  tested : ∀ i < n, ∃ present, bitmapIsSet cols i = .ok present
  counted : bitmapBitsSet cols = .ok (presentColumns cols n)
  skipped : ∀ td rowValues value st,
    (List.range n).foldlM (printColumn td cols value) ⟨rowValues, value.add (nullBytes cols), 0⟩ = .ok st →
    nullBytes cols = (st.nullBitIndex + 7) / 8

/-- The columns at `k` are set up so. -/
def WidthMatches (p : Ptr) (k n : ℕ) : Prop := ∃ cols, setUpCols p k n = .ok cols ∧ Width n cols

/-! ### The loop of `printOneRow` -/

section Loop
variable {td : CTableDef} {cols : MyBitmap} {nullBits : Ptr} {st st' : RowState}

/-- **One column** moves the index of the null bits on exactly when it is present. -/
theorem nullBitIndex_printColumn {i : ℕ} (h : printColumn td cols nullBits st i = .ok st') :
    st'.nullBitIndex = st.nullBitIndex + if bitmapIsSet cols i = .ok true then 1 else 0 := by
  obtain ⟨_, -, ⟨hset, rfl⟩ | ⟨hset, _, _, -, -, rfl⟩⟩ := printColumn_cases h
  · rw [hset]
    rfl
  · rw [hset, if_pos rfl]

/-- **The loop** ends with the number of the present columns. -/
theorem nullBitIndex_loop {is : List ℕ} (h : is.foldlM (printColumn td cols nullBits) st = .ok st') :
    st'.nullBitIndex = st.nullBitIndex + is.countP fun i => bitmapIsSet cols i = .ok true := by
  refine Res.foldlM_invariant (P := fun pre s => s.nullBitIndex = st.nullBitIndex +
    pre.countP fun i => bitmapIsSet cols i = .ok true) h rfl fun pre i s s' _ hs hstep => ?_
  rw [nullBitIndex_printColumn hstep, hs, List.countP_append, List.countP_singleton, Nat.add_assoc]
  simp only [decide_eq_true_eq]

end Loop

/-! ### Setting up the columns -/

section Image
variable {n : ℕ} {image : Bytes}

/-- The columns of an image are counted as they are tested. -/
theorem width_loadBitmap (h : ImageOk n image) {cols : MyBitmap} (hcols : loadBitmap n image = .ok cols) :
    Width n cols := by
  have hcounted : bitmapBitsSet cols = .ok (presentColumns cols n) := by
    rw [bitmapBitsSet_loadBitmap h hcols]
    refine congrArg Except.ok (List.countP_congr fun i hi => ?_)
    simp [bitmapIsSet_loadBitmap h hcols (List.mem_range.mp hi)]
  refine ⟨fun i hi => ⟨_, bitmapIsSet_loadBitmap h hcols hi⟩, hcounted, fun td rowValues value st hloop => ?_⟩
  rw [nullBytes, hcounted, nullBitIndex_loop hloop, Nat.zero_add]
  rfl

variable {addr : ℕ} {front rest : Bytes}

/-- An image whose words can be counted is set up. -/
theorem widthMatches_of_lt (h : ImageOk n image) :
    WidthMatches ⟨addr, front ++ (image ++ rest)⟩ front.length n := by
  obtain ⟨cols, hcols⟩ := exists_loadBitmap h
  have hbytes : (⟨addr, front ++ (image ++ rest)⟩ : Ptr).bytes front.length (noBytesInMap n) = .ok image :=
    Ptr.bytes_at (List.append_assoc ..).symm rfl (noBytes_eq h)
  refine ⟨cols, ?_, width_loadBitmap h hcols⟩
  rw [setUpCols, hbytes, Res.ok_bind, hcols]

/-- Where the number of words overflows there are none: an image is copied past them, and where the number
of bytes overflows, too, there is no bitmap. -/
theorem lt_of_widthMatches (hlt : n < 2 ^ 32) {p : Ptr} {k : ℕ} (h : WidthMatches p k n) :
    n + 31 < 2 ^ 32 := by
  obtain ⟨cols, hcols, hwidth⟩ := h
  obtain ⟨taken, htaken, hload⟩ := Res.bind_eq_ok.mp hcols
  exact (imageOk_of_bitsSet hlt (Ptr.bytes_length htaken) hload hwidth.counted).lt

end Image

/-- **The width of the null bitmap is that of the present columns, exactly when** the number of the
columns, rounded up to whole words, has 32 bits. -/
theorem widthMatches_iff (addr : ℕ) (front rest : Bytes) {n : ℕ} {image : Bytes} (hpos : 1 ≤ n)
    (hlt : n < 2 ^ 32) (hlen : image.length = (n + 7) / 8) :
    WidthMatches ⟨addr, front ++ (image ++ rest)⟩ front.length n ↔ n + 31 < 2 ^ 32 :=
  ⟨lt_of_widthMatches hlt, fun h => widthMatches_of_lt ⟨hpos, h, hlen⟩⟩

/-- Eleven columns, five padding bits set. -/
theorem widthMatches_iff_eleven : WidthMatches ⟨0, [11] ++ ([0x15, 0xfa] ++ [3, 1, 2])⟩ 1 11 :=
  (widthMatches_iff 0 [11] [3, 1, 2] (by decide) (by decide) rfl).mpr (by decide)

/-- The first number of columns without words: the image of its columns does not fit. -/
theorem width_overflows : ¬ ∀ (addr : ℕ) (front rest : Bytes) (n : ℕ) (image : Bytes), 1 ≤ n → n < 2 ^ 32 →
    image.length = (n + 7) / 8 → WidthMatches ⟨addr, front ++ (image ++ rest)⟩ front.length n := by
  intro h
  have hmatch := h 0 [] [] (2 ^ 32 - 31) (List.replicate (2 ^ 29 - 3) 255) (by norm_num) (by norm_num)
    (by rw [List.length_replicate]; norm_num)
  have hlt := lt_of_widthMatches (by norm_num) hmatch
  omega

/-! ### Loaded events -/

/-- The columns of a loaded event were set up so. -/
theorem setUpCols_of_loadEvent {gde : CHeaderEvent} {kind : RowsKind} {p : Ptr} {ev : CRowsEvent}
    (h : CRowsEvent.loadEvent gde kind p = .ok (ev, .success)) :
    ∃ varStart k n, getFieldLength p varStart = .ok (n, k) ∧ ev.columnCount = some n ∧
      setUpCols p k n = .ok ev.cols := by
  obtain ⟨header, postHeaderLen, -, -, ⟨-, hstate⟩ | ⟨tableId, -, ⟨-, hstate⟩ | ⟨varStart, n, k, image, cols,
    colsAi, pos, hcount, himage, hload, -, rfl⟩⟩⟩ := CRowsEvent.loadEvent_cases h
  · cases hstate
  · cases hstate
  · exact ⟨varStart, k, n, hcount, rfl, by rw [setUpCols, himage, Res.ok_bind, hload]⟩

/-- **A loaded event** has the width of its present columns, unless their number is one of the last
thirty-one. -/
theorem width_of_loadEvent {gde : CHeaderEvent} {kind : RowsKind} {p : Ptr} {ev : CRowsEvent}
    (h : CRowsEvent.loadEvent gde kind p = .ok (ev, .success)) :
    ∃ n, ev.columnCount = some n ∧ (1 ≤ n → (Width n ev.cols ↔ n + 31 < 2 ^ 32)) := by
  obtain ⟨varStart, k, n, hcount, hn, hcols⟩ := setUpCols_of_loadEvent h
  have hlt : n < 2 ^ 32 := getFieldLength_lt hcount
  refine ⟨n, hn, fun hpos => ⟨fun hwidth => lt_of_widthMatches hlt ⟨_, hcols, hwidth⟩, fun hfit => ?_⟩⟩
  obtain ⟨image, himage, hload⟩ := Res.bind_eq_ok.mp hcols
  have hbytes : noBytesInMap n = (n + 7) / 8 := by
    unfold noBytesInMap
    rw [Nat.mod_eq_of_lt (by omega)]
  exact width_loadBitmap ⟨hpos, hfit, by rw [Ptr.bytes_length himage, hbytes]⟩ hload

end DataSync.Binlog.NullWidth
