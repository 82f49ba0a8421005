import DataSync.Binlog.RowLoop

/-! # How far a rows event is read

`CRowsEvent::loadEvent` compares the size of an event with the length of its headers and takes everything
else on trust: the length of the extra header, the number of columns, the widths of the bitmaps and the
rows are whatever the bytes say. `parseOneEvent` looks at no result, so an event that is found too short is
decoded all the same.

`RowsInside` says of the bytes of an event that everything they declare lies in the event's buffer, and
`safe_decodeRows_iff` that exactly these events are decoded without a read outside. -/

namespace DataSync.Binlog.EventBounds

open DataSync.Lib DataSync.Lib.Words DataSync.Lib.Memory DataSync.Binlog.Format DataSync.Binlog.Bitmap
open DataSync.Binlog.Field DataSync.Binlog.FieldFormat DataSync.Binlog.TableDef DataSync.Binlog.RowsEvent
open DataSync.Binlog.LogEvent
open DataSync.Binlog.ParseLogEntry DataSync.Binlog.RowsFormat DataSync.Binlog.TableIndex
open DataSync.Binlog.FieldReads DataSync.Binlog.RowsBounds DataSync.Binlog.RowLoop

/-! ### Length-encoded numbers -/

section Length
variable (data : Bytes) (k : ℕ)

/-- The first byte of the length-encoded number at `k`. -/
def lengthByte : ℕ := leNat ((data.drop k).take 1)

/-- How far a length-encoded number is read. -/
def lengthReads : ℕ :=
  if lengthByte data k < 252 then 1 else if lengthByte data k = 252 then 3
  else if lengthByte data k = 253 then 4 else 5

/-- How far a length-encoded number is stepped over: of the eight bytes of a long one, four are read. -/
def lengthSteps : ℕ :=
  if lengthByte data k < 252 then 1 else if lengthByte data k = 252 then 3
  else if lengthByte data k = 253 then 4 else 9

/-- What a length-encoded number says. -/
def lengthValue : ℕ :=
  if lengthByte data k < 251 then lengthByte data k else if lengthByte data k = 251 then 2 ^ 32 - 1
  else leNat ((data.drop (k + 1)).take (if lengthByte data k = 252 then 2
    else if lengthByte data k = 253 then 3 else 4))

end Length

/-- A length-encoded number by its first byte. -/
theorem getFieldLength_byte {p : Ptr} {k : ℕ} {b : UInt8} (hb : p.read k = .ok b) :
    getFieldLength p k = if b.toNat < 251 then .ok (b.toNat, k + 1)
      else if b.toNat = 251 then .ok (2 ^ 32 - 1, k + 1)
      else if b.toNat = 252 then (fun n => (n, k + 3)) <$> p.le (k + 1) 2
      else if b.toNat = 253 then (fun n => (n, k + 4)) <$> p.le (k + 1) 3
      else (fun n => (n, k + 9)) <$> p.le (k + 1) 4 := by
  unfold getFieldLength
  rw [hb, Res.ok_bind]
  rfl

theorem map_le_eq_ok {p : Ptr} {j n m : ℕ} {r : ℕ × ℕ} (hn : n ≠ 0) :
    ((fun x => (x, m)) <$> p.le j n) = .ok r ↔
      j + n ≤ p.data.length ∧ r = (leNat ((p.data.drop j).take n), m) := by
  constructor
  · intro h
    obtain ⟨x, hx, rfl⟩ := Res.map_eq_ok.mp h
    obtain ⟨hin, rfl⟩ := Ptr.le_eq_ok.mp hx
    exact ⟨hin.resolve_left hn, rfl⟩
  · rintro ⟨hin, rfl⟩
    rw [Ptr.le_eq_ok.mpr ⟨.inr hin, rfl⟩, Res.map_ok]

/-- **A length-encoded number** is read exactly when its bytes are there. -/
theorem getFieldLength_eq_ok {p : Ptr} {k : ℕ} {r : ℕ × ℕ} : getFieldLength p k = .ok r ↔
    k + lengthReads p.data k ≤ p.data.length ∧ r = (lengthValue p.data k, k + lengthSteps p.data k) := by
  rcases Nat.lt_or_ge k p.data.length with hin | hout
  · obtain ⟨b, hb⟩ := read_of_lt hin
    have hbyte : lengthByte p.data k = b.toNat := (Ptr.read_eq_ok_leNat.mp hb).2.symm
    rw [getFieldLength_byte hb]
    unfold lengthReads lengthValue lengthSteps
    rw [hbyte]
    rcases Nat.lt_or_ge b.toNat 251 with h | h
    · have h' : b.toNat < 252 := by omega
      simp [h, h', Nat.succ_le_of_lt hin, eq_comm]
    rcases Nat.lt_or_ge b.toNat 252 with h' | h'
    · obtain h'' : b.toNat = 251 := by omega
      simp [h'', Nat.succ_le_of_lt hin, eq_comm]
    have h251 : ¬ b.toNat = 251 := by omega
    simp only [not_lt.mpr h, not_lt.mpr h', h251, if_false]
    split_ifs
    · exact map_le_eq_ok (by norm_num)
    · exact map_le_eq_ok (by norm_num)
    · exact map_le_eq_ok (by norm_num)
  · have hfault : getFieldLength p k = .error .fault := by
      unfold getFieldLength Ptr.read
      rw [List.getElem?_eq_none hout, Res.ofOption_none, Res.error_bind]
    rw [hfault]
    constructor
    · intro h; cases h
    · rintro ⟨hle, -⟩
      unfold lengthReads at hle
      split_ifs at hle <;> omega

/-! ### The extra header -/

/-- The walk through the infos of an extra header that ends at `endPos`, inside the buffer: `true` when it
comes to the end or to a tag it does not know, `false` when an info is found too short. -/
inductive Infos (data : Bytes) (endPos : ℕ) : ℕ → Bool → Prop where
  | done {pos : ℕ} : endPos ≤ pos → Infos data endPos pos true
  | unknown {pos : ℕ} {tag : UInt8} : pos < endPos → data[pos]? = some tag → tag.toNat ≠ 0 →
      Infos data endPos pos true
  | noHeader {pos : ℕ} {tag : UInt8} : pos < endPos → data[pos]? = some tag → tag.toNat = 0 →
      endPos - (pos + 1) < 2 → Infos data endPos pos false
  | tooLong {pos : ℕ} {tag len : UInt8} : pos < endPos → data[pos]? = some tag → tag.toNat = 0 →
      2 ≤ endPos - (pos + 1) → data[pos + 1]? = some len → endPos - (pos + 1) < len.toNat →
      Infos data endPos pos false
  | info {pos : ℕ} {tag len : UInt8} {complete : Bool} : pos < endPos → data[pos]? = some tag →
      tag.toNat = 0 → 2 ≤ endPos - (pos + 1) → data[pos + 1]? = some len →
      len.toNat ≤ endPos - (pos + 1) → (len.toNat = 0 ∨ pos + 1 + len.toNat ≤ data.length) →
      Infos data endPos (pos + 1 + len.toNat) complete → Infos data endPos pos complete

/-- **The loop over the extra header** is the walk through its infos. -/
theorem skipExtraHeader_eq_ok {p : Ptr} {endPos fuel pos : ℕ} {complete : Bool}
    (hfuel : endPos - pos ≤ fuel) :
    skipExtraHeader p endPos fuel pos = .ok complete ↔ Infos p.data endPos pos complete := by
  induction fuel generalizing pos with
  | zero =>
    rw [skipExtraHeader, Except.ok.injEq]
    constructor
    · rintro rfl
      exact .done (by omega)
    · rintro (_ | hlt | hlt | hlt | hlt)
      · rfl
      all_goals omega
  | succ fuel ih =>
    unfold skipExtraHeader
    rcases Nat.lt_or_ge pos endPos with hlt | hge
    · rw [if_pos hlt, Res.bind_eq_ok]
      simp only [Ptr.read_eq_ok]
      constructor
      · rintro ⟨tag, htag, h⟩
        split_ifs at h with hzero htwo
        · obtain rfl := Except.ok.inj h
          exact .noHeader hlt htag hzero htwo
        · obtain ⟨len, hlen, h⟩ := Res.bind_eq_ok.mp h
          rw [Ptr.read_eq_ok] at hlen
          split_ifs at h with hlong
          · obtain rfl := Except.ok.inj h
            exact .tooLong hlt htag hzero (by omega) hlen hlong
          · obtain ⟨bs, hbs, h⟩ := Res.bind_eq_ok.mp h
            obtain ⟨hin, -⟩ := Ptr.bytes_eq_ok.mp hbs
            exact .info hlt htag hzero (by omega) hlen (by omega) hin ((ih (by omega)).mp h)
        · obtain rfl := Except.ok.inj h
          exact .unknown hlt htag hzero
      · intro h
        cases h with
        | done hge => omega
        | unknown _ htag hne => exact ⟨_, htag, by rw [if_neg hne]; rfl⟩
        | noHeader _ htag hzero htwo => exact ⟨_, htag, by rw [if_pos hzero, if_pos htwo]; rfl⟩
        | tooLong _ htag hzero htwo hlen hlong =>
          refine ⟨_, htag, ?_⟩
          rw [if_pos hzero, if_neg (by omega), Ptr.read_eq_ok.mpr hlen, Res.ok_bind, if_pos hlong]
          rfl
        | info _ htag hzero htwo hlen hle hin hrest =>
          refine ⟨_, htag, ?_⟩
          rw [if_pos hzero, if_neg (by omega), Ptr.read_eq_ok.mpr hlen, Res.ok_bind, if_neg (by omega),
            Ptr.bytes_eq_ok.mpr ⟨hin, rfl⟩, Res.ok_bind]
          exact (ih (by omega)).mpr hrest
    · rw [if_neg (by omega), Except.ok.injEq]
      constructor
      · rintro rfl
        exact .done hge
      · rintro (_ | hlt | hlt | hlt | hlt)
        · rfl
        all_goals omega

theorem ends_skipExtraHeader (p : Ptr) (endPos fuel pos : ℕ) :
    Res.Ends (skipExtraHeader p endPos fuel pos) := by
  induction fuel generalizing pos with
  | zero => exact Res.ends_ok _
  | succ fuel ih =>
    unfold skipExtraHeader
    split_ifs with hlt
    · refine Res.Ends.bind (Ptr.ends_read _ _) fun tag _ => ?_
      dsimp only
      split_ifs
      · exact Res.ends_ok _
      · refine Res.Ends.bind (Ptr.ends_read _ _) fun len _ => ?_
        split_ifs
        · exact Res.ends_ok _
        · exact Res.Ends.bind (Ptr.ends_bytes _ _ _) fun _ _ => ih _
      · exact Res.ends_ok _
    · exact Res.ends_ok _

/-- The extra header behind a post header of length `post`, at `pos`: the length of its data, or `none`
when it is found too short. Only a version 2 event has one. -/
def ExtraInside (data : Bytes) (post pos : ℕ) : Option ℕ → Prop
  | some len => post ≠ rowsHeaderLenV2 ∧ len = 0 ∨
      post = rowsHeaderLenV2 ∧ pos + 2 ≤ data.length ∧ len + 2 = leNat ((data.drop pos).take 2) ∧
        Infos data (pos + 2 + len) (pos + 2) true
  | none => post = rowsHeaderLenV2 ∧ pos + 2 ≤ data.length ∧ (leNat ((data.drop pos).take 2) < 2 ∨
      ∃ len, len + 2 = leNat ((data.drop pos).take 2) ∧ Infos data (pos + 2 + len) (pos + 2) false)

/-- The extra header as `loadEvent` reads it. -/
def readExtra (p : Ptr) (post pos : ℕ) : Res (Option ℕ) :=
  if post = rowsHeaderLenV2 then loadExtraHeader p pos else pure (some 0)

theorem readExtra_eq_ok {p : Ptr} {post pos : ℕ} {extra : Option ℕ} :
    readExtra p post pos = .ok extra ↔ ExtraInside p.data post pos extra := by
  unfold readExtra
  split_ifs with hpost
  · unfold loadExtraHeader
    rw [Res.bind_eq_ok]
    simp only [Ptr.le_eq_ok]
    set len := leNat ((p.data.drop pos).take 2) with hlen
    constructor
    · rintro ⟨_, ⟨hin, rfl⟩, h⟩
      have hread : pos + 2 ≤ p.data.length := by omega
      split_ifs at h with hsmall
      · obtain rfl := Except.ok.inj h
        exact ⟨hpost, hread, .inl hsmall⟩
      · obtain ⟨complete, hcomplete, h⟩ := Res.bind_eq_ok.mp h
        have hinfos := (skipExtraHeader_eq_ok (by omega)).mp hcomplete
        obtain rfl := Except.ok.inj h
        cases complete with
        | false => exact ⟨hpost, hread, .inr ⟨len - 2, by omega, hinfos⟩⟩
        | true => exact .inr ⟨hpost, hread, by omega, hinfos⟩
    · intro h
      cases extra with
      | none =>
        obtain ⟨-, hread, hsmall | ⟨m, hm, hinfos⟩⟩ := h
        · exact ⟨len, ⟨.inr hread, rfl⟩, by rw [if_pos hsmall]; rfl⟩
        · have hrun : skipExtraHeader p (pos + 2 + m) m (pos + 2) = .ok false :=
            (skipExtraHeader_eq_ok (by omega)).mpr hinfos
          refine ⟨len, ⟨.inr hread, rfl⟩, ?_⟩
          rw [if_neg (by omega), show len - 2 = m by omega, hrun]
          rfl
      | some m =>
        obtain ⟨hne, -⟩ | ⟨-, hread, hm, hinfos⟩ := h
        · exact absurd hpost hne
        · have hrun : skipExtraHeader p (pos + 2 + m) m (pos + 2) = .ok true :=
            (skipExtraHeader_eq_ok (by omega)).mpr hinfos
          refine ⟨len, ⟨.inr hread, rfl⟩, ?_⟩
          rw [if_neg (by omega), show len - 2 = m by omega, hrun]
          rfl
  · cases extra with
    | none => simp [ExtraInside, hpost]
    | some len => simp [ExtraInside, hpost, eq_comm]

theorem ends_postHeader (gde : CHeaderEvent) (eventType : ℕ) : Res.Ends (gde.postHeader eventType) := by
  unfold CHeaderEvent.postHeader
  split_ifs
  · exact Res.ends_fault
  · exact Res.Ends.bind (Res.ends_ofOption _) fun _ _ => Res.ends_ok _

theorem ends_readExtra (p : Ptr) (post pos : ℕ) : Res.Ends (readExtra p post pos) := by
  unfold readExtra
  split_ifs
  · refine Res.Ends.bind (Ptr.ends_le _ _ _) fun len _ => ?_
    split_ifs
    · exact Res.ends_ok _
    · exact Res.Ends.bind (ends_skipExtraHeader _ _ _ _) fun _ _ => Res.ends_ok _
  · exact Res.ends_ok _

/-! ### The columns -/

/-- The bitmaps of an event. -/
def bitmaps (kind : RowsKind) : ℕ := if kind = .update then 2 else 1

section Columns
variable (data : Bytes) (kind : RowsKind) (pos : ℕ)

/-- The bytes of one bitmap. -/
def bitmapLen : ℕ := noBytesInMap (lengthValue data pos)

/-- The bytes of the first bitmap. -/
def bitmapImage : Bytes := (data.drop (pos + lengthSteps data pos)).take (bitmapLen data pos)

/-- Where the rows begin. -/
def rowsStart : ℕ := pos + lengthSteps data pos + bitmaps kind * bitmapLen data pos

/-- The number of columns at `pos` and the bitmaps behind it lie inside, and a bitmap has words for its
bytes: near `2 ^ 32` columns their number wraps around. -/
structure ColumnsInside : Prop where
  count : pos + lengthReads data pos ≤ data.length
  bitmaps : bitmapLen data pos = 0 ∨ rowsStart data kind pos ≤ data.length
  words : bitmapLen data pos ≤ 4 * noWordsInMap (lengthValue data pos)

end Columns

/-- The columns and bitmaps as `loadEvent` reads them. -/
def loadColumns (kind : RowsKind) (p : Ptr) (size : ℕ) (ev : CRowsEvent) (varStart : ℕ) :
    Res (CRowsEvent × LoadState) := do
  let (columnCount, pos) ← getFieldLength p varStart
  let bitsLen := noBytesInMap columnCount
  let cols ← loadBitmap columnCount (← p.bytes pos bitsLen)
  let pos := pos + bitsLen
  let (colsAi, pos) ←
    (if kind = .update then do
      pure (← loadBitmap columnCount (← p.bytes pos bitsLen), pos + bitsLen)
    else pure (zeroBitmap, pos))
  return ({ ev with
    columnCount := some columnCount
    cols := cols
    colsAi := colsAi
    ptrRowsData := some (p.add pos)
    rowsDataLen := some ((size + 2 ^ 32 - pos % 2 ^ 32) % 2 ^ 32) }, .success)

theorem exists_loadBitmap_iff {n : ℕ} {image : Bytes} :
    (∃ cols, loadBitmap n image = .ok cols) ↔ image.length ≤ 4 * noWordsInMap n := by
  unfold loadBitmap
  dsimp only
  split_ifs with hnil hover
  · simp [hnil]
  · simp; omega
  · exact ⟨fun _ => by omega, fun _ => ⟨_, rfl⟩⟩

theorem ends_loadBitmap (n : ℕ) (image : Bytes) : Res.Ends (loadBitmap n image) := by
  unfold loadBitmap
  dsimp only
  split_ifs <;> simp

theorem ends_getFieldLength (p : Ptr) (k : ℕ) : Res.Ends (getFieldLength p k) := by
  refine Res.Ends.bind (Ptr.ends_read _ _) fun b _ => ?_
  dsimp only
  split_ifs
  · exact Res.ends_ok _
  · exact Res.ends_ok _
  all_goals exact Res.Ends.bind (Ptr.ends_le _ _ _) fun _ _ => Res.ends_ok _

theorem ends_loadColumns (kind : RowsKind) (p : Ptr) (size : ℕ) (ev : CRowsEvent) (varStart : ℕ) :
    Res.Ends (loadColumns kind p size ev varStart) := by
  refine Res.Ends.bind (ends_getFieldLength _ _) fun r _ => ?_
  refine Res.Ends.bind (Ptr.ends_bytes _ _ _) fun image _ => ?_
  refine Res.Ends.bind (ends_loadBitmap _ _) fun cols _ => ?_
  refine Res.Ends.bind ?_ fun r _ => Res.ends_ok _
  split_ifs
  · refine Res.Ends.bind (Ptr.ends_bytes _ _ _) fun image _ => ?_
    exact Res.Ends.bind (ends_loadBitmap _ _) fun cols _ => Res.ends_ok _
  · exact Res.ends_ok _

section LoadColumns
variable {kind : RowsKind} {p : Ptr} {size : ℕ} {ev : CRowsEvent} {pos : ℕ}

/-- **The columns are loaded** exactly when they lie inside. -/
theorem exists_loadColumns_iff :
    (∃ r, loadColumns kind p size ev pos = .ok r) ↔ ColumnsInside p.data kind pos := by
  unfold loadColumns
  constructor
  · rintro ⟨r, h⟩
    obtain ⟨⟨n, k⟩, hn, h⟩ := Res.bind_eq_ok.mp h
    obtain ⟨hcount, hpair⟩ := getFieldLength_eq_ok.mp hn
    obtain ⟨rfl, rfl⟩ := Prod.mk.inj hpair
    obtain ⟨image, himage, h⟩ := Res.bind_eq_ok.mp h
    obtain ⟨cols, hcols, h⟩ := Res.bind_eq_ok.mp h
    obtain ⟨hin, -⟩ := Ptr.bytes_eq_ok.mp himage
    have hlen := Ptr.bytes_length himage
    refine ⟨hcount, ?_, ?_⟩
    · unfold rowsStart bitmaps bitmapLen
      obtain ⟨r', hr', -⟩ := Res.bind_eq_ok.mp h
      split_ifs at hr' ⊢
      · obtain ⟨image', himage', -⟩ := Res.bind_eq_ok.mp hr'
        obtain ⟨hin', -⟩ := Ptr.bytes_eq_ok.mp himage'
        omega
      · omega
    · have := exists_loadBitmap_iff.mp ⟨cols, hcols⟩
      unfold bitmapLen
      omega
  · rintro ⟨hcount, hbitmaps, hwords⟩
    unfold rowsStart bitmaps bitmapLen at hbitmaps
    unfold bitmapLen at hwords
    -- an image of the declared length is there, and has words for its bytes
    have hload (k : ℕ) (hk : noBytesInMap (lengthValue p.data pos) = 0 ∨
        k + noBytesInMap (lengthValue p.data pos) ≤ p.data.length) :
        ∃ image cols, p.bytes k (noBytesInMap (lengthValue p.data pos)) = .ok image ∧
          loadBitmap (lengthValue p.data pos) image = .ok cols := by
      have hbytes := Ptr.bytes_eq_ok.mpr ⟨hk, rfl⟩
      obtain ⟨cols, hcols⟩ := exists_loadBitmap_iff.mpr ((Ptr.bytes_length hbytes).le.trans hwords)
      exact ⟨_, cols, hbytes, hcols⟩
    obtain ⟨image, cols, himage, hcols⟩ :=
      hload (pos + lengthSteps p.data pos) (by split_ifs at hbitmaps <;> omega)
    rw [getFieldLength_eq_ok.mpr ⟨hcount, rfl⟩, Res.ok_bind]
    dsimp only
    rw [himage, Res.ok_bind, hcols, Res.ok_bind]
    split_ifs at hbitmaps ⊢ with hkind
    · obtain ⟨image', cols', himage', hcols'⟩ :=
        hload (pos + lengthSteps p.data pos + noBytesInMap (lengthValue p.data pos)) (by omega)
      rw [himage', Res.ok_bind, hcols', Res.ok_bind]
      exact ⟨_, rfl⟩
    · exact ⟨_, rfl⟩

/-- The event behind the columns. -/
theorem loadColumns_event {r : CRowsEvent × LoadState} (h : loadColumns kind p size ev pos = .ok r) :
    r.2 = .success ∧ r.1.kind = ev.kind ∧ r.1.tableId = ev.tableId ∧
      r.1.columnCount = some (lengthValue p.data pos) ∧
      loadBitmap (lengthValue p.data pos) (bitmapImage p.data pos) = .ok r.1.cols ∧
      r.1.ptrRowsData = some (p.add (rowsStart p.data kind pos)) ∧
      r.1.rowsDataLen = some ((size + 2 ^ 32 - rowsStart p.data kind pos % 2 ^ 32) % 2 ^ 32) ∧
      ((∃ k, bitmapBitsSet r.1.cols = .ok k) → 0 < lengthValue p.data pos) := by
  unfold loadColumns at h
  obtain ⟨⟨n, k⟩, hn, h⟩ := Res.bind_eq_ok.mp h
  obtain ⟨hcount, hpair⟩ := getFieldLength_eq_ok.mp hn
  obtain ⟨rfl, rfl⟩ := Prod.mk.inj hpair
  obtain ⟨image, himage, h⟩ := Res.bind_eq_ok.mp h
  have hlen := Ptr.bytes_length himage
  obtain ⟨-, rfl⟩ := Ptr.bytes_eq_ok.mp himage
  obtain ⟨cols, hcols, h⟩ := Res.bind_eq_ok.mp h
  obtain ⟨⟨colsAi, k⟩, hk, h⟩ := Res.bind_eq_ok.mp h
  obtain rfl := Except.ok.inj h
  have hstart : k = rowsStart p.data kind pos := by
    unfold rowsStart bitmaps bitmapLen
    split_ifs at hk ⊢
    · obtain ⟨image', -, hk⟩ := Res.bind_eq_ok.mp hk
      obtain ⟨cols', -, hk⟩ := Res.bind_eq_ok.mp hk
      obtain ⟨-, rfl⟩ := Prod.mk.inj (Except.ok.inj hk)
      omega
    · obtain ⟨-, rfl⟩ := Prod.mk.inj (Except.ok.inj hk)
      omega
  rw [← hstart]
  refine ⟨rfl, rfl, rfl, rfl, hcols, rfl, rfl, ?_⟩
  rintro ⟨k, hk⟩
  exact (imageOk_of_bitsSet (getFieldLength_lt hn) hlen hcols hk).pos

end LoadColumns

/-! ### The rows -/

section Rows
variable {update : Bool} {td : CTableDef} {cols : MyBitmap} {n : ℕ} {data : Bytes} {limit : ℕ}

/-- Every round the loop comes to lies inside the row data, and so does the checksum behind the last
one. -/
def RowsFit (update : Bool) (td : CTableDef) (cols : MyBitmap) (n : ℕ) (data : Bytes) (limit : ℕ) : Prop :=
  (∀ k, Comes update td cols n data limit k →
    RoundFits update td cols n (data.drop (position update td cols n data k))) ∧
  ∀ k, EndsBehind update td cols n data limit k → position update td cols n data k + 4 ≤ data.length

/-- A round that lies inside the row data starts inside them. -/
theorem position_lt (hpos : (∃ k, bitmapBitsSet cols = .ok k) → 0 < n) {k : ℕ}
    (h : RoundFits update td cols n (data.drop (position update td cols n data k))) :
    position update td cols n data k < data.length := by
  have hlen := length_pos_of_imageFits (hpos h.1.1) h.1
  rw [List.length_drop] at hlen
  omega

/-- As many rounds as there are bytes of row data tell of all: one of them does not move, or the last one
starts behind the row data. -/
theorem fits_of_fits_lt (hpos : (∃ k, bitmapBitsSet cols = .ok k) → 0 < n)
    (h : ∀ k < data.length + 2, Comes update td cols n data limit k →
      RoundFits update td cols n (data.drop (position update td cols n data k))) (k : ℕ)
    (hk : Comes update td cols n data limit k) :
    RoundFits update td cols n (data.drop (position update td cols n data k)) := by
  have hfits : ∀ j ≤ k, j < data.length + 2 →
      RoundFits update td cols n (data.drop (position update td cols n data j)) := by
    intro j hj hlt
    exact h j hlt fun i hi => hk i (by omega)
  rcases Nat.lt_or_ge k (data.length + 2) with hlt | hge
  · exact hfits k le_rfl hlt
  · obtain ⟨i, hi, hstill⟩ : ∃ i < data.length + 1,
        roundLength update td cols n (data.drop (position update td cols n data i)) = 0 := by
      by_contra hmove
      have hgrow : ∀ j < data.length + 1,
          roundLength update td cols n (data.drop (position update td cols n data j)) ≠ 0 :=
        fun j hj hzero => hmove ⟨j, hj, hzero⟩
      have := le_position hgrow
      have := position_lt hpos (hfits (data.length + 1) (by omega) (by omega))
      omega
    have hsame := position_still hstill (k - i)
    rw [Nat.add_sub_cancel' (by omega)] at hsame
    rw [hsame]
    exact hfits i (by omega) (by omega)

theorem safe_rowsRound_iff {st : RowsState} : Res.Safe (rowsRound update td cols n limit st) ↔
    (st.tmpDataLen < limit → RoundFits update td cols n st.ptr.data) := by
  unfold rowsRound
  split_ifs with hlt
  · rw [Res.Ends.safe_iff (Res.Ends.map _ (ends_parseRow st)), ← exists_parseRow_iff]
    simp only [hlt, true_imp_iff]
    constructor
    · rintro ⟨x, hx⟩
      obtain ⟨st', hst', -⟩ := Res.map_eq_ok.mp hx
      exact ⟨st', hst'⟩
    · rintro ⟨st', hst'⟩
      exact ⟨_, by rw [hst', Res.map_ok]⟩
  · simp [hlt]

section Start
variable {st₀ : RowsState} (hstart : st₀.tmpDataLen = 0)
  (hpos : (∃ k, bitmapBitsSet cols = .ok k) → 0 < n)
include hstart hpos

/-- **The loop reads nothing outside** when every round it comes to lies inside. -/
theorem safe_parseRows_iff :
    Res.Safe (parseRows update td cols n limit (st₀.ptr.data.length + 2) st₀) ↔
      ∀ k, Comes update td cols n st₀.ptr.data limit k →
        RoundFits update td cols n (st₀.ptr.data.drop (position update td cols n st₀.ptr.data k)) := by
  rw [parseRows_eq_run, Loop.safe_run_iff]
  simp only [safe_rowsRound_iff]
  constructor
  · intro h
    refine fits_of_fits_lt hpos fun k hk => ?_
    -- the rounds before round `k` lie inside, so the loop comes to it
    induction k using Nat.strong_induction_on with
    | _ k ih =>
      intro hcomes
      have hbefore : ∀ j < k, position update td cols n st₀.ptr.data j % 2 ^ 32 < limit ∧
          RoundFits update td cols n (st₀.ptr.data.drop (position update td cols n st₀.ptr.data j)) := by
        intro j hj
        exact ⟨hcomes j (by omega), ih j hj (by omega) fun i hi => hcomes i (by omega)⟩
      obtain ⟨st, hst⟩ := (exists_reaches_iff hstart).mpr hbefore
      obtain ⟨hptr, htmp⟩ := reaches_state hstart hst
      have hfits := h k hk st hst (htmp ▸ hcomes k le_rfl)
      rwa [hptr, Ptr.add_data] at hfits
  · intro h k _ st hst hlt
    obtain ⟨hptr, htmp⟩ := reaches_state hstart hst
    have hrounds := (exists_reaches_iff hstart).mp ⟨st, hst⟩
    rw [hptr, Ptr.add_data]
    refine h k fun j hj => ?_
    rcases Nat.lt_or_ge j k with hjk | hjk
    · exact (hrounds j hjk).1
    · obtain rfl : j = k := by omega
      exact htmp ▸ hlt

/-- **The loop and the checksum behind it** read nothing outside when the rows fit. -/
theorem safe_rows_iff {α : Type} (f : RowsState → α) {fuel : ℕ} (hfuel : fuel = st₀.ptr.data.length + 2) :
    Res.Safe (parseRows update td cols n limit fuel st₀ >>= fun st =>
        st.ptr.bytes 0 4 >>= fun _ => pure (f st)) ↔
      RowsFit update td cols n st₀.ptr.data limit := by
  subst hfuel
  rw [Res.safe_bind_iff, safe_parseRows_iff hstart hpos]
  unfold RowsFit
  refine and_congr_right fun hfits => ?_
  have hcheck (st : RowsState) : Res.Safe (st.ptr.bytes 0 4 >>= fun _ => pure (f st)) ↔
      4 ≤ st.ptr.data.length := by
    rw [Res.safe_bind_iff, Res.Ends.safe_iff (Ptr.ends_bytes _ _ _)]
    simp [Ptr.bytes_eq_ok]
  simp only [hcheck, parseRows_eq_run, Loop.run_ok_iff, rowsRound_inr_iff]
  constructor
  · intro h k hend
    have hrounds : ∀ j < k, RoundFits update td cols n
        (st₀.ptr.data.drop (position update td cols n st₀.ptr.data j)) :=
      fun j hj => hfits j fun i hi => hend.1 i (by omega)
    obtain ⟨st, hst⟩ := (exists_reaches_iff hstart).mpr fun j hj => ⟨hend.1 j hj, hrounds j hj⟩
    obtain ⟨hptr, htmp⟩ := reaches_state hstart hst
    -- every round has left a byte behind it
    have hmove := roundsMove_of_endsBehind hend hrounds
    have hk : k < st₀.ptr.data.length + 2 := by
      by_contra hge
      have hgrow := le_position fun j (hj : j < st₀.ptr.data.length) =>
        (hmove j fun i hi => hend.1 i (by omega)).2
      have := position_lt hpos (hrounds st₀.ptr.data.length (by omega))
      omega
    have hlen := h st ⟨k, hk, st, hst, htmp ▸ hend.2, rfl⟩
    rw [hptr, Ptr.add_data, List.length_drop] at hlen
    omega
  · rintro h st ⟨k, -, st', hst', hlimit, rfl⟩
    obtain ⟨hptr, htmp⟩ := reaches_state hstart hst'
    have hrounds := (exists_reaches_iff hstart).mp ⟨st', hst'⟩
    have hlen := h k ⟨fun j hj => (hrounds j hj).1, htmp ▸ hlimit⟩
    rw [hptr, Ptr.add_data, List.length_drop]
    omega

end Start

end Rows

/-! ### Decoding a loaded event -/

theorem ends_createTableDef (map : CTableMapEvent) : Res.Ends map.createTableDef := by
  have hwords (fieldMetadata : Bytes) (types : Bytes) (index : ℕ) :
      Res.Ends (metadataWords fieldMetadata index types) := by
    induction types generalizing index with
    | nil => exact Res.ends_ok _
    | cons t types ih =>
      have hbyte (k : ℕ) : Res.Ends (UInt8.toNat <$> Res.ofOption fieldMetadata[k]?) :=
        Res.Ends.map _ (Res.ends_ofOption _)
      have hword : Res.Ends (metadataWord fieldMetadata index (FieldType.ofCode t.toNat)) := by
        unfold metadataWord
        dsimp only
        split
        all_goals first
          | exact Res.ends_ok _
          | exact Res.Ends.bind (hbyte _) fun _ _ => Res.ends_ok _
          | exact Res.Ends.bind (hbyte _) fun _ _ => Res.Ends.bind (hbyte _) fun _ _ => Res.ends_ok _
      exact Res.Ends.bind hword fun r _ => Res.Ends.bind (ih r.2) fun _ _ => Res.ends_ok _
  unfold CTableMapEvent.createTableDef CTableDef.new
  refine Res.Ends.bind (Res.ends_ofOption _) fun colSize _ => ?_
  split_ifs
  · exact Res.ends_ok _
  · refine Res.Ends.bind (Res.ends_ofOption _) fun metadataSize _ => ?_
    split_ifs
    · exact Res.ends_ok _
    · exact Res.Ends.bind (hwords _ _ _) fun _ _ => Res.ends_ok _

section Parse
variable {ev : CRowsEvent} {map : CTableMapEvent}

theorem safe_parseEvent_none (ev : CRowsEvent) : Res.Safe (ev.parseEvent none) := Res.safe_ok _

/-- An event that was found too short is decoded from pointers it does not have. -/
theorem not_safe_parseEvent (h : ev.ptrRowsData = none) : ¬ Res.Safe (ev.parseEvent (some map)) := by
  unfold CRowsEvent.parseEvent
  rw [Res.safe_bind_iff, Res.Ends.safe_iff (ends_createTableDef map)]
  rintro ⟨⟨td, htd⟩, hrest⟩
  have := hrest td htd
  rw [h, Res.ofOption_none, Res.error_bind] at this
  exact Res.not_safe_fault this

/-- **A loaded event is decoded** without a read outside when its table can be defined and its rows
fit. -/
theorem safe_parseEvent_iff {n len : ℕ} {ptr : Ptr} (hn : ev.columnCount = some n)
    (hptr : ev.ptrRowsData = some ptr) (hlen : ev.rowsDataLen = some len)
    (hpos : (∃ k, bitmapBitsSet ev.cols = .ok k) → 0 < n) :
    Res.Safe (ev.parseEvent (some map)) ↔ ∃ td, map.createTableDef = .ok td ∧
      RowsFit (decide (ev.kind = .update)) td ev.cols n ptr.data (rowsLimit len) := by
  cases htd : map.createTableDef with
  | error e =>
    have hends := ends_createTableDef map
    rw [htd] at hends
    simp only [CRowsEvent.parseEvent, htd, Res.error_bind]
    cases e with
    | fault => simp
    | hang => exact absurd rfl hends
  | ok td =>
    rw [CRowsEvent.parseEvent_eq hn hptr hlen htd]
    refine (safe_rows_iff rfl hpos _ rfl).trans ?_
    simp

end Parse

/-! ### Events -/

/-- What `parseOneEvent` does with a rows event: it loads it, whatever comes of that, and decodes it with
the table map registered under its table id. -/
def decodeRows (gde : CHeaderEvent) (tablemaps : ℕ → Option CTableMapEvent) (kind : RowsKind) (p : Ptr) :
    Res (CRowsEvent × LoadState) := do
  let (ev, _) ← CRowsEvent.loadEvent gde kind p
  let tableId ← Res.ofOption ev.tableId
  ev.parseEvent (tablemaps tableId)

/-- The parser decodes a rows event and hands on what it has decoded. -/
theorem handleRows_eq (s : CParseLogEntry) (kind : RowsKind) (p : Ptr) : handleRows s kind p =
    decodeRows s.gde s.tablemaps kind p >>= fun r => do
      let query ← Res.ofOption s.queryTmp
      let map ← Res.ofOption s.mapTmp
      return { s with
        out := s.out ++ [r.1.createRowData query.threadId (cStr map.dbName) (cStr map.tableName)] } := by
  unfold handleRows decodeRows
  cases CRowsEvent.loadEvent s.gde kind p with
  | error e => rfl
  | ok r =>
    simp only [Res.ok_bind]
    cases Res.ofOption r.1.tableId with
    | error e => rfl
    | ok id => rfl

/-- The bytes of a table id. -/
def tableIdLen (post : ℕ) : ℕ := if post = 6 then 4 else 6

section Layout
variable (gde : CHeaderEvent) (data : Bytes)

/-- The type an event says it has. -/
def typeOf : ℕ := leNat ((data.drop eventTypeOffset).take 1)

/-- Where the extra header of a version 2 event begins: behind the table id and the flags. -/
def extraStart (post : ℕ) : ℕ := gde.commonHeaderLength + tableIdLen post + 2

/-- The table id an event says it has, of which 32 bits are kept. -/
def tableIdOf (post : ℕ) : ℕ :=
  leNat ((data.drop gde.commonHeaderLength).take (tableIdLen post)) % 2 ^ 32

/-- The rows that begin behind the columns at `pos` fit, decoded with the table map `map`. -/
def TableRowsFit (kind : RowsKind) (size pos : ℕ) (map : CTableMapEvent) : Prop :=
  ∃ td cols, map.createTableDef = .ok td ∧
    loadBitmap (lengthValue data pos) (bitmapImage data pos) = .ok cols ∧
    RowsFit (decide (kind = .update)) td cols (lengthValue data pos) (data.drop (rowsStart data kind pos))
      (rowsLimit ((size + 2 ^ 32 - rowsStart data kind pos % 2 ^ 32) % 2 ^ 32))

/-- **Everything a rows event of `size` bytes declares lies in its buffer**: the headers, the extra
header, the columns and the rows. An event whose extra header is found too short must not have a table
map, since it is decoded nevertheless. -/
def RowsInside (tablemaps : ℕ → Option CTableMapEvent) (kind : RowsKind) (size : ℕ) : Prop :=
  19 ≤ data.length ∧ ∃ post, gde.postHeader (typeOf data) = .ok post ∧
    gde.commonHeaderLength + post ≤ size ∧ extraStart gde post ≤ data.length ∧
    (ExtraInside data post (extraStart gde post) none ∧ tablemaps (tableIdOf gde data post) = none ∨
      ∃ extraLen, ExtraInside data post (extraStart gde post) (some extraLen) ∧
        ColumnsInside data kind (gde.commonHeaderLength + post + extraLen) ∧
        ∀ map, tablemaps (tableIdOf gde data post) = some map →
          TableRowsFit data kind size (gde.commonHeaderLength + post + extraLen) map)

end Layout

/-- What `loadEvent` does behind the extra header. -/
def loadBehindExtra (kind : RowsKind) (p : Ptr) (size : ℕ) (ev : CRowsEvent) (varStart : ℕ) :
    Option ℕ → Res (CRowsEvent × LoadState)
  | none => .ok (ev, .extraHeaderLenTooSmall)
  | some extraHeaderLen => loadColumns kind p size ev (varStart + extraHeaderLen)

section Load
variable {gde : CHeaderEvent} {kind : RowsKind} {p : Ptr} {header : EventHeader} {post : ℕ}
  (hheader : parseHeader p = .ok header) (hpost : gde.postHeader header.eventType = .ok post)
include hheader hpost

theorem loadEvent_small (hsmall : header.eventSize < gde.commonHeaderLength + post) :
    CRowsEvent.loadEvent gde kind p = .ok (CRowsEvent.new kind header, .eventLengthTooSmall) := by
  unfold CRowsEvent.loadEvent
  simp only [hheader, hpost, Res.ok_bind, if_pos hsmall, Res.pure_eq]

variable (hsize : gde.commonHeaderLength + post ≤ header.eventSize)
include hsize

theorem loadEvent_inside (hin : extraStart gde post ≤ p.data.length) :
    CRowsEvent.loadEvent gde kind p = readExtra p post (extraStart gde post) >>=
      loadBehindExtra kind p header.eventSize
        { CRowsEvent.new kind header with tableId := some (tableIdOf gde p.data post) }
        (gde.commonHeaderLength + post) := by
  unfold extraStart at hin
  have hid : p.le gde.commonHeaderLength (if post = 6 then 4 else 6) =
      .ok (leNat ((p.data.drop gde.commonHeaderLength).take (tableIdLen post))) :=
    Ptr.le_eq_ok.mpr ⟨.inr (by unfold tableIdLen at hin; omega), rfl⟩
  have hflags : p.bytes (gde.commonHeaderLength + if post = 6 then 4 else 6) 2 = .ok _ :=
    Ptr.bytes_eq_ok.mpr ⟨.inr hin, rfl⟩
  unfold CRowsEvent.loadEvent
  simp only [hheader, hpost, Res.ok_bind, if_neg (not_lt.mpr hsize), hid, hflags]
  unfold readExtra extraStart tableIdLen
  congr 1

/-- The event behind its headers: its table id is known, its row data are not. -/
theorem exists_loadEvent_inside (hin : extraStart gde post ≤ p.data.length) (kind : RowsKind) :
    ∃ ev : CRowsEvent, ev.tableId = some (tableIdOf gde p.data post) ∧ ev.kind = kind ∧
      ev.ptrRowsData = none ∧
      CRowsEvent.loadEvent gde kind p = readExtra p post (extraStart gde post) >>=
        loadBehindExtra kind p header.eventSize ev (gde.commonHeaderLength + post) :=
  ⟨{ CRowsEvent.new kind header with tableId := some (tableIdOf gde p.data post) }, rfl, rfl, rfl,
    loadEvent_inside hheader hpost hsize hin⟩

theorem loadEvent_outside (hout : p.data.length < extraStart gde post) :
    CRowsEvent.loadEvent gde kind p = .error .fault := by
  unfold CRowsEvent.loadEvent
  simp only [hheader, hpost, Res.ok_bind, if_neg (not_lt.mpr hsize)]
  rcases Res.Ends.fault_or_ok (Ptr.ends_le p gde.commonHeaderLength (if post = 6 then 4 else 6)) with
    hbad | ⟨id, hid⟩
  · rw [hbad, Res.error_bind]
  rw [hid, Res.ok_bind]
  unfold extraStart tableIdLen at hout
  rw [Ptr.bytes_outside hout (by norm_num), Res.error_bind]

end Load

/-- The nineteen bytes of a header must be there. -/
theorem parseHeader_short {p : Ptr} (h : p.data.length < 19) : parseHeader p = .error .fault := by
  unfold parseHeader
  rw [Ptr.bytes_outside (by omega) (by norm_num), Res.error_bind]

/-- The header of a buffer. -/
theorem parseHeader_buffer {p : Ptr} {size : ℕ} (hbuf : EventBuffer p size) (h19 : 19 ≤ p.data.length) :
    ∃ timestamp, parseHeader p = .ok ⟨timestamp, typeOf p.data, size⟩ := by
  obtain ⟨timestamp, htime⟩ := le_of_le (show 0 + 4 ≤ p.data.length by omega)
  obtain ⟨b, hb⟩ := read_of_lt (show 4 < p.data.length by omega)
  have htype : b.toNat = typeOf p.data := (Ptr.read_eq_ok_leNat.mp hb).2
  exact ⟨timestamp, parseHeader_eq_ok.mpr ⟨h19, htime, ⟨b, hb, htype⟩, hbuf.header⟩⟩

/-- **The headers in front of an event**: they are read, or nothing behind them is. -/
theorem headers_fault_or_ok {p : Ptr} {size : ℕ} (hbuf : EventBuffer p size) (gde : CHeaderEvent) :
    ((19 ≤ p.data.length → gde.postHeader (typeOf p.data) = .error .fault) ∧
      ∀ {α : Type} (load : EventHeader → ℕ → Res α),
        (parseHeader p >>= fun header => gde.postHeader header.eventType >>= load header) = .error .fault) ∨
    19 ≤ p.data.length ∧ ∃ timestamp post, parseHeader p = .ok ⟨timestamp, typeOf p.data, size⟩ ∧
      gde.postHeader (typeOf p.data) = .ok post := by
  rcases Nat.lt_or_ge p.data.length 19 with hshort | h19
  · refine .inl ⟨fun h19 => absurd h19 (by omega), fun load => ?_⟩
    rw [parseHeader_short hshort, Res.error_bind]
  obtain ⟨timestamp, hheader⟩ := parseHeader_buffer hbuf h19
  rcases Res.Ends.fault_or_ok (ends_postHeader gde (typeOf p.data)) with hbad | ⟨post, hpost⟩
  · refine .inl ⟨fun _ => hbad, fun load => ?_⟩
    rw [hheader, Res.ok_bind, hbad, Res.error_bind]
  · exact .inr ⟨h19, timestamp, post, hheader, hpost⟩

section Decode
variable {gde : CHeaderEvent} {tablemaps : ℕ → Option CTableMapEvent} {kind : RowsKind} {p : Ptr}

theorem not_safe_decodeRows (h : CRowsEvent.loadEvent gde kind p = .error .fault) :
    ¬ Res.Safe (decodeRows gde tablemaps kind p) := by
  unfold decodeRows
  rw [h, Res.error_bind]
  exact Res.not_safe_fault

/-- The table id of an event that is shorter than its headers is indeterminate. -/
theorem not_safe_decodeRows_small {header : EventHeader} {post : ℕ} (hheader : parseHeader p = .ok header)
    (hpost : gde.postHeader header.eventType = .ok post)
    (hsmall : header.eventSize < gde.commonHeaderLength + post) :
    ¬ Res.Safe (decodeRows gde tablemaps kind p) := by
  have hid : (CRowsEvent.new kind header).tableId = none := rfl
  unfold decodeRows
  rw [loadEvent_small hheader hpost hsmall, Res.ok_bind]
  dsimp only
  rw [hid, Res.ofOption_none, Res.error_bind]
  exact Res.not_safe_fault

/-- An event with a table id is decoded with the table map registered under it. -/
theorem decodeRows_eq {ev : CRowsEvent} {state : LoadState} {id : ℕ}
    (h : CRowsEvent.loadEvent gde kind p = .ok (ev, state)) (hid : ev.tableId = some id) :
    decodeRows gde tablemaps kind p = ev.parseEvent (tablemaps id) := by
  unfold decodeRows
  rw [h, Res.ok_bind]
  dsimp only
  rw [hid, Res.ofOption_some, Res.ok_bind]

/-- An event whose columns lie inside is decoded without a read outside when its rows fit. -/
theorem safe_decodeRows_columns {size pos id : ℕ} {ev : CRowsEvent} (hid : ev.tableId = some id)
    (hkind : ev.kind = kind) (hinside : ColumnsInside p.data kind pos)
    (hload : CRowsEvent.loadEvent gde kind p = loadColumns kind p size ev pos) :
    Res.Safe (decodeRows gde tablemaps kind p) ↔
      ∀ map, tablemaps id = some map → TableRowsFit p.data kind size pos map := by
  obtain ⟨⟨ev', state⟩, hr⟩ := exists_loadColumns_iff.mpr hinside
  obtain ⟨-, hkind', hid', hcount, hcols, hptr, hlen, hpos⟩ := loadColumns_event hr
  rw [decodeRows_eq (hload.trans hr) (hid'.trans hid)]
  cases hmap : tablemaps id with
  | none => simp [CRowsEvent.parseEvent]
  | some map =>
    rw [safe_parseEvent_iff hcount hptr hlen hpos]
    simp only [Option.some.injEq, forall_eq']
    unfold TableRowsFit
    rw [hkind'.trans hkind, Ptr.add_data]
    constructor
    · rintro ⟨td, htd, hfit⟩
      exact ⟨td, ev'.cols, htd, hcols, hfit⟩
    · rintro ⟨td, cols, htd, hcols', hfit⟩
      obtain rfl := Except.ok.inj (hcols.symm.trans hcols')
      exact ⟨td, htd, hfit⟩

end Decode

/-- **A rows event is decoded without a read outside its buffer** exactly when everything it declares lies
inside: the lengths are compared with nothing. -/
theorem safe_decodeRows_iff {p : Ptr} {size : ℕ} (hbuf : EventBuffer p size)
    (gde : CHeaderEvent) (tablemaps : ℕ → Option CTableMapEvent) (kind : RowsKind) :
    Res.Safe (decodeRows gde tablemaps kind p) ↔ RowsInside gde p.data tablemaps kind size := by
  obtain ⟨hbad, hload⟩ | ⟨h19, timestamp, post, hheader, hpost⟩ := headers_fault_or_ok hbuf gde
  · refine iff_of_false (not_safe_decodeRows (hload _)) ?_
    rintro ⟨h19, post, hpost, -⟩
    rw [hbad h19] at hpost
    cases hpost
  have hlayout : RowsInside gde p.data tablemaps kind size ↔
      gde.commonHeaderLength + post ≤ size ∧ extraStart gde post ≤ p.data.length ∧
      (ExtraInside p.data post (extraStart gde post) none ∧
          tablemaps (tableIdOf gde p.data post) = none ∨
        ∃ extraLen, ExtraInside p.data post (extraStart gde post) (some extraLen) ∧
          ColumnsInside p.data kind (gde.commonHeaderLength + post + extraLen) ∧
          ∀ map, tablemaps (tableIdOf gde p.data post) = some map →
            TableRowsFit p.data kind size (gde.commonHeaderLength + post + extraLen) map) := by
    rw [RowsInside, Res.exists_eq_ok_and hpost, and_iff_right h19]
  rw [hlayout]
  simp only [← readExtra_eq_ok]
  rcases Nat.lt_or_ge size (gde.commonHeaderLength + post) with hsmall | hsize
  · refine iff_of_false (not_safe_decodeRows_small hheader hpost hsmall) fun h => ?_
    omega
  rcases Nat.lt_or_ge p.data.length (extraStart gde post) with hout | hin
  · refine iff_of_false (not_safe_decodeRows (loadEvent_outside hheader hpost hsize hout)) fun h => ?_
    omega
  obtain ⟨ev, hid, hkind, hnone, hload⟩ := exists_loadEvent_inside hheader hpost hsize hin kind
  rcases Res.Ends.fault_or_ok (ends_readExtra p post (extraStart gde post)) with hbad | ⟨extra, hextra⟩
  · rw [hbad, Res.error_bind] at hload
    rw [hbad]
    refine iff_of_false (not_safe_decodeRows hload) ?_
    rintro ⟨-, -, ⟨h, -⟩ | ⟨len, h, -⟩⟩ <;> cases h
  rw [hextra, Res.ok_bind] at hload
  rw [hextra]
  cases extra with
  | none =>
    rw [decodeRows_eq hload hid]
    cases hmap : tablemaps (tableIdOf gde p.data post) with
    | none => exact iff_of_true (safe_parseEvent_none ev) ⟨hsize, hin, .inl ⟨rfl, rfl⟩⟩
    | some map =>
      refine iff_of_false (not_safe_parseEvent hnone) ?_
      rintro ⟨-, -, ⟨-, h⟩ | ⟨len, h, -⟩⟩ <;> cases h
  | some len =>
    have hload' : CRowsEvent.loadEvent gde kind p =
        loadColumns kind p size ev (gde.commonHeaderLength + post + len) := hload
    simp only [reduceCtorEq, Except.ok.injEq, false_and, false_or, Option.some.injEq, exists_eq_left',
      hsize, hin, true_and]
    by_cases hinside : ColumnsInside p.data kind (gde.commonHeaderLength + post + len)
    · rw [safe_decodeRows_columns hid hkind hinside hload']
      exact (and_iff_right hinside).symm
    · refine iff_of_false (not_safe_decodeRows ?_) fun h => hinside h.1
      rcases Res.Ends.fault_or_ok (ends_loadColumns kind p size ev (gde.commonHeaderLength + post + len))
        with hbad | hok
      · exact hload'.trans hbad
      · exact absurd (exists_loadColumns_iff.mp hok) hinside

/-- The table with a VARCHAR(10), registered under its id. -/
def varcharTables (id : ℕ) : Option CTableMapEvent := if id = 7 then some varcharMap else none

/-- A WRITE event with one row lies in its buffer. -/
theorem oneRow_inside : EventBuffer ⟨0, oneRow.bytes ++ [0]⟩ 40 ∧
    Res.Safe (decodeRows description varcharTables .write ⟨0, oneRow.bytes ++ [0]⟩) ∧
    RowsInside description (oneRow.bytes ++ [0]) varcharTables .write 40 := by
  have hsafe : Res.Safe (decodeRows description varcharTables .write ⟨0, oneRow.bytes ++ [0]⟩) := by
    unfold Res.Safe
    decide +kernel
  exact ⟨buffer_oneRow, hsafe, (safe_decodeRows_iff buffer_oneRow description varcharTables .write).mp hsafe⟩

/-- The same event, its text said to have 200 bytes. -/
def cutRow : RowsFrame := { oneRow with rows := [0, 200, 97, 98, 99] }

/-- **A text longer than the event** is read from behind the event. -/
theorem cutRow_outside : EventBuffer ⟨0, cutRow.bytes ++ [0]⟩ 40 ∧
    CTableMapEvent.loadEvent description ⟨0, (oneColumn ⟨15, 10, by decide⟩).bytes ++ [0]⟩ =
      .ok (varcharMap, .success) ∧
    (∃ ev, CRowsEvent.loadEvent description .write ⟨0, cutRow.bytes ++ [0]⟩ = .ok (ev, .success)) ∧
    ¬ Res.Safe (decodeRows description varcharTables .write ⟨0, cutRow.bytes ++ [0]⟩) := by
  have hload : ∃ ev, CRowsEvent.loadEvent description .write ⟨0, cutRow.bytes ++ [0]⟩ =
      .ok (ev, .success) :=
    ⟨{ oneRowEvent with ptrRowsData := some ⟨31, [0, 200, 97, 98, 99, 0, 0, 0, 0, 0]⟩ }, by decide +kernel⟩
  refine ⟨⟨by decide +kernel, by decide +kernel, by decide +kernel⟩, by decide +kernel, hload, ?_⟩
  unfold Res.Safe
  decide +kernel

end DataSync.Binlog.EventBounds
