import DataSync.Binlog.RowsFormat
import DataSync.Binlog.ParseLogEntry
import DataSync.Lib.Loop

/-! # When the header scan ends

The loop of `checkHeader` steps over the events in front of the first event of another type. How far is the
size an event says it has, less the nineteen bytes of its header, taken for a signed number: a size of zero
steps back to the header itself, and one of more than `2 ^ 31` steps back behind it. The one comparison of
a size with a header there is has no statement in its branch.

`scanRound_eq`: where a round goes on from. `scanEnds_iff`: the scan moves forward in every round, and ends,
exactly when every header it comes to moves it. -/

namespace DataSync.Binlog.HeaderScan

open DataSync.Lib DataSync.Lib.Words DataSync.Lib.Memory DataSync.Binlog.Format DataSync.Binlog.LogEvent
open DataSync.Binlog.ParseLogEntry DataSync.Binlog.RowsFormat

/-! ### The loop as steps of the position -/

/-- One round of the loop of `checkHeader` on the position `pos` of the file: the position of the next
round, or none when the loop is left. What a format description says does not matter here. -/
def scanRound (file : Bytes) (pos : ℕ) : Res (ℕ ⊕ Unit) :=
  match (FileCache.mk file pos).readCache logEventHeaderLen with
  | (none, _) => .ok (.inr ())
  | (some ucHeaderBuf, fc) => do
    let eventSize ← (Ptr.mk 0 ucHeaderBuf).le eventLenOffset 4
    let eventType := (← (Ptr.mk 0 ucHeaderBuf).read eventTypeOffset).toNat
    let skip := toSigned 32 (eventSize + 2 ^ 32 - logEventHeaderLen)
    match EventType.ofCode eventType with
    | .startV3 | .previousGtids | .rotate => .ok (.inl (fc.seekCur skip).pos)
    | .formatDescription =>
      match (fc.seekCur (-logEventHeaderLen)).readCache eventSize with
      | (none, _) => .ok (.inr ())
      | (some _, fc) => .ok (.inl fc.pos)
    | _ => .ok (.inr ())

section Headers
variable (file : Bytes) (pos : ℕ)

/-- The size the header at `pos` gives its event. -/
def sizeAt : ℕ := leNat ((file.drop (pos + eventLenOffset)).take 4)

/-- The type the header at `pos` gives its event. -/
def typeAt : EventType := EventType.ofCode (leNat ((file.drop (pos + eventTypeOffset)).take 1))

/-- The event at `pos` is stepped over unread. -/
def Skipped : Prop := typeAt file pos = .startV3 ∨ typeAt file pos = .previousGtids ∨ typeAt file pos = .rotate

instance : Decidable (Skipped file pos) := by unfold Skipped; infer_instance

/-- Where a step over the event at `pos` ends: a step of `2 ^ 31` or more goes back, unless that would be
in front of the file. -/
def skipTo : ℕ :=
  if sizeAt file pos < 2 ^ 31 + logEventHeaderLen then pos + sizeAt file pos
  else if pos + sizeAt file pos < 2 ^ 32 then pos + logEventHeaderLen
  else pos + sizeAt file pos - 2 ^ 32

/-- The header the scan comes to behind the one at `pos`. -/
def nextHeader : Option ℕ :=
  if file.length < pos + logEventHeaderLen then none
  else if Skipped file pos then some (skipTo file pos)
  else if typeAt file pos = .formatDescription ∧ sizeAt file pos ≠ 0 ∧ pos + sizeAt file pos ≤ file.length
  then some (pos + sizeAt file pos)
  else none

/-- The header the scan comes to in round `k`. -/
def headerPos : ℕ → Option ℕ
  | 0 => some binlogMagic.length
  | k + 1 => (headerPos k).bind (nextHeader file)

/-- The header at `pos` moves the scan forward, when its event is stepped over. -/
def Moves : Prop :=
  pos + logEventHeaderLen ≤ file.length → Skipped file pos → sizeAt file pos ≠ 0 ∧
    (sizeAt file pos < 2 ^ 31 + logEventHeaderLen ∨ pos + sizeAt file pos < 2 ^ 32)

end Headers

section Round
variable {file : Bytes} {pos : ℕ}

theorem sizeAt_lt (file : Bytes) (pos : ℕ) : sizeAt file pos < 2 ^ 32 := by
  have hlen : ((file.drop (pos + eventLenOffset)).take 4).length ≤ 4 := by
    rw [List.length_take]; exact Nat.min_le_left _ _
  calc sizeAt file pos < 256 ^ ((file.drop (pos + eventLenOffset)).take 4).length := leNat_lt _
    _ ≤ 256 ^ 4 := Nat.pow_le_pow_right (by norm_num) hlen
    _ = 2 ^ 32 := by norm_num

theorem readCache_short {n : ℕ} (h : file.length < pos + n) :
    ∃ fc, (FileCache.mk file pos).readCache n = (none, fc) := by
  unfold FileCache.readCache
  split_ifs with hzero hle
  · exact ⟨_, rfl⟩
  · dsimp only at hle; omega
  · exact ⟨_, rfl⟩

theorem readCache_inside {n : ℕ} (hn : n ≠ 0) (h : pos + n ≤ file.length) :
    (FileCache.mk file pos).readCache n = (some ((file.drop pos).take n), ⟨file, pos + n⟩) := by
  unfold FileCache.readCache
  rw [if_neg hn, if_pos h]

/-- A field of a header, read from the file. -/
theorem take_drop_header {j n : ℕ} (h : j + n ≤ logEventHeaderLen) :
    (((file.drop pos).take logEventHeaderLen).drop j).take n = (file.drop (pos + j)).take n := by
  rw [List.drop_take, List.take_take, List.drop_drop, Nat.min_eq_left (by omega)]

theorem length_header (h : pos + logEventHeaderLen ≤ file.length) :
    ((file.drop pos).take logEventHeaderLen).length = logEventHeaderLen := by
  rw [List.length_take, List.length_drop]; omega

theorem le_header (h : pos + logEventHeaderLen ≤ file.length) :
    (Ptr.mk 0 ((file.drop pos).take logEventHeaderLen)).le eventLenOffset 4 = .ok (sizeAt file pos) := by
  refine Ptr.le_eq_ok.mpr ⟨.inr ?_, ?_⟩
  · show eventLenOffset + 4 ≤ ((file.drop pos).take logEventHeaderLen).length
    rw [length_header h]; decide
  · show _ = leNat ((((file.drop pos).take logEventHeaderLen).drop eventLenOffset).take 4)
    rw [take_drop_header (by decide)]
    rfl

theorem read_header (h : pos + logEventHeaderLen ≤ file.length) :
    ∃ b, (Ptr.mk 0 ((file.drop pos).take logEventHeaderLen)).read eventTypeOffset = .ok b ∧
      EventType.ofCode b.toNat = typeAt file pos := by
  have hlt : eventTypeOffset < ((file.drop pos).take logEventHeaderLen).length := by
    rw [length_header h]; decide
  have hb : (Ptr.mk 0 ((file.drop pos).take logEventHeaderLen)).read eventTypeOffset = .ok _ :=
    Ptr.read_eq_ok.mpr (List.getElem?_eq_getElem hlt)
  refine ⟨_, hb, ?_⟩
  have hnum := (Ptr.read_eq_ok_leNat.mp hb).2
  dsimp only at hnum
  rw [take_drop_header (by decide)] at hnum
  rw [hnum]
  rfl

/-- The size less the header, as a signed number. -/
theorem toSigned_skip {size : ℕ} (hsize : size < 2 ^ 32) :
    toSigned 32 (size + 2 ^ 32 - logEventHeaderLen) =
      if size < 2 ^ 31 + logEventHeaderLen then (size : ℤ) - 19 else (size : ℤ) - 19 - 2 ^ 32 := by
  have hlen : logEventHeaderLen = 19 := rfl
  have hcast : ((size + 2 ^ 32 - logEventHeaderLen : ℕ) : ℤ) = (size - 19 : ℤ) + (2 ^ 32 : ℕ) := by omega
  rw [toSigned, hcast, Int.add_bmod_right]
  split_ifs with hsmall
  · exact bmod_two_pow (by norm_num) (by omega) (by omega)
  · have hwrap : (size - 19 : ℤ) = (size - 19 - 2 ^ 32 : ℤ) + (2 ^ 32 : ℕ) := by push_cast; ring
    calc Int.bmod (size - 19) (2 ^ 32) = Int.bmod (size - 19 - 2 ^ 32) (2 ^ 32) := by
          rw [hwrap, Int.add_bmod_right, ← hwrap]
      _ = size - 19 - 2 ^ 32 := bmod_two_pow (by norm_num) (by omega) (by omega)

/-- **A step over an event**, from behind its header. -/
theorem seekCur_skip : ((FileCache.mk file (pos + logEventHeaderLen)).seekCur
    (toSigned 32 (sizeAt file pos + 2 ^ 32 - logEventHeaderLen))).pos = skipTo file pos := by
  have hlen : logEventHeaderLen = 19 := rfl
  have hsize := sizeAt_lt file pos
  rw [toSigned_skip hsize]
  unfold FileCache.seekCur skipTo
  dsimp only
  split_ifs <;> dsimp only <;> omega

theorem seekCur_back : (FileCache.mk file (pos + logEventHeaderLen)).seekCur (-logEventHeaderLen) =
    ⟨file, pos⟩ := by
  have hcast : (((pos + logEventHeaderLen : ℕ) : ℤ) + -(logEventHeaderLen : ℤ)) = pos := by push_cast; ring
  unfold FileCache.seekCur
  dsimp only
  rw [hcast, if_neg (by omega), Int.toNat_natCast]

/-- **One round**: it goes on from the next header. -/
theorem scanRound_eq (file : Bytes) (pos : ℕ) :
    scanRound file pos = .ok ((nextHeader file pos).elim (.inr ()) .inl) := by
  unfold scanRound nextHeader
  rcases Nat.lt_or_ge file.length (pos + logEventHeaderLen) with hshort | hin
  · obtain ⟨fc, hread⟩ := readCache_short hshort
    rw [hread, if_pos hshort]
    rfl
  obtain ⟨b, hb, htype⟩ := read_header hin
  rw [readCache_inside (by decide) hin, if_neg (by omega)]
  dsimp only
  rw [le_header hin, Res.ok_bind, hb, Res.ok_bind, htype, seekCur_skip, seekCur_back]
  cases hcase : typeAt file pos
  case startV3 | previousGtids | rotate =>
    have hskip : Skipped file pos := by unfold Skipped; rw [hcase]; decide
    rw [if_pos hskip]
    rfl
  case formatDescription =>
    have hskip : ¬ Skipped file pos := by unfold Skipped; rw [hcase]; decide
    rw [if_neg hskip]
    dsimp only
    by_cases hread : sizeAt file pos ≠ 0 ∧ pos + sizeAt file pos ≤ file.length
    · rw [readCache_inside hread.1 hread.2, if_pos ⟨rfl, hread⟩]
      rfl
    · have hnone : ∃ fc, (FileCache.mk file pos).readCache (sizeAt file pos) = (none, fc) := by
        by_cases hzero : sizeAt file pos = 0
        · exact ⟨⟨file, pos⟩, by rw [hzero]; rfl⟩
        · exact readCache_short (by omega)
      obtain ⟨fc, hfc⟩ := hnone
      rw [hfc, if_neg fun h => hread h.2]
      rfl
  all_goals
    have hskip : ¬ Skipped file pos := by unfold Skipped; simp [hcase]
    rw [if_neg hskip, if_neg fun h => nomatch h.1]
    rfl

theorem scanRound_inl_iff {next : ℕ} :
    scanRound file pos = .ok (.inl next) ↔ nextHeader file pos = some next := by
  rw [scanRound_eq]
  cases nextHeader file pos <;> simp

/-- A round moves forward when the header moves the scan. -/
theorem lt_next_iff : (∀ next, nextHeader file pos = some next → pos < next) ↔ Moves file pos := by
  have hlen : logEventHeaderLen = 19 := rfl
  have hsize := sizeAt_lt file pos
  unfold nextHeader Moves
  split_ifs with hshort hskip hread
  · simp; omega
  · simp only [Option.some.injEq, forall_eq', hskip, true_imp_iff]
    unfold skipTo
    split_ifs <;> omega
  · simp only [Option.some.injEq, forall_eq', hskip, false_implies, implies_true, iff_true]
    omega
  · simp [hskip]

end Round

/-! ### The scan -/

/-- `checkHeader` comes to the loop. -/
def HasMagic (file : Bytes) : Prop := file.take binlogMagic.length = binlogMagic

/-- Every round of the scan moves forward. -/
def Forward (file : Bytes) : Prop :=
  ∀ k pos next, Loop.Reaches (scanRound file) k binlogMagic.length pos →
    scanRound file pos = .ok (.inl next) → pos < next

/-- **The header scan ends**: every round leaves the loop or moves forward, some round leaves it, and
`checkHeader` does not go on for ever. -/
structure ScanEnds (file : Bytes) : Prop where
  forward : HasMagic file → Forward file
  leaves : HasMagic file → ∃ fuel, Loop.run (scanRound file) fuel binlogMagic.length = .ok ()
  ends : ∀ gde, Res.Ends (checkHeader (FileCache.init file) gde)

/-- **Every header the scan comes to moves it**: its size is not zero and does not lead back. -/
def HeadersMove (file : Bytes) : Prop :=
  HasMagic file → ∀ k pos, headerPos file k = some pos → Moves file pos

section Scan
variable {file : Bytes}

/-- **Round `k` begins at header `k`.** -/
theorem reaches_iff {k pos : ℕ} :
    Loop.Reaches (scanRound file) k binlogMagic.length pos ↔ headerPos file k = some pos := by
  induction k generalizing pos with
  | zero =>
    constructor
    · rintro ⟨⟩
      rfl
    · intro h
      obtain rfl := Option.some.inj h
      exact .refl _
  | succ k ih =>
    rw [headerPos, Option.bind_eq_some_iff]
    simp only [← ih, ← scanRound_inl_iff]
    constructor
    · exact fun h => h.succ_cases
    · rintro ⟨last, hlast, hround⟩
      exact hlast.tail hround

theorem forward_iff : Forward file ↔ ∀ k pos, headerPos file k = some pos → Moves file pos := by
  simp only [Forward, reaches_iff, scanRound_inl_iff, ← lt_next_iff]
  constructor
  · exact fun h k pos hpos next hnext => h k pos next hpos hnext
  · exact fun h k pos next hpos hnext => h k pos hpos next hnext

/-- A scan that moves forward ends: a header behind the end of the file is not read. -/
theorem leaves_of_forward (h : Forward file) :
    Loop.run (scanRound file) (file.length + 1) binlogMagic.length = .ok () := by
  have hup (k pos next : ℕ) (hreach : Loop.Reaches (scanRound file) k binlogMagic.length pos)
      (hround : scanRound file pos = .ok (.inl next)) : min pos file.length < min next file.length := by
    have hlt := h k pos next hreach hround
    have hin : pos < file.length := by
      by_contra hout
      have hnone : nextHeader file pos = none := by
        unfold nextHeader
        rw [if_pos (by rw [logEventHeaderLen]; omega)]
      rw [scanRound_inl_iff, hnone] at hround
      cases hround
    omega
  obtain ⟨⟨⟩, hrun⟩ : ∃ r, Loop.run (scanRound file) (file.length + 1) binlogMagic.length = .ok r := by
    refine Loop.exists_run_of_measure (μ := fun pos => min pos file.length) ?_ ?_ ?_
    · exact fun k pos _ => ⟨_, scanRound_eq file pos⟩
    · exact hup
    · exact fun k pos _ => Nat.lt_succ_of_le (Nat.min_le_right _ _)
  exact hrun

theorem readCache_file (fc : FileCache) (n : ℕ) : (fc.readCache n).2.file = fc.file := by
  unfold FileCache.readCache
  split_ifs <;> rfl

theorem seekCur_file (fc : FileCache) (offset : ℤ) : (fc.seekCur offset).file = fc.file := by
  unfold FileCache.seekCur
  dsimp only
  split_ifs <;> rfl

theorem ends_loadEvent (gde : CHeaderEvent) (p : Ptr) : Res.Ends (gde.loadEvent p) := by
  refine Res.Ends.bind ?_ fun header _ => ?_
  · refine Res.Ends.bind (Ptr.ends_bytes _ _ _) fun _ _ => ?_
    refine Res.Ends.bind (Ptr.ends_le _ _ _) fun _ _ => ?_
    refine Res.Ends.bind (Ptr.ends_read _ _) fun _ _ => ?_
    exact Res.Ends.bind (Ptr.ends_le _ _ _) fun _ _ => Res.ends_ok _
  · refine Res.Ends.bind (Ptr.ends_bytes _ _ _) fun _ _ => ?_
    refine Res.Ends.bind (Ptr.ends_read _ _) fun _ _ => ?_
    exact Res.Ends.bind (Ptr.ends_bytes _ _ _) fun _ _ => Res.ends_ok _

/-- The loop of `checkHeader` goes where the scan goes. -/
theorem ends_checkHeaderLoop {fuel : ℕ} {fc : FileCache} (gde : CHeaderEvent)
    (h : Loop.run (scanRound fc.file) fuel fc.pos = .ok ()) : Res.Ends (checkHeaderLoop fuel fc gde) := by
  induction fuel generalizing fc gde with
  | zero => cases h
  | succ fuel ih =>
    have hgo {fc' : FileCache} (gde : CHeaderEvent) (hfile : fc'.file = fc.file)
        (hround : scanRound fc.file fc.pos = .ok (.inl fc'.pos)) : Res.Ends (checkHeaderLoop fuel fc' gde) := by
      rw [Loop.run, hround, Res.ok_bind] at h
      exact ih gde (hfile ▸ h)
    unfold scanRound at hgo
    unfold checkHeaderLoop
    have hfile := readCache_file fc logEventHeaderLen
    rcases hread : fc.readCache logEventHeaderLen with ⟨_ | ucHeaderBuf, fc1⟩
    · exact Res.ends_ok _
    rw [hread] at hfile
    dsimp only at hfile ⊢
    refine Res.Ends.bind (Ptr.ends_le _ _ _) fun eventSize hsize => ?_
    refine Res.Ends.bind (Ptr.ends_read _ _) fun b hb => ?_
    have hfc : FileCache.mk fc.file fc.pos = fc := rfl
    rw [hfc, hread] at hgo
    dsimp only at hgo
    rw [hsize, Res.ok_bind, hb, Res.ok_bind] at hgo
    generalize EventType.ofCode b.toNat = type at hgo ⊢
    cases type
    case startV3 | previousGtids | rotate =>
      exact hgo gde ((seekCur_file _ _).trans hfile) rfl
    case formatDescription =>
      dsimp only at hgo ⊢
      have hbody := readCache_file (fc1.seekCur (-logEventHeaderLen)) eventSize
      rcases hbuf : (fc1.seekCur (-logEventHeaderLen)).readCache eventSize with ⟨_ | ucBuf, fc2⟩
      · exact Res.ends_ok _
      · rw [hbuf] at hbody
        have hfile2 : fc2.file = fc.file := (hbody.trans (seekCur_file _ _)).trans hfile
        refine Res.Ends.bind (ends_loadEvent _ _) fun gde' _ => hgo gde' hfile2 ?_
        rw [hbuf]
    all_goals exact Res.ends_ok _

theorem ends_checkHeader (h : HasMagic file → Forward file) (gde : CHeaderEvent) :
    Res.Ends (checkHeader (FileCache.init file) gde) := by
  unfold checkHeader
  rcases Nat.lt_or_ge file.length (0 + binlogMagic.length) with hshort | hin
  · obtain ⟨fc, hread⟩ := readCache_short hshort
    unfold FileCache.init
    rw [hread]
    exact Res.ends_ok _
  unfold FileCache.init
  rw [readCache_inside (by decide) hin, List.drop_zero, Nat.zero_add]
  dsimp only
  split_ifs with hmagic
  · exact Res.ends_ok _
  · have hrun := leaves_of_forward (h (not_not.mp hmagic))
    obtain ⟨k, hk, pos, hreach, hround⟩ := Loop.run_ok_iff.mp hrun
    exact ends_checkHeaderLoop gde (Loop.run_leaves hreach hround (by omega))

end Scan

/-- **The header scan ends on a file** exactly when every header it comes to moves it: no size is
compared with anything. -/
theorem scanEnds_iff (file : Bytes) : ScanEnds file ↔ HeadersMove file := by
  constructor
  · intro h hmagic
    exact forward_iff.mp (h.forward hmagic)
  · intro h
    have hforward (hmagic : HasMagic file) : Forward file := forward_iff.mpr (h hmagic)
    exact ⟨hforward, fun hmagic => ⟨_, leaves_of_forward (hforward hmagic)⟩, ends_checkHeader hforward⟩

/-- A file whose first event is a ROTATE of no size. -/
def emptyRotate : Bytes := binlogMagic ++ headerBytes 0 4 1 0 0 0

/-- **A header of size zero** is read for ever. -/
theorem emptyRotate_never_ends : HasMagic emptyRotate ∧
    scanRound emptyRotate binlogMagic.length = .ok (.inl binlogMagic.length) ∧
    checkHeader (FileCache.init emptyRotate) .initial = .error .hang ∧ ¬ ScanEnds emptyRotate := by
  have hhang : checkHeader (FileCache.init emptyRotate) .initial = .error .hang := by decide +kernel
  exact ⟨rfl, scanRound_inl_iff.mpr (by decide +kernel), hhang, fun h => h.ends .initial hhang⟩

end DataSync.Binlog.HeaderScan
