import DataSync.Binlog.ParseLogEntry

/-! # Reading a stream of events

What `parseOneEvent` and `parseEvents` make of a file that holds whole events from the read position to
its end: `parseOneEvent_event` for one event and `parseEventsLoop_events` for all of them. What
`checkHeader` makes of a file that begins with events of the header: `checkHeaderLoop_headers` when they
are all there, `checkHeaderLoop_growing` when the file ends among them. -/

namespace DataSync.Binlog.EventStream

open DataSync.Lib.Words DataSync.Lib.Memory DataSync.Binlog.Format DataSync.Binlog.LogEvent
open DataSync.Binlog.ParseLogEntry

/-! ### Events -/

/-- The type byte of an event. -/
def typeCode (bs : Bytes) : ℕ := (bs.getD eventTypeOffset 0).toNat

/-- The length field of an event. -/
def sizeField (bs : Bytes) : ℕ := leNat ((bs.drop eventLenOffset).take 4)

/-- A whole event: the header and at least one byte, with the right length field and a known type. -/
structure IsEvent (bs : Bytes) : Prop where
  long : logEventHeaderLen < bs.length
  short : bs.length + 1 < 2 ^ 32
  size : sizeField bs = bs.length
  type : 0 < typeCode bs ∧ typeCode bs ≤ enumEndEvent

instance (bs : Bytes) : Decidable (IsEvent bs) :=
  decidable_of_iff (logEventHeaderLen < bs.length ∧ bs.length + 1 < 2 ^ 32 ∧ sizeField bs = bs.length ∧
      0 < typeCode bs ∧ typeCode bs ≤ enumEndEvent)
    ⟨fun ⟨h1, h2, h3, h4⟩ => ⟨h1, h2, h3, h4⟩, fun ⟨h1, h2, h3, h4⟩ => ⟨h1, h2, h3, h4⟩⟩

/-- What `checkHeader` needs of an event: its header, with the right length field. -/
structure Framed (bs : Bytes) : Prop where
  long : logEventHeaderLen ≤ bs.length
  size : sizeField bs = bs.length

instance (bs : Bytes) : Decidable (Framed bs) :=
  decidable_of_iff (logEventHeaderLen ≤ bs.length ∧ sizeField bs = bs.length)
    ⟨fun ⟨h1, h2⟩ => ⟨h1, h2⟩, fun ⟨h1, h2⟩ => ⟨h1, h2⟩⟩

/-- The type of the event is one `parseOneEvent` knows. -/
def Known (bs : Bytes) : Prop := 0 < typeCode bs ∧ typeCode bs ≤ enumEndEvent

instance (bs : Bytes) : Decidable (Known bs) :=
  inferInstanceAs (Decidable (0 < typeCode bs ∧ typeCode bs ≤ enumEndEvent))

theorem Framed.short {bs : Bytes} (h : Framed bs) : bs.length < 2 ^ 32 := by
  have hlt := leNat_lt ((bs.drop eventLenOffset).take 4)
  have hle : ((bs.drop eventLenOffset).take 4).length ≤ 4 := List.length_take_le _ _
  have hpow := Nat.pow_le_pow_right (show 0 < 256 by norm_num) hle
  have hsize : leNat ((bs.drop eventLenOffset).take 4) = bs.length := h.size
  rw [hsize] at hlt
  omega

theorem IsEvent.framed {bs : Bytes} (h : IsEvent bs) : Framed bs := ⟨h.long.le, h.size⟩

/-- An event in its buffer is handed to the `switch` of `parseOneEvent`. -/
def handle (alloc : ℕ → ℕ) (s : CParseLogEntry) (bs : Bytes) : Res CParseLogEntry :=
  handleEvent { s with allocs := s.allocs + 1 } ⟨alloc s.allocs, bs ++ [0]⟩

section Cache
variable {fc : FileCache} {xs rest : Bytes}

theorem readCache_append (h : fc.file.drop fc.pos = xs ++ rest) (hne : xs ≠ []) :
    fc.readCache xs.length = (some xs, ⟨fc.file, fc.pos + xs.length⟩) := by
  have hpos : 0 < xs.length := List.length_pos_iff.mpr hne
  have hlen := congrArg List.length h
  rw [List.length_drop, List.length_append] at hlen
  rw [FileCache.readCache, if_neg (by omega), if_pos (by omega), h, List.take_left]

theorem readCache_short (h : fc.file.drop fc.pos = xs) {n : ℕ} (hn : xs.length < n) :
    fc.readCache n = (none, ⟨fc.file, max fc.pos fc.file.length⟩) := by
  have hlen := congrArg List.length h
  rw [List.length_drop] at hlen
  rw [FileCache.readCache, if_neg (by omega), if_neg (by omega)]

theorem drop_add_length (h : fc.file.drop fc.pos = xs ++ rest) :
    fc.file.drop (fc.pos + xs.length) = rest := by
  rw [← List.drop_drop, h, List.drop_left]

theorem seekCur_forward (file : Bytes) (pos n : ℕ) :
    FileCache.seekCur ⟨file, pos⟩ (n : ℤ) = ⟨file, pos + n⟩ := by
  have hnat : ((pos : ℤ) + n).toNat = pos + n := by omega
  unfold FileCache.seekCur
  simp only [hnat]
  exact if_neg (by omega)

theorem seekCur_back (file : Bytes) (pos n : ℕ) :
    FileCache.seekCur ⟨file, pos + n⟩ (-n) = ⟨file, pos⟩ := by
  have hback : ((pos + n : ℕ) : ℤ) + -n = pos := by omega
  unfold FileCache.seekCur
  simp only [hback, Int.toNat_natCast]
  exact if_neg (by omega)

end Cache

theorem le_sizeField {bs : Bytes} (h : 13 ≤ bs.length) (a : ℕ) (rest : Bytes) :
    Ptr.le ⟨a, bs ++ rest⟩ eventLenOffset 4 = .ok (sizeField bs) := by
  have hsplit : bs ++ rest = bs.take 9 ++ (bs.drop 9).take 4 ++ (bs.drop 13 ++ rest) := by
    rw [← List.append_assoc, List.append_assoc (bs.take 9)]
    have h2 : (bs.drop 9).take 4 ++ bs.drop 13 = bs.drop 9 := by
      rw [show bs.drop 13 = (bs.drop 9).drop 4 by rw [List.drop_drop], List.take_append_drop]
    rw [h2, List.take_append_drop]
  refine Ptr.le_at hsplit ?_ ?_
  · rw [List.length_take]
    unfold eventLenOffset
    omega
  · rw [List.length_take, List.length_drop]
    unfold eventLenOffset
    omega

theorem read_typeCode {bs : Bytes} (h : 5 ≤ bs.length) (a : ℕ) (rest : Bytes) :
    ∃ b, Ptr.read ⟨a, bs ++ rest⟩ eventTypeOffset = .ok b ∧ b.toNat = typeCode bs := by
  have hlt : eventTypeOffset < bs.length := by unfold eventTypeOffset; omega
  refine ⟨bs[eventTypeOffset], ?_, ?_⟩
  · rw [Ptr.read, List.getElem?_append_left hlt, List.getElem?_eq_getElem hlt, Res.ofOption_some]
  · rw [typeCode, List.getD_eq_getElem?_getD, List.getElem?_eq_getElem hlt, Option.getD_some]

/-- The header of an event, as far as a reader without the rest sees it. -/
theorem sizeField_take {bs : Bytes} : sizeField (bs.take logEventHeaderLen) = sizeField bs := by
  unfold sizeField logEventHeaderLen eventLenOffset
  rw [List.drop_take, List.take_take]
  rfl

theorem typeCode_take {bs : Bytes} : typeCode (bs.take logEventHeaderLen) = typeCode bs := by
  unfold typeCode logEventHeaderLen eventTypeOffset
  simp [List.getD_eq_getElem?_getD]

theorem handle_frame {alloc : ℕ → ℕ} {s s' : CParseLogEntry} {bs : Bytes}
    (h : handle alloc s bs = .ok s') : s'.gde = s.gde ∧ s'.allocs = s.allocs + 1 :=
  handleEvent_frame h

section Events
variable {alloc : ℕ → ℕ} {fc : FileCache} {s : CParseLogEntry} {bs rest : Bytes}

/-- **One event** at the read position goes to the `switch`, and the position behind it. -/
theorem parseOneEvent_event (hcommon : logEventHeaderLen ≤ s.gde.commonHeaderLength) (h : IsEvent bs)
    (hfile : fc.file.drop fc.pos = bs ++ rest) : parseOneEvent alloc fc s =
      (handle alloc s bs >>= fun s' => .ok (true, ⟨fc.file, fc.pos + bs.length⟩, s')) := by
  have hlong : 19 < bs.length := h.long
  have hshort : bs.length + 1 < 2 ^ 32 := h.short
  have hhead : min s.gde.commonHeaderLength logEventHeaderLen = (bs.take 19).length := by
    rw [List.length_take, min_eq_right hcommon]
    unfold logEventHeaderLen
    omega
  have hdrop : fc.file.drop fc.pos = bs.take 19 ++ (bs.drop 19 ++ rest) := by
    rw [← List.append_assoc, List.take_append_drop, hfile]
  have hread := readCache_append hdrop fun hnil => by
    have hlen := congrArg List.length hnil
    rw [List.length_take, List.length_nil] at hlen
    omega
  have hsize : Ptr.le ⟨0, bs.take 19⟩ eventLenOffset 4 = .ok bs.length := by
    have hle := le_sizeField (show 13 ≤ (bs.take 19).length by rw [List.length_take]; omega) 0 []
    rw [List.append_nil] at hle
    rw [hle]
    exact congrArg Except.ok (sizeField_take.trans h.size)
  have hbody : FileCache.readCache ⟨fc.file, fc.pos + (bs.take 19).length⟩
      (bs.length - (bs.take 19).length) = (some (bs.drop 19), ⟨fc.file, fc.pos + bs.length⟩) := by
    have hlen : bs.length - (bs.take 19).length = (bs.drop 19).length := by
      rw [List.length_take, List.length_drop]
      omega
    have hpos : fc.pos + (bs.take 19).length + (bs.drop 19).length = fc.pos + bs.length := by
      rw [Nat.add_assoc, ← List.length_append, List.take_append_drop]
    have hrest : (⟨fc.file, fc.pos + (bs.take 19).length⟩ : FileCache).file.drop
        (fc.pos + (bs.take 19).length) = bs.drop 19 ++ rest := drop_add_length hdrop
    rw [hlen, readCache_append hrest, hpos]
    intro hnil
    have hlen := congrArg List.length hnil
    rw [List.length_drop, List.length_nil] at hlen
    omega
  have hle := le_sizeField (show 13 ≤ bs.length by omega) (alloc s.allocs) [0]
  rw [h.size] at hle
  obtain ⟨b, hb, hcode⟩ := read_typeCode (show 5 ≤ bs.length by omega) (alloc s.allocs) [0]
  have htype := h.type
  have hsmall : ¬ bs.length < (bs.take 19).length := by
    rw [List.length_take]
    omega
  have hbad : ¬ (bs.length < eventLenOffset ∨ bs.length ≠ bs.length) := by
    unfold eventLenOffset
    omega
  have hknown : ¬ (enumEndEvent < b.toNat ∨ b.toNat = 0) := by
    rw [hcode]
    omega
  unfold parseOneEvent
  simp only [hhead, hread, hsize, Res.ok_bind, if_neg hsmall, if_neg (show ¬ bs.length + 1 = 2 ^ 32 by omega),
    hbody, List.take_append_drop, hle, if_neg hbad, hb, if_neg hknown, Res.pure_eq]
  rfl

theorem fileEof_iff {file : Bytes} {pos : ℕ} (hsize : file.length < 2 ^ 31) (hpos : pos ≤ file.length) :
    FileCache.fileEof ⟨file, pos⟩ = true ↔ pos = file.length := by
  unfold FileCache.fileEof FileCache.tell
  rw [if_pos hsize, if_pos (by simp only; omega), decide_eq_true_eq]
  simp only
  omega

/-- At the end of the file nothing is read. -/
theorem parseOneEvent_end (hcommon : logEventHeaderLen ≤ s.gde.commonHeaderLength)
    (hfile : fc.pos = fc.file.length) : parseOneEvent alloc fc s = .ok (false, fc, s) := by
  have hdrop : fc.file.drop fc.pos = [] := List.drop_eq_nil_of_le hfile.ge
  have hhead : min s.gde.commonHeaderLength logEventHeaderLen = 19 := min_eq_right hcommon
  have hread := readCache_short hdrop (show ([] : Bytes).length < 19 by simp)
  rw [max_eq_left hfile.ge] at hread
  unfold parseOneEvent
  simp only [hhead, hread, Res.pure_eq]

/-- **All events** from the read position to the end of the file. -/
theorem parseEventsLoop_events {events : List Bytes}
    (hs : logEventHeaderLen ≤ s.gde.commonHeaderLength) (hevents : ∀ bs ∈ events, IsEvent bs)
    (hsize : fc.file.length < 2 ^ 31) (hpos : fc.pos ≤ fc.file.length)
    (hfile : fc.file.drop fc.pos = events.flatten) {fuel : ℕ} (hfuel : events.length < fuel) :
    parseEventsLoop alloc fuel fc s =
      (events.foldlM (handle alloc) s >>= fun s' => .ok (⟨fc.file, fc.file.length⟩, s')) := by
  obtain ⟨fuel, rfl⟩ : ∃ k, fuel = k + 1 := ⟨fuel - 1, by omega⟩
  induction events generalizing fc s fuel with
  | nil =>
    have hend : fc.pos = fc.file.length := by
      have hlen := congrArg List.length hfile
      rw [List.length_drop, List.flatten_nil, List.length_nil] at hlen
      omega
    rw [parseEventsLoop, parseOneEvent_end hs hend, ← hend]
    rfl
  | cons bs events ih =>
    rw [List.flatten_cons] at hfile
    have hrest := drop_add_length hfile
    have hlen := congrArg List.length hfile
    rw [List.length_drop, List.length_append] at hlen
    rw [parseEventsLoop, parseOneEvent_event hs (hevents bs (by simp)) hfile, List.foldlM_cons]
    rcases hstep : handle alloc s bs with e | s1
    · rfl
    · simp only [Res.ok_bind]
      have hs1 : logEventHeaderLen ≤ s1.gde.commonHeaderLength := (handle_frame hstep).1 ▸ hs
      have hfuel' : events.length < fuel := by
        rw [List.length_cons] at hfuel
        omega
      rcases events with _ | ⟨e, events⟩
      · -- the last event: the position is at the end of the file
        rw [List.flatten_nil, List.length_nil] at hlen
        have hend : fc.pos + bs.length = fc.file.length := by omega
        have heof := (fileEof_iff hsize le_rfl).mpr rfl
        simp only [hend, heof, Bool.not_true, Bool.and_false, Bool.false_eq_true, if_false,
          List.foldlM_nil, Res.pure_eq, Res.ok_bind]
      · have hbytes := (hevents e (by simp)).long
        rw [List.flatten_cons, List.length_append] at hlen
        have heof : FileCache.fileEof ⟨fc.file, fc.pos + bs.length⟩ = false := by
          rw [← Bool.not_eq_true, fileEof_iff hsize (by omega)]
          omega
        obtain ⟨fuel, rfl⟩ : ∃ k, fuel = k + 1 := ⟨fuel - 1, by omega⟩
        simp only [heof, Bool.not_false, Bool.and_true, if_true]
        exact @ih ⟨fc.file, fc.pos + bs.length⟩ s1 hs1 (fun b hb => hevents b (List.mem_cons_of_mem _ hb))
          hsize (by simp only; omega) hrest fuel (by omega)

end Events

/-! ### The header of a file -/

/-- The event types `checkHeader` takes for the header. -/
def isHeaderType : EventType → Bool
  | .startV3 | .previousGtids | .rotate | .formatDescription => true
  | _ => false

/-- The event is a format description. -/
def isDescription (bs : Bytes) : Bool := EventType.ofCode (typeCode bs) = .formatDescription

/-- An event of the header; a format description is long enough for its fixed part. -/
structure IsHeader (bs : Bytes) : Prop where
  framed : Framed bs
  type : isHeaderType (EventType.ofCode (typeCode bs)) = true
  seek : bs.length < 2 ^ 31
  description : isDescription bs = true → 76 ≤ bs.length

instance (bs : Bytes) : Decidable (IsHeader bs) :=
  decidable_of_iff (Framed bs ∧ isHeaderType (EventType.ofCode (typeCode bs)) = true ∧
      bs.length < 2 ^ 31 ∧ (isDescription bs = true → 76 ≤ bs.length))
    ⟨fun ⟨h1, h2, h3, h4⟩ => ⟨h1, h2, h3, h4⟩, fun ⟨h1, h2, h3, h4⟩ => ⟨h1, h2, h3, h4⟩⟩

/-- What `checkHeader` needs to pass an event of the header: a `long` holds the distance it skips, and a
format description is long enough for its fixed part. -/
structure Scanned (bs : Bytes) : Prop where
  framed : Framed bs
  type : isHeaderType (EventType.ofCode (typeCode bs)) = true
  skip : isDescription bs = false → bs.length < 2 ^ 31 + logEventHeaderLen
  description : isDescription bs = true → 76 ≤ bs.length

theorem IsHeader.scanned {bs : Bytes} (h : IsHeader bs) : Scanned bs :=
  ⟨h.framed, h.type, fun _ => Nat.lt_add_right _ h.seek, h.description⟩

/-- What a format description says: the length of the common header and the post-header lengths, of which
`loadEvent` takes no more than there are event types. -/
def descriptionOf (bs : Bytes) : CHeaderEvent :=
  ⟨(bs.getD 75 0).toNat, (bs.drop 76).take (enumEndEvent - 1)⟩

/-- The global format description behind an event of the header: a load adds its post-header lengths to
those that are there. -/
def describe (gde : CHeaderEvent) (bs : Bytes) : CHeaderEvent :=
  if isDescription bs then
    ⟨(descriptionOf bs).commonHeaderLength, gde.postHeaderLen ++ (descriptionOf bs).postHeaderLen⟩
  else gde

theorem loadEvent_description (gde : CHeaderEvent) {bs : Bytes} (h : Framed bs)
    (hd : isDescription bs = true) (hlong : 76 ≤ bs.length) :
    gde.loadEvent ⟨0, bs⟩ = .ok (describe gde bs) := by
  have hshort := h.short
  have hbytes : ∀ k n, k + n ≤ bs.length → Ptr.bytes ⟨0, bs⟩ k n = .ok ((bs.drop k).take n) := by
    intro k n hk
    have hlen : ((bs.drop k).take n).length = n := by
      rw [List.length_take, List.length_drop]
      omega
    exact if_pos hlen
  have hle : ∀ k n, k + n ≤ bs.length → ∃ x, Ptr.le ⟨0, bs⟩ k n = .ok x := by
    intro k n hk
    rw [Ptr.le, hbytes k n hk]
    exact ⟨_, rfl⟩
  obtain ⟨timestamp, htimestamp⟩ := hle 0 4 (by omega)
  obtain ⟨b, hb, -⟩ := read_typeCode (show 5 ≤ bs.length by omega) 0 []
  rw [List.append_nil, show eventTypeOffset = 4 from rfl] at hb
  have hsize := le_sizeField (show 13 ≤ bs.length by omega) 0 []
  rw [List.append_nil, h.size, show eventLenOffset = 9 from rfl] at hsize
  have hheader : parseHeader ⟨0, bs⟩ = .ok ⟨timestamp, b.toNat, bs.length⟩ := by
    rw [parseHeader, hbytes 0 19 (by omega), Res.ok_bind, htimestamp, Res.ok_bind, hb, Res.ok_bind,
      hsize, Res.ok_bind, Res.pure_eq]
  have hcommon : Ptr.read ⟨0, bs⟩ 75 = .ok (bs.getD 75 0) := by
    have hlt : 75 < bs.length := by omega
    rw [Ptr.read, List.getD_eq_getElem?_getD, List.getElem?_eq_getElem hlt, Res.ofOption_some,
      Option.getD_some]
  have hindex : (bs.length + 2 ^ 32 - 76) % 2 ^ 32 = bs.length - 76 := by omega
  have htable : Ptr.bytes ⟨0, bs⟩ 76 (min (bs.length - 76) (enumEndEvent - 1)) =
      .ok ((bs.drop 76).take (enumEndEvent - 1)) := by
    have htake : (bs.drop 76).take (min (bs.length - 76) (enumEndEvent - 1)) =
        (bs.drop 76).take (enumEndEvent - 1) := by
      rw [List.take_eq_take_iff, List.length_drop]
      omega
    rw [hbytes 76 _ (by omega), htake]
  have hoffset : logEventHeaderLen + 2 + stServerVerLen + 4 + 1 = 76 := rfl
  unfold CHeaderEvent.loadEvent
  simp only [hheader, Res.ok_bind, hoffset, hbytes logEventHeaderLen (2 + stServerVerLen + 4)
    (by unfold logEventHeaderLen stServerVerLen; omega), hcommon, hindex, htable, Res.pure_eq]
  rw [describe, if_pos hd]
  rfl

section Header
variable {fc : FileCache} {gde : CHeaderEvent} {fuel : ℕ} {bs : Bytes}

/-- Less than an event header is left. -/
theorem checkHeaderLoop_short (h : (fc.file.drop fc.pos).length < logEventHeaderLen) :
    ∃ fc', checkHeaderLoop (fuel + 1) fc gde = .ok (false, fc', gde) := by
  refine ⟨⟨fc.file, max fc.pos fc.file.length⟩, ?_⟩
  rw [checkHeaderLoop, readCache_short rfl h]
  rfl

variable (h : Framed bs) (hhead : bs.take logEventHeaderLen <+: fc.file.drop fc.pos)
include h hhead

/-- The header of the event at the read position, of which the rest need not be there. -/
theorem readCache_head : fc.readCache logEventHeaderLen =
      (some (bs.take logEventHeaderLen), ⟨fc.file, fc.pos + logEventHeaderLen⟩) ∧
    Ptr.le ⟨0, bs.take logEventHeaderLen⟩ eventLenOffset 4 = .ok bs.length ∧
    ∃ b, Ptr.read ⟨0, bs.take logEventHeaderLen⟩ eventTypeOffset = .ok b ∧
      b.toNat = typeCode bs := by
  have hlong := h.long
  have hlen : (bs.take logEventHeaderLen).length = logEventHeaderLen := by
    rw [List.length_take]
    omega
  have h19 : logEventHeaderLen = 19 := rfl
  obtain ⟨rest, hrest⟩ := hhead
  refine ⟨?_, ?_, ?_⟩
  · have hread := readCache_append hrest.symm fun hnil => by
      rw [hnil] at hlen
      cases hlen
    rwa [hlen] at hread
  · have hle := le_sizeField (show 13 ≤ (bs.take logEventHeaderLen).length by omega) 0 []
    rw [List.append_nil, sizeField_take, h.size] at hle
    exact hle
  · obtain ⟨b, hb, hcode⟩ := read_typeCode (show 5 ≤ (bs.take logEventHeaderLen).length by omega) 0 []
    rw [List.append_nil] at hb
    exact ⟨b, hb, hcode.trans typeCode_take⟩

/-- An event of the header that is no format description is passed over, be it there or not. -/
theorem checkHeaderLoop_skip (htype : isHeaderType (EventType.ofCode (typeCode bs)) = true)
    (hd : isDescription bs = false) (hseek : bs.length < 2 ^ 31 + logEventHeaderLen) :
    checkHeaderLoop (fuel + 1) fc gde = checkHeaderLoop fuel ⟨fc.file, fc.pos + bs.length⟩ gde := by
  obtain ⟨hread, hsize, b, hb, hcode⟩ := readCache_head h hhead
  have hlong : 19 ≤ bs.length := h.long
  have h19 : logEventHeaderLen = 19 := rfl
  have hskip : toSigned 32 (bs.length + 2 ^ 32 - logEventHeaderLen) = ((bs.length - 19 : ℕ) : ℤ) := by
    rw [show bs.length + 2 ^ 32 - logEventHeaderLen = bs.length - 19 + 2 ^ 32 by
      unfold logEventHeaderLen; omega, toSigned_add_pow, toSigned_of_lt (by norm_num) (by omega)]
  have hto : FileCache.seekCur ⟨fc.file, fc.pos + logEventHeaderLen⟩ ((bs.length - 19 : ℕ) : ℤ) =
      ⟨fc.file, fc.pos + bs.length⟩ := by
    rw [seekCur_forward, Nat.add_assoc, show logEventHeaderLen + (bs.length - 19) = bs.length by
      unfold logEventHeaderLen; omega]
  rw [checkHeaderLoop, hread]
  simp only [hsize, Res.ok_bind, hb, hcode, hskip, hto]
  rw [isDescription, decide_eq_false_iff_not] at hd
  rcases ht : EventType.ofCode (typeCode bs) <;> rw [ht] at htype hd <;>
    first | rfl | exact absurd rfl hd | simp [isHeaderType] at htype

/-- A format description that is there is loaded. -/
theorem checkHeaderLoop_description {rest : Bytes} (hd : isDescription bs = true) (hlong : 76 ≤ bs.length)
    (hfile : fc.file.drop fc.pos = bs ++ rest) :
    checkHeaderLoop (fuel + 1) fc gde =
      checkHeaderLoop fuel ⟨fc.file, fc.pos + bs.length⟩ (describe gde bs) := by
  obtain ⟨hread, hsize, b, hb, hcode⟩ := readCache_head h hhead
  have htype : EventType.ofCode (typeCode bs) = .formatDescription := of_decide_eq_true hd
  have hback : FileCache.seekCur ⟨fc.file, fc.pos + logEventHeaderLen⟩ (-logEventHeaderLen) = fc :=
    seekCur_back fc.file fc.pos logEventHeaderLen
  have hload := loadEvent_description gde h hd hlong
  rw [checkHeaderLoop, hread]
  simp only [hsize, Res.ok_bind, hb, hcode, htype, hback,
    readCache_append hfile (List.ne_nil_of_length_pos (by omega)), hload]

/-- A format description that is not all there ends the scan. -/
theorem checkHeaderLoop_partial (hd : isDescription bs = true)
    (hshort : (fc.file.drop fc.pos).length < bs.length) :
    ∃ fc', checkHeaderLoop (fuel + 1) fc gde = .ok (false, fc', gde) := by
  obtain ⟨hread, hsize, b, hb, hcode⟩ := readCache_head h hhead
  have htype : EventType.ofCode (typeCode bs) = .formatDescription := of_decide_eq_true hd
  have hback : FileCache.seekCur ⟨fc.file, fc.pos + logEventHeaderLen⟩ (-logEventHeaderLen) = fc :=
    seekCur_back fc.file fc.pos logEventHeaderLen
  refine ⟨⟨fc.file, max fc.pos fc.file.length⟩, ?_⟩
  rw [checkHeaderLoop, hread]
  simp only [hsize, Res.ok_bind, hb, hcode, htype, hback, readCache_short rfl hshort]
  rfl

/-- Any other event ends the header. -/
theorem checkHeaderLoop_stop (htype : isHeaderType (EventType.ofCode (typeCode bs)) = false) :
    checkHeaderLoop (fuel + 1) fc gde = .ok (true, fc, gde) := by
  obtain ⟨hread, hsize, b, hb, hcode⟩ := readCache_head h hhead
  have hback : FileCache.seekCur ⟨fc.file, fc.pos + logEventHeaderLen⟩ (-logEventHeaderLen) = fc :=
    seekCur_back fc.file fc.pos logEventHeaderLen
  rw [checkHeaderLoop, hread]
  simp only [hsize, Res.ok_bind, hb, hcode, hback]
  rcases ht : EventType.ofCode (typeCode bs) <;> rw [ht] at htype <;>
    first | rfl | simp [isHeaderType] at htype

omit h hhead in
/-- An event of the header that is there. -/
theorem checkHeaderLoop_header (h : Scanned bs) {rest : Bytes}
    (hfile : fc.file.drop fc.pos = bs ++ rest) : checkHeaderLoop (fuel + 1) fc gde =
      checkHeaderLoop fuel ⟨fc.file, fc.pos + bs.length⟩ (describe gde bs) := by
  have hhead : bs.take logEventHeaderLen <+: fc.file.drop fc.pos := by
    rw [hfile]
    exact (List.take_prefix _ _).trans (List.prefix_append _ _)
  by_cases hd : isDescription bs = true
  · exact checkHeaderLoop_description h.framed hhead hd (h.description hd) hfile
  · rw [Bool.not_eq_true] at hd
    rw [checkHeaderLoop_skip h.framed hhead h.type hd (h.skip hd), describe, hd]
    rfl

end Header

/-- The whole header. -/
theorem checkHeaderLoop_headers {hs : List Bytes} (hhs : ∀ h ∈ hs, Scanned h) {fc : FileCache}
    {gde : CHeaderEvent} {rest : Bytes} (hfile : fc.file.drop fc.pos = hs.flatten ++ rest) (fuel : ℕ) :
    checkHeaderLoop (hs.length + fuel) fc gde =
      checkHeaderLoop fuel ⟨fc.file, fc.pos + hs.flatten.length⟩ (hs.foldl describe gde) := by
  induction hs generalizing fc gde with
  | nil =>
    rw [List.length_nil, Nat.zero_add]
    rfl
  | cons h hs ih =>
    rw [List.flatten_cons, List.append_assoc] at hfile
    have hrest : (⟨fc.file, fc.pos + h.length⟩ : FileCache).file.drop (fc.pos + h.length) =
        hs.flatten ++ rest := drop_add_length hfile
    rw [List.length_cons, show hs.length + 1 + fuel = hs.length + fuel + 1 by omega,
      checkHeaderLoop_header (hhs h List.mem_cons_self) hfile,
      ih (fun b hb => hhs b (List.mem_cons_of_mem _ hb)) hrest, List.flatten_cons, List.length_append,
      Nat.add_assoc, List.foldl_cons]

/-- **A file that ends in its header** or less than an event header behind it: what there is of the header
is read, and the scan fails. -/
theorem checkHeaderLoop_growing {hs : List Bytes} (hhs : ∀ h ∈ hs, IsHeader h) {fc : FileCache}
    {gde : CHeaderEvent} {rest : Bytes} (hfile : fc.file.drop fc.pos <+: hs.flatten ++ rest)
    (hshort : (fc.file.drop fc.pos).length < hs.flatten.length + logEventHeaderLen) {fuel : ℕ}
    (hfuel : (fc.file.drop fc.pos).length + 1 < fuel) :
    ∃ fc' k, checkHeaderLoop fuel fc gde = .ok (false, fc', (hs.take k).foldl describe gde) := by
  obtain ⟨fuel, rfl⟩ : ∃ n, fuel = n + 1 := ⟨fuel - 1, by omega⟩
  induction hs generalizing fc gde fuel with
  | nil =>
    obtain ⟨fc', hfc'⟩ : ∃ fc', checkHeaderLoop (fuel + 1) fc gde = .ok (false, fc', gde) :=
      checkHeaderLoop_short (by simpa using hshort)
    exact ⟨fc', 0, hfc'⟩
  | cons h hs ih =>
    have hh := hhs h List.mem_cons_self
    by_cases hlen : (fc.file.drop fc.pos).length < logEventHeaderLen
    · obtain ⟨fc', hfc'⟩ := checkHeaderLoop_short hlen
      exact ⟨fc', 0, hfc'⟩
    rw [List.flatten_cons, List.append_assoc] at hfile
    have hhead : h.take logEventHeaderLen <+: fc.file.drop fc.pos := by
      refine List.prefix_of_prefix_length_le ((List.take_prefix _ _).trans (List.prefix_append h _)) hfile ?_
      rw [List.length_take]
      omega
    have h19 : logEventHeaderLen = 19 := rfl
    obtain ⟨fuel, rfl⟩ : ∃ n, fuel = n + 1 := ⟨fuel - 1, by omega⟩
    rw [List.flatten_cons, List.length_append] at hshort
    by_cases hall : h.length ≤ (fc.file.drop fc.pos).length
    · obtain ⟨rest', hrest'⟩ := List.prefix_of_prefix_length_le (List.prefix_append h _) hfile hall
      have hdrop : (⟨fc.file, fc.pos + h.length⟩ : FileCache).file.drop (fc.pos + h.length) = rest' :=
        drop_add_length hrest'.symm
      rw [← hrest'] at hfile hshort hfuel
      rw [List.length_append] at hshort hfuel
      have hlong := hh.framed.long
      obtain ⟨fc', k, hk⟩ := @ih (fun b hb => hhs b (List.mem_cons_of_mem _ hb))
        ⟨fc.file, fc.pos + h.length⟩ (describe gde h) (by rw [hdrop]; exact (List.prefix_append_right_inj h).mp hfile)
        (by rw [hdrop]; omega) fuel (by rw [hdrop]; omega)
      refine ⟨fc', k + 1, ?_⟩
      rw [checkHeaderLoop_header hh.scanned hrest'.symm, hk]
      rfl
    · by_cases hd : isDescription h = true
      · obtain ⟨fc', hfc'⟩ := checkHeaderLoop_partial hh.framed hhead hd (by omega)
        exact ⟨fc', 0, hfc'⟩
      · rw [Bool.not_eq_true] at hd
        have hdrop : (⟨fc.file, fc.pos + h.length⟩ : FileCache).file.drop (fc.pos + h.length) = [] := by
          rw [List.length_drop] at hall
          exact List.drop_eq_nil_of_le (by simp only; omega)
        obtain ⟨fc', k, hk⟩ := @ih (fun b hb => hhs b (List.mem_cons_of_mem _ hb))
          ⟨fc.file, fc.pos + h.length⟩ gde (by rw [hdrop]; exact List.nil_prefix)
          (by rw [hdrop, List.length_nil]; omega) fuel (by rw [hdrop, List.length_nil]; omega)
        refine ⟨fc', k + 1, ?_⟩
        rw [checkHeaderLoop_skip hh.framed hhead hh.type hd (Nat.lt_add_right _ hh.seek), hk,
          List.take_succ_cons, List.foldl_cons, describe, hd]
        rfl

end DataSync.Binlog.EventStream
