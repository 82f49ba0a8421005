import DataSync.Binlog.Files

/-! # Which events are dispatched

`nextEvent` is what `parseOneEvent` reads before its `switch`. `dispatched` is `parseBegin` with a record of
the buffers that reach the `switch`: every event is handled before the next one is read, so the record ends
with the event that a handler does not come back from (`parseBegin_dispatched`, `parseOneEvent_dispatch`).

`dispatched_iff`: on a file of whole events the record has the events behind the header, and the file is read
to its end, exactly when every handler comes back, none of the events is a mere header of nineteen bytes, for
which `fread` is asked for no bytes and reports failure, and the positions between them can be told by a
`long`. -/

namespace DataSync.Binlog.Dispatch

open DataSync.Lib.Words DataSync.Lib.Memory DataSync.Binlog.Format DataSync.Binlog.LogEvent
open DataSync.Binlog.ParseLogEntry DataSync.Binlog.EventStream

/-! ### Framing -/

/-- What `parseOneEvent` reads before its `switch`: the event, if it gets there, and the file then. -/
def nextEvent (headSize : ℕ) (fc : FileCache) : Res (Option Bytes × FileCache) := do
  match fc.readCache headSize with
  | (none, fc) => return (none, fc)
  | (some ucHeader, fc) =>
    let eventSize ← (Ptr.mk 0 ucHeader).le eventLenOffset 4
    if eventSize < headSize then return (none, fc)
    if eventSize + 1 = 2 ^ 32 then throw .fault
    match fc.readCache (eventSize - headSize) with
    | (none, fc) => return (none, fc)
    | (some body, fc) =>
      let cBuf : Ptr := ⟨0, ucHeader ++ body ++ [0]⟩
      if eventSize < eventLenOffset ∨ eventSize ≠ (← cBuf.le eventLenOffset 4) then return (none, fc)
      let eventType := (← cBuf.read eventTypeOffset).toNat
      if enumEndEvent < eventType ∨ eventType = 0 then return (none, fc)
      return (some (ucHeader ++ body), fc)

/-- The event `parseOneEvent` hands to its `switch`, if it gets there. -/
def dispatch (fc : FileCache) (s : CParseLogEntry) : List Bytes :=
  match nextEvent (min s.gde.commonHeaderLength logEventHeaderLen) fc with
  | .ok (some bs, _) => [bs]
  | _ => []

/-- The loop of `parseEvents` with the events that reach the `switch`. -/
def dispatchLoop (alloc : ℕ → ℕ) :
    ℕ → FileCache → CParseLogEntry → List Bytes × Res (FileCache × CParseLogEntry)
  | 0, _, _ => ([], .error .hang)
  | fuel + 1, fc, s =>
    match parseOneEvent alloc fc s with
    | .error e => (dispatch fc s, .error e)
    | .ok (more, fc', s') =>
      if more && !fc'.fileEof then
        (dispatch fc s ++ (dispatchLoop alloc fuel fc' s').1, (dispatchLoop alloc fuel fc' s').2)
      else (dispatch fc s, .ok (fc', s'))

/-- `parseBegin` on a file it has not read before, with the events that reach the `switch`. -/
def dispatched (alloc : ℕ → ℕ) (file : Bytes) (s : CParseLogEntry) :
    List Bytes × Res (Bool × FileCache × CParseLogEntry) :=
  match checkHeader (FileCache.init file) s.gde with
  | .error e => ([], .error e)
  | .ok (false, fc, gde) => ([], .ok (false, fc, { s with gde := gde }))
  | .ok (true, fc, gde) =>
    let run := dispatchLoop alloc (fc.file.length + 1) fc { s with gde := gde }
    (run.1, run.2 >>= fun x => .ok (true, x.1, { x.2 with filePtr := x.1.getFileSize }))

/-- `parseOneEvent` is `nextEvent` and the `switch`. -/
theorem parseOneEvent_nextEvent (alloc : ℕ → ℕ) (fc : FileCache) (s : CParseLogEntry) :
    ∃ n, parseOneEvent alloc fc s =
      (nextEvent (min s.gde.commonHeaderLength logEventHeaderLen) fc >>= fun x =>
        match x with
        | (none, fc) => .ok (false, fc, { s with allocs := s.allocs + n })
        | (some bs, fc) => handle alloc s bs >>= fun s' => .ok (true, fc, s')) := by
  unfold parseOneEvent nextEvent
  dsimp only
  rcases fc.readCache (min s.gde.commonHeaderLength logEventHeaderLen) with ⟨_ | ucHeader, fc1⟩
  · exact ⟨0, rfl⟩
  dsimp only
  rcases (Ptr.mk 0 ucHeader).le eventLenOffset 4 with e | eventSize
  · exact ⟨0, rfl⟩
  simp only [Res.ok_bind]
  split_ifs with hsmall hfault
  · exact ⟨0, rfl⟩
  · exact ⟨0, rfl⟩
  rcases fc1.readCache (eventSize - min s.gde.commonHeaderLength logEventHeaderLen) with ⟨_ | body, fc2⟩
  · exact ⟨1, rfl⟩
  dsimp only
  refine ⟨1, ?_⟩
  -- the buffer's address is not read
  have hle : Ptr.le ⟨alloc s.allocs, ucHeader ++ body ++ [0]⟩ eventLenOffset 4 =
      Ptr.le ⟨0, ucHeader ++ body ++ [0]⟩ eventLenOffset 4 := rfl
  have hread : Ptr.read ⟨alloc s.allocs, ucHeader ++ body ++ [0]⟩ eventTypeOffset =
      Ptr.read ⟨0, ucHeader ++ body ++ [0]⟩ eventTypeOffset := rfl
  rw [hle, hread]
  rcases Ptr.le ⟨0, ucHeader ++ body ++ [0]⟩ eventLenOffset 4 with e | size
  · rfl
  simp only [Res.ok_bind]
  split_ifs
  · rfl
  rcases Ptr.read ⟨0, ucHeader ++ body ++ [0]⟩ eventTypeOffset with e | b
  · rfl
  simp only [Res.ok_bind]
  split_ifs
  · rfl
  · rfl

/-- **What is recorded is what is handled**: the event that `dispatch` gives goes through the `switch`, and
where it gives none nothing does. -/
theorem parseOneEvent_dispatch (alloc : ℕ → ℕ) (fc : FileCache) (s : CParseLogEntry) :
    (∃ bs fc', dispatch fc s = [bs] ∧
      parseOneEvent alloc fc s = (handle alloc s bs >>= fun s' => .ok (true, fc', s'))) ∨
    (dispatch fc s = [] ∧ ((∃ e, parseOneEvent alloc fc s = .error e) ∨
      ∃ fc' n, parseOneEvent alloc fc s = .ok (false, fc', { s with allocs := s.allocs + n }))) := by
  obtain ⟨n, hone⟩ := parseOneEvent_nextEvent alloc fc s
  rw [hone, dispatch]
  rcases nextEvent (min s.gde.commonHeaderLength logEventHeaderLen) fc with e | ⟨_ | bs, fc'⟩
  · exact .inr ⟨rfl, .inl ⟨e, rfl⟩⟩
  · exact .inr ⟨rfl, .inr ⟨fc', n, rfl⟩⟩
  · exact .inl ⟨bs, fc', rfl, rfl⟩

/-- The record changes nothing of what the loop does. -/
theorem dispatchLoop_result (alloc : ℕ → ℕ) (fuel : ℕ) (fc : FileCache) (s : CParseLogEntry) :
    (dispatchLoop alloc fuel fc s).2 = parseEventsLoop alloc fuel fc s := by
  induction fuel generalizing fc s with
  | zero => rfl
  | succ fuel ih =>
    rw [dispatchLoop, parseEventsLoop]
    rcases parseOneEvent alloc fc s with e | ⟨more, fc', s'⟩
    · rfl
    · simp only [Res.ok_bind]
      split_ifs
      · exact ih fc' s'
      · rfl

/-- **`parseBegin` with its record** does what `parseBegin` does. -/
theorem parseBegin_dispatched (alloc : ℕ → ℕ) (file : Bytes) (s : CParseLogEntry) (hptr : s.filePtr = 0) :
    parseBegin alloc (FileCache.init file) s =
      ((dispatched alloc file s).2 >>= fun x => .ok (x.1, x.2.2)) := by
  rw [parseBegin, if_pos hptr, dispatched]
  rcases checkHeader (FileCache.init file) s.gde with e | ⟨_ | _, fc, gde⟩
  · rfl
  · rfl
  · simp only [Res.ok_bind, if_true, parseEvents, dispatchLoop_result, bind_assoc]
    rfl

/-! ### One event -/

section Event
variable {fc : FileCache} {bs rest : Bytes} (h : Framed bs) (hfile : fc.file.drop fc.pos = bs ++ rest)
include h hfile

/-- The nineteen bytes of the header, and the length they give. -/
theorem readCache_header : fc.readCache logEventHeaderLen =
      (some (bs.take logEventHeaderLen), ⟨fc.file, fc.pos + logEventHeaderLen⟩) ∧
    Ptr.le ⟨0, bs.take logEventHeaderLen⟩ eventLenOffset 4 = .ok bs.length := by
  have hhead : bs.take logEventHeaderLen <+: fc.file.drop fc.pos := by
    rw [hfile]
    exact (List.take_prefix _ _).trans (List.prefix_append _ _)
  obtain ⟨hread, hsize, -⟩ := readCache_head h hhead
  exact ⟨hread, hsize⟩

/-- An event that is a header only is not dispatched: the read of its empty rest fails. -/
theorem nextEvent_header (hlen : bs.length = logEventHeaderLen) :
    nextEvent logEventHeaderLen fc = .ok (none, ⟨fc.file, fc.pos + logEventHeaderLen⟩) := by
  obtain ⟨hread, hsize⟩ := readCache_header h hfile
  have hempty : FileCache.readCache ⟨fc.file, fc.pos + logEventHeaderLen⟩ 0 =
      (none, ⟨fc.file, fc.pos + logEventHeaderLen⟩) := rfl
  have h19 : logEventHeaderLen = 19 := rfl
  unfold nextEvent
  simp only [hread, hsize, Res.ok_bind, hlen, lt_irrefl, if_false,
    if_neg (show ¬ logEventHeaderLen + 1 = 2 ^ 32 by omega), Nat.sub_self, hempty, Res.pure_eq]

/-- The buffer of an event of the largest length has no bytes. -/
theorem nextEvent_largest (hlen : bs.length + 1 = 2 ^ 32) :
    nextEvent logEventHeaderLen fc = .error .fault := by
  obtain ⟨hread, hsize⟩ := readCache_header h hfile
  have hlong := h.long
  unfold nextEvent
  simp only [hread, hsize, Res.ok_bind, if_neg (show ¬ bs.length < logEventHeaderLen by omega), hlen,
    if_true]
  rfl

/-- Every other event is dispatched with its own bytes. -/
theorem nextEvent_event (hknown : Known bs) (hlong : bs.length ≠ logEventHeaderLen)
    (hshort : bs.length + 1 ≠ 2 ^ 32) :
    nextEvent logEventHeaderLen fc = .ok (some bs, ⟨fc.file, fc.pos + bs.length⟩) := by
  obtain ⟨hread, hsize⟩ := readCache_header h hfile
  have hle19 : 19 ≤ bs.length := h.long
  have h19 : logEventHeaderLen = 19 := rfl
  have hbody : FileCache.readCache ⟨fc.file, fc.pos + logEventHeaderLen⟩
      (bs.length - logEventHeaderLen) =
      (some (bs.drop logEventHeaderLen), ⟨fc.file, fc.pos + bs.length⟩) := by
    have hlen : bs.length - logEventHeaderLen = (bs.drop logEventHeaderLen).length := by
      rw [List.length_drop]
    have hdrop : fc.file.drop (fc.pos + logEventHeaderLen) = bs.drop logEventHeaderLen ++ rest := by
      rw [← List.drop_drop, hfile, List.drop_append_of_le_length (by omega)]
    have hne : bs.drop logEventHeaderLen ≠ [] := by
      rw [ne_eq, List.drop_eq_nil_iff]
      omega
    rw [hlen, @readCache_append ⟨fc.file, fc.pos + logEventHeaderLen⟩ _ _ hdrop hne]
    have hend : fc.pos + logEventHeaderLen + (bs.drop logEventHeaderLen).length =
        fc.pos + bs.length := by
      rw [List.length_drop]
      omega
    rw [hend]
  have hle := le_sizeField (show 13 ≤ bs.length by omega) 0 [0]
  rw [h.size] at hle
  obtain ⟨b, hb, hcode⟩ := read_typeCode (show 5 ≤ bs.length by omega) 0 [0]
  have hbad : ¬ (bs.length < eventLenOffset ∨ bs.length ≠ bs.length) := by
    unfold eventLenOffset
    omega
  have htype : ¬ (enumEndEvent < b.toNat ∨ b.toNat = 0) := by
    unfold Known at hknown
    omega
  unfold nextEvent
  simp only [hread, hsize, Res.ok_bind, if_neg (show ¬ bs.length < logEventHeaderLen by omega),
    if_neg hshort, hbody, List.take_append_drop, hle, if_neg hbad, hb, if_neg htype, Res.pure_eq]

end Event

/-! ### All events -/

theorem fileEof_iff_told {file : Bytes} {pos : ℕ} (hpos : pos ≤ file.length) :
    FileCache.fileEof ⟨file, pos⟩ = true ↔ pos = file.length ∨ 2 ^ 31 ≤ pos := by
  unfold FileCache.fileEof FileCache.tell
  rw [decide_eq_true_eq]
  dsimp only
  split_ifs <;> omega

/-- What the events from position `start` on must satisfy: none is a mere header or of the largest
length, and each but the last ends at a position that can be told. -/
structure Readable (start : ℕ) (events : List Bytes) : Prop where
  sizes : ∀ e ∈ events, e.length ≠ logEventHeaderLen ∧ e.length + 1 ≠ 2 ^ 32
  told : ∀ before behind, events = before ++ behind → before ≠ [] → behind ≠ [] →
    start + before.flatten.length < 2 ^ 31

theorem readable_cons {start : ℕ} {e : Bytes} {events : List Bytes} :
    Readable start (e :: events) ↔ (e.length ≠ logEventHeaderLen ∧ e.length + 1 ≠ 2 ^ 32) ∧
      (events ≠ [] → start + e.length < 2 ^ 31) ∧ Readable (start + e.length) events := by
  constructor
  · rintro ⟨hsizes, htold⟩
    refine ⟨hsizes e (by simp), fun hne => ?_, fun x hx => hsizes x (by simp [hx]), ?_⟩
    · simpa using htold [e] events rfl (by simp) hne
    · rintro before behind rfl - hbehind
      have hlt := htold (e :: before) behind rfl (by simp) hbehind
      rw [List.flatten_cons, List.length_append] at hlt
      omega
  · rintro ⟨he, hfirst, hsizes, htold⟩
    refine ⟨fun x hx => ?_, fun before behind hsplit hbefore hbehind => ?_⟩
    · rcases List.mem_cons.mp hx with rfl | hx
      · exact he
      · exact hsizes x hx
    · obtain ⟨x, before, rfl⟩ := List.exists_cons_of_ne_nil hbefore
      obtain ⟨rfl, rfl⟩ := List.cons.inj hsplit
      rw [List.flatten_cons, List.length_append]
      rcases List.eq_nil_or_concat before with rfl | ⟨_, _, rfl⟩
      · simpa using hfirst (by simpa using hbehind)
      · have hlt := htold _ behind rfl (by simp) hbehind
        omega

section Loop
variable {alloc : ℕ → ℕ} {file : Bytes} {pos : ℕ} {s : CParseLogEntry}
  (hcommon : s.gde.commonHeaderLength = logEventHeaderLen)
include hcommon

/-- An event at the read position that is not dispatched ends the loop. -/
theorem dispatchLoop_stop {fuel : ℕ} (h : ¬ ∃ bs fc', nextEvent logEventHeaderLen ⟨file, pos⟩ = .ok (some bs, fc')) :
    (dispatchLoop alloc (fuel + 1) ⟨file, pos⟩ s).1 = [] := by
  have hdispatch : dispatch ⟨file, pos⟩ s = [] := by
    rw [dispatch, hcommon, min_self]
    rcases hnext : nextEvent logEventHeaderLen ⟨file, pos⟩ with e | ⟨_ | bs, fc'⟩
    · rfl
    · rfl
    · exact absurd ⟨bs, fc', hnext⟩ h
  rw [dispatchLoop]
  rcases parseOneEvent_dispatch alloc ⟨file, pos⟩ s with ⟨bs, fc', hone, -⟩ | ⟨-, ⟨e, he⟩ | ⟨fc', n, hn⟩⟩
  · rw [hdispatch] at hone
    cases hone
  · rw [he]
    exact hdispatch
  · rw [hn]
    exact hdispatch

/-- One that is dispatched is handled before the loop goes on. -/
theorem dispatchLoop_event {fuel : ℕ} {bs : Bytes} {fc : FileCache}
    (h : nextEvent logEventHeaderLen ⟨file, pos⟩ = .ok (some bs, fc)) :
    dispatchLoop alloc (fuel + 1) ⟨file, pos⟩ s =
      match handle alloc s bs with
      | .error e => ([bs], .error e)
      | .ok s' => if fc.fileEof then ([bs], .ok (fc, s'))
        else (bs :: (dispatchLoop alloc fuel fc s').1, (dispatchLoop alloc fuel fc s').2) := by
  obtain ⟨n, hnext⟩ := parseOneEvent_nextEvent alloc ⟨file, pos⟩ s
  rw [hcommon, min_self, h, Res.ok_bind] at hnext
  have hone : parseOneEvent alloc ⟨file, pos⟩ s = (handle alloc s bs >>= fun s' => .ok (true, fc, s')) :=
    hnext
  have hdispatch : dispatch ⟨file, pos⟩ s = [bs] := by
    rw [dispatch, hcommon, min_self, h]
  rw [dispatchLoop, hone, hdispatch]
  rcases handle alloc s bs with e | s'
  · rfl
  · simp only [Res.ok_bind]
    rcases fc.fileEof with _ | _ <;> rfl

end Loop

/-- **The loop dispatches all events and ends with the file exactly when** they are readable and all
handled. -/
theorem dispatchLoop_iff {alloc : ℕ → ℕ} {file : Bytes} {events : List Bytes}
    (hevents : ∀ e ∈ events, Framed e ∧ Known e) {pos : ℕ} (hpos : pos ≤ file.length)
    (hfile : file.drop pos = events.flatten) (hne : events ≠ []) {fuel : ℕ} (hfuel : events.length < fuel)
    {s : CParseLogEntry} (hcommon : s.gde.commonHeaderLength = logEventHeaderLen) :
    (∃ s', dispatchLoop alloc fuel ⟨file, pos⟩ s = (events, .ok (⟨file, file.length⟩, s'))) ↔
      Readable pos events ∧ ∃ s', events.foldlM (handle alloc) s = .ok s' := by
  obtain ⟨fuel, rfl⟩ : ∃ k, fuel = k + 1 := ⟨fuel - 1, by omega⟩
  induction events generalizing pos fuel s with
  | nil => exact absurd rfl hne
  | cons e events ih =>
    obtain ⟨hframed, hknown⟩ := hevents e (by simp)
    have hread : (⟨file, pos⟩ : FileCache).file.drop pos = e ++ events.flatten := hfile
    have hlen := congrArg List.length hfile
    rw [List.length_drop, List.flatten_cons, List.length_append] at hlen
    rw [readable_cons]
    -- without the first event the record is empty
    have hstop (hno : ¬ ∃ bs fc', nextEvent logEventHeaderLen ⟨file, pos⟩ = .ok (some bs, fc')) :
        ¬ ∃ s', dispatchLoop alloc (fuel + 1) ⟨file, pos⟩ s = (e :: events, .ok (⟨file, file.length⟩, s')) := by
      rintro ⟨s', hs'⟩
      have hnil : (dispatchLoop alloc (fuel + 1) ⟨file, pos⟩ s).1 = [] := dispatchLoop_stop hcommon hno
      rw [hs'] at hnil
      cases hnil
    by_cases h19 : e.length = logEventHeaderLen
    · refine iff_of_false (hstop ?_) fun h => h.1.1.1 h19
      rw [nextEvent_header hframed hread h19]
      simp
    by_cases hmax : e.length + 1 = 2 ^ 32
    · refine iff_of_false (hstop ?_) fun h => h.1.1.2 hmax
      rw [nextEvent_largest hframed hread hmax]
      simp
    rw [dispatchLoop_event hcommon (nextEvent_event hframed hread hknown h19 hmax), List.foldlM_cons]
    rcases hhandle : handle alloc s e with err | s1
    · -- the handler does not come back
      refine iff_of_false ?_ ?_
      · rintro ⟨s', hs'⟩
        cases (Prod.mk.inj hs').2
      · rintro ⟨-, s', hs'⟩
        cases hs'
    have hcommon1 : s1.gde.commonHeaderLength = logEventHeaderLen := (handle_frame hhandle).1 ▸ hcommon
    dsimp only
    rw [Res.ok_bind]
    by_cases hlast : events = []
    · -- the last event ends the file
      subst hlast
      have hend : pos + e.length = file.length := by
        simp only [List.flatten_nil, List.length_nil] at hlen
        omega
      rw [hend, if_pos ((fileEof_iff_told le_rfl).mpr (Or.inl rfl))]
      exact iff_of_true ⟨s1, rfl⟩ ⟨⟨⟨h19, hmax⟩, by simp, by simp, by simp⟩, s1, rfl⟩
    · have hmore : 0 < events.flatten.length := by
        obtain ⟨x, xs, rfl⟩ := List.exists_cons_of_ne_nil hlast
        have hx : 19 ≤ x.length := (hevents x (by simp)).1.long
        rw [List.flatten_cons, List.length_append]
        omega
      by_cases htold : pos + e.length < 2 ^ 31
      · have heof : ¬ FileCache.fileEof ⟨file, pos + e.length⟩ = true := by
          rw [fileEof_iff_told (by omega)]
          omega
        have hrest : file.drop (pos + e.length) = events.flatten := by
          rw [← List.drop_drop, hfile, List.flatten_cons, List.drop_left]
        rw [List.length_cons] at hfuel
        obtain ⟨fuel, rfl⟩ : ∃ k, fuel = k + 1 := ⟨fuel - 1, by omega⟩
        have hih := ih (fun x hx => hevents x (by simp [hx])) (show pos + e.length ≤ file.length by omega)
          hrest hlast hcommon1 fuel (by omega)
        rw [if_neg heof]
        constructor
        · rintro ⟨s', hall⟩
          obtain ⟨htrace, hrun⟩ := Prod.mk.inj hall
          obtain ⟨hreadable, hfold⟩ := hih.mp ⟨s', Prod.ext (List.cons.inj htrace).2 hrun⟩
          exact ⟨⟨⟨h19, hmax⟩, fun _ => htold, hreadable⟩, hfold⟩
        · rintro ⟨⟨-, -, hreadable⟩, hfold⟩
          obtain ⟨s', hall⟩ := hih.mpr ⟨hreadable, hfold⟩
          exact ⟨s', by rw [hall]⟩
      · have heof : FileCache.fileEof ⟨file, pos + e.length⟩ = true :=
          (fileEof_iff_told (by omega)).mpr (Or.inr (by omega))
        rw [if_pos heof]
        refine iff_of_false ?_ fun h => htold (h.1.2.1 hlast)
        rintro ⟨s', hall⟩
        exact hlast (List.cons.inj (Prod.mk.inj hall).1).2.symm

/-! ### Files -/

/-- The event is of a type `checkHeader` takes for the header. -/
def isHeaderEvent (bs : Bytes) : Bool := isHeaderType (EventType.ofCode (typeCode bs))

/-- A format description event with a common header of nineteen bytes. -/
structure FormatDescription (bs : Bytes) : Prop where
  framed : Framed bs
  type : isDescription bs = true
  long : 76 ≤ bs.length
  common : (descriptionOf bs).commonHeaderLength = logEventHeaderLen

/-- A file: the magic number, a format description and events. -/
structure EventFile where
  description : Bytes
  events : List Bytes
  deriving DecidableEq, Repr

namespace EventFile

/-- The contents of the file. -/
def bytes (f : EventFile) : Bytes := binlogMagic ++ (f.description ++ f.events.flatten)

/-- The header events: the format description and the events of the header's types behind it. -/
def headers (f : EventFile) : List Bytes := f.description :: f.events.takeWhile isHeaderEvent

/-- The events behind the header. -/
def behind (f : EventFile) : List Bytes := f.events.dropWhile isHeaderEvent

/-- Events of known types with the right length fields; in the header only format descriptions with a
common header of nineteen bytes. -/
structure Ok (f : EventFile) : Prop where
  description : FormatDescription f.description
  events : ∀ e ∈ f.events, Framed e ∧ Known e
  descriptions : ∀ h ∈ f.headers, isDescription h = true → FormatDescription h

/-- Called on the whole file the parser `s` dispatches every event behind the header once, in order and with
its own bytes, and reads the file to its end. -/
def Exact (f : EventFile) (alloc : ℕ → ℕ) (s : CParseLogEntry) : Prop :=
  ∃ more s', dispatched alloc f.bytes s = (f.behind, .ok (more, ⟨f.bytes, f.bytes.length⟩, s'))

/-- The handlers of the events behind the header all come back, under the description that the header leaves:
they read nothing outside their buffers and loop no row for ever. -/
def Handled (f : EventFile) (alloc : ℕ → ℕ) (s : CParseLogEntry) : Prop :=
  ∃ s', f.behind.foldlM (handle alloc) { s with gde := f.headers.foldl describe s.gde } = .ok s'

/-- A `long` holds the distances `checkHeader` skips. -/
def Skips (f : EventFile) : Prop :=
  ∀ h ∈ f.headers, isDescription h = false → h.length < 2 ^ 31 + logEventHeaderLen

end EventFile

theorem isHeaderEvent_description {bs : Bytes} (h : isDescription bs = true) : isHeaderEvent bs = true := by
  have htype : EventType.ofCode (typeCode bs) = .formatDescription := of_decide_eq_true h
  rw [isHeaderEvent, htype]
  rfl

/-- Headers whose descriptions all have a common header of nineteen bytes keep it. -/
theorem common_foldl_describe {hs : List Bytes}
    (hhs : ∀ h ∈ hs, isDescription h = true → FormatDescription h) {gde : CHeaderEvent}
    (hgde : gde.commonHeaderLength = logEventHeaderLen) :
    (hs.foldl describe gde).commonHeaderLength = logEventHeaderLen := by
  induction hs generalizing gde with
  | nil => exact hgde
  | cons h hs ih =>
    refine ih (fun x hx => hhs x (by simp [hx])) ?_
    by_cases hd : isDescription h = true
    · rw [describe, if_pos hd]
      exact (hhs h (by simp) hd).common
    · rw [describe, if_neg hd]
      exact hgde

section File
variable {f : EventFile} (hf : f.Ok)
include hf

theorem scanned_headers (hskip : f.Skips) : ∀ h ∈ f.headers, Scanned h := by
  intro h hh
  have hskip' := hskip h hh
  rcases List.mem_cons.mp hh with rfl | hmem
  · exact ⟨hf.description.framed, isHeaderEvent_description hf.description.type, hskip',
      fun _ => hf.description.long⟩
  · have hevent := (List.takeWhile_subset _) hmem
    have htype : isHeaderEvent h = true := List.mem_takeWhile_imp hmem
    exact ⟨(hf.events h hevent).1, htype, hskip', fun hd => (hf.descriptions h hh hd).long⟩

/-- The common header has nineteen bytes behind the header of the file. -/
theorem common_headers (gde : CHeaderEvent) :
    (f.headers.foldl describe gde).commonHeaderLength = logEventHeaderLen := by
  rw [EventFile.headers, List.foldl_cons]
  refine common_foldl_describe (fun h hh => hf.descriptions h (List.mem_cons_of_mem _ hh)) ?_
  rw [describe, if_pos hf.description.type]
  exact hf.description.common

omit hf in
theorem bytes_split (f : EventFile) :
    f.bytes = binlogMagic ++ (f.headers.flatten ++ f.behind.flatten) := by
  rw [EventFile.bytes, EventFile.headers, EventFile.behind, List.flatten_cons, List.append_assoc,
    ← List.flatten_append, List.takeWhile_append_dropWhile]

/-- `checkHeader` gets behind the header, unless the file ends there. -/
theorem checkHeader_file (hskip : f.Skips) (gde : CHeaderEvent) :
    checkHeader (FileCache.init f.bytes) gde =
      if f.behind = [] then .ok (false, ⟨f.bytes, f.bytes.length⟩, f.headers.foldl describe gde)
      else .ok (true, ⟨f.bytes, (binlogMagic ++ f.headers.flatten).length⟩,
        f.headers.foldl describe gde) := by
  have hscan := scanned_headers hf hskip
  have hsplit := bytes_split f
  have hlen := congrArg List.length hsplit
  simp only [List.length_append] at hlen
  have hread : (FileCache.init f.bytes).readCache binlogMagic.length =
      (some binlogMagic, ⟨f.bytes, binlogMagic.length⟩) := by
    have hread := @readCache_append (FileCache.init f.bytes) _ _ hsplit (by decide)
    rwa [show (FileCache.init f.bytes).pos = 0 from rfl, Nat.zero_add] at hread
  have hdrop : (⟨f.bytes, binlogMagic.length⟩ : FileCache).file.drop binlogMagic.length =
      f.headers.flatten ++ f.behind.flatten := by
    simp only [hsplit, List.drop_left]
  have hcount := Files.length_le_flatten fun h hh => (hscan h hh).framed
  have hfuel : f.bytes.length + 2 =
      f.headers.length + ((f.bytes.length + 1 - f.headers.length) + 1) := by omega
  have hpos : binlogMagic.length + f.headers.flatten.length =
      (binlogMagic ++ f.headers.flatten).length := by rw [List.length_append]
  have hbehind : f.bytes.drop (binlogMagic ++ f.headers.flatten).length = f.behind.flatten := by
    rw [hsplit, ← List.append_assoc, List.drop_left]
  rw [checkHeader, hread]
  simp only [ne_eq, not_true_eq_false, if_false]
  rw [hfuel, checkHeaderLoop_headers hscan hdrop]
  simp only [hpos]
  split_ifs with hnil
  · have hend : (binlogMagic ++ f.headers.flatten).length = f.bytes.length := by
      rw [hnil, List.flatten_nil, List.length_nil] at hlen
      rw [List.length_append]
      omega
    have hshort := @readCache_short ⟨f.bytes, (binlogMagic ++ f.headers.flatten).length⟩ _ hbehind _
      (show f.behind.flatten.length < logEventHeaderLen by rw [hnil]; decide)
    rw [checkHeaderLoop, hshort]
    simp only [hend, max_self, Res.pure_eq]
  · obtain ⟨e, rest, hcons⟩ := List.exists_cons_of_ne_nil hnil
    have he : isHeaderEvent e = false := by
      have hhead := List.head?_dropWhile_not isHeaderEvent f.events
      rw [show f.events.dropWhile isHeaderEvent = e :: rest from hcons] at hhead
      simpa using hhead
    have hmem : e ∈ f.events := (List.dropWhile_subset _) (hcons ▸ List.mem_cons_self)
    refine checkHeaderLoop_stop (hf.events e hmem).1 ?_ he
    rw [hbehind, hcons, List.flatten_cons]
    exact (List.take_prefix _ _).trans (List.prefix_append _ _)

/-- Where `checkHeader` skips forward, the file is dispatched exactly if the events behind the header are
readable and handled. -/
theorem exact_iff_readable (hskip : f.Skips) (alloc : ℕ → ℕ) (s : CParseLogEntry) :
    f.Exact alloc s ↔
      Readable (binlogMagic ++ f.headers.flatten).length f.behind ∧ f.Handled alloc s := by
  have hlen := congrArg List.length (bytes_split f)
  simp only [List.length_append] at hlen
  unfold EventFile.Exact EventFile.Handled
  rw [dispatched, checkHeader_file hf hskip]
  by_cases hnil : f.behind = []
  · rw [if_pos hnil, hnil]
    exact iff_of_true ⟨false, _, rfl⟩ ⟨⟨by simp, by simp⟩, _, rfl⟩
  · have hevents : ∀ e ∈ f.behind, Framed e ∧ Known e := fun e he =>
      hf.events e ((List.dropWhile_subset _) he)
    have hbehind : f.bytes.drop (binlogMagic ++ f.headers.flatten).length = f.behind.flatten := by
      rw [bytes_split f, ← List.append_assoc, List.drop_left]
    have hcount := Files.length_le_flatten fun e he => (hevents e he).1
    have hstart : (binlogMagic ++ f.headers.flatten).length ≤ f.bytes.length := by
      rw [List.length_append]
      omega
    rw [if_neg hnil, ← dispatchLoop_iff hevents hstart hbehind hnil
      (show f.behind.length < f.bytes.length + 1 by omega)
      (s := { s with gde := f.headers.foldl describe s.gde }) (common_headers hf s.gde)]
    dsimp only
    constructor
    · rintro ⟨more, s', hrun⟩
      obtain ⟨htrace, hrun⟩ := Prod.mk.inj hrun
      obtain ⟨⟨fc, s1⟩, hloop, hend⟩ := Res.bind_eq_ok.mp hrun
      obtain ⟨-, rfl, -⟩ : _ ∧ _ ∧ _ := by simpa using hend
      exact ⟨s1, Prod.ext htrace hloop⟩
    · rintro ⟨s1, hloop⟩
      exact ⟨true, _, by rw [hloop]; rfl⟩

end File

/-- **Framing**: the events behind the header are dispatched exactly if they are readable and handled, and
`checkHeader` skips the header events; without the latter only files of more than 2 GiB could be read. -/
theorem dispatched_iff {f : EventFile} (hf : f.Ok) (alloc : ℕ → ℕ) (s : CParseLogEntry) :
    (f.Skips ∧ Readable (binlogMagic ++ f.headers.flatten).length f.behind ∧ f.Handled alloc s →
      f.Exact alloc s) ∧
    (f.Exact alloc s →
      (f.Skips ∧ Readable (binlogMagic ++ f.headers.flatten).length f.behind ∧ f.Handled alloc s) ∨
        ∃ h ∈ f.headers, 2 ^ 31 + logEventHeaderLen ≤ h.length) := by
  refine ⟨fun ⟨hskip, hread⟩ => (exact_iff_readable hf hskip alloc s).mpr hread, fun hexact => ?_⟩
  by_cases hskip : f.Skips
  · exact Or.inl ⟨hskip, (exact_iff_readable hf hskip alloc s).mp hexact⟩
  · right
    simp only [EventFile.Skips, not_forall, not_lt] at hskip
    obtain ⟨h, hh, -, hlong⟩ := hskip
    exact ⟨h, hh, hlong⟩

/-- An event with a zero timestamp and body. -/
def zeroEvent (type size : ℕ) : Bytes :=
  [0, 0, 0, 0, UInt8.ofNat type, 0, 0, 0, 0] ++ leBytes 4 size ++ List.replicate (size - 13) 0

/-- A format description with the post-header lengths of a server of version 5.7. -/
def serverDescription : Bytes :=
  (zeroEvent 15 114).take 75 ++ [19, 56, 13, 0, 8, 0, 18, 0, 4, 4, 4, 4, 18, 0, 0, 95, 0, 4, 26, 8, 0, 0, 0,
    8, 8, 8, 2, 0, 0, 0, 10, 10, 10, 42, 42, 0, 18, 52, 0]

set_option maxRecDepth 4000 in
theorem formatDescription_server : FormatDescription serverDescription :=
  ⟨⟨by decide, by decide⟩, by decide, by decide, by decide⟩

/-- A previous-GTIDs event, the commit of a transaction and the server's stop event, which has no body. -/
def stopped (stop : Bytes) : EventFile := ⟨serverDescription, [zeroEvent 35 27, zeroEvent 16 27, stop]⟩

theorem stopped_ok {stop : Bytes} (h : Framed stop) (hknown : Known stop) : (stopped stop).Ok := by
  refine ⟨formatDescription_server, ?_, ?_⟩
  · simp only [stopped, List.mem_cons, List.not_mem_nil, or_false]
    rintro e (rfl | rfl | rfl)
    · exact ⟨⟨by decide, by decide⟩, by decide⟩
    · exact ⟨⟨by decide, by decide⟩, by decide⟩
    · exact ⟨h, hknown⟩
  · have hheaders : (stopped stop).headers = [serverDescription, zeroEvent 35 27] := by
      have hgtids : isHeaderEvent (zeroEvent 35 27) = true := by decide
      have hcommit : isHeaderEvent (zeroEvent 16 27) = false := by decide
      simp [EventFile.headers, stopped, hgtids, hcommit]
    rw [hheaders]
    simp only [List.mem_cons, List.not_mem_nil, or_false]
    rintro e (rfl | rfl) hd
    · exact formatDescription_server
    · exact absurd hd (by decide)

set_option maxRecDepth 4000 in
/-- With a checksum the stop event has a body, and the file is dispatched. -/
theorem stopped_checksum : (stopped (zeroEvent 3 23)).Exact id .new := by
  have hok : (stopped (zeroEvent 3 23)).Ok := stopped_ok ⟨by decide, by decide⟩ (by decide)
  have hbehind : (stopped (zeroEvent 3 23)).behind = [zeroEvent 16 27, zeroEvent 3 23] := by decide
  refine (dispatched_iff hok id .new).1 ⟨?_, ?_, ?_⟩
  · unfold EventFile.Skips
    decide
  · -- the commit ends before 2 GiB
    rw [hbehind]
    simp only [readable_cons]
    exact ⟨by decide, fun _ => by decide, by decide, by simp, by simp, by simp⟩
  · rw [EventFile.Handled, hbehind]
    exact ⟨_, rfl⟩

/-- Without one it is never dispatched, though every handler comes back. -/
theorem stopped_not_exact : (stopped (zeroEvent 3 19)).Ok ∧ (stopped (zeroEvent 3 19)).Handled id .new ∧
    ¬ (stopped (zeroEvent 3 19)).Exact id .new := by
  have hok : (stopped (zeroEvent 3 19)).Ok := stopped_ok ⟨by decide, by decide⟩ (by decide)
  have hskip : (stopped (zeroEvent 3 19)).Skips := by
    unfold EventFile.Skips
    decide
  have hbehind : (stopped (zeroEvent 3 19)).behind = [zeroEvent 16 27, zeroEvent 3 19] := by decide
  refine ⟨hok, ?_, fun hexact => ?_⟩
  · rw [EventFile.Handled, hbehind]
    exact ⟨_, rfl⟩
  · have hread := ((exact_iff_readable hok hskip id .new).mp hexact).1
    exact (hread.sizes (zeroEvent 3 19) (by decide)).1 (by decide)

end DataSync.Binlog.Dispatch
