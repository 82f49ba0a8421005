import DataSync.Binlog.Tailing

/-! # Whose post-header lengths are they

There is one global format description, and every load adds its post-header lengths to those that are
there already. An event of type `t` is therefore read with entry `t - 1` of all the tables loaded so far,
written one behind the other: `descriptionFor_table` for one call of the parser and `run_table` for a whole
run. `latest_iff` says when that is the entry of the format description loaded last. -/

namespace DataSync.Binlog.PostHeaders

open DataSync.Lib.Words DataSync.Lib.Memory DataSync.Binlog.Format DataSync.Binlog.LogEvent
open DataSync.Binlog.ParseLogEntry DataSync.Binlog.EventStream DataSync.Binlog.RowsFormat

set_option maxRecDepth 2000

/-! ### The format descriptions a run loads -/

/-- The format descriptions the loop of `checkHeader` loads. -/
def loadedLoop : ℕ → FileCache → List Bytes
  | 0, _ => []
  | fuel + 1, fc =>
    match fc.readCache logEventHeaderLen with
    | (none, _) => []
    | (some ucHeaderBuf, fc) =>
      match (Ptr.mk 0 ucHeaderBuf).le eventLenOffset 4, (Ptr.mk 0 ucHeaderBuf).read eventTypeOffset with
      | .ok eventSize, .ok b =>
        match EventType.ofCode b.toNat with
        | .startV3 | .previousGtids | .rotate =>
          loadedLoop fuel (fc.seekCur (toSigned 32 (eventSize + 2 ^ 32 - logEventHeaderLen)))
        | .formatDescription =>
          match (fc.seekCur (-logEventHeaderLen)).readCache eventSize with
          | (none, _) => []
          | (some ucBuf, fc) => ucBuf :: loadedLoop fuel fc
        | _ => []
      | _, _ => []

/-- The format descriptions `checkHeader` loads from a file. -/
def loaded (file : Bytes) : List Bytes :=
  match (FileCache.init file).readCache binlogMagic.length with
  | (none, _) => []
  | (some ucHeader, fc) => if ucHeader ≠ binlogMagic then [] else loadedLoop (fc.file.length + 2) fc

/-- The format descriptions one call of the parser loads: the header is checked while the parser has no
offset to resume at. -/
def loadedBy (s : CParseLogEntry) (file : Bytes) : List Bytes :=
  if s.filePtr = 0 then loaded file else []

/-- The format descriptions a run of the parser loads. -/
def loadedIn (alloc : ℕ → ℕ) : CParseLogEntry → List Bytes → List Bytes
  | _, [] => []
  | s, file :: files =>
    loadedBy s file ++
      match refreshAndParse alloc s file with
      | .ok s' => loadedIn alloc s' files
      | .error _ => []

/-- The format description under which one call of the parser reads the events of a file. -/
def descriptionFor (s : CParseLogEntry) (file : Bytes) : Res CHeaderEvent := do
  if s.filePtr = 0 then return (← checkHeader (FileCache.init file) s.gde).2.2 else return s.gde

/-- The post-header lengths `loadEvent` takes from a format description. -/
def taken (bs : Bytes) : Bytes :=
  (bs.drop 76).take (min ((sizeField bs + 2 ^ 32 - 76) % 2 ^ 32) (enumEndEvent - 1))

/-- The table of post-header lengths of a format description, with `trailer` bytes behind it: from
MySQL 5.6 on the checksum algorithm and the checksum, nothing before. -/
def table (trailer : ℕ) (bs : Bytes) : Bytes := (bs.take (bs.length - trailer)).drop 76

/-! ### What a load adds -/

theorem loadEvent_table {gde g : CHeaderEvent} {bs : Bytes} (h : gde.loadEvent ⟨0, bs⟩ = .ok g) :
    g.postHeaderLen = gde.postHeaderLen ++ taken bs := by
  unfold CHeaderEvent.loadEvent at h
  obtain ⟨header, hheader, h⟩ := Res.bind_eq_ok.mp h
  obtain ⟨_, -, h⟩ := Res.bind_eq_ok.mp h
  obtain ⟨_, -, h⟩ := Res.bind_eq_ok.mp h
  obtain ⟨entries, hentries, h⟩ := Res.bind_eq_ok.mp h
  obtain rfl := Except.ok.inj h
  have hsize : header.eventSize = sizeField bs := by
    obtain ⟨-, -, -, hle⟩ := parseHeader_eq_ok.mp hheader
    exact Ptr.le_eq_leNat hle
  rw [Ptr.bytes_eq_take hentries, hsize]
  rfl

/-- The loop of `checkHeader` adds the tables of all it loads. -/
theorem checkHeaderLoop_table {fuel : ℕ} {fc fc' : FileCache} {gde g : CHeaderEvent} {ok : Bool}
    (h : checkHeaderLoop fuel fc gde = .ok (ok, fc', g)) :
    g.postHeaderLen = gde.postHeaderLen ++ (loadedLoop fuel fc).flatMap taken := by
  induction fuel generalizing fc gde with
  | zero => cases h
  | succ fuel ih =>
    unfold checkHeaderLoop at h
    unfold loadedLoop
    rcases hread : fc.readCache logEventHeaderLen with ⟨_ | ucHeaderBuf, fc1⟩ <;> rw [hread] at h
    · obtain ⟨-, -, rfl⟩ : _ ∧ _ ∧ _ := by simpa using h
      simp
    dsimp only at h ⊢
    obtain ⟨eventSize, hsize, h⟩ := Res.bind_eq_ok.mp h
    obtain ⟨b, hb, h⟩ := Res.bind_eq_ok.mp h
    rw [hsize, hb]
    dsimp only
    rcases htype : EventType.ofCode b.toNat <;> rw [htype] at h
    case startV3 | previousGtids | rotate => exact ih h
    case formatDescription =>
      dsimp only at h ⊢
      rcases hbuf : (fc1.seekCur (-logEventHeaderLen)).readCache eventSize with ⟨_ | ucBuf, fc2⟩ <;>
        rw [hbuf] at h
      · obtain ⟨-, -, rfl⟩ : _ ∧ _ ∧ _ := by simpa using h
        simp
      · obtain ⟨g1, hload, h⟩ := Res.bind_eq_ok.mp h
        rw [ih h, loadEvent_table hload, List.flatMap_cons, List.append_assoc]
    all_goals
      obtain ⟨-, -, rfl⟩ : _ ∧ _ ∧ _ := by simpa using h
      simp

/-! ### The table of a whole run -/

/-- Reading an event leaves the format description alone. -/
theorem parseOneEvent_gde {alloc : ℕ → ℕ} {fc fc' : FileCache} {s s' : CParseLogEntry} {more : Bool}
    (h : parseOneEvent alloc fc s = .ok (more, fc', s')) : s'.gde = s.gde := by
  obtain ⟨n, rfl⟩ | ⟨p, hevent⟩ := parseOneEvent_inv h
  · rfl
  · exact (handleEvent_frame hevent).1

theorem parseEventsLoop_gde {alloc : ℕ → ℕ} {fuel : ℕ} {fc fc' : FileCache} {s s' : CParseLogEntry}
    (h : parseEventsLoop alloc fuel fc s = .ok (fc', s')) : s'.gde = s.gde := by
  induction fuel generalizing fc s with
  | zero => cases h
  | succ fuel ih =>
    unfold parseEventsLoop at h
    obtain ⟨⟨more, fc1, s1⟩, hone, h⟩ := Res.bind_eq_ok.mp h
    dsimp only at h
    split_ifs at h
    · rw [ih h, parseOneEvent_gde hone]
    · obtain ⟨-, rfl⟩ := Prod.mk.inj (Except.ok.inj h)
      exact parseOneEvent_gde hone

/-- A call of the parser reads its events under `descriptionFor`, and leaves that behind. -/
theorem descriptionFor_of_refreshAndParse {alloc : ℕ → ℕ} {s s' : CParseLogEntry} {file : Bytes}
    (h : refreshAndParse alloc s file = .ok s') : descriptionFor s file = .ok s'.gde := by
  unfold refreshAndParse parseBegin at h
  unfold descriptionFor
  obtain ⟨⟨_, s1⟩, hbegin, h⟩ := Res.bind_eq_ok.mp h
  obtain rfl := Except.ok.inj h
  split_ifs at hbegin ⊢ with hptr hend
  · obtain ⟨⟨ok, fc, g⟩, hcheck, hbegin⟩ := Res.bind_eq_ok.mp hbegin
    rw [hcheck]
    dsimp only at hbegin
    split_ifs at hbegin
    · obtain ⟨⟨fc1, s2⟩, hevents, hbegin⟩ := Res.bind_eq_ok.mp hbegin
      obtain ⟨-, rfl⟩ := Prod.mk.inj (Except.ok.inj hbegin)
      exact congrArg Except.ok (parseEventsLoop_gde hevents).symm
    · obtain ⟨-, rfl⟩ := Prod.mk.inj (Except.ok.inj hbegin)
      rfl
  · obtain ⟨-, rfl⟩ := Prod.mk.inj (Except.ok.inj hbegin)
    rfl
  · obtain ⟨⟨fc1, s2⟩, hevents, hbegin⟩ := Res.bind_eq_ok.mp hbegin
    obtain ⟨-, rfl⟩ := Prod.mk.inj (Except.ok.inj hbegin)
    exact congrArg Except.ok (parseEventsLoop_gde hevents).symm

/-- **One call** adds the tables of the format descriptions it loads. -/
theorem descriptionFor_table {s : CParseLogEntry} {file : Bytes} {g : CHeaderEvent}
    (h : descriptionFor s file = .ok g) :
    g.postHeaderLen = s.gde.postHeaderLen ++ (loadedBy s file).flatMap taken := by
  unfold descriptionFor at h
  unfold loadedBy
  split_ifs at h ⊢
  · obtain ⟨⟨ok, fc, g'⟩, hcheck, h⟩ := Res.bind_eq_ok.mp h
    obtain rfl := Except.ok.inj h
    unfold checkHeader at hcheck
    unfold loaded
    rcases hread : (FileCache.init file).readCache binlogMagic.length with ⟨_ | ucHeader, fc1⟩ <;>
      rw [hread] at hcheck
    · obtain ⟨-, -, rfl⟩ : _ ∧ _ ∧ _ := by simpa using hcheck
      simp
    · dsimp only at hcheck ⊢
      split_ifs at hcheck ⊢
      · obtain ⟨-, -, rfl⟩ : _ ∧ _ ∧ _ := by simpa using hcheck
        simp
      · exact checkHeaderLoop_table hcheck
  · obtain rfl := Except.ok.inj h
    simp

/-- **A whole run** adds the tables of all format descriptions it loads. -/
theorem run_table {alloc : ℕ → ℕ} {files : List Bytes} {s s' : CParseLogEntry}
    (h : files.foldlM (refreshAndParse alloc) s = .ok s') :
    s'.gde.postHeaderLen = s.gde.postHeaderLen ++ (loadedIn alloc s files).flatMap taken := by
  induction files generalizing s with
  | nil =>
    obtain rfl := Except.ok.inj h
    simp [loadedIn]
  | cons file files ih =>
    rw [List.foldlM_cons] at h
    obtain ⟨s1, hstep, h⟩ := Res.bind_eq_ok.mp h
    rw [ih h, descriptionFor_table (descriptionFor_of_refreshAndParse hstep), loadedIn, hstep,
      List.flatMap_append, List.append_assoc]

/-! ### The entry of the last one -/

/-- The post-header length `len` is entry `t - 1` of the last of these format descriptions. -/
def UsesLatest (trailer : ℕ) (descriptions : List Bytes) (t : ℕ) (len : Res ℕ) : Prop :=
  ∃ last ∈ descriptions.getLast?, ∃ b ∈ (table trailer last)[t - 1]?, len = .ok b.toNat

/-- The last of these format descriptions has an entry `t - 1`, and the same number stands there in all
tables written one behind the other. -/
def SameInAll (trailer : ℕ) (descriptions : List Bytes) (t : ℕ) : Prop :=
  ∃ last ∈ descriptions.getLast?, ∃ b ∈ (table trailer last)[t - 1]?,
    (descriptions.flatMap taken)[t - 1]? = some b

/-- **The post-header length of an event is that of the last format description, exactly when** the entry
at its place among all tables loaded so far is the same. -/
theorem latest_iff (alloc : ℕ → ℕ) (files : List Bytes) (file : Bytes) (s : CParseLogEntry)
    (hrun : tailFile alloc files = .ok s) (g : CHeaderEvent) (hg : descriptionFor s file = .ok g)
    (trailer t : ℕ) (ht : 0 < t) :
    UsesLatest trailer (loadedIn alloc .new files ++ loadedBy s file) t (g.postHeader t) ↔
      SameInAll trailer (loadedIn alloc .new files ++ loadedBy s file) t := by
  have htable : g.postHeaderLen = (loadedIn alloc .new files ++ loadedBy s file).flatMap taken := by
    rw [descriptionFor_table hg, run_table hrun, List.flatMap_append]
    rfl
  have hlen : g.postHeader t = UInt8.toNat <$> Res.ofOption g.postHeaderLen[t - 1]? := by
    unfold CHeaderEvent.postHeader
    rw [if_neg (by omega)]
    rfl
  unfold UsesLatest SameInAll
  rw [hlen, htable]
  constructor
  · rintro ⟨last, hlast, b, hb, hused⟩
    refine ⟨last, hlast, b, hb, ?_⟩
    cases hentry : ((loadedIn alloc .new files ++ loadedBy s file).flatMap taken)[t - 1]? with
    | none =>
      rw [hentry] at hused
      cases hused
    | some b' =>
      rw [hentry] at hused
      rw [UInt8.toNat_inj.mp (Except.ok.inj hused)]
  · rintro ⟨last, hlast, b, hb, hentry⟩
    refine ⟨last, hlast, b, hb, ?_⟩
    rw [hentry]
    rfl

/-- A file of a server with these post-header lengths, of which only the format description has been
written. -/
def headerFile (lengths : Bytes) : Bytes :=
  binlogMagic ++ (headerBytes 0 15 1 (81 + lengths.length) 0 0 ++ ([4, 0] ++ (List.replicate 54 0 ++
    (19 :: lengths ++ [1, 0, 0, 0, 0]))))

/-- A single file: its events are read with its own post-header lengths. -/
theorem latest_iff_single : ∃ g, descriptionFor .new (headerFile description.postHeaderLen) = .ok g ∧
    UsesLatest 5 (loadedIn id .new [] ++ loadedBy .new (headerFile description.postHeaderLen)) 19
      (g.postHeader 19) := by
  have hg : descriptionFor .new (headerFile description.postHeaderLen) = .ok description := by
    decide
  refine ⟨description, hg, (latest_iff id [] (headerFile description.postHeaderLen) .new rfl description hg
    5 19 (by decide)).mpr ?_⟩
  have hone : loadedIn id .new [] ++ loadedBy .new (headerFile description.postHeaderLen) =
      [(headerFile description.postHeaderLen).drop 4] := by decide
  rw [hone]
  exact ⟨_, rfl, 8, by decide, by decide⟩

/-- A file whose table maps have a post header of six bytes, behind one where they have eight: eight is
what they are read with. -/
theorem secondTable_ignored : ¬ ∀ (alloc : ℕ → ℕ) (files : List Bytes) (file : Bytes) (s : CParseLogEntry),
    tailFile alloc files = .ok s → ∀ g, descriptionFor s file = .ok g → ∀ t,
      EventType.ofCode t = .tableMap →
      UsesLatest 5 (loadedIn alloc .new files ++ loadedBy s file) t (g.postHeader t) := by
  intro h
  have hok : ((tailFile id [headerFile description.postHeaderLen]).map fun s => (s.filePtr, s.gde)) =
      .ok (0, description) := by decide
  obtain ⟨s, hrun, hs⟩ := Res.map_eq_ok.mp hok
  obtain ⟨hptr, hgde⟩ := Prod.mk.inj hs
  have hfor : ∀ file, descriptionFor s file =
      descriptionFor { CParseLogEntry.new with gde := description } file := by
    intro file
    unfold descriptionFor
    rw [hptr, hgde]
    rfl
  have hboth : loadedIn id .new [headerFile description.postHeaderLen] ++
      loadedBy s (headerFile (description.postHeaderLen.set 18 6)) =
      [(headerFile description.postHeaderLen).drop 4,
        (headerFile (description.postHeaderLen.set 18 6)).drop 4] := by
    have h1 : loadedBy .new (headerFile description.postHeaderLen) =
        [(headerFile description.postHeaderLen).drop 4] := by decide
    have h2 : loaded (headerFile (description.postHeaderLen.set 18 6)) =
        [(headerFile (description.postHeaderLen.set 18 6)).drop 4] := by decide
    rw [loadedIn, h1, ← tailFile_singleton, hrun, loadedBy, if_pos hptr, h2]
    rfl
  obtain ⟨last, hlast, b, hb, hused⟩ := h id [headerFile description.postHeaderLen]
    (headerFile (description.postHeaderLen.set 18 6)) s hrun
    ⟨19, description.postHeaderLen ++ description.postHeaderLen.set 18 6⟩
    (by rw [hfor]; decide) 19 rfl
  rw [hboth] at hlast
  obtain rfl : (headerFile (description.postHeaderLen.set 18 6)).drop 4 = last := Option.some.inj hlast
  have hsix : (table 5 ((headerFile (description.postHeaderLen.set 18 6)).drop 4))[19 - 1]? = some 6 := by
    decide
  rw [hsix] at hb
  obtain rfl := Option.some.inj hb
  exact absurd hused (by decide)

end DataSync.Binlog.PostHeaders
