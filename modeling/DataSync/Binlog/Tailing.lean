import DataSync.Binlog.Addresses

/-! # Tailing a growing file

One parser called on each state of a growing file. Each call parses up to the end of the file as it is and
the next one begins there, so nothing is lost as long as the file ends with a whole event whenever it is
looked at, or has not grown beyond its header: `tail_eq_fresh`. The two parsers compared have their buffers at
different addresses, so no value of the file may be one (`AddressFree`). The header is read again by every call
until the first event has begun; `handleEvent_sim` says that a parser with the format description read
several times does what a fresh one does.

A new file is not read from its header on: `rotation_iff`. -/

namespace DataSync.Binlog.Tailing

open DataSync.Lib.Words DataSync.Lib.Memory DataSync.Binlog.Format DataSync.Binlog.LogEvent
open DataSync.Binlog.ParseLogEntry DataSync.Binlog.EventStream DataSync.Binlog.Files
open DataSync.Binlog.RowsFormat DataSync.Binlog.TableNames DataSync.Binlog.Addresses

set_option maxRecDepth 4000

/-! ### A description read several times -/

section Simulation
variable {g g' : CHeaderEvent} (hg : Extends g g')
include hg

theorem postHeader_le (eventType : ℕ) : Res.Le (g.postHeader eventType) (g'.postHeader eventType) := by
  unfold CHeaderEvent.postHeader
  dsimp only
  split_ifs
  · exact Res.Le.refl _
  refine Res.Le.bind ?_ fun _ => Res.Le.refl _
  intro b hb
  rw [Res.ofOption_eq_ok] at hb ⊢
  obtain ⟨rest, hrest⟩ := hg.postHeader
  have hlt := (List.getElem?_eq_some_iff.mp hb).1
  rw [← hrest, List.getElem?_append_left hlt, hb]

theorem query_le (p : Ptr) : Res.Le (CQueryEvent.loadEvent g p) (CQueryEvent.loadEvent g' p) := by
  unfold CQueryEvent.loadEvent
  rw [hg.common]
  exact Res.Le.bind (Res.Le.refl _) fun header => Res.Le.bind (postHeader_le hg _) fun _ => Res.Le.refl _

theorem tableMap_le (p : Ptr) : Res.Le (CTableMapEvent.loadEvent g p) (CTableMapEvent.loadEvent g' p) := by
  unfold CTableMapEvent.loadEvent
  rw [hg.common]
  exact Res.Le.bind (Res.Le.refl _) fun header => Res.Le.bind (postHeader_le hg _) fun _ => Res.Le.refl _

theorem rows_le (kind : RowsKind) (p : Ptr) :
    Res.Le (CRowsEvent.loadEvent g kind p) (CRowsEvent.loadEvent g' kind p) := by
  unfold CRowsEvent.loadEvent
  rw [hg.common]
  exact Res.Le.bind (Res.Le.refl _) fun header => Res.Le.bind (postHeader_le hg _) fun _ => Res.Le.refl _

end Simulation

/-- The parser `s` with another description and another resume offset. -/
def reading (s : CParseLogEntry) (g : CHeaderEvent) (filePtr : ℕ) : CParseLogEntry :=
  { s with gde := g, filePtr := filePtr }

section Run
variable {s s' : CParseLogEntry} {g : CHeaderEvent} (hg : Extends s.gde g)
include hg

theorem handleRows_sim {kind : RowsKind} {p : Ptr} (n : ℕ) (h : handleRows s kind p = .ok s') :
    handleRows (reading s g n) kind p = .ok (reading s' g n) := by
  unfold handleRows at h ⊢
  obtain ⟨⟨ev, _⟩, hload, h⟩ := Res.bind_eq_ok.mp h
  obtain ⟨tableId, hid, h⟩ := Res.bind_eq_ok.mp h
  obtain ⟨⟨ev', _⟩, hparse, h⟩ := Res.bind_eq_ok.mp h
  obtain ⟨query, hquery, h⟩ := Res.bind_eq_ok.mp h
  obtain ⟨last, hlast, h⟩ := Res.bind_eq_ok.mp h
  obtain rfl := Except.ok.inj h
  simp only [reading, rows_le hg kind p _ hload, Res.ok_bind, hid, hparse, hquery, hlast, Res.pure_eq]

/-- **A parser that has read the description again** does with an event what it did without. -/
theorem handleEvent_sim {p : Ptr} (n : ℕ) (h : handleEvent s p = .ok s') :
    ∃ n', handleEvent (reading s g n) p = .ok (reading s' g n') := by
  unfold handleEvent at h ⊢
  obtain ⟨b, hb, h⟩ := Res.bind_eq_ok.mp h
  rw [hb, Res.ok_bind]
  rcases hcode : EventType.ofCode b.toNat <;> rw [hcode] at h
  case query =>
    obtain ⟨⟨ev, _⟩, hload, h⟩ := Res.bind_eq_ok.mp h
    obtain rfl := Except.ok.inj h
    exact ⟨n, by simp only [reading, query_le hg p _ hload, Res.ok_bind, Res.pure_eq]⟩
  case tableMap =>
    obtain ⟨⟨ev, _⟩, hload, h⟩ := Res.bind_eq_ok.mp h
    simp only [updateTableMap] at h
    obtain ⟨k, hk, h⟩ := Res.bind_eq_ok.mp h
    obtain rfl := Except.ok.inj h
    exact ⟨n, by simp only [reading, tableMap_le hg p _ hload, Res.ok_bind, updateTableMap, hk,
      Res.pure_eq]⟩
  case writeRowsV1 | writeRows | updateRows | updateRowsV1 | deleteRowsV1 | deleteRows =>
    exact ⟨n, handleRows_sim hg n h⟩
  case stop =>
    obtain rfl := Except.ok.inj h
    exact ⟨0, rfl⟩
  all_goals
    obtain rfl := Except.ok.inj h
    exact ⟨n, rfl⟩

/-- A whole list of events. -/
theorem foldlM_sim {alloc : ℕ → ℕ} {events : List Bytes} (n : ℕ)
    (h : events.foldlM (handle alloc) s = .ok s') :
    ∃ n', events.foldlM (handle alloc) (reading s g n) = .ok (reading s' g n') := by
  induction events generalizing s n with
  | nil =>
    obtain rfl := Except.ok.inj h
    exact ⟨n, rfl⟩
  | cons e events ih =>
    rw [List.foldlM_cons] at h ⊢
    obtain ⟨s1, hstep, h⟩ := Res.bind_eq_ok.mp h
    obtain ⟨n1, hstep'⟩ := handleEvent_sim (s := { s with allocs := s.allocs + 1 }) hg n hstep
    obtain ⟨n', hrun⟩ := ih ((handle_frame hstep).1 ▸ hg) n1 h
    refine ⟨n', ?_⟩
    rw [show handle alloc (reading s g n) e = .ok (reading s1 g n1) from hstep', Res.ok_bind, hrun]

end Run

/-! ### Following a file -/

/-- The file can be looked at when it has `n` bytes: not a whole event header has been written behind its
header, or it ends with a whole event. -/
def Whole (f : LogFile) (n : ℕ) : Prop :=
  n < f.header.length + logEventHeaderLen ∨ ∃ k, n = (f.upTo k).length

/-- The states of a parser that follows the file: it has only looked at the header yet, or handled the
first events as a fresh parser does. -/
def Follows (alloc : ℕ → ℕ) (f : LogFile) (s : CParseLogEntry) : Prop :=
  (∃ g, Copies f g ∧ s = reading .new g 0) ∨
    ∃ k t g, f.events.take k ≠ [] ∧
      (f.events.take k).foldlM (handle alloc) (reading .new f.description 0) = .ok t ∧
      Extends f.description g ∧ s = reading t g (f.upTo k).length

theorem bytes_eq_upTo (f : LogFile) : f.bytes = f.upTo f.events.length := by
  rw [LogFile.upTo, LogFile.bytes, List.take_length]

theorem take_upTo (f : LogFile) (k : ℕ) : f.bytes.take (f.upTo k).length = f.upTo k := by
  rcases Nat.le_total k f.events.length with hk | hk
  · rw [bytes_eq_upTo, upTo_append f hk, List.take_left]
  · have hall : f.upTo k = f.bytes := by
      rw [LogFile.upTo, LogFile.bytes, List.take_of_length_le hk]
    rw [hall, List.take_length]

theorem gde_of_foldlM {alloc : ℕ → ℕ} {events : List Bytes} {s u : CParseLogEntry}
    (h : events.foldlM (handle alloc) s = .ok u) : u.gde = s.gde :=
  Res.foldlM_invariant (P := fun _ v => v.gde = s.gde) h rfl
    fun _ _ _ _ _ hv hstep => (handle_frame hstep).1.trans hv

section Follow
variable {alloc : ℕ → ℕ} {f : LogFile} (hf : f.Ok) {s t : CParseLogEntry}
  (ht : f.events.foldlM (handle alloc) (reading .new f.description 0) = .ok t)
include hf

/-- Events behind the header are longer than an event header. -/
theorem header_lt_upTo {k : ℕ} (hk : f.events.take k ≠ []) :
    f.header.length + logEventHeaderLen < (f.upTo k).length := by
  obtain ⟨e, rest, hcons⟩ := List.exists_cons_of_ne_nil hk
  have hlong := (hf.events e (List.mem_of_mem_take (show e ∈ f.events.take k by simp [hcons]))).long
  rw [LogFile.upTo, hcons, List.flatten_cons, List.length_append, List.length_append]
  omega

/-- A look before the first event has begun. -/
theorem follows_growing {g : CHeaderEvent} (hg : Copies f g) {n : ℕ}
    (hn : n < f.header.length + logEventHeaderLen) :
    ∃ s', refreshAndParse alloc (reading .new g 0) (f.bytes.take n) = .ok s' ∧ Follows alloc f s' := by
  have hlen : (f.bytes.take n).length < f.header.length + logEventHeaderLen := by
    rw [List.length_take]
    omega
  obtain ⟨k, hk⟩ : ∃ k, parseBegin alloc (FileCache.init (f.bytes.take n)) (reading .new g 0) = _ :=
    parseBegin_growing hf rfl (List.take_prefix n f.bytes) hlen
  refine ⟨_, ?_, Or.inl ⟨_, copies_take hf hg k, rfl⟩⟩
  rw [refreshAndParse, hk]
  rfl

include ht

omit hf in
/-- The state behind the first events of a run that is defined. -/
theorem foldlM_take (k : ℕ) :
    ∃ u, (f.events.take k).foldlM (handle alloc) (reading .new f.description 0) = .ok u ∧
      u.gde = f.description := by
  have hsplit := ht
  rw [← List.take_append_drop k f.events, List.foldlM_append] at hsplit
  obtain ⟨u, hu, -⟩ := Res.bind_eq_ok.mp hsplit
  exact ⟨u, hu, gde_of_foldlM hu⟩

/-- The first look at events. -/
theorem follows_header {g : CHeaderEvent} (hg : Copies f g) {k : ℕ} (hk : f.events.take k ≠ []) :
    ∃ u g', (f.events.take k).foldlM (handle alloc) (reading .new f.description 0) = .ok u ∧
      Extends f.description g' ∧
      refreshAndParse alloc (reading .new g 0) (f.upTo k) = .ok (reading u g' (f.upTo k).length) := by
  obtain ⟨u, hu, -⟩ := foldlM_take ht k
  have hext := extends_of_copies hf hg
  obtain ⟨n', hrun⟩ := foldlM_sim (s := reading .new f.description 0) hext 0 hu
  refine ⟨u, _, hu, hext, ?_⟩
  have hbegin : parseBegin alloc (FileCache.init (f.upTo k)) (reading .new g 0) = _ :=
    parseBegin_header hf rfl hk
  rw [refreshAndParse, hbegin]
  have hstart : { reading .new g 0 with gde := f.headers.foldl describe (reading .new g 0).gde } =
      reading (reading .new f.description 0) (f.headers.foldl describe g) 0 := rfl
  rw [hstart, hrun]
  rfl

/-- A later look at more events. -/
theorem follows_resume {k : ℕ} {u : CParseLogEntry} {g : CHeaderEvent}
    (hu : (f.events.take k).foldlM (handle alloc) (reading .new f.description 0) = .ok u)
    (hg : Extends f.description g) {j : ℕ} (hlt : (f.upTo k).length < (f.upTo j).length) :
    ∃ v, (f.events.take j).foldlM (handle alloc) (reading .new f.description 0) = .ok v ∧
      refreshAndParse alloc (reading u g (f.upTo k).length) (f.upTo j) =
        .ok (reading v g (f.upTo j).length) := by
  have hkj : k ≤ j := by
    by_contra hjk
    have happend := congrArg List.length (upTo_append f (show j ≤ k by omega))
    rw [List.length_append] at happend
    omega
  obtain ⟨v, hv, -⟩ := foldlM_take ht j
  have hgde : u.gde = f.description := gde_of_foldlM hu
  have hmore : ((f.events.take j).drop k).foldlM (handle alloc) u = .ok v := by
    have hsplit := hv
    rw [take_append_drop_take f.events hkj, List.foldlM_append, hu, Res.ok_bind] at hsplit
    exact hsplit
  obtain ⟨n', hrun⟩ := foldlM_sim (hgde ▸ hg) (f.upTo k).length hmore
  have hcommon : logEventHeaderLen ≤ (reading u g (f.upTo k).length).gde.commonHeaderLength := by
    have hc := hf.common
    rwa [← hg.common] at hc
  refine ⟨v, hv, ?_⟩
  rw [refreshAndParse, parseBegin_resume hf hkj rfl hcommon hlt, hrun]
  rfl

/-- **One look at the file.** -/
theorem follows_step (hs : Follows alloc f s) {n : ℕ} (hn : Whole f n) :
    ∃ s', refreshAndParse alloc s (f.bytes.take n) = .ok s' ∧ Follows alloc f s' := by
  have hcut : n < f.header.length + logEventHeaderLen ∨
      ∃ k, f.events.take k ≠ [] ∧ n = (f.upTo k).length := by
    rcases hn with hn | ⟨k, rfl⟩
    · exact Or.inl hn
    · by_cases hk : f.events.take k = []
      · refine Or.inl ?_
        rw [LogFile.upTo, hk, List.flatten_nil, List.append_nil]
        unfold logEventHeaderLen
        omega
      · exact Or.inr ⟨k, hk, rfl⟩
  rcases hs with ⟨g, hg, rfl⟩ | ⟨k, u, g, hk, hu, hg, rfl⟩
  · rcases hcut with hn | ⟨k, hk, rfl⟩
    · exact follows_growing hf hg hn
    · obtain ⟨u, g', hu, hg', hrun⟩ := follows_header hf ht hg hk
      rw [take_upTo]
      exact ⟨_, hrun, Or.inr ⟨k, u, g', hk, hu, hg', rfl⟩⟩
  · by_cases hle : (f.bytes.take n).length ≤ (f.upTo k).length
    · have hsize : (f.bytes.take n).length < 2 ^ 31 :=
        lt_of_le_of_lt (List.length_take_le' n f.bytes) hf.size
      have hpos := header_lt_upTo hf hk
      have hptr : (reading u g (f.upTo k).length).filePtr ≠ 0 := by
        show (f.upTo k).length ≠ 0
        omega
      refine ⟨_, ?_, Or.inr ⟨k, u, g, hk, hu, hg, rfl⟩⟩
      rw [refreshAndParse, parseBegin_behind hsize hptr hle]
      rfl
    · rcases hcut with hn | ⟨j, hj, rfl⟩
      · have hpos := header_lt_upTo hf hk
        rw [List.length_take] at hle
        omega
      · rw [take_upTo] at hle ⊢
        obtain ⟨v, hv, hrun⟩ := follows_resume hf ht hu hg (show (f.upTo k).length < (f.upTo j).length
          by omega)
        exact ⟨_, hrun, Or.inr ⟨j, v, g, hj, hv, hg, rfl⟩⟩

/-- **The last look**, at the whole file. -/
theorem follows_end (hs : Follows alloc f s) :
    ∃ s', refreshAndParse alloc s f.bytes = .ok s' ∧ s'.out = t.out := by
  rcases hs with ⟨g, hg, rfl⟩ | ⟨k, u, g, hk, hu, hg, rfl⟩
  · by_cases hnil : f.events = []
    · have hlen : f.bytes.length < f.header.length + logEventHeaderLen := by
        rw [LogFile.bytes, hnil, List.flatten_nil, List.append_nil]
        unfold logEventHeaderLen
        omega
      obtain ⟨n, hn⟩ : ∃ n, parseBegin alloc (FileCache.init f.bytes) (reading .new g 0) = _ :=
        parseBegin_growing hf rfl (List.prefix_refl f.bytes) hlen
      rw [hnil] at ht
      obtain rfl := Except.ok.inj ht
      refine ⟨reading .new ((f.headers.take n).foldl describe g) 0, ?_, rfl⟩
      rw [refreshAndParse, hn]
      rfl
    · have hk : f.events.take f.events.length ≠ [] := by rwa [List.take_length]
      obtain ⟨u, g', hu, -, hrun⟩ := follows_header hf ht hg hk
      rw [List.take_length, ht] at hu
      obtain rfl := Except.ok.inj hu
      rw [bytes_eq_upTo]
      exact ⟨_, hrun, rfl⟩
  · by_cases hlt : (f.upTo k).length < f.bytes.length
    · rw [bytes_eq_upTo] at hlt ⊢
      obtain ⟨v, hv, hrun⟩ := follows_resume hf ht hu hg hlt
      rw [List.take_length, ht] at hv
      obtain rfl := Except.ok.inj hv
      exact ⟨_, hrun, rfl⟩
    · -- all events have been handled
      have hall : f.events.take k = f.events := by
        refine List.take_of_length_le (Nat.le_of_not_lt fun hk' => ?_)
        have hlen := congrArg List.length (upTo_append f hk'.le)
        have hle : (f.events.drop k).length ≤ _ :=
          length_le_flatten fun e he => (hf.events e (List.mem_of_mem_drop he)).framed
        rw [List.length_append, ← bytes_eq_upTo, List.take_length] at hlen
        rw [List.length_drop] at hle
        omega
      rw [hall, ht] at hu
      obtain rfl := Except.ok.inj hu
      have hpos := header_lt_upTo hf hk
      have hptr : (reading t g (f.upTo k).length).filePtr ≠ 0 := by
        show (f.upTo k).length ≠ 0
        omega
      refine ⟨reading t g (f.upTo k).length, ?_, rfl⟩
      rw [refreshAndParse, parseBegin_behind hf.size hptr (show f.bytes.length ≤ (f.upTo k).length by
        omega)]
      rfl

/-- Any number of looks, the last one at the whole file. -/
theorem follows_run (hs : Follows alloc f s) {cuts : List ℕ} (hcuts : ∀ n ∈ cuts, Whole f n) :
    ∃ s', (cuts.map (f.bytes.take ·) ++ [f.bytes]).foldlM (refreshAndParse alloc) s = .ok s' ∧
      s'.out = t.out := by
  induction cuts generalizing s with
  | nil =>
    obtain ⟨s', hlast, hout⟩ := follows_end hf ht hs
    refine ⟨s', ?_, hout⟩
    rw [List.map_nil, List.nil_append, List.foldlM_cons, hlast, Res.ok_bind]
    rfl
  | cons n cuts ih =>
    obtain ⟨s1, hstep, hs1⟩ := follows_step hf ht hs (hcuts n List.mem_cons_self)
    obtain ⟨s', hrun, hout⟩ := ih hs1 fun m hm => hcuts m (List.mem_cons_of_mem n hm)
    refine ⟨s', ?_, hout⟩
    rw [List.map_cons, List.cons_append, List.foldlM_cons, hstep, Res.ok_bind, hrun]

end Follow

theorem copies_initial (f : LogFile) : Copies f .initial := ⟨0, rfl⟩

theorem follows_new (alloc : ℕ → ℕ) (f : LogFile) : Follows alloc f .new :=
  Or.inl ⟨.initial, copies_initial f, rfl⟩

/-- What a fresh parser does with a whole file. -/
theorem fresh_run {alloc : ℕ → ℕ} {f : LogFile} (hf : f.Ok) {s : CParseLogEntry}
    (h : tailFile alloc [f.bytes] = .ok s) :
    ∃ t, f.events.foldlM (handle alloc) (reading .new f.description 0) = .ok t ∧ t.out = s.out := by
  have hone : refreshAndParse alloc .new f.bytes = .ok s := by rw [← tailFile_singleton, h]
  by_cases hnil : f.events = []
  · refine ⟨reading .new f.description 0, by rw [hnil]; rfl, ?_⟩
    have ht : f.events.foldlM (handle alloc) (reading .new f.description 0) =
        .ok (reading .new f.description 0) := by
      rw [hnil]
      rfl
    obtain ⟨s', hs', hout⟩ := follows_end hf ht (follows_new alloc f)
    rw [hone] at hs'
    obtain rfl := Except.ok.inj hs'
    exact hout.symm
  · have hk : f.events.take f.events.length ≠ [] := by rwa [List.take_length]
    have hbegin : parseBegin alloc (FileCache.init (f.upTo f.events.length)) .new = _ :=
      parseBegin_header hf rfl hk
    rw [← bytes_eq_upTo, List.take_length] at hbegin
    rw [refreshAndParse, hbegin, bind_assoc] at hone
    obtain ⟨t, ht, hrest⟩ := Res.bind_eq_ok.mp hone
    obtain rfl := Except.ok.inj hrest
    exact ⟨t, ht, rfl⟩

/-- Where the buffers of the parser are makes no difference to a file without TINYINT values. -/
theorem fresh_run_addr {fresh : ℕ → ℕ} {f : LogFile} (hf : f.Ok) (hfree : AddressFree f) {s : CParseLogEntry}
    (h : tailFile fresh [f.bytes] = .ok s) (alloc : ℕ → ℕ) :
    ∃ t, f.events.foldlM (handle alloc) (reading .new f.description 0) = .ok t ∧ t.out = s.out := by
  obtain ⟨t, ht, hout⟩ := fresh_run hf h
  exact ⟨t, foldlM_handle_addr (s := reading .new f.description 0) hfree ht alloc, hout⟩

/-- **Tailing a file** that ends with a whole event at every look hands on what a parser with buffers of its
own does that looks at the whole file once. -/
theorem tail_eq_fresh (fresh alloc : ℕ → ℕ) (f : LogFile) (hf : f.Formed) (hbodied : f.Bodied)
    (hfree : AddressFree f) (s : CParseLogEntry) (hfresh : tailFile fresh [f.bytes] = .ok s) (cuts : List ℕ)
    (hcuts : ∀ n ∈ cuts, Whole f n) :
    ∃ s', tailFile alloc (cuts.map (f.bytes.take ·) ++ [f.bytes]) = .ok s' ∧ s'.out = s.out := by
  have hok := LogFile.ok_iff.mpr ⟨hf, hbodied⟩
  obtain ⟨t, ht, hout⟩ := fresh_run_addr hok hfree hfresh alloc
  obtain ⟨s', hrun, hout'⟩ := follows_run hok ht (follows_new alloc f) hcuts
  exact ⟨s', hrun, hout'.trans hout⟩

/-- The format description event of a MySQL 5.7 server. -/
def formatDescription : Bytes :=
  headerBytes 0 15 1 119 0 0 ++ ([4, 0] ++ (List.replicate 54 0 ++ (19 :: description.postHeaderLen ++
    [1, 0, 0, 0, 0])))

/-- A transaction that inserts one row into the table `a.name`. -/
def insertOne (tableId name : UInt8) : List Bytes :=
  [beginQuery, oneColumn tableId name, insertRow tableId].map fun p => p.data.dropLast

/-- A file with one such transaction. -/
def oneInsert : LogFile := ⟨[formatDescription], insertOne 1 120⟩

/-- Another heap. -/
def otherHeap (k : ℕ) : ℕ := 4096 + 1024 * k

theorem oneInsert_ok : oneInsert.Formed ∧ oneInsert.Bodied := LogFile.ok_iff.mp (by decide)

theorem oneInsert_addressFree : AddressFree oneInsert := addressFree_of_noTiny (by decide)

/-- Looked at when the magic number is there, when the table map is, and when all of it is. -/
theorem tail_eq_fresh_oneInsert : ∃ s s', tailFile id [oneInsert.bytes] = .ok s ∧
    tailFile otherHeap ([4, (oneInsert.upTo 2).length].map (oneInsert.bytes.take ·) ++ [oneInsert.bytes]) =
      .ok s' ∧ s'.out = s.out := by
  obtain ⟨s, hrun⟩ := Res.exists_ok (show (tailFile id [oneInsert.bytes]).toBool = true by decide)
  have hcuts : ∀ n ∈ [4, (oneInsert.upTo 2).length], Whole oneInsert n := by
    rintro n hn
    rcases List.mem_pair.mp hn with hn | hn
    · exact Or.inl (hn ▸ by decide)
    · exact Or.inr ⟨2, hn⟩
  obtain ⟨s', htail, hout⟩ := tail_eq_fresh id otherHeap oneInsert oneInsert_ok.1 oneInsert_ok.2
    oneInsert_addressFree s hrun _ hcuts
  exact ⟨s, s', hrun, htail, hout⟩

/-- Looked at three bytes before its end, the file is never read to the end: the row is lost. -/
theorem cutEvent_lost : ¬ ∀ (fresh alloc : ℕ → ℕ) (f : LogFile), f.Ok → AddressFree f →
    ∀ s : CParseLogEntry, tailFile fresh [f.bytes] = .ok s → ∀ cuts : List ℕ, cuts.Pairwise (· ≤ ·) →
      ∃ s', tailFile alloc (cuts.map (f.bytes.take ·) ++ [f.bytes]) = .ok s' ∧ s'.out = s.out := by
  intro h
  have hone : (tailFile id [oneInsert.bytes]).map (fun s => s.out.length) = .ok 1 := by decide
  have hcut : (tailFile otherHeap ([oneInsert.bytes.length - 3].map (oneInsert.bytes.take ·) ++
      [oneInsert.bytes])).map (fun s => s.out.length) = .ok 0 := by decide
  obtain ⟨s, hrun, h1⟩ := Res.map_eq_ok.mp hone
  obtain ⟨s', htail, hout⟩ := h id otherHeap oneInsert (by decide) oneInsert_addressFree s hrun
    [oneInsert.bytes.length - 3] (List.pairwise_singleton _ _)
  rw [htail] at hcut
  have h0 : s'.out.length = 0 := Except.ok.inj hcut
  rw [hout, h1] at h0
  cases h0

/-! ### File after file -/

/-- The event is a rows event. -/
def isRowsEvent (bs : Bytes) : Bool := (rowsKind (EventType.ofCode (typeCode bs))).isSome

/-- A fresh parser makes this of a file, its buffers being wherever they are. -/
def Emits (f : LogFile) (out : List CRowData) : Prop :=
  ∃ alloc s, tailFile alloc [f.bytes] = .ok s ∧ s.out = out

theorem isRows_eq {bs : Bytes} (h : IsEvent bs) (a : ℕ) :
    TableNames.isRows ⟨a, bs ++ [0]⟩ = isRowsEvent bs := by
  have hlong := h.long
  unfold logEventHeaderLen at hlong
  obtain ⟨b, hb, hcode⟩ := read_typeCode (show 5 ≤ bs.length by omega) a [0]
  rw [TableNames.isRows, TableNames.typeOf, hb, isRowsEvent, ← hcode]
  rfl

/-- Every rows event is handed on, and nothing else. -/
theorem length_out {alloc : ℕ → ℕ} {events : List Bytes} (hevents : ∀ e ∈ events, IsEvent e)
    {s s' : CParseLogEntry} (h : events.foldlM (handle alloc) s = .ok s') :
    s'.out.length = s.out.length + events.countP isRowsEvent := by
  refine Res.foldlM_invariant (P := fun pre t => t.out.length = s.out.length + pre.countP isRowsEvent) h rfl
    fun pre e t t' he ht hstep => ?_
  rw [List.countP_append, List.countP_singleton, ← isRows_eq (hevents e he) (alloc t.allocs), ← Nat.add_assoc,
    ← ht]
  obtain ⟨-, ⟨hrows, hout, -⟩ | ⟨hrows, -, -, -, data, -, hout, -⟩⟩ := handleEvent_cases hstep
  · rw [hrows, hout]
    rfl
  · rw [hrows, hout, List.length_append]
    rfl

/-- A fresh parser hands on the rows events of a file. -/
theorem length_emits {f : LogFile} (hf : f.Ok) {out : List CRowData} (h : Emits f out) :
    out.length = f.events.countP isRowsEvent := by
  obtain ⟨alloc, s, hs, rfl⟩ := h
  obtain ⟨t, ht, hout⟩ := fresh_run hf hs
  have hlen : t.out.length = 0 + _ := length_out hf.events ht
  rw [← hout, hlen, Nat.zero_add]

theorem emits_nil_iff {f : LogFile} (hf : f.Ok) {out : List CRowData} (h : Emits f out) : out = [] ↔ ∀ e ∈ f.events, isRowsEvent e = false := by
  rw [← List.length_eq_zero_iff, length_emits hf h, List.countP_eq_zero]
  simp only [Bool.not_eq_true]

/-- A file with nothing behind its header leaves the parser where it was, with one more copy of its
post-header lengths. -/
theorem refreshAndParse_headerOnly {alloc : ℕ → ℕ} {e : LogFile} (he : e.Ok) (hnil : e.events = [])
    (g : CHeaderEvent) : ∃ g',
      refreshAndParse alloc (reading .new g 0) e.bytes = .ok (reading .new g' 0) ∧
      ∀ f : LogFile, e.description.postHeaderLen = f.description.postHeaderLen → Copies f g →
        Copies f g' := by
  have hshort : e.bytes.length < e.header.length + logEventHeaderLen := by
    rw [LogFile.bytes, hnil, List.flatten_nil, List.append_nil]
    unfold logEventHeaderLen
    omega
  obtain ⟨k, hk⟩ : ∃ k, parseBegin alloc (FileCache.init e.bytes) (reading .new g 0) = _ :=
    parseBegin_growing he rfl (List.prefix_refl e.bytes) hshort
  refine ⟨(e.headers.take k).foldl describe g, ?_, ?_⟩
  · rw [refreshAndParse, hk]
    rfl
  · rintro f hsame ⟨n, hn⟩
    obtain ⟨m, hm⟩ := copies_take he (show Copies e g from ⟨n, hsame ▸ hn⟩) k
    exact ⟨m, hsame ▸ hm⟩

/-- Such files in a row. -/
theorem foldlM_headerOnly {alloc : ℕ → ℕ} {es : List LogFile} (hes : ∀ e ∈ es, e.Ok ∧ e.events = [])
    (g : CHeaderEvent) : ∃ g',
      (es.map LogFile.bytes).foldlM (refreshAndParse alloc) (reading .new g 0) =
        .ok (reading .new g' 0) ∧
      ∀ f : LogFile, (∀ e ∈ es, e.description.postHeaderLen = f.description.postHeaderLen) →
        Copies f g → Copies f g' := by
  induction es generalizing g with
  | nil => exact ⟨g, rfl, fun f _ hg => hg⟩
  | cons e es ih =>
    obtain ⟨he, hnil⟩ := hes e List.mem_cons_self
    obtain ⟨g1, hstep, hcopies1⟩ := refreshAndParse_headerOnly he hnil g
    obtain ⟨g', hrun, hcopies⟩ := ih (fun x hx => hes x (List.mem_cons_of_mem e hx)) g1
    refine ⟨g', ?_, ?_⟩
    · rw [List.map_cons, List.foldlM_cons, hstep, Res.ok_bind, hrun]
    · rintro f hsame hg
      exact hcopies f (fun x hx => hsame x (List.mem_cons_of_mem e hx))
        (hcopies1 f (hsame e List.mem_cons_self) hg)

/-- Files no longer than the resume offset are not looked into. -/
theorem foldlM_behind {alloc : ℕ → ℕ} {fs : List LogFile} {s : CParseLogEntry} (hptr : s.filePtr ≠ 0)
    (hfs : ∀ f ∈ fs, f.Ok ∧ f.bytes.length ≤ s.filePtr) :
    (fs.map LogFile.bytes).foldlM (refreshAndParse alloc) s = .ok s := by
  induction fs with
  | nil => rfl
  | cons f fs ih =>
    obtain ⟨hf, hle⟩ := hfs f List.mem_cons_self
    have hskip : refreshAndParse alloc s f.bytes = .ok s := by
      rw [refreshAndParse, parseBegin_behind hf.size hptr hle]
      rfl
    rw [List.map_cons, List.foldlM_cons, hskip, Res.ok_bind]
    exact ih fun g hg => hfs g (List.mem_cons_of_mem f hg)

/-- The first file with events is read from its header on, the shorter ones behind it not at all. -/
theorem foldlM_firstEvents {alloc : ℕ → ℕ} {f : LogFile} (hf : f.Ok) (hfree : AddressFree f)
    (hevents : f.events ≠ []) {g : CHeaderEvent} (hg : Copies f g) {out : List CRowData} (hfresh : Emits f out)
    {fs : List LogFile} (hfs : ∀ x ∈ fs, x.Ok ∧ x.bytes.length ≤ f.bytes.length) :
    ∃ s, ((f :: fs).map LogFile.bytes).foldlM (refreshAndParse alloc) (reading .new g 0) = .ok s ∧
      s.out = out := by
  obtain ⟨fresh, s, hs, rfl⟩ := hfresh
  obtain ⟨t, ht, hout⟩ := fresh_run_addr hf hfree hs alloc
  have hk : f.events.take f.events.length ≠ [] := by rwa [List.take_length]
  obtain ⟨u, g', hu, -, hread⟩ := follows_header hf ht hg hk
  rw [List.take_length, ht] at hu
  obtain rfl := Except.ok.inj hu
  have hlong := header_lt_upTo hf hk
  rw [← bytes_eq_upTo] at hread hlong
  have hptr : (reading t g' f.bytes.length).filePtr ≠ 0 := by
    show f.bytes.length ≠ 0
    omega
  refine ⟨reading t g' f.bytes.length, ?_, hout⟩
  rw [List.map_cons, List.foldlM_cons, hread, Res.ok_bind]
  exact foldlM_behind hptr hfs

/-- What fresh parsers make of files without rows events. -/
theorem flatten_emits_nil_iff {fs : List LogFile} {outs : List (List CRowData)}
    (hok : ∀ f ∈ fs, f.Ok) (h : List.Forall₂ Emits fs outs) :
    outs.flatten = [] ↔ ∀ f ∈ fs, ∀ e ∈ f.events, isRowsEvent e = false := by
  induction h with
  | nil => simp
  | @cons f out fs outs hf h ih =>
    rw [List.forall_mem_cons] at hok
    rw [List.flatten_cons, List.append_eq_nil_iff, emits_nil_iff hok.1 hf, ih hok.2,
      List.forall_mem_cons]

/-- The files before the first one with events. -/
def leading (files : List LogFile) : List LogFile := files.takeWhile fun f => f.events.isEmpty

/-- The files from the first one with events on. -/
def fromEvents (files : List LogFile) : List LogFile := files.dropWhile fun f => f.events.isEmpty

/-- No file is longer than the first one with events, whose post-header lengths are those of the files
before it. -/
def NoLonger (files : List LogFile) : Prop :=
  ∀ f ∈ (fromEvents files).head?,
    (∀ e ∈ leading files, e.description.postHeaderLen = f.description.postHeaderLen) ∧
      ∀ g ∈ (fromEvents files).tail, g.bytes.length ≤ f.bytes.length

/-- No file behind the first one with events has a rows event. -/
def Silent (files : List LogFile) : Prop :=
  ∀ g ∈ (fromEvents files).tail, ∀ e ∈ g.events, isRowsEvent e = false

/-- **File after file**: only the first file with events is ever read, so nothing is lost exactly when
the files behind it hold no rows events. Every fresh parser has its own buffers. -/
theorem rotation_iff (alloc : ℕ → ℕ) (files : List LogFile) (hformed : ∀ f ∈ files, f.Formed)
    (hbodied : ∀ f ∈ files, f.Bodied) (hlen : NoLonger files)
    (hfree : ∀ f ∈ (fromEvents files).head?, AddressFree f) (outs : List (List CRowData))
    (hfresh : List.Forall₂ Emits files outs) :
    ∃ s, tailFile alloc (files.map LogFile.bytes) = .ok s ∧ (s.out = outs.flatten ↔ Silent files) := by
  have hok : ∀ f ∈ files, f.Ok := fun f hf => LogFile.ok_iff.mpr ⟨hformed f hf, hbodied f hf⟩
  have hsplit : leading files ++ fromEvents files = files := List.takeWhile_append_dropWhile
  have hleading : ∀ e ∈ leading files, e.Ok ∧ e.events = [] := by
    intro e he
    exact ⟨hok e (hsplit ▸ List.mem_append_left _ he), by simpa using List.mem_takeWhile_imp he⟩
  obtain ⟨g, hrun, hcopies⟩ : ∃ g, (_ : List Bytes).foldlM (refreshAndParse alloc) _ = _ ∧ _ :=
    foldlM_headerOnly hleading .initial
  obtain ⟨outs1, outs2, houts, hfresh1, hfresh2⟩ : ∃ outs1 outs2, outs1 ++ outs2 = outs ∧
      List.Forall₂ Emits (leading files) outs1 ∧
      List.Forall₂ Emits (fromEvents files) outs2 := by
    have hflip := hfresh.flip
    rw [← hsplit] at hflip
    exact ⟨_, _, List.take_append_drop _ outs, (List.forall₂_take_append _ _ _ hflip).flip,
      (List.forall₂_drop_append _ _ _ hflip).flip⟩
  have hnothing : outs1.flatten = [] :=
    (flatten_emits_nil_iff (fun e he => (hleading e he).1) hfresh1).mpr fun e he x hx => by
      rw [(hleading e he).2] at hx
      cases hx
  have hall : tailFile alloc (files.map LogFile.bytes) =
      ((fromEvents files).map LogFile.bytes).foldlM (refreshAndParse alloc) (reading .new g 0) := by
    have happend : files.map LogFile.bytes =
        (leading files).map LogFile.bytes ++ (fromEvents files).map LogFile.bytes := by
      rw [← List.map_append, hsplit]
    rw [tailFile, happend, List.foldlM_append]
    exact (congrArg (· >>= _) hrun).trans (Res.ok_bind _ _)
  have hmem : ∀ f ∈ fromEvents files, f.Ok := fun f hf => hok f (hsplit ▸ List.mem_append_right _ hf)
  have hhead : ∀ f ∈ (fromEvents files).head?, f.events ≠ [] := by
    intro f hf hnil
    have hnot := List.head?_dropWhile_not (fun f : LogFile => f.events.isEmpty) files
    rw [show files.dropWhile _ = fromEvents files from rfl, hf] at hnot
    simp [hnil] at hnot
  rw [hall, ← houts, List.flatten_append, hnothing, List.nil_append]
  unfold NoLonger at hlen
  unfold Silent
  -- the files from the first one with events on
  generalize fromEvents files = rest at *
  rcases hfresh2 with _ | ⟨hf, hfs⟩
  · exact ⟨reading .new g 0, rfl, by simp [reading, CParseLogEntry.new]⟩
  · rename_i f out fs outs2
    obtain ⟨hsame, hle⟩ := hlen f rfl
    obtain ⟨s, hs, hout⟩ := foldlM_firstEvents (hmem f List.mem_cons_self) (hfree f rfl) (hhead f rfl)
      (hcopies f hsame (copies_initial f)) hf fun x hx => ⟨hmem x (List.mem_cons_of_mem f hx), hle x hx⟩
    refine ⟨s, hs, ?_⟩
    rw [hout, List.flatten_cons, List.self_eq_append_right]
    exact flatten_emits_nil_iff (fun x hx => hmem x (List.mem_cons_of_mem f hx)) hfs

/-- The file ends with a STOP or a ROTATE event. -/
def Ends (f : LogFile) : Prop :=
  ∃ e ∈ (f.headers ++ f.events).getLast?,
    EventType.ofCode (typeCode e) = .stop ∨ EventType.ofCode (typeCode e) = .rotate

/-- The STOP event. -/
def stopEvent : Bytes := (event 3 [0, 0, 0, 0]).data.dropLast

/-- A file with one transaction, and a server that is stopped. -/
def stopped (tableId name : UInt8) : LogFile := ⟨[formatDescription], insertOne tableId name ++ [stopEvent]⟩

theorem exists_emits {alloc : ℕ → ℕ} {f : LogFile} (h : (tailFile alloc [f.bytes]).toBool = true) :
    ∃ out, Emits f out := by
  obtain ⟨s, hrun⟩ := Res.exists_ok h
  exact ⟨s.out, alloc, s, hrun, rfl⟩

/-- A restart without a transaction: nothing is lost. -/
theorem rotation_iff_restart : ∃ out1 out2 s, Emits (stopped 1 120) out1 ∧
    Emits ⟨[formatDescription], [stopEvent]⟩ out2 ∧
    tailFile otherHeap [(stopped 1 120).bytes, LogFile.bytes ⟨[formatDescription], [stopEvent]⟩] = .ok s ∧
    s.out = out1 ++ out2 := by
  obtain ⟨out1, h1⟩ := exists_emits (show (tailFile id [(stopped 1 120).bytes]).toBool = true by
    decide)
  obtain ⟨out2, h2⟩ := exists_emits (show (tailFile id [LogFile.bytes ⟨[formatDescription],
    [stopEvent]⟩]).toBool = true by decide)
  have hlen : NoLonger [stopped 1 120, ⟨[formatDescription], [stopEvent]⟩] := by
    rintro f hf
    obtain rfl : stopped 1 120 = f := Option.some.inj hf
    refine ⟨fun e he => absurd he List.not_mem_nil, ?_⟩
    rintro g hg
    obtain rfl := List.mem_singleton.mp hg
    decide
  have hok : ∀ f ∈ [stopped 1 120, ⟨[formatDescription], [stopEvent]⟩], f.Ok := by decide
  have hfree : ∀ f ∈ (fromEvents [stopped 1 120, ⟨[formatDescription], [stopEvent]⟩]).head?,
      AddressFree f := by
    rintro f hf
    obtain rfl : stopped 1 120 = f := Option.some.inj hf
    exact addressFree_of_noTiny (by decide)
  obtain ⟨s, hs, hiff⟩ := rotation_iff otherHeap _ (fun f hf => (LogFile.ok_iff.mp (hok f hf)).1)
    (fun f hf => (LogFile.ok_iff.mp (hok f hf)).2) hlen hfree [out1, out2] (List.Forall₂.cons h1 (List.Forall₂.cons h2 List.Forall₂.nil))
  refine ⟨out1, out2, s, h1, h2, hs, ?_⟩
  rw [hiff.mpr ?_, List.flatten_cons, List.flatten_cons, List.flatten_nil, List.append_nil]
  rintro g hg
  obtain rfl := List.mem_singleton.mp hg
  decide

/-- The transaction behind a restart is lost. -/
theorem restart_lost : ¬ ∀ (alloc : ℕ → ℕ) (files : List LogFile), (∀ f ∈ files, f.Ok ∧ AddressFree f) →
    (∀ f ∈ files.dropLast, Ends f) → ∀ outs, List.Forall₂ Emits files outs →
      ∃ s, tailFile alloc (files.map LogFile.bytes) = .ok s ∧ s.out = outs.flatten := by
  intro h
  obtain ⟨out1, h1⟩ := exists_emits (show (tailFile id [(stopped 1 120).bytes]).toBool = true by
    decide)
  obtain ⟨out2, h2⟩ := exists_emits (show (tailFile id [(stopped 2 121).bytes]).toBool = true by
    decide)
  have hok : ∀ f ∈ [stopped 1 120, stopped 2 121], f.Ok ∧ AddressFree f := by
    rintro f hf
    rcases List.mem_pair.mp hf with rfl | rfl
    · exact ⟨by decide, addressFree_of_noTiny (by decide)⟩
    · exact ⟨by decide, addressFree_of_noTiny (by decide)⟩
  have hends : ∀ f ∈ [stopped 1 120, stopped 2 121].dropLast, Ends f := by
    rintro f hf
    obtain rfl := List.mem_singleton.mp hf
    exact ⟨stopEvent, rfl, Or.inl (by decide)⟩
  obtain ⟨s, hs, hout⟩ := h id _ hok hends [out1, out2]
    (List.Forall₂.cons h1 (List.Forall₂.cons h2 List.Forall₂.nil))
  have hone : (tailFile id ([stopped 1 120, stopped 2 121].map LogFile.bytes)).map
      (fun s => s.out.length) = .ok 1 := by decide
  have hlen1 : out1.length = 1 := (length_emits (by decide) h1).trans (by decide)
  have hlen2 : out2.length = 1 := (length_emits (by decide) h2).trans (by decide)
  rw [hs] at hone
  have hcount : s.out.length = 1 := Except.ok.inj hone
  rw [hout, List.flatten_cons, List.flatten_cons, List.flatten_nil, List.append_nil, List.length_append]
    at hcount
  omega

end DataSync.Binlog.Tailing
