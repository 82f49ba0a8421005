import DataSync.Binlog.EventBounds
import DataSync.Binlog.TableNames

/-! # The status variables of a QUERY event

`CQueryEvent::loadEvent` compares the length of the status variables with the size of the event, then steps
over one variable after the other. Each is read as its code says; that it ends inside the block, or inside
the event, is not asked: the one `CHECK_SPACE` there is stands in a comment.

`skipStatusVar_eq_ok`: what one variable reads and where the next begins. `exists_skipStatusVars_iff`: the
loop ends, and reads inside the buffer exactly when the variables that begin inside the block do.
`loads_iff` puts the rest of the event around it. -/

namespace DataSync.Binlog.StatusVars

open DataSync.Lib DataSync.Lib.Words DataSync.Lib.Memory DataSync.Binlog.Format DataSync.Binlog.LogEvent
open DataSync.Binlog.FieldFormat DataSync.Binlog.ParseLogEntry DataSync.Binlog.RowsFormat
open DataSync.Binlog.EventBounds DataSync.Binlog.TableNames

/-! ### One variable -/

section Variable
variable (data : Bytes) (payloadEnd pos : ℕ)

/-- The byte at `pos`. -/
def byteAt : ℕ := leNat ((data.drop pos).take 1)

/-- The bytes of at most `n` names from `pos` on: each up to its NUL, begun inside the block. -/
def namesLen : ℕ → ℕ → ℕ
  | 0, _ => 0
  | n + 1, pos =>
    if pos < payloadEnd then
      (cStr (data.drop pos)).length + 1 + namesLen n (pos + ((cStr (data.drop pos)).length + 1))
    else 0

/-- The bytes of the names behind their number at `pos`. Too many names are not stepped over. -/
def dbNamesLen : ℕ :=
  if maxDbsInEventMts < byteAt data pos then 0
  else namesLen data payloadEnd (byteAt data pos) (pos + 1)

/-- How far a variable of the code `code` is read from `pos`, behind the code. -/
def codeReads (code : ℕ) : ℕ :=
  match code with
  | 1 | 9 => 8
  | 2 | 5 | 6 | 16 => 1
  | 3 | 10 => 4
  | 4 => 6
  | 7 | 8 => 2
  | 11 => 2 + byteAt data pos
  | 12 => 1 + dbNamesLen data payloadEnd pos
  | 13 => 3
  | _ => 0

/-- How far it is stepped over. A code that is not known has no length. -/
def codeSteps (code : ℕ) : ℕ :=
  match code with
  | 0 => 4
  | 2 => byteAt data pos + 2
  | 5 | 6 => byteAt data pos + 1
  | 11 => 2 + byteAt data pos + byteAt data (pos + 1 + byteAt data pos)
  | code => codeReads data payloadEnd pos code

/-- The variable whose code is at `pos` is read inside the buffer. -/
def VarFits : Prop :=
  pos + 1 + codeReads data payloadEnd (pos + 1) (byteAt data pos) ≤ data.length

instance : Decidable (VarFits data payloadEnd pos) := by unfold VarFits; infer_instance

/-- Where the next variable begins. -/
def varNext : ℕ := pos + 1 + codeSteps data payloadEnd (pos + 1) (byteAt data pos)

/-- Where the variable `k` begins. -/
def varPos (start : ℕ) : ℕ → ℕ
  | 0 => start
  | k + 1 => varNext data payloadEnd (varPos start k)

end Variable

theorem lt_varNext (data : Bytes) (payloadEnd pos : ℕ) : pos < varNext data payloadEnd pos := by
  unfold varNext; omega

section Step
variable {p : Ptr} {payloadEnd pos r : ℕ}

theorem read_eq_byteAt {b : UInt8} : p.read pos = .ok b ↔ pos < p.data.length ∧ b.toNat = byteAt p.data pos :=
  Ptr.read_eq_ok_leNat

/-- A byte is read, and what follows depends on its number only. -/
theorem read_bind_eq_ok {α : Type} {f : ℕ → Res α} {a : α} : (p.read pos >>= fun b => f b.toNat) = .ok a ↔
    pos < p.data.length ∧ f (byteAt p.data pos) = .ok a := by
  rw [Res.bind_eq_ok]
  constructor
  · rintro ⟨b, hb, h⟩
    obtain ⟨hlt, hnum⟩ := read_eq_byteAt.mp hb
    exact ⟨hlt, hnum ▸ h⟩
  · rintro ⟨hlt, h⟩
    obtain ⟨b, hb⟩ := read_of_lt hlt
    exact ⟨b, hb, (read_eq_byteAt.mp hb).2 ▸ h⟩

theorem bytes_bind_eq_ok {n : ℕ} (hn : n ≠ 0) : (p.bytes pos n >>= fun _ => .ok (pos + n)) = .ok r ↔
    pos + n ≤ p.data.length ∧ r = pos + n := by
  rw [Res.bind_eq_ok]
  constructor
  · rintro ⟨bs, hbs, h⟩
    exact ⟨(Ptr.bytes_eq_ok.mp hbs).1.resolve_left hn, (Except.ok.inj h).symm⟩
  · rintro ⟨hle, rfl⟩
    obtain ⟨bs, hbs⟩ := bytes_of_le hle
    exact ⟨bs, hbs, rfl⟩

/-- A text behind its length, and `extra` bytes more. -/
theorem prefixed_eq_ok (extra : ℕ) : (p.read pos >>= fun b => .ok (pos + b.toNat + extra)) = .ok r ↔
    pos + 1 ≤ p.data.length ∧ r = pos + (byteAt p.data pos + extra) := by
  rw [read_bind_eq_ok (f := fun n => .ok (pos + n + extra)), Except.ok.injEq, Nat.add_assoc, eq_comm (a := r)]
  rfl

/-- Two texts, each behind its length. -/
theorem invoker_eq_ok : (p.read pos >>= fun b => p.read (pos + 1 + b.toNat) >>= fun b' =>
      .ok (pos + 1 + b.toNat + 1 + b'.toNat)) = .ok r ↔
    pos + (2 + byteAt p.data pos) ≤ p.data.length ∧
      r = pos + (2 + byteAt p.data pos + byteAt p.data (pos + 1 + byteAt p.data pos)) := by
  rw [read_bind_eq_ok (f := fun n => p.read (pos + 1 + n) >>= fun b' => .ok (pos + 1 + n + 1 + b'.toNat)),
    read_bind_eq_ok (f := fun m => .ok (pos + 1 + byteAt p.data pos + 1 + m)), Except.ok.injEq]
  omega

/-- A byte that is read and not looked at. -/
theorem one_eq_ok : (p.read pos >>= fun _ => .ok (pos + 1)) = .ok r ↔
    pos + 1 ≤ p.data.length ∧ r = pos + 1 := by
  rw [read_bind_eq_ok (f := fun _ => .ok (pos + 1)), Except.ok.injEq, eq_comm (a := r)]
  rfl

variable (hnul : p.data.getLast? = some 0)
include hnul

/-- In a buffer with a NUL at its end a string lies inside when its first byte does. -/
theorem str_add_eq_ok {s : Bytes} :
    (p.add pos).str = .ok s ↔ pos < p.data.length ∧ s = cStr (p.data.drop pos) := by
  unfold Ptr.str
  rw [Ptr.add_data]
  rcases Nat.lt_or_ge pos p.data.length with hlt | hge
  · have hmem : (0 : UInt8) ∈ p.data.drop pos := by
      have hlast : (p.data.drop pos).getLast? = some 0 := by rw [List.getLast?_drop, if_neg (by omega), hnul]
      exact List.mem_of_getLast? hlast
    rw [if_pos hmem, Except.ok.injEq, eq_comm]
    exact (and_iff_right hlt).symm
  · rw [List.drop_eq_nil_of_le hge, if_neg (List.not_mem_nil)]
    constructor
    · intro h; cases h
    · rintro ⟨hlt, -⟩; omega

/-- A string and its NUL end inside. -/
theorem cStr_end_le (hlt : pos < p.data.length) :
    pos + ((cStr (p.data.drop pos)).length + 1) ≤ p.data.length := by
  obtain ⟨-, rest, hdata⟩ := Ptr.str_eq_ok.mp ((str_add_eq_ok hnul).mpr ⟨hlt, rfl⟩)
  have hlen := congrArg List.length hdata
  rw [Ptr.add_data, List.length_drop, List.length_append, List.length_cons] at hlen
  omega

/-- The loop over the names. -/
theorem skipDbNames_eq_ok {n : ℕ} (hpos : pos ≤ p.data.length) : skipDbNames p payloadEnd n pos = .ok r ↔
    pos + namesLen p.data payloadEnd n pos ≤ p.data.length ∧ r = pos + namesLen p.data payloadEnd n pos := by
  induction n generalizing pos with
  | zero => simp [skipDbNames, namesLen, hpos, eq_comm]
  | succ n ih =>
    unfold skipDbNames namesLen
    split_ifs with hlt
    · rw [Res.bind_eq_ok]
      simp only [str_add_eq_ok hnul]
      constructor
      · rintro ⟨_, ⟨hin, rfl⟩, h⟩
        rw [Nat.add_assoc, Nat.add_comm 1] at h
        have hrest := (ih (cStr_end_le hnul hin)).mp h
        omega
      · rintro ⟨hle, hr⟩
        have hin : pos < p.data.length := by omega
        refine ⟨_, ⟨hin, rfl⟩, ?_⟩
        rw [Nat.add_assoc, Nat.add_comm 1]
        exact (ih (cStr_end_le hnul hin)).mpr ⟨by omega, by omega⟩
    · simp [hpos, eq_comm]

/-- The names behind their number. -/
theorem dbNames_eq_ok : (p.read pos >>= fun b =>
      if maxDbsInEventMts < b.toNat then .ok (pos + 1) else skipDbNames p payloadEnd b.toNat (pos + 1)) =
        .ok r ↔
    pos + (1 + dbNamesLen p.data payloadEnd pos) ≤ p.data.length ∧
      r = pos + (1 + dbNamesLen p.data payloadEnd pos) := by
  rw [read_bind_eq_ok (f := fun n =>
    if maxDbsInEventMts < n then .ok (pos + 1) else skipDbNames p payloadEnd n (pos + 1))]
  unfold dbNamesLen
  rcases Nat.lt_or_ge pos p.data.length with hlt | hge
  · split_ifs with hmany
    · rw [Except.ok.injEq]; omega
    · rw [skipDbNames_eq_ok hnul (Nat.succ_le_of_lt hlt), ← Nat.add_assoc]
      exact and_iff_right hlt
  · omega

/-- **A variable behind its code**: the bytes it reads must be there. -/
theorem skipVar_eq_ok {code : ℕ} (hpos : pos ≤ p.data.length) :
    skipVar p payloadEnd pos code = .ok r ↔
      pos + codeReads p.data payloadEnd pos code ≤ p.data.length ∧
        r = pos + codeSteps p.data payloadEnd pos code := by
  have hskip (n : ℕ) (hn : n ≠ 0) := @bytes_bind_eq_ok p pos r n hn
  have hnone (n : ℕ) : Except.ok (pos + n) = (Except.ok r : Res ℕ) ↔ pos ≤ p.data.length ∧ r = pos + n := by
    rw [Except.ok.injEq, eq_comm]
    exact (and_iff_right hpos).symm
  rcases Nat.lt_or_ge code 17 with hcode | hcode
  · interval_cases code
    · exact hnone 4
    · exact hskip 8 (by norm_num)
    · exact prefixed_eq_ok 2
    · exact hskip 4 (by norm_num)
    · exact hskip 6 (by norm_num)
    · exact prefixed_eq_ok 1
    · exact prefixed_eq_ok 1
    · exact hskip 2 (by norm_num)
    · exact hskip 2 (by norm_num)
    · exact hskip 8 (by norm_num)
    · exact hskip 4 (by norm_num)
    · exact invoker_eq_ok
    · exact dbNames_eq_ok hnul
    · exact hskip 3 (by norm_num)
    · exact hnone 0
    · exact hnone 0
    · exact one_eq_ok
  · obtain ⟨k, rfl⟩ := Nat.exists_eq_add_of_le' hcode
    exact hnone 0

/-- **One status variable**: what it reads lies inside, and the next begins where its code says. -/
theorem skipStatusVar_eq_ok : skipStatusVar p payloadEnd pos = .ok r ↔
    VarFits p.data payloadEnd pos ∧ r = varNext p.data payloadEnd pos := by
  rw [skipStatusVar, read_bind_eq_ok (f := fun n => skipVar p payloadEnd (pos + 1) n)]
  unfold VarFits varNext
  rcases Nat.lt_or_ge pos p.data.length with hlt | hge
  · rw [skipVar_eq_ok hnul (Nat.succ_le_of_lt hlt)]
    exact and_iff_right hlt
  · omega

end Step

/-! ### The loop over the variables -/

/-- One round of the loop. -/
def statusRound (p : Ptr) (payloadEnd pos : ℕ) : Res (ℕ ⊕ Unit) :=
  if pos < payloadEnd then .inl <$> skipStatusVar p payloadEnd pos else .ok (.inr ())

theorem skipStatusVars_eq_run (p : Ptr) (payloadEnd fuel pos : ℕ) :
    skipStatusVars p payloadEnd fuel pos = Loop.run (statusRound p payloadEnd) fuel pos := by
  induction fuel generalizing pos with
  | zero => rfl
  | succ fuel ih =>
    unfold skipStatusVars Loop.run statusRound
    split_ifs with hlt
    · cases hvar : skipStatusVar p payloadEnd pos with
      | error e => rfl
      | ok next =>
        rw [Res.ok_bind, Res.map_ok, Res.ok_bind]
        exact ih next
    · rfl

section Rounds
variable {p : Ptr} {payloadEnd start k pos next : ℕ} (hnul : p.data.getLast? = some 0)

theorem varPos_mono (data : Bytes) (payloadEnd start : ℕ) {j k : ℕ} (hjk : j ≤ k) :
    varPos data payloadEnd start j ≤ varPos data payloadEnd start k := by
  induction hjk with
  | refl => exact Nat.le_refl _
  | step _ ih => exact ih.trans (lt_varNext _ _ _).le

theorem statusRound_inr_iff {u : Unit} : statusRound p payloadEnd pos = .ok (.inr u) ↔ payloadEnd ≤ pos := by
  unfold statusRound
  split_ifs with hlt
  · cases skipStatusVar p payloadEnd pos <;> simp [Functor.map, Except.map, hlt]
  · simpa using hlt

include hnul

theorem statusRound_inl_iff : statusRound p payloadEnd pos = .ok (.inl next) ↔
    pos < payloadEnd ∧ VarFits p.data payloadEnd pos ∧ next = varNext p.data payloadEnd pos := by
  rw [← skipStatusVar_eq_ok hnul]
  unfold statusRound
  split_ifs with hlt
  · cases skipStatusVar p payloadEnd pos <;> simp [Functor.map, Except.map, hlt]
  · simp [hlt]

/-- **Round `k` begins at variable `k`**, when the variables before it begin inside the block and are read
inside the buffer. -/
theorem reaches_iff : Loop.Reaches (statusRound p payloadEnd) k start pos ↔
    pos = varPos p.data payloadEnd start k ∧ ∀ j < k, varPos p.data payloadEnd start j < payloadEnd ∧
      VarFits p.data payloadEnd (varPos p.data payloadEnd start j) := by
  induction k generalizing pos with
  | zero =>
    constructor
    · rintro ⟨⟩
      exact ⟨rfl, fun j hj => absurd hj (Nat.not_lt_zero j)⟩
    · rintro ⟨rfl, -⟩
      exact .refl _
  | succ k ih =>
    constructor
    · intro h
      obtain ⟨last, hlast, hround⟩ := h.succ_cases
      obtain ⟨rfl, hbefore⟩ := ih.mp hlast
      obtain ⟨hlt, hfits, rfl⟩ := (statusRound_inl_iff hnul).mp hround
      refine ⟨rfl, fun j hj => ?_⟩
      obtain hj | rfl := Nat.lt_succ_iff_lt_or_eq.mp hj
      · exact hbefore j hj
      · exact ⟨hlt, hfits⟩
    · rintro ⟨rfl, hall⟩
      obtain ⟨hlt, hfits⟩ := hall k (Nat.lt_succ_self k)
      exact (ih.mpr ⟨rfl, fun j hj => hall j (by omega)⟩).tail
        ((statusRound_inl_iff hnul).mpr ⟨hlt, hfits, rfl⟩)

/-- **The loop ends, and reads inside the buffer** exactly when every variable that begins inside the
block does. Every round moves on by its code at least. -/
theorem exists_skipStatusVars_iff (start len : ℕ) :
    (∃ u, skipStatusVars p (start + len) (len + 1) start = .ok u) ↔
      ∀ k, varPos p.data (start + len) start k < start + len →
        VarFits p.data (start + len) (varPos p.data (start + len) start k) := by
  rw [skipStatusVars_eq_run]
  constructor
  · rintro ⟨u, hrun⟩ j hj
    obtain ⟨k, -, pos, hreach, hleave⟩ := Loop.run_ok_iff.mp hrun
    obtain ⟨rfl, hall⟩ := (reaches_iff hnul).mp hreach
    rw [statusRound_inr_iff] at hleave
    rcases Nat.lt_or_ge j k with hjk | hkj
    · exact (hall j hjk).2
    · have := varPos_mono p.data (start + len) start hkj
      omega
  · intro hfits
    refine Loop.exists_run_of_measure (μ := fun pos => min (pos - start) len) ?_ ?_ ?_
    · intro k pos hreach
      obtain ⟨rfl, -⟩ := (reaches_iff hnul).mp hreach
      by_cases hlt : varPos p.data (start + len) start k < start + len
      · exact ⟨_, (statusRound_inl_iff hnul).mpr ⟨hlt, hfits k hlt, rfl⟩⟩
      · exact ⟨.inr (), statusRound_inr_iff.mpr (by omega)⟩
    · intro k pos next hreach hround
      obtain ⟨rfl, -⟩ := (reaches_iff hnul).mp hreach
      obtain ⟨hlt, -, rfl⟩ := (statusRound_inl_iff hnul).mp hround
      have hnext := lt_varNext p.data (start + len) (varPos p.data (start + len) start k)
      have hstart := varPos_mono p.data (start + len) start (Nat.zero_le k)
      rw [varPos] at hstart
      show min (_ - start) len < min (_ - start) len
      omega
    · intro k pos _
      exact Nat.lt_succ_of_le (Nat.min_le_right _ _)

end Rounds

/-! ### The event -/

section Layout
variable (gde : CHeaderEvent) (data : Bytes) (post : ℕ)

/-- The thread id that stands in the event. -/
def threadIdOf : ℕ := leNat ((data.drop logEventHeaderLen).take 4)

/-- The length of the schema name. -/
def schemaLen : ℕ := byteAt data (logEventHeaderLen + 8)

/-- The length of the status variables. A post header of the minimal length does not give one. -/
def varsLength : ℕ :=
  if post ≠ queryHeaderMinimalLen then leNat ((data.drop (logEventHeaderLen + 11)).take 2) else 0

/-- Where the status variables begin. -/
def varsStart : ℕ := logEventHeaderLen + post

/-- Where the schema name begins. -/
def varsEnd : ℕ := varsStart post + varsLength data post

/-- How far the fields in front of the status variables are read. -/
def fixedEnd : ℕ := logEventHeaderLen + if post ≠ queryHeaderMinimalLen then 13 else 11

/-- Every variable that begins inside the block is read inside the buffer. -/
def VarsFit : Prop :=
  ∀ k, varPos data (varsEnd data post) (varsStart post) k < varsEnd data post →
    VarFits data (varsEnd data post) (varPos data (varsEnd data post) (varsStart post) k)

/-- The schema name has no NUL among its bytes and one behind them. -/
def SchemaFits : Prop :=
  0 ∉ (data.drop (varsEnd data post)).take (schemaLen data) ∧
    data[varsEnd data post + schemaLen data]? = some 0

/-- **What the bytes of a QUERY event of `size` bytes must be**: it is found too short, or its fields,
each of its status variables and its schema name lie in the buffer. -/
def QueryInside (size : ℕ) : Prop :=
  19 ≤ data.length ∧ ∃ post, gde.postHeader (typeOf data) = .ok post ∧
    (size < gde.commonHeaderLength + post ∨ fixedEnd post ≤ data.length ∧
      (min (size - gde.commonHeaderLength - post) maxSizeLogEventStatus < varsLength data post ∨
        VarsFit data post ∧ SchemaFits data post))

end Layout

/-- The event has the thread id and the schema name that stand in its buffer. -/
structure Stands (gde : CHeaderEvent) (p : Ptr) (ev : CQueryEvent) : Prop where
  threadId : p.le logEventHeaderLen 4 = .ok (threadIdOf p.data) ∧ ev.threadId = some (threadIdOf p.data)
  schemaName : ∃ post, gde.postHeader (typeOf p.data) = .ok post ∧
    p.bytes (varsEnd p.data post) (schemaLen p.data) = .ok ev.schemaName

/-- **`loadEvent` ends, reads nothing outside the buffer**, and gives an error or what stands in the
event. -/
def Loads (gde : CHeaderEvent) (p : Ptr) : Prop :=
  ∃ ev state, CQueryEvent.loadEvent gde p = .ok (ev, state) ∧ (state = .success → Stands gde p ev)

/-- What `loadEvent` does behind the checks. -/
def loadVars (p : Ptr) (threadId start len : ℕ) : Res (CQueryEvent × LoadState) := do
  skipStatusVars p (start + len) (len + 1) start
  return (⟨some threadId, ← (p.add (start + len)).str⟩, .success)

section Load
variable {gde : CHeaderEvent} {p : Ptr} {header : EventHeader} {post : ℕ}
  (hheader : parseHeader p = .ok header) (hpost : gde.postHeader header.eventType = .ok post)
include hheader hpost

theorem query_small (hsmall : header.eventSize < gde.commonHeaderLength + post) :
    CQueryEvent.loadEvent gde p = .ok (⟨none, []⟩, .eventLengthTooSmall) := by
  unfold CQueryEvent.loadEvent
  simp only [hheader, hpost, Res.ok_bind, if_pos hsmall, Res.pure_eq]

variable (hsize : gde.commonHeaderLength + post ≤ header.eventSize)
include hsize

theorem query_inside (hin : fixedEnd post ≤ p.data.length) : CQueryEvent.loadEvent gde p =
    if min (header.eventSize - gde.commonHeaderLength - post) maxSizeLogEventStatus < varsLength p.data post
    then .ok (⟨some (threadIdOf p.data), []⟩, .eventLengthTooSmall)
    else loadVars p (threadIdOf p.data) (varsStart post) (varsLength p.data post) := by
  have hfixed : logEventHeaderLen + 11 ≤ p.data.length := by
    unfold fixedEnd at hin
    split_ifs at hin <;> omega
  have hid : p.le logEventHeaderLen 4 = .ok (threadIdOf p.data) := Ptr.le_eq_ok.mpr ⟨.inr (by omega), rfl⟩
  have hread : p.bytes logEventHeaderLen queryHeaderMinimalLen = .ok _ :=
    Ptr.bytes_eq_ok.mpr ⟨.inr hfixed, rfl⟩
  unfold CQueryEvent.loadEvent
  simp only [hheader, hpost, Res.ok_bind, if_neg (not_lt.mpr hsize), hid, hread]
  by_cases hfield : post ≠ queryHeaderMinimalLen
  · have hlen : p.le (logEventHeaderLen + 11) 2 = .ok (varsLength p.data post) := by
      unfold fixedEnd at hin
      rw [if_pos hfield] at hin
      exact Ptr.le_eq_ok.mpr ⟨.inr (by omega), by rw [varsLength, if_pos hfield]⟩
    rw [if_pos hfield, hlen, Res.ok_bind]
    rfl
  · have hlen : varsLength p.data post = 0 := by rw [varsLength, if_neg hfield]
    rw [if_neg hfield, Res.pure_eq, Res.ok_bind, hlen]
    rfl

theorem query_outside (hout : p.data.length < fixedEnd post) :
    CQueryEvent.loadEvent gde p = .error .fault := by
  unfold CQueryEvent.loadEvent
  simp only [hheader, hpost, Res.ok_bind, if_neg (not_lt.mpr hsize)]
  rcases Res.Ends.fault_or_ok (Ptr.ends_le p logEventHeaderLen 4) with hbad | ⟨id, hid⟩
  · rw [hbad, Res.error_bind]
  rw [hid, Res.ok_bind]
  rcases Res.Ends.fault_or_ok (Ptr.ends_bytes p logEventHeaderLen queryHeaderMinimalLen) with hbad | ⟨bs, hbs⟩
  · rw [hbad, Res.error_bind]
  rw [hbs, Res.ok_bind]
  have hread : logEventHeaderLen + 11 ≤ p.data.length :=
    (Ptr.bytes_eq_ok.mp hbs).1.resolve_left (by decide)
  unfold fixedEnd at hout
  split_ifs at hout ⊢ with hpost'
  · rw [Ptr.le_outside (by omega) (by norm_num), Res.error_bind]
  · omega

end Load

/-- Behind the checks the event is loaded as it stands when its variables and its schema name fit. -/
theorem loadVars_iff {gde : CHeaderEvent} {p : Ptr} {post : ℕ} (hnul : p.data.getLast? = some 0)
    (hpost : gde.postHeader (typeOf p.data) = .ok post) (hin : fixedEnd post ≤ p.data.length) :
    (∃ ev state, loadVars p (threadIdOf p.data) (varsStart post) (varsLength p.data post) = .ok (ev, state) ∧
        (state = .success → Stands gde p ev)) ↔ VarsFit p.data post ∧ SchemaFits p.data post := by
  have hvars := exists_skipStatusVars_iff hnul (varsStart post) (varsLength p.data post)
  unfold loadVars
  constructor
  · rintro ⟨ev, state, h, hstands⟩
    obtain ⟨u, hskip, h⟩ := Res.bind_eq_ok.mp h
    obtain ⟨name, hname, h⟩ := Res.bind_eq_ok.mp h
    obtain ⟨rfl, rfl⟩ := Prod.mk.inj (Except.ok.inj h)
    obtain ⟨-, post', hpost', hbytes⟩ := hstands rfl
    obtain rfl := Except.ok.inj (hpost.symm.trans hpost')
    obtain ⟨rfl, hschema⟩ := Ptr.str_eq_bytes_iff.mp ⟨hname, hbytes⟩
    exact ⟨hvars.mp ⟨u, hskip⟩, hschema⟩
  · rintro ⟨hfit, hschema⟩
    obtain ⟨u, hskip⟩ := hvars.mpr hfit
    obtain ⟨hname, hbytes⟩ := Ptr.str_eq_bytes_iff.mpr ⟨rfl, hschema⟩
    have hid : p.le logEventHeaderLen 4 = .ok (threadIdOf p.data) := by
      refine Ptr.le_eq_ok.mpr ⟨.inr ?_, rfl⟩
      unfold fixedEnd at hin
      split_ifs at hin <;> omega
    refine ⟨⟨some (threadIdOf p.data), _⟩, .success, ?_, fun _ => ⟨⟨hid, rfl⟩, post, hpost, hbytes⟩⟩
    rw [hskip, Res.ok_bind]
    show ((p.add (varsEnd p.data post)).str >>= _) = _
    rw [hname]
    rfl

/-- **A QUERY event is parsed inside the event** exactly when everything it declares lies there: nothing
compares a status variable with the end of the block. -/
theorem loads_iff {p : Ptr} {size : ℕ} (hbuf : EventBuffer p size) (gde : CHeaderEvent) :
    Loads gde p ↔ QueryInside gde p.data size := by
  have hnul : p.data.getLast? = some 0 := by
    rw [List.getLast?_eq_getElem?, hbuf.length]
    exact hbuf.nul
  have hfault (h : CQueryEvent.loadEvent gde p = .error .fault) : ¬ Loads gde p := by
    rintro ⟨ev, state, hload, -⟩
    rw [h] at hload
    cases hload
  obtain ⟨hbad, hload⟩ | ⟨h19, timestamp, post, hheader, hpost⟩ := headers_fault_or_ok hbuf gde
  · refine iff_of_false (hfault (hload _)) ?_
    rintro ⟨h19, post, hpost, -⟩
    rw [hbad h19] at hpost
    cases hpost
  have hlayout : QueryInside gde p.data size ↔ (size < gde.commonHeaderLength + post ∨
      fixedEnd post ≤ p.data.length ∧
      (min (size - gde.commonHeaderLength - post) maxSizeLogEventStatus < varsLength p.data post ∨
        VarsFit p.data post ∧ SchemaFits p.data post)) := by
    rw [QueryInside, Res.exists_eq_ok_and hpost, and_iff_right h19]
  rw [hlayout]
  rcases Nat.lt_or_ge size (gde.commonHeaderLength + post) with hsmall | hsize
  · refine iff_of_true ⟨_, _, query_small hheader hpost hsmall, ?_⟩ (.inl hsmall)
    intro h; cases h
  rcases Nat.lt_or_ge p.data.length (fixedEnd post) with hout | hin
  · refine iff_of_false (hfault (query_outside hheader hpost hsize hout)) ?_
    rintro (hsmall | ⟨hin, -⟩) <;> omega
  have hload := query_inside hheader hpost hsize hin
  unfold Loads
  rw [hload]
  dsimp only
  split_ifs with hlong
  · refine iff_of_true ⟨_, _, rfl, ?_⟩ (.inr ⟨hin, .inl hlong⟩)
    intro h; cases h
  · rw [loadVars_iff hnul hpost hin]
    constructor
    · exact fun h => .inr ⟨hin, .inr h⟩
    · rintro (hsmall | ⟨-, hlong' | h⟩)
      · omega
      · exact absurd hlong' hlong
      · exact h

/-- The QUERY event `BEGIN` of thread 7 in the schema `db`, with the flags and the character set among
its status variables. -/
def schemaQuery : Ptr :=
  event 2 [7, 0, 0, 0, 0, 0, 0, 0, 2, 0, 0, 12, 0, 0, 0, 0, 0, 0, 4, 33, 0, 33, 0, 33, 0, 100, 98, 0,
    66, 69, 71, 73, 78, 0, 0, 0, 0]

/-- It is loaded as it stands. -/
theorem schemaQuery_loads : EventBuffer schemaQuery 56 ∧ Loads description schemaQuery ∧
    QueryInside description schemaQuery.data 56 := by
  have hbuf : EventBuffer schemaQuery 56 := ⟨by decide, by decide, by decide⟩
  have hload : Loads description schemaQuery :=
    ⟨⟨some 7, [100, 98]⟩, .success, by decide, fun _ => ⟨⟨by decide, rfl⟩, 13, by decide, by decide⟩⟩
  exact ⟨hbuf, hload, (loads_iff hbuf description).mp hload⟩

/-- A QUERY event whose one status variable is a SQL mode without its eight bytes. -/
def cutQuery : Ptr := event 2 [7, 0, 0, 0, 0, 0, 0, 0, 0, 0, 0, 1, 0, 1]

/-- **A variable at the end of the block** is read from behind the event. -/
theorem cutQuery_outside : EventBuffer cutQuery 33 ∧
    CQueryEvent.loadEvent description cutQuery = .error .fault ∧ ¬ Loads description cutQuery := by
  have hload : CQueryEvent.loadEvent description cutQuery = .error .fault := by decide
  refine ⟨⟨by decide, by decide, by decide⟩, hload, ?_⟩
  rintro ⟨ev, state, h, -⟩
  rw [hload] at h
  cases h

end DataSync.Binlog.StatusVars
