import DataSync.Binlog.StatusVars

/-! # The bytes of a QUERY event

A QUERY event is the common header, a post header of thirteen bytes, the status variables, the schema name
with a NUL behind it, and the statement. A status variable is a code and what the code says: a value of fixed
length, one or two texts behind their lengths, or the names of the databases that are written to.

`skipStatusVar_at`: on the bytes of a variable the loop over the variables moves on by exactly these bytes.
`loadEvent_queryFrame`: `CQueryEvent::loadEvent` reads the thread id and the schema name back. -/

namespace DataSync.Binlog.QueryFormat

open DataSync.Lib.Words DataSync.Lib.Memory DataSync.Binlog.Format DataSync.Binlog.LogEvent
open DataSync.Binlog.RowsFormat DataSync.Binlog.StatusVars

/-! ### Status variables -/

/-- The length of a value, for the codes that fix it. -/
def fixedLen : ℕ → Option ℕ
  | 0 | 3 | 10 => some 4
  | 1 | 9 => some 8
  | 4 => some 6
  | 7 | 8 => some 2
  | 13 => some 3
  | 16 => some 1
  | _ => none

/-- A status variable. -/
inductive StatusVar where
  /-- A value of fixed length. -/
  | fixed (code : UInt8) (value : Bytes) (length : fixedLen code.toNat = some value.length)
  /-- `Q_TIME_ZONE_CODE` and `Q_CATALOG_NZ_CODE`. -/
  | text (code : UInt8) (s : Bytes) (text : code = 5 ∨ code = 6) (short : s.length < 256)
  /-- `Q_CATALOG_CODE`, with a NUL. -/
  | catalog (s : Bytes) (short : s.length < 256)
  /-- `Q_INVOKER`. -/
  | invoker (user host : Bytes) (short : user.length < 256 ∧ host.length < 256)
  /-- `Q_UPDATED_DB_NAMES`. -/
  | updatedDbNames (names : List Bytes) (few : names.length ≤ maxDbsInEventMts)
    (nul : ∀ s ∈ names, 0 ∉ s)

/-- The bytes behind the code. -/
def StatusVar.value : StatusVar → Bytes
  | .fixed _ value _ => value
  | .text _ s _ _ => UInt8.ofNat s.length :: s
  | .catalog s _ => UInt8.ofNat s.length :: (s ++ [0])
  | .invoker user host _ => UInt8.ofNat user.length :: (user ++ UInt8.ofNat host.length :: host)
  | .updatedDbNames names _ _ => UInt8.ofNat names.length :: names.flatMap (· ++ [0])

/-- The code. -/
def StatusVar.code : StatusVar → UInt8
  | .fixed code _ _ => code
  | .text code _ _ _ => code
  | .catalog _ _ => 2
  | .invoker _ _ _ => 11
  | .updatedDbNames _ _ _ => 12

/-- The bytes of a variable. -/
def StatusVar.bytes (v : StatusVar) : Bytes := v.code :: v.value

section Variable
variable {data xs rest : Bytes} {payloadEnd : ℕ}

theorem byteAt_of_append {b : UInt8} {pos : ℕ} (h : data = xs ++ b :: rest) (hpos : pos = xs.length) :
    byteAt data pos = b.toNat := by
  subst hpos
  rw [byteAt, h, List.drop_left]
  simp [leNat]

theorem toNat_ofNat_short {n : ℕ} (h : n < 256) : (UInt8.ofNat n).toNat = n := by
  rw [UInt8.toNat_ofNat', Nat.mod_eq_of_lt h]

/-- The names behind their number. -/
theorem namesLen_at {names : List Bytes} (hnul : ∀ s ∈ names, 0 ∉ s)
    (h : data = xs ++ (names.flatMap (· ++ [0]) ++ rest))
    (hend : xs.length + (names.flatMap (· ++ [0])).length ≤ payloadEnd) :
    namesLen data payloadEnd names.length xs.length = (names.flatMap (· ++ [0])).length := by
  induction names generalizing xs with
  | nil => rfl
  | cons s names ih =>
    rw [List.flatMap_cons] at h hend ⊢
    rw [List.length_append, List.length_append, List.length_singleton] at hend
    have hname : cStr (data.drop xs.length) = s := by
      rw [h, List.drop_left, List.append_assoc, List.append_assoc]
      exact cStr_append_nul (hnul s List.mem_cons_self) _
    have hlen : (xs ++ (s ++ [0])).length = xs.length + (s.length + 1) := by
      rw [List.length_append, List.length_append, List.length_singleton]
    have hrest := @ih (xs ++ (s ++ [0])) (fun t ht => hnul t (List.mem_cons_of_mem s ht))
      (by rw [h]; simp only [List.append_assoc]) (by rw [hlen]; omega)
    rw [hlen] at hrest
    rw [List.length_cons, namesLen, if_pos (by omega), hname, hrest, List.length_append, List.length_append,
      List.length_singleton]

/-- A value of fixed length. -/
theorem fixed_at {code n : ℕ} (pos : ℕ) (h : fixedLen code = some n) :
    codeReads data payloadEnd pos code ≤ n ∧ codeSteps data payloadEnd pos code = n := by
  have hcode : code < 17 := by
    by_contra hge
    obtain ⟨k, rfl⟩ := Nat.exists_eq_add_of_le' (Nat.le_of_not_lt hge)
    cases h
  interval_cases code <;> cases h
  all_goals exact ⟨Nat.le_of_ble_eq_true rfl, rfl⟩

/-- How far a variable is read and stepped over. -/
theorem code_at (v : StatusVar) (h : data = xs ++ (v.value ++ rest))
    (hend : xs.length + v.value.length ≤ payloadEnd) :
    codeReads data payloadEnd xs.length v.code.toNat ≤ v.value.length ∧
      codeSteps data payloadEnd xs.length v.code.toNat = v.value.length := by
  rcases v with ⟨code, value, hlength⟩ | ⟨code, s, hcode, hs⟩ | ⟨s, hs⟩ |
    ⟨user, host, huser, hhost⟩ | ⟨names, hfew, hnul⟩
  · exact fixed_at _ hlength
  · have hbyte : byteAt data xs.length = s.length := by
      rw [byteAt_of_append h rfl, toNat_ofNat_short hs]
    obtain rfl | rfl := hcode
    all_goals exact ⟨Nat.succ_le_succ (Nat.zero_le _), congrArg (· + 1) hbyte⟩
  · have hbyte : byteAt data xs.length = s.length := by
      rw [byteAt_of_append h rfl, toNat_ofNat_short hs]
    have hlen : (StatusVar.catalog s hs).value.length = s.length + 2 := by
      simp [StatusVar.value]
    rw [hlen]
    exact ⟨Nat.le_add_left _ _, congrArg (· + 2) hbyte⟩
  · have hfirst : byteAt data xs.length = user.length := by
      rw [byteAt_of_append h rfl, toNat_ofNat_short huser]
    have h' : data = (xs ++ UInt8.ofNat user.length :: user) ++ UInt8.ofNat host.length :: (host ++ rest) := by
      rw [h, StatusVar.value]
      simp only [List.append_assoc, List.cons_append]
    have hsecond : byteAt data (xs.length + 1 + user.length) = host.length := by
      rw [byteAt_of_append h' (by rw [List.length_append, List.length_cons]; omega), toNat_ofNat_short hhost]
    have hlen : (StatusVar.invoker user host ⟨huser, hhost⟩).value.length =
        user.length + host.length + 2 := by
      simp only [StatusVar.value, List.length_cons, List.length_append]
      omega
    have hreads : codeReads data payloadEnd xs.length 11 = 2 + user.length := by rw [codeReads, hfirst]
    have hsteps : codeSteps data payloadEnd xs.length 11 = 2 + user.length + host.length := by
      rw [codeSteps, hfirst, hsecond]
    rw [hlen, show (StatusVar.invoker user host ⟨huser, hhost⟩).code.toNat = 11 from rfl, hreads, hsteps]
    omega
  · have hmax : maxDbsInEventMts < 256 := by decide
    have hbyte : byteAt data xs.length = names.length := by
      rw [byteAt_of_append h rfl, toNat_ofNat_short (by omega)]
    have hlen : (StatusVar.updatedDbNames names hfew hnul).value.length =
        1 + (names.flatMap (· ++ [0])).length := by
      rw [StatusVar.value, List.length_cons, Nat.add_comm]
    have hnames : dbNamesLen data payloadEnd xs.length = (names.flatMap (· ++ [0])).length := by
      have h' : data = (xs ++ [UInt8.ofNat names.length]) ++ (names.flatMap (· ++ [0]) ++ rest) := by
        rw [h, StatusVar.value]
        simp only [List.append_assoc, List.cons_append, List.nil_append]
      have hat : namesLen data payloadEnd names.length (xs ++ [UInt8.ofNat names.length]).length = _ :=
        namesLen_at hnul h' (by rw [List.length_append, List.length_singleton]; omega)
      rw [List.length_append, List.length_singleton] at hat
      rw [dbNamesLen, hbyte, if_neg (Nat.not_lt.mpr hfew), hat]
    have hreads : codeReads data payloadEnd xs.length 12 = 1 + (names.flatMap (· ++ [0])).length := by
      rw [codeReads, hnames]
    rw [hlen, show (StatusVar.updatedDbNames names hfew hnul).code.toNat = 12 from rfl]
    exact ⟨hreads.le, hreads⟩

/-- **A variable** is read inside its bytes, and the next begins behind them. -/
theorem varNext_at (v : StatusVar) (h : data = xs ++ (v.bytes ++ rest))
    (hend : xs.length + v.bytes.length ≤ payloadEnd) :
    VarFits data payloadEnd xs.length ∧ varNext data payloadEnd xs.length = xs.length + v.bytes.length := by
  have hlen : v.bytes.length = v.value.length + 1 := rfl
  have hcode : byteAt data xs.length = v.code.toNat := byteAt_of_append h rfl
  have h' : data = (xs ++ [v.code]) ++ (v.value ++ rest) := by
    rw [h, StatusVar.bytes]
    simp only [List.append_assoc, List.cons_append, List.nil_append]
  obtain ⟨hreads, hsteps⟩ :
      codeReads data payloadEnd (xs ++ [v.code]).length v.code.toNat ≤ v.value.length ∧
      codeSteps data payloadEnd (xs ++ [v.code]).length v.code.toNat = v.value.length :=
    code_at v h' (by rw [List.length_append, List.length_singleton]; omega)
  rw [List.length_append, List.length_singleton] at hreads hsteps
  have htotal : xs.length + v.bytes.length ≤ data.length := by
    rw [h, List.length_append, List.length_append]
    omega
  refine ⟨?_, ?_⟩
  · rw [VarFits, hcode]
    omega
  · rw [varNext, hcode, hsteps, hlen]
    omega

/-- The bytes of a list of variables. -/
def varsBytes (vars : List StatusVar) : Bytes := vars.flatMap StatusVar.bytes

/-- The variables before one, it, and those behind it. -/
theorem varsBytes_split {vars : List StatusVar} {k : ℕ} (hk : k < vars.length) :
    varsBytes vars = varsBytes (vars.take k) ++ (vars[k].bytes ++ varsBytes (vars.drop (k + 1))) := by
  have hsplit : vars = vars.take k ++ vars[k] :: vars.drop (k + 1) := by
    rw [← List.drop_eq_getElem_cons hk, List.take_append_drop]
  conv_lhs => rw [hsplit]
  rw [varsBytes, List.flatMap_append, List.flatMap_cons]
  rfl

/-- Variable `k`, behind the bytes of those before it, is read inside its own. -/
theorem varNext_take {vars : List StatusVar} (h : data = xs ++ (varsBytes vars ++ rest)) {k : ℕ}
    (hk : k < vars.length) :
    VarFits data (xs.length + (varsBytes vars).length) (xs.length + (varsBytes (vars.take k)).length) ∧
      varNext data (xs.length + (varsBytes vars).length) (xs.length + (varsBytes (vars.take k)).length) =
        xs.length + (varsBytes (vars.take (k + 1))).length := by
  have hsplit := varsBytes_split hk
  have hat : data = (xs ++ varsBytes (vars.take k)) ++ (vars[k].bytes ++
      (varsBytes (vars.drop (k + 1)) ++ rest)) := by
    rw [h, hsplit]
    simp only [List.append_assoc]
  have hlen := congrArg List.length hsplit
  rw [List.length_append, List.length_append] at hlen
  have htake : varsBytes (vars.take (k + 1)) = varsBytes (vars.take k) ++ vars[k].bytes := by
    rw [List.take_succ_eq_append_getElem hk, varsBytes, List.flatMap_append, List.flatMap_singleton]
    rfl
  have hpos : (xs ++ varsBytes (vars.take k)).length = xs.length + (varsBytes (vars.take k)).length :=
    List.length_append
  rw [htake, List.length_append, ← Nat.add_assoc, ← hpos]
  exact varNext_at vars[k] hat (by rw [hpos]; omega)

/-- **Variable `k` begins behind the bytes of those before it.** -/
theorem varPos_at {vars : List StatusVar} (h : data = xs ++ (varsBytes vars ++ rest)) {k : ℕ}
    (hk : k ≤ vars.length) : varPos data (xs.length + (varsBytes vars).length) xs.length k =
      xs.length + (varsBytes (vars.take k)).length := by
  induction k with
  | zero => rfl
  | succ k ih => rw [varPos, ih (Nat.le_of_succ_le hk), (varNext_take h hk).2]

/-- Every variable that begins inside the block is read inside the buffer. -/
theorem varsFit_at {vars : List StatusVar} (h : data = xs ++ (varsBytes vars ++ rest)) (k : ℕ)
    (hin : varPos data (xs.length + (varsBytes vars).length) xs.length k <
      xs.length + (varsBytes vars).length) :
    VarFits data (xs.length + (varsBytes vars).length)
      (varPos data (xs.length + (varsBytes vars).length) xs.length k) := by
  have hk : k < vars.length := by
    by_contra hge
    have hmono := varPos_mono data (xs.length + (varsBytes vars).length) xs.length (Nat.le_of_not_lt hge)
    rw [varPos_at h le_rfl, List.take_length] at hmono
    omega
  rw [varPos_at h hk.le]
  exact (varNext_take h hk).1

end Variable

/-! ### The frame -/

/-- The parts of a QUERY event. -/
structure QueryFrame where
  timestamp : ℕ
  serverId : ℕ
  logPos : ℕ
  flags : ℕ
  threadId : ℕ
  execTime : ℕ
  errorCode : ℕ
  vars : List StatusVar
  schema : Bytes
  statement : Bytes

namespace QueryFrame

/-- The minimal post header: the thread, the time, the length of the schema name and the error. -/
def minimal (f : QueryFrame) : Bytes :=
  leBytes 4 f.threadId ++ (leBytes 4 f.execTime ++ (leBytes 1 f.schema.length ++ leBytes 2 f.errorCode))

/-- The post header, with the length of the status variables. -/
def post (f : QueryFrame) : Bytes := f.minimal ++ leBytes 2 (varsBytes f.vars).length

/-- The length of the event. -/
def size (f : QueryFrame) : ℕ :=
  19 + f.post.length + (varsBytes f.vars).length + f.schema.length + 1 + f.statement.length

/-- The bytes of the event. -/
def bytes (f : QueryFrame) : Bytes :=
  headerBytes f.timestamp 2 f.serverId f.size f.logPos f.flags ++ (f.post ++ (varsBytes f.vars ++
    (f.schema ++ 0 :: f.statement)))

end QueryFrame

/-- A well-formed QUERY event under a format description. -/
structure QueryFrame.Ok (gde : CHeaderEvent) (f : QueryFrame) : Prop where
  timestamp : f.timestamp < 2 ^ 32
  common : gde.commonHeaderLength = 19
  postHeader : gde.postHeader 2 = .ok 13
  threadId : f.threadId < 2 ^ 32
  vars : (varsBytes f.vars).length ≤ maxSizeLogEventStatus
  schema : 0 ∉ f.schema
  size : f.size < 2 ^ 32

/-! ### Loading a frame -/

theorem length_minimal (f : QueryFrame) : f.minimal.length = 11 := by simp [QueryFrame.minimal]

theorem length_post (f : QueryFrame) : f.post.length = 13 := by simp [QueryFrame.post, length_minimal]

/-- What stands in front of the status variables. -/
def front (f : QueryFrame) : Bytes := headerBytes f.timestamp 2 f.serverId f.size f.logPos f.flags ++ f.post

theorem length_front (f : QueryFrame) : (front f).length = 32 := by
  rw [front, List.length_append, length_headerBytes, length_post]

section Load
variable {gde : CHeaderEvent} {f : QueryFrame} (hok : f.Ok gde) {p : Ptr} (hp : p.data = f.bytes ++ [0])
include hp

/-- Behind it stand the variables, the schema name and the statement. -/
theorem vars_frame : p.data = front f ++ (varsBytes f.vars ++ (f.schema ++ 0 :: (f.statement ++ [0]))) := by
  rw [hp, QueryFrame.bytes, front]
  simp only [List.append_assoc, List.cons_append]

include hok

/-- The thread id and the length of the variables, from the post header. -/
theorem post_frame : threadIdOf p.data = f.threadId ∧ varsLength p.data 13 = (varsBytes f.vars).length := by
  have hmax : maxSizeLogEventStatus < 2 ^ 16 := by decide
  have hvars := hok.vars
  have hdata := vars_frame hp
  rw [front, QueryFrame.post] at hdata
  have hthread : p.data = headerBytes f.timestamp 2 f.serverId f.size f.logPos f.flags ++
      leBytes 4 f.threadId ++ (f.minimal.drop 4 ++ (leBytes 2 (varsBytes f.vars).length ++ (varsBytes f.vars ++
        (f.schema ++ 0 :: (f.statement ++ [0]))))) := by
    rw [hdata, QueryFrame.minimal, List.drop_left' (length_leBytes 4 f.threadId)]
    simp only [List.append_assoc]
  have hid := Ptr.le_at hthread (length_headerBytes ..).symm (length_leBytes 4 f.threadId).symm
  have hcount : p.data = (headerBytes f.timestamp 2 f.serverId f.size f.logPos f.flags ++ f.minimal) ++
      leBytes 2 (varsBytes f.vars).length ++
        (varsBytes f.vars ++ (f.schema ++ 0 :: (f.statement ++ [0]))) := by
    rw [hdata, ← List.append_assoc (headerBytes ..)]
  have hlen := Ptr.le_at hcount (show 30 = _ by rw [List.length_append, length_headerBytes, length_minimal])
    (length_leBytes 2 _).symm
  rw [leNat_leBytes_of_lt (by norm_num; exact hok.threadId)] at hid
  rw [leNat_leBytes_of_lt (by norm_num; omega)] at hlen
  exact ⟨(Ptr.le_eq_leNat hid).symm, (Ptr.le_eq_leNat hlen).symm⟩

/-- **Loading a QUERY event** reads its thread id and its schema name back. -/
theorem loadEvent_queryFrame :
    CQueryEvent.loadEvent gde p = .ok (⟨some f.threadId, f.schema⟩, .success) := by
  have hpost := length_post f
  have hheader : parseHeader p = .ok ⟨f.timestamp, 2, f.size⟩ := by
    rw [QueryFrame.bytes, List.append_assoc] at hp
    exact parseHeader_headerBytes hp hok.timestamp (by norm_num) hok.size
  have hfit : gde.commonHeaderLength + 13 ≤ f.size := by
    rw [hok.common]
    unfold QueryFrame.size
    omega
  have hlong : fixedEnd 13 ≤ p.data.length := by
    rw [hp, QueryFrame.bytes, List.append_assoc, List.length_append, length_headerBytes, List.length_append,
      List.length_append, hpost]
    show 32 ≤ _
    omega
  obtain ⟨hid, hlen⟩ := post_frame hok hp
  have hshort : ¬ min (f.size - gde.commonHeaderLength - 13) maxSizeLogEventStatus < varsLength p.data 13 := by
    have hvars := hok.vars
    rw [hlen, hok.common]
    unfold QueryFrame.size
    omega
  have hload : loadVars p f.threadId 32 (varsBytes f.vars).length =
      .ok (⟨some f.threadId, f.schema⟩, .success) := by
    have hdata := vars_frame hp
    obtain ⟨u, hskip⟩ := (exists_skipStatusVars_iff (by rw [hp, List.getLast?_concat]) 32
      (varsBytes f.vars).length).mpr (by
        have hfits := fun k => @varsFit_at p.data (front f) _ f.vars hdata k
        rwa [length_front] at hfits)
    have hschema : (p.add (32 + (varsBytes f.vars).length)).str = .ok f.schema := by
      refine Ptr.str_eq_ok.mpr ⟨hok.schema, f.statement ++ [0], ?_⟩
      rw [← List.append_assoc] at hdata
      exact Ptr.add_at hdata (by rw [List.length_append, length_front])
    rw [loadVars, hskip, Res.ok_bind, hschema, Res.ok_bind, Res.pure_eq]
  rw [query_inside hheader hok.postHeader hfit hlong, if_neg hshort, hid, hlen]
  exact hload

end Load

end DataSync.Binlog.QueryFormat
