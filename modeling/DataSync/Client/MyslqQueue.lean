import DataSync.Lib.Memory

/-! # The batch of a catch-up run

`CMysqlQueue::execMutilSql`: the first four queries of a run give the rows of the current window, the
others those of the window before it. The batch was meant to hold the former and, table by table, those of
the latter that the batch of the run before did not hold. The names of the tables of the run before stand
in a vector that is local to the call and always empty, so nothing is ever merged: `execBatch_answers` and
`deduplicated_iff`. `mergeTable_rows` says what the merge would do.

The vectors `vecKeysTable`, `vecValuesTable` and `queueFindTableName` are filled together and are one list
of tables here, and so are the three of the window before it. -/

namespace DataSync.Client.MyslqQueue

open DataSync.Lib.Memory

/-- A row, as `getQueryData` reads it. -/
abbrev Row := List String

/-- One index of the three vectors of a batch. -/
structure Table where
  name : String
  keys : List String
  rows : List Row
  deriving DecidableEq, Repr

/-- The rows a batch holds for a table. -/
def rowsOf (batch : List Table) (name : String) : List Row :=
  (batch.filter fun t => t.name = name).flatMap Table.rows

/-- The arguments of a call, and what the server answers to its queries: at every index the columns of the
table and the rows of the query, or a failure. -/
structure Call where
  sqlSelec : List String
  strColum : List String
  tableName : List String
  keysAnswer : ℕ → Option (List String)
  rowsAnswer : ℕ → Option (List Row)

/-- The static vectors `preVecKeysTable` and `preVecValuesTable`, and the batches handed to
`PutOneMessageQueue`. -/
structure State where
  preVecKeysTable : List (List String)
  preVecValuesTable : List (List Row)
  sent : List (List Table)
  deriving DecidableEq, Repr

/-- The state of a new process. -/
def State.new : State := ⟨[], [], []⟩

/-! ### The code -/

/-- `execQuerySql` at an index of the vectors: a table without rows is left out, and `none` is a failed
query. -/
def execQuerySql (c : Call) (batch : List Table) (i : ℕ) : Res (Option (List Table)) := do
  let _ ← Res.ofOption c.sqlSelec[i]?
  let _ ← Res.ofOption c.strColum[i]?
  let tableName ← Res.ofOption c.tableName[i]?
  match c.keysAnswer i, c.rowsAnswer i with
  | some vecOneKey, some vecOneValue =>
    return some (if 0 < vecOneValue.length then batch ++ [⟨tableName, vecOneKey, vecOneValue⟩] else batch)
  | _, _ => return none

/-- The loops over the queries: a failed one ends the call. -/
def execQueries (c : Call) : List ℕ → List Table → Res (Option (List Table))
  | [], batch => .ok (some batch)
  | i :: is, batch => do
    match ← execQuerySql c batch i with
    | none => return none
    | some batch => execQueries c is batch

/-- A whole table of the window before: its rows go to the table of the batch with its name, or the table
to the end of the batch. -/
def addTable (batch : List Table) (t : Table) : List Table :=
  let iRet := (batch.map Table.name).idxOf t.name
  if iRet = batch.length then batch ++ [t]
  else batch.modify iRet fun found => { found with rows := found.rows ++ t.rows }

/-- One table of the window before. For every row that is not among the rows of the run before, the inner
loop adds all rows of the table: its `iValue` hides that of the outer one. -/
def mergeTable (preNames : List String) (preValues : List (List Row)) (batch : List Table) (t : Table) :
    Res (List Table) := do
  let lPre := preNames.idxOf t.name
  if lPre = preNames.length then return addTable batch t
  else
    let preRows ← Res.ofOption preValues[lPre]?
    return t.rows.foldl (fun batch row => if row ∈ preRows then batch else addTable batch t) batch

/-- The batch of a call, or `none` when it leaves by an exception. The vector `PreQeueFindTableName` of the
names of the run before is local to the call. -/
def execBatch (s : State) (c : Call) : Res (Option (List Table)) := do
  let preQeueFindTableName : List String := []
  match ← execQueries c (List.range 4) [] with
  | none => return none
  | some batch =>
    match ← execQueries c (List.range' 4 (c.sqlSelec.length - 4)) [] with
    | none => return none
    | some pro =>
      if 0 < preQeueFindTableName.length then
        return some (← pro.foldlM (mergeTable preQeueFindTableName s.preVecValuesTable) batch)
      else return some batch

/-- `execMutilSql`: the batch is remembered without the names of its tables, and handed on. -/
def execMutilSql (s : State) (c : Call) : Res State := do
  match ← execBatch s c with
  | none => return s
  | some batch =>
    return ⟨batch.map Table.keys, batch.map Table.rows, s.sent ++ [batch]⟩

/-! ### What a call should hand on -/

/-- The batch sent last. -/
def previous (s : State) : List Table := s.sent.getLast?.getD []

/-- The rows the queries at these indices give for a table. -/
def answered (c : Call) (is : List ℕ) (name : String) : List Row :=
  is.flatMap fun i => if c.tableName[i]? = some name then (c.rowsAnswer i).getD [] else []

/-- The rows of the current window. -/
def current (c : Call) (name : String) : List Row := answered c (List.range 4) name

/-- The rows of the window before. -/
def earlier (c : Call) (name : String) : List Row :=
  answered c (List.range' 4 (c.sqlSelec.length - 4)) name

/-- A batch handed on by the call holds, for every table, the rows of the current window and behind them
those of the window before that the last batch did not hold, each once. -/
def Deduplicated (s : State) (c : Call) : Prop :=
  ∃ s', execMutilSql s c = .ok s' ∧ ∀ batch, s'.sent = s.sent ++ [batch] → ∀ name, ∃ extra,
    rowsOf batch name = current c name ++ extra ∧ extra.Nodup ∧
      ∀ r, r ∈ extra ↔ r ∈ earlier c name ∧ r ∉ rowsOf (previous s) name

/-- There are at least four queries, and columns and a name for each. -/
def InRange (c : Call) : Prop :=
  4 ≤ c.sqlSelec.length ∧ c.sqlSelec.length ≤ c.strColum.length ∧ c.sqlSelec.length ≤ c.tableName.length

/-- The index is in range of the three vectors. -/
def Within (c : Call) (i : ℕ) : Prop :=
  i < c.sqlSelec.length ∧ i < c.strColum.length ∧ i < c.tableName.length

/-- A query fails before the call is at an index that is out of range. -/
def Fails (c : Call) : Prop := ∃ i, Within c i ∧ (c.keysAnswer i = none ∨ c.rowsAnswer i = none)

/-! ### The queries -/

/-- The query at the index is made and answered. -/
def Answers (c : Call) (i : ℕ) : Prop :=
  Within c i ∧ c.keysAnswer i ≠ none ∧ c.rowsAnswer i ≠ none

theorem rowsOf_append (xs ys : List Table) (name : String) :
    rowsOf (xs ++ ys) name = rowsOf xs name ++ rowsOf ys name := by
  simp [rowsOf]

section Queries
variable {c : Call} {batch : List Table} {i : ℕ} {is : List ℕ}

theorem execQuerySql_within (hi : Within c i) : ∃ name, c.tableName[i]? = some name ∧
    execQuerySql c batch i = .ok (match c.keysAnswer i, c.rowsAnswer i with
      | some keys, some rows => some (if 0 < rows.length then batch ++ [⟨name, keys, rows⟩] else batch)
      | _, _ => none) := by
  obtain ⟨h1, h2, h3⟩ := hi
  refine ⟨c.tableName[i], List.getElem?_eq_getElem h3, ?_⟩
  unfold execQuerySql
  rw [List.getElem?_eq_getElem h1, List.getElem?_eq_getElem h2, List.getElem?_eq_getElem h3]
  simp only [Res.ofOption_some, Res.ok_bind, Res.pure_eq]
  cases c.keysAnswer i <;> cases c.rowsAnswer i <;> rfl

/-- A query whose index is not within range is never made. -/
theorem within_of_execQuerySql {r : Option (List Table)} (h : execQuerySql c batch i = .ok r) :
    Within c i := by
  unfold execQuerySql at h
  obtain ⟨_, h1, h⟩ := Res.bind_eq_ok.mp h
  obtain ⟨_, h2, h⟩ := Res.bind_eq_ok.mp h
  obtain ⟨_, h3, -⟩ := Res.bind_eq_ok.mp h
  exact ⟨(List.getElem?_eq_some_iff.mp (Res.ofOption_eq_ok.mp h1)).1,
    (List.getElem?_eq_some_iff.mp (Res.ofOption_eq_ok.mp h2)).1,
    (List.getElem?_eq_some_iff.mp (Res.ofOption_eq_ok.mp h3)).1⟩

theorem execQuerySql_none_iff : execQuerySql c batch i = .ok none ↔
    Within c i ∧ (c.keysAnswer i = none ∨ c.rowsAnswer i = none) := by
  constructor
  · intro h
    have hwithin := within_of_execQuerySql h
    obtain ⟨table, -, hrun⟩ := @execQuerySql_within c batch i hwithin
    refine ⟨hwithin, ?_⟩
    rw [hrun] at h
    cases hkeys : c.keysAnswer i <;> cases hrows : c.rowsAnswer i <;> rw [hkeys, hrows] at h <;>
      cases h <;> simp
  · rintro ⟨hwithin, hfail⟩
    obtain ⟨table, -, hrun⟩ := @execQuerySql_within c batch i hwithin
    rw [hrun]
    rcases hfail with hfail | hfail
    · rw [hfail]
    · rw [hfail]
      cases c.keysAnswer i <;> rfl

/-- **One query** that is answered adds its rows to those of its table. -/
theorem execQuerySql_answers (hi : Answers c i) : ∃ batch', execQuerySql c batch i = .ok (some batch') ∧
    ∀ name, rowsOf batch' name = rowsOf batch name ++ answered c [i] name := by
  obtain ⟨hwithin, hkeys, hrows⟩ := hi
  obtain ⟨table, htable, hrun⟩ := @execQuerySql_within c batch i hwithin
  obtain ⟨keys, hkeys⟩ := Option.ne_none_iff_exists'.mp hkeys
  obtain ⟨rows, hrows⟩ := Option.ne_none_iff_exists'.mp hrows
  rw [hkeys, hrows] at hrun
  refine ⟨_, hrun, fun name => ?_⟩
  have hanswered : answered c [i] name = if table = name then rows else [] := by
    simp [answered, htable, hrows]
  rw [hanswered]
  split_ifs with hpos hname hname
  · rw [rowsOf_append]
    simp [rowsOf, hname]
  · rw [rowsOf_append]
    simp [rowsOf, hname]
  · simp at hpos
    simp [hpos]
  · simp

/-- A query that does not throw has been answered. -/
theorem answers_of_execQuerySql {batch' : List Table} (h : execQuerySql c batch i = .ok (some batch')) :
    Answers c i := by
  have hwithin := within_of_execQuerySql h
  have hanswered : ¬ (c.keysAnswer i = none ∨ c.rowsAnswer i = none) := by
    intro hfail
    rw [execQuerySql_none_iff.mpr ⟨hwithin, hfail⟩] at h
    cases h
  exact ⟨hwithin, fun hkeys => hanswered (.inl hkeys), fun hrows => hanswered (.inr hrows)⟩

theorem answered_cons (name : String) : answered c (i :: is) name = answered c [i] name ++ answered c is name := by
  simp [answered]

/-- **All queries** of a loop, when they are answered. -/
theorem execQueries_answers (h : ∀ i ∈ is, Answers c i) : ∃ batch',
    execQueries c is batch = .ok (some batch') ∧
      ∀ name, rowsOf batch' name = rowsOf batch name ++ answered c is name := by
  induction is generalizing batch with
  | nil => exact ⟨batch, rfl, by simp [answered]⟩
  | cons i is ih =>
    obtain ⟨batch1, hone, hrows1⟩ := @execQuerySql_answers c batch i (h i List.mem_cons_self)
    obtain ⟨batch', hrun, hrows⟩ := @ih batch1 fun j hj => h j (List.mem_cons_of_mem i hj)
    refine ⟨batch', ?_, fun name => ?_⟩
    · rw [execQueries, hone, Res.ok_bind]
      exact hrun
    · have hcons : answered c (i :: is) name = _ := answered_cons name
      rw [hrows, hrows1, hcons, List.append_assoc]

/-- A loop that ends has made and answered all its queries. -/
theorem answers_of_execQueries {batch' : List Table} (h : execQueries c is batch = .ok (some batch')) :
    ∀ i ∈ is, Answers c i := by
  induction is generalizing batch with
  | nil => simp
  | cons i is ih =>
    rw [execQueries] at h
    obtain ⟨r, hone, h⟩ := Res.bind_eq_ok.mp h
    rcases r with _ | batch1
    · cases h
    exact List.forall_mem_cons.mpr ⟨answers_of_execQuerySql hone, ih h⟩

/-- A loop that leaves by an exception has met a query that failed. -/
theorem failed_of_execQueries (h : execQueries c is batch = .ok none) :
    ∃ i ∈ is, Within c i ∧ (c.keysAnswer i = none ∨ c.rowsAnswer i = none) := by
  induction is generalizing batch with
  | nil => cases h
  | cons i is ih =>
    rw [execQueries] at h
    obtain ⟨r, hone, h⟩ := Res.bind_eq_ok.mp h
    rcases r with _ | batch1
    · exact ⟨i, List.mem_cons_self, execQuerySql_none_iff.mp hone⟩
    · obtain ⟨j, hj, hfail⟩ := ih h
      exact ⟨j, List.mem_cons_of_mem i hj, hfail⟩

/-- A loop whose indices are within range has a result. -/
theorem execQueries_within (h : ∀ i ∈ is, Within c i) : ∃ r, execQueries c is batch = .ok r := by
  induction is generalizing batch with
  | nil => exact ⟨_, rfl⟩
  | cons i is ih =>
    obtain ⟨table, -, hrun⟩ := @execQuerySql_within c batch i (h i List.mem_cons_self)
    rw [execQueries, hrun, Res.ok_bind]
    split
    · exact ⟨none, rfl⟩
    · exact ih fun j hj => h j (List.mem_cons_of_mem i hj)

/-- A query that fails ends the loop, when the indices up to it are within range. -/
theorem execQueries_fails {rest : List ℕ} (h : ∀ j ∈ is, Within c j) (hi : Within c i)
    (hfail : c.keysAnswer i = none ∨ c.rowsAnswer i = none) :
    execQueries c (is ++ i :: rest) batch = .ok none := by
  induction is generalizing batch with
  | nil =>
    rw [List.nil_append, execQueries, execQuerySql_none_iff.mpr ⟨hi, hfail⟩, Res.ok_bind]
    rfl
  | cons j is ih =>
    obtain ⟨table, -, hrun⟩ := @execQuerySql_within c batch j (h j List.mem_cons_self)
    rw [List.cons_append, execQueries, hrun, Res.ok_bind]
    split
    · rfl
    · exact ih fun k hk => h k (List.mem_cons_of_mem j hk)

end Queries

/-! ### The batch -/

section Batch
variable {s : State} {c : Call}

/-- **A call whose queries are answered** hands on the rows of the current window, and no others. -/
theorem execBatch_answers (h1 : ∀ i ∈ List.range 4, Answers c i)
    (h2 : ∀ i ∈ List.range' 4 (c.sqlSelec.length - 4), Answers c i) :
    ∃ batch, execBatch s c = .ok (some batch) ∧ ∀ name, rowsOf batch name = current c name := by
  obtain ⟨batch, hrun, hrows⟩ := @execQueries_answers c [] _ h1
  obtain ⟨pro, hpro, -⟩ := @execQueries_answers c [] _ h2
  refine ⟨batch, ?_, hrows⟩
  unfold execBatch
  rw [hrun, Res.ok_bind]
  dsimp only
  rw [hpro]
  rfl

/-- A call that hands a batch on has made and answered all its queries. -/
theorem answers_of_execBatch {batch : List Table} (h : execBatch s c = .ok (some batch)) :
    (∀ i ∈ List.range 4, Answers c i) ∧
      ∀ i ∈ List.range' 4 (c.sqlSelec.length - 4), Answers c i := by
  unfold execBatch at h
  obtain ⟨_ | b1, hrun, h⟩ := Res.bind_eq_ok.mp h
  · cases h
  obtain ⟨_ | pro, hpro, h⟩ := Res.bind_eq_ok.mp h
  · cases h
  exact ⟨answers_of_execQueries hrun, answers_of_execQueries hpro⟩

theorem fails_of_execBatch (h : execBatch s c = .ok none) : Fails c := by
  unfold execBatch at h
  obtain ⟨_ | b1, hrun, h⟩ := Res.bind_eq_ok.mp h
  · obtain ⟨i, -, hfail⟩ := failed_of_execQueries hrun
    exact ⟨i, hfail⟩
  obtain ⟨_ | pro, hpro, h⟩ := Res.bind_eq_ok.mp h
  · obtain ⟨i, -, hfail⟩ := failed_of_execQueries hpro
    exact ⟨i, hfail⟩
  · cases h

/-- **A call with a query that fails** leaves by an exception. -/
theorem execBatch_fails (h : Fails c) : execBatch s c = .ok none := by
  obtain ⟨i, hwithin, hfail⟩ := h
  have hbefore : ∀ j < i, Within c j := fun j hj =>
    ⟨hj.trans hwithin.1, hj.trans hwithin.2.1, hj.trans hwithin.2.2⟩
  unfold execBatch
  dsimp only
  rcases Nat.lt_or_ge i 4 with hi | hi
  · have hsplit : List.range 4 = List.range i ++ i :: List.range' (i + 1) (3 - i) := by
      interval_cases i <;> rfl
    rw [hsplit, execQueries_fails (fun j hj => hbefore j (List.mem_range.mp hj)) hwithin hfail]
    rfl
  · obtain ⟨r, hr⟩ := @execQueries_within c [] (List.range 4) fun j hj =>
      hbefore j (lt_of_lt_of_le (List.mem_range.mp hj) hi)
    rw [hr, Res.ok_bind]
    rcases r with _ | batch
    · rfl
    have hlt := hwithin.1
    have hsplit : List.range' 4 (c.sqlSelec.length - 4) =
        List.range' 4 (i - 4) ++ i :: List.range' (i + 1) (c.sqlSelec.length - 1 - i) := by
      have hcons : i :: List.range' (i + 1) (c.sqlSelec.length - 1 - i) =
          List.range' i (c.sqlSelec.length - i) := by
        rw [show c.sqlSelec.length - i = c.sqlSelec.length - 1 - i + 1 by omega, List.range'_succ]
      have happend := @List.range'_append 4 (i - 4) (c.sqlSelec.length - i) 1
      rw [show 4 + 1 * (i - 4) = i by omega,
        show i - 4 + (c.sqlSelec.length - i) = c.sqlSelec.length - 4 by omega] at happend
      rw [hcons, happend]
    dsimp only
    rw [hsplit, execQueries_fails (fun j hj => hbefore j ?_) hwithin hfail]
    · rfl
    · rw [List.mem_range'_1] at hj
      omega

theorem answers_of_inRange (hrange : InRange c) (hfails : ¬ Fails c) {i : ℕ} (hi : i < c.sqlSelec.length) :
    Answers c i := by
  have hwithin : Within c i := ⟨hi, hi.trans_le hrange.2.1, hi.trans_le hrange.2.2⟩
  exact ⟨hwithin, fun hkeys => hfails ⟨i, hwithin, Or.inl hkeys⟩,
    fun hrows => hfails ⟨i, hwithin, Or.inr hrows⟩⟩

theorem inRange_of_answers (h1 : ∀ i ∈ List.range 4, Answers c i)
    (h2 : ∀ i ∈ List.range' 4 (c.sqlSelec.length - 4), Answers c i) : InRange c := by
  obtain ⟨⟨ha, hb, hc⟩, -⟩ := h1 3 (by simp)
  rcases Nat.lt_or_ge 4 c.sqlSelec.length with hlong | hshort
  · obtain ⟨⟨-, hb', hc'⟩, -⟩ := h2 (c.sqlSelec.length - 1) (by rw [List.mem_range'_1]; omega)
    exact ⟨by omega, by omega, by omega⟩
  · exact ⟨by omega, by omega, by omega⟩

end Batch

section Call
variable {s : State} {c : Call}

theorem answered_of_deduplicated (h : Deduplicated s c) :
    Fails c ∨ InRange c ∧ ∀ name, ∀ r ∈ earlier c name, r ∈ rowsOf (previous s) name := by
  obtain ⟨s', hs', hbatch⟩ := h
  unfold execMutilSql at hs'
  obtain ⟨_ | batch, hrun, hs'⟩ := Res.bind_eq_ok.mp hs'
  · exact Or.inl (fails_of_execBatch hrun)
  obtain rfl := Except.ok.inj hs'
  obtain ⟨h1, h2⟩ := answers_of_execBatch hrun
  refine Or.inr ⟨inRange_of_answers h1 h2, fun name r hr => ?_⟩
  obtain ⟨extra, hrows, -, hextra⟩ := hbatch batch rfl name
  obtain ⟨batch', hrun', hcurrent⟩ := @execBatch_answers s c h1 h2
  rw [hrun, Except.ok.injEq, Option.some.injEq] at hrun'
  rw [hrun', hcurrent name, List.self_eq_append_right] at hrows
  by_contra hnew
  have hmem := (hextra r).mpr ⟨hr, hnew⟩
  rw [hrows] at hmem
  cases hmem

theorem deduplicated_of_answered
    (h : Fails c ∨ InRange c ∧ ∀ name, ∀ r ∈ earlier c name, r ∈ rowsOf (previous s) name) : Deduplicated s c := by
  by_cases hfails : Fails c
  · refine ⟨s, ?_, fun batch hsent => ?_⟩
    · rw [execMutilSql, execBatch_fails hfails]
      rfl
    · simp at hsent
  · obtain ⟨hrange, hold⟩ := h.resolve_left hfails
    obtain ⟨batch, hrun, hcurrent⟩ := @execBatch_answers s c
      (fun i hi => answers_of_inRange hrange hfails (lt_of_lt_of_le (List.mem_range.mp hi) hrange.1))
      (fun i hi => answers_of_inRange hrange hfails (by rw [List.mem_range'_1] at hi; omega))
    refine ⟨⟨batch.map Table.keys, batch.map Table.rows, s.sent ++ [batch]⟩, ?_, fun b hsent name => ?_⟩
    · rw [execMutilSql, hrun]
      rfl
    · obtain rfl := List.singleton_injective (List.append_cancel_left hsent)
      refine ⟨[], by rw [hcurrent, List.append_nil], List.nodup_nil, fun r => ?_⟩
      constructor
      · rintro ⟨⟩
      · rintro ⟨hr, hnew⟩
        exact absurd (hold name r hr) hnew

end Call

/-- **A call hands on what it should, exactly when** it fails at a query, or its vectors are long enough and
the last batch holds all rows of the window before. -/
theorem deduplicated_iff (s : State) (c : Call) : Deduplicated s c ↔
    Fails c ∨ InRange c ∧ ∀ name, ∀ r ∈ earlier c name, r ∈ rowsOf (previous s) name :=
  ⟨answered_of_deduplicated, deduplicated_of_answered⟩

/-- **And all calls of a process do, exactly when** each of them meets that condition where it is made. -/
theorem deduplicated_runs_iff (s : State) (calls : List Call) :
    (∀ pre c post, calls = pre ++ c :: post → ∃ t, pre.foldlM execMutilSql s = .ok t ∧ Deduplicated t c) ↔
      ∀ pre c post, calls = pre ++ c :: post → ∀ t, pre.foldlM execMutilSql s = .ok t →
        Fails c ∨ InRange c ∧ ∀ name, ∀ r ∈ earlier c name, r ∈ rowsOf (previous t) name := by
  constructor
  · intro h pre c post hcalls t ht
    obtain ⟨t', ht', hd⟩ := h pre c post hcalls
    obtain rfl := Except.ok.inj (ht.symm.trans ht')
    exact answered_of_deduplicated hd
  · intro h
    -- the calls in front have come to an end
    have hends : ∀ pre c post, calls = pre ++ c :: post → ∃ t, pre.foldlM execMutilSql s = .ok t := by
      intro pre
      induction pre using List.reverseRecOn with
      | nil => exact fun _ _ _ => ⟨s, rfl⟩
      | append_singleton pre d ih =>
        intro c post hcalls
        have hsplit : calls = pre ++ d :: (c :: post) := by rw [hcalls, List.append_assoc, List.singleton_append]
        obtain ⟨t, ht⟩ := ih d (c :: post) hsplit
        obtain ⟨u, hu, -⟩ := deduplicated_of_answered (h pre d (c :: post) hsplit t ht)
        exact ⟨u, by rw [List.foldlM_append, ht, Res.ok_bind, List.foldlM_cons, hu, Res.ok_bind, List.foldlM_nil]; rfl⟩
    intro pre c post hcalls
    obtain ⟨t, ht⟩ := hends pre c post hcalls
    exact ⟨t, ht, deduplicated_of_answered (h pre c post hcalls t ht)⟩

/-- A call on four tables, which gives each table twice: once for the current window and once for the
window before. -/
def fourTables (rowsAnswer : ℕ → List Row) : Call :=
  ⟨List.replicate 8 "select", List.replicate 8 "columns", ["a", "b", "c", "d", "a", "b", "c", "d"],
    fun _ => some ["id"], fun i => some (rowsAnswer i)⟩

/-- Two runs. The window before the second one has the row that was sent and a new one, which is never
sent. -/
theorem lateRow_lost : ¬ ∀ (calls : List Call) (s : State), calls.foldlM execMutilSql .new = .ok s →
    ∀ c, InRange c → Deduplicated s c := by
  intro h
  have hfirst : [fourTables fun i => if i = 0 then [["1"]] else []].foldlM execMutilSql .new =
      .ok ⟨[["id"]], [[["1"]]], [[⟨"a", ["id"], [["1"]]⟩]]⟩ := by decide
  have hsecond : execMutilSql ⟨[["id"]], [[["1"]]], [[⟨"a", ["id"], [["1"]]⟩]]⟩
      (fourTables fun i => if i = 4 then [["1"], ["2"]] else []) =
      .ok ⟨[], [], [[⟨"a", ["id"], [["1"]]⟩], []]⟩ := by decide
  obtain ⟨s', hs', hbatch⟩ := h _ _ hfirst (fourTables fun i => if i = 4 then [["1"], ["2"]] else [])
    ⟨by decide, by decide, by decide⟩
  rw [hsecond] at hs'
  obtain rfl := Except.ok.inj hs'
  obtain ⟨extra, hrows, -, hextra⟩ := hbatch [] rfl "a"
  have hnone : extra = [] := (List.append_eq_nil_iff.mp hrows.symm).2
  have hnew := (hextra ["2"]).mpr ⟨by decide, by decide⟩
  rw [hnone] at hnew
  cases hnew

/-- `readData` passes two queries, but one column query and one name for each table: it never gets a batch
handed on. -/
theorem readData_never_sends {s s' : State} {c : Call} (hname : c.tableName ≠ [])
    (hsql : c.sqlSelec.length = 2 * c.tableName.length) (h : execMutilSql s c = .ok s') : s' = s := by
  unfold execMutilSql at h
  obtain ⟨_ | batch, hrun, h⟩ := Res.bind_eq_ok.mp h
  · exact (Except.ok.inj h).symm
  · obtain ⟨h1, h2⟩ := answers_of_execBatch hrun
    obtain ⟨-, -, hle⟩ := inRange_of_answers h1 h2
    have hpos := List.length_pos_iff.mpr hname
    omega

/-! ### The merge that is never reached -/

theorem addTable_cons (x t : Table) (batch : List Table) : addTable (x :: batch) t =
    if x.name = t.name then { x with rows := x.rows ++ t.rows } :: batch else x :: addTable batch t := by
  unfold addTable
  by_cases hx : x.name = t.name
  · simp [hx]
  · dsimp only
    rw [if_neg hx, List.map_cons, List.idxOf_cons_ne _ hx, List.length_cons]
    by_cases hlast : (batch.map Table.name).idxOf t.name = batch.length
    · rw [if_pos hlast, if_pos (by omega), List.cons_append]
    · rw [if_neg hlast, if_neg (by omega), List.modify_succ_cons]

theorem addTable_names (batch : List Table) (t : Table) : (addTable batch t).map Table.name =
    if t.name ∈ batch.map Table.name then batch.map Table.name else batch.map Table.name ++ [t.name] := by
  induction batch with
  | nil => rfl
  | cons x batch ih =>
    rw [addTable_cons]
    by_cases hx : x.name = t.name
    · simp [hx]
    · have hmem : t.name ∈ (x :: batch).map Table.name ↔ t.name ∈ batch.map Table.name := by
        rw [List.map_cons, List.mem_cons, or_iff_right (Ne.symm hx)]
      rw [if_neg hx, List.map_cons, ih]
      simp only [hmem]
      split_ifs <;> rfl

theorem addTable_nodup {batch : List Table} (h : (batch.map Table.name).Nodup) (t : Table) :
    ((addTable batch t).map Table.name).Nodup := by
  rw [addTable_names]
  split_ifs with hmem
  · exact h
  · rw [List.nodup_append]
    exact ⟨h, List.nodup_singleton _, fun a ha b hb heq =>
      hmem (List.mem_singleton.mp hb ▸ heq ▸ ha)⟩

theorem rowsOf_cons (x : Table) (batch : List Table) (name : String) :
    rowsOf (x :: batch) name = (if x.name = name then x.rows else []) ++ rowsOf batch name := by
  unfold rowsOf
  by_cases hx : x.name = name <;> simp [hx]

/-- A table that is added brings all its rows. -/
theorem addTable_rows {batch : List Table} (h : (batch.map Table.name).Nodup) (t : Table) :
    rowsOf (addTable batch t) t.name = rowsOf batch t.name ++ t.rows := by
  induction batch with
  | nil => simp [addTable, rowsOf]
  | cons x batch ih =>
    rw [List.map_cons, List.nodup_cons] at h
    rw [addTable_cons]
    by_cases hx : x.name = t.name
    · -- no other table has the name
      have hnone : rowsOf batch t.name = [] := by
        unfold rowsOf
        rw [List.filter_eq_nil_iff.mpr, List.flatMap_nil]
        intro y hy heq
        exact h.1 (List.mem_map.mpr ⟨y, hy, (of_decide_eq_true heq).trans hx.symm⟩)
      rw [if_pos hx, rowsOf_cons, rowsOf_cons, hnone]
      simp [hx]
    · rw [if_neg hx, rowsOf_cons, rowsOf_cons, ih h.2, List.append_assoc]

/-- The merge adds a whole table once for every row of it that is new. -/
theorem mergeTable_rows {preNames : List String} {preValues : List (List Row)} {batch batch' : List Table}
    (hnodup : (batch.map Table.name).Nodup) {t : Table} (hpre : t.name ∈ preNames)
    (h : mergeTable preNames preValues batch t = .ok batch') :
    ∃ preRows, preValues[preNames.idxOf t.name]? = some preRows ∧ rowsOf batch' t.name =
      rowsOf batch t.name ++ (List.replicate (t.rows.countP (· ∉ preRows)) t.rows).flatten := by
  have hlt : preNames.idxOf t.name < preNames.length := List.idxOf_lt_length_of_mem hpre
  unfold mergeTable at h
  dsimp only at h
  rw [if_neg hlt.ne] at h
  obtain ⟨preRows, hpreRows, h⟩ := Res.bind_eq_ok.mp h
  obtain rfl := Except.ok.inj h
  refine ⟨preRows, Res.ofOption_eq_ok.mp hpreRows, ?_⟩
  -- over the rows still to be looked at
  suffices hloop : ∀ rows : List Row, ∀ b : List Table, (b.map Table.name).Nodup →
      rowsOf (rows.foldl (fun b row => if row ∈ preRows then b else addTable b t) b) t.name =
        rowsOf b t.name ++ (List.replicate (rows.countP (· ∉ preRows)) t.rows).flatten from
    hloop t.rows batch hnodup
  intro rows
  induction rows with
  | nil => simp
  | cons row rows ih =>
    intro b hb
    rw [List.foldl_cons]
    by_cases hrow : row ∈ preRows
    · rw [if_pos hrow, ih b hb, List.countP_cons_of_neg (by simpa using hrow)]
    · rw [if_neg hrow, ih _ (addTable_nodup hb t), addTable_rows hb t,
        List.countP_cons_of_pos (by simpa using hrow), List.replicate_succ, List.flatten_cons,
        List.append_assoc]

end DataSync.Client.MyslqQueue
