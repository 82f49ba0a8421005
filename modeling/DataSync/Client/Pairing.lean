import DataSync.Client.IncrementExport
import DataSync.Client.MyslqQueue

/-! # The queries and their tables

`readData` hands `execMutilSql` the queries for the rows, two to a table, and the queries for the columns
and the names, one to a table. `execMutilSql` reads the three vectors at the same index, takes the first
four queries for the current window and goes on to the number of queries for the rows.

`paired_iff`: the indices are in range and the queries in their windows only when a query fails early
enough to end the call. -/

namespace DataSync.Client.Pairing

open DataSync.Lib.Memory DataSync.Client.MyslqQueue
open DataSync.Client.IncrementExport (Clock Config Select columnSql currentSelects earlierSelects getSelectSql)

/-- The set a query is executed for. -/
inductive Source where
  | current | earlier
  deriving DecidableEq, Repr

instance (c : Call) (i : ℕ) : Decidable (Answers c i) :=
  inferInstanceAs (Decidable ((i < c.sqlSelec.length ∧ i < c.strColum.length ∧ i < c.tableName.length) ∧
    c.keysAnswer i ≠ none ∧ c.rowsAnswer i ≠ none))

/-- The indices at which a loop of `execMutilSql` reads the vectors: a read out of range or a failed query
is the last. -/
def loopAccesses (c : Call) : List ℕ → List ℕ
  | [] => []
  | i :: is => if Answers c i then i :: loopAccesses c is else [i]

/-- The indices at which `execMutilSql` reads the vectors, and for which set. -/
def accesses (c : Call) : List (Source × ℕ) :=
  (loopAccesses c (List.range 4)).map (Prod.mk .current) ++
    if ∀ i ∈ List.range 4, Answers c i then
      (loopAccesses c (List.range' 4 (c.sqlSelec.length - 4))).map (Prod.mk .earlier)
    else []

/-! ### The reads of a call -/

section Loop
variable {c : Call} {is : List ℕ}

theorem loopAccesses_append {pre post : List ℕ} (h : ∀ i ∈ pre, Answers c i) :
    loopAccesses c (pre ++ post) = pre ++ loopAccesses c post := by
  induction pre with
  | nil => rfl
  | cons i pre ih =>
    rw [List.cons_append, loopAccesses, if_pos (h i (by simp)), ih fun j hj => h j (by simp [hj])]
    rfl

/-- A loop ends at the first query that is not answered. -/
theorem loopAccesses_stop {i : ℕ} {pre post : List ℕ} (h : ¬ Answers c i) :
    loopAccesses c (pre ++ i :: post) <+: pre ++ [i] := by
  induction pre with
  | nil => rw [List.nil_append, loopAccesses, if_neg h, List.nil_append]
  | cons j pre ih =>
    rw [List.cons_append, loopAccesses, List.cons_append]
    split_ifs
    · exact List.cons_prefix_cons.mpr ⟨rfl, ih⟩
    · exact List.cons_prefix_cons.mpr ⟨rfl, List.nil_prefix⟩

/-- A loop of the code has no result exactly if one of its reads is out of range. -/
theorem execQueries_error_iff {batch : List Table} :
    (∃ e, execQueries c is batch = .error e) ↔ ∃ i ∈ loopAccesses c is, ¬ Within c i := by
  induction is generalizing batch with
  | nil => simp [execQueries, loopAccesses]
  | cons i is ih =>
    rw [execQueries, loopAccesses]
    by_cases hwithin : Within c i
    · obtain ⟨name, -, hrun⟩ := @execQuerySql_within c batch i hwithin
      by_cases hanswers : Answers c i
      · obtain ⟨batch', hone, -⟩ := @execQuerySql_answers c batch i hanswers
        rw [hone, Res.ok_bind, if_pos hanswers]
        simpa [hwithin] using ih
      · have hnone : execQuerySql c batch i = .ok none := by
          rw [hrun]
          cases hkeys : c.keysAnswer i <;> cases hrows : c.rowsAnswer i
          all_goals first | rfl | exact absurd ⟨hwithin, by simp [hkeys], by simp [hrows]⟩ hanswers
        rw [hnone, Res.ok_bind, if_neg hanswers]
        simp [hwithin]
    · have herror : ∃ e, execQuerySql c batch i = .error e := by
        cases hrun : execQuerySql c batch i with
        | error e => exact ⟨e, rfl⟩
        | ok r => exact absurd (within_of_execQuerySql hrun) hwithin
      obtain ⟨e, he⟩ := herror
      rw [he, Res.error_bind, if_neg fun hanswers => hwithin hanswers.1]
      simp [hwithin]

end Loop

/-- **The reads are those of the code**: `execMutilSql` has no result exactly if one of them is out of
range. -/
theorem execMutilSql_error_iff (s : State) (c : Call) :
    (∃ e, execMutilSql s c = .error e) ↔ ∃ a ∈ accesses c, ¬ Within c a.2 := by
  have hfirst := @execQueries_error_iff c (List.range 4) []
  have hsecond := @execQueries_error_iff c (List.range' 4 (c.sqlSelec.length - 4)) []
  cases h1 : execQueries c (List.range 4) [] with
  | error e =>
    rw [h1] at hfirst
    obtain ⟨i, hi, hout⟩ := hfirst.mp ⟨e, rfl⟩
    refine iff_of_true ⟨e, ?_⟩ ⟨(.current, i), ?_, hout⟩
    · rw [execMutilSql, execBatch, h1]
      rfl
    · exact List.mem_append_left _ (List.mem_map_of_mem hi)
  | ok r =>
    rw [h1] at hfirst
    have hin : ∀ i ∈ loopAccesses c (List.range 4), Within c i := by simpa using hfirst
    cases r with
    | none =>
      have hfail : ¬ ∀ i ∈ List.range 4, Answers c i := by
        intro hall
        obtain ⟨batch, hrun, -⟩ := @execQueries_answers c [] _ hall
        rw [h1] at hrun
        cases hrun
      refine iff_of_false ?_ ?_
      · rintro ⟨e, he⟩
        rw [execMutilSql, execBatch, h1] at he
        cases he
      · rintro ⟨a, ha, hout⟩
        rw [accesses, if_neg hfail, List.append_nil] at ha
        obtain ⟨i, hi, rfl⟩ := List.mem_map.mp ha
        exact hout (hin i hi)
    | some batch =>
      have hall := answers_of_execQueries h1
      have hcode : (∃ e, execMutilSql s c = .error e) ↔
          ∃ e, execQueries c (List.range' 4 (c.sqlSelec.length - 4)) [] = .error e := by
        rw [execMutilSql, execBatch, h1]
        cases execQueries c (List.range' 4 (c.sqlSelec.length - 4)) [] with
        | error e => exact iff_of_true ⟨e, rfl⟩ ⟨e, rfl⟩
        | ok r =>
          refine iff_of_false ?_ (by simp)
          rintro ⟨e, he⟩
          cases r <;> cases he
      rw [hcode, hsecond, accesses, if_pos hall]
      constructor
      · rintro ⟨i, hi, hout⟩
        exact ⟨(.earlier, i), List.mem_append_right _ (List.mem_map_of_mem hi), hout⟩
      · rintro ⟨a, ha, hout⟩
        rcases List.mem_append.mp ha with ha | ha
        · obtain ⟨i, hi, rfl⟩ := List.mem_map.mp ha
          exact absurd (hin i hi) hout
        · obtain ⟨i, hi, rfl⟩ := List.mem_map.mp ha
          exact ⟨i, hi, hout⟩

/-! ### The vectors of `readData` -/

/-- The call of `readData` with the vectors of `GetSelectSql`, and what the server answers to it. -/
def readDataCall (cfg : Config) (sql : List String × List String) (keysAnswer : ℕ → Option (List String))
    (rowsAnswer : ℕ → Option (List Row)) : Call :=
  ⟨sql.2, sql.1, cfg.tables.map (·.name), keysAnswer, rowsAnswer⟩

/-- The read is in range, of the first half of the queries for the current set and of the second for the
earlier one, and the three entries belong to one table. -/
structure Paired (tables : ℕ) (c : Call) (a : Source × ℕ) : Prop where
  within : Within c a.2
  source : a.1 = .current ↔ a.2 < tables
  table : ∃ w : Select, c.sqlSelec[a.2]? = some w.sql ∧ c.strColum[a.2]? = some (columnSql w.table) ∧
    c.tableName[a.2]? = some w.table

/-- The indices of the first loop before and behind one of them. -/
theorem range_four {k : ℕ} (hk : k < 4) :
    List.range 4 = List.range k ++ k :: List.range' (k + 1) (3 - k) := by
  interval_cases k <;> rfl

section ReadData
variable {clock : Clock} {cfg : Config} {sql : List String × List String}
  (hsql : getSelectSql clock cfg = .ok sql) {keysAnswer : ℕ → Option (List String)}
  {rowsAnswer : ℕ → Option (List Row)}
include hsql

/-- Two queries for the rows to a table, one for the columns; the first are of the current window. -/
theorem getSelectSql_spec : sql.2.length = 2 * cfg.tables.length ∧ sql.1.length = cfg.tables.length ∧
    ∀ i, (hi : i < cfg.tables.length) → ∃ w : Select, w.table = (cfg.tables.get ⟨i, hi⟩).name ∧
      sql.2[i]? = some w.sql ∧ sql.1[i]? = some (columnSql w.table) := by
  unfold getSelectSql at hsql
  obtain ⟨current, hcurrent, hsql⟩ := Res.bind_eq_ok.mp hsql
  obtain ⟨earlier, hearlier, hsql⟩ := Res.bind_eq_ok.mp hsql
  obtain rfl := Except.ok.inj hsql
  have hc := Res.mapM_eq_ok hcurrent
  have he := Res.mapM_eq_ok hearlier
  have hlc := hc.length_eq
  have hle := he.length_eq
  refine ⟨?_, by simp, fun i hi => ?_⟩
  · simp only [List.length_map, List.length_append]
    omega
  · have hi' : i < current.length := by omega
    have hone := hc.get hi hi'
    obtain ⟨lower, -, hw⟩ := Res.bind_eq_ok.mp hone
    refine ⟨current.get ⟨i, hi'⟩, ?_, ?_, ?_⟩
    · rw [← Except.ok.inj hw]
    · rw [List.getElem?_map, List.getElem?_append_left hi', List.getElem?_eq_getElem hi']
      rfl
    · rw [List.getElem?_map, List.getElem?_eq_getElem hi, ← Except.ok.inj hw]
      rfl

theorem within_readDataCall {i : ℕ} :
    Within (readDataCall cfg sql keysAnswer rowsAnswer) i ↔ i < cfg.tables.length := by
  obtain ⟨h2, h1, -⟩ := getSelectSql_spec hsql
  unfold Within readDataCall
  simp only [List.length_map, h1, h2]
  omega

/-- When the first queries are answered, the call goes on to an entry that is out of range or of the wrong
set. -/
theorem not_paired_of_answers (hne : cfg.tables ≠ [])
    (h : ∀ i < min 4 cfg.tables.length, keysAnswer i ≠ none ∧ rowsAnswer i ≠ none) :
    ¬ ∀ a ∈ accesses (readDataCall cfg sql keysAnswer rowsAnswer),
      Paired cfg.tables.length (readDataCall cfg sql keysAnswer rowsAnswer) a := by
  intro hall
  have hpos := List.length_pos_iff.mpr hne
  have hanswers : ∀ i < min 4 cfg.tables.length,
      Answers (readDataCall cfg sql keysAnswer rowsAnswer) i := fun i hi =>
    ⟨(within_readDataCall hsql).mpr (by omega), h i hi⟩
  by_cases hfew : cfg.tables.length < 4
  · -- the first loop reads behind the last table
    have hp := hall (.current, cfg.tables.length) (List.mem_append_left _ (List.mem_map_of_mem ?_))
    · have hlt := (within_readDataCall hsql).mp hp.within
      simp at hlt
    · rw [range_four hfew, loopAccesses_append fun i hi => hanswers i (by simpa [hfew.le] using hi), loopAccesses]
      split_ifs <;> simp
  · -- the second loop begins with the fifth query
    have hfour : ∀ i ∈ List.range 4, Answers (readDataCall cfg sql keysAnswer rowsAnswer) i := fun i hi =>
      hanswers i (by rw [List.mem_range] at hi; omega)
    obtain ⟨h2, -, -⟩ := getSelectSql_spec hsql
    have hsplit : List.range' 4 ((readDataCall cfg sql keysAnswer rowsAnswer).sqlSelec.length - 4) =
        4 :: List.range' 5 (2 * cfg.tables.length - 5) := by
      have hlen : (readDataCall cfg sql keysAnswer rowsAnswer).sqlSelec.length - 4 =
          (2 * cfg.tables.length - 5) + 1 := by
        show sql.2.length - 4 = _
        omega
      rw [hlen, List.range'_succ]
    have hp := hall (.earlier, 4) ?_
    · have hlt := (within_readDataCall hsql).mp hp.within
      cases hp.source.mpr hlt
    · rw [accesses, if_pos hfour]
      refine List.mem_append_right _ (List.mem_map_of_mem ?_)
      rw [hsplit, loopAccesses]
      split_ifs <;> simp

/-- When one of them fails, the call has read only what belongs together. -/
theorem paired_of_fails {i : ℕ} (hi : i < min 4 cfg.tables.length)
    (hfail : keysAnswer i = none ∨ rowsAnswer i = none) :
    ∀ a ∈ accesses (readDataCall cfg sql keysAnswer rowsAnswer),
      Paired cfg.tables.length (readDataCall cfg sql keysAnswer rowsAnswer) a := by
  have hnot : ¬ Answers (readDataCall cfg sql keysAnswer rowsAnswer) i := by
    rintro ⟨-, hkeys, hrows⟩
    exact hfail.elim hkeys hrows
  rintro a ha
  have hstop : ¬ ∀ j ∈ List.range 4, Answers (readDataCall cfg sql keysAnswer rowsAnswer) j :=
    fun hall => hnot (hall i (List.mem_range.mpr (by omega)))
  rw [accesses, if_neg hstop, List.append_nil, range_four (show i < 4 by omega)] at ha
  obtain ⟨j, hj, rfl⟩ := List.mem_map.mp ha
  have hmem := (loopAccesses_stop hnot).subset hj
  have hlt : j < cfg.tables.length := by
    rw [List.mem_append, List.mem_range, List.mem_singleton] at hmem
    omega
  obtain ⟨-, -, hrow⟩ := getSelectSql_spec hsql
  obtain ⟨w, hname, hvalue, hkey⟩ := hrow j hlt
  refine ⟨(within_readDataCall hsql).mpr hlt, iff_of_true rfl hlt, w, hvalue, hkey, ?_⟩
  show (cfg.tables.map (·.name))[j]? = some w.table
  rw [List.getElem?_map, List.getElem?_eq_getElem hlt, hname]
  rfl

/-- **Queries and tables are paired exactly when** one of the first four queries, or of the first of as
many as there are tables, fails and ends the call. -/
theorem paired_iff (hne : cfg.tables ≠ []) :
    (∀ a ∈ accesses (readDataCall cfg sql keysAnswer rowsAnswer),
      Paired cfg.tables.length (readDataCall cfg sql keysAnswer rowsAnswer) a) ↔
    ∃ i < min 4 cfg.tables.length, keysAnswer i = none ∨ rowsAnswer i = none := by
  constructor
  · intro hall
    by_contra hnone
    refine not_paired_of_answers hsql hne (fun i hi => ?_) hall
    exact ⟨fun hkeys => hnone ⟨i, hi, Or.inl hkeys⟩, fun hrows => hnone ⟨i, hi, Or.inr hrows⟩⟩
  · rintro ⟨i, hi, hfail⟩
    exact paired_of_fails hsql hi hfail

end ReadData

open DataSync.Client.IncrementExport (firstDay twoTables)

/-- The first query of two tables fails. -/
theorem paired_refused : ∃ sql, getSelectSql firstDay (twoTables ⟨70, 0, 1, 1, 0, 0⟩ ⟨70, 0, 1, 1, 0, 0⟩) =
    .ok sql ∧ ∀ a ∈ accesses (readDataCall (twoTables ⟨70, 0, 1, 1, 0, 0⟩ ⟨70, 0, 1, 1, 0, 0⟩) sql
      (fun _ => none) fun _ => none), Paired 2 (readDataCall
        (twoTables ⟨70, 0, 1, 1, 0, 0⟩ ⟨70, 0, 1, 1, 0, 0⟩) sql (fun _ => none) fun _ => none) a := by
  obtain ⟨sql, hsql⟩ := Res.exists_ok (show (getSelectSql firstDay
    (twoTables ⟨70, 0, 1, 1, 0, 0⟩ ⟨70, 0, 1, 1, 0, 0⟩)).toBool = true by decide)
  exact ⟨sql, hsql, (paired_iff hsql (by simp [twoTables])).mpr ⟨0, by decide, Or.inl rfl⟩⟩

/-- Two tables without rows: the third read is out of range. -/
theorem unpaired_answered : ∃ sql, getSelectSql firstDay
    (twoTables ⟨70, 0, 1, 1, 0, 0⟩ ⟨70, 0, 1, 1, 0, 0⟩) = .ok sql ∧
    ¬ ∀ a ∈ accesses (readDataCall (twoTables ⟨70, 0, 1, 1, 0, 0⟩ ⟨70, 0, 1, 1, 0, 0⟩) sql
      (fun _ => some ["id"]) fun _ => some []), Paired 2 (readDataCall
        (twoTables ⟨70, 0, 1, 1, 0, 0⟩ ⟨70, 0, 1, 1, 0, 0⟩) sql (fun _ => some ["id"]) fun _ => some []) a := by
  obtain ⟨sql, hsql⟩ := Res.exists_ok (show (getSelectSql firstDay
    (twoTables ⟨70, 0, 1, 1, 0, 0⟩ ⟨70, 0, 1, 1, 0, 0⟩)).toBool = true by decide)
  exact ⟨sql, hsql, not_paired_of_answers hsql (by simp [twoTables]) (by simp)⟩

end DataSync.Client.Pairing
