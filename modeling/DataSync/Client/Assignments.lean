import DataSync.Client.BuildFinally

/-! # The columns of a statement

`LoadJson` writes the columns of a table three times, into the SET of the UPDATE and into the two lists of
the INSERT: all but the last one in a loop, the last one behind it, and a timestamp behind that.

`statementsOf` is what the three texts should be, and `rowOf_eq` that they are. `statements_matched` says so
of every message, and that no accepted element is without them. `neverWraps_iff`: the loop stays inside the arrays exactly when no element that comes to
it has empty ones. -/

namespace DataSync.Client.Assignments

open DataSync.Client.BuildFinally

variable {ρ : Type} {F : DoubleFormat ρ}

/-! ### Joined texts -/

theorem intercalate_concat {α : Type} (sep : List α) (xs : List (List α)) (x : List α) :
    sep.intercalate (xs ++ [x]) = xs.flatMap (fun y => y ++ sep) ++ x := by
  induction xs with
  | nil => simp
  | cons y xs ih => simp [List.intercalate_cons_of_ne_nil, ih]

/-- The conditions of a `where`, joined. -/
theorem conditions_eq (value : Text → Text) (members : List Text) : conditions value members =
    (lit " and ").intercalate (members.map fun k => k ++ ['='] ++ value k) := by
  induction members with
  | nil => rfl
  | cons k members ih =>
    by_cases hlast : members = []
    · simp [conditions, hlast]
    · rw [conditions, if_neg hlast, ih, List.map_cons, List.intercalate_cons_of_ne_nil (by simpa using hlast),
        List.append_assoc _ (lit " and ")]

/-! ### What the statements should be -/

section Table
variable (F) (table : Table ρ)

/-- The name of a column. -/
def nameOf (c : Json ρ) : Text :=
  match c.asString F with
  | .ok t => t
  | .error _ => []

/-- What an element assigns: to every column the literal of its value. -/
def assignments : List (Text × Text) :=
  List.zipWith (fun c v => (nameOf F c, jsonValueToString F v)) table.column table.values

/-- The conditions on the members of `mapkey`, one for each. -/
def keyConditions (value : Json ρ → Text) : Text :=
  (lit " and ").intercalate (table.mapkey.map fun m => m.1 ++ ['='] ++ value m.2)

/-- The SELECT. -/
def selectOf : Text :=
  lit "select * from " ++ table.name ++ lit " where " ++ keyConditions table (jsonValueToString F)

/-- The INSERT: the columns and the timestamp, and their values in the same order. -/
def insertOf : Text :=
  lit "insert into " ++ table.name ++ lit " (" ++
    [','].intercalate ((assignments F table).map Prod.fst ++ [lit " hm_update_timestamp"]) ++
    lit ") values  (" ++ [','].intercalate ((assignments F table).map Prod.snd ++ [lit " 0"]) ++ [')']

/-- The UPDATE: the assignments and that of the timestamp. -/
def updateOf : Text :=
  lit "update " ++ table.name ++ lit " set " ++
    (lit ", ").intercalate ((assignments F table ++ [(lit "hm_update_timestamp", lit "0")]).map
      fun a => a.1 ++ ['='] ++ a.2) ++
    lit " where " ++ keyConditions table (whereValue F)

/-- The three statements. -/
def statementsOf : Row := ⟨selectOf F table, insertOf F table, updateOf F table⟩

/-- What `jsoncpp` says of its arrays and objects: a size has 32 bits, and the members of a `std::map` have
different names. -/
structure Represented : Prop where
  size : table.column.length < 2 ^ 32
  members : (table.mapkey.map Prod.fst).Nodup

end Table

/-! ### What they are -/

section Row
variable {table : Table ρ}

/-- The assignments, by the index of the loop. -/
theorem assignments_eq (hlen : table.column.length = table.values.length) :
    assignments F table =
      (List.range table.column.length).map fun i => (columnText F table i, valueText F table i) := by
  refine List.ext_getElem (by simp [assignments, hlen]) fun i h _ => ?_
  have hcol : i < table.column.length := by simp [assignments] at h; omega
  have hval : i < table.values.length := hlen ▸ hcol
  have hcolumnAt : table.columnAt i = table.column[i] := by simp [Table.columnAt, hcol]
  have hvalueAt : table.valueAt i = table.values[i] := by simp [Table.valueAt, hval]
  simp only [assignments, List.getElem_zipWith, List.getElem_map, List.getElem_range, columnText, valueText,
    hcolumnAt, hvalueAt]
  rfl

/-- A member of a `std::map` is found under its name. -/
theorem key_eq {m : Text × Json ρ} (hnodup : (table.mapkey.map Prod.fst).Nodup) (hm : m ∈ table.mapkey) :
    table.key m.1 = m.2 := by
  unfold Table.key
  generalize table.mapkey = members at hnodup hm
  induction members with
  | nil => cases hm
  | cons m' members ih =>
    rw [List.map_cons, List.nodup_cons] at hnodup
    rcases List.mem_cons.mp hm with rfl | hm
    · simp [List.lookup]
    · have hne : m.1 ≠ m'.1 := fun h => hnodup.1 (h ▸ List.mem_map_of_mem hm)
      have hne' : (m.1 == m'.1) = false := by simpa using hne
      rw [List.lookup, hne']
      exact ih hnodup.2 hm

theorem conditions_keys (hnodup : (table.mapkey.map Prod.fst).Nodup) (value : Json ρ → Text) :
    conditions (fun k => value (table.key k)) (table.mapkey.map Prod.fst) = keyConditions table value := by
  rw [conditions_eq, List.map_map, keyConditions]
  refine congrArg _ (List.map_congr_left fun m hm => ?_)
  show m.1 ++ ['='] ++ value (table.key m.1) = _
  rw [key_eq hnodup hm]

/-- The columns and the values of the INSERT: all but the last are written in the loop. -/
theorem list_eq (f : ℕ → Text) (n : ℕ) (last : Text) :
    [','].intercalate ((List.range (n + 1)).map f ++ [last]) =
      (List.range n).flatMap (fun i => f i ++ [',']) ++ f n ++ [','] ++ last := by
  rw [intercalate_concat, List.range_succ]
  simp [List.flatMap_map]

/-- The assignments of the UPDATE. -/
theorem set_eq (f g : ℕ → Text) (n : ℕ) (last : Text × Text) :
    (lit ", ").intercalate (((List.range (n + 1)).map (fun i => (f i, g i)) ++ [last]).map
        fun a => a.1 ++ ['='] ++ a.2) =
      (List.range n).flatMap (fun i => f i ++ ['='] ++ g i ++ lit ", ") ++ f n ++ ['='] ++ g n ++
        lit ", " ++ (last.1 ++ ['='] ++ last.2) := by
  rw [List.map_append, List.map_cons, List.map_nil, intercalate_concat, List.range_succ]
  simp [List.flatMap_map]

/-- **The statements of a table with columns** are what they should be. -/
theorem rowOf_eq (hrep : Represented table) (hlen : table.column.length = table.values.length)
    (hne : table.column ≠ []) : rowOf F table = statementsOf F table := by
  obtain ⟨n, hn⟩ : ∃ n, table.column.length = n + 1 :=
    ⟨table.column.length - 1, by have := List.length_pos_iff.mpr hne; omega⟩
  have hlast : lastIndex (n + 1) = n := lastIndex_succ (by have := hrep.size; omega)
  have hassign := assignments_eq (F := F) hlen
  rw [hn] at hassign
  have hcolumns : lit ", hm_update_timestamp)" = [','] ++ (lit " hm_update_timestamp" ++ [')']) := rfl
  have hvalues : lit ", 0)" = [','] ++ (lit " 0" ++ [')']) := rfl
  have hopen : lit ") values  (" = [')'] ++ (lit " values " ++ lit " (") := rfl
  have hset : lit ", hm_update_timestamp=0" = lit ", " ++ (lit "hm_update_timestamp" ++ ['='] ++ lit "0") := rfl
  unfold rowOf statementsOf
  rw [Row.mk.injEq]
  refine ⟨?_, ?_, ?_⟩
  · rw [conditions_keys hrep.members]
    rfl
  · rw [insertOf, hassign, List.map_map, List.map_map]
    simp only [Parts.extend, hn, hlast]
    rw [show (Prod.fst ∘ fun i => (columnText F table i, valueText F table i)) = columnText F table from rfl,
      show (Prod.snd ∘ fun i => (columnText F table i, valueText F table i)) = valueText F table from rfl,
      list_eq, list_eq, hcolumns, hvalues, hopen]
    simp only [List.append_assoc]
  · rw [updateOf, hassign, set_eq, conditions_keys hrep.members]
    simp only [Parts.extend, hn, hlast, hset, List.append_assoc]

end Row

/-! ### Messages -/

/-- The three vectors have one length, and their entries `i` are the statements of the table in element `i`:
with columns, those of `statementsOf`. -/
structure Matched (F : DoubleFormat ρ) (vTables : List (Json ρ)) (s : Statements) : Prop where
  insert : s.sqlInsert.length = s.sqlSelect.length
  update : s.sqlUpdate.length = s.sqlSelect.length
  rows : ∀ i < s.sqlSelect.length, ∃ v table row, vTables[i]? = some v ∧ IsTable v table ∧
    buildTable F v = .ok row ∧ s.sqlSelect[i]? = some row.select ∧ s.sqlInsert[i]? = some row.insert ∧
    s.sqlUpdate[i]? = some row.update ∧ (table.column ≠ [] → row = statementsOf F table)

section Message
variable {parse : Text → Option (Json ρ)} {body : Text} {vTables : List (Json ρ)}

/-- `LoadJson` has built the rows of the first elements: of all that stand in front of the first one that
is not acceptable. It returns true when there is none such. -/
theorem loadJson_rows (h : HasTables parse body vTables) : ∃ (n : ℕ) (rows : List Row),
    List.Forall₂ (fun v row => buildTable F v = .ok row) (vTables.take n) rows ∧
      (loadJson F parse body).1 = Statements.empty.pushAll rows ∧
      ((loadJson F parse body).2 = .ok true ↔ ∀ v ∈ vTables, Acceptable v) ∧
      ∀ pre post, vTables = pre ++ post → (∀ v ∈ pre, Acceptable v) → pre.length ≤ rows.length := by
  rcases acceptable_or_split vTables with hall | ⟨pre, v, post, rfl, hpre, hv⟩
  · obtain ⟨rows, hrows, hload⟩ := accepted_of_acceptable (F := F) h hall
    refine ⟨vTables.length, rows, by rwa [List.take_length], by rw [hload], by simpa [hload] using hall, ?_⟩
    rintro pre post rfl -
    rw [← hrows.length_eq, List.length_append]
    exact Nat.le_add_right ..
  · obtain ⟨rows, hrows, -, hload⟩ :=
      loadTables_acceptable F pre (v :: post) Statements.empty hpre ⟨rfl, rfl⟩
    rw [loadJson_tables h, hload, loadTables]
    refine ⟨pre.length, rows, by rwa [List.take_left], ?_⟩
    cases hbuild : buildTable F v with
    | ok row => exact absurd ((acceptable_iff F v).mpr ⟨row, hbuild⟩) hv
    | error exit =>
      have hrej : exit.outcome ≠ .ok true := by
        intro htrue
        cases exit <;> cases htrue
      refine ⟨rfl, iff_of_false hrej fun hall => hv (hall v (by simp)), fun pre' post' heq hpre' => ?_⟩
      rw [← hrows.length_eq]
      by_contra hlen
      -- a longer start holds the element that is not acceptable
      have hget : pre'[pre.length]? = some v := by
        have hleft : (pre' ++ post')[pre.length]? = pre'[pre.length]? :=
          List.getElem?_append_left (by omega)
        rw [← hleft, ← heq]
        simp
      exact hv (hpre' v (List.mem_of_getElem? hget))

/-- **Insert and update write the same assignments**: every statement of a message is what it should be, and
stands with the two others of its table. Every accepted element has its three statements, one that stands in
front of a rejected one too, and a message of acceptable elements only is accepted with those of them all. -/
theorem statements_matched (h : HasTables parse body vTables)
    (hrep : ∀ v ∈ vTables, ∀ table, IsTable v table → Represented table) :
    Matched F vTables (loadJson F parse body).1 ∧
      (∀ pre post, vTables = pre ++ post → (∀ v ∈ pre, Acceptable v) →
        pre.length ≤ (loadJson F parse body).1.sqlSelect.length) ∧
      ((loadJson F parse body).2 = .ok true ↔ ∀ v ∈ vTables, Acceptable v) ∧
      ((loadJson F parse body).2 = .ok true →
        (loadJson F parse body).1.sqlSelect.length = vTables.length) := by
  obtain ⟨n, rows, hrows, hload, haccepted, hpre⟩ := loadJson_rows (F := F) h
  have hlen : (Statements.empty.pushAll rows).sqlSelect.length = rows.length := by
    simp [Statements.pushAll, Statements.empty]
  rw [hload, hlen]
  refine ⟨⟨by simp [Statements.pushAll, Statements.empty], by simp [Statements.pushAll, Statements.empty],
    fun i hi => ?_⟩, hpre, haccepted, fun hok => ?_⟩
  · have hi' : i < rows.length := by simpa [Statements.pushAll, Statements.empty] using hi
    have hitake : i < (vTables.take n).length := hrows.length_eq ▸ hi'
    have hivec : i < vTables.length := hitake.trans_le (List.length_take_le' ..)
    have hbuild : buildTable F vTables[i] = .ok rows[i] := by
      have := hrows.get hitake hi'
      simpa using this
    obtain ⟨table, htable, -, -, hrow⟩ := (buildTable_ok_iff F _ _).mp hbuild
    refine ⟨vTables[i], table, rows[i], List.getElem?_eq_getElem hivec, htable, hbuild, ?_, ?_, ?_,
      fun hne => ?_⟩
    · simp [Statements.pushAll, Statements.empty, hi']
    · simp [Statements.pushAll, Statements.empty, hi']
    · simp [Statements.pushAll, Statements.empty, hi']
    · obtain ⟨-, -, -, -, -, -, hlen⟩ := id htable
      rw [hrow, rowOf_eq (hrep _ (List.getElem_mem hivec) table htable) hlen hne]
  · have hall := hpre vTables [] (by simp) (haccepted.mp hok)
    have htake := List.length_take_le' n vTables
    have := hrows.length_eq
    omega

end Message

theorem represented_oneColumn (s : Text) :
    ∀ v ∈ [oneColumn s], ∀ table, IsTable v table → Represented table := by
  intro v hv table htable
  rw [List.mem_singleton.mp hv] at htable
  obtain rfl := htable.unique (isTable_oneColumn s)
  exact ⟨by simp [oneColumnTable], by simp [oneColumnTable]⟩

/-- A message with that table. -/
def oneTable : Text :=
  lit ("\x7b\"tables\":[\x7b\"name\":\"t\",\"column\":[\"c\"],\"values\":[\"v\"]," ++
    "\"mapkey\":\x7b\"k\":1\x7d\x7d]\x7d")

/-- The statements of `oneTable`. -/
theorem oneTable_matched : HasTables (readerOf oneTable [oneColumn ['v']]) oneTable [oneColumn ['v']] ∧
    (∀ v ∈ [oneColumn ['v']], ∀ table, IsTable v table → Represented table) ∧
    Matched wholeDoubles [oneColumn ['v']]
      (loadJson wholeDoubles (readerOf oneTable [oneColumn ['v']]) oneTable).1 ∧
    (loadJson wholeDoubles (readerOf oneTable [oneColumn ['v']]) oneTable).1.sqlSelect.length = 1 ∧
    insertOf wholeDoubles (oneColumnTable ['v']) =
      lit "insert into t (c, hm_update_timestamp) values  (\"v\", 0)" ∧
    updateOf wholeDoubles (oneColumnTable ['v']) =
      lit "update t set c=\"v\", hm_update_timestamp=0 where k=\"1\"" := by
  have htables := hasTables_readerOf oneTable [oneColumn ['v']]
  have hload : (loadJson wholeDoubles (readerOf oneTable [oneColumn ['v']]) oneTable).2 = .ok true := by
    decide +kernel
  obtain ⟨hmatched, -, -, hlength⟩ :=
    statements_matched (F := wholeDoubles) htables (represented_oneColumn ['v'])
  exact ⟨htables, represented_oneColumn ['v'], hmatched, hlength hload, by decide +kernel, by decide +kernel⟩

/-! ### The bound of the loop -/

/-- The number of rounds of the column loop. -/
def rounds (table : Table ρ) : ℕ := lastIndex table.column.length

/-- The indices at which the loop and the lines behind it look into the arrays. -/
def indices (table : Table ρ) : List ℕ := List.range (rounds table) ++ [rounds table]

/-- The lines behind the loop. -/
def lastLines (F : DoubleFormat ρ) (table : Table ρ) (last : ℕ) (p : Parts) : Except Exit Parts := do
  let column ← (table.columnAt last).asString F
  let value := jsonValueToString F (table.valueAt last)
  return ⟨p.update ++ column ++ ['='] ++ value ++ lit ", hm_update_timestamp=0",
    p.column ++ column ++ lit ", hm_update_timestamp)", p.values ++ value ++ lit ", 0)"⟩

theorem columnLoop_rounds (table : Table ρ) (p : Parts) : columnLoop F table p =
    (List.range (rounds table)).foldlM (columnStep F table) p >>= lastLines F table (rounds table) := rfl

/-- The loop runs fewer times than there are columns, and every index is one of both arrays. -/
structure InRange (table : Table ρ) : Prop where
  rounds : rounds table < table.column.length
  indices : ∀ i ∈ indices table, i < table.column.length ∧ i < table.values.length

/-- **The column loop stays inside the arrays** for every element of the message that comes to it. -/
def NeverWraps (parse : Text → Option (Json ρ)) (body : Text) : Prop :=
  ∀ pre v post table, HasTables parse body (pre ++ v :: post) → (∀ u ∈ pre, Acceptable u) →
    readTable v = .ok table → InRange table

/-- No element that comes to the loop has empty arrays. -/
def NoneEmpty (parse : Text → Option (Json ρ)) (body : Text) : Prop :=
  ∀ pre v post table, HasTables parse body (pre ++ v :: post) → (∀ u ∈ pre, Acceptable u) →
    readTable v = .ok table → table.column ≠ []

/-- `columnSize - 1` of a table without columns. -/
theorem lastIndex_zero : lastIndex 0 = 2 ^ 32 - 1 := by
  unfold lastIndex
  norm_num

theorem inRange_iff {table : Table ρ} (hlen : table.column.length = table.values.length)
    (hsize : table.column.length < 2 ^ 32) : InRange table ↔ table.column ≠ [] := by
  constructor
  · rintro ⟨hrounds, -⟩ hnil
    rw [hnil] at hrounds
    exact Nat.not_lt_zero _ hrounds
  · intro hne
    obtain ⟨n, hn⟩ : ∃ n, table.column.length = n + 1 :=
      ⟨table.column.length - 1, by have := List.length_pos_iff.mpr hne; omega⟩
    have hrounds : rounds table = n := by
      rw [rounds, hn]
      exact lastIndex_succ (by omega)
    refine ⟨by omega, fun i hi => ?_⟩
    rw [indices, hrounds, List.mem_append, List.mem_range, List.mem_singleton] at hi
    omega

/-- **The column loop never wraps, exactly when** no element that comes to it has empty arrays: two empty
arrays have equal sizes. -/
theorem neverWraps_iff {parse : Text → Option (Json ρ)} {body : Text}
    (hsize : ∀ vTables, HasTables parse body vTables → ∀ v ∈ vTables, ∀ table, IsTable v table →
      table.column.length < 2 ^ 32) : NeverWraps parse body ↔ NoneEmpty parse body := by
  have hiff {pre v post} {table : Table ρ} (h : HasTables parse body (pre ++ v :: post))
      (htable : readTable v = .ok table) : InRange table ↔ table.column ≠ [] := by
    have hv := (readTable_ok_iff v table).mp htable
    obtain ⟨-, -, -, -, -, -, hlen⟩ := id hv
    exact inRange_iff hlen (hsize _ h v (by simp) table hv)
  constructor
  · exact fun h pre v post table ht hpre htable => (hiff ht htable).mp (h pre v post table ht hpre htable)
  · exact fun h pre v post table ht hpre htable => (hiff ht htable).mpr (h pre v post table ht hpre htable)

theorem hasTables_unique {parse : Text → Option (Json ρ)} {body : Text} {vTables vTables' : List (Json ρ)}
    (h : HasTables parse body vTables) (h' : HasTables parse body vTables') : vTables = vTables' := by
  obtain ⟨members, hparse, hlookup⟩ := h
  obtain ⟨members', hparse', hlookup'⟩ := h'
  rw [hparse, Option.some.injEq, Json.object.injEq] at hparse'
  rw [← hparse', hlookup, Option.some.injEq, Json.array.injEq] at hlookup'
  exact hlookup'

/-- The loop stays inside the arrays of `oneTable`. -/
theorem oneTable_neverWraps : (∀ vTables, HasTables (readerOf oneTable [oneColumn ['v']]) oneTable vTables →
      ∀ v ∈ vTables, ∀ table, IsTable v table → table.column.length < 2 ^ 32) ∧
    NeverWraps (readerOf oneTable [oneColumn ['v']]) oneTable := by
  have htables := hasTables_readerOf oneTable [oneColumn ['v']]
  have hsize : ∀ vTables, HasTables (readerOf oneTable [oneColumn ['v']]) oneTable vTables →
      ∀ v ∈ vTables, ∀ table, IsTable v table → table.column.length < 2 ^ 32 := by
    intro vTables h v hv table htable
    rw [← hasTables_unique htables h] at hv
    exact (represented_oneColumn ['v'] v hv table htable).size
  refine ⟨hsize, (neverWraps_iff hsize).mpr fun pre v post table h _ htable => ?_⟩
  have hv : v ∈ [oneColumn ['v']] := by
    rw [hasTables_unique htables h]
    simp
  rw [List.mem_singleton.mp hv, readTable_ok_iff] at htable
  rw [htable.unique (isTable_oneColumn ['v'])]
  simp [oneColumnTable]

/-- A table `t` without columns. -/
def noColumns : Json ℕ :=
  .object [(lit "column", .array []), (lit "mapkey", .object [(['k'], .int 1)]),
    (lit "name", .string ['t']), (lit "values", .array [])]

theorem isTable_noColumns : IsTable noColumns ⟨['t'], [], [], [(['k'], .int 1)]⟩ :=
  ⟨_, rfl, rfl, rfl, rfl, rfl, rfl⟩

/-- A message with that table. -/
def emptyTable : Text :=
  lit ("\x7b\"tables\":[\x7b\"name\":\"t\",\"column\":[],\"values\":[]," ++
    "\"mapkey\":\x7b\"k\":1\x7d\x7d]\x7d")

/-- **Two empty arrays** pass the checks and keep the loop running for `2 ^ 32 - 1` rounds. -/
theorem emptyTable_wraps : rounds (⟨['t'], [], [], [(['k'], .int 1)]⟩ : Table ℕ) = 2 ^ 32 - 1 ∧
    Acceptable noColumns ∧ ¬ NeverWraps (readerOf emptyTable [noColumns]) emptyTable := by
  refine ⟨lastIndex_zero, ⟨_, isTable_noColumns, fun i _ => ?_, by simp⟩, fun h => ?_⟩
  · simp [Table.columnAt, HasText, Json.type]
  · have htable := (readTable_ok_iff noColumns _).mpr isTable_noColumns
    have hrange := h [] noColumns [] _ (hasTables_readerOf emptyTable [noColumns]) (by simp) htable
    exact absurd hrange.rounds (Nat.not_lt_zero _)

end DataSync.Client.Assignments
