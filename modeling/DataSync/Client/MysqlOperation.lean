import Mathlib

/-! # Applying a message to the warehouse database

`CMysqlOperation::execMutilSql`: for every table item of a message a SELECT decides between an UPDATE
and an INSERT, all in one transaction of a connection without autocommit. The connection is its log of
committed statements and the statements of the open transaction. Failures leave through C++
exceptions, here `ExceptT` over the connection's state: an exception keeps what was done before it.

`execMutilSql_spec` is what one call does. `committed_iff`: the committed statements are those of the
successful calls after every call of a run if and only if no call succeeds after one that failed
behind an applied statement. -/

namespace DataSync.Client.MysqlOperation

/-- The statements of the connection that are committed, and those of the open transaction. -/
structure Connection where
  committed : List String
  pending : List String
  deriving DecidableEq, Repr

/-- `CMysqlOperation::return_val`. -/
inductive ReturnVal where
  | success | dbError | dbDisconnection | dbExecFailed | dbMuilFailed | noData
  deriving DecidableEq, Repr

/-- The exception the database functions throw. -/
inductive ExceptionDatabase where
  | mk
  deriving DecidableEq, Repr

/-- Computations on the connection that may throw. -/
abbrev DbM := ExceptT ExceptionDatabase (StateM Connection)

/-- How the server answers a query: the connection is down, `mysql_real_query` fails,
`mysql_store_result` gives no result, or there are so many rows. -/
inductive QueryAnswer where
  | disconnected | failed | noResult | rows (n : ℕ)
  deriving DecidableEq, Repr

/-- How the server answers a statement. -/
inductive ExecAnswer where
  | disconnected | failed | applied
  deriving DecidableEq, Repr

/-- One index of the vectors `sqlSelect`, `sqlInsert` and `sqlUpdate`, which are filled together, and
the server's answers at it. -/
structure Item where
  sqlSelect : String
  sqlInsert : String
  sqlUpdate : String
  query : QueryAnswer
  exec : ExecAnswer
  deriving DecidableEq, Repr

/-- `mysql_commit`. -/
def mysqlCommit : DbM Unit := modify fun c => ⟨c.committed ++ c.pending, []⟩

/-- `mysql_rollback`. -/
def mysqlRollback : DbM Unit := modify fun c => ⟨c.committed, []⟩

/-- `THROW_EXCEPTION(ExceptionDatabase, …)`. -/
def throwDatabase : DbM Unit := throw .mk

/-- `getQueryRows`: the return value and the number of rows. -/
def getQueryRows (answer : QueryAnswer) : DbM (ReturnVal × ℕ) :=
  match answer with
  | .disconnected => return (.dbDisconnection, 0)
  | .failed | .noResult => do
    throwDatabase
    return (.dbExecFailed, 0)
  | .rows n => return (.success, n)

/-- `execOneSql`. -/
def execOneSql (strSql : String) (answer : ExecAnswer) : DbM ReturnVal :=
  match answer with
  | .disconnected => return .dbDisconnection
  | .failed => do
    throwDatabase
    return .dbExecFailed
  | .applied => do
    modify fun c => { c with pending := c.pending ++ [strSql] }
    return .success

/-- The loop of `execMutilSql`; `false` is `goto error`. -/
def execItems : List Item → DbM Bool
  | [] => return true
  | item :: items => do
    let (rv, rowNum) ← getQueryRows item.query
    if rv ≠ .success then return false
    let sql := if 0 < rowNum then item.sqlUpdate else item.sqlInsert
    if (← execOneSql sql item.exec) ≠ .success then return false
    execItems items

/-- `execMutilSql`. At the label `error` the exception is thrown before the rollback. -/
def execMutilSql (items : List Item) : DbM ReturnVal := do
  if ← execItems items then
    mysqlCommit
    return .success
  else
    throwDatabase
    mysqlRollback
    return .dbMuilFailed

/-! ### What a call does -/

/-- The server answers both queries of the item. -/
def Item.good (item : Item) : Bool :=
  match item.query, item.exec with
  | .rows _, .applied => true
  | _, _ => false

/-- The statement of the item that is applied. -/
def Item.write (item : Item) : String :=
  match item.query with
  | .rows (_ + 1) => item.sqlUpdate
  | _ => item.sqlInsert

/-- The call succeeds. -/
def succeeds (items : List Item) : Bool := items.all Item.good

/-- The statements the call applies before it ends or fails. -/
def applied (items : List Item) : List String := (items.takeWhile Item.good).map Item.write

theorem run_bind {α β : Type} {x : DbM α} {f : α → DbM β} {c c' : Connection} {a : α}
    (h : x.run c = (.ok a, c')) : (x >>= f).run c = (f a).run c' := by
  change ExceptT.bindCont f (x.run c).1 (x.run c).2 = _
  rw [h]
  rfl

theorem run_bind_error {α β : Type} {x : DbM α} {f : α → DbM β} {c c' : Connection}
    {e : ExceptionDatabase} (h : x.run c = (.error e, c')) : (x >>= f).run c = (.error e, c') := by
  change ExceptT.bindCont f (x.run c).1 (x.run c).2 = _
  rw [h]
  rfl

/-- The loop adds the applied statements to the open transaction, and comes to its end exactly when
every item is answered. -/
theorem execItems_spec (items : List Item) (c : Connection) :
    ∃ r, (execItems items).run c = (r, ⟨c.committed, c.pending ++ applied items⟩) ∧
      (r = .ok true ↔ succeeds items = true) := by
  induction items generalizing c with
  | nil => exact ⟨.ok true, by simp [execItems, applied]; rfl, by simp [succeeds]⟩
  | cons item items ih =>
    -- an item that is not good ends the loop where it stands
    have stop : item.good = false → applied (item :: items) = [] ∧
        succeeds (item :: items) = false := by
      intro h
      simp [applied, succeeds, h]
    rcases item with ⟨sel, ins, upd, query, exec⟩
    rcases query with _ | _ | _ | n
    case rows =>
      rcases exec with _ | _ | _
      case applied =>
        set w := if 0 < n then upd else ins with hw
        have hgood : (Item.mk sel ins upd (.rows n) .applied).good = true := rfl
        have hwrite : (Item.mk sel ins upd (.rows n) .applied).write = w := by
          cases n <;> simp [Item.write, hw]
        obtain ⟨r, hr, hiff⟩ := ih ⟨c.committed, c.pending ++ [w]⟩
        refine ⟨r, ?_, ?_⟩
        · have happ : applied (⟨sel, ins, upd, .rows n, .applied⟩ :: items) = w :: applied items := by
            simp [applied, hgood, hwrite]
          rw [happ, List.append_cons]
          exact hr
        · rw [hiff]
          simp [succeeds, hgood]
      all_goals
        obtain ⟨h1, h2⟩ := stop rfl
        rw [h1, h2, List.append_nil]
        exact ⟨_, rfl, by simp⟩
    all_goals
      obtain ⟨h1, h2⟩ := stop rfl
      rw [h1, h2, List.append_nil]
      exact ⟨_, rfl, by simp⟩

/-- **One call**: a successful one publishes the open transaction with its own statements, a failed one
leaves its statements in the open transaction. -/
theorem execMutilSql_spec (items : List Item) (c : Connection) :
    (succeeds items = true → (execMutilSql items).run c =
      (.ok .success, ⟨c.committed ++ (c.pending ++ applied items), []⟩)) ∧
    (succeeds items = false → ∃ e, (execMutilSql items).run c =
      (.error e, ⟨c.committed, c.pending ++ applied items⟩)) := by
  obtain ⟨r, hr, hiff⟩ := execItems_spec items c
  unfold execMutilSql
  constructor
  · intro h
    rw [hiff.mpr h] at hr
    rw [run_bind hr]
    rfl
  · intro h
    rcases r with e | ok
    · exact ⟨e, run_bind_error hr⟩
    · have hok : ok = false := by
        rw [← Bool.not_eq_true]
        rintro rfl
        rw [hiff.mp rfl] at h
        exact absurd h (by decide)
      subst hok
      exact ⟨.mk, by rw [run_bind hr]; rfl⟩

/-! ### Runs -/

/-- The connection after the calls of a run; a caller catches the exception of a failed call. -/
def runCalls (c : Connection) (calls : List (List Item)) : Connection :=
  calls.foldl (fun c items => ((execMutilSql items).run c).2) c

/-- The statements of the calls of a run that returned `mysql_success`, in order. -/
def successStatements : Connection → List (List Item) → List String
  | _, [] => []
  | c, items :: calls =>
    let (r, c') := (execMutilSql items).run c
    (if r = .ok .success then items.map Item.write else []) ++ successStatements c' calls

/-- The call fails behind an applied statement: its first item is answered, a later one is not. -/
def failsLate (items : List Item) : Bool := items.head?.any Item.good && !succeeds items

theorem applied_of_succeeds {items : List Item} (h : succeeds items = true) :
    applied items = items.map Item.write := by
  have hall : ∀ item ∈ items, item.good = true := by simpa [succeeds] using h
  rw [applied, List.takeWhile_eq_self_iff.mpr hall]

theorem failsLate_iff {items : List Item} (h : succeeds items = false) :
    failsLate items = true ↔ applied items ≠ [] := by
  cases items with
  | nil => simp [succeeds] at h
  | cons item items =>
    simp only [failsLate, h, List.head?_cons, Option.any_some, Bool.not_false, Bool.and_true]
    by_cases hg : item.good = true
    · simp [applied, hg]
    · simp [applied, hg]

theorem runCalls_cons (c : Connection) (items : List Item) (calls : List (List Item)) :
    runCalls c (items :: calls) = runCalls ((execMutilSql items).run c).2 calls := rfl

/-- The run from any connection: what is pending spoils the run as soon as a call succeeds. -/
theorem committed_iff_from (calls : List (List Item)) (K p : List String) :
    (∀ pre, pre <+: calls →
      (runCalls ⟨K, p⟩ pre).committed = K ++ successStatements ⟨K, p⟩ pre) ↔
    (p = [] ∨ ∀ b ∈ calls, succeeds b = false) ∧
      calls.Pairwise fun a b => failsLate a = true → succeeds b = false := by
  induction calls generalizing K p with
  | nil =>
    refine ⟨fun _ => ⟨Or.inr fun b hb => absurd hb (by simp), List.Pairwise.nil⟩, ?_⟩
    rintro - pre hpre
    rw [List.prefix_nil.mp hpre]
    simp [runCalls, successStatements]
  | cons a calls ih =>
    have hpre : (∀ pre, pre <+: a :: calls →
        (runCalls ⟨K, p⟩ pre).committed = K ++ successStatements ⟨K, p⟩ pre) ↔
        ∀ pre, pre <+: calls → (runCalls ⟨K, p⟩ (a :: pre)).committed =
          K ++ successStatements ⟨K, p⟩ (a :: pre) := by
      constructor
      · intro h pre hp
        exact h (a :: pre) (List.cons_prefix_cons.mpr ⟨rfl, hp⟩)
      · intro h pre hp
        rcases List.prefix_cons_iff.mp hp with rfl | ⟨t, rfl, ht⟩
        · simp [runCalls, successStatements]
        · exact h t ht
    obtain ⟨hok, hfail⟩ := execMutilSql_spec a ⟨K, p⟩
    rw [hpre, List.pairwise_cons]
    cases hs : succeeds a with
    | true =>
      have hrun := hok hs
      simp only [applied_of_succeeds hs] at hrun
      have hlate : failsLate a = false := by simp [failsLate, hs]
      have hstep : ∀ pre, (runCalls ⟨K, p⟩ (a :: pre)).committed =
          K ++ successStatements ⟨K, p⟩ (a :: pre) ↔
          (runCalls ⟨K ++ (p ++ a.map Item.write), []⟩ pre).committed = K ++ (a.map Item.write ++
            successStatements ⟨K ++ (p ++ a.map Item.write), []⟩ pre) := by
        intro pre
        simp only [runCalls_cons, successStatements, hrun, if_true]
      simp only [hstep, hlate, Bool.false_eq_true, false_imp_iff, implies_true, true_and]
      constructor
      · intro h
        -- the empty continuation shows that nothing was pending
        have hp : p = [] := by
          have h0 := h [] (List.nil_prefix)
          simpa [runCalls, successStatements] using h0
        subst hp
        refine ⟨Or.inl rfl, ((ih (K ++ a.map Item.write) []).mp fun pre hpr => ?_).2⟩
        rw [List.append_assoc]
        exact h pre hpr
      · rintro ⟨hp, hpw⟩ pre hpr
        have hp : p = [] := hp.resolve_right fun h => by
          have := h a (by simp)
          rw [hs] at this
          exact absurd this (by decide)
        subst hp
        have := (ih (K ++ a.map Item.write) []).mpr ⟨Or.inl rfl, hpw⟩ pre hpr
        rwa [List.append_assoc] at this
    | false =>
      obtain ⟨e, hrun⟩ := hfail hs
      have hstep : ∀ pre, (runCalls ⟨K, p⟩ (a :: pre)).committed =
          K ++ successStatements ⟨K, p⟩ (a :: pre) ↔
          (runCalls ⟨K, p ++ applied a⟩ pre).committed =
            K ++ successStatements ⟨K, p ++ applied a⟩ pre := by
        intro pre
        simp [runCalls_cons, successStatements, hrun]
      simp only [hstep, ih K (p ++ applied a), failsLate_iff hs, List.append_eq_nil_iff,
        List.mem_cons, forall_eq_or_imp, hs, true_and]
      by_cases hp : p = [] <;> by_cases ha : applied a = [] <;> simp [hp, ha]

/-- **All or nothing, exactly when.** After every call of a run the committed statements are the
initial ones and those of the calls that returned `mysql_success`, in order, if and only if no call
succeeds after one that failed behind an applied statement. -/
theorem committed_iff (K : List String) (calls : List (List Item)) :
    (∀ pre, pre <+: calls →
      (runCalls ⟨K, []⟩ pre).committed = K ++ successStatements ⟨K, []⟩ pre) ↔
    calls.Pairwise fun a b => failsLate a = true → succeeds b = false := by
  rw [committed_iff_from calls K []]
  simp

/-- A message whose second item fails in the server, and then a message with one item. -/
def lateFailure : List (List Item) :=
  [[⟨"select 1", "insert 1", "update 1", .rows 0, .applied⟩,
    ⟨"select 2", "insert 2", "update 2", .rows 0, .failed⟩],
   [⟨"select 3", "insert 3", "update 3", .rows 0, .applied⟩]]

/-- The later call commits the statement of the failed one. -/
theorem lateFailure_committed :
    ¬ ∀ pre, pre <+: lateFailure →
      (runCalls ⟨[], []⟩ pre).committed = [] ++ successStatements ⟨[], []⟩ pre := by
  intro h
  have hrun : (runCalls ⟨[], []⟩ lateFailure).committed = ["insert 1", "insert 3"] := by decide
  have hsucc : successStatements ⟨[], []⟩ lateFailure = ["insert 3"] := by decide
  have := h lateFailure (List.prefix_refl _)
  rw [hrun, hsucc] at this
  exact absurd this (by decide)

end DataSync.Client.MysqlOperation
