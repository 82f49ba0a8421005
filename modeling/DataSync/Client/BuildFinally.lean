import Mathlib

/-! # Statements from a message

`CBuildFinally::LoadJson` turns the JSON text of a message into statements: for every element of its
array `tables` a SELECT by the element's `mapkey`, an INSERT and an UPDATE of its `column`s and `values`.
`CUpdateDbThread::ThreadProcess` passes them to `execMutilSql`. What does not fit leaves `LoadJson` by an
`ExceptionParsejson`, which `ThreadProcess` catches, or by a `Json::LogicError`, which it does not; an
element `null` makes it return `FALSE`, which `ThreadProcess` does not look at.

The reader of `jsoncpp` and the formatting of doubles are parameters.

`passed_whole_iff`: of a message that is not accepted no statement is passed on, if and only if its first
unacceptable element is not a `null` behind other elements. -/

namespace DataSync.Client.BuildFinally

/-- A `std::string`. -/
abbrev Text := List Char

/-- A string of the source. -/
def lit (s : String) : Text := s.toList

/-! ### `Json::Value` -/

/-- A value the reader gives. The members of an object stand in the order of its `std::map`. -/
inductive Json (ρ : Type) where
  | null
  | int (i : ℤ)
  | uint (n : ℕ)
  | real (r : ρ)
  | string (s : Text)
  | bool (b : Bool)
  | array (items : List (Json ρ))
  | object (members : List (Text × Json ρ))

/-- `Json::ValueType`. -/
inductive ValueType where
  | nullValue | intValue | uintValue | realValue | stringValue | booleanValue | arrayValue | objectValue
  deriving DecidableEq, Repr

/-- What leaves `LoadJson`: `ExceptionParsejson`, or the `Json::LogicError` of a failed assertion. -/
inductive Exception where
  | parsejson (message : Text)
  | logicError (message : Text)
  deriving DecidableEq, Repr

/-- How the work on an element ends early. -/
inductive Exit where
  | returnsFalse
  | throws (e : Exception)
  deriving DecidableEq, Repr

/-- What `LoadJson` returns or throws then. -/
def Exit.outcome : Exit → Except Exception Bool
  | .returnsFalse => .ok false
  | .throws e => .error e

/-- How `sprintf` writes the finite doubles `ρ`: with `%.16g`, and as `Json::valueToString` has it with
`%.17g`. -/
structure DoubleFormat (ρ : Type) where
  g16 : ρ → Text
  g17 : ρ → Text

variable {ρ α : Type}

/-- `THROW_EXCEPTION(ExceptionParsejson, …)`. -/
def throwParsejson (message : Text) : Except Exit α := .error (.throws (.parsejson message))

/-- `JSON_FAIL_MESSAGE`. -/
def failMessage (message : Text) : Except Exit α := .error (.throws (.logicError message))

/-- The guard in front of an exception. -/
def check (ok : Bool) (message : String) : Except Exit Unit :=
  if ok then .ok () else throwParsejson (lit message)

namespace Json

def type : Json ρ → ValueType
  | null => .nullValue
  | int _ => .intValue
  | uint _ => .uintValue
  | real _ => .realValue
  | string _ => .stringValue
  | bool _ => .booleanValue
  | array _ => .arrayValue
  | object _ => .objectValue

/-- `isMember`. -/
def isMember (key : String) : Json ρ → Except Exit Bool
  | null => .ok false
  | object members => .ok (members.lookup (lit key)).isSome
  | _ => failMessage
      (lit "in Json::Value::find(key, end, found): requires objectValue or nullValue")

/-- `operator[]` with a key; a missing member is created as `null`. -/
def member (key : String) : Json ρ → Except Exit (Json ρ)
  | null => .ok null
  | object members => .ok ((members.lookup (lit key)).getD null)
  | _ => failMessage (lit "in Json::Value::resolveReference(key, end): requires objectValue")

end Json

/-- `valueToString` of an unsigned integer. -/
def uintToString (n : ℕ) : Text := Nat.toDigits 10 n

/-- `valueToString` of an integer. -/
def intToString (i : ℤ) : Text := if i < 0 then '-' :: uintToString i.natAbs else uintToString i.natAbs

/-- `asString`. -/
def Json.asString (F : DoubleFormat ρ) : Json ρ → Except Exit Text
  | .null => .ok []
  | .string s => .ok s
  | .bool b => .ok (if b then lit "true" else lit "false")
  | .int i => .ok (intToString i)
  | .uint n => .ok (uintToString n)
  | .real r => .ok (F.g17 r)
  | .array _ | .object _ => failMessage (lit "Type is not convertible to string")

/-! ### `CBuildFinally` -/

/-- `normalizeFloatingPointStr` behind the `sprintf`: the zeros in front of the exponent go. -/
def normalizeFloatingPointStr (s : Text) : Text :=
  match s.reverse.findIdx? fun c => c == 'e' || c == 'E' with
  | none => s
  | some k =>
    let index := s.length - 1 - k
    let hasSign := if s[index + 1]? = some '+' ∨ s[index + 1]? = some '-' then 1 else 0
    let exponentStartIndex := index + 1 + hasSign
    let exponent := (s.drop exponentStartIndex).dropWhile (· = '0')
    s.take exponentStartIndex ++ if exponent = [] then ['0'] else exponent

/-- `JsonValueToString`. -/
def jsonValueToString (F : DoubleFormat ρ) : Json ρ → Text
  | .string s => '"' :: s ++ ['"']
  | .int i => intToString i
  | .uint n => uintToString n
  | .real r => normalizeFloatingPointStr (F.g16 r)
  | _ => lit "null"

/-- A table element behind its checks. -/
structure Table (ρ : Type) where
  name : Text
  column : List (Json ρ)
  values : List (Json ρ)
  mapkey : List (Text × Json ρ)

/-- The checks of `column`, `values` and `mapkey`. -/
def readColumns (name : Text) (vTableItem : Json ρ) : Except Exit (Table ρ) := do
  check ((← vTableItem.isMember "column") && (← vTableItem.isMember "values") &&
    (← vTableItem.isMember "mapkey")) "tables column|values|mapkey is not exist"
  let vColumn ← vTableItem.member "column"
  let vValues ← vTableItem.member "values"
  let vMapKey ← vTableItem.member "mapkey"
  match vMapKey, vColumn, vValues with
  | .object mapkey, .array column, .array values =>
    check (column.length = values.length)
      "tables column|values|mapkey type is not enable or size error"
    return ⟨name, column, values, mapkey⟩
  | _, _, _ => throwParsejson (lit "tables column|values|mapkey type is not enable or size error")

/-- The checks of an element, up to the sizes of its arrays. -/
def readTable (vTableItem : Json ρ) : Except Exit (Table ρ) := do
  if vTableItem.type = .nullValue then
    throw .returnsFalse
  check (← vTableItem.isMember "name") "tables name is not exist"
  match ← vTableItem.member "name" with
  | .string name => readColumns name vTableItem
  | _ => throwParsejson (lit "tables name type is not stringvalue")

/-- `strUpdate`, `strColumn` and `strValues`. -/
structure Parts where
  update : Text
  column : Text
  values : Text
  deriving DecidableEq, Repr

/-- `vColumn[colIndex]`; an index behind the array makes a `null` there. -/
def Table.columnAt (table : Table ρ) (colIndex : ℕ) : Json ρ := table.column.getD colIndex .null

/-- `vValues[colIndex]`. -/
def Table.valueAt (table : Table ρ) (colIndex : ℕ) : Json ρ := table.values.getD colIndex .null

/-- One round of the column loop. -/
def columnStep (F : DoubleFormat ρ) (table : Table ρ) (p : Parts) (colIndex : ℕ) : Except Exit Parts := do
  let column ← (table.columnAt colIndex).asString F
  let value := jsonValueToString F (table.valueAt colIndex)
  return ⟨p.update ++ column ++ ['='] ++ value ++ lit ", ", p.column ++ column ++ [','],
    p.values ++ value ++ [',']⟩

/-- `columnSize - 1`, on 32 bits. -/
@[irreducible]
def lastIndex (columnSize : ℕ) : ℕ := (columnSize + (2 ^ 32 - 1)) % 2 ^ 32

theorem lastIndex_succ {n : ℕ} (h : n < 2 ^ 32) : lastIndex (n + 1) = n := by
  unfold lastIndex
  omega

/-- The column loop and the lines for the last column. -/
def columnLoop (F : DoubleFormat ρ) (table : Table ρ) (p : Parts) : Except Exit Parts := do
  let last := lastIndex table.column.length
  let p ← (List.range last).foldlM (columnStep F table) p
  let column ← (table.columnAt last).asString F
  let value := jsonValueToString F (table.valueAt last)
  return ⟨p.update ++ column ++ ['='] ++ value ++ lit ", hm_update_timestamp=0",
    p.column ++ column ++ lit ", hm_update_timestamp)", p.values ++ value ++ lit ", 0)"⟩

/-- `vMapKey[vMembers[nIndex]]`. -/
def Table.key (table : Table ρ) (member : Text) : Json ρ := (table.mapkey.lookup member).getD .null

/-- The loop of the SELECT's `where`, over `vMembers`. -/
def selectWhere (F : DoubleFormat ρ) (table : Table ρ) : List Text → Text → Except Exit Text
  | [], strSelect => .ok strSelect
  | member :: members, strSelect =>
    if (table.mapkey.lookup member).isSome then
      let strSelect := strSelect ++ member ++ ['='] ++ jsonValueToString F (table.key member)
      if members = [] then .ok strSelect else selectWhere F table members (strSelect ++ lit " and ")
    else throwParsejson (member ++ lit " is not exist")

/-- The value in the UPDATE's `where`: one that is not a string is quoted too. -/
def whereValue (F : DoubleFormat ρ) (v : Json ρ) : Text :=
  if v.type ≠ .stringValue then '"' :: jsonValueToString F v ++ ['"'] else jsonValueToString F v

/-- The loop of the UPDATE's `where`. -/
def updateWhere (F : DoubleFormat ρ) (table : Table ρ) : List Text → Text → Text
  | [], strUpdate => strUpdate
  | member :: members, strUpdate =>
    let strUpdate := strUpdate ++ member ++ ['='] ++ whereValue F (table.key member)
    if members = [] then strUpdate else updateWhere F table members (strUpdate ++ lit " and ")

/-- The statements of one element. -/
structure Row where
  select : Text
  insert : Text
  update : Text
  deriving DecidableEq, Repr

/-- The body of `LoadJson`'s loop. -/
def buildTable (F : DoubleFormat ρ) (vTableItem : Json ρ) : Except Exit Row := do
  let table ← readTable vTableItem
  let p ← columnLoop F table ⟨lit "update " ++ table.name ++ lit " set ", lit " (", lit " ("⟩
  check (table.mapkey.length ≠ 0) "mapkey key size is zero"
  let vMembers := table.mapkey.map Prod.fst
  let strSelect ← selectWhere F table vMembers
    (lit "select * from " ++ table.name ++ lit " where ")
  let strUpdate := updateWhere F table vMembers (p.update ++ lit " where ")
  let strInsert := lit "insert into " ++ table.name ++ p.column ++ lit " values " ++ p.values
  return ⟨strSelect, strInsert, strUpdate⟩

/-- `m_sql_select`, `m_sql_insert` and `m_sql_update`. -/
structure Statements where
  sqlSelect : List Text
  sqlInsert : List Text
  sqlUpdate : List Text
  deriving DecidableEq, Repr

def Statements.empty : Statements := ⟨[], [], []⟩

/-- The three `push_back`s. -/
def Statements.push (s : Statements) (row : Row) : Statements :=
  ⟨s.sqlSelect ++ [row.select], s.sqlInsert ++ [row.insert], s.sqlUpdate ++ [row.update]⟩

/-- The loop over `tables`, with what is returned or thrown and the vectors as they stand then. -/
def loadTables (F : DoubleFormat ρ) : List (Json ρ) → Statements → Statements × Except Exception Bool
  | [], s =>
    if s.sqlSelect.length ≠ s.sqlInsert.length ∨ s.sqlSelect.length ≠ s.sqlUpdate.length ∨
        s.sqlInsert.length ≠ s.sqlUpdate.length then
      (s, .error (.parsejson (lit "vector select|update|insert size error")))
    else (s, .ok true)
  | vTableItem :: vTables, s =>
    match buildTable F vTableItem with
    | .ok row => loadTables F vTables (s.push row)
    | .error exit => (s, exit.outcome)

/-- `root["tables"]`, behind its checks. -/
def tablesOf (root : Json ρ) : Except Exit (List (Json ρ)) := do
  check (← root.isMember "tables") "tables is not exist"
  match ← root.member "tables" with
  | .array vTables => return vTables
  | _ => throwParsejson (lit "tables type is not arrayvalue")

/-- `LoadJson` of a new `CBuildFinally`. -/
def loadJson (F : DoubleFormat ρ) (parse : Text → Option (Json ρ)) (jsonData : Text) :
    Statements × Except Exception Bool :=
  match parse jsonData with
  | none => (.empty, .error (.parsejson (lit "reader parse json failed")))
  | some root =>
    match tablesOf root with
    | .ok vTables => loadTables F vTables .empty
    | .error exit => (.empty, exit.outcome)

/-- The files `ThreadProcess` logs a message to. -/
inductive LogFile where
  | successData | failedData
  deriving DecidableEq, Repr

/-- One round of `ThreadProcess` on a message: the call of `execMutilSql`, if there is one, and the file the
message is logged to, none when an exception leaves the thread. `throws`: `execMutilSql` throws. -/
def threadProcess (F : DoubleFormat ρ) (parse : Text → Option (Json ρ)) (body : Text) (throws : Bool) :
    Option Statements × Option LogFile :=
  match loadJson F parse body with
  | (s, .ok _) => (some s, some (if throws then .failedData else .successData))
  | (_, .error (.parsejson _)) => (none, some .failedData)
  | (_, .error (.logicError _)) => (none, none)

/-! ### Elements that are accepted -/

/-- The element is an object with a `name`, arrays `column` and `values` of one length and an object
`mapkey`. -/
def IsTable (v : Json ρ) (table : Table ρ) : Prop :=
  ∃ members, v = .object members ∧
    members.lookup (lit "name") = some (.string table.name) ∧
    members.lookup (lit "column") = some (.array table.column) ∧
    members.lookup (lit "values") = some (.array table.values) ∧
    members.lookup (lit "mapkey") = some (.object table.mapkey) ∧
    table.column.length = table.values.length

/-- The value can be written as a column name. -/
def HasText (v : Json ρ) : Prop := v.type ≠ .arrayValue ∧ v.type ≠ .objectValue

/-- The element has the fields of a table, a `mapkey` that is not empty, and columns with names. -/
def Acceptable (v : Json ρ) : Prop :=
  ∃ table, IsTable v table ∧ (∀ i ≤ lastIndex table.column.length, HasText (table.columnAt i)) ∧
    table.mapkey ≠ []

theorem ok_bind {ε β γ : Type} (b : β) (f : β → Except ε γ) : (Except.ok b >>= f) = f b := rfl

theorem bind_eq_ok {ε β γ : Type} {x : Except ε β} {f : β → Except ε γ} {c : γ} :
    x >>= f = .ok c ↔ ∃ b, x = .ok b ∧ f b = .ok c := by
  cases x with
  | error e => simp [bind, Except.bind]
  | ok b => simp [bind, Except.bind]

theorem bind_eq_error {ε β γ : Type} {x : Except ε β} {f : β → Except ε γ} {e : ε} :
    x >>= f = .error e ↔ x = .error e ∨ ∃ b, x = .ok b ∧ f b = .error e := by
  cases x with
  | error e' => simp [bind, Except.bind]
  | ok b => simp [bind, Except.bind]

theorem asString_ok_iff (F : DoubleFormat ρ) (v : Json ρ) : (∃ t, v.asString F = .ok t) ↔ HasText v := by
  cases v <;> simp [Json.asString, HasText, Json.type, failMessage]

theorem readColumns_object {name : Text} {members : List (Text × Json ρ)} {table : Table ρ} :
    readColumns name (.object members) = .ok table ↔ name = table.name ∧
      members.lookup (lit "column") = some (.array table.column) ∧
      members.lookup (lit "values") = some (.array table.values) ∧
      members.lookup (lit "mapkey") = some (.object table.mapkey) ∧
      table.column.length = table.values.length := by
  simp only [readColumns, Json.isMember, Json.member]
  cases members.lookup (lit "column") with
  | none => simp [bind, Except.bind, check, throwParsejson]
  | some column =>
    cases members.lookup (lit "values") with
    | none => simp [bind, Except.bind, check, throwParsejson]
    | some values =>
      cases members.lookup (lit "mapkey") with
      | none => simp [bind, Except.bind, check, throwParsejson]
      | some mapkey =>
        simp only [Option.isSome_some, Option.getD_some, bind, Except.bind, check, Bool.and_self, if_true]
        split
        · rename_i mapkey column values
          rcases table with ⟨name', column', values', mapkey'⟩
          by_cases hlen : column.length = values.length
          · simp only [hlen, decide_true, if_true, pure, Except.pure, Except.ok.injEq, Table.mk.injEq,
              Option.some.injEq, Json.array.injEq, Json.object.injEq]
            constructor
            · rintro ⟨rfl, rfl, rfl, rfl⟩
              exact ⟨rfl, rfl, rfl, rfl, hlen⟩
            · rintro ⟨rfl, rfl, rfl, rfl, -⟩
              exact ⟨rfl, rfl, rfl, rfl⟩
          · simp only [hlen, decide_false, Bool.false_eq_true, if_false, throwParsejson, reduceCtorEq,
              Option.some.injEq, Json.array.injEq, Json.object.injEq, false_iff]
            rintro ⟨-, rfl, rfl, -, h⟩
            exact hlen h
        · rename_i hother
          simp only [throwParsejson, reduceCtorEq, Option.some.injEq, false_iff]
          rintro ⟨-, rfl, rfl, rfl, -⟩
          exact hother _ _ _ rfl rfl rfl

theorem readTable_ok_iff (v : Json ρ) (table : Table ρ) : readTable v = .ok table ↔ IsTable v table := by
  cases v with
  | object members =>
    simp only [readTable, IsTable, Json.type, Json.isMember, Json.member, Json.object.injEq,
      exists_eq_left']
    cases members.lookup (lit "name") with
    | none => simp [bind, Except.bind, check, throwParsejson]
    | some name =>
      simp only [reduceCtorEq, if_false, Option.isSome_some, Option.getD_some, bind, Except.bind, check,
        if_true, Option.some.injEq]
      split
      · rw [readColumns_object, Json.string.injEq]
      · rename_i hother
        simp only [throwParsejson, reduceCtorEq, false_iff]
        rintro ⟨rfl, -⟩
        exact hother _ rfl
  | null | int _ | uint _ | real _ | string _ | bool _ | array _ =>
    simp [readTable, IsTable, Json.type, Json.isMember, failMessage, bind, Except.bind, throw, throwThe,
      MonadExceptOf.throw]

/-! ### What the loops write -/

/-- The name of column `i`. -/
def columnText (F : DoubleFormat ρ) (table : Table ρ) (i : ℕ) : Text :=
  match (table.columnAt i).asString F with
  | .ok t => t
  | .error _ => []

/-- The text of value `i`. -/
def valueText (F : DoubleFormat ρ) (table : Table ρ) (i : ℕ) : Text :=
  jsonValueToString F (table.valueAt i)

/-- What the column loop has written behind the columns `is`. -/
def Parts.extend (F : DoubleFormat ρ) (table : Table ρ) (p : Parts) (is : List ℕ) : Parts :=
  ⟨p.update ++ is.flatMap fun i => columnText F table i ++ ['='] ++ valueText F table i ++ lit ", ",
    p.column ++ is.flatMap fun i => columnText F table i ++ [','],
    p.values ++ is.flatMap fun i => valueText F table i ++ [',']⟩

theorem asString_columnText {F : DoubleFormat ρ} {table : Table ρ} {i : ℕ}
    (h : HasText (table.columnAt i)) :
    (table.columnAt i).asString F = .ok (columnText F table i) := by
  obtain ⟨t, ht⟩ := (asString_ok_iff F _).mpr h
  simp [columnText, ht]

theorem foldlM_columnStep (F : DoubleFormat ρ) (table : Table ρ) (is : List ℕ) (p : Parts)
    (h : ∀ i ∈ is, HasText (table.columnAt i)) :
    is.foldlM (columnStep F table) p = .ok (p.extend F table is) := by
  induction is generalizing p with
  | nil => simp [Parts.extend, pure, Except.pure]
  | cons i is ih =>
    have hi : columnStep F table p i = .ok (p.extend F table [i]) := by
      simp [columnStep, asString_columnText (h i (by simp)), bind, Except.bind, pure, Except.pure,
        Parts.extend, valueText]
    rw [List.foldlM_cons, hi]
    change is.foldlM (columnStep F table) (p.extend F table [i]) = _
    rw [ih _ fun j hj => h j (List.mem_cons_of_mem i hj)]
    simp [Parts.extend]

theorem hasText_of_foldlM (F : DoubleFormat ρ) (table : Table ρ) (is : List ℕ) (p p' : Parts)
    (h : is.foldlM (columnStep F table) p = .ok p') : ∀ i ∈ is, HasText (table.columnAt i) := by
  induction is generalizing p with
  | nil => simp
  | cons i is ih =>
    rw [List.foldlM_cons] at h
    obtain ⟨q, hq, hrest⟩ := bind_eq_ok.mp h
    obtain ⟨t, ht, -⟩ := bind_eq_ok.mp hq
    intro j hj
    rcases List.mem_cons.mp hj with rfl | hj
    · exact (asString_ok_iff F _).mp ⟨t, ht⟩
    · exact ih q hrest j hj

/-- **The column loop**, when every column has a name. -/
theorem columnLoop_eq (F : DoubleFormat ρ) (table : Table ρ) (p : Parts)
    (h : ∀ i ≤ lastIndex table.column.length, HasText (table.columnAt i)) :
    columnLoop F table p =
      let last := lastIndex table.column.length
      let q := p.extend F table (List.range last)
      .ok ⟨q.update ++ columnText F table last ++ ['='] ++ valueText F table last ++
          lit ", hm_update_timestamp=0",
        q.column ++ columnText F table last ++ lit ", hm_update_timestamp)",
        q.values ++ valueText F table last ++ lit ", 0)"⟩ := by
  unfold columnLoop
  generalize lastIndex table.column.length = last at h ⊢
  have hrange : ∀ i ∈ List.range last, HasText (table.columnAt i) :=
    fun i hi => h i (List.mem_range.mp hi).le
  have hlast : HasText (table.columnAt last) := h last (Nat.le_refl last)
  simp only
  rw [foldlM_columnStep F table (List.range last) p hrange, ok_bind, asString_columnText hlast, ok_bind]
  rfl

theorem hasText_of_columnLoop (F : DoubleFormat ρ) (table : Table ρ) (p p' : Parts)
    (h : columnLoop F table p = .ok p') :
    ∀ i ≤ lastIndex table.column.length, HasText (table.columnAt i) := by
  obtain ⟨q, hq, hrest⟩ := bind_eq_ok.mp h
  obtain ⟨t, ht, -⟩ := bind_eq_ok.mp hrest
  intro i hi
  rcases Nat.lt_or_eq_of_le hi with hlt | heq
  · exact hasText_of_foldlM F table _ p q hq i (List.mem_range.mpr hlt)
  · rw [heq]
    exact (asString_ok_iff F _).mp ⟨t, ht⟩

/-- Conditions on the members, joined by `and`. -/
def conditions (value : Text → Text) : List Text → Text
  | [] => []
  | member :: members =>
    member ++ ['='] ++ value member ++
      if members = [] then [] else lit " and " ++ conditions value members

theorem selectWhere_eq (F : DoubleFormat ρ) (table : Table ρ) (members : List Text) (strSelect : Text)
    (h : ∀ k ∈ members, (table.mapkey.lookup k).isSome) :
    selectWhere F table members strSelect =
      .ok (strSelect ++ conditions (fun k => jsonValueToString F (table.key k)) members) := by
  induction members generalizing strSelect with
  | nil => simp [selectWhere, conditions]
  | cons k members ih =>
    simp only [selectWhere, h k (by simp), if_true, conditions]
    by_cases hlast : members = []
    · simp [hlast]
    · simp only [hlast, if_false]
      rw [ih _ fun j hj => h j (List.mem_cons_of_mem k hj)]
      simp

theorem updateWhere_eq (F : DoubleFormat ρ) (table : Table ρ) (members : List Text) (strUpdate : Text) :
    updateWhere F table members strUpdate =
      strUpdate ++ conditions (fun k => whereValue F (table.key k)) members := by
  induction members generalizing strUpdate with
  | nil => simp [updateWhere, conditions]
  | cons k members ih =>
    simp only [updateWhere, conditions]
    by_cases hlast : members = []
    · simp [hlast]
    · simp only [hlast, if_false]
      rw [ih]
      simp

theorem isSome_lookup (table : Table ρ) : ∀ k ∈ table.mapkey.map Prod.fst,
    (table.mapkey.lookup k).isSome := by
  intro k hk
  obtain ⟨entry, hentry, rfl⟩ := List.mem_map.mp hk
  rw [Option.isSome_iff_ne_none, ne_eq, List.lookup_eq_none_iff]
  intro hnone
  simpa using hnone entry hentry

/-- The statements of a table. -/
def rowOf (F : DoubleFormat ρ) (table : Table ρ) : Row :=
  let last := lastIndex table.column.length
  let q := Parts.extend F table ⟨lit "update " ++ table.name ++ lit " set ", lit " (",
    lit " ("⟩ (List.range last)
  let members := table.mapkey.map Prod.fst
  ⟨lit "select * from " ++ table.name ++ lit " where " ++
      conditions (fun k => jsonValueToString F (table.key k)) members,
    lit "insert into " ++ table.name ++ (q.column ++ columnText F table last ++
      lit ", hm_update_timestamp)") ++ lit " values " ++ (q.values ++ valueText F table last ++
      lit ", 0)"),
    q.update ++ columnText F table last ++ ['='] ++ valueText F table last ++
      lit ", hm_update_timestamp=0" ++ lit " where " ++
      conditions (fun k => whereValue F (table.key k)) members⟩

/-- **One element**: its statements are built exactly when it is acceptable. -/
theorem buildTable_ok_iff (F : DoubleFormat ρ) (v : Json ρ) (row : Row) :
    buildTable F v = .ok row ↔ ∃ table, IsTable v table ∧
      (∀ i ≤ lastIndex table.column.length, HasText (table.columnAt i)) ∧ table.mapkey ≠ [] ∧
      row = rowOf F table := by
  have hbuilt : ∀ table, readTable v = .ok table →
      (∀ i ≤ lastIndex table.column.length, HasText (table.columnAt i)) →
      table.mapkey ≠ [] → buildTable F v = .ok (rowOf F table) := by
    intro table hread htext hkey
    have hlen : table.mapkey.length ≠ 0 := by simpa using hkey
    have hcheck : check (table.mapkey.length ≠ 0) "mapkey key size is zero" = .ok () := by
      simp [check, hlen]
    unfold buildTable
    rw [hread, ok_bind, columnLoop_eq F table _ htext, ok_bind, hcheck, ok_bind]
    simp only
    rw [selectWhere_eq F table _ _ (isSome_lookup table), ok_bind, updateWhere_eq]
    rfl
  constructor
  · intro h
    obtain ⟨table, hread, hcols⟩ := bind_eq_ok.mp h
    obtain ⟨p, hp, hcheck⟩ := bind_eq_ok.mp hcols
    obtain ⟨u, hu, -⟩ := bind_eq_ok.mp hcheck
    have htext := hasText_of_columnLoop F table _ p hp
    have hkey : table.mapkey ≠ [] := by
      rintro hnil
      simp [check, hnil, throwParsejson] at hu
    refine ⟨table, (readTable_ok_iff v table).mp hread, htext, hkey, ?_⟩
    have hrow := hbuilt table hread htext hkey
    rw [h] at hrow
    exact Except.ok.inj hrow
  · rintro ⟨table, htable, htext, hkey, rfl⟩
    exact hbuilt table ((readTable_ok_iff v table).mpr htable) htext hkey

theorem IsTable.unique {v : Json ρ} {table table' : Table ρ} (h : IsTable v table)
    (h' : IsTable v table') : table = table' := by
  have h1 := (readTable_ok_iff v table).mpr h
  have h2 := (readTable_ok_iff v table').mpr h'
  rw [h1] at h2
  exact Except.ok.inj h2

theorem acceptable_iff (F : DoubleFormat ρ) (v : Json ρ) :
    Acceptable v ↔ ∃ row, buildTable F v = .ok row := by
  constructor
  · rintro ⟨table, htable, htext, hkey⟩
    exact ⟨rowOf F table, (buildTable_ok_iff F v _).mpr ⟨table, htable, htext, hkey, rfl⟩⟩
  · rintro ⟨row, hrow⟩
    obtain ⟨table, htable, htext, hkey, -⟩ := (buildTable_ok_iff F v row).mp hrow
    exact ⟨table, htable, htext, hkey⟩

/-! ### The early return -/

/-- The computation does not return `FALSE`. -/
def Loud (x : Except Exit α) : Prop := x ≠ .error .returnsFalse

theorem loud_ok (a : α) : Loud (.ok a) := by simp [Loud]

theorem loud_throwParsejson (message : Text) : Loud (throwParsejson message : Except Exit α) := by
  simp [Loud, throwParsejson]

theorem loud_check (ok : Bool) (message : String) : Loud (check ok message) := by
  cases ok
  · exact loud_throwParsejson _
  · exact loud_ok ()

theorem Loud.bind {β : Type} {x : Except Exit α} {f : α → Except Exit β} (hx : Loud x)
    (hf : ∀ a, Loud (f a)) : Loud (x >>= f) := by
  intro h
  rcases bind_eq_error.mp h with h | ⟨a, -, h⟩
  · exact hx h
  · exact hf a h

theorem loud_isMember (key : String) (v : Json ρ) : Loud (v.isMember key) := by
  cases v <;> simp [Loud, Json.isMember, failMessage]

theorem loud_member (key : String) (v : Json ρ) : Loud (v.member key) := by
  cases v <;> simp [Loud, Json.member, failMessage]

theorem loud_asString (F : DoubleFormat ρ) (v : Json ρ) : Loud (v.asString F) := by
  cases v <;> simp [Loud, Json.asString, failMessage]

theorem loud_readColumns (name : Text) (v : Json ρ) : Loud (readColumns name v) := by
  refine (loud_isMember _ v).bind fun _ => (loud_isMember _ v).bind fun _ =>
    (loud_isMember _ v).bind fun _ => (loud_check _ _).bind fun _ => (loud_member _ v).bind fun _ =>
    (loud_member _ v).bind fun _ => (loud_member _ v).bind fun _ => ?_
  split
  · exact (loud_check _ _).bind fun _ => loud_ok _
  · exact loud_throwParsejson _

theorem loud_readTable {v : Json ρ} (h : v.type ≠ .nullValue) : Loud (readTable v) := by
  unfold readTable
  rw [if_neg h]
  refine (loud_isMember _ v).bind fun _ => (loud_check _ _).bind fun _ => (loud_member _ v).bind fun _ => ?_
  split
  · exact loud_readColumns _ v
  · exact loud_throwParsejson _

theorem loud_foldlM (F : DoubleFormat ρ) (table : Table ρ) (is : List ℕ) (p : Parts) :
    Loud (is.foldlM (columnStep F table) p) := by
  induction is generalizing p with
  | nil => exact loud_ok p
  | cons i is ih =>
    rw [List.foldlM_cons]
    exact ((loud_asString F _).bind fun _ => loud_ok _).bind ih

theorem loud_columnLoop (F : DoubleFormat ρ) (table : Table ρ) (p : Parts) :
    Loud (columnLoop F table p) :=
  (loud_foldlM F table _ p).bind fun _ => (loud_asString F _).bind fun _ => loud_ok _

theorem loud_selectWhere (F : DoubleFormat ρ) (table : Table ρ) (members : List Text)
    (strSelect : Text) : Loud (selectWhere F table members strSelect) := by
  induction members generalizing strSelect with
  | nil => exact loud_ok _
  | cons k members ih =>
    unfold selectWhere
    split
    · split
      · exact loud_ok _
      · exact ih _
    · exact loud_throwParsejson _

/-- **The early return**: `LoadJson` returns `FALSE` at an element exactly when it is `null`. -/
theorem buildTable_returnsFalse (F : DoubleFormat ρ) (v : Json ρ) :
    buildTable F v = .error .returnsFalse ↔ v = .null := by
  constructor
  · intro h
    by_contra hv
    have htype : v.type ≠ .nullValue := by
      cases v <;> simp [Json.type] at hv ⊢
    refine (loud_readTable htype).bind (fun table => ?_) h
    exact (loud_columnLoop F table _).bind fun _ => (loud_check _ _).bind fun _ =>
      (loud_selectWhere F table _ _).bind fun _ => loud_ok _
  · rintro rfl
    rfl

/-! ### Whole messages -/

/-- The vectors with the statements of the rows. -/
def Statements.pushAll (s : Statements) (rows : List Row) : Statements :=
  ⟨s.sqlSelect ++ rows.map Row.select, s.sqlInsert ++ rows.map Row.insert,
    s.sqlUpdate ++ rows.map Row.update⟩

theorem Statements.pushAll_nil (s : Statements) : s.pushAll [] = s := by
  simp [Statements.pushAll]

theorem Statements.push_pushAll (s : Statements) (row : Row) (rows : List Row) :
    (s.push row).pushAll rows = s.pushAll (row :: rows) := by
  simp [Statements.pushAll, Statements.push]

/-- The three vectors have one length. -/
def Statements.Even (s : Statements) : Prop :=
  s.sqlSelect.length = s.sqlInsert.length ∧ s.sqlSelect.length = s.sqlUpdate.length

theorem Statements.Even.push {s : Statements} (h : s.Even) (row : Row) : (s.push row).Even := by
  obtain ⟨h1, h2⟩ := h
  constructor
  · simp [Statements.push, h1]
  · simp [Statements.push, h2]

/-- The loop over acceptable elements. -/
theorem loadTables_acceptable (F : DoubleFormat ρ) (pre post : List (Json ρ)) (s : Statements)
    (hpre : ∀ v ∈ pre, Acceptable v) (hs : s.Even) :
    ∃ rows, List.Forall₂ (fun v row => buildTable F v = .ok row) pre rows ∧ (s.pushAll rows).Even ∧
      loadTables F (pre ++ post) s = loadTables F post (s.pushAll rows) := by
  induction pre generalizing s with
  | nil => exact ⟨[], .nil, by rwa [s.pushAll_nil], by rw [s.pushAll_nil]; rfl⟩
  | cons v pre ih =>
    obtain ⟨row, hrow⟩ := (acceptable_iff F v).mp (hpre v (by simp))
    obtain ⟨rows, hrows, heven, hload⟩ :=
      ih (s.push row) (fun u hu => hpre u (List.mem_cons_of_mem v hu)) (hs.push row)
    rw [s.push_pushAll] at heven hload
    refine ⟨row :: rows, .cons hrow hrows, heven, ?_⟩
    rw [List.cons_append, loadTables, hrow]
    exact hload

theorem loadTables_nil (F : DoubleFormat ρ) {s : Statements} (hs : s.Even) :
    loadTables F ([] : List (Json ρ)) s = (s, .ok true) := by
  obtain ⟨h1, h2⟩ := hs
  simp [loadTables, ← h1, ← h2]

/-- The elements are acceptable up to the first one that is not. -/
theorem acceptable_or_split (vTables : List (Json ρ)) :
    (∀ v ∈ vTables, Acceptable v) ∨ ∃ pre v post, vTables = pre ++ v :: post ∧
      (∀ u ∈ pre, Acceptable u) ∧ ¬ Acceptable v := by
  induction vTables with
  | nil => exact Or.inl (by simp)
  | cons v vTables ih =>
    by_cases hv : Acceptable v
    · rcases ih with hall | ⟨pre, u, post, rfl, hpre, hu⟩
      · exact Or.inl (by simpa [hv] using hall)
      · exact Or.inr ⟨v :: pre, u, post, rfl, by simpa [hv] using hpre, hu⟩
    · exact Or.inr ⟨[], v, vTables, rfl, by simp, hv⟩

/-- `LoadJson` accepts the message. -/
def Accepted (F : DoubleFormat ρ) (parse : Text → Option (Json ρ)) (body : Text) : Prop :=
  (loadJson F parse body).2 = .ok true

/-- Of a message that is not accepted no statement is passed to `execMutilSql`. -/
def PassedWhole (F : DoubleFormat ρ) (parse : Text → Option (Json ρ)) (body : Text) : Prop :=
  ¬ Accepted F parse body → ∀ throws s, (threadProcess F parse body throws).1 = some s → s = .empty

/-- The array `tables` of the message. -/
def HasTables (parse : Text → Option (Json ρ)) (body : Text) (vTables : List (Json ρ)) : Prop :=
  ∃ members, parse body = some (.object members) ∧
    members.lookup (lit "tables") = some (.array vTables)

/-- The array `tables` has an element `null` behind one or more acceptable ones. -/
def NullBehind (parse : Text → Option (Json ρ)) (body : Text) : Prop :=
  ∃ pre post, HasTables parse body (pre ++ .null :: post) ∧ pre ≠ [] ∧ ∀ v ∈ pre, Acceptable v

theorem tablesOf_ok_iff (root : Json ρ) (vTables : List (Json ρ)) :
    tablesOf root = .ok vTables ↔
      ∃ members, root = .object members ∧ members.lookup (lit "tables") = some (.array vTables) := by
  cases root with
  | object members =>
    simp only [tablesOf, Json.isMember, Json.member, Json.object.injEq, exists_eq_left']
    cases members.lookup (lit "tables") with
    | none => simp [bind, Except.bind, check, throwParsejson]
    | some tables =>
      cases tables <;> simp [bind, Except.bind, check, throwParsejson, pure, Except.pure]
  | null | int _ | uint _ | real _ | string _ | bool _ | array _ =>
    simp [tablesOf, Json.isMember, failMessage, bind, Except.bind, check, throwParsejson]

section Message

variable {F : DoubleFormat ρ} {parse : Text → Option (Json ρ)} {body : Text}

theorem loadJson_tables {vTables : List (Json ρ)} (h : HasTables parse body vTables) :
    loadJson F parse body = loadTables F vTables .empty := by
  obtain ⟨members, hparse, htables⟩ := h
  have hread := (tablesOf_ok_iff (.object members) _).mpr ⟨members, rfl, htables⟩
  simp [loadJson, hparse, hread]

/-- A message whose `tables` cannot be read gives no statements. -/
theorem passed_of_unread (h : ∀ vTables, ¬ HasTables parse body vTables) {throws : Bool} {s : Statements}
    (hs : (threadProcess F parse body throws).1 = some s) : s = .empty := by
  unfold threadProcess loadJson at hs
  cases hparse : parse body with
  | none => simp [hparse] at hs
  | some root =>
    cases htables : tablesOf root with
    | ok vTables =>
      obtain ⟨members, rfl, hlookup⟩ := (tablesOf_ok_iff root vTables).mp htables
      exact absurd ⟨members, hparse, hlookup⟩ (h vTables)
    | error exit =>
      rcases exit with _ | _ | _
      · simpa [hparse, htables, Exit.outcome] using hs.symm
      · simp [hparse, htables, Exit.outcome] at hs
      · simp [hparse, htables, Exit.outcome] at hs

/-- A message with acceptable elements only is accepted. -/
theorem accepted_of_acceptable {vTables : List (Json ρ)} (h : HasTables parse body vTables)
    (hall : ∀ v ∈ vTables, Acceptable v) : ∃ rows,
      List.Forall₂ (fun v row => buildTable F v = .ok row) vTables rows ∧
        loadJson F parse body = (Statements.empty.pushAll rows, .ok true) := by
  obtain ⟨rows, hrows, heven, hload⟩ :=
    loadTables_acceptable F vTables [] Statements.empty hall ⟨rfl, rfl⟩
  rw [List.append_nil, loadTables_nil F heven] at hload
  exact ⟨rows, hrows, by rw [loadJson_tables h, hload]⟩

/-- The loop stops at the first element that is not acceptable, with the statements of those before it. -/
theorem loadJson_stops {pre post : List (Json ρ)} {v : Json ρ}
    (h : HasTables parse body (pre ++ v :: post)) (hpre : ∀ u ∈ pre, Acceptable u) {exit : Exit}
    (hv : buildTable F v = .error exit) : ∃ rows : List Row, rows.length = pre.length ∧
      loadJson F parse body = (Statements.empty.pushAll rows, exit.outcome) := by
  obtain ⟨rows, hrows, -, hload⟩ :=
    loadTables_acceptable F pre (v :: post) Statements.empty hpre ⟨rfl, rfl⟩
  refine ⟨rows, hrows.length_eq.symm, ?_⟩
  rw [loadJson_tables h, hload, loadTables, hv]

/-- An accepted message has the statements of its elements. -/
theorem rows_of_accepted {vTables : List (Json ρ)} {s : Statements} (h : HasTables parse body vTables)
    (hs : loadJson F parse body = (s, .ok true)) :
    ∃ rows, List.Forall₂ (fun v row => buildTable F v = .ok row) vTables rows ∧
      s = Statements.empty.pushAll rows := by
  rcases acceptable_or_split vTables with hall | ⟨pre, v, post, rfl, hpre, hv⟩
  · obtain ⟨rows, hrows, hload⟩ := accepted_of_acceptable (F := F) h hall
    rw [hs] at hload
    exact ⟨rows, hrows, (Prod.mk.inj hload).1⟩
  · cases hbuild : buildTable F v with
    | ok row => exact absurd ((acceptable_iff F v).mpr ⟨row, hbuild⟩) hv
    | error exit =>
      obtain ⟨rows, -, hload⟩ := loadJson_stops h hpre hbuild
      rw [hs] at hload
      cases exit <;> simp [Exit.outcome] at hload

theorem not_passedWhole (h : NullBehind parse body) : ¬ PassedWhole F parse body := by
  obtain ⟨pre, post, htables, hne, hpre⟩ := h
  intro hwhole
  obtain ⟨rows, hlen, hload⟩ :=
    loadJson_stops (F := F) htables hpre ((buildTable_returnsFalse F .null).mpr rfl)
  have hempty := hwhole (by simp [Accepted, hload, Exit.outcome]) false (Statements.empty.pushAll rows)
    (by simp [threadProcess, hload, Exit.outcome])
  have hselect := congrArg (fun s => s.sqlSelect.length) hempty
  simp only [Statements.pushAll, Statements.empty, List.nil_append, List.length_map, List.length_nil,
    hlen] at hselect
  exact hne (List.length_eq_zero_iff.mp hselect)

theorem passedWhole_of_not (h : ¬ NullBehind parse body) : PassedWhole F parse body := by
  intro hrej throws s hs
  by_cases hread : ∃ vTables, HasTables parse body vTables
  · obtain ⟨vTables, htables⟩ := hread
    rcases acceptable_or_split vTables with hall | ⟨pre, v, post, rfl, hpre, hv⟩
    · obtain ⟨rows, -, hload⟩ := accepted_of_acceptable (F := F) htables hall
      exact absurd (by simp [Accepted, hload]) hrej
    · cases hbuild : buildTable F v with
      | ok row => exact absurd ((acceptable_iff F v).mpr ⟨row, hbuild⟩) hv
      | error exit =>
        obtain ⟨rows, hlen, hload⟩ := loadJson_stops htables hpre hbuild
        rcases exit with _ | _ | _
        · -- the element is `null`, and the first one
          obtain rfl := (buildTable_returnsFalse F v).mp hbuild
          have hnil : pre = [] := by
            by_contra hne
            exact h ⟨pre, post, htables, hne, hpre⟩
          have hrows : rows = [] := by
            rw [← List.length_eq_zero_iff, hlen, hnil]
            rfl
          simpa [threadProcess, hload, hrows, Exit.outcome, Statements.pushAll_nil] using hs.symm
        · simp [threadProcess, hload, Exit.outcome] at hs
        · simp [threadProcess, hload, Exit.outcome] at hs
  · exact passed_of_unread (fun vTables htables => hread ⟨vTables, htables⟩) hs

end Message

/-- **A message is passed on whole or not at all, exactly when** no element `null` stands behind acceptable
ones. -/
theorem passed_whole_iff (F : DoubleFormat ρ) (parse : Text → Option (Json ρ)) (body : Text) :
    PassedWhole F parse body ↔ ¬ NullBehind parse body :=
  ⟨fun h hnull => not_passedWhole hnull h, passedWhole_of_not⟩

/-- Whole doubles, which both formats write as integers below `10 ^ 16`. -/
def wholeDoubles : DoubleFormat ℕ := ⟨Nat.toDigits 10, Nat.toDigits 10⟩

/-- A reader that knows one text, a message with these tables. -/
def readerOf (text : Text) (vTables : List (Json ρ)) : Text → Option (Json ρ) := fun jsonData =>
  if jsonData = text then some (.object [(lit "tables", .array vTables)]) else none

theorem hasTables_readerOf (text : Text) (vTables : List (Json ρ)) :
    HasTables (readerOf text vTables) text vTables :=
  ⟨[(lit "tables", .array vTables)], by simp [readerOf], rfl⟩

/-- A table `t` with one column `c`, the value `s` and a key `k`. -/
def oneColumnTable (s : Text) : Table ℕ := ⟨['t'], [.string ['c']], [.string s], [(['k'], .int 1)]⟩

/-- Its element. -/
def oneColumn (s : Text) : Json ℕ :=
  .object [(lit "column", .array [.string ['c']]), (lit "mapkey", .object [(['k'], .int 1)]),
    (lit "name", .string ['t']), (lit "values", .array [.string s])]

theorem isTable_oneColumn (s : Text) : IsTable (oneColumn s) (oneColumnTable s) :=
  ⟨_, rfl, rfl, rfl, rfl, rfl, rfl⟩

theorem acceptable_oneColumn (s : Text) : Acceptable (oneColumn s) := by
  refine ⟨oneColumnTable s, isTable_oneColumn s, fun i hi => ?_, by simp [oneColumnTable]⟩
  have hzero : lastIndex 1 = 0 := lastIndex_succ (by norm_num)
  obtain rfl : i = 0 := by simpa [oneColumnTable, hzero] using hi
  simp [oneColumnTable, Table.columnAt, HasText, Json.type]

/-- That element, with the value `v`, and a `null` behind it. -/
def tableThenNull : Text :=
  lit ("\x7b\"tables\":[\x7b\"name\":\"t\",\"column\":[\"c\"],\"values\":[\"v\"]," ++
    "\"mapkey\":\x7b\"k\":1\x7d\x7d,null]\x7d")

/-- The statements of the first element are passed on, though the message is not accepted. -/
theorem tableThenNull_passed :
    ¬ PassedWhole wholeDoubles (readerOf tableThenNull [oneColumn ['v'], .null]) tableThenNull := by
  apply not_passedWhole
  refine ⟨[oneColumn ['v']], [], ?_, by simp, ?_⟩
  · exact hasTables_readerOf tableThenNull [oneColumn ['v'], .null]
  · intro v hv
    rw [List.mem_singleton.mp hv]
    exact acceptable_oneColumn ['v']

end DataSync.Client.BuildFinally
