import DataSync.Client.FastWriter

/-! # Statements from the text of a message

`LoadJson` with the reader of `jsoncpp` in the place of its parameter. A value that is printed by
`FastWriter` and read again may have another type, `intValue` for `uintValue` or the other way about, and an
integer for a double that is printed as one. The statements built from it are the same (`buildTable_reread`), so
that the text of a message carries its statements (`loadJson_write`), as long as such a double is printed by
`%.16g`, in a literal, as the integer is (`Alike`). -/

namespace DataSync.Client.MessageText

open DataSync.Client.BuildFinally
open DataSync.Client.JsonReader
open DataSync.Client.FastWriter

variable {ρ : Type} (F : DoubleFormat ρ)

/-- `LoadJson` of a text. What the reader throws, beyond a thousand open values, goes through it: it is neither an
`ExceptionParsejson` nor a failed assertion. -/
def loadText (readDouble : Text → Option ρ) (slack jsonData : Text) :
    Except Stop (Statements × Except Exception Bool) := do
  let (successful, root, _) ← parse readDouble jsonData slack
  return loadJson F (fun _ => if successful then some root else none) jsonData

/-! ### Values read again -/

theorem rereadItems_eq (items : List (Json ρ)) : rereadItems F items = items.map (reread F) := by
  induction items with
  | nil => rfl
  | cons v items ih => rw [rereadItems, ih, List.map_cons]

theorem rereadMembers_eq (members : List (Text × Json ρ)) :
    rereadMembers F members = members.map fun m => (m.1, reread F m.2) := by
  induction members with
  | nil => rfl
  | cons m members ih => rw [rereadMembers, ih, List.map_cons]

theorem lookup_rereadMembers (key : Text) (members : List (Text × Json ρ)) :
    (rereadMembers F members).lookup key = (members.lookup key).map (reread F) := by
  induction members with
  | nil => rfl
  | cons m members ih =>
    rw [rereadMembers, List.lookup_cons, List.lookup_cons, ih]
    cases key == m.1 <;> rfl

/-- A double that is printed as an integer is printed as that integer, by both formats: it is below `10 ^ 16` and
not the negative zero. -/
def Alike (r : ρ) : Prop := ∀ i, integerOf (F.g17 r) = some i → F.g17 r = intToString i ∧ F.g16 r = intToString i

/-- And so is the value, if it is a double. -/
def IsAlike (v : Json ρ) : Prop := ∀ r, v = .real r → Alike F r

/-- An integer prints alike as an `intValue` and as a `uintValue`. -/
theorem intToString_natCast (n : ℕ) : intToString n = uintToString n := by
  rw [intToString, if_neg (by omega), Int.natAbs_natCast]

theorem intToString_toNat {i : ℤ} (h : ¬ i ≤ maxInt) : uintToString i.toNat = intToString i := by
  rw [← intToString_natCast, Int.toNat_of_nonneg (by omega)]

theorem jsonValueToString_rereadInt (i : ℤ) : jsonValueToString F (rereadInt i) = intToString i := by
  unfold rereadInt
  split_ifs with h
  · rfl
  · exact intToString_toNat h

theorem asString_rereadInt (i : ℤ) : (rereadInt i : Json ρ).asString F = .ok (intToString i) := by
  unfold rereadInt
  split_ifs with h
  · rfl
  · exact congrArg Except.ok (intToString_toNat h)

/-- There is no exponent in an integer. -/
theorem normalizeFloatingPointStr_intToString (i : ℤ) :
    normalizeFloatingPointStr (intToString i) = intToString i := by
  have hno : (intToString i).reverse.findIdx? (fun c => c == 'e' || c == 'E') = none := by
    refine List.findIdx?_eq_none_iff.mpr fun c hc => ?_
    have hdigit : ∀ n, ∀ c ∈ uintToString n, (c == 'e' || c == 'E') = false := by
      intro n c hc
      have := isDigit_uintToString n c hc
      rw [Bool.or_eq_false_iff, beq_eq_false_iff_ne, beq_eq_false_iff_ne]
      exact ⟨by rintro rfl; exact absurd this (by decide), by rintro rfl; exact absurd this (by decide)⟩
    rw [List.mem_reverse, intToString] at hc
    split_ifs at hc
    · obtain rfl | hc := List.mem_cons.mp hc
      · decide
      · exact hdigit _ c hc
    · exact hdigit _ c hc
  rw [normalizeFloatingPointStr, hno]

/-- A double is read as a number again. -/
theorem reread_real (r : ρ) : (∃ i, reread F (.real r) = .int i) ∨ (∃ n, reread F (.real r) = .uint n) ∨
    reread F (.real r) = .real r := by
  unfold reread rereadInt
  cases integerOf (F.g17 r) with
  | none => exact .inr (.inr rfl)
  | some i =>
    dsimp only
    split_ifs
    · exact .inl ⟨i, rfl⟩
    · exact .inr (.inl ⟨i.toNat, rfl⟩)

variable {F}

theorem jsonValueToString_reread {v : Json ρ} (h : IsAlike F v) :
    jsonValueToString F (reread F v) = jsonValueToString F v := by
  cases v with
  | int i => exact jsonValueToString_rereadInt F i
  | uint n => exact (jsonValueToString_rereadInt F n).trans (intToString_natCast n)
  | real r =>
    simp only [reread]
    cases hi : integerOf (F.g17 r) with
    | none => rfl
    | some i =>
      have h16 : F.g16 r = intToString i := (h r rfl i hi).2
      calc jsonValueToString F (rereadInt i) = intToString i := jsonValueToString_rereadInt F i
        _ = normalizeFloatingPointStr (intToString i) := (normalizeFloatingPointStr_intToString i).symm
        _ = jsonValueToString F (.real r) := by rw [jsonValueToString, h16]
  | _ => simp [reread, jsonValueToString]

theorem asString_reread {v : Json ρ} (h : IsAlike F v) : (reread F v).asString F = v.asString F := by
  cases v with
  | int i => exact asString_rereadInt F i
  | uint n => exact (asString_rereadInt F n).trans (congrArg Except.ok (intToString_natCast n))
  | real r =>
    simp only [reread]
    cases hi : integerOf (F.g17 r) with
    | none => rfl
    | some i =>
      have h17 : F.g17 r = intToString i := (h r rfl i hi).1
      exact (asString_rereadInt F i).trans (by rw [Json.asString, h17])
  | _ => simp [reread, Json.asString]

theorem type_reread (v : Json ρ) : (reread F v).type = .stringValue ↔ v.type = .stringValue := by
  cases v with
  | int i =>
    simp only [reread, rereadInt]
    split_ifs <;> simp [Json.type]
  | uint n =>
    simp only [reread, rereadInt]
    split_ifs <;> simp [Json.type]
  | real r => obtain ⟨i, h⟩ | ⟨n, h⟩ | h := reread_real F r <;> simp [h, Json.type]
  | _ => simp [reread, Json.type]

/-! ### Elements read again -/

/-- A table element, read again. -/
def rereadTable (F : DoubleFormat ρ) (table : Table ρ) : Table ρ :=
  ⟨table.name, rereadItems F table.column, rereadItems F table.values, rereadMembers F table.mapkey⟩

/-- The doubles of the element that its statements print. -/
structure AlikeTable (F : DoubleFormat ρ) (table : Table ρ) : Prop where
  column : ∀ v ∈ table.column, IsAlike F v
  values : ∀ v ∈ table.values, IsAlike F v
  mapkey : ∀ m ∈ table.mapkey, IsAlike F m.2

theorem isAlike_null : IsAlike F (.null : Json ρ) := fun _ h => nomatch h

theorem mem_of_lookup {key : Text} {v : Json ρ} {members : List (Text × Json ρ)}
    (h : members.lookup key = some v) : (key, v) ∈ members := by
  obtain ⟨pre, post, rfl, -⟩ := List.lookup_eq_some_iff.mp h
  exact List.mem_append_right _ List.mem_cons_self

theorem isAlike_getD {items : List (Json ρ)} (h : ∀ v ∈ items, IsAlike F v) (i : ℕ) :
    IsAlike F (items.getD i .null) := by
  rw [List.getD_eq_getElem?_getD]
  cases hi : items[i]? with
  | none => exact isAlike_null
  | some v => exact h v (List.mem_of_getElem? hi)

theorem isAlike_key {table : Table ρ} (h : AlikeTable F table) (member : Text) : IsAlike F (table.key member) := by
  rw [Table.key]
  cases hv : table.mapkey.lookup member with
  | none => exact isAlike_null
  | some v => exact h.mapkey _ (mem_of_lookup hv)

theorem getD_rereadItems (items : List (Json ρ)) (i : ℕ) :
    (rereadItems F items).getD i .null = reread F (items.getD i .null) := by
  rw [rereadItems_eq, List.getD_eq_getElem?_getD, List.getD_eq_getElem?_getD, List.getElem?_map]
  cases items[i]? <;> rfl

theorem columnAt_reread (table : Table ρ) (i : ℕ) :
    (rereadTable F table).columnAt i = reread F (table.columnAt i) := getD_rereadItems _ i

theorem valueAt_reread (table : Table ρ) (i : ℕ) :
    (rereadTable F table).valueAt i = reread F (table.valueAt i) := getD_rereadItems _ i

theorem columnStep_reread {table : Table ρ} (h : AlikeTable F table) :
    columnStep F (rereadTable F table) = columnStep F table := by
  funext p i
  have hcolumn : IsAlike F (table.columnAt i) := isAlike_getD h.column i
  have hvalue : IsAlike F (table.valueAt i) := isAlike_getD h.values i
  simp only [columnStep, columnAt_reread, valueAt_reread, asString_reread hcolumn, jsonValueToString_reread hvalue]

theorem columnLoop_reread {table : Table ρ} (h : AlikeTable F table) (p : Parts) :
    columnLoop F (rereadTable F table) p = columnLoop F table p := by
  have hlen : (rereadTable F table).column.length = table.column.length := by
    simp [rereadTable, rereadItems_eq]
  have hcolumn : IsAlike F (table.columnAt (lastIndex table.column.length)) := isAlike_getD h.column _
  have hvalue : IsAlike F (table.valueAt (lastIndex table.column.length)) := isAlike_getD h.values _
  simp only [columnLoop, hlen, columnStep_reread h, columnAt_reread, valueAt_reread, asString_reread hcolumn,
    jsonValueToString_reread hvalue]

theorem key_reread (table : Table ρ) (member : Text) :
    (rereadTable F table).key member = reread F (table.key member) := by
  rw [Table.key, Table.key, rereadTable, lookup_rereadMembers]
  cases table.mapkey.lookup member <;> rfl

theorem selectWhere_reread {table : Table ρ} (h : AlikeTable F table) (members : List Text) (strSelect : Text) :
    selectWhere F (rereadTable F table) members strSelect = selectWhere F table members strSelect := by
  have hlookup : ∀ member, ((rereadTable F table).mapkey.lookup member).isSome =
      (table.mapkey.lookup member).isSome := fun member => by
    rw [rereadTable, lookup_rereadMembers, Option.isSome_map]
  induction members generalizing strSelect with
  | nil => rfl
  | cons member members ih =>
    simp only [selectWhere, hlookup, key_reread, jsonValueToString_reread (isAlike_key h member), ih]

theorem updateWhere_reread {table : Table ρ} (h : AlikeTable F table) (members : List Text) (strUpdate : Text) :
    updateWhere F (rereadTable F table) members strUpdate = updateWhere F table members strUpdate := by
  have hvalue : ∀ member, whereValue F (reread F (table.key member)) = whereValue F (table.key member) :=
    fun member => by
      simp only [whereValue, ne_eq, type_reread, jsonValueToString_reread (isAlike_key h member)]
  induction members generalizing strUpdate with
  | nil => rfl
  | cons member members ih => simp only [updateWhere, key_reread, hvalue, ih]

theorem readColumns_reread (name : Text) (members : List (Text × Json ρ)) :
    readColumns name (.object (rereadMembers F members)) =
      (readColumns name (.object members)).map (rereadTable F) := by
  simp only [readColumns, Json.isMember, Json.member, lookup_rereadMembers, Option.isSome_map]
  cases members.lookup (lit "column") with
  | none => rfl
  | some column =>
    cases members.lookup (lit "values") with
    | none => rfl
    | some values =>
      cases members.lookup (lit "mapkey") with
      | none => rfl
      | some mapkey =>
        simp only [ok_bind, Option.isSome_some, Bool.and_self, check, if_true, Option.map_some,
          Option.getD_some]
        cases mapkey with
        | object mapkey =>
          cases column with
          | array column =>
            cases values with
            | array values =>
              by_cases hlen : column.length = values.length
              · simp [reread, rereadItems_eq, hlen, ok_bind, Except.map, rereadTable, pure, Except.pure]
              · simp [reread, rereadItems_eq, hlen, throwParsejson, bind, Except.bind, Except.map]
            | int i => simp only [reread, rereadInt]; split_ifs <;> rfl
            | uint n => simp only [reread, rereadInt]; split_ifs <;> rfl
            | real r => obtain ⟨i, h⟩ | ⟨n, h⟩ | h := reread_real F r <;> rw [h] <;> rfl
            | _ => rfl
          | int i => simp only [reread, rereadInt]; split_ifs <;> rfl
          | uint n => simp only [reread, rereadInt]; split_ifs <;> rfl
          | real r => obtain ⟨i, h⟩ | ⟨n, h⟩ | h := reread_real F r <;> rw [h] <;> rfl
          | _ => rfl
        | int i => simp only [reread, rereadInt]; split_ifs <;> rfl
        | uint n => simp only [reread, rereadInt]; split_ifs <;> rfl
        | real r => obtain ⟨i, h⟩ | ⟨n, h⟩ | h := reread_real F r <;> rw [h] <;> rfl
        | _ => rfl

/-- The checks of an element do not see the difference. -/
theorem readTable_reread (v : Json ρ) : readTable (reread F v) = (readTable v).map (rereadTable F) := by
  cases v with
  | object members =>
    simp only [readTable, reread, Json.type, Json.isMember, Json.member, lookup_rereadMembers,
      Option.isSome_map, reduceCtorEq, if_false]
    cases members.lookup (lit "name") with
    | none => rfl
    | some name =>
      simp only [Option.map_some, Option.getD_some, Option.isSome_some, ok_bind, check, if_true]
      cases name with
      | string name => exact readColumns_reread name members
      | int i => simp only [reread, rereadInt]; split_ifs <;> rfl
      | uint n => simp only [reread, rereadInt]; split_ifs <;> rfl
      | real r => obtain ⟨i, h⟩ | ⟨n, h⟩ | h := reread_real F r <;> rw [h] <;> rfl
      | _ => rfl
  | int i => simp only [reread, rereadInt]; split_ifs <;> rfl
  | uint n => simp only [reread, rereadInt]; split_ifs <;> rfl
  | real r => obtain ⟨i, h⟩ | ⟨n, h⟩ | h := reread_real F r <;> rw [h] <;> rfl
  | _ => rfl

theorem isAlike_of_built {d : ℕ} {v : Json ρ} (h : Built (IsAlike F) d v) : IsAlike F v := by
  rcases d with _ | d
  · exact absurd h (by simp [Built])
  · cases v with
    | array | object =>
      intro _ hr
      cases hr
    | _ => exact h

/-- The doubles of an element are doubles of the value. -/
theorem alikeTable_of_built {d : ℕ} {v : Json ρ} {table : Table ρ} (h : Built (IsAlike F) d v)
    (htable : IsTable v table) : AlikeTable F table := by
  obtain ⟨members, rfl, -, hcolumn, hvalues, hmapkey, -⟩ := htable
  obtain _ | d := d
  · exact absurd h (by simp [Built])
  have hmember : ∀ {key w}, members.lookup key = some w → Built (IsAlike F) d w := fun hw =>
    h.2 _ (mem_of_lookup hw)
  obtain _ | d := d
  · exact absurd (hmember hcolumn) (by simp [Built])
  exact ⟨fun w hw => isAlike_of_built (hmember hcolumn w hw), fun w hw => isAlike_of_built (hmember hvalues w hw),
    fun m hm => isAlike_of_built ((hmember hmapkey).2 m hm)⟩

/-- **The statements of an element are those of the value before it was printed.** -/
theorem buildTable_reread {d : ℕ} {v : Json ρ} (h : Built (IsAlike F) d v) :
    buildTable F (reread F v) = buildTable F v := by
  unfold buildTable
  rw [readTable_reread]
  rcases htable : readTable v with exit | table
  · rfl
  have halike : AlikeTable F table := alikeTable_of_built h ((readTable_ok_iff v table).mp htable)
  have hmap : (Except.ok table : Except Exit (Table ρ)).map (rereadTable F) = .ok (rereadTable F table) := rfl
  have hname : (rereadTable F table).name = table.name := rfl
  have hkeys : (rereadTable F table).mapkey.map Prod.fst = table.mapkey.map Prod.fst := by
    simp [rereadTable, rereadMembers_eq]
  have hlen : (rereadTable F table).mapkey.length = table.mapkey.length := by
    simp [rereadTable, rereadMembers_eq]
  rw [hmap, ok_bind, ok_bind, columnLoop_reread halike, hname, hlen, hkeys]
  simp only [selectWhere_reread halike, updateWhere_reread halike]

theorem loadTables_reread {d : ℕ} {vTables : List (Json ρ)} (h : ∀ v ∈ vTables, Built (IsAlike F) d v)
    (s : Statements) : loadTables F (rereadItems F vTables) s = loadTables F vTables s := by
  induction vTables generalizing s with
  | nil => rfl
  | cons v vTables ih =>
    rw [rereadItems, loadTables, loadTables, buildTable_reread (h v List.mem_cons_self)]
    cases buildTable F v with
    | error exit => rfl
    | ok row => exact ih (fun w hw => h w (List.mem_cons_of_mem _ hw)) _

theorem tablesOf_reread (root : Json ρ) : tablesOf (reread F root) = (tablesOf root).map (rereadItems F) := by
  cases root with
  | object members =>
    simp only [tablesOf, reread, Json.isMember, Json.member, lookup_rereadMembers, Option.isSome_map]
    cases members.lookup (lit "tables") with
    | none => rfl
    | some tables =>
      simp only [Option.map_some, Option.getD_some, Option.isSome_some, ok_bind, check, if_true]
      cases tables with
      | int i => simp only [reread, rereadInt]; split_ifs <;> rfl
      | uint n => simp only [reread, rereadInt]; split_ifs <;> rfl
      | real r => obtain ⟨i, h⟩ | ⟨n, h⟩ | h := reread_real F r <;> rw [h] <;> rfl
      | _ => rfl
  | int i => simp only [reread, rereadInt]; split_ifs <;> rfl
  | uint n => simp only [reread, rereadInt]; split_ifs <;> rfl
  | real r => obtain ⟨i, h⟩ | ⟨n, h⟩ | h := reread_real F r <;> rw [h] <;> rfl
  | _ => rfl

variable (F)

/-- **The text of a message carries its statements.** A value that is printed by `FastWriter` and read by
`LoadJson` gives the statements, or the exception, that the value itself gives. -/
theorem loadJson_write {readDouble : Text → Option ρ} {root : Json ρ}
    (h : Built (IsWritten readDouble F) stackLimit root) (halike : Built (IsAlike F) stackLimit root)
    (slack : Text) :
    loadText F readDouble slack (write F root) = .ok (loadJson F (fun _ => some root) (write F root)) := by
  obtain ⟨r, hr, -⟩ := parse_write h slack
  simp only [loadText, hr, ok_bind, if_true, loadJson, tablesOf_reread]
  rcases htables : tablesOf root with exit | vTables
  · rfl
  obtain ⟨members, rfl, hlookup⟩ := (tablesOf_ok_iff root vTables).mp htables
  have hall : ∀ v ∈ vTables, Built (IsAlike F) (stackLimit - 2) v := halike.2 _ (mem_of_lookup hlookup)
  exact congrArg Except.ok (loadTables_reread hall _)

/-- A table with two columns: a double with a point, and an integer that does not fit an `int`. The key is a double
without a point. -/
def twoColumns : Json Sample :=
  .object [(lit "column", .array [.string ['c'], .string ['d']]), (lit "mapkey", .object [(['k'], .real .five)]),
    (lit "name", .string ['t']), (lit "values", .array [.real .half, .int 5000000000])]

theorem acceptable_twoColumns : Acceptable twoColumns := by
  refine ⟨⟨['t'], [.string ['c'], .string ['d']], [.real .half, .int 5000000000], [(['k'], .real .five)]⟩,
    ⟨_, rfl, rfl, rfl, rfl, rfl, rfl⟩, fun i hi => ?_, by simp⟩
  have hone : lastIndex 2 = 1 := lastIndex_succ (by norm_num)
  have hle : i ≤ 1 := hone ▸ hi
  obtain rfl | rfl : i = 0 ∨ i = 1 := by omega
  · simp [Table.columnAt, HasText, Json.type]
  · simp [Table.columnAt, HasText, Json.type]

theorem isAlike_sample (v : Json Sample) : IsAlike sampleFormat v := by
  rintro (_ | _) - i hi
  · have hhalf : integerOf (lit "0.5") = none := by decide
    exact absurd (hhalf.symm.trans hi) (by simp)
  · have hfive : integerOf (lit "5") = some 5 := by decide
    obtain rfl : 5 = i := Option.some.inj (hfive.symm.trans hi)
    decide

/-- A message with that table. -/
def oneMessage : Json Sample := .object [(lit "tables", .array [twoColumns])]

theorem loadJson_write_oneMessage : ∃ s,
    loadText sampleFormat readSample [] (write sampleFormat oneMessage) = .ok (s, .ok true) := by
  have htables : HasTables (fun _ => some oneMessage) (write sampleFormat oneMessage) [twoColumns] :=
    ⟨_, rfl, rfl⟩
  obtain ⟨rows, -, hload⟩ := accepted_of_acceptable (F := sampleFormat) htables (by simpa using acceptable_twoColumns)
  have hordered : (lit "column" < lit "mapkey" ∧ lit "column" < lit "name" ∧ lit "column" < lit "values") ∧
      (lit "mapkey" < lit "name" ∧ lit "mapkey" < lit "values") ∧ lit "name" < lit "values" := by decide
  have hwritten : Built (IsWritten readSample sampleFormat) stackLimit oneMessage := by
    simpa [oneMessage, twoColumns, Built, Ordered, IsWritten, stackLimit, maxLargestInt, readsBack_sample]
      using hordered
  have halike : Built (IsAlike sampleFormat) stackLimit oneMessage := by
    simpa [oneMessage, twoColumns, Built, Ordered, stackLimit, isAlike_sample] using hordered
  exact ⟨_, (loadJson_write sampleFormat hwritten halike []).trans (congrArg Except.ok hload)⟩

end DataSync.Client.MessageText
