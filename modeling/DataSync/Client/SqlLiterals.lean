import DataSync.Lib.Literals
import DataSync.Client.BuildFinally

/-! # Values in the statements of a message

`JsonValueToString` puts a string between double quotes as it is. The statements of an accepted element are
laid out as fields (`selectFields`, `insertFields`, `updateFields`): the names and keywords up to each
value, and the value. In the UPDATE's `where` also values that are not strings stand between quotes.

`structured_iff`: every string of a message is one literal of its statements with the string as its value,
and the tokens that are not constants are those the names give, if and only if no string has a quote
or a backslash that escapes and the names before each string leave no literal open. -/

namespace DataSync.Client.SqlLiterals

open DataSync.Lib.Literals DataSync.Client.BuildFinally

variable {ρ : Type}

/-! ### Values that are not strings -/

theorem isNumber_of_digits {w : List Char} (hne : w ≠ []) (h : ∀ c ∈ w, c.isDigit = true) :
    isNumber w = true := by
  have hall : w.all numberChar = true := by
    rw [List.all_eq_true]
    intro c hc
    simp [numberChar, h c hc]
  obtain ⟨c, w, rfl⟩ := List.exists_cons_of_ne_nil hne
  have hc := h c (by simp)
  cases w with
  | nil => simp [isNumber, startsNumber, hc, hall]
  | cons d w => simp [isNumber, startsNumber, hc, hall]

theorem uintToString_digits (n : ℕ) : ∀ c ∈ uintToString n, c.isDigit = true :=
  fun _ hc => Nat.isDigit_of_mem_toDigits (by decide) (by decide) hc

theorem uintToString_ne_nil (n : ℕ) : uintToString n ≠ [] := Nat.toDigits_ne_nil

theorem isNumber_intToString (i : ℤ) : isNumber (intToString i) = true := by
  have hdigits := uintToString_digits i.natAbs
  have hnum := isNumber_of_digits (uintToString_ne_nil i.natAbs) hdigits
  unfold intToString
  split
  · obtain ⟨c, w, hw⟩ := List.exists_cons_of_ne_nil (uintToString_ne_nil i.natAbs)
    have hall := (Bool.and_eq_true_iff.mp hnum).2
    rw [hw] at hdigits hall ⊢
    have hc := hdigits c (by simp)
    rw [List.all_cons, Bool.and_eq_true_iff] at hall
    simp [isNumber, startsNumber, hc, hall, numberChar]
  · exact hnum

theorem not_exponent_of_startsNumber {c : Char} {s : List Char} (h : startsNumber (c :: s) = true) :
    (c == 'e' || c == 'E') = false := by
  by_contra he
  have hc : c = 'e' ∨ c = 'E' := by
    rw [Bool.not_eq_false, Bool.or_eq_true_iff] at he
    simpa using he
  rcases hc with rfl | rfl <;> cases s <;> simp [startsNumber] at h

/-- Without the zeros of its exponent a number is a number. -/
theorem isNumber_normalize {s : Text} (h : isNumber s = true) :
    isNumber (normalizeFloatingPointStr s) = true := by
  obtain ⟨hstart, hall⟩ := Bool.and_eq_true_iff.mp h
  unfold normalizeFloatingPointStr
  split
  · exact h
  · rename_i k hk
    obtain ⟨hlt, hfound, -⟩ := List.findIdx?_eq_some_iff_getElem.mp hk
    rw [List.length_reverse] at hlt
    rw [List.getElem_reverse] at hfound
    simp only
    -- the exponent is not the first character, so the first two stay
    have hindex : 1 ≤ s.length - 1 - k := by
      by_contra hzero
      obtain ⟨c, t, rfl⟩ := List.exists_cons_of_ne_nil (List.ne_nil_of_length_pos (by omega : 0 < s.length))
      have hz : (c :: t).length - 1 - k = 0 := by omega
      simp only [hz, List.getElem_cons_zero] at hfound
      rw [not_exponent_of_startsNumber hstart] at hfound
      exact absurd hfound (by simp)
    generalize hpos : s.length - 1 - k + 1 +
      (if s[s.length - 1 - k + 1]? = some '+' ∨ s[s.length - 1 - k + 1]? = some '-' then 1 else 0) = pos
    have htwo : 2 ≤ pos := by omega
    refine Bool.and_eq_true_iff.mpr ⟨?_, ?_⟩
    · obtain ⟨c, d, t, rfl⟩ : ∃ c d t, s = c :: d :: t := by
        match s, hlt, hindex with
        | [], hlt, _ => simp at hlt
        | [c], _, hindex => simp at hindex
        | c :: d :: t, _, _ => exact ⟨c, d, t, rfl⟩
      obtain ⟨n, rfl⟩ : ∃ n, pos = n + 2 := ⟨pos - 2, by omega⟩
      exact hstart
    · have hmem : ∀ c ∈ s, numberChar c = true := List.all_eq_true.mp hall
      rw [List.all_eq_true]
      intro c hc
      rcases List.mem_append.mp hc with hc | hc
      · exact hmem c (List.mem_of_mem_take hc)
      · split at hc
        · rw [List.mem_singleton.mp hc]
          rfl
        · exact hmem c (List.mem_of_mem_drop ((List.dropWhile_sublist _).subset hc))

/-- A value that is not a string is written as a constant. -/
theorem isConstant_value {F : DoubleFormat ρ} (hF : ∀ r, isNumber (F.g16 r) = true) {v : Json ρ}
    (hv : ∀ s, v ≠ .string s) : isConstant (jsonValueToString F v) = true := by
  have hnum : ∀ {w : Text}, isNumber w = true → isConstant w = true := fun hw => by simp [isConstant, hw]
  cases v with
  | string s => exact absurd rfl (hv s)
  | int i => exact hnum (isNumber_intToString i)
  | uint n => exact hnum (isNumber_of_digits (uintToString_ne_nil n) (uintToString_digits n))
  | real r => exact hnum (isNumber_normalize (hF r))
  | null | bool _ | array _ | object _ => rfl

/-! ### The layout of the statements -/

/-- The value as `JsonValueToString` writes it. -/
def valueOf (F : DoubleFormat ρ) : Json ρ → Value
  | .string s => .string s
  | v => .bare (jsonValueToString F v)

/-- The value in the UPDATE's `where`. -/
def whereOf (F : DoubleFormat ρ) : Json ρ → Value
  | .string s => .string s
  | v => .quoted (jsonValueToString F v)

theorem text_valueOf (F : DoubleFormat ρ) (v : Json ρ) : (valueOf F v).text = jsonValueToString F v := by
  cases v <;> rfl

theorem text_whereOf (F : DoubleFormat ρ) (v : Json ρ) : (whereOf F v).text = whereValue F v := by
  cases v <;> rfl

theorem string_of_valueOf {F : DoubleFormat ρ} {v : Json ρ} {s : List Char}
    (h : valueOf F v = .string s) : v = .string s := by
  cases v <;> simp_all [valueOf]

theorem string_of_whereOf {F : DoubleFormat ρ} {v : Json ρ} {s : List Char}
    (h : whereOf F v = .string s) : v = .string s := by
  cases v <;> simp_all [whereOf]

theorem compatible_valueOf (F : DoubleFormat ρ) (v v' : Json ρ) :
    (valueOf F v).Compatible (valueOf F v') := by
  cases v <;> cases v' <;> trivial

theorem compatible_whereOf (F : DoubleFormat ρ) (v v' : Json ρ) :
    (whereOf F v).Compatible (whereOf F v') := by
  cases v <;> cases v' <;> trivial

/-- The names of the members of `mapkey`. -/
def Table.members (table : Table ρ) : List Text := table.mapkey.map Prod.fst

/-- The columns of the INSERT. -/
def columnList (F : DoubleFormat ρ) (table : Table ρ) : Text :=
  let last := lastIndex table.column.length
  lit " (" ++ (List.range last).flatMap (fun i => columnText F table i ++ [',']) ++
    columnText F table last ++ lit ", hm_update_timestamp)"

def selectFields (F : DoubleFormat ρ) (table : Table ρ) : List Field :=
  fieldsOf (fun k => k ++ ['=']) (fun k => valueOf F (table.key k)) (lit " and ")
    (lit "select * from " ++ table.name ++ lit " where ") (Table.members table)

def insertFields (F : DoubleFormat ρ) (table : Table ρ) : List Field :=
  fieldsOf (fun _ => []) (fun i => valueOf F (table.valueAt i)) [',']
    (lit "insert into " ++ table.name ++ columnList F table ++ lit " values " ++ lit " (")
    (List.range (lastIndex table.column.length + 1))

def updateFields (F : DoubleFormat ρ) (table : Table ρ) : List Field :=
  fieldsOf (fun i => columnText F table i ++ ['=']) (fun i => valueOf F (table.valueAt i)) (lit ", ")
      (lit "update " ++ table.name ++ lit " set ")
      (List.range (lastIndex table.column.length + 1)) ++
    fieldsOf (fun k => k ++ ['=']) (fun k => whereOf F (table.key k)) (lit " and ")
      (lit ", hm_update_timestamp=0" ++ lit " where ") (Table.members table)

/-- What the INSERT has behind its values. -/
def insertTail : Text := lit ", 0)"

theorem conditions_concat (value : Text → Text) (ks : List Text) (k : Text) :
    conditions value (ks ++ [k]) =
      ks.flatMap (fun k => k ++ ['='] ++ value k ++ lit " and ") ++ k ++ ['='] ++ value k := by
  induction ks with
  | nil => simp [conditions]
  | cons j ks ih => simp [conditions, ih]

theorem select_layout (F : DoubleFormat ρ) (table : Table ρ) (hkey : table.mapkey ≠ []) :
    (rowOf F table).select = textOf (selectFields F table) [] := by
  obtain ⟨ks, k, hks⟩ : ∃ ks k, table.mapkey.map Prod.fst = ks ++ [k] :=
    ⟨_, _, (List.dropLast_append_getLast (by simpa using hkey)).symm⟩
  simp only [rowOf, selectFields, Table.members, hks, textOf_fieldsOf, conditions_concat, text_valueOf,
    List.append_assoc, List.append_nil]

theorem insert_layout (F : DoubleFormat ρ) (table : Table ρ) :
    (rowOf F table).insert = textOf (insertFields F table) insertTail := by
  simp only [rowOf, insertFields, insertTail, columnList]
  generalize lastIndex table.column.length = last
  rw [List.range_succ, textOf_fieldsOf]
  simp only [Parts.extend, text_valueOf, valueText, List.append_assoc, List.nil_append]

theorem update_layout (F : DoubleFormat ρ) (table : Table ρ) (hkey : table.mapkey ≠ []) :
    (rowOf F table).update = textOf (updateFields F table) [] := by
  obtain ⟨ks, k, hks⟩ : ∃ ks k, table.mapkey.map Prod.fst = ks ++ [k] :=
    ⟨_, _, (List.dropLast_append_getLast (by simpa using hkey)).symm⟩
  simp only [rowOf, updateFields, Table.members, hks]
  generalize lastIndex table.column.length = last
  rw [List.range_succ, textOf_append, textOf_fieldsOf, textOf_fieldsOf, conditions_concat]
  simp only [Parts.extend, text_valueOf, text_whereOf, valueText, List.append_assoc, List.append_nil]

/-! ### One element -/

theorem constant_valueOf {F : DoubleFormat ρ} (hF : ∀ r, isNumber (F.g16 r) = true) (v : Json ρ) :
    (valueOf F v).Constant := by
  cases v with
  | string s => trivial
  | null | int _ | uint _ | real _ | bool _ | array _ | object _ => exact isConstant_value hF (by simp)

theorem constant_whereOf {F : DoubleFormat ρ} (hF : ∀ r, isNumber (F.g16 r) = true) (v : Json ρ) :
    (whereOf F v).Constant := by
  cases v with
  | string s => trivial
  | null | int _ | uint _ | real _ | bool _ | array _ | object _ => exact isConstant_value hF (by simp)

theorem endsDelimited_equals (lead name : Text) : EndsDelimited (lead ++ (name ++ ['='])) :=
  ⟨lead ++ name, '=', by simp, rfl⟩

theorem startsDelimited_and : StartsDelimited (lit " and ") := ⟨' ', _, rfl, rfl⟩

theorem startsDelimited_comma : StartsDelimited (lit ", ") := ⟨',', _, rfl, rfl⟩

section Element

variable {F : DoubleFormat ρ} {table table' : Table ρ}

theorem spaced_select : Spaced (selectFields F table) [] :=
  spaced_fieldsOf (endsDelimited_equals _) (endsDelimited_equals _) startsDelimited_and (Or.inl rfl)

theorem spaced_insert : Spaced (insertFields F table) insertTail := by
  unfold insertFields
  apply spaced_fieldsOf
  · intro _
    rw [List.append_nil]
    exact EndsDelimited.append ⟨[' '], '(', rfl, rfl⟩ _
  · exact fun _ => ⟨[], ',', rfl, rfl⟩
  · exact ⟨',', [], rfl, rfl⟩
  · exact Or.inr ⟨',', _, rfl, rfl⟩

theorem spaced_update : Spaced (updateFields F table) [] := by
  refine Spaced.append
    (spaced_fieldsOf (fun i => endsDelimited_equals _ (columnText F table i))
      (fun i => endsDelimited_equals _ (columnText F table i)) startsDelimited_comma (Or.inl rfl))
    (spaced_fieldsOf (endsDelimited_equals _) (endsDelimited_equals _) startsDelimited_and (Or.inl rfl))
    fun f hf => ?_
  have hlead : StartsDelimited (lit ", hm_update_timestamp=0" ++ lit " where ") := ⟨',', _, rfl, rfl⟩
  obtain ⟨k, -, -, h | h⟩ := mem_fieldsOf hf
  · exact h ▸ hlead.append _
  · exact h ▸ startsDelimited_and.append _

/-- Every string of the element is one literal in the statements that have it. -/
def RowLiterals (F : DoubleFormat ρ) (table : Table ρ) (row : Row) : Prop :=
  AreLiterals (selectFields F table) [] row.select ∧
    AreLiterals (insertFields F table) insertTail row.insert ∧
    AreLiterals (updateFields F table) [] row.update

/-- No string has a quote or a backslash that escapes, and the names before it leave no literal open. -/
def CleanTable (F : DoubleFormat ρ) (table : Table ρ) : Prop :=
  SoundNames (.plain []) (selectFields F table) ∧ SoundNames (.plain []) (insertFields F table) ∧
    SoundNames (.plain []) (updateFields F table)

/-- The elements have the same table name, column names and `mapkey` names. -/
def SameNames (table table' : Table ρ) : Prop :=
  table.name = table'.name ∧ table.column = table'.column ∧ Table.members table = Table.members table'

/-- The statements have the same tokens but for strings, numbers and `null`. -/
def SameSkeleton (row row' : Row) : Prop :=
  skeleton (tokens row.select) = skeleton (tokens row'.select) ∧
    skeleton (tokens row.insert) = skeleton (tokens row'.insert) ∧
    skeleton (tokens row.update) = skeleton (tokens row'.update)

variable (hF : ∀ r, isNumber (F.g16 r) = true)
include hF

theorem constant_select : ∀ f ∈ selectFields F table, f.2.Constant :=
  constant_fieldsOf fun _ => constant_valueOf hF _

theorem constant_insert : ∀ f ∈ insertFields F table, f.2.Constant :=
  constant_fieldsOf fun _ => constant_valueOf hF _

theorem constant_update : ∀ f ∈ updateFields F table, f.2.Constant := by
  intro f hf
  rcases List.mem_append.mp hf with hf | hf
  · exact constant_fieldsOf (fun _ => constant_valueOf hF _) f hf
  · exact constant_fieldsOf (fun _ => constant_whereOf hF _) f hf

theorem rowLiterals_iff (hkey : table.mapkey ≠ []) :
    RowLiterals F table (rowOf F table) ↔ CleanTable F table := by
  unfold RowLiterals CleanTable
  rw [select_layout F table hkey, insert_layout, update_layout F table hkey,
    areLiterals_iff spaced_select (constant_select hF), areLiterals_iff spaced_insert (constant_insert hF),
    areLiterals_iff spaced_update (constant_update hF)]

/-- The tokens but for the constants depend on the names only. -/
theorem sameSkeleton (hnames : SameNames table table') (hkey : table.mapkey ≠ [])
    (hkey' : table'.mapkey ≠ []) (hclean : CleanTable F table) (hclean' : CleanTable F table') :
    SameSkeleton (rowOf F table) (rowOf F table') := by
  obtain ⟨hname, hcolumn, hmembers⟩ := hnames
  have htext : columnText F table = columnText F table' := by
    funext i
    simp [columnText, Table.columnAt, hcolumn]
  have hlist : columnList F table = columnList F table' := by
    simp [columnList, htext, hcolumn]
  unfold SameSkeleton
  rw [select_layout F table hkey, insert_layout, update_layout F table hkey,
    select_layout F table' hkey', insert_layout, update_layout F table' hkey']
  refine ⟨skeleton_eq ?_ spaced_select spaced_select (constant_select hF) (constant_select hF) hclean.1
      hclean'.1,
    skeleton_eq ?_ spaced_insert spaced_insert (constant_insert hF) (constant_insert hF) hclean.2.1
      hclean'.2.1,
    skeleton_eq ?_ spaced_update spaced_update (constant_update hF) (constant_update hF) hclean.2.2
      hclean'.2.2⟩
  · unfold selectFields
    rw [hname, hmembers]
    exact forall₂_fieldsOf fun _ => compatible_valueOf F _ _
  · unfold insertFields
    rw [hname, hlist, hcolumn]
    exact forall₂_fieldsOf fun _ => compatible_valueOf F _ _
  · unfold updateFields
    rw [hname, hmembers, hcolumn, htext]
    exact List.rel_append (forall₂_fieldsOf fun _ => compatible_valueOf F _ _)
      (forall₂_fieldsOf fun _ => compatible_whereOf F _ _)

end Element

theorem quoteless_columnList {F : DoubleFormat ρ} {table : Table ρ}
    (hcolumn : ∀ i, Quoteless (columnText F table i)) : Quoteless (columnList F table) := by
  have hcomma : ∀ i, Quoteless (columnText F table i ++ [',']) := fun i =>
    (hcolumn i).append (by simp [Quoteless])
  have hmany : Quoteless ((List.range (lastIndex table.column.length)).flatMap
      fun i => columnText F table i ++ [',']) := by
    intro h
    obtain ⟨i, -, hi⟩ := List.mem_flatMap.mp h
    exact hcomma i hi
  have hopen : Quoteless (lit " (") := by decide
  have hlast : Quoteless (lit ", hm_update_timestamp)") := by decide
  exact ((hopen.append hmany).append (hcolumn _)).append hlast

/-- Without quotes in the names the strings decide. -/
theorem cleanTable_of_quoteless {F : DoubleFormat ρ} {table : Table ρ} (hname : Quoteless table.name)
    (hcolumn : ∀ i, Quoteless (columnText F table i)) (hmembers : ∀ k ∈ Table.members table, Quoteless k)
    (hvalues : ∀ i s, table.valueAt i = .string s → clean s = true)
    (hkeys : ∀ k s, table.key k = .string s → clean s = true) : CleanTable F table := by
  have hequals : ∀ {t : Text}, Quoteless t → Quoteless (t ++ ['=']) := fun ht => ht.append (by decide)
  have hvalue : ∀ i s, valueOf F (table.valueAt i) = .string s → clean s = true :=
    fun i s hs => hvalues i s (string_of_valueOf hs)
  refine ⟨soundNames_of_quoteless rfl spaced_select.ends ?_
      (clean_fieldsOf fun k s hs => hkeys k s (string_of_valueOf hs)),
    soundNames_of_quoteless rfl spaced_insert.ends ?_ (clean_fieldsOf hvalue),
    soundNames_of_quoteless rfl spaced_update.ends (fun f hf => ?_) fun f hf => ?_⟩
  · have hlead : Quoteless (lit "select * from " ++ table.name ++ lit " where ") :=
      (Quoteless.append (by decide) hname).append (by decide)
    exact quoteless_fieldsOf hlead (by decide) fun k hk => hequals (hmembers k hk)
  · have hlead : Quoteless (lit "insert into " ++ table.name ++ columnList F table ++ lit " values " ++
        lit " (") :=
      (((Quoteless.append (by decide) hname).append (quoteless_columnList hcolumn)).append
        (by decide)).append (by decide)
    exact quoteless_fieldsOf hlead (by decide) fun _ _ => by simp [Quoteless]
  · rcases List.mem_append.mp hf with hf | hf
    · have hlead : Quoteless (lit "update " ++ table.name ++ lit " set ") :=
        (Quoteless.append (by decide) hname).append (by decide)
      exact quoteless_fieldsOf hlead (by decide) (fun i _ => hequals (hcolumn i)) f hf
    · have hlead : Quoteless (lit ", hm_update_timestamp=0" ++ lit " where ") :=
        Quoteless.append (by decide) (by decide)
      exact quoteless_fieldsOf hlead (by decide) (fun k hk => hequals (hmembers k hk)) f hf
  · rcases List.mem_append.mp hf with hf | hf
    · exact clean_fieldsOf hvalue f hf
    · exact clean_fieldsOf (fun k s hs => hkeys k s (string_of_whereOf hs)) f hf

/-! ### Whole messages -/

/-- Every string of every element is one literal of the element's statements, and the tokens that are not
constants are the same for every element with the same names whose strings are literals. -/
def Structured (F : DoubleFormat ρ) (vTables : List (Json ρ)) (s : Statements) : Prop :=
  ∀ (i : ℕ) v table, vTables[i]? = some v → IsTable v table → ∃ row : Row,
    s.sqlSelect[i]? = some row.select ∧ s.sqlInsert[i]? = some row.insert ∧
      s.sqlUpdate[i]? = some row.update ∧ RowLiterals F table row ∧
      ∀ v' table' row', IsTable v' table' → buildTable F v' = .ok row' → SameNames table table' →
        RowLiterals F table' row' → SameSkeleton row row'

section Message

variable {F : DoubleFormat ρ} {parse : Text → Option (Json ρ)} {body : Text} {vTables : List (Json ρ)}
  {s : Statements}

/-- The statements of an element of an accepted message. -/
theorem row_of_accepted (h : HasTables parse body vTables) (hs : loadJson F parse body = (s, .ok true))
    {i : ℕ} {v : Json ρ} (hv : vTables[i]? = some v) : ∃ row, buildTable F v = .ok row ∧
      s.sqlSelect[i]? = some row.select ∧ s.sqlInsert[i]? = some row.insert ∧
      s.sqlUpdate[i]? = some row.update := by
  obtain ⟨rows, hrows, rfl⟩ := rows_of_accepted h hs
  obtain ⟨hi, rfl⟩ := List.getElem?_eq_some_iff.mp hv
  have hi' : i < rows.length := hrows.length_eq ▸ hi
  refine ⟨rows[i], hrows.get hi hi', ?_, ?_, ?_⟩
  · simp [Statements.pushAll, Statements.empty, hi']
  · simp [Statements.pushAll, Statements.empty, hi']
  · simp [Statements.pushAll, Statements.empty, hi']

/-- The row of a table. -/
theorem eq_rowOf {v : Json ρ} {row : Row} {table : Table ρ} (hrow : buildTable F v = .ok row)
    (htable : IsTable v table) : table.mapkey ≠ [] ∧ row = rowOf F table := by
  obtain ⟨table', htable', -, hkey, hrow⟩ := (buildTable_ok_iff F v row).mp hrow
  obtain rfl := htable.unique htable'
  exact ⟨hkey, hrow⟩

variable (hF : ∀ r, isNumber (F.g16 r) = true)
include hF

theorem cleanTable_of_structured (h : HasTables parse body vTables)
    (hs : loadJson F parse body = (s, .ok true)) (hstr : Structured F vTables s) :
    ∀ v ∈ vTables, ∀ table, IsTable v table → CleanTable F table := by
  intro v hv table htable
  obtain ⟨i, hi⟩ := List.mem_iff_getElem?.mp hv
  obtain ⟨row, hsel, hins, hupd, hlit, -⟩ := hstr i v table hi htable
  obtain ⟨row', hrow', hsel', hins', hupd'⟩ := row_of_accepted h hs hi
  obtain rfl : row = row' := by
    obtain ⟨sel, ins, upd⟩ := row
    obtain ⟨sel', ins', upd'⟩ := row'
    rw [Row.mk.injEq]
    exact ⟨Option.some.inj (hsel.symm.trans hsel'), Option.some.inj (hins.symm.trans hins'),
      Option.some.inj (hupd.symm.trans hupd')⟩
  obtain ⟨hkey, rfl⟩ := eq_rowOf hrow' htable
  exact (rowLiterals_iff hF hkey).mp hlit

/-- **Values are literals of the statements, exactly when** no string has a quote or a backslash that
escapes and the names before each string leave no literal open. -/
theorem structured_iff (h : HasTables parse body vTables)
    (hs : loadJson F parse body = (s, .ok true)) :
    Structured F vTables s ↔ ∀ v ∈ vTables, ∀ table, IsTable v table → CleanTable F table := by
  refine ⟨cleanTable_of_structured hF h hs, fun hclean i v table hi htable => ?_⟩
  obtain ⟨row, hrow, hsel, hins, hupd⟩ := row_of_accepted h hs hi
  obtain ⟨hkey, rfl⟩ := eq_rowOf hrow htable
  have hv := hclean v (List.mem_of_getElem? hi) table htable
  refine ⟨rowOf F table, hsel, hins, hupd, (rowLiterals_iff hF hkey).mpr hv, ?_⟩
  intro v' table' row' htable' hrow' hnames hlit'
  obtain ⟨hkey', rfl⟩ := eq_rowOf hrow' htable'
  exact sameSkeleton hF hnames hkey hkey' hv ((rowLiterals_iff hF hkey').mp hlit')

end Message

theorem isNumber_wholeDoubles (n : ℕ) : isNumber (wholeDoubles.g16 n) = true :=
  isNumber_of_digits (uintToString_ne_nil n) (uintToString_digits n)

theorem accepted_oneColumn (text s : Text) :
    (loadJson wholeDoubles (readerOf text [oneColumn s]) text).2 = .ok true := by
  obtain ⟨rows, -, hload⟩ := accepted_of_acceptable (F := wholeDoubles)
    (hasTables_readerOf text [oneColumn s]) (by simpa using acceptable_oneColumn s)
  rw [hload]

theorem cleanTable_oneColumn {s : Text} (hs : clean s = true) :
    CleanTable wholeDoubles (oneColumnTable s) := by
  have hname : Quoteless ['t'] := by decide
  have hmembers : ∀ k ∈ [['k']], Quoteless k := by decide
  refine cleanTable_of_quoteless hname (fun i => ?_) hmembers (fun i t ht => ?_) fun k t ht => ?_
  · cases i with
    | zero => exact (by decide : Quoteless ['c'])
    | succ i => exact (by decide : Quoteless [])
  · cases i with
    | zero =>
      obtain rfl : s = t := Json.string.inj ht
      exact hs
    | succ i => exact absurd ht (by simp [oneColumnTable, Table.valueAt])
  · simp only [oneColumnTable, Table.key, List.lookup] at ht
    split at ht <;> simp at ht

/-- A message with the value `50\%`. -/
def percentValue : Text :=
  lit ("\x7b\"tables\":[\x7b\"name\":\"t\",\"column\":[\"c\"],\"values\":[\"50\\\\%\"]," ++
    "\"mapkey\":\x7b\"k\":1\x7d\x7d]\x7d")

theorem percentValue_structured :
    (loadJson wholeDoubles (readerOf percentValue [oneColumn (lit "50\\%")]) percentValue).2 = .ok true ∧
      Structured wholeDoubles [oneColumn (lit "50\\%")]
        (loadJson wholeDoubles (readerOf percentValue [oneColumn (lit "50\\%")]) percentValue).1 := by
  have haccept := accepted_oneColumn percentValue (lit "50\\%")
  refine ⟨haccept, (structured_iff isNumber_wholeDoubles (hasTables_readerOf percentValue _)
    (Prod.ext rfl haccept)).mpr fun v hv table htable => ?_⟩
  rw [List.mem_singleton.mp hv] at htable
  rw [htable.unique (isTable_oneColumn _)]
  exact cleanTable_oneColumn (by decide)

/-- A message with the value `a"b`. -/
def quoteValue : Text :=
  lit ("\x7b\"tables\":[\x7b\"name\":\"t\",\"column\":[\"c\"],\"values\":[\"a\\\"b\"]," ++
    "\"mapkey\":\x7b\"k\":1\x7d\x7d]\x7d")

/-- The quote in the value ends the literal. -/
theorem quoteValue_unstructured :
    (loadJson wholeDoubles (readerOf quoteValue [oneColumn (lit "a\"b")]) quoteValue).2 = .ok true ∧
      ¬ Structured wholeDoubles [oneColumn (lit "a\"b")]
        (loadJson wholeDoubles (readerOf quoteValue [oneColumn (lit "a\"b")]) quoteValue).1 := by
  have haccept := accepted_oneColumn quoteValue (lit "a\"b")
  refine ⟨haccept, fun hstr => ?_⟩
  have hclean := cleanTable_of_structured isNumber_wholeDoubles (hasTables_readerOf quoteValue _)
    (Prod.ext rfl haccept) hstr _ (List.mem_singleton.mpr rfl) _ (isTable_oneColumn _)
  obtain ⟨-, hinsert, -⟩ := hclean
  have hzero : lastIndex 1 = 0 := lastIndex_succ (by norm_num)
  simp only [insertFields, oneColumnTable, List.length_cons, List.length_nil, Nat.zero_add, hzero] at hinsert
  exact absurd (hinsert.1 _ rfl).1 (by decide)

end DataSync.Client.SqlLiterals
