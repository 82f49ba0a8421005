import DataSync.Client.FastWriter
import DataSync.Client.Md5
import DataSync.Client.PutMessageQueue

/-! # The messages of a store

`CPreBinlog::BuildSendData` prints a head: its id, its number, its order and the id of the store, each with a
comma, and behind the last of them, without a comma, the rows as JSON.

`buildSendData_reads`: the JSON begins at the first brace, and the reader of `jsoncpp` gives the rows back.
`buildSendData_inj`: two heads of one store have the same message only when they are the same.
`exported_reads`: the messages of an export tell every row with its number. -/

namespace DataSync.Client.PreBinlog

open DataSync.Lib.Memory
open DataSync.Lib.Words (Bytes)
open DataSync.Client.BuildFinally (Text lit Json DoubleFormat uintToString)
open DataSync.Client.JsonReader
open DataSync.Client.FastWriter
open DataSync.Client.MyslqQueue (Table Row)
open DataSync.Client.PutMessageQueue

/-! ### The code -/

section
variable {ρ : Type}

/-- `c_str`, as `Json::Value` reads it. -/
def cStr (s : String) : Text := s.toList.takeWhile (· ≠ '\x00')

/-- `tables[name].append(value)`: the member is made an array. -/
def appendTo (name : Text) (value : Json ρ) (members : List (Text × Json ρ)) : List (Text × Json ρ) :=
  match members.lookup name with
  | some (.array items) => setMember name (.array (items ++ [value])) members
  | _ => setMember name (.array [value]) members

/-- The members of `tables`, for one row. -/
def tableMembers (data : GenerateData) : List (Text × Json ρ) :=
  let tables := setMember (lit "name") (.string data.tableName.toList) []
  let tables := data.columnKey.foldl (fun t key => appendTo (lit "column") (.string (cStr key)) t) tables
  data.columnVal.foldl (fun t val => appendTo (lit "values") (.string (cStr val)) t) tables

/-- `root` behind the loop over `headBody`: `null` when that is empty. -/
def rootOf (headBody : List GenerateData) : Json ρ :=
  if headBody = [] then .null
  else .object (headBody.foldl (fun root data =>
    appendTo (lit "tables") (.object (tableMembers data)) root) [])

variable (F : DoubleFormat ρ)

/-- `BuildSendData`. -/
def buildSendData (storehouseId : Text) : Option HeadGenerateData → Text
  | none => []
  | some data =>
    (data.headID.toList ++ [','] ++ uintToString data.headNumber ++ [','] ++ uintToString data.headOrder ++
      [','] ++ storehouseId ++ write F (rootOf data.headBody)).dropLast

/-! ### The JSON of a head -/

/-- An array under its name, if there is anything in it. -/
def arrayMember (name : String) (vs : List (Json ρ)) : List (Text × Json ρ) :=
  if vs = [] then [] else [(lit name, .array vs)]

/-- Strings of the source as JSON. -/
def strings (ss : List String) : List (Json ρ) := ss.map fun s => .string s.toList

/-- The members for one row, as the writer finds them. -/
def rowMembers (data : GenerateData) : List (Text × Json ρ) :=
  arrayMember "column" (strings data.columnKey) ++ (lit "name", .string data.tableName.toList) ::
    arrayMember "values" (strings data.columnVal)

/-- The text of a row is in C strings. -/
def IsCText (data : GenerateData) : Prop :=
  (∀ s ∈ data.columnKey, '\x00' ∉ s.toList) ∧ ∀ s ∈ data.columnVal, '\x00' ∉ s.toList

theorem map_cStr {ss : List String} (h : ∀ s ∈ ss, '\x00' ∉ s.toList) :
    ss.map (fun s => (.string (cStr s) : Json ρ)) = strings ss := by
  refine List.map_congr_left fun s hs => congrArg _ ?_
  refine List.takeWhile_eq_self_iff.mpr fun c hc => ?_
  have hne : c ≠ '\x00' := fun e => h s hs (e ▸ hc)
  simpa using hne

section
variable {name : Text} {pre post : List (Text × Json ρ)}

theorem lookup_append (hpre : ∀ m ∈ pre, m.1 < name) (members : List (Text × Json ρ)) :
    (pre ++ members).lookup name = members.lookup name := by
  induction pre with
  | nil => rfl
  | cons m pre ih =>
    have hne : (name == m.1) = false := by simpa using ne_of_gt (hpre m List.mem_cons_self)
    rw [List.cons_append, List.lookup_cons, hne, ih fun m' h => hpre m' (List.mem_cons_of_mem _ h)]

theorem lookup_none (hpost : ∀ m ∈ post, name < m.1) : post.lookup name = none := by
  induction post with
  | nil => rfl
  | cons m post ih =>
    have hne : (name == m.1) = false := by simpa using ne_of_lt (hpost m List.mem_cons_self)
    rw [List.lookup_cons, hne, ih fun m' h => hpost m' (List.mem_cons_of_mem _ h)]

theorem setMember_append (hpre : ∀ m ∈ pre, m.1 < name) (v : Json ρ) (members : List (Text × Json ρ)) :
    setMember name v (pre ++ members) = pre ++ setMember name v members := by
  induction pre with
  | nil => rfl
  | cons m pre ih =>
    have hm := hpre m List.mem_cons_self
    have hless : ¬ less name m.1 = true := fun e => lt_asymm hm (less_iff.mp e)
    rw [List.cons_append, setMember, if_neg (ne_of_gt hm), if_neg hless,
      ih fun m' h => hpre m' (List.mem_cons_of_mem _ h), List.cons_append]

theorem setMember_head (hpost : ∀ m ∈ post, name < m.1) (v : Json ρ) :
    setMember name v post = (name, v) :: post := by
  rcases post with _ | ⟨m, post⟩
  · rfl
  · have hm := hpost m List.mem_cons_self
    rw [setMember, if_neg (ne_of_lt hm), if_pos (less_iff.mpr hm)]

end

/-- Values appended one by one make an array of them, between the members in front and those behind. -/
theorem foldl_appendTo (name : String) (pre post : List (Text × Json ρ)) (vs : List (Json ρ))
    (hpre : ∀ m ∈ pre, m.1 < lit name) (hpost : ∀ m ∈ post, lit name < m.1) :
    vs.foldl (fun t v => appendTo (lit name) v t) (pre ++ post) = pre ++ arrayMember name vs ++ post := by
  have hmore : ∀ (vs items : List (Json ρ)),
      vs.foldl (fun t v => appendTo (lit name) v t) (pre ++ (lit name, .array items) :: post) =
        pre ++ (lit name, .array (items ++ vs)) :: post := by
    intro vs
    induction vs with
    | nil => simp
    | cons v vs ih =>
      intro items
      have hstep : appendTo (lit name) v (pre ++ (lit name, .array items) :: post) =
          pre ++ (lit name, .array (items ++ [v])) :: post := by
        rw [appendTo, lookup_append hpre, List.lookup_cons_self]
        dsimp only
        rw [setMember_append hpre, setMember, if_pos rfl]
      rw [List.foldl_cons, hstep, ih, List.append_assoc, List.singleton_append]
  rcases vs with _ | ⟨v, vs⟩
  · simp [arrayMember]
  · have hstep : appendTo (lit name) v (pre ++ post) = pre ++ (lit name, .array [v]) :: post := by
      rw [appendTo, lookup_append hpre, lookup_none hpost]
      dsimp only
      rw [setMember_append hpre, setMember_head hpost]
    rw [List.foldl_cons, hstep, hmore]
    simp [arrayMember]

theorem column_lt_name : lit "column" < lit "name" := less_iff.mp (by decide)

theorem name_lt_values : lit "name" < lit "values" := less_iff.mp (by decide)

theorem arrayMember_name {name : String} {vs : List (Json ρ)} {m : Text × Json ρ}
    (h : m ∈ arrayMember name vs) : m = (lit name, .array vs) := by
  unfold arrayMember at h
  split_ifs at h
  · simp at h
  · exact List.mem_singleton.mp h

theorem tableMembers_eq {data : GenerateData} (h : IsCText data) :
    (tableMembers data : List (Text × Json ρ)) = rowMembers data := by
  have hcolumn := foldl_appendTo "column" [] [(lit "name", .string data.tableName.toList)] (strings (ρ := ρ) data.columnKey) (by simp)
    (by simp [column_lt_name])
  have hvalues := foldl_appendTo "values" (arrayMember "column" (strings (ρ := ρ) data.columnKey) ++
      [(lit "name", .string data.tableName.toList)]) [] (strings data.columnVal) (by
        intro m hm
        obtain hm | hm := List.mem_append.mp hm
        · rw [arrayMember_name hm]
          exact column_lt_name.trans name_lt_values
        · rw [List.mem_singleton.mp hm]
          exact name_lt_values) (by simp)
  simp only [List.nil_append, List.append_nil] at hcolumn hvalues
  simp only [tableMembers, setMember]
  rw [← List.foldl_map (f := fun key => (.string (cStr key) : Json ρ))
    (g := fun t v => appendTo (lit "column") v t), map_cStr h.1, hcolumn,
    ← List.foldl_map (f := fun key => (.string (cStr key) : Json ρ))
    (g := fun t v => appendTo (lit "values") v t), map_cStr h.2, hvalues]
  simp [rowMembers]

/-- The value for rows, as the writer finds it. -/
def rowsValue (headBody : List GenerateData) : Json ρ :=
  .object [(lit "tables", .array (headBody.map fun data => .object (rowMembers data)))]

theorem rootOf_eq {headBody : List GenerateData} (hne : headBody ≠ []) (h : ∀ data ∈ headBody, IsCText data) :
    (rootOf headBody : Json ρ) = rowsValue headBody := by
  have htables := foldl_appendTo "tables" [] []
    (headBody.map fun data => (.object (rowMembers data) : Json ρ)) (by simp) (by simp)
  have hmap : headBody.map (fun data => (.object (tableMembers data) : Json ρ)) =
      headBody.map fun data => .object (rowMembers data) :=
    List.map_congr_left fun data hd => by rw [tableMembers_eq (h data hd)]
  rw [rootOf, if_neg hne, ← List.foldl_map (f := fun data => (.object (tableMembers data) : Json ρ))
    (g := fun t v => appendTo (lit "tables") v t), hmap]
  simp only [List.nil_append, List.append_nil] at htables
  rw [htables, arrayMember, if_neg (by simpa using hne), rowsValue]

theorem ordered_rowMembers (data : GenerateData) : Ordered (rowMembers data : List (Text × Json ρ)) := by
  unfold rowMembers arrayMember
  have hlast : lit "column" < lit "values" := column_lt_name.trans name_lt_values
  split_ifs <;> simp [Ordered, column_lt_name, name_lt_values, hlast]

/-- A value of strings only, nested no deeper than that of the rows. -/
theorem built_rowsValue {leaf : Json ρ → Prop} (hleaf : ∀ s, leaf (.string s)) (headBody : List GenerateData) :
    Built leaf stackLimit (rowsValue headBody) := by
  have hstrings : ∀ (name : String) (ss : List String), ∀ m ∈ arrayMember name (strings (ρ := ρ) ss),
      Built leaf (stackLimit - 3) m.2 := by
    intro name ss m hm
    rw [arrayMember_name hm]
    intro v hv
    obtain ⟨s, -, rfl⟩ := List.mem_map.mp hv
    exact hleaf _
  refine ⟨List.pairwise_singleton _ _, fun m hm => ?_⟩
  rw [List.mem_singleton.mp hm]
  intro v hv
  obtain ⟨data, -, rfl⟩ := List.mem_map.mp hv
  refine ⟨ordered_rowMembers data, fun m hm => ?_⟩
  obtain hm | hm := List.mem_append.mp hm
  · exact hstrings _ _ m hm
  · obtain rfl | hm := List.mem_cons.mp hm
    · exact hleaf _
    · exact hstrings _ _ m hm

/-- Reading changes numbers only. -/
theorem reread_rowsValue (headBody : List GenerateData) : reread F (rowsValue headBody) = rowsValue headBody :=
  reread_eq (built_rowsValue (fun _ => trivial) headBody) (built_rowsValue (fun _ _ h => nomatch h) headBody)

variable {F} {readDouble : Text → Option ρ}

/-- The text in front of the rows. -/
def headText (storehouseId : Text) (data : HeadGenerateData) : Text :=
  data.headID.toList ++ [','] ++ uintToString data.headNumber ++ [','] ++ uintToString data.headOrder ++ [','] ++
    storehouseId

theorem buildSendData_eq (storehouseId : Text) (data : HeadGenerateData) :
    buildSendData F storehouseId (some data) =
      headText storehouseId data ++ writeValue F (rootOf data.headBody) := by
  rw [buildSendData, write, ← List.append_assoc, List.dropLast_concat, headText]

theorem brace_notMem_headText {storehouseId : Text} {data : HeadGenerateData} (hid : '{' ∉ data.headID.toList)
    (hstore : '{' ∉ storehouseId) : ∀ c ∈ headText storehouseId data, c ≠ '{' := by
  have hdigits : ∀ n, '{' ∉ uintToString n := fun n hc => absurd (isDigit_uintToString n _ hc) (by decide)
  rintro c hc rfl
  simp only [headText, List.mem_append, List.mem_singleton] at hc
  obtain ((((((hc | hc) | hc) | hc) | hc) | hc) | hc) := hc
  · exact hid hc
  · exact absurd hc (by decide)
  · exact hdigits _ hc
  · exact absurd hc (by decide)
  · exact hdigits _ hc
  · exact absurd hc (by decide)
  · exact hstore hc

/-- A message as its receiver sees it: the text in front of the first brace, and what the reader makes of
the rest. -/
def Reads (readDouble : Text → Option ρ) (message front : Text) (root : Json ρ) (slack : Text) : Prop :=
  message.takeWhile (· ≠ '{') = front ∧
    ∃ r, parse readDouble (message.dropWhile (· ≠ '{')) slack = .ok (true, root, r) ∧ r.errors = []

/-- **The rows are read back.** The JSON begins at the first brace of the message, and the reader gives
the rows of the head, with their table, their columns and their values. -/
theorem buildSendData_reads {storehouseId : Text} {data : HeadGenerateData} (hbody : data.headBody ≠ [])
    (htext : ∀ row ∈ data.headBody, IsCText row) (hid : '{' ∉ data.headID.toList) (hstore : '{' ∉ storehouseId)
    {slack : Text} (hslack : EndsNumber slack) :
    Reads readDouble (buildSendData F storehouseId (some data)) (headText storehouseId data)
      (rowsValue data.headBody) slack := by
  have hfront : ∀ c ∈ headText storehouseId data, decide (c ≠ '{') = true := fun c hc => by
    simpa using brace_notMem_headText hid hstore c hc
  obtain ⟨t, ht⟩ : ∃ t, writeValue F (rowsValue data.headBody) = '{' :: t := ⟨_, by
    rw [rowsValue, writeValue]
    rfl⟩
  rw [buildSendData_eq, rootOf_eq hbody htext]
  refine ⟨?_, ?_⟩
  · rw [List.takeWhile_append_of_pos hfront, ht]
    simp
  · rw [List.dropWhile_append_of_pos hfront, ht, List.dropWhile_cons_of_neg (by simp), ← ht]
    have hbuilt : Built (IsWritten readDouble F) stackLimit (rowsValue data.headBody) :=
      built_rowsValue (fun _ => trivial) data.headBody
    have h := parse_writeValue hbuilt hslack
    rwa [reread_rowsValue] at h

/-! ### Different heads -/

theorem uintToString_injective : Function.Injective uintToString := by
  intro n m h
  have hback : ∀ k, Nat.ofDigitChars 10 (uintToString k) 0 = k := fun k =>
    Nat.ofDigitChars_toDigits (by decide) (by decide)
  rw [← hback n, h, hback m]

theorem strings_injective : Function.Injective (strings : List String → List (Json ρ)) :=
  List.map_injective_iff.mpr fun _ _ h => String.toList_inj.mp (Json.string.inj h)

/-- The array under a name, if there is one. -/
def arrayAt (name : String) (members : List (Text × Json ρ)) : List (Json ρ) :=
  match members.lookup (lit name) with
  | some (.array items) => items
  | _ => []

theorem arrayAt_rowMembers (data : GenerateData) :
    arrayAt "column" (rowMembers data : List (Text × Json ρ)) = strings data.columnKey ∧
      arrayAt "values" (rowMembers data : List (Text × Json ρ)) = strings data.columnVal ∧
      (rowMembers data : List (Text × Json ρ)).lookup (lit "name") = some (.string data.tableName.toList) := by
  have h1 : (lit "column" == lit "name") = false := by decide
  have h2 : (lit "column" == lit "values") = false := by decide
  have h3 : (lit "values" == lit "column") = false := by decide
  have h4 : (lit "values" == lit "name") = false := by decide
  have h5 : (lit "name" == lit "column") = false := by decide
  unfold arrayAt rowMembers arrayMember
  split_ifs with hk hv hv <;> simp [List.lookup_cons, *]

theorem rowMembers_injective : Function.Injective (rowMembers : GenerateData → List (Text × Json ρ)) := by
  intro data data' h
  obtain ⟨hk, hv, hn⟩ := arrayAt_rowMembers (ρ := ρ) data
  obtain ⟨hk', hv', hn'⟩ := arrayAt_rowMembers (ρ := ρ) data'
  rw [h] at hk hv hn
  have hname := Json.string.inj (Option.some.inj (hn.symm.trans hn'))
  rcases data with ⟨name, keys, vals⟩
  rcases data' with ⟨name', keys', vals'⟩
  obtain rfl := String.toList_inj.mp hname
  obtain rfl := strings_injective (hk.symm.trans hk')
  obtain rfl := strings_injective (hv.symm.trans hv')
  rfl

theorem rowsValue_injective : Function.Injective (rowsValue : List GenerateData → Json ρ) := by
  intro body body' h
  simp only [rowsValue, Json.object.injEq, List.cons.injEq, Prod.mk.injEq, Json.array.injEq, true_and,
    and_true] at h
  exact List.map_injective_iff.mpr (fun d d' e => rowMembers_injective (Json.object.inj e)) h

/-- What a store sends: texts of the source, and an id without a comma or a brace. -/
structure Sendable (data : HeadGenerateData) : Prop where
  texts : ∀ row ∈ data.headBody, IsCText row
  comma : ',' ∉ data.headID.toList
  brace : '{' ∉ data.headID.toList

theorem headText_injective {storehouseId : Text} {data data' : HeadGenerateData} (hid : ',' ∉ data.headID.toList)
    (hid' : ',' ∉ data'.headID.toList) (h : headText storehouseId data = headText storehouseId data') :
    data.headID = data'.headID ∧ data.headNumber = data'.headNumber ∧ data.headOrder = data'.headOrder := by
  have hsplit : ∀ {a b x y : Text}, ',' ∉ a → ',' ∉ b → a ++ ',' :: x = b ++ ',' :: y → a = b ∧ x = y := by
    intro a b x y ha hb e
    have htake : ∀ {a x : Text}, ',' ∉ a → (a ++ ',' :: x).takeWhile (· ≠ ',') = a := by
      intro a x ha
      have hpos : ∀ c ∈ a, decide (c ≠ ',') = true := fun c hc =>
        decide_eq_true fun e : c = ',' => ha (e ▸ hc)
      rw [List.takeWhile_append_of_pos hpos]
      simp
    have hab : a = b := by rw [← htake ha, e, htake hb]
    subst hab
    exact ⟨rfl, (List.cons.inj (List.append_cancel_left e)).2⟩
  have hdigits : ∀ n, ',' ∉ uintToString n := fun n hc => absurd (isDigit_uintToString n _ hc) (by decide)
  simp only [headText, List.append_assoc, List.singleton_append] at h
  obtain ⟨h1, h⟩ := hsplit hid hid' h
  obtain ⟨h2, h⟩ := hsplit (hdigits _) (hdigits _) h
  obtain ⟨h3, -⟩ := hsplit (hdigits _) (hdigits _) h
  exact ⟨String.toList_inj.mp h1, uintToString_injective h2, uintToString_injective h3⟩

/-- **Different heads are sent as different messages.** -/
theorem buildSendData_inj {storehouseId : Text} (hstore : '{' ∉ storehouseId) {data data' : HeadGenerateData}
    (hs : Sendable data) (hs' : Sendable data') :
    buildSendData F storehouseId (some data) = buildSendData F storehouseId (some data') ↔ data = data' := by
  refine ⟨fun h => ?_, fun h => by rw [h]⟩
  -- the message of an empty head holds no brace
  have hempty : ∀ d : HeadGenerateData, Sendable d → d.headBody = [] →
      buildSendData F storehouseId (some d) = headText storehouseId d ++ lit "null" ∧
        '{' ∉ buildSendData F storehouseId (some d) := by
    intro d hd hbody
    have heq : buildSendData F storehouseId (some d) = headText storehouseId d ++ lit "null" := by
      rw [buildSendData_eq, hbody, rootOf, if_pos rfl, writeValue]
    refine ⟨heq, fun hc => ?_⟩
    rw [heq] at hc
    obtain hc | hc := List.mem_append.mp hc
    · exact brace_notMem_headText hd.brace hstore _ hc rfl
    · exact absurd hc (by decide)
  have hfull : ∀ d : HeadGenerateData, Sendable d → d.headBody ≠ [] →
      Reads (ρ := ρ) (fun _ => none) (buildSendData F storehouseId (some d)) (headText storehouseId d)
        (rowsValue d.headBody) [] := fun d hd hbody =>
    buildSendData_reads hbody hd.texts hd.brace hstore (by simp [EndsNumber])
  have hbrace : ∀ d : HeadGenerateData, Sendable d → d.headBody ≠ [] →
      '{' ∈ buildSendData F storehouseId (some d) := by
    intro d hd hbody
    rw [buildSendData_eq, rootOf_eq hbody hd.texts, rowsValue, writeValue]
    simp
  have hfinish : headText storehouseId data = headText storehouseId data' → data.headBody = data'.headBody →
      data = data' := by
    intro htext hbody
    obtain ⟨h1, h2, h3⟩ := headText_injective hs.comma hs'.comma htext
    cases data
    cases data'
    simp_all
  by_cases hb : data.headBody = [] <;> by_cases hb' : data'.headBody = []
  · obtain ⟨h1, -⟩ := hempty data hs hb
    obtain ⟨h2, -⟩ := hempty data' hs' hb'
    rw [h1, h2] at h
    exact hfinish (List.append_cancel_right h) (hb.trans hb'.symm)
  · exact absurd (h ▸ hbrace data' hs' hb') (hempty data hs hb).2
  · exact absurd (h ▸ hbrace data hs hb) (hempty data' hs' hb').2
  · obtain ⟨hfront, r, hr, -⟩ := hfull data hs hb
    obtain ⟨hfront', r', hr', -⟩ := hfull data' hs' hb'
    rw [h] at hfront hr
    rw [hr'] at hr
    simp only [Except.ok.injEq, Prod.mk.injEq, true_and] at hr
    exact hfinish (hfront.symm.trans hfront') (rowsValue_injective hr.1.symm)

/-- No doubles. -/
def noDoubles : DoubleFormat Empty := ⟨Empty.elim, Empty.elim⟩

/-- A head of one row. -/
def head (value : String) : HeadGenerateData := ⟨"0a", 1, 1, [⟨"stock", ["sku"], [value]⟩]⟩

theorem sendable_head {value : String} (h : '\x00' ∉ value.toList) : Sendable (head value) := by
  refine ⟨fun row hrow => ?_, by simp [head], by simp [head]⟩
  obtain rfl := List.mem_singleton.mp hrow
  exact ⟨by simp, by simpa using h⟩

/-- Two heads that differ in a blank. -/
theorem buildSendData_inj_head : buildSendData noDoubles (lit "7") (some (head "3")) =
    buildSendData noDoubles (lit "7") (some (head "3 ")) ↔ head "3" = head "3 " :=
  buildSendData_inj (by simp [lit]) (sendable_head (by simp)) (sendable_head (by simp))

/-! ### An export -/

/-- The id of the heads in `execMutilSql`: the digest of the time. -/
def headId (junk : Bytes) (sTimeTag : Text) : String :=
  Md5.toString (Md5.generateMD5 32 junk (sTimeTag.map fun c => UInt8.ofNat c.toNat))

theorem brace_notMem_headId (junk : Bytes) (sTimeTag : Text) : '{' ∉ (headId junk sTimeTag).toList := fun h =>
  absurd (Md5.toString_digits _ _ h) (by decide)

/-- The messages of the heads of rows, read one by one. -/
theorem headsOf_reads {msgHeadKey : String} {storehouseId : Text} {rows : List GenerateData} (total : ℕ)
    (htext : ∀ row ∈ rows, IsCText row) (hid : '{' ∉ msgHeadKey.toList) (hstore : '{' ∉ storehouseId)
    {slack : Text} (hslack : EndsNumber slack) :
    List.Forall₂ (fun head (row : ℕ × GenerateData) =>
      Reads readDouble (buildSendData F storehouseId (some head))
        (headText storehouseId ⟨msgHeadKey, total, row.1 + 1, []⟩) (rowsValue [row.2]) slack)
      (headsOf msgHeadKey total 0 rows) (rows.mapIdx fun k row => (k, row)) := by
  rw [List.forall₂_iff_get]
  refine ⟨by simp [headsOf], fun k hk hk' => ?_⟩
  simp only [headsOf, List.length_mapIdx] at hk
  simp only [headsOf, List.get_eq_getElem, List.getElem_mapIdx, Nat.zero_add]
  exact buildSendData_reads (by simp) (by simpa using htext _ (List.getElem_mem hk)) hid hstore hslack

/-- **An export tells its rows.** Of the messages of one run the `k`-th is numbered `k`, out of as many as
there are rows, and the reader gives the `k`-th row of the tables, with the name and the columns of its
table. -/
theorem exported_reads {junk : Bytes} {sTimeTag storehouseId : Text} {tables : List Table} (hne : tables ≠ [])
    (htext : ∀ row ∈ tables.flatMap fun t => records t t.rows, IsCText row) (hstore : '{' ∉ storehouseId)
    {slack : Text} (hslack : EndsNumber slack) :
    ∃ heads, putOneMessageQueues (headId junk sTimeTag) (tables.map Table.name) (tables.map Table.keys)
        (tables.map Table.rows) = .ok (true, heads) ∧
      List.Forall₂ (fun head (row : ℕ × GenerateData) =>
        Reads readDouble (buildSendData F storehouseId (some head))
          (headText storehouseId
            ⟨headId junk sTimeTag, (tables.map fun t => t.rows.length).sum, row.1 + 1, []⟩)
          (rowsValue [row.2]) slack) heads
        ((tables.flatMap fun t => records t t.rows).mapIdx fun k row => (k, row)) :=
  ⟨_, by rw [putOneMessageQueues_headsOf, decide_eq_true hne],
    headsOf_reads _ htext (brace_notMem_headId junk sTimeTag) hstore hslack⟩

/-- Two tables, one of them without rows. -/
def stock : List Table := [⟨"stock", ["sku"], [["3"], ["4"]]⟩, ⟨"empty", ["id"], []⟩]

theorem exported_reads_stock : ∃ heads,
    putOneMessageQueues (headId (List.replicate 64 0) (lit "2016-01-01 00:00:00")) (stock.map Table.name)
      (stock.map Table.keys) (stock.map Table.rows) = .ok (true, heads) ∧
    List.Forall₂ (fun head (row : ℕ × GenerateData) =>
      Reads (fun _ => none) (buildSendData noDoubles (lit "7") (some head))
        (headText (lit "7") ⟨headId (List.replicate 64 0) (lit "2016-01-01 00:00:00"),
          (stock.map fun t => t.rows.length).sum, row.1 + 1, []⟩)
        (rowsValue [row.2] : Json Empty) []) heads
      ((stock.flatMap fun t => records t t.rows).mapIdx fun k row => (k, row)) :=
  exported_reads (by simp [stock]) (by simp [stock, records, record, IsCText]) (by simp [lit])
    (by simp [EndsNumber])

end

end DataSync.Client.PreBinlog
