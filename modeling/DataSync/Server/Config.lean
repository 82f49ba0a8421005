import DataSync.Lib.CString

/-! # The configuration of the server

`Config::GetConfigStringValue` looks for the head of a section in the lines of a file, and `GetKeyValue` for a
key in the lines behind it. Both read a line into a buffer of 150 bytes, run over it with pointers, in both
directions, and end strings in it by writing NULs. A longer line is read in pieces.

`getConfigStringValue_eq`: for every file the pointers stay in the buffer, and what is found is `lookup` in the
lines. `getConfigStringValue_written`: of a file that was written from sections it is the value of the key in
its section. `initConfig_eq`: what `AliMessageQueue::initConfig` makes of a file. -/

namespace DataSync.Server.Config

open DataSync.Lib.Words DataSync.Lib.Memory DataSync.Lib.CString DataSync.Lib

/-! ### The code -/

/-- A blank or a tab. -/
def isBlank (b : UInt8) : Bool := b = 32 ∨ b = 9

/-- Neither `c` nor the end of the string. -/
def upTo (c b : UInt8) : Bool := b ≠ c ∧ b ≠ 0

/-- `while(' '==*(pStr1-1)) pStr1--`. -/
def backward (szBuffer : Bytes) (k : ℕ) : Res ℕ := do
  return (← trim (fun b => b = 32) (fun szBuffer _ => .ok szBuffer) szBuffer k).2

/-- A round of the loop over a value. -/
def valueRound (szBuffer : Bytes) (k : ℕ) : Res (ℕ ⊕ ℕ) := do
  let c ← charAt szBuffer k
  if c = 0 ∨ c = 13 ∨ c = 10 then return .inr k
  if c = 47 then
    if (← charAt szBuffer (k + 1)) = 47 then return .inr k
  return .inl (k + 1)

/-- The loop over a value. -/
def endOfValue (szBuffer : Bytes) (k : ℕ) : Res ℕ := Loop.run (valueRound szBuffer) (szBuffer.length + 1) k

/-- The loop of `CompareString`, over strings with their NULs. -/
def compareLoop : Bytes → Bytes → Res ℕ
  | a :: as, b :: bs =>
    if a = b then if a = 0 then .ok 0 else compareLoop as bs
    else .ok (if a = 0 then 0 else 6)
  | _, _ => .error .fault

/-- `CompareString`: `STRING_EQUAL`, `STRING_LENNOTEQUAL` or `STRING_NOTEQUAL`. -/
def compareString (pInStr1 pInStr2 : Bytes) : Res ℕ :=
  if pInStr1.length ≠ pInStr2.length then .ok 5 else compareLoop (pInStr1 ++ [0]) (pInStr2 ++ [0])

/-- What `fgets` puts into the buffer. -/
def store (szBuffer line : Bytes) : Res Bytes :=
  if line.length < szBuffer.length then .ok (line ++ 0 :: szBuffer.drop (line.length + 1)) else .error .fault

/-- A round of the loop over the heads of sections: whether the line is the head of `pInSectionName`, and the
buffer. -/
def sectionRound (szBuffer pInSectionName : Bytes) : Res (Bool × Bytes) := do
  let pStr1 ← forward isBlank szBuffer 0
  if (← charAt szBuffer pStr1) ≠ 91 then return (false, szBuffer)
  let pStr2 ← forward isBlank szBuffer (pStr1 + 1)
  let pStr1 ← forward (upTo 93) szBuffer pStr2
  if (← charAt szBuffer pStr1) = 0 then return (false, szBuffer)
  let pStr1 ← backward szBuffer pStr1
  let szBuffer ← putNul szBuffer pStr1
  let iRetCode ← compareString (← strAt szBuffer pStr2) pInSectionName
  return (iRetCode = 0, szBuffer)

/-- What `GetKeyValue` does with a line. -/
inductive Round where
  | continue
  | break
  | success (value : Bytes)
  deriving DecidableEq, Repr

/-- A round of the loop of `GetKeyValue`, from the key on. -/
def pairRound (szBuffer pInKeyName : Bytes) (pStr2 : ℕ) : Res (Round × Bytes) := do
  let pStr1 ← forward (upTo 61) szBuffer pStr2
  if (← charAt szBuffer pStr1) = 0 then return (.continue, szBuffer)
  if pStr2 = pStr1 then return (.continue, szBuffer)
  let szBuffer ← putNul szBuffer pStr1
  let (szBuffer, _) ← trim isBlank putNul szBuffer pStr1
  let iRetCode ← compareString (← strAt szBuffer pStr2) pInKeyName
  if iRetCode ≠ 0 then return (.continue, szBuffer)
  let pStr3 ← forward isBlank szBuffer (pStr1 + 1)
  let pStr1 ← endOfValue szBuffer pStr3
  let szBuffer ← putNul szBuffer pStr1
  return (.success (← strAt szBuffer pStr3), szBuffer)

/-- A round of the loop of `GetKeyValue`. -/
def keyRound (szBuffer pInKeyName : Bytes) : Res (Round × Bytes) := do
  let pStr1 ← forward isBlank szBuffer 0
  let c ← charAt szBuffer pStr1
  if c = 35 then return (.continue, szBuffer)
  if c = 47 then
    if (← charAt szBuffer (pStr1 + 1)) = 47 then return (.continue, szBuffer)
  if c = 0 ∨ c = 13 ∨ c = 10 then return (.continue, szBuffer)
  if c = 91 then
    let bracket ← forward (upTo 93) szBuffer pStr1
    if (← charAt szBuffer bracket) = 93 then return (.break, szBuffer)
  pairRound szBuffer pInKeyName pStr1

/-- `FILENAME_NOTEXIST`, `SECTIONNAME_NOTEXIST`, `KEYNAME_NOTEXIST`, or `SUCCESS` with the value. -/
inductive Answer where
  | filenameNotexist
  | sectionnameNotexist
  | keynameNotexist
  | success (value : Bytes)
  deriving DecidableEq, Repr

/-- The loop of `GetKeyValue`, with what is left of the file. -/
def getKeyValue (pInKeyName : Bytes) : ℕ → Bytes → Bytes → Res Answer
  | 0, _, _ => .error .hang
  | fuel + 1, szBuffer, file =>
    if file = [] then .ok .keynameNotexist
    else do
      let (line, rest) := fgets 149 file
      match ← keyRound (← store szBuffer line) pInKeyName with
      | (.continue, szBuffer) => getKeyValue pInKeyName fuel szBuffer rest
      | (.break, _) => return .keynameNotexist
      | (.success value, _) => return .success value

/-- The loop over the heads of sections. -/
def getSection (pInSectionName pInKeyName : Bytes) : ℕ → Bytes → Bytes → Res Answer
  | 0, _, _ => .error .hang
  | fuel + 1, szBuffer, file =>
    if file = [] then .ok .sectionnameNotexist
    else do
      let (line, rest) := fgets 149 file
      match ← sectionRound (← store szBuffer line) pInSectionName with
      | (true, _) => getKeyValue pInKeyName (rest.length + 1) (List.replicate 150 0) rest
      | (false, szBuffer) => getSection pInSectionName pInKeyName fuel szBuffer rest

/-- `GetConfigStringValue`, of a file that may be missing. -/
def getConfigStringValue (file : Option Bytes) (pInSectionName pInKeyName : Bytes) : Res Answer :=
  match file with
  | none => .ok .filenameNotexist
  | some file => getSection pInSectionName pInKeyName (file.length + 1) (List.replicate 150 0) file

/-! ### What a line says -/

/-- The section whose head a line is. -/
def headOf (line : Bytes) : Option Bytes :=
  match line.dropWhile isBlank with
  | 91 :: rest =>
    let inside := rest.dropWhile isBlank
    if inside.contains 93 then some ((inside.takeWhile (upTo 93)).rdropWhile fun b => b = 32) else none
  | _ => none

/-- A line behind the head of a section. -/
inductive Line where
  /-- A comment, an empty line, or one that is nothing. -/
  | other
  /-- The head of another section. -/
  | head
  /-- A key and its value. -/
  | pair (key value : Bytes)
  deriving DecidableEq, Repr

/-- A value, without what is behind it. -/
def valueOf : Bytes → Bytes
  | [] => []
  | c :: rest => if c = 13 ∨ c = 10 ∨ (c = 47 ∧ rest.head? = some 47) then [] else c :: valueOf rest

/-- A line from its key on. -/
def pairOf (text : Bytes) : Line :=
  let key := text.takeWhile (upTo 61)
  match text.dropWhile (upTo 61) with
  | [] => .other
  | _ :: rest =>
    if key = [] then .other else .pair (key.rdropWhile isBlank) (valueOf (rest.dropWhile isBlank))

/-- What a line is. -/
def lineOf (line : Bytes) : Line :=
  match line.dropWhile isBlank with
  | [] => .other
  | c :: rest =>
    if c = 35 ∨ c = 13 ∨ c = 10 ∨ (c = 47 ∧ rest.head? = some 47) then .other
    else if c = 91 ∧ rest.contains 93 then .head
    else pairOf (c :: rest)

/-- What is found in the lines of a section. -/
def keyIn (key : Bytes) : List Bytes → Answer
  | [] => .keynameNotexist
  | line :: lines =>
    match lineOf line with
    | .other => keyIn key lines
    | .head => .keynameNotexist
    | .pair key' value => if key' = key then .success value else keyIn key lines

/-- What is found in the lines of a file. -/
def lookup (name key : Bytes) : List Bytes → Answer
  | [] => .sectionnameNotexist
  | line :: lines => if headOf line = some name then keyIn key lines else lookup name key lines

/-- The lines of a file as strings, or the pieces of longer ones, `fuel` of them at most. -/
def pieces : ℕ → Bytes → List Bytes
  | 0, _ => []
  | fuel + 1, file => if file = [] then [] else cStr (fgets 149 file).1 :: pieces fuel (fgets 149 file).2

/-- The lines of a file. -/
def linesOf (file : Bytes) : List Bytes := pieces file.length file

/-! ### Strings and values -/

theorem compareLoop_eq {a b : Bytes} (ha : 0 ∉ a) (hlength : a.length = b.length) :
    ∃ r, compareLoop (a ++ [0]) (b ++ [0]) = .ok r ∧ (r = 0 ↔ a = b) := by
  induction a generalizing b with
  | nil =>
    obtain rfl := List.length_eq_zero_iff.mp hlength.symm
    exact ⟨0, rfl, by simp⟩
  | cons x a ih =>
    obtain _ | ⟨y, b⟩ := b
    · simp at hlength
    · obtain ⟨hx, ha⟩ : 0 ≠ x ∧ 0 ∉ a := by simpa using ha
      by_cases hxy : x = y
      · subst hxy
        obtain ⟨r, hr, hiff⟩ := ih ha (by simpa using hlength)
        refine ⟨r, ?_, by simp [hiff]⟩
        rw [List.cons_append, List.cons_append, compareLoop, if_pos rfl, if_neg hx.symm, hr]
      · refine ⟨6, ?_, by simp [hxy]⟩
        rw [List.cons_append, List.cons_append, compareLoop, if_neg hxy, if_neg hx.symm]

/-- `CompareString` tells equal strings. -/
theorem compareString_eq {a b : Bytes} (ha : 0 ∉ a) : ∃ r, compareString a b = .ok r ∧ (r = 0 ↔ a = b) := by
  by_cases hlength : a.length = b.length
  · obtain ⟨r, hr, hiff⟩ := compareLoop_eq ha hlength
    exact ⟨r, by rw [compareString, if_neg (not_not_intro hlength), hr], hiff⟩
  · exact ⟨5, by rw [compareString, if_pos hlength], by simp; rintro rfl; exact hlength rfl⟩

section Strings
variable {szBuffer : Bytes} {k : ℕ} {text : Bytes}

theorem length_valueOf_le (text : Bytes) : (valueOf text).length ≤ text.length := by
  induction text with
  | nil => exact le_rfl
  | cons c rest ih =>
    rw [valueOf]
    split_ifs
    · exact Nat.zero_le _
    · simpa using ih

theorem take_length_valueOf (text : Bytes) : text.take (valueOf text).length = valueOf text := by
  induction text with
  | nil => rfl
  | cons c rest ih =>
    rw [valueOf]
    split_ifs
    · rfl
    · rw [List.length_cons, List.take_succ_cons, ih]

/-- A round of the loop over a value. -/
theorem valueRound_eq {c : UInt8} {rest : Bytes} (h : Holds szBuffer k (c :: rest)) :
    valueRound szBuffer k = .ok (if c = 13 ∨ c = 10 ∨ (c = 47 ∧ rest.head? = some 47) then .inr k
      else .inl (k + 1)) := by
  have hc : c ≠ 0 := fun hc => h.1 (by simp [hc])
  have hnext : charAt szBuffer (k + 1) = .ok (rest.headD 0) := h.charAt_add (n := 1) (by simp)
  have hhead : rest.headD 0 = 47 ↔ rest.head? = some 47 := by
    cases rest <;> simp
  rw [valueRound, h.charAt, Res.ok_bind, List.headD_cons, hnext]
  simp only [Res.ok_bind, Res.pure_eq, hc, false_or, hhead]
  by_cases hend : c = 13 ∨ c = 10
  · rw [if_pos hend, if_pos (by tauto)]
  · rw [if_neg hend]
    split_ifs <;> first | rfl | tauto

/-- The loop over a value ends where the value does. -/
theorem endOfValue_eq (h : Holds szBuffer k text) :
    endOfValue szBuffer k = .ok (k + (valueOf text).length) := by
  suffices hrun : ∀ text k fuel, Holds szBuffer k text → text.length < fuel →
      Loop.run (valueRound szBuffer) fuel k = .ok (k + (valueOf text).length) from
    hrun text k _ h (by have := h.lt; omega)
  intro text
  induction text with
  | nil =>
    intro k fuel hk hfuel
    refine Loop.run_leaves (.refl k) ?_ hfuel
    rw [valueRound, hk.charAt]
    rfl
  | cons c rest ih =>
    intro k fuel hk hfuel
    rw [List.length_cons] at hfuel
    obtain ⟨fuel, rfl⟩ : ∃ m, fuel = m + 1 := ⟨fuel - 1, by omega⟩
    rw [Loop.run, valueRound_eq hk, Res.ok_bind, valueOf]
    split_ifs with hend
    · rfl
    · have hrest := ih (k + 1) fuel (hk.drop (n := 1) (by simp)) (by omega)
      rw [List.length_cons, ← Nat.add_assoc, Nat.add_right_comm]
      exact hrest

theorem backward_eq {behind : Bytes} (h : Holds szBuffer k (text ++ behind))
    (hne : text.rdropWhile (fun b => b = 32) ≠ []) :
    backward szBuffer (k + text.length) = .ok (k + (text.rdropWhile fun b => b = 32).length) := by
  rw [backward, h.backward hne]
  rfl

end Strings

/-! ### The head of a section -/

/-- A name a section can be looked for by. -/
structure SectionName (name : Bytes) : Prop where
  nonempty : name ≠ []
  bracket : 93 ∉ name

/-- A text with a character that stays keeps what is in front of it. -/
theorem rdropWhile_append {p : UInt8 → Bool} (pre : Bytes) {text : Bytes} (h : text.rdropWhile p ≠ []) :
    (pre ++ text).rdropWhile p = pre ++ text.rdropWhile p := by
  induction text using List.reverseRecOn with
  | nil => exact absurd (List.rdropWhile_nil p) h
  | append_singleton text c ih =>
    by_cases hc : p c
    · rw [List.rdropWhile_concat_pos p _ _ hc] at h ⊢
      rw [← List.append_assoc, List.rdropWhile_concat_pos p _ _ hc, ih h]
    · rw [List.rdropWhile_concat_neg p _ _ hc, ← List.append_assoc, List.rdropWhile_concat_neg p _ _ hc]

theorem rdropWhile_ne_nil {p : UInt8 → Bool} {text : Bytes} {c : UInt8} (hc : c ∈ text) (hp : p c = false) :
    text.rdropWhile p ≠ [] := by
  rw [Ne, List.rdropWhile_eq_nil_iff]
  intro hall
  rw [hall c hc] at hp
  cases hp

theorem head_dropWhile {p : UInt8 → Bool} {text rest : Bytes} {c : UInt8} (h : text.dropWhile p = c :: rest) :
    p c = false := by
  have hc := List.head_dropWhile_not (p := p) (l := text) (by simp [h])
  simpa [h] using hc

theorem dropWhile_of_notMem {c : UInt8} {text : Bytes} (hnul : 0 ∉ text) (hc : c ∉ text) :
    text.dropWhile (upTo c) = [] := by
  rw [List.dropWhile_eq_nil_iff]
  intro b hb
  simp only [upTo, decide_eq_true_eq]
  exact ⟨ne_of_mem_of_not_mem hb hc, ne_of_mem_of_not_mem hb hnul⟩

/-- A character that is in a string is found in it. -/
theorem dropWhile_of_mem {c : UInt8} {text : Bytes} (hnul : 0 ∉ text) (hc : c ∈ text) :
    ∃ behind, text.dropWhile (upTo c) = c :: behind := by
  obtain hnil | ⟨b, behind, hbehind⟩ : text.dropWhile (upTo c) = [] ∨
      ∃ b behind, text.dropWhile (upTo c) = b :: behind := by
    cases text.dropWhile (upTo c) <;> simp
  · have hall := List.dropWhile_eq_nil_iff.mp hnil c hc
    simp [upTo] at hall
  · have hb := head_dropWhile hbehind
    have hmem : b ∈ text := (List.dropWhile_suffix (upTo c)).subset (hbehind ▸ List.mem_cons_self)
    have hne : b ≠ 0 := ne_of_mem_of_not_mem hmem hnul
    obtain rfl : b = c := by simpa [upTo, hne] using hb
    exact ⟨behind, hbehind⟩

section Rounds
variable {szBuffer line name : Bytes}

/-- **The name in a head** is cut off behind its last character that is no blank. A head without a name may
end in front of where the name starts, and what is then compared starts with the bracket. -/
theorem closeHead {k : ℕ} {rest found behind : Bytes} (h : Holds szBuffer k (91 :: rest))
    (hfound : (rest.dropWhile isBlank).takeWhile (upTo 93) = found)
    (hbehind : (rest.dropWhile isBlank).dropWhile (upTo 93) = 93 :: behind) (hname : SectionName name) :
    ∃ e buf text, backward szBuffer (k + 1 + (rest.takeWhile isBlank).length + found.length) = .ok e ∧
      putNul szBuffer e = .ok buf ∧ buf.length = szBuffer.length ∧
      Holds buf (k + 1 + (rest.takeWhile isBlank).length) text ∧
      (text = name ↔ (found.rdropWhile fun b => b = 32) = name) := by
  have hinside : rest.dropWhile isBlank = found ++ 93 :: behind := by
    rw [← hfound, ← hbehind, List.takeWhile_append_dropWhile]
  have hrest : rest = rest.takeWhile isBlank ++ (found ++ 93 :: behind) := by
    rw [← hinside, List.takeWhile_append_dropWhile]
  have hfirst : ∀ c ∈ found.head?, c ≠ 32 := by
    obtain _ | ⟨c, found⟩ := found
    · simp
    · have hc := head_dropWhile hinside
      rintro _ ⟨⟩ rfl
      cases hc
  have hstart : Holds szBuffer (k + 1 + (rest.takeWhile isBlank).length) (found ++ 93 :: behind) := by
    rw [← hinside]
    exact (h.drop (n := 1) (by simp)).dropWhile
  generalize rest.takeWhile isBlank = blanks at hrest hstart ⊢
  subst hrest
  have hhead : Holds szBuffer k ((91 :: blanks ++ found) ++ 93 :: behind) := by simpa using h
  have hback := backward_eq hhead (rdropWhile_ne_nil (c := 91) (by simp) rfl)
  have hindex : k + (91 :: blanks ++ found).length = k + 1 + blanks.length + found.length := by
    simp only [List.length_append, List.length_cons]
    omega
  rw [hindex] at hback
  refine ⟨k + ((91 :: blanks ++ found).rdropWhile fun b => b = 32).length, ?_⟩
  obtain rfl | ⟨c, hc⟩ : found = [] ∨ ∃ c, c ∈ found.head? := by
    cases found <;> simp
  · have hle := (List.rdropWhile_prefix (fun b => b = 32) (l := 91 :: blanks ++ [])).length_le
    rw [List.length_append, List.length_cons, List.length_nil] at hle
    obtain hat | hbefore := (show _ ≤ blanks.length + 1 from hle).eq_or_lt
    · obtain ⟨buf, hput, hbuf, hlength, -⟩ := hstart.putNul (n := 0) (Nat.zero_le _)
      refine ⟨buf, [], hback, ?_, hlength, hbuf, by rw [List.rdropWhile_nil]⟩
      rw [← hput, hat]
      congr 1
      omega
    · obtain ⟨buf, hput, -, hlength, hdrop⟩ := hhead.putNul (n := _) (le_trans hle (by simp))
      refine ⟨buf, 93 :: behind, hback, hput, hlength, hstart.of_drop_eq (hdrop _ (by omega)), ?_⟩
      rw [List.rdropWhile_nil]
      constructor
      · rintro rfl
        exact absurd List.mem_cons_self hname.bracket
      · exact fun hnil => absurd hnil.symm hname.nonempty
  · have hkeep := rdropWhile_ne_nil (p := fun b => b = 32) (List.mem_of_mem_head? hc) (by simpa using hfirst c hc)
    obtain ⟨buf, hput, hbuf, hlength, -⟩ := hstart.putNul (n := (found.rdropWhile fun b => b = 32).length)
      ((List.rdropWhile_prefix _ _).length_le.trans (by simp))
    have htake : (found ++ 93 :: behind).take (found.rdropWhile fun b => b = 32).length =
        found.rdropWhile fun b => b = 32 := by
      rw [List.take_append_of_le_length (List.rdropWhile_prefix _ _).length_le]
      exact ((List.prefix_iff_eq_take).mp (List.rdropWhile_prefix _ _)).symm
    refine ⟨buf, _, hback, ?_, hlength, htake ▸ hbuf, Iff.rfl⟩
    rw [← hput, rdropWhile_append _ hkeep, List.length_append, List.length_cons]
    congr 1
    omega

/-- **A line as the head of a section.** -/
theorem sectionRound_eq (h : Holds szBuffer 0 line) (hname : SectionName name) : ∃ buf,
    sectionRound szBuffer name = .ok (decide (headOf line = some name), buf) ∧
      buf.length = szBuffer.length := by
  have hblank : isBlank 0 = false := rfl
  have htext := h.dropWhile (p := isBlank)
  rw [sectionRound, h.forward hblank, Res.ok_bind, htext.charAt, Res.ok_bind, headOf]
  generalize 0 + (line.takeWhile isBlank).length = k at htext ⊢
  generalize line.dropWhile isBlank = text at htext ⊢
  by_cases hopen : ∃ rest, text = 91 :: rest
  · obtain ⟨rest, rfl⟩ := hopen
    have hrest := htext.drop (n := 1) (by simp)
    rw [List.drop_one, List.tail_cons] at hrest
    have hinside := hrest.dropWhile (p := isBlank)
    have hbracket := hinside.dropWhile (p := upTo 93)
    rw [List.headD_cons, if_neg (by simp), hrest.forward hblank, Res.ok_bind, hinside.forward rfl, Res.ok_bind,
      hbracket.charAt, Res.ok_bind]
    by_cases hclose : 93 ∈ rest.dropWhile isBlank
    · obtain ⟨behind, hbehind⟩ := dropWhile_of_mem hinside.1 hclose
      obtain ⟨e, buf, text, hback, hput, hlength, hbuf, htext⟩ := closeHead htext rfl hbehind hname
      obtain ⟨r, hr, hzero⟩ := compareString_eq (b := name) hbuf.1
      refine ⟨buf, ?_, hlength⟩
      rw [hbehind, List.headD_cons, if_neg (by simp), hback, Res.ok_bind, hput, Res.ok_bind, hbuf.strAt,
        Res.ok_bind, hr, Res.ok_bind]
      simp [hclose, hzero, htext]
    · refine ⟨szBuffer, ?_, rfl⟩
      rw [dropWhile_of_notMem hinside.1 hclose, List.headD_nil, if_pos rfl]
      simp [hclose]
  · refine ⟨szBuffer, ?_, rfl⟩
    obtain _ | ⟨c, rest⟩ := text
    · rfl
    · have hc : c ≠ 91 := fun hc => hopen ⟨rest, by rw [hc]⟩
      rw [List.headD_cons, if_pos hc]
      simp [hc]

/-! ### A key and its value -/

/-- What `GetKeyValue` does with a line, by what the line is. -/
def Line.round (key : Bytes) : Line → Round
  | .other => .continue
  | .head => .break
  | .pair key' value => if key' = key then .success value else .continue

@[simp] theorem round_pair (key key' value : Bytes) :
    (Line.pair key' value).round key = if key' = key then .success value else .continue := rfl

/-- **A line from its key on.** -/
theorem pairRound_eq (key : Bytes) {k : ℕ} {c : UInt8} {rest : Bytes} (h : Holds szBuffer k (c :: rest))
    (hc : isBlank c = false) : ∃ buf,
    pairRound szBuffer key k = .ok ((pairOf (c :: rest)).round key, buf) ∧ buf.length = szBuffer.length := by
  have htail := h.dropWhile (p := upTo 61)
  rw [pairRound, h.forward rfl, Res.ok_bind, htail.charAt, Res.ok_bind, pairOf]
  have hsplit := List.takeWhile_append_dropWhile (p := upTo 61) (l := c :: rest)
  generalize (c :: rest).takeWhile (upTo 61) = found at htail hsplit ⊢
  generalize (c :: rest).dropWhile (upTo 61) = tail at htail hsplit ⊢
  obtain _ | ⟨b, tail⟩ := tail
  · exact ⟨szBuffer, rfl, rfl⟩
  have hb : b ≠ 0 := fun hb => htail.1 (by simp [hb])
  rw [List.headD_cons, if_neg hb]
  obtain _ | ⟨b', found⟩ := found
  · exact ⟨szBuffer, by rw [if_pos (by simp)]; rfl, rfl⟩
  have hpair : (if b' :: found = [] then Line.other else
      .pair ((b' :: found).rdropWhile isBlank) (valueOf (tail.dropWhile isBlank))).round key =
      if (b' :: found).rdropWhile isBlank = key then .success (valueOf (tail.dropWhile isBlank)) else .continue :=
    rfl
  obtain ⟨rfl, -⟩ := List.cons.inj hsplit
  have hkey : (b' :: found).rdropWhile isBlank ≠ [] := rdropWhile_ne_nil List.mem_cons_self hc
  obtain ⟨buf1, hput1, hfound, hlength1, hdrop1⟩ := h.putNul (n := (b' :: found).length)
    (by rw [← hsplit]; simp)
  rw [← hsplit, List.take_left] at hfound
  obtain ⟨buf2, htrim, hfound, hlength2, hdrop2⟩ := hfound.trim hkey
  obtain ⟨r, hr, hzero⟩ := compareString_eq (b := key) hfound.1
  rw [if_neg (by simp), hput1, Res.ok_bind, htrim, Res.ok_bind]
  simp only [hfound.strAt, Res.ok_bind, hr]
  by_cases heq : (b' :: found).rdropWhile isBlank = key
  · have hvalue : Holds buf2 (k + (b' :: found).length + 1) tail := by
      refine (htail.drop (n := 1) (by simp)).of_drop_eq ?_
      rw [hdrop2 _ (by omega), hdrop1 _ (by omega)]
    have htext := hvalue.dropWhile (p := isBlank)
    obtain ⟨buf3, hput3, hend, hlength3, -⟩ := htext.putNul (length_valueOf_le _)
    rw [take_length_valueOf] at hend
    refine ⟨buf3, ?_, by omega⟩
    rw [if_neg (not_not_intro (hzero.mpr heq)), hvalue.forward rfl, Res.ok_bind, endOfValue_eq htext, Res.ok_bind,
      hput3, Res.ok_bind, hend.strAt, hpair, if_pos heq]
    rfl
  · refine ⟨buf2, ?_, by omega⟩
    rw [if_pos (fun hr => heq (hzero.mp hr)), hpair, if_neg heq]
    rfl

/-- **A line behind the head of a section.** -/
theorem keyRound_eq (key : Bytes) (h : Holds szBuffer 0 line) : ∃ buf,
    keyRound szBuffer key = .ok ((lineOf line).round key, buf) ∧ buf.length = szBuffer.length := by
  have htext := h.dropWhile (p := isBlank)
  have hfirst : ∀ c rest, line.dropWhile isBlank = c :: rest → isBlank c = false := fun _ _ => head_dropWhile
  rw [keyRound, h.forward rfl, Res.ok_bind, htext.charAt, Res.ok_bind, lineOf]
  generalize 0 + (line.takeWhile isBlank).length = k at htext ⊢
  generalize line.dropWhile isBlank = text at htext hfirst ⊢
  obtain _ | ⟨c, rest⟩ := text
  · exact ⟨szBuffer, rfl, rfl⟩
  have hc : c ≠ 0 := fun hc => htext.1 (by simp [hc])
  obtain ⟨buf, hpair, hlength⟩ := pairRound_eq key htext (hfirst c rest rfl)
  have hnext : charAt szBuffer (k + 1) = .ok (rest.headD 0) := htext.charAt_add (n := 1) (by simp)
  have hslash : rest.headD 0 = 47 ↔ rest.head? = some 47 := by
    cases rest <;> simp
  rw [List.headD_cons, hnext]
  simp only [Res.ok_bind, Res.pure_eq, hc, false_or, hslash]
  by_cases h35 : c = 35
  · exact ⟨szBuffer, by simp [h35, Line.round], rfl⟩
  by_cases hcomment : c = 47 ∧ rest.head? = some 47
  · exact ⟨szBuffer, by simp [hcomment, Line.round], rfl⟩
  by_cases hend : c = 13 ∨ c = 10
  · refine ⟨szBuffer, ?_, rfl⟩
    have h47 : c ≠ 47 := by rintro rfl; simp at hend
    rw [if_neg h35, if_neg h47, if_pos hend, if_pos (by tauto)]
    rfl
  have hother : ¬ (c = 35 ∨ c = 13 ∨ c = 10 ∨ c = 47 ∧ rest.head? = some 47) := by tauto
  rw [if_neg h35, if_neg hother]
  by_cases h47 : c = 47
  · have h91 : c ≠ 91 := by rw [h47]; simp
    refine ⟨buf, ?_, hlength⟩
    rw [if_pos h47, if_neg fun hslash => hcomment ⟨h47, hslash⟩, if_neg hend, if_neg h91, if_neg fun h => h91 h.1,
      hpair]
  rw [if_neg h47, if_neg hend]
  by_cases h91 : c = 91
  · subst h91
    have hbracket := htext.dropWhile (p := upTo 93)
    rw [if_pos rfl, htext.forward rfl, Res.ok_bind, hbracket.charAt, Res.ok_bind]
    by_cases hclose : 93 ∈ rest
    · obtain ⟨behind, hbehind⟩ := dropWhile_of_mem htext.1 (List.mem_cons_of_mem _ hclose)
      refine ⟨szBuffer, ?_, rfl⟩
      rw [hbehind, List.headD_cons, if_pos rfl, if_pos ⟨rfl, by simpa using hclose⟩]
      rfl
    · refine ⟨buf, ?_, hlength⟩
      rw [dropWhile_of_notMem htext.1 (by simpa using hclose), List.headD_nil, if_neg (by simp),
        if_neg (by simpa using hclose), hpair]
  · refine ⟨buf, ?_, hlength⟩
    rw [if_neg h91, if_neg fun h => h91 h.1, hpair]

end Rounds

/-! ### The lines of a file -/

theorem pieces_eq {fuel : ℕ} {file : Bytes} (h : file.length ≤ fuel) : pieces fuel file = linesOf file := by
  suffices hmore : ∀ n m file, file.length ≤ n → file.length ≤ m → pieces n file = pieces m file from
    hmore fuel file.length file h le_rfl
  intro n
  induction n with
  | zero =>
    intro m file hn _
    obtain rfl := List.eq_nil_of_length_eq_zero (Nat.le_zero.mp hn)
    cases m <;> rfl
  | succ n ih =>
    intro m file hn hm
    by_cases hfile : file = []
    · subst hfile
      cases m <;> rfl
    · have hshort := fgets_shorter (n := 149) (by omega) hfile
      obtain _ | m := m
      · exact absurd (List.eq_nil_of_length_eq_zero (Nat.le_zero.mp hm)) hfile
      · rw [pieces, pieces, if_neg hfile, if_neg hfile, ih m _ (by omega) (by omega)]

@[simp] theorem linesOf_nil : linesOf [] = [] := rfl

/-- The first line of a file. -/
theorem linesOf_of_ne_nil {file : Bytes} (h : file ≠ []) :
    linesOf file = cStr (fgets 149 file).1 :: linesOf (fgets 149 file).2 := by
  have hshort := fgets_shorter (n := 149) (by omega) h
  obtain ⟨n, hn⟩ := Nat.exists_eq_add_one.mpr (List.length_pos_of_ne_nil h)
  rw [linesOf, hn, pieces, if_neg h, pieces_eq (by omega)]

/-- `fgets` into a buffer of 150 bytes. -/
theorem store_eq {szBuffer : Bytes} (h : szBuffer.length = 150) (file : Bytes) : ∃ buf,
    store szBuffer (fgets 149 file).1 = .ok buf ∧ buf.length = 150 ∧ Holds buf 0 (cStr (fgets 149 file).1) := by
  have hle := length_fgets_le 149 file
  refine ⟨_, if_pos (by omega), ?_, holds_cStr _ _⟩
  simp only [List.length_append, List.length_cons, List.length_drop]
  omega

/-! ### What is found -/

variable {name key : Bytes}

theorem getKeyValue_eq (fuel : ℕ) {szBuffer file : Bytes} (hlength : szBuffer.length = 150)
    (hfuel : file.length < fuel) : getKeyValue key fuel szBuffer file = .ok (keyIn key (linesOf file)) := by
  induction fuel generalizing szBuffer file with
  | zero => omega
  | succ fuel ih =>
    rw [getKeyValue]
    split_ifs with hfile
    · rw [hfile, linesOf_nil, keyIn]
    · have hshort := fgets_shorter (n := 149) (by omega) hfile
      obtain ⟨buf, hstore, hbuf, hholds⟩ := store_eq hlength file
      obtain ⟨buf', hround, hbuf'⟩ := keyRound_eq key hholds
      have hrest := @ih buf' (fgets 149 file).2 (by omega) (by omega)
      simp only [hstore, Res.ok_bind, hround]
      rw [linesOf_of_ne_nil hfile, keyIn]
      rcases lineOf (cStr (fgets 149 file).1) with _ | _ | ⟨key', value⟩
      · exact hrest
      · rfl
      · rw [round_pair]
        by_cases heq : key' = key
        · rw [if_pos heq]
          simp [heq]
        · rw [if_neg heq]
          simpa [heq] using hrest

theorem getSection_eq (hname : SectionName name) (fuel : ℕ) {szBuffer file : Bytes}
    (hlength : szBuffer.length = 150) (hfuel : file.length < fuel) :
    getSection name key fuel szBuffer file = .ok (lookup name key (linesOf file)) := by
  induction fuel generalizing szBuffer file with
  | zero => omega
  | succ fuel ih =>
    rw [getSection]
    split_ifs with hfile
    · rw [hfile, linesOf_nil, lookup]
    · have hshort := fgets_shorter (n := 149) (by omega) hfile
      obtain ⟨buf, hstore, hbuf, hholds⟩ := store_eq hlength file
      obtain ⟨buf', hround, hbuf'⟩ := sectionRound_eq hholds hname
      have hrest := @ih buf' (fgets 149 file).2 (by omega) (by omega)
      simp only [hstore, Res.ok_bind, hround]
      rw [linesOf_of_ne_nil hfile, lookup]
      by_cases hhead : headOf (cStr (fgets 149 file).1) = some name
      · rw [if_pos hhead]
        have hkeys := @getKeyValue_eq key ((fgets 149 file).2.length + 1) (List.replicate 150 0) (fgets 149 file).2
          (by rw [List.length_replicate]) (by omega)
        simpa [hhead] using hkeys
      · rw [if_neg hhead]
        simpa [hhead] using hrest

/-- **The configuration of a file.** Whatever the file holds, no pointer leaves its buffer, the search ends,
and it finds the key in the lines behind the first head of the section. -/
theorem getConfigStringValue_eq (hname : SectionName name) (file : Bytes) :
    getConfigStringValue (some file) name key = .ok (lookup name key (linesOf file)) :=
  getSection_eq hname _ (by rw [List.length_replicate]) (by omega)

/-- A value behind a comment sign is cut, and the head of another section ends the search. -/
theorem getConfigStringValue_comment : getConfigStringValue
    (some [91, 97, 93, 10, 35, 98, 61, 120, 10, 98, 9, 61, 32, 49, 47, 47, 50, 10]) [97] [98] = .ok (.success [49]) :=
  (getConfigStringValue_eq ⟨by simp, by simp⟩ _).trans (by decide +kernel)

/-! ### A file written from sections -/

/-- A line that is read in one piece. -/
structure CleanLine (line : Bytes) : Prop where
  nul : 0 ∉ line
  newline : 10 ∉ line
  length : line.length ≤ 148

/-- A name a head can show. -/
structure CleanName (name : Bytes) : Prop where
  line : CleanLine (91 :: name ++ [93])
  bracket : 93 ∉ name
  first : ∀ c ∈ name.head?, isBlank c = false
  last : ∀ c ∈ name.getLast?, c ≠ 32

/-- A key with its value. -/
structure CleanPair (key value : Bytes) : Prop where
  line : CleanLine (key ++ 61 :: value)
  nonempty : key ≠ []
  equals : 61 ∉ key
  first : ∀ c ∈ key.head?, isBlank c = false ∧ c ≠ 35 ∧ c ≠ 13 ∧ c ≠ 91
  slashes : ¬ [47, 47] <+: key
  last : ∀ c ∈ key.getLast?, isBlank c = false
  carriage : 13 ∉ value
  comment : ¬ [47, 47] <:+: value
  firstValue : ∀ c ∈ value.head?, isBlank c = false

instance (line : Bytes) : Decidable (CleanLine line) :=
  decidable_of_iff (0 ∉ line ∧ 10 ∉ line ∧ line.length ≤ 148)
    ⟨fun h => ⟨h.1, h.2.1, h.2.2⟩, fun h => ⟨h.nul, h.newline, h.length⟩⟩

instance (name : Bytes) : Decidable (CleanName name) :=
  decidable_of_iff (CleanLine (91 :: name ++ [93]) ∧ 93 ∉ name ∧ (∀ c ∈ name.head?, isBlank c = false) ∧
      ∀ c ∈ name.getLast?, c ≠ 32)
    ⟨fun h => ⟨h.1, h.2.1, h.2.2.1, h.2.2.2⟩, fun h => ⟨h.line, h.bracket, h.first, h.last⟩⟩

instance (key value : Bytes) : Decidable (CleanPair key value) :=
  decidable_of_iff (CleanLine (key ++ 61 :: value) ∧ key ≠ [] ∧ 61 ∉ key ∧
      (∀ c ∈ key.head?, isBlank c = false ∧ c ≠ 35 ∧ c ≠ 13 ∧ c ≠ 91) ∧ ¬ [47, 47] <+: key ∧
      (∀ c ∈ key.getLast?, isBlank c = false) ∧ 13 ∉ value ∧ ¬ [47, 47] <:+: value ∧
      ∀ c ∈ value.head?, isBlank c = false)
    ⟨fun h => ⟨h.1, h.2.1, h.2.2.1, h.2.2.2.1, h.2.2.2.2.1, h.2.2.2.2.2.1, h.2.2.2.2.2.2.1, h.2.2.2.2.2.2.2.1,
      h.2.2.2.2.2.2.2.2⟩, fun h => ⟨h.line, h.nonempty, h.equals, h.first, h.slashes, h.last, h.carriage, h.comment,
      h.firstValue⟩⟩

/-- A section that can be written. -/
structure Section where
  name : Bytes
  pairs : List (Bytes × Bytes)
  cleanName : CleanName name
  cleanPairs : ∀ e ∈ pairs, CleanPair e.1 e.2

/-- The lines of a section. -/
def Section.lines (s : Section) : List Bytes := (91 :: s.name ++ [93]) :: s.pairs.map fun e => e.1 ++ 61 :: e.2

/-- A file with the given sections. -/
def written (sections : List Section) : Bytes := (sections.flatMap Section.lines).flatMap (· ++ [10])

/-- The lines of a file that is written from lines. -/
theorem linesOf_written {lines : List Bytes} (h : ∀ line ∈ lines, CleanLine line) :
    linesOf (lines.flatMap (· ++ [10])) = lines.map (· ++ [10]) := by
  induction lines with
  | nil => rfl
  | cons line lines ih =>
    have hline := h line List.mem_cons_self
    have hfgets := fgets_line hline.newline (lines.flatMap (· ++ [10])) (Nat.lt_succ_of_le hline.length)
    rw [List.flatMap_cons, linesOf_of_ne_nil (by simp), hfgets, List.map_cons,
      ih fun l hl => h l (List.mem_cons_of_mem _ hl), cStr_of_no_nul]
    intro b hb
    rintro rfl
    simp [hline.nul] at hb

theorem dropWhile_eq_self {p : UInt8 → Bool} {text : Bytes} (h : ∀ c ∈ text.head?, p c = false) :
    text.dropWhile p = text := by
  obtain _ | ⟨c, text⟩ := text
  · rfl
  · rw [List.dropWhile_cons_of_neg]
    simp [h c rfl]

theorem rdropWhile_eq_self {p : UInt8 → Bool} {text : Bytes} (h : ∀ c ∈ text.getLast?, p c = false) :
    text.rdropWhile p = text := by
  rw [List.rdropWhile_eq_self_iff]
  intro hne
  simp [h _ (List.getLast?_eq_some_getLast hne)]

theorem takeWhile_upTo {c : UInt8} {text : Bytes} (hnul : 0 ∉ text) (hc : c ∉ text) (rest : Bytes) :
    (text ++ c :: rest).takeWhile (upTo c) = text ∧ (text ++ c :: rest).dropWhile (upTo c) = c :: rest := by
  have hall : ∀ b ∈ text, upTo c b = true := by
    intro b hb
    simp only [upTo, decide_eq_true_eq]
    exact ⟨ne_of_mem_of_not_mem hb hc, ne_of_mem_of_not_mem hb hnul⟩
  have hend : ¬ upTo c c = true := by simp [upTo]
  rw [List.takeWhile_append_of_pos hall, List.dropWhile_append_of_pos hall, List.takeWhile_cons_of_neg hend,
    List.dropWhile_cons_of_neg hend, List.append_nil]
  exact ⟨rfl, rfl⟩

/-- **The head of a section** is read back. -/
theorem headOf_head {name : Bytes} (h : CleanName name) :
    headOf (91 :: name ++ [93] ++ [10]) = some name := by
  have hnul : 0 ∉ name := fun hmem => h.line.nul (by simp [hmem])
  have hopen : (91 :: name ++ [93] ++ [10]).dropWhile isBlank = 91 :: (name ++ 93 :: [10]) := by
    rw [dropWhile_eq_self (by simp [isBlank])]
    simp
  have hinside : (name ++ 93 :: [10]).dropWhile isBlank = name ++ 93 :: [10] := by
    refine dropWhile_eq_self fun c hc => ?_
    obtain _ | ⟨d, name⟩ := name
    · obtain rfl : 93 = c := by simpa using hc
      rfl
    · exact h.first c hc
  have hname : name.rdropWhile (fun b => b = 32) = name := rdropWhile_eq_self (by simpa using h.last)
  rw [headOf, hopen]
  simp only [hinside, (takeWhile_upTo hnul h.bracket [10]).1, hname]
  simp

theorem lineOf_head (name : Bytes) : lineOf (91 :: name ++ [93] ++ [10]) = .head := by
  have hopen : (91 :: name ++ [93] ++ [10]).dropWhile isBlank = 91 :: (name ++ [93] ++ [10]) :=
    dropWhile_eq_self (by simp [isBlank])
  rw [lineOf, hopen]
  simp

theorem headOf_pair {key value : Bytes} (h : CleanPair key value) :
    headOf (key ++ 61 :: value ++ [10]) = none := by
  obtain ⟨c, key, rfl⟩ := List.exists_cons_of_ne_nil h.nonempty
  obtain ⟨hblank, -, -, h91⟩ := h.first c rfl
  have htext : (c :: key ++ 61 :: value ++ [10]).dropWhile isBlank = c :: (key ++ 61 :: value ++ [10]) :=
    dropWhile_eq_self (by simpa using hblank)
  rw [headOf, htext]
  simp [h91]

theorem valueOf_line {value : Bytes} (hreturn : 13 ∉ value) (hnewline : 10 ∉ value)
    (hcomment : ¬ [47, 47] <:+: value) : valueOf (value ++ [10]) = value := by
  induction value with
  | nil => rfl
  | cons c value ih =>
    have hrest := ih (fun h => hreturn (List.mem_cons_of_mem c h)) (fun h => hnewline (List.mem_cons_of_mem c h))
      (fun h => hcomment (h.trans (List.suffix_cons c value).isInfix))
    have hc : ¬ (c = 13 ∨ c = 10 ∨ (c = 47 ∧ (value ++ [10]).head? = some 47)) := by
      rintro (rfl | rfl | ⟨rfl, hhead⟩)
      · exact hreturn List.mem_cons_self
      · exact hnewline List.mem_cons_self
      · obtain _ | ⟨d, value⟩ := value
        · cases hhead
        · obtain rfl : d = 47 := by simpa using hhead
          exact hcomment (List.IsPrefix.isInfix ⟨value, rfl⟩)
    rw [List.cons_append, valueOf, if_neg hc, hrest]

/-- **A key and its value** are read back. -/
theorem lineOf_pair {key value : Bytes} (h : CleanPair key value) :
    lineOf (key ++ 61 :: value ++ [10]) = .pair key value := by
  have hnul : 0 ∉ key := fun hmem => h.line.nul (by simp [hmem])
  have hnewline : 10 ∉ value := fun hmem => h.line.newline (by simp [hmem])
  have hsplit : key ++ 61 :: value ++ [10] = key ++ 61 :: (value ++ [10]) := by simp
  have htake := takeWhile_upTo hnul h.equals (value ++ [10])
  have hkey : key.rdropWhile isBlank = key := rdropWhile_eq_self h.last
  have hvalue : (value ++ [10]).dropWhile isBlank = value ++ [10] := by
    refine dropWhile_eq_self fun c hc => ?_
    obtain _ | ⟨d, value⟩ := value
    · obtain rfl : 10 = c := by simpa using hc
      rfl
    · exact h.firstValue c hc
  have hpair : pairOf (key ++ 61 :: (value ++ [10])) = .pair key value := by
    rw [pairOf]
    simp only [htake.1, htake.2, if_neg h.nonempty, hkey, hvalue,
      valueOf_line h.carriage hnewline h.comment]
  rw [hsplit, lineOf]
  obtain ⟨c, key, rfl⟩ := List.exists_cons_of_ne_nil h.nonempty
  obtain ⟨hblank, h35, h13, h91⟩ := h.first c rfl
  have h10 : c ≠ 10 := fun hc => h.line.newline (by simp [hc])
  have hslashes : ¬ (c = 47 ∧ (key ++ 61 :: (value ++ [10])).head? = some 47) := by
    rintro ⟨rfl, hhead⟩
    obtain _ | ⟨d, key⟩ := key
    · cases hhead
    · obtain rfl : d = 47 := by simpa using hhead
      exact h.slashes ⟨key, rfl⟩
  have htext : (c :: key ++ 61 :: (value ++ [10])).dropWhile isBlank = c :: key ++ 61 :: (value ++ [10]) :=
    dropWhile_eq_self (by simpa using hblank)
  rw [htext]
  simp only [List.cons_append] at hpair ⊢
  rw [if_neg (by tauto), if_neg fun hc => h91 hc.1, hpair]

/-! ### What is written is found -/

/-- The pairs of a section, looked through for a key. -/
theorem keyIn_pairs {pairs : List (Bytes × Bytes)} (h : ∀ e ∈ pairs, CleanPair e.1 e.2) (rest : List Bytes) :
    keyIn key ((pairs.map fun e => e.1 ++ 61 :: e.2).map (· ++ [10]) ++ rest) =
      (pairs.lookup key).elim (keyIn key rest) .success := by
  induction pairs with
  | nil => rfl
  | cons e pairs ih =>
    have hrest := ih fun e' he' => h e' (List.mem_cons_of_mem e he')
    rw [List.map_cons, List.map_cons, List.cons_append, keyIn, lineOf_pair (h e List.mem_cons_self),
      List.lookup_cons]
    by_cases hkey : e.1 = key
    · simp [hkey]
    · have hne : (key == e.1) = false := by simpa using fun hk => hkey hk.symm
      simpa [hkey, hne] using hrest

/-- The pairs of a section are no heads. -/
theorem lookup_pairs {pairs : List (Bytes × Bytes)} (h : ∀ e ∈ pairs, CleanPair e.1 e.2) (rest : List Bytes) :
    lookup name key ((pairs.map fun e => e.1 ++ 61 :: e.2).map (· ++ [10]) ++ rest) = lookup name key rest := by
  induction pairs with
  | nil => rfl
  | cons e pairs ih =>
    rw [List.map_cons, List.map_cons, List.cons_append, lookup, headOf_pair (h e List.mem_cons_self),
      if_neg (by simp), ih fun e' he' => h e' (List.mem_cons_of_mem e he')]

theorem cleanLine_of_mem {s : Section} {line : Bytes} (h : line ∈ s.lines) : CleanLine line := by
  rw [Section.lines, List.mem_cons, List.mem_map] at h
  obtain rfl | ⟨e, he, rfl⟩ := h
  · exact s.cleanName.line
  · exact (s.cleanPairs e he).line

/-- A section ends where the next one starts. -/
theorem keyIn_sections (sections : List Section) :
    keyIn key ((sections.flatMap Section.lines).map (· ++ [10])) = .keynameNotexist := by
  obtain _ | ⟨s, sections⟩ := sections
  · rfl
  · rw [List.flatMap_cons, Section.lines, List.cons_append, List.map_cons, keyIn, lineOf_head]

/-- **What is written is found**: the value of the key in the first section of the name. -/
theorem getConfigStringValue_written (hname : SectionName name) (sections : List Section) :
    getConfigStringValue (some (written sections)) name key =
      .ok ((sections.find? fun s => s.name = name).elim .sectionnameNotexist fun s =>
        (s.pairs.lookup key).elim .keynameNotexist .success) := by
  have hlines : ∀ line ∈ sections.flatMap Section.lines, CleanLine line := by
    intro line hline
    obtain ⟨s, -, hs⟩ := List.mem_flatMap.mp hline
    exact cleanLine_of_mem hs
  rw [getConfigStringValue_eq hname, written, linesOf_written hlines]
  congr 1
  clear hlines
  induction sections with
  | nil => rfl
  | cons s sections ih =>
    rw [List.flatMap_cons, List.map_append, Section.lines, List.map_cons, List.cons_append, lookup,
      headOf_head s.cleanName, List.find?_cons]
    by_cases hs : s.name = name
    · rw [if_pos (by rw [hs]), keyIn_pairs s.cleanPairs, keyIn_sections]
      simp [hs]
    · rw [if_neg (by simpa using hs), lookup_pairs s.cleanPairs, ih]
      simp [hs]

/-- The bytes of a string literal. -/
def ascii (s : String) : Bytes := s.toList.map fun c => UInt8.ofNat c.toNat

/-- The file `config/mq_config`. -/
def mqConfig : List Section :=
  [⟨ascii "MQ_FINAL_TOPIC", [(ascii "name", ascii "ERP_FINAL_TOPIC_PRO"),
      (ascii "producer", ascii "PID_erp_final_producer"),
      (ascii "consumer", ascii "CID_erp_final_c_server_consumer")], by decide +kernel, by decide +kernel⟩,
    ⟨ascii "MQ_EXCEPTION", [(ascii "name", ascii "EXCEPTION_TOPIC_PRO"),
      (ascii "producer", ascii "PID_exception_producer"),
      (ascii "consumer", ascii "CID_exception_c_server_consumer")], by decide +kernel, by decide +kernel⟩]

theorem getConfigStringValue_written_mqConfig :
    getConfigStringValue (some (written mqConfig)) (ascii "MQ_EXCEPTION") (ascii "name") =
      .ok (.success (ascii "EXCEPTION_TOPIC_PRO")) :=
  (getConfigStringValue_written ⟨by simp [ascii], by simp [ascii]⟩ mqConfig).trans (by decide +kernel)

/-! ### The configuration of the message queue -/

/-- `MQ_CONFIG`. -/
structure MqConfig where
  name : Bytes
  producer : Bytes
  consumer : Bytes
  deriving DecidableEq, Repr

/-- What `initConfig` sets: `m_mq_config` at its three topics, and `m_wms_topic_name`. -/
structure Queues where
  erpFinalTopic : MqConfig
  queueRawTopic : MqConfig
  exceptionTopic : MqConfig
  wmsTopicName : Bytes
  deriving DecidableEq, Repr

/-- What `initConfig` throws. -/
def message (r : String × String) : String := "config " ++ r.1 ++ " " ++ r.2

/-- One of the reads of `initConfig`, into `szTmp`. -/
def request (file : Option Bytes) (r : String × String) : ExceptT String Res Bytes :=
  ExceptT.mk do
    match ← getConfigStringValue file (ascii r.1) (ascii r.2) with
    | .success value => if value.length < 1024 then return .ok value else .error .fault
    | _ => return .error (message r)

/-- `initConfig`. -/
def initConfig (file : Option Bytes) : ExceptT String Res Queues := do
  let name ← request file ("MQ_FINAL_TOPIC", "name")
  let producer ← request file ("MQ_FINAL_TOPIC", "producer")
  let consumer ← request file ("MQ_FINAL_TOPIC", "consumer")
  let erpFinalTopic := ⟨name, producer, consumer⟩
  let wmsTopicName ← request file ("MQ_RAW_TOPIC", "name")
  let producer ← request file ("MQ_RAW_TOPIC", "producer")
  let consumer ← request file ("MQ_RAW_TOPIC", "consumer")
  let queueRawTopic := ⟨wmsTopicName, producer, consumer⟩
  let name ← request file ("MQ_EXCEPTION", "name")
  let producer ← request file ("MQ_EXCEPTION", "producer")
  let consumer ← request file ("MQ_EXCEPTION", "consumer")
  return ⟨erpFinalTopic, queueRawTopic, ⟨name, producer, consumer⟩, wmsTopicName⟩

/-- The keys that `initConfig` reads, in their order. -/
def requests : List (String × String) :=
  [("MQ_FINAL_TOPIC", "name"), ("MQ_FINAL_TOPIC", "producer"), ("MQ_FINAL_TOPIC", "consumer"),
    ("MQ_RAW_TOPIC", "name"), ("MQ_RAW_TOPIC", "producer"), ("MQ_RAW_TOPIC", "consumer"),
    ("MQ_EXCEPTION", "name"), ("MQ_EXCEPTION", "producer"), ("MQ_EXCEPTION", "consumer")]

/-- The value of an answer. -/
def Answer.value? : Answer → Option Bytes
  | .success value => some value
  | _ => none

/-- The value of a key in a file. -/
def valueIn (file : Option Bytes) (r : String × String) : Option Bytes :=
  file.bind fun file => (lookup (ascii r.1) (ascii r.2) (linesOf file)).value?

theorem sectionName_of_mem {r : String × String} (h : r ∈ requests) : SectionName (ascii r.1) := by
  simp only [requests, List.mem_cons, List.not_mem_nil, or_false] at h
  rcases h with rfl | rfl | rfl | rfl | rfl | rfl | rfl | rfl | rfl
  all_goals exact ⟨by simp [ascii], by simp [ascii]⟩

/-- What is found for a key stands behind it in a line. -/
theorem mem_of_keyIn {lines : List Bytes} {value : Bytes} (h : keyIn key lines = .success value) :
    ∃ line ∈ lines, lineOf line = .pair key value := by
  induction lines with
  | nil => cases h
  | cons line lines ih =>
    rw [keyIn] at h
    rcases hline : lineOf line with _ | _ | ⟨key', value'⟩ <;> rw [hline] at h
    · obtain ⟨l, hl, hpair⟩ := ih h
      exact ⟨l, List.mem_cons_of_mem _ hl, hpair⟩
    · cases h
    · by_cases hkey : key' = key
      · subst hkey
        obtain rfl : value' = value := by simpa using h
        exact ⟨line, List.mem_cons_self, hline⟩
      · obtain ⟨l, hl, hpair⟩ := ih (by simpa [hkey] using h)
        exact ⟨l, List.mem_cons_of_mem _ hl, hpair⟩

theorem mem_of_lookup {lines : List Bytes} {value : Bytes} (h : lookup name key lines = .success value) :
    ∃ line ∈ lines, lineOf line = .pair key value := by
  induction lines with
  | nil => cases h
  | cons line lines ih =>
    rw [lookup] at h
    split_ifs at h
    · obtain ⟨l, hl, hpair⟩ := mem_of_keyIn h
      exact ⟨l, List.mem_cons_of_mem _ hl, hpair⟩
    · obtain ⟨l, hl, hpair⟩ := ih h
      exact ⟨l, List.mem_cons_of_mem _ hl, hpair⟩

theorem length_of_pair {line value : Bytes} (h : lineOf line = .pair key value) : value.length ≤ line.length := by
  have htext := (List.dropWhile_suffix isBlank (l := line)).length_le
  rw [lineOf] at h
  generalize line.dropWhile isBlank = text at h htext
  obtain _ | ⟨c, rest⟩ := text
  · cases h
  · simp only at h
    split_ifs at h
    rw [pairOf] at h
    have htail := (List.dropWhile_suffix (upTo 61) (l := c :: rest)).length_le
    generalize (c :: rest).dropWhile (upTo 61) = tail at h htail
    obtain _ | ⟨d, tail⟩ := tail
    · cases h
    · simp only at h
      split_ifs at h
      obtain ⟨-, rfl⟩ := Line.pair.inj h
      have hblanks := (List.dropWhile_suffix isBlank (l := tail)).length_le
      have hvalue := length_valueOf_le (tail.dropWhile isBlank)
      simp only [List.length_cons] at htail htext ⊢
      omega

theorem length_of_mem_linesOf {file line : Bytes} (h : line ∈ linesOf file) : line.length ≤ 149 := by
  suffices hall : ∀ fuel file, line ∈ pieces fuel file → line.length ≤ 149 from hall _ _ h
  intro fuel
  induction fuel with
  | zero => exact fun file h => absurd h List.not_mem_nil
  | succ fuel ih =>
    intro file h
    rw [pieces] at h
    split_ifs at h
    · exact absurd h List.not_mem_nil
    · obtain rfl | h := List.mem_cons.mp h
      · exact (List.takeWhile_prefix _).length_le.trans (length_fgets_le 149 file)
      · exact ih _ h

/-- A value is no longer than the line it stands in. -/
theorem length_valueIn {r : String × String} {file : Option Bytes} {value : Bytes}
    (h : valueIn file r = some value) : value.length < 1024 := by
  obtain ⟨file, rfl, hvalue⟩ := Option.bind_eq_some_iff.mp h
  generalize hanswer : lookup (ascii r.1) (ascii r.2) (linesOf file) = answer at hvalue
  cases answer with
  | success value' =>
    obtain rfl : value' = value := by simpa [Answer.value?] using hvalue
    obtain ⟨line, hline, hpair⟩ := mem_of_lookup hanswer
    have := length_of_pair hpair
    have := length_of_mem_linesOf hline
    omega
  | _ => cases hvalue

theorem request_eq {r : String × String} (h : r ∈ requests) (file : Option Bytes) :
    request file r = ExceptT.mk (.ok ((valueIn file r).elim (.error (message r)) .ok)) := by
  obtain _ | file := file
  · rfl
  · rw [request, getConfigStringValue_eq (sectionName_of_mem h)]
    have hlength := fun value => @length_valueIn r (some file) value
    rw [valueIn, Option.bind_some] at hlength ⊢
    rw [Res.ok_bind]
    generalize lookup (ascii r.1) (ascii r.2) (linesOf file) = answer at hlength ⊢
    cases answer with
    | success value =>
      simp only [if_pos (hlength value rfl)]
      rfl
    | _ => rfl

/-- **The configuration of the message queue.** `initConfig` always ends without a fault. It takes the nine
values when they are all there, and otherwise throws for the first that is missing. -/
theorem initConfig_eq (file : Option Bytes) : ∃ outcome, (initConfig file).run = .ok outcome ∧
    (∀ q, outcome = .ok q ↔ requests.map (valueIn file) =
      [q.erpFinalTopic.name, q.erpFinalTopic.producer, q.erpFinalTopic.consumer, q.queueRawTopic.name,
        q.queueRawTopic.producer, q.queueRawTopic.consumer, q.exceptionTopic.name, q.exceptionTopic.producer,
        q.exceptionTopic.consumer].map some ∧ q.wmsTopicName = q.queueRawTopic.name) ∧
    ∀ m, outcome = .error m ↔ ∃ r, requests.find? (fun r => valueIn file r = none) = some r ∧ message r = m := by
  have hrequest : ∀ r ∈ requests, request file r = _ := fun r hr => request_eq hr file
  simp only [requests, List.forall_mem_cons] at hrequest
  obtain ⟨h1, h2, h3, h4, h5, h6, h7, h8, h9, -⟩ := hrequest
  rw [initConfig, h1, h2, h3, h4, h5, h6, h7, h8, h9]
  clear h1 h2 h3 h4 h5 h6 h7 h8 h9
  simp only [requests, List.map_cons, List.map_nil, List.find?_cons]
  generalize valueIn file ("MQ_FINAL_TOPIC", "name") = v1
  generalize valueIn file ("MQ_FINAL_TOPIC", "producer") = v2
  generalize valueIn file ("MQ_FINAL_TOPIC", "consumer") = v3
  generalize valueIn file ("MQ_RAW_TOPIC", "name") = v4
  generalize valueIn file ("MQ_RAW_TOPIC", "producer") = v5
  generalize valueIn file ("MQ_RAW_TOPIC", "consumer") = v6
  generalize valueIn file ("MQ_EXCEPTION", "name") = v7
  generalize valueIn file ("MQ_EXCEPTION", "producer") = v8
  generalize valueIn file ("MQ_EXCEPTION", "consumer") = v9
  obtain _ | v1 := v1
  · exact ⟨.error _, rfl, by simp, by simp⟩
  obtain _ | v2 := v2
  · exact ⟨.error _, rfl, by simp, by simp⟩
  obtain _ | v3 := v3
  · exact ⟨.error _, rfl, by simp, by simp⟩
  obtain _ | v4 := v4
  · exact ⟨.error _, rfl, by simp, by simp⟩
  obtain _ | v5 := v5
  · exact ⟨.error _, rfl, by simp, by simp⟩
  obtain _ | v6 := v6
  · exact ⟨.error _, rfl, by simp, by simp⟩
  obtain _ | v7 := v7
  · exact ⟨.error _, rfl, by simp, by simp⟩
  obtain _ | v8 := v8
  · exact ⟨.error _, rfl, by simp, by simp⟩
  obtain _ | v9 := v9
  · exact ⟨.error _, rfl, by simp, by simp⟩
  refine ⟨.ok ⟨⟨v1, v2, v3⟩, ⟨v4, v5, v6⟩, ⟨v7, v8, v9⟩, v4⟩, rfl, ?_, by simp⟩
  rintro ⟨⟨_, _, _⟩, ⟨_, _, _⟩, ⟨_, _, _⟩, _⟩
  simp only [Except.ok.injEq, Queues.mk.injEq, MqConfig.mk.injEq, List.cons.injEq, Option.some.injEq]
  constructor
  · rintro ⟨⟨rfl, rfl, rfl⟩, ⟨rfl, rfl, rfl⟩, ⟨rfl, rfl, rfl⟩, rfl⟩
    simp
  · rintro ⟨⟨rfl, rfl, rfl, rfl, rfl, rfl, rfl, rfl, rfl, -⟩, rfl⟩
    simp

example : (initConfig (some (written mqConfig))).run = .ok (.error "config MQ_RAW_TOPIC name") := by decide +kernel

end DataSync.Server.Config
