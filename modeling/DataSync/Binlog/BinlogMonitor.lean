import DataSync.Binlog.ParseLogEntry
import DataSync.Lib.CString

/-! # The name of the current binary log

`CBinlogMonitor` keeps the size of the index file and the last line of it, the name of the binary log the
server writes to. `getBinlogIndex` reads the line again when the size has changed: it compares the size
`getBinlogIndexSize` gives with the one it keeps, which `getBinlogIndexSize` has just set. Which of the two
sides is evaluated first is left open by C++.

`getBinlogIndexFileName_eq`: what is read is the last line. `getBinlogIndex_iff` is one call, and
`follows_iff` a sequence of calls: they give the last line of the file as long as a line that changes comes
with a size that does, and the compiler loads the size that is kept before the call. -/

namespace DataSync.Binlog.BinlogMonitor

open DataSync.Lib.Words DataSync.Lib.Memory DataSync.Lib.CString DataSync.Binlog.ParseLogEntry

/-! ### Reading the index file -/

/-- The two builds, with their text files and their `long`. -/
inductive Build where
  | win32 | other
  deriving DecidableEq, Repr

/-- Carriage returns in front of a newline go. -/
def crlf : Bytes → Bytes
  | [] => []
  | b :: rest => if b = 13 ∧ rest.head? = some 10 then crlf rest else b :: crlf rest

/-- A file as it is read in the mode `r`: on Windows it ends at a Ctrl-Z. -/
def text (build : Build) (file : Bytes) : Bytes :=
  match build with
  | .win32 => crlf (file.takeWhile (· ≠ 26))
  | .other => file

/-- The size of a file as `ftell` gives it, in 32 bits. -/
def indexSize (build : Build) (file : Bytes) : ℕ :=
  match build with
  | .win32 => FileCache.tell file.length % 2 ^ 32
  | .other => file.length % 2 ^ 32

/-- The loop of `fgets` into `szBuf`, which is indeterminate at first. -/
def fgetsLoop : ℕ → Bytes → Option Bytes → Res (Option Bytes)
  | 0, _, _ => .error .hang
  | fuel + 1, rest, szBuf =>
    if rest = [] then .ok szBuf else fgetsLoop fuel (fgets 255 rest).2 (some (fgets 255 rest).1)

/-- `CBinlogMonitor`, without the directory and the thread. -/
structure CBinlogMonitor where
  binlogIndexFileLen : ℕ
  binlogIndexFileName : Bytes
  deriving DecidableEq, Repr

/-- A new `CBinlogMonitor`. -/
def CBinlogMonitor.new : CBinlogMonitor := ⟨0, []⟩

section Monitor
variable (build : Build)

/-- `getBinlogIndexSize`. A file that cannot be opened is `none`. -/
def getBinlogIndexSize (file : Option Bytes) (s : CBinlogMonitor) : ℕ × CBinlogMonitor :=
  match file with
  | none => (0, s)
  | some file => (indexSize build file, { s with binlogIndexFileLen := indexSize build file })

/-- `getBinlogIndexFileName`. Of an empty string `szBuf[len-1]` lies in front of the buffer. -/
def getBinlogIndexFileName (file : Option Bytes) (s : CBinlogMonitor) : Res (Bytes × CBinlogMonitor) := do
  match file with
  | none => return ([], s)
  | some file =>
    let szBuf ← Res.ofOption (← fgetsLoop ((text build file).length + 1) (text build file) none)
    let line := cStr szBuf
    if line = [] then throw .fault
    let name := if line.getLast? = some 10 then line.dropLast else line
    return (name, ⟨indexSize build file, name⟩)

/-- `initBinlogInfo`. -/
def initBinlogInfo (file : Option Bytes) (s : CBinlogMonitor) : Res (Bool × CBinlogMonitor) := do
  let (name, s) ← getBinlogIndexFileName build file s
  return (name ≠ [], s)

/-- Which side of the comparison in `getBinlogIndex` is evaluated first. -/
inductive Order where
  | callFirst | memberFirst
  deriving DecidableEq, Repr

/-- `getBinlogIndex`. -/
def getBinlogIndex (order : Order) (file : Option Bytes) (s : CBinlogMonitor) : Res (Bytes × CBinlogMonitor) :=
  let (size, s') := getBinlogIndexSize build file s
  let binlogIndexFileLen :=
    match order with
    | .callFirst => s'.binlogIndexFileLen
    | .memberFirst => s.binlogIndexFileLen
  if size = binlogIndexFileLen then .ok (s'.binlogIndexFileName, s')
  else getBinlogIndexFileName build file s'

end Monitor

/-! ### The last line -/

/-- The last line of a text, without its newline. -/
def lastLine (bs : Bytes) : Bytes :=
  ((if bs.getLast? = some 10 then bs.dropLast else bs).reverse.takeWhile (· ≠ 10)).reverse

/-- Every line is shorter than 255 bytes. -/
def ShortLines (bs : Bytes) : Prop :=
  ∀ before line behind : Bytes, bs = before ++ line ++ behind → 10 ∉ line → line.length < 255

theorem lastLine_line {line : Bytes} (h : 10 ∉ line) :
    lastLine (line ++ [10]) = line ∧ lastLine line = line := by
  have htake : line.reverse.takeWhile (· ≠ 10) = line.reverse := by
    rw [List.takeWhile_eq_self_iff]
    intro b hb
    simpa using ne_of_mem_of_not_mem (List.mem_reverse.mp hb) h
  have hlast : line.getLast? ≠ some 10 := fun hmem => h (List.mem_of_getLast? hmem)
  constructor
  · rw [lastLine, if_pos (by simp), List.dropLast_concat, htake, List.reverse_reverse]
  · rw [lastLine, if_neg hlast, htake, List.reverse_reverse]

/-- A line with more behind it is not the last one. -/
theorem lastLine_append {rest : Bytes} (line : Bytes) (hne : rest ≠ []) :
    lastLine (line ++ [10] ++ rest) = lastLine rest := by
  have htake (bs : Bytes) :
      ((line ++ [10] ++ bs).reverse.takeWhile (· ≠ 10)) = bs.reverse.takeWhile (· ≠ 10) := by
    rw [List.reverse_append, List.reverse_append, List.takeWhile_append]
    split_ifs with hall
    · have hself : bs.reverse.takeWhile (· ≠ 10) = bs.reverse :=
        (List.takeWhile_prefix _).eq_of_length hall
      rw [hself]
      simp
    · rfl
  unfold lastLine
  rw [List.getLast?_append_of_ne_nil _ hne]
  split_ifs
  · rw [List.dropLast_append_of_ne_nil hne, htake]
  · rw [htake]

theorem not_mem_lastLine (bs : Bytes) : 10 ∉ lastLine bs := by
  intro h
  have hb := List.mem_takeWhile_imp (List.mem_reverse.mp h)
  simp at hb

/-! ### What is read -/

/-- The newline of the last line, when there is one. -/
def newline (bs : Bytes) : Bytes := if bs.getLast? = some 10 then [10] else []

theorem chunk_ne_nil {bs : Bytes} (hne : bs ≠ []) : lastLine bs ++ newline bs ≠ [] := by
  unfold newline
  split_ifs with hlast
  · simp
  · rw [List.append_nil, lastLine, if_neg hlast]
    obtain ⟨front, b, rfl⟩ := (List.eq_nil_or_concat' bs).resolve_left hne
    have hb : b ≠ 10 := fun hb => hlast (by rw [hb, List.getLast?_concat])
    simp [hb]

/-- **The loop ends with the last line in the buffer.** -/
theorem fgetsLoop_eq {fuel : ℕ} {bs : Bytes} (szBuf : Option Bytes) (hshort : ShortLines bs) (hne : bs ≠ [])
    (hfuel : bs.length < fuel) : fgetsLoop fuel bs szBuf = .ok (some (lastLine bs ++ newline bs)) := by
  obtain ⟨fuel, rfl⟩ : ∃ k, fuel = k + 1 := ⟨fuel - 1, by omega⟩
  induction fuel generalizing bs szBuf with
  | zero =>
    have := List.length_pos_iff.mpr hne
    omega
  | succ fuel ih =>
    rw [fgetsLoop, if_neg hne]
    by_cases hmem : 10 ∈ bs
    · obtain ⟨line, rest, hbs, hline⟩ := List.eq_append_cons_of_mem hmem
      have hbs' : bs = line ++ [10] ++ rest := by rw [hbs, List.append_assoc]; rfl
      have hlen : line.length < 255 := hshort [] line ([10] ++ rest) (by rw [hbs']; simp) hline
      rw [hbs', fgets_line hline rest hlen]
      by_cases hrest : rest = []
      · rw [hrest, List.append_nil, fgetsLoop, if_pos rfl, (lastLine_line hline).1, newline, if_pos (by simp)]
      · have hshort' : ShortLines rest := fun before part behind hparts hpart =>
          hshort (line ++ [10] ++ before) part behind (by rw [hbs', hparts]; simp) hpart
        have hlen' : rest.length < fuel + 1 := by
          rw [hbs'] at hfuel
          simp only [List.length_append, List.length_singleton] at hfuel
          omega
        rw [ih _ hshort' hrest hlen', lastLine_append line hrest, newline, newline,
          List.getLast?_append_of_ne_nil _ hrest]
    · have hlen : bs.length < 255 := hshort [] bs [] (by simp) hmem
      have hlast : bs.getLast? ≠ some 10 := fun h => hmem (List.mem_of_getLast? h)
      rw [fgets_end hmem hlen, fgetsLoop, if_pos rfl, (lastLine_line hmem).2, newline, if_neg hlast,
        List.append_nil]

/-- The last line can be read as a string: there is one, and it has no NUL. -/
def Readable (bs : Bytes) : Prop := bs ≠ [] ∧ 0 ∉ lastLine bs

/-- The newline is taken off the string in the buffer. -/
theorem strip_eq {line : Bytes} (nl : Bytes) (hline : 10 ∉ line) (hnl : nl = [10] ∨ nl = []) :
    (if (cStr (line ++ nl)).getLast? = some 10 then (cStr (line ++ nl)).dropLast else cStr (line ++ nl)) =
      cStr line := by
  by_cases hnul : 0 ∈ line
  · obtain ⟨front, behind, rfl, hfront⟩ := List.eq_append_cons_of_mem hnul
    have hlast : front.getLast? ≠ some 10 := fun h =>
      hline (List.mem_append_left _ (List.mem_of_getLast? h))
    rw [List.append_assoc, List.cons_append, cStr_append_nul hfront, cStr_append_nul hfront, if_neg hlast]
  · have hself : cStr (line ++ nl) = line ++ nl := by
      rw [cStr_eq_self_iff, List.mem_append, not_or]
      refine ⟨hnul, ?_⟩
      rcases hnl with rfl | rfl <;> decide
    rw [hself, cStr_eq_self_iff.mpr hnul]
    rcases hnl with rfl | rfl
    · rw [if_pos List.getLast?_concat, List.dropLast_concat]
    · rw [List.append_nil, if_neg fun h => hline (List.mem_of_getLast? h)]

section Read
variable {build : Build} {file name : Bytes} {s s' : CBinlogMonitor} (hshort : ShortLines (text build file))
include hshort

/-- The name that is read from a file. -/
theorem getBinlogIndexFileName_eq : getBinlogIndexFileName build (some file) s =
    if cStr (lastLine (text build file) ++ newline (text build file)) = [] then .error .fault
    else .ok (cStr (lastLine (text build file)),
      ⟨indexSize build file, cStr (lastLine (text build file))⟩) := by
  have hstrip := strip_eq (newline (text build file)) (not_mem_lastLine (text build file))
    (by unfold newline; split_ifs <;> simp)
  unfold getBinlogIndexFileName
  dsimp only
  by_cases hne : text build file = []
  · rw [hne, fgetsLoop, if_pos rfl, Res.ok_bind, Res.ofOption_none, Res.error_bind]
    rfl
  · rw [fgetsLoop_eq none hshort hne (Nat.lt_succ_self _), Res.ok_bind, Res.ofOption_some, Res.ok_bind, hstrip]
    split_ifs <;> rfl

/-- **What is read is the last line**, when it can be read as a string. -/
theorem getBinlogIndexFileName_iff : getBinlogIndexFileName build (some file) s =
      .ok (lastLine (text build file), s') ↔
    Readable (text build file) ∧ s' = ⟨indexSize build file, lastLine (text build file)⟩ := by
  rw [getBinlogIndexFileName_eq hshort, Readable, ← cStr_eq_self_iff]
  constructor
  · intro h
    split_ifs at h with hempty
    obtain ⟨hname, rfl⟩ := Prod.mk.inj (Except.ok.inj h)
    refine ⟨⟨fun hnil => hempty ?_, hname⟩, by rw [hname]⟩
    rw [hnil]
    rfl
  · rintro ⟨⟨hne, hname⟩, rfl⟩
    have hchunk : cStr (lastLine (text build file) ++ newline (text build file)) =
        lastLine (text build file) ++ newline (text build file) := by
      rw [cStr_eq_self_iff, List.mem_append, not_or]
      exact ⟨cStr_eq_self_iff.mp hname, by unfold newline; split_ifs <;> decide⟩
    rw [hchunk, if_neg (chunk_ne_nil hne), hname]

/-- What a successful `initBinlogInfo` keeps. -/
theorem initBinlogInfo_state (h : initBinlogInfo build (some file) s = .ok (true, s')) :
    s' = ⟨indexSize build file, cStr (lastLine (text build file))⟩ := by
  unfold initBinlogInfo at h
  rw [getBinlogIndexFileName_eq hshort] at h
  split_ifs at h with hempty
  · cases h
  · exact (Prod.mk.inj (Except.ok.inj h)).2.symm

end Read

/-! ### Following the file -/

section Follow
variable (build : Build) (order : Order)

/-- **The calls give the last lines**: each call of `getBinlogIndex` returns the last line of the file as it
is then. -/
def Follows : CBinlogMonitor → List Bytes → Prop
  | _, [] => True
  | s, file :: files => ∃ s', getBinlogIndex build order (some file) s =
      .ok (lastLine (text build file), s') ∧ Follows s' files

/-- The change to `file` is noticed: the size that is kept is loaded first, and is another. -/
def Notices (size : ℕ) (file : Bytes) : Prop := order = .memberFirst ∧ indexSize build file ≠ size

instance (size : ℕ) (file : Bytes) : Decidable (Notices build order size file) := by
  unfold Notices; infer_instance

/-- Every change of the last line comes with a change of the size that is noticed, from a file with the size
`size` and the last line `name` on. -/
def ChangesNoticed : ℕ → Bytes → List Bytes → Prop
  | _, _, [] => True
  | size, name, file :: files =>
    (Notices build order size file → Readable (text build file)) ∧
    (¬ Notices build order size file → lastLine (text build file) = name) ∧
    ChangesNoticed (indexSize build file) (lastLine (text build file)) files

end Follow

section Calls
variable {build : Build} {order : Order} {s s' : CBinlogMonitor}

theorem getBinlogIndex_eq (order : Order) (file : Bytes) (s : CBinlogMonitor) :
    getBinlogIndex build order (some file) s =
      if Notices build order s.binlogIndexFileLen file then
        getBinlogIndexFileName build (some file) { s with binlogIndexFileLen := indexSize build file }
      else .ok (s.binlogIndexFileName, { s with binlogIndexFileLen := indexSize build file }) := by
  unfold getBinlogIndex getBinlogIndexSize Notices
  cases order with
  | callFirst => simp
  | memberFirst => simp [ite_not]

/-- **One call.** -/
theorem getBinlogIndex_iff {file : Bytes} (hshort : ShortLines (text build file)) :
    getBinlogIndex build order (some file) s = .ok (lastLine (text build file), s') ↔
      ((Notices build order s.binlogIndexFileLen file → Readable (text build file)) ∧
        (¬ Notices build order s.binlogIndexFileLen file →
          lastLine (text build file) = s.binlogIndexFileName)) ∧
      s' = ⟨indexSize build file, lastLine (text build file)⟩ := by
  rw [getBinlogIndex_eq]
  split_ifs with hnotices
  · rw [getBinlogIndexFileName_iff hshort]
    simp [hnotices]
  · rw [Except.ok.injEq, Prod.mk.injEq]
    constructor
    · rintro ⟨hname, rfl⟩
      exact ⟨⟨fun h => absurd h hnotices, fun _ => hname.symm⟩, by rw [hname]⟩
    · rintro ⟨⟨-, hname⟩, rfl⟩
      rw [hname hnotices]
      exact ⟨rfl, rfl⟩

theorem follows_state_iff {files : List Bytes} (hshort : ∀ file ∈ files, ShortLines (text build file)) :
    Follows build order s files ↔
      ChangesNoticed build order s.binlogIndexFileLen s.binlogIndexFileName files := by
  induction files generalizing s with
  | nil => exact Iff.rfl
  | cons file files ih =>
    have hrest (s : CBinlogMonitor) := ih (s := s) fun f hf => hshort f (List.mem_cons_of_mem file hf)
    unfold Follows ChangesNoticed
    simp only [getBinlogIndex_iff (hshort file List.mem_cons_self)]
    constructor
    · rintro ⟨s', ⟨⟨hread, hsame⟩, rfl⟩, h⟩
      exact ⟨hread, hsame, (hrest _).mp h⟩
    · rintro ⟨hread, hsame, h⟩
      exact ⟨_, ⟨⟨hread, hsame⟩, rfl⟩, (hrest _).mpr h⟩

/-- **The monitor follows the index file** exactly when every change of the last line is noticed. -/
theorem follows_iff {file : Bytes} {files : List Bytes} (hfirst : ShortLines (text build file))
    (hshort : ∀ file ∈ files, ShortLines (text build file))
    (hinit : initBinlogInfo build (some file) .new = .ok (true, s)) :
    Follows build order s files ↔
      ChangesNoticed build order (indexSize build file) (cStr (lastLine (text build file))) files := by
  rw [follows_state_iff hshort, initBinlogInfo_state hfirst hinit]

end Calls

/-- When the call is evaluated first no change is noticed, and the first name stays. -/
theorem changesNoticed_callFirst (build : Build) (size : ℕ) (name : Bytes) (files : List Bytes) :
    ChangesNoticed build .callFirst size name files ↔ ∀ file ∈ files, lastLine (text build file) = name := by
  induction files generalizing size name with
  | nil => simp [ChangesNoticed]
  | cons file files ih =>
    have hno : ¬ Notices build .callFirst size file := by simp [Notices]
    rw [ChangesNoticed, ih, List.forall_mem_cons]
    constructor
    · rintro ⟨-, hsame, hrest⟩
      exact ⟨hsame hno, fun f hf => (hrest f hf).trans (hsame hno)⟩
    · rintro ⟨hsame, hrest⟩
      exact ⟨fun h => absurd h hno, fun _ => hsame, fun f hf => (hrest f hf).trans hsame.symm⟩

theorem shortLines_of_length {bs : Bytes} (h : bs.length < 255) : ShortLines bs := by
  rintro before line behind rfl -
  simp only [List.length_append] at h
  omega

/-- An index file with the name `a.1`. -/
def oneName : Bytes := [97, 46, 49, 10]

/-- The same with the name `a.2` added. -/
def twoNames : Bytes := [97, 46, 49, 10, 97, 46, 50, 10]

/-- A file that has grown is followed when the size that is kept is loaded first. -/
theorem twoNames_followed :
    ShortLines (text .win32 oneName) ∧ (∀ file ∈ [twoNames], ShortLines (text .win32 file)) ∧
    initBinlogInfo .win32 (some oneName) .new = .ok (true, ⟨4, [97, 46, 49]⟩) ∧
    Follows .win32 .memberFirst ⟨4, [97, 46, 49]⟩ [twoNames] := by
  have hfirst : ShortLines (text .win32 oneName) := shortLines_of_length (by decide)
  have hshort : ∀ file ∈ [twoNames], ShortLines (text .win32 file) := by
    intro file hfile
    rw [List.mem_singleton.mp hfile]
    exact shortLines_of_length (by decide)
  have hinit : initBinlogInfo .win32 (some oneName) .new = .ok (true, ⟨4, [97, 46, 49]⟩) := by decide +kernel
  refine ⟨hfirst, hshort, hinit, (follows_iff hfirst hshort hinit).mpr ⟨fun _ => ?_, fun h => ?_, trivial⟩⟩
  · exact ⟨by decide, by decide⟩
  · exact absurd (by decide) h

/-- A file that is rewritten to `a.2`. -/
def otherName : Bytes := [97, 46, 50, 10]

/-- **A file rewritten to the same size** is never read again; one that has grown is not when the call is
evaluated first. -/
theorem otherName_not_followed :
    initBinlogInfo .win32 (some oneName) .new = .ok (true, ⟨4, [97, 46, 49]⟩) ∧
    (∀ order, ¬ Follows .win32 order ⟨4, [97, 46, 49]⟩ [otherName]) ∧
    ¬ Follows .win32 .callFirst ⟨4, [97, 46, 49]⟩ [twoNames] := by
  have hsame (order : Order) : getBinlogIndex .win32 order (some otherName) ⟨4, [97, 46, 49]⟩ =
      .ok ([97, 46, 49], ⟨4, [97, 46, 49]⟩) := by
    cases order <;> decide +kernel
  have hgrown : getBinlogIndex .win32 .callFirst (some twoNames) ⟨4, [97, 46, 49]⟩ =
      .ok ([97, 46, 49], ⟨8, [97, 46, 49]⟩) := by decide +kernel
  refine ⟨by decide +kernel, ?_, ?_⟩
  · rintro order ⟨s', h, -⟩
    rw [hsame order, Except.ok.injEq, Prod.mk.injEq] at h
    exact absurd h.1 (by decide)
  · rintro ⟨s', h, -⟩
    rw [hgrown, Except.ok.injEq, Prod.mk.injEq] at h
    exact absurd h.1 (by decide)

end DataSync.Binlog.BinlogMonitor
