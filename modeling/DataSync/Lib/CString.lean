import DataSync.Lib.Loop
import Mathlib.Data.List.DropRight

/-! # Strings in a buffer

A buffer, and pointers into it as indices. `Holds szBuffer k text`: the C string at index `k` is `text`, and
its NUL is in the buffer. `forward` is the loop that moves a pointer on while its character has a property,
`trim` the loop that moves it back over characters it may overwrite. `fgets` takes a line, or a part of one, from
the bytes of a file.

`Holds.forward` and `Holds.trim`: in a buffer that holds a string neither leaves the string, and they stop
where `takeWhile` and `rdropWhile` do. -/

namespace DataSync.Lib.CString

open DataSync.Lib.Words DataSync.Lib.Memory

/-- `*p` of a pointer into the buffer. -/
def charAt (szBuffer : Bytes) (k : ℕ) : Res UInt8 := Res.ofOption szBuffer[k]?

/-- `*p = '\0'`. -/
def putNul (szBuffer : Bytes) (k : ℕ) : Res Bytes :=
  if k < szBuffer.length then .ok (szBuffer.set k 0) else .error .fault

/-- The C string at a pointer. -/
def strAt (szBuffer : Bytes) (k : ℕ) : Res Bytes :=
  if (szBuffer.drop k).contains 0 then .ok (cStr (szBuffer.drop k)) else .error .fault

/-- A round of `forward`. -/
def forwardRound (p : UInt8 → Bool) (szBuffer : Bytes) (k : ℕ) : Res (ℕ ⊕ ℕ) := do
  if p (← charAt szBuffer k) then return .inl (k + 1)
  return .inr k

/-- `while(…) p++`. -/
def forward (p : UInt8 → Bool) (szBuffer : Bytes) (k : ℕ) : Res ℕ :=
  Loop.run (forwardRound p szBuffer) (szBuffer.length + 1) k

/-- A round of `trim`. -/
def trimRound (p : UInt8 → Bool) (f : Bytes → ℕ → Res Bytes) (s : Bytes × ℕ) :
    Res ((Bytes × ℕ) ⊕ (Bytes × ℕ)) :=
  if s.2 = 0 then .error .fault
  else do
    if p (← charAt s.1 (s.2 - 1)) then return .inl (← f s.1 (s.2 - 1), s.2 - 1)
    return .inr s

/-- `while(…) { … p--; }` over the characters in front of the pointer, with `f` for what it does to the
buffer at each of them. -/
def trim (p : UInt8 → Bool) (f : Bytes → ℕ → Res Bytes) (szBuffer : Bytes) (k : ℕ) : Res (Bytes × ℕ) :=
  Loop.run (trimRound p f) (k + 1) (szBuffer, k)

/-- The C string at `k` is `text`. -/
def Holds (szBuffer : Bytes) (k : ℕ) (text : Bytes) : Prop :=
  0 ∉ text ∧ ∃ rest, szBuffer.drop k = text ++ 0 :: rest

section Holds
variable {szBuffer : Bytes} {k n : ℕ} {text : Bytes}

/-- Further on in the string. -/
theorem Holds.drop (h : Holds szBuffer k text) (hn : n ≤ text.length) :
    Holds szBuffer (k + n) (text.drop n) := by
  obtain ⟨hnul, rest, hrest⟩ := h
  refine ⟨fun hmem => hnul (List.mem_of_mem_drop hmem), rest, ?_⟩
  rw [← List.drop_drop, hrest, List.drop_append_of_le_length hn]

theorem Holds.charAt (h : Holds szBuffer k text) : charAt szBuffer k = .ok (text.headD 0) := by
  obtain ⟨-, rest, hrest⟩ := h
  have hk : szBuffer[k]? = some (text.headD 0) := by
    rw [← List.head?_drop, hrest]
    cases text <;> rfl
  rw [CString.charAt, hk, Res.ofOption_some]

theorem Holds.charAt_add (h : Holds szBuffer k text) (hn : n ≤ text.length) :
    CString.charAt szBuffer (k + n) = .ok ((text.drop n).headD 0) := (h.drop hn).charAt

theorem Holds.lt (h : Holds szBuffer k text) : k + text.length < szBuffer.length := by
  obtain ⟨-, rest, hrest⟩ := h
  have := congrArg List.length hrest
  simp only [List.length_drop, List.length_append, List.length_cons] at this
  omega

theorem Holds.strAt (h : Holds szBuffer k text) : strAt szBuffer k = .ok text := by
  obtain ⟨hnul, rest, hrest⟩ := h
  rw [CString.strAt, hrest, if_pos (by simp), cStr_append_nul hnul]

/-- What `fgets` has put into the buffer. -/
theorem holds_cStr (line rest : Bytes) : Holds (line ++ 0 :: rest) 0 (cStr line) := by
  induction line with
  | nil => exact ⟨by simp [cStr], rest, rfl⟩
  | cons b line ih =>
    by_cases hb : b = 0
    · subst hb
      exact ⟨by simp [cStr], line ++ 0 :: rest, rfl⟩
    · obtain ⟨hnul, rest', hrest⟩ := ih
      have hcStr : cStr (b :: line) = b :: cStr line := by simp [cStr, hb]
      rw [hcStr]
      refine ⟨by simpa [hnul] using Ne.symm hb, rest', ?_⟩
      rw [List.drop_zero] at hrest ⊢
      rw [List.cons_append, hrest, List.cons_append]

/-! ### The loops -/

variable {p : UInt8 → Bool}

theorem Holds.dropWhile (h : Holds szBuffer k text) :
    Holds szBuffer (k + (text.takeWhile p).length) (text.dropWhile p) := by
  have hdrop := h.drop (List.takeWhile_prefix p).length_le
  have htext := List.takeWhile_append_dropWhile (p := p) (l := text)
  rwa [← congrArg (List.drop (text.takeWhile p).length) htext, List.drop_left] at hdrop

theorem Holds.reaches (h : Holds szBuffer k text) :
    Loop.Reaches (forwardRound p szBuffer) (text.takeWhile p).length k (k + (text.takeWhile p).length) := by
  induction text generalizing k with
  | nil => exact .refl k
  | cons c text ih =>
    by_cases hc : p c
    · have hround : forwardRound p szBuffer k = .ok (.inl (k + 1)) := by
        rw [forwardRound, h.charAt, Res.ok_bind, List.headD_cons, if_pos hc]
        rfl
      have hrest := ih (h.drop (n := 1) (by simp))
      rw [List.takeWhile_cons_of_pos hc, List.length_cons]
      rw [Nat.add_assoc, Nat.add_comm 1] at hrest
      exact .head hround hrest
    · rw [List.takeWhile_cons_of_neg hc]
      exact .refl k

/-- **A pointer that moves on** over a string stops in it. -/
theorem Holds.forward (h : Holds szBuffer k text) (hp : p 0 = false) :
    forward p szBuffer k = .ok (k + (text.takeWhile p).length) := by
  have hlt := h.lt
  have hle := (List.takeWhile_prefix (l := text) p).length_le
  refine Loop.run_leaves h.reaches ?_ (by omega)
  have hend : p ((text.dropWhile p).headD 0) = false := by
    cases hrest : text.dropWhile p with
    | nil => exact hp
    | cons c rest => simpa [hrest] using List.head_dropWhile_not (p := p) (l := text) (by simp [hrest])
  rw [forwardRound, h.dropWhile.charAt, Res.ok_bind, hend]
  rfl

/-- A pointer that moves back, with what is known of the string in front of it. -/
theorem trim_of {f : Bytes → ℕ → Res Bytes} {P : Bytes → Bytes → Prop}
    (hchar : ∀ buf a c, P buf (a ++ [c]) → charAt buf (k + a.length) = .ok c)
    (hf : ∀ buf a c, P buf (a ++ [c]) → ∃ buf', f buf (k + a.length) = .ok buf' ∧ P buf' a)
    (h : P szBuffer text) (hne : text.rdropWhile p ≠ []) :
    ∃ buf', trim p f szBuffer (k + text.length) = .ok (buf', k + (text.rdropWhile p).length) ∧
      P buf' (text.rdropWhile p) := by
  suffices hrun : ∀ fuel > text.length, ∃ buf', Loop.run (trimRound p f) fuel (szBuffer, k + text.length) =
      .ok (buf', k + (text.rdropWhile p).length) ∧ P buf' (text.rdropWhile p) from hrun _ (by omega)
  induction text using List.reverseRecOn generalizing szBuffer with
  | nil => exact absurd (List.rdropWhile_nil p) hne
  | append_singleton text c ih =>
    intro fuel hfuel
    rw [List.length_append, List.length_singleton] at hfuel
    obtain ⟨fuel, rfl⟩ : ∃ m, fuel = m + 1 := ⟨fuel - 1, by omega⟩
    have hindex : k + (text ++ [c]).length - 1 = k + text.length := by simp
    have hpos : ¬ k + (text ++ [c]).length = 0 := by simp
    rw [Loop.run, trimRound, if_neg hpos, hindex, hchar szBuffer text c h, Res.ok_bind]
    by_cases hc : p c
    · obtain ⟨buf', hbuf', hP⟩ := hf szBuffer text c h
      rw [List.rdropWhile_concat_pos p _ _ hc] at hne ⊢
      obtain ⟨buf, hrun, hbuf⟩ := ih hP hne fuel (by omega)
      refine ⟨buf, ?_, hbuf⟩
      rw [if_pos hc, hbuf']
      exact hrun
    · rw [List.rdropWhile_concat_neg p _ _ hc, if_neg hc]
      exact ⟨szBuffer, rfl, h⟩

theorem Holds.charAt_concat {behind : Bytes} {c : UInt8} (h : Holds szBuffer k (text ++ [c] ++ behind)) :
    CString.charAt szBuffer (k + text.length) = .ok c := by
  rw [h.charAt_add (by simp), List.append_assoc, List.drop_left]
  rfl

/-- Moving back from a place in a string. -/
theorem Holds.backward {behind : Bytes} (h : Holds szBuffer k (text ++ behind))
    (hne : text.rdropWhile p ≠ []) :
    trim p (fun szBuffer _ => .ok szBuffer) szBuffer (k + text.length) =
      .ok (szBuffer, k + (text.rdropWhile p).length) := by
  let P : Bytes → Bytes → Prop := fun buf a => buf = szBuffer ∧ ∃ behind, Holds szBuffer k (a ++ behind)
  have hchar : ∀ buf a c, P buf (a ++ [c]) → CString.charAt buf (k + a.length) = .ok c := by
    rintro buf a c ⟨rfl, behind, hc⟩
    exact hc.charAt_concat
  have hkeep : ∀ buf a c, P buf (a ++ [c]) → ∃ buf', (.ok buf : Res Bytes) = .ok buf' ∧ P buf' a := by
    rintro buf a c ⟨rfl, behind, hc⟩
    exact ⟨buf, rfl, rfl, c :: behind, by simpa using hc⟩
  obtain ⟨buf', hrun, rfl, -⟩ :=
    trim_of (f := fun szBuffer _ => .ok szBuffer) hchar hkeep ⟨rfl, behind, h⟩ hne
  exact hrun

/-! ### Ending a string -/

/-- **A NUL in a string** ends it there. What is behind the NUL stays. -/
theorem Holds.putNul (h : Holds szBuffer k text) (hn : n ≤ text.length) :
    ∃ buf, putNul szBuffer (k + n) = .ok buf ∧ Holds buf k (text.take n) ∧ buf.length = szBuffer.length ∧
      ∀ j, k + n < j → buf.drop j = szBuffer.drop j := by
  have hlt := h.lt
  refine ⟨szBuffer.set (k + n) 0, if_pos (by omega), ⟨fun hmem => h.1 (List.mem_of_mem_take hmem), ?_⟩,
    List.length_set, fun j hj => List.drop_set_of_lt hj⟩
  obtain ⟨hnul, rest, hrest⟩ := h
  refine ⟨(text ++ 0 :: rest).drop (n + 1), ?_⟩
  rw [List.drop_set, if_neg (by omega), Nat.add_sub_cancel_left, hrest, List.set_eq_take_append_cons_drop,
    if_pos (by simp; omega), List.take_append_of_le_length hn]

/-- Moving back to the end of what is kept, with a NUL for every character that is not. -/
theorem Holds.trim (h : Holds szBuffer k text) (hne : text.rdropWhile p ≠ []) :
    ∃ buf, CString.trim p CString.putNul szBuffer (k + text.length) = .ok (buf, k + (text.rdropWhile p).length) ∧
      Holds buf k (text.rdropWhile p) ∧ buf.length = szBuffer.length ∧
      ∀ j, k + text.length < j → buf.drop j = szBuffer.drop j := by
  let P : Bytes → Bytes → Prop := fun buf a => Holds buf k a ∧ buf.length = szBuffer.length ∧
    a.length ≤ text.length ∧ ∀ j, k + text.length < j → buf.drop j = szBuffer.drop j
  have hput : ∀ buf a c, P buf (a ++ [c]) → ∃ buf', CString.putNul buf (k + a.length) = .ok buf' ∧ P buf' a := by
    rintro buf a c ⟨hc, hlength, hle, hdrop⟩
    rw [List.length_append, List.length_singleton] at hle
    obtain ⟨buf', hput, ha, hlength', hdrop'⟩ := hc.putNul (n := a.length) (by simp)
    rw [List.take_left] at ha
    exact ⟨buf', hput, ha, hlength'.trans hlength, by omega,
      fun j hj => (hdrop' j (by omega)).trans (hdrop j hj)⟩
  obtain ⟨buf, hrun, hbuf, hlength, -, hdrop⟩ := trim_of (k := k) (p := p) (P := P)
    (fun buf a c hP => Holds.charAt_concat ((List.append_nil (a ++ [c])).symm ▸ hP.1)) hput
    ⟨h, rfl, le_rfl, fun _ _ => rfl⟩ hne
  exact ⟨buf, hrun, hbuf, hlength, hdrop⟩

/-- What stays behind a change. -/
theorem Holds.of_drop_eq {buf : Bytes} (h : Holds szBuffer k text) (hdrop : buf.drop k = szBuffer.drop k) :
    Holds buf k text := ⟨h.1, hdrop ▸ h.2⟩

end Holds

/-! ### Lines of a file -/

/-- `fgets` of at most `n` bytes, and what is left. -/
def fgets : ℕ → Bytes → Bytes × Bytes
  | 0, rest => ([], rest)
  | _ + 1, [] => ([], [])
  | n + 1, b :: rest => if b = 10 then ([b], rest) else (b :: (fgets n rest).1, (fgets n rest).2)

theorem fgets_split (n : ℕ) (file : Bytes) : (fgets n file).1 ++ (fgets n file).2 = file := by
  induction n generalizing file with
  | zero => rfl
  | succ n ih =>
    obtain _ | ⟨b, file⟩ := file
    · rfl
    · rw [fgets]
      split_ifs
      · rfl
      · rw [List.cons_append, ih]

theorem length_fgets_le (n : ℕ) (file : Bytes) : (fgets n file).1.length ≤ n := by
  induction n generalizing file with
  | zero => exact Nat.zero_le _
  | succ n ih =>
    obtain _ | ⟨b, file⟩ := file
    · exact Nat.zero_le _
    · rw [fgets]
      split_ifs
      · simp
      · simpa using ih file

theorem fgets_shorter {n : ℕ} (hn : 0 < n) {file : Bytes} (h : file ≠ []) :
    (fgets n file).2.length < file.length := by
  obtain ⟨b, file, rfl⟩ := List.exists_cons_of_ne_nil h
  obtain ⟨n, rfl⟩ := Nat.exists_eq_add_one.mpr hn
  rw [fgets]
  split_ifs
  · simp
  · have hsplit := congrArg List.length (fgets_split n file)
    rw [List.length_append] at hsplit
    simp only [List.length_cons]
    omega

/-- The bytes in front of a newline are taken one by one. -/
theorem fgets_append {line : Bytes} (h : 10 ∉ line) (rest : Bytes) (n : ℕ) :
    fgets (line.length + n) (line ++ rest) = (line ++ (fgets n rest).1, (fgets n rest).2) := by
  induction line with
  | nil => rw [List.length_nil, Nat.zero_add, List.nil_append, List.nil_append]
  | cons b line ih =>
    have hb : b ≠ 10 := fun hb => h (hb ▸ List.mem_cons_self)
    have hrest := ih fun hmem => h (List.mem_cons_of_mem b hmem)
    rw [List.length_cons, Nat.add_right_comm, List.cons_append, fgets, if_neg hb, hrest, List.cons_append]

theorem fgets_line {line : Bytes} (h : 10 ∉ line) (rest : Bytes) {n : ℕ} (hn : line.length < n) :
    fgets n (line ++ [10] ++ rest) = (line ++ [10], rest) := by
  obtain ⟨k, rfl⟩ := Nat.exists_eq_add_of_lt hn
  rw [List.append_assoc, Nat.add_assoc, fgets_append h]
  rfl

theorem fgets_end {line : Bytes} (h : 10 ∉ line) {n : ℕ} (hn : line.length < n) :
    fgets n line = (line, []) := by
  obtain ⟨k, rfl⟩ := Nat.exists_eq_add_of_lt hn
  have htaken := fgets_append h [] (k + 1)
  rw [List.append_nil, ← Nat.add_assoc] at htaken
  rw [htaken, fgets, List.append_nil]

end DataSync.Lib.CString
