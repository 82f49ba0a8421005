import DataSync.Lib.Loop
import DataSync.Server.SocketServer

/-! # Splitting a list of stores

A message of type 2 names its stores in one string, separated by commas. `splitStrToVector` runs over it
with two cursors of type `int`: `i` stands at the beginning of a store and `j` runs ahead to the comma or
the NUL behind it, the terminator included.

`splitStrToVector_eq_ok`: the cursors give the tokens of the string, and never pass the terminator, unless
they overflow. `splitTokens_joined`: the tokens of the stores joined are the stores. `splitsBack_iff` says
which strings leave the cursors room. -/

namespace DataSync.Server.StoreList

open DataSync.Lib.Words DataSync.Lib.Memory DataSync.Lib DataSync.Server.SocketServer

/-- `str[k]`, the terminator included; behind it is a fault. -/
def charAt (str : Bytes) (k : ℕ) : Res UInt8 := Res.ofOption (str ++ [0])[k]?

/-- `++` of an `int`: an overflow is undefined. -/
def increment (k : ℕ) : Res ℕ := if k + 1 < 2 ^ 31 then .ok (k + 1) else .error .fault

/-- What ends a store. -/
abbrev Separates (b : UInt8) : Prop := b = 44 ∨ b = 0

/-- One round of the loop over the leading blanks. -/
def blankRound (str : Bytes) (i : ℕ) : Res (ℕ ⊕ ℕ) := do
  if (← charAt str i) = 32 then return .inl (← increment i) else return .inr i

/-- The two cursors, and the stores found so far. -/
structure Cursors where
  i : ℕ
  j : ℕ
  result : List Bytes
  deriving DecidableEq, Repr

/-- One round of the loop over the stores. -/
def splitRound (str : Bytes) (s : Cursors) : Res (Cursors ⊕ List Bytes) := do
  if s.i < str.length then
    if Separates (← charAt str s.j) then
      let result := s.result ++ [(str.drop s.i).take (s.j - s.i)]
      let j ← increment s.j
      return .inl ⟨j, j, result⟩
    else return .inl { s with j := ← increment s.j }
  else return .inr s.result

/-- `splitStrToVector`, by its cursors. -/
def splitStrToVector (str : Bytes) : Res (List Bytes) := do
  let i ← Loop.run (blankRound str) (str.length + 2) 0
  Loop.run (splitRound str) (str.length + 2) ⟨i, i, []⟩

/-- The stores of a message, joined. -/
def joined (stores : List Bytes) : Bytes := [44].intercalate stores

/-- Stores that can be told apart when they are joined. -/
structure Stores (stores : List Bytes) : Prop where
  ne_nil : stores ≠ []
  clean : ∀ s ∈ stores, 44 ∉ s ∧ 0 ∉ s
  first : ∀ s ∈ stores.head?, s.head? ≠ some 32
  last : ∀ s ∈ stores.getLast?, s ≠ []

/-- **The string is split back**: the loops end, no cursor passes the terminator, and if the string is a
list of stores joined, they are what it is split into. -/
def SplitsBack (str : Bytes) : Prop :=
  ∃ result, splitStrToVector str = .ok result ∧ ∀ stores, Stores stores → joined stores = str → result = stores

/-- A string of `len` bytes ending in `rest` leaves the cursors room: they come to stand behind the
terminator, or at it when the last store has a separator of its own. -/
def Room (len : ℕ) (rest : Bytes) : Prop :=
  len + 1 < 2 ^ 31 ∨ len + 1 = 2 ^ 31 ∧ ∀ b ∈ rest.getLast?, Separates b

/-! ### Tokens -/

section Tokens
variable {cur xs : Bytes} {x : UInt8} {n : ℕ}

theorem takeWhile_clean (hcur : ∀ b ∈ cur, ¬ Separates b) :
    (cur ++ xs).takeWhile (fun b => b ≠ 44 ∧ b ≠ 0) = cur ++ xs.takeWhile fun b => b ≠ 44 ∧ b ≠ 0 :=
  List.takeWhile_append_of_pos fun b hb => decide_eq_true (not_or.mp (hcur b hb))

/-- A token is cut off at its separator. -/
theorem splitTokens_separator (hcur : ∀ b ∈ cur, ¬ Separates b) (hx : Separates x) :
    splitTokens (n + 1) (cur ++ x :: xs) = cur :: splitTokens n xs := by
  have htake : (cur ++ x :: xs).takeWhile (fun b => b ≠ 44 ∧ b ≠ 0) = cur := by
    rw [takeWhile_clean hcur, List.takeWhile_cons_of_neg, List.append_nil]
    rw [decide_eq_true_eq, not_and_or, not_not, not_not]
    exact hx
  rw [splitTokens.eq_3 _ _ (by simp), htake]
  simp

@[simp] theorem splitTokens_nil : splitTokens n [] = [] := by
  cases n <;> rfl

/-- The last token has none. -/
theorem splitTokens_last (hne : cur ≠ []) (hcur : ∀ b ∈ cur, ¬ Separates b) :
    splitTokens (n + 1) cur = [cur] := by
  have htake : cur.takeWhile (fun b => b ≠ 44 ∧ b ≠ 0) = cur := by
    rw [← List.append_nil cur, takeWhile_clean hcur]
    rfl
  rw [splitTokens.eq_3 _ _ hne, htake, List.drop_eq_nil_of_le (by omega), splitTokens_nil]

theorem joined_singleton (s : Bytes) : joined [s] = s := List.intercalate_singleton

theorem joined_cons (s t : Bytes) (stores : List Bytes) :
    joined (s :: t :: stores) = s ++ 44 :: joined (t :: stores) := by
  rw [joined, List.intercalate_cons_cons, List.append_assoc]
  rfl

/-- **The tokens of the stores joined** are the stores. -/
theorem splitTokens_joined {stores : List Bytes} (hclean : ∀ s ∈ stores, 44 ∉ s ∧ 0 ∉ s)
    (hlast : ∀ s ∈ stores.getLast?, s ≠ []) (hn : (joined stores).length ≤ n) :
    splitTokens n (joined stores) = stores := by
  induction stores generalizing n with
  | nil => exact splitTokens_nil
  | cons s stores ih =>
    have hs : ∀ b ∈ s, ¬ Separates b := by
      obtain ⟨hcomma, hnul⟩ := hclean s List.mem_cons_self
      rintro b hb (rfl | rfl)
      · exact hcomma hb
      · exact hnul hb
    cases stores with
    | nil =>
      have hne : s ≠ [] := hlast s rfl
      rw [joined_singleton] at hn ⊢
      obtain ⟨m, rfl⟩ : ∃ m, n = m + 1 := ⟨n - 1, by have := List.length_pos_iff.mpr hne; omega⟩
      exact splitTokens_last hne hs
    | cons t stores =>
      rw [joined_cons] at hn ⊢
      simp only [List.length_append, List.length_cons] at hn
      obtain ⟨m, rfl⟩ : ∃ m, n = m + 1 := ⟨n - 1, by omega⟩
      rw [splitTokens_separator hs (.inl rfl), ih (fun u hu => hclean u (List.mem_cons_of_mem _ hu)) _ (by omega)]
      intro u hu
      exact hlast u (by rwa [List.getLast?_cons_cons])

end Tokens

/-! ### The cursors -/

/-- A round that moves a cursor goes on behind it, if there is room. -/
theorem run_increment {σ ρ : Type} {step : σ → Res (σ ⊕ ρ)} {s : σ} {k fuel : ℕ} {next : ℕ → σ} {r : ρ}
    (h : step s = (increment k).map fun j => .inl (next j)) :
    Loop.run step (fuel + 1) s = .ok r ↔ k + 1 < 2 ^ 31 ∧ Loop.run step fuel (next (k + 1)) = .ok r := by
  rw [Loop.run, h]
  unfold increment
  split_ifs with hroom
  · exact (and_iff_right hroom).symm
  · exact ⟨fun hstop => (by cases hstop), fun hrun => absurd hrun.1 hroom⟩

section Cursors
variable {str front cur xs : Bytes} {result r : List Bytes} {fuel n : ℕ}

/-- The character behind `front` is the first of the rest, or the terminator. -/
theorem charAt_front (h : str = front ++ xs) : charAt str front.length = .ok (xs.headD 0) := by
  subst h
  unfold charAt
  rw [List.append_assoc, List.getElem?_append_right (Nat.le_refl _), Nat.sub_self]
  cases xs <;> rfl

/-- **The loop over the blanks** stops at the first other character, if the cursor gets so far. -/
theorem run_blankRound {i : ℕ} (hstr : str = front ++ xs) (hfuel : xs.length < fuel)
    (hin : front.length < 2 ^ 31) : Loop.run (blankRound str) fuel front.length = .ok i ↔
      i = front.length + (xs.takeWhile (· = 32)).length ∧ i < 2 ^ 31 := by
  induction xs generalizing front fuel with
  | nil =>
    obtain ⟨m, rfl⟩ : ∃ m, fuel = m + 1 := ⟨fuel - 1, by omega⟩
    have hround : blankRound str front.length = .ok (.inr front.length) := by
      rw [blankRound, charAt_front hstr]
      rfl
    rw [Loop.run, hround, Res.ok_bind, Except.ok.injEq, List.takeWhile_nil, List.length_nil]
    omega
  | cons x xs ih =>
    rw [List.length_cons] at hfuel
    obtain ⟨m, rfl⟩ : ∃ m, fuel = m + 1 := ⟨fuel - 1, by omega⟩
    by_cases hx : x = 32
    · have hround : blankRound str front.length = (increment front.length).map .inl := by
        rw [blankRound, charAt_front hstr, Res.ok_bind, List.headD_cons, if_pos hx]
        rfl
      have hlen : (front ++ [x]).length = front.length + 1 := by simp
      rw [run_increment hround, List.takeWhile_cons_of_pos (by simpa using hx), List.length_cons]
      by_cases hroom : front.length + 1 < 2 ^ 31
      · rw [← hlen, ih (by rw [hstr, List.append_assoc, List.singleton_append]) (by omega) (by omega)]
        omega
      · omega
    · have hround : blankRound str front.length = .ok (.inr front.length) := by
        rw [blankRound, charAt_front hstr, Res.ok_bind, List.headD_cons, if_neg hx]
        rfl
      rw [Loop.run, hround, Res.ok_bind, Except.ok.injEq, List.takeWhile_cons_of_neg (by simpa using hx),
        List.length_nil]
      omega

/-- **One round** of the loop over the stores, `i` behind `front` and `j` behind `cur`: a separator ends the
store `cur`. -/
theorem splitRound_at (hstr : str = front ++ (cur ++ xs)) (hne : cur ++ xs ≠ []) :
    splitRound str ⟨front.length, (front ++ cur).length, result⟩ =
      (increment (front ++ cur).length).map fun j =>
        .inl (if Separates (xs.headD 0) then ⟨j, j, result ++ [cur]⟩ else ⟨front.length, j, result⟩) := by
  have hin : front.length < str.length := by
    have := List.length_pos_iff.mpr hne
    rw [hstr, List.length_append]
    omega
  have hchar : charAt str (front ++ cur).length = .ok (xs.headD 0) :=
    charAt_front (by rw [hstr, List.append_assoc])
  have hcut : (str.drop front.length).take ((front ++ cur).length - front.length) = cur := by
    rw [hstr, List.drop_left, List.length_append, Nat.add_sub_cancel_left, List.take_left]
  unfold splitRound
  dsimp only
  rw [if_pos hin, hchar, Res.ok_bind, hcut]
  split_ifs <;> rfl

theorem splitRound_end (j : ℕ) : splitRound str ⟨str.length, j, result⟩ = .ok (.inr result) := by
  unfold splitRound
  exact if_neg (Nat.lt_irrefl _)

/-- A string leaves as much room as what stands behind one of its separators. -/
theorem room_separator {len : ℕ} {x : UInt8} (hx : Separates x) : Room len (cur ++ x :: xs) ↔ Room len xs := by
  unfold Room
  cases xs with
  | nil => simp [hx]
  | cons y ys => simp

/-- A last store without a separator needs room for the cursor behind the terminator. -/
theorem room_last {len : ℕ} (hne : cur ≠ []) (hcur : ∀ b ∈ cur, ¬ Separates b) :
    Room len cur ↔ len + 1 < 2 ^ 31 := by
  unfold Room
  refine or_iff_left fun h => ?_
  have hlast := List.getLast?_eq_some_getLast hne
  exact hcur _ (List.getLast_mem hne) (h.2 _ hlast)

theorem Room.lt {len : ℕ} (h : Room len xs) : len < 2 ^ 31 := by
  rcases h with h | ⟨h, -⟩ <;> omega

/-- **The loop over the stores** finds the tokens of the rest, if there is room for its cursors. -/
theorem run_splitRound (hstr : str = front ++ (cur ++ xs)) (hcur : ∀ b ∈ cur, ¬ Separates b)
    (hfuel : xs.length + 2 ≤ fuel) (hn : (cur ++ xs).length ≤ n) (hin : (front ++ cur).length < 2 ^ 31) :
    Loop.run (splitRound str) fuel ⟨front.length, (front ++ cur).length, result⟩ = .ok r ↔
      Room str.length (cur ++ xs) ∧ r = result ++ splitTokens n (cur ++ xs) := by
  induction xs generalizing front cur result fuel n with
  | nil =>
    rw [List.append_nil] at hstr hn ⊢
    obtain ⟨m, rfl⟩ : ∃ m, fuel = m + 2 := ⟨fuel - 2, by omega⟩
    by_cases hne : cur = []
    · -- the string has ended behind a separator, or in its blanks
      subst hne
      rw [List.append_nil] at hstr hin ⊢
      subst hstr
      have hroom : Room str.length [] := by
        unfold Room
        simp
        omega
      rw [Loop.run, splitRound_end, Res.ok_bind, Except.ok.injEq, splitTokens_nil, List.append_nil]
      exact ⟨fun h => ⟨hroom, h.symm⟩, fun h => h.2.symm⟩
    · have hlen : (front ++ cur).length = str.length := by rw [hstr]
      obtain ⟨l, rfl⟩ : ∃ l, n = l + 1 := ⟨n - 1, by have := List.length_pos_iff.mpr hne; omega⟩
      rw [run_increment (splitRound_at (by rw [hstr, List.append_nil]) (by simpa using hne)),
        if_pos (show Separates ([].headD 0) from .inr rfl), room_last hne hcur, splitTokens_last hne hcur, hlen]
      have hleave : splitRound str ⟨str.length + 1, str.length + 1, result ++ [cur]⟩ =
          .ok (.inr (result ++ [cur])) := by
        unfold splitRound
        exact if_neg (by simp)
      rw [Loop.run, hleave, Res.ok_bind, Except.ok.injEq]
      exact and_congr_right fun _ => eq_comm
  | cons x xs ih =>
    obtain ⟨m, rfl⟩ : ∃ m, fuel = m + 1 := ⟨fuel - 1, by omega⟩
    have hfuel' : xs.length + 2 ≤ m := by
      rw [List.length_cons] at hfuel
      omega
    rw [run_increment (splitRound_at hstr (by simp)), List.headD_cons]
    have hlen : str.length = (front ++ cur).length + 1 + xs.length := by
      rw [hstr]
      simp only [List.length_append, List.length_cons]
      omega
    by_cases hroom : (front ++ cur).length + 1 < 2 ^ 31
    swap
    · refine ⟨fun h => absurd h.1 hroom, fun h => absurd h.1.lt ?_⟩
      omega
    rw [and_iff_right hroom]
    have hnext : (front ++ (cur ++ [x])).length = (front ++ cur).length + 1 := by simp [Nat.add_assoc]
    by_cases hx : Separates x
    · -- the next store begins behind `x`
      obtain ⟨l, rfl⟩ : ∃ l, n = l + 1 := by
        simp only [List.length_append, List.length_cons] at hn
        exact ⟨n - 1, by omega⟩
      have hrest : Loop.run (splitRound str) m ⟨(front ++ (cur ++ [x])).length,
          (front ++ (cur ++ [x]) ++ []).length, result ++ [cur]⟩ = .ok r ↔
          Room str.length ([] ++ xs) ∧ r = result ++ [cur] ++ splitTokens l ([] ++ xs) := by
        refine ih (by rw [hstr]; simp) (by simp) hfuel' ?_ (by rwa [List.append_nil, hnext])
        simp only [List.nil_append, List.length_append, List.length_cons] at hn ⊢
        omega
      rw [List.append_nil, hnext, List.nil_append, List.append_assoc] at hrest
      rw [if_pos hx, room_separator hx, splitTokens_separator hcur hx]
      exact hrest
    · have hcur' : ∀ b ∈ cur ++ [x], ¬ Separates b := by
        intro b hb
        rcases List.mem_append.mp hb with hb | hb
        · exact hcur b hb
        · rwa [List.mem_singleton.mp hb]
      have happ : cur ++ x :: xs = (cur ++ [x]) ++ xs := by simp
      rw [if_neg hx, happ, ← hnext]
      rw [happ] at hstr hn
      exact ih hstr hcur' hfuel' hn (by rwa [hnext])

end Cursors

/-! ### The whole string -/

/-- **The cursors give the tokens**, when there is room for them; else they overflow. -/
theorem splitStrToVector_eq_ok {str : Bytes} {r : List Bytes} : splitStrToVector str = .ok r ↔
    Room str.length (str.dropWhile (· = 32)) ∧ r = SocketServer.splitStrToVector str := by
  have hsplit : str = str.takeWhile (· = 32) ++ ([] ++ str.dropWhile (· = 32)) := by
    rw [List.nil_append, List.takeWhile_append_dropWhile]
  have hlen : str.length = (str.takeWhile (· = 32)).length + (str.dropWhile (· = 32)).length := by
    rw [← List.length_append, List.takeWhile_append_dropWhile]
  have hblank (i : ℕ) : Loop.run (blankRound str) (str.length + 2) 0 = .ok i ↔
      i = (str.takeWhile (· = 32)).length ∧ i < 2 ^ 31 := by
    have h := @run_blankRound str [] str (str.length + 2) i rfl (by omega) (by norm_num)
    rwa [List.length_nil, Nat.zero_add] at h
  have hstores (hin : (str.takeWhile (· = 32)).length < 2 ^ 31) :
      Loop.run (splitRound str) (str.length + 2)
        ⟨(str.takeWhile (· = 32)).length, (str.takeWhile (· = 32)).length, []⟩ = .ok r ↔
      Room str.length (str.dropWhile (· = 32)) ∧ r = SocketServer.splitStrToVector str := by
    have h := @run_splitRound str _ [] _ [] r (str.length + 2) str.length hsplit (by simp)
      (by omega) (by rw [List.nil_append]; omega) (by rwa [List.append_nil])
    rwa [List.append_nil] at h
  unfold splitStrToVector
  rw [Res.bind_eq_ok]
  constructor
  · rintro ⟨i, hi, h⟩
    obtain ⟨rfl, hin⟩ := (hblank i).mp hi
    exact (hstores hin).mp h
  · rintro ⟨hroom, hr⟩
    have hin : (str.takeWhile (· = 32)).length < 2 ^ 31 := by
      have := hroom.lt
      omega
    exact ⟨_, (hblank _).mpr ⟨rfl, hin⟩, (hstores hin).mpr ⟨hroom, hr⟩⟩

/-- Stores joined do not begin with a blank. -/
theorem dropWhile_joined {stores : List Bytes} (h : Stores stores) :
    (joined stores).dropWhile (· = 32) = joined stores := by
  obtain ⟨s, rest, rfl⟩ := List.exists_cons_of_ne_nil h.ne_nil
  cases s with
  | nil =>
    -- a first store without characters is followed by a comma
    cases rest with
    | nil => exact absurd rfl (h.last [] rfl)
    | cons t rest =>
      rw [joined_cons]
      exact List.dropWhile_cons_of_neg (by decide)
  | cons b s =>
    have hb : b ≠ 32 := fun hb => h.first (b :: s) rfl (congrArg some hb)
    have hhead : ∃ behind, joined ((b :: s) :: rest) = b :: behind := by
      cases rest with
      | nil => exact ⟨s, joined_singleton _⟩
      | cons t rest => exact ⟨_, joined_cons _ _ _⟩
    obtain ⟨behind, hbehind⟩ := hhead
    rw [hbehind]
    exact List.dropWhile_cons_of_neg (by simpa using hb)

/-- The stores joined are split into the stores. -/
theorem splitStrToVector_joined {stores : List Bytes} (h : Stores stores) :
    SocketServer.splitStrToVector (joined stores) = stores := by
  rw [SocketServer.splitStrToVector, dropWhile_joined h]
  exact splitTokens_joined h.clean h.last (Nat.le_refl _)

/-- **A string is split back exactly when** its cursors have room. -/
theorem splitsBack_iff (str : Bytes) :
    SplitsBack str ↔ Room str.length (str.dropWhile (· = 32)) := by
  constructor
  · rintro ⟨result, hresult, -⟩
    exact (splitStrToVector_eq_ok.mp hresult).1
  · intro hroom
    refine ⟨_, splitStrToVector_eq_ok.mpr ⟨hroom, rfl⟩, ?_⟩
    rintro stores hstores rfl
    exact splitStrToVector_joined hstores

/-- A leading blank, two commas in a row and one at the end. -/
example : splitStrToVector [32, 49, 44, 44, 50, 44] = .ok [[49], [], [50]] := by decide

/-- A store of two GiB: the cursor that runs ahead overflows. -/
theorem longStore_overflows : ¬ ∀ str, SplitsBack str := by
  intro h
  obtain ⟨result, hresult, -⟩ := h (List.replicate (2 ^ 31) 97)
  have hlt := (splitStrToVector_eq_ok.mp hresult).1.lt
  rw [List.length_replicate] at hlt
  omega

end DataSync.Server.StoreList
