import DataSync.Lib.Words

/-! # Reading through pointers

A pointer `Ptr` is an address together with the bytes from it to the end of the buffer it points
into. Every read is bounds checked: a read outside the buffer is a `Stop.fault`, the model's name for
undefined behaviour. A loop that never ends is a `Stop.hang`. Computations that may stop are in `Res`.

`bytes_append` is the rule the round trips use: behind a prefix of known length, a read sees the bytes
that follow the prefix. -/

namespace DataSync.Lib.Memory

open DataSync.Lib.Words

/-- Why a computation has no result. -/
inductive Stop where
  /-- Undefined behaviour: a read outside a buffer, a null pointer, an indeterminate value. -/
  | fault
  /-- A loop that never ends. -/
  | hang
  deriving DecidableEq, Repr

/-- The result of a computation that may stop. -/
abbrev Res (α : Type) := Except Stop α

namespace Res

variable {α β : Type}

-- not stated by `rfl`, so that `simp` rewrites with it and the kernel never has to run what follows
@[simp] theorem ok_bind (a : α) (f : α → Res β) : (Except.ok a >>= f : Res β) = f a :=
  (Eq.refl (f a)).trans rfl

@[simp] theorem error_bind (e : Stop) (f : α → Res β) :
    ((Except.error e : Res α) >>= f) = Except.error e := rfl

@[simp] theorem pure_eq (a : α) : (pure a : Res α) = Except.ok a := rfl

theorem bind_eq_ok {x : Res α} {f : α → Res β} {b : β} :
    (x >>= f) = Except.ok b ↔ ∃ a, x = Except.ok a ∧ f a = Except.ok b := by
  cases x with
  | error e => simp
  | ok a => simp

@[simp] theorem map_ok (f : α → β) (a : α) : (f <$> (Except.ok a : Res α)) = Except.ok (f a) := rfl

/-- What is known of a part of the result is known of a result. -/
theorem map_eq_ok {f : α → β} {x : Res α} {b : β} :
    x.map f = .ok b ↔ ∃ a, x = .ok a ∧ f a = b := by
  cases x with
  | error e => simp [Except.map]
  | ok a => simp [Except.map]

theorem exists_ok {x : Res α} (h : x.toBool = true) : ∃ a, x = .ok a := by
  cases x with
  | error e => cases h
  | ok a => exact ⟨a, rfl⟩

theorem exists_bind {x : Res α} {f : α → Res β} (hx : ∃ a, x = .ok a) (hf : ∀ a, ∃ b, f a = .ok b) :
    ∃ b, (x >>= f) = .ok b := by
  obtain ⟨a, rfl⟩ := hx
  rw [ok_bind]
  exact hf a

/-- What a computation gives is what is known of it. -/
theorem exists_eq_ok_and {x : Res α} {a : α} (hx : x = .ok a) {P : α → Prop} :
    (∃ b, x = .ok b ∧ P b) ↔ P a := by
  subst hx
  simp

/-- A computation in two parts has a result when both have. -/
theorem exists_bind_iff {x : Res α} {f : α → Res β} :
    (∃ b, (x >>= f) = .ok b) ↔ ∃ a, x = .ok a ∧ ∃ b, f a = .ok b := by
  cases x with
  | error e => simp
  | ok a => simp

theorem exists_bind_pure_iff {x : Res α} {f : α → β} :
    (∃ b, (x >>= fun a => pure (f a)) = .ok b) ↔ ∃ a, x = .ok a := by
  cases x with
  | error e => simp
  | ok a => simp

/-- A value that must be there: an absent one is a fault. -/
def ofOption : Option α → Res α
  | some a => .ok a
  | none => .error .fault

@[simp] theorem ofOption_some (a : α) : ofOption (some a) = .ok a := rfl

@[simp] theorem ofOption_none : ofOption (none : Option α) = .error .fault := rfl

theorem ofOption_eq_ok {o : Option α} {a : α} : ofOption o = .ok a ↔ o = some a := by
  cases o <;> simp

/-- A list of computations that all have a result. -/
theorem mapM_eq_ok {f : α → Res β} {xs : List α} {ys : List β} (h : xs.mapM f = .ok ys) :
    List.Forall₂ (fun x y => f x = .ok y) xs ys := by
  induction xs generalizing ys with
  | nil =>
    obtain rfl := Except.ok.inj h
    exact List.Forall₂.nil
  | cons x xs ih =>
    rw [List.mapM_cons] at h
    obtain ⟨y, hy, h⟩ := bind_eq_ok.mp h
    obtain ⟨ys', hys, h⟩ := bind_eq_ok.mp h
    obtain rfl := Except.ok.inj h
    exact List.Forall₂.cons hy (ih hys)

theorem mapM_ok {f : α → Res β} {g : α → β} {xs : List α} (h : ∀ x ∈ xs, f x = .ok (g x)) :
    xs.mapM f = .ok (xs.map g) := by
  induction xs with
  | nil => rfl
  | cons x xs ih =>
    rw [List.mapM_cons, h x (by simp), ok_bind, ih fun y hy => h y (by simp [hy])]
    rfl

/-- **An invariant of a loop over a list**, which knows the items the loop has behind it. -/
theorem foldlM_invariant {f : β → α → Res β} {P : List α → β → Prop} {xs : List α} {b b' : β}
    (hrun : xs.foldlM f b = .ok b') (h : P [] b)
    (hstep : ∀ pre x b b', x ∈ xs → P pre b → f b x = .ok b' → P (pre ++ [x]) b') : P xs b' := by
  suffices hall : ∀ pre ys b, (∀ y ∈ ys, y ∈ xs) → P pre b → ys.foldlM f b = .ok b' → P (pre ++ ys) b' from
    hall [] xs b (fun _ hy => hy) h hrun
  intro pre ys
  induction ys generalizing pre with
  | nil =>
    intro b _ hb hys
    obtain rfl := Except.ok.inj hys
    rwa [List.append_nil]
  | cons y ys ih =>
    intro b hmem hb hys
    rw [List.foldlM_cons] at hys
    obtain ⟨c, hc, hys⟩ := bind_eq_ok.mp hys
    have hrest := ih (pre ++ [y]) c (fun z hz => hmem z (List.mem_cons_of_mem y hz))
      (hstep pre y b c (hmem y List.mem_cons_self) hb hc) hys
    rwa [List.append_assoc, List.singleton_append] at hrest

/-- A loop over the indices of a list is a loop over the list. -/
theorem foldlM_range_getElem? (f : β → α → Res β) (xs : List α) (b : β) :
    (List.range xs.length).foldlM (fun b i => ofOption xs[i]? >>= f b) b = xs.foldlM f b := by
  suffices h : ∀ (pre ys : List α) (b : β), (List.range' pre.length ys.length).foldlM
      (fun b i => ofOption (pre ++ ys)[i]? >>= f b) b = ys.foldlM f b by
    simpa [List.range_eq_range'] using h [] xs b
  intro pre ys
  induction ys generalizing pre with
  | nil => exact fun _ => rfl
  | cons y ys ih =>
    intro b
    have hy : (pre ++ y :: ys)[pre.length]? = some y := by simp
    rw [List.length_cons, List.range'_succ, List.foldlM_cons, List.foldlM_cons, hy, ofOption_some, ok_bind]
    cases f b y with
    | error e => rfl
    | ok c =>
      rw [ok_bind, ok_bind]
      simpa using ih (pre ++ [y]) c

/-! ### Computations without a fault -/

/-- No undefined behaviour: there is a result, or a loop that never ends. -/
def Safe (x : Res α) : Prop := x ≠ .error .fault

@[simp] theorem safe_ok (a : α) : Safe (.ok a : Res α) := by simp [Safe]

@[simp] theorem safe_hang : Safe (.error .hang : Res α) := by simp [Safe]

@[simp] theorem not_safe_fault : ¬ Safe (.error .fault : Res α) := by simp [Safe]

theorem safe_bind_iff {x : Res α} {f : α → Res β} :
    Safe (x >>= f) ↔ Safe x ∧ ∀ a, x = .ok a → Safe (f a) := by
  cases x with
  | error e => cases e <;> simp [Safe]
  | ok a => simp

/-- The computation ends, be it with undefined behaviour. -/
def Ends (x : Res α) : Prop := x ≠ .error .hang

@[simp] theorem ends_ok (a : α) : Ends (.ok a : Res α) := by simp [Ends]

@[simp] theorem ends_pure (a : α) : Ends (pure a : Res α) := ends_ok a

@[simp] theorem ends_fault : Ends (.error .fault : Res α) := by simp [Ends]

@[simp] theorem ends_ofOption (o : Option α) : Ends (ofOption o) := by cases o <;> simp

theorem Ends.bind {x : Res α} {f : α → Res β} (hx : Ends x) (hf : ∀ a, x = .ok a → Ends (f a)) :
    Ends (x >>= f) := by
  cases x with
  | error e => cases e <;> simp_all [Ends]
  | ok a => simpa using hf a rfl

theorem Ends.map {x : Res α} (f : α → β) (hx : Ends x) : Ends (f <$> x) := by
  cases x with
  | error e => cases e <;> simp_all [Ends]
  | ok a => simp

theorem Ends.fault_or_ok {x : Res α} (hx : Ends x) : x = .error .fault ∨ ∃ a, x = .ok a := by
  cases x with
  | error e => cases e <;> simp_all [Ends]
  | ok a => exact .inr ⟨a, rfl⟩

/-- A computation that ends is without a fault when it has a result. -/
theorem Ends.safe_iff {x : Res α} (hx : Ends x) : Safe x ↔ ∃ a, x = .ok a := by
  cases x with
  | error e => cases e <;> simp_all [Ends, Safe]
  | ok a => simp

/-! ### The definedness order -/

/-- `y` has every result `x` has. -/
def Le (x y : Res α) : Prop := ∀ a, x = .ok a → y = .ok a

theorem Le.refl (x : Res α) : Le x x := fun _ h => h

theorem Le.bind {x y : Res α} {f g : α → Res β} (hx : Le x y) (hf : ∀ a, Le (f a) (g a)) :
    Le (x >>= f) (y >>= g) := by
  intro b hb
  obtain ⟨a, ha, hfa⟩ := bind_eq_ok.mp hb
  rw [hx a ha, ok_bind]
  exact hf a b hfa

theorem Le.map {x y : Res α} (f : α → β) (hx : Le x y) : Le (f <$> x) (f <$> y) := by
  intro b hb
  obtain ⟨a, ha, rfl⟩ := map_eq_ok.mp hb
  rw [hx a ha, map_ok]

end Res

/-- A pointer: its address and the bytes from it to the end of its buffer. -/
structure Ptr where
  addr : ℕ
  data : Bytes
  deriving DecidableEq, Repr

namespace Ptr

/-- Pointer arithmetic. -/
def add (p : Ptr) (k : ℕ) : Ptr := ⟨p.addr + k, p.data.drop k⟩

/-- The byte `k` behind the pointer. -/
def read (p : Ptr) (k : ℕ) : Res UInt8 := Res.ofOption p.data[k]?

/-- The `n` bytes from `k` behind the pointer on. -/
def bytes (p : Ptr) (k n : ℕ) : Res Bytes :=
  let bs := (p.data.drop k).take n
  if bs.length = n then .ok bs else .error .fault

/-- The `n`-byte unsigned number at `k`, least significant byte first. -/
def le (p : Ptr) (k n : ℕ) : Res ℕ := leNat <$> p.bytes k n

/-- The `n`-byte unsigned number at `k`, most significant byte first. -/
def be (p : Ptr) (k n : ℕ) : Res ℕ := beNat <$> p.bytes k n

/-- The C string at the pointer: the bytes before the first NUL, which must lie in the buffer. -/
def str (p : Ptr) : Res Bytes :=
  if (0 : UInt8) ∈ p.data then .ok (cStr p.data) else .error .fault

@[simp] theorem add_data (p : Ptr) (k : ℕ) : (p.add k).data = p.data.drop k := rfl

@[simp] theorem add_addr (p : Ptr) (k : ℕ) : (p.add k).addr = p.addr + k := rfl

@[simp] theorem add_zero (p : Ptr) : p.add 0 = p := rfl

@[simp] theorem add_add (p : Ptr) (j k : ℕ) : (p.add j).add k = p.add (j + k) := by
  simp [add, Nat.add_assoc]

@[simp] theorem read_add (p : Ptr) (j k : ℕ) : (p.add j).read k = p.read (j + k) := by
  simp [read]

@[simp] theorem bytes_add (p : Ptr) (j k n : ℕ) : (p.add j).bytes k n = p.bytes (j + k) n := by
  simp [bytes]

@[simp] theorem le_add (p : Ptr) (j k n : ℕ) : (p.add j).le k n = p.le (j + k) n := by simp [le]

@[simp] theorem be_add (p : Ptr) (j k n : ℕ) : (p.add j).be k n = p.be (j + k) n := by simp [be]

theorem bytes_eq_take {p : Ptr} {k n : ℕ} {bs : Bytes} (h : p.bytes k n = .ok bs) :
    bs = (p.data.drop k).take n := by
  unfold bytes at h
  dsimp only at h
  split_ifs at h
  exact (Except.ok.inj h).symm

theorem bytes_length {p : Ptr} {k n : ℕ} {bs : Bytes} (h : p.bytes k n = .ok bs) : bs.length = n := by
  unfold bytes at h
  dsimp only at h
  split_ifs at h with hn
  rw [← Except.ok.inj h, hn]

theorem le_eq_leNat {p : Ptr} {k n x : ℕ} (h : p.le k n = .ok x) : x = leNat ((p.data.drop k).take n) := by
  obtain ⟨bs, hbs, rfl⟩ := Res.map_eq_ok.mp h
  rw [bytes_eq_take hbs]

theorem le_lt {p : Ptr} {k n x : ℕ} (h : p.le k n = .ok x) : x < 256 ^ n := by
  obtain ⟨bs, hbs, rfl⟩ := Res.map_eq_ok.mp h
  have hlen : bs.length ≤ n := by
    rw [bytes_eq_take hbs, List.length_take]
    exact Nat.min_le_left ..
  exact (leNat_lt bs).trans_le (Nat.pow_le_pow_right (by norm_num) hlen)

@[simp] theorem ends_read (p : Ptr) (k : ℕ) : Res.Ends (p.read k) := Res.ends_ofOption _

@[simp] theorem ends_bytes (p : Ptr) (k n : ℕ) : Res.Ends (p.bytes k n) := by
  unfold bytes
  dsimp only
  split_ifs <;> simp

@[simp] theorem ends_le (p : Ptr) (k n : ℕ) : Res.Ends (p.le k n) := (ends_bytes p k n).map _

@[simp] theorem ends_be (p : Ptr) (k n : ℕ) : Res.Ends (p.be k n) := (ends_bytes p k n).map _

/-! ### Reads inside the buffer -/

section Inside
variable {p : Ptr} {k n : ℕ}

/-- **A read has a result** when it reads nothing or ends inside the buffer. -/
theorem bytes_eq_ok {bs : Bytes} : p.bytes k n = .ok bs ↔
    (n = 0 ∨ k + n ≤ p.data.length) ∧ bs = (p.data.drop k).take n := by
  have hlen : ((p.data.drop k).take n).length = n ↔ n = 0 ∨ k + n ≤ p.data.length := by
    rw [List.length_take, List.length_drop]; omega
  unfold bytes
  dsimp only
  split_ifs with h
  · rw [Except.ok.injEq, ← hlen]
    exact ⟨fun hbs => ⟨h, hbs.symm⟩, fun hbs => hbs.2.symm⟩
  · rw [← hlen]
    constructor
    · intro hbs; cases hbs
    · exact fun hbs => absurd hbs.1 h

/-- A number made of the bytes of a read. -/
theorem map_bytes_eq_ok {f : Bytes → ℕ} {x : ℕ} : f <$> p.bytes k n = .ok x ↔
    (n = 0 ∨ k + n ≤ p.data.length) ∧ x = f ((p.data.drop k).take n) := by
  constructor
  · intro h
    obtain ⟨bs, hbs, rfl⟩ := Res.map_eq_ok.mp h
    obtain ⟨hin, rfl⟩ := bytes_eq_ok.mp hbs
    exact ⟨hin, rfl⟩
  · rintro ⟨hin, rfl⟩
    rw [bytes_eq_ok.mpr ⟨hin, rfl⟩, Res.map_ok]

theorem le_eq_ok {x : ℕ} : p.le k n = .ok x ↔
    (n = 0 ∨ k + n ≤ p.data.length) ∧ x = leNat ((p.data.drop k).take n) := map_bytes_eq_ok

theorem be_eq_ok {x : ℕ} : p.be k n = .ok x ↔
    (n = 0 ∨ k + n ≤ p.data.length) ∧ x = beNat ((p.data.drop k).take n) := map_bytes_eq_ok

/-- A read that ends behind the buffer is undefined. -/
theorem bytes_outside (h : p.data.length < k + n) (hn : n ≠ 0) : p.bytes k n = .error .fault := by
  rcases (ends_bytes p k n).fault_or_ok with hbad | ⟨bs, hbs⟩
  · exact hbad
  · have := (bytes_eq_ok.mp hbs).1
    omega

theorem le_outside (h : p.data.length < k + n) (hn : n ≠ 0) : p.le k n = .error .fault := by
  rw [le, bytes_outside h hn]
  rfl

theorem read_eq_ok {b : UInt8} : p.read k = .ok b ↔ p.data[k]? = some b := Res.ofOption_eq_ok

/-- The byte read, as a number of one byte. -/
theorem read_eq_ok_leNat {b : UInt8} : p.read k = .ok b ↔
    k + 1 ≤ p.data.length ∧ b.toNat = leNat ((p.data.drop k).take 1) := by
  rw [read_eq_ok]
  rcases Nat.lt_or_ge k p.data.length with h | h
  · have hnum : leNat ((p.data.drop k).take 1) = p.data[k].toNat := by
      rw [List.drop_eq_getElem_cons h, List.take_succ_cons, List.take_zero, leNat, leNat, Nat.mul_zero,
        Nat.add_zero]
    rw [List.getElem?_eq_getElem h, hnum, UInt8.toNat_inj, Option.some.injEq, eq_comm]
    exact (and_iff_right h).symm
  · rw [List.getElem?_eq_none h]
    constructor
    · intro hb; cases hb
    · intro hb; omega

/-! ### Strings -/

theorem str_eq_ok {s : Bytes} : p.str = .ok s ↔ 0 ∉ s ∧ ∃ rest, p.data = s ++ 0 :: rest := by
  unfold str
  constructor
  · intro h
    split_ifs at h with hmem
    obtain rfl := Except.ok.inj h
    obtain ⟨front, rest, hdata, hfront⟩ := List.eq_append_cons_of_mem hmem
    rw [hdata, cStr_append_nul hfront]
    exact ⟨hfront, rest, rfl⟩
  · rintro ⟨hs, rest, hdata⟩
    rw [hdata, if_pos (by simp), cStr_append_nul hs]

/-- **A string of a declared length** is the bytes up to the NUL when these have no NUL among them and one
behind them. -/
theorem str_eq_bytes_iff {s : Bytes} : (p.add k).str = .ok s ∧ p.bytes k n = .ok s ↔
    s = (p.data.drop k).take n ∧ 0 ∉ s ∧ p.data[k + n]? = some 0 := by
  rw [str_eq_ok, add_data, ← List.getElem?_drop]
  constructor
  · rintro ⟨⟨hs, rest, hdata⟩, hbytes⟩
    have hlen := bytes_length hbytes
    refine ⟨bytes_eq_take hbytes, hs, ?_⟩
    rw [hdata, ← hlen, List.getElem?_append_right (Nat.le_refl _), Nat.sub_self, List.getElem?_cons_zero]
  · rintro ⟨rfl, hs, hnul⟩
    obtain ⟨hlt, hget⟩ := List.getElem?_eq_some_iff.mp hnul
    have hsplit : p.data.drop k = (p.data.drop k).take n ++ 0 :: (p.data.drop k).drop (n + 1) := by
      rw [← hget, ← List.drop_eq_getElem_cons hlt, List.take_append_drop]
    rw [List.length_drop] at hlt
    exact ⟨⟨hs, _, hsplit⟩, bytes_eq_ok.mpr ⟨.inr (by omega), rfl⟩⟩

end Inside

/-! ### Longer buffers -/

/-- `q` points to the bytes of `p`, with more behind them. -/
structure Extends (p q : Ptr) : Prop where
  addr : q.addr = p.addr
  data : p.data <+: q.data

theorem extends_append (a : ℕ) (xs ys : Bytes) : Extends ⟨a, xs⟩ ⟨a, xs ++ ys⟩ :=
  ⟨rfl, List.prefix_append xs ys⟩

section Extends
variable {p q : Ptr} (h : Extends p q)
include h

theorem read_le (k : ℕ) : Res.Le (p.read k) (q.read k) := by
  obtain ⟨ys, hys⟩ := h.data
  intro b hb
  have hb' : p.data[k]? = some b := Res.ofOption_eq_ok.mp hb
  have hk : k < p.data.length := (List.getElem?_eq_some_iff.mp hb').1
  unfold read
  rw [← hys, List.getElem?_append_left hk, hb', Res.ofOption_some]

theorem bytes_le (k n : ℕ) : Res.Le (p.bytes k n) (q.bytes k n) := by
  obtain ⟨ys, hys⟩ := h.data
  intro bs hbs
  unfold bytes at hbs ⊢
  simp only at hbs ⊢
  split_ifs at hbs with hlen
  have htake : ((q.data.drop k).take n) = (p.data.drop k).take n := by
    rcases Nat.eq_zero_or_pos n with rfl | hn
    · simp
    · have hle : n ≤ (p.data.drop k).length := by
        rw [List.length_take] at hlen; omega
      rw [List.length_drop] at hle
      rw [← hys, List.drop_append_of_le_length (by omega), List.take_append_of_le_length (by simp; omega)]
  rw [htake, if_pos hlen, hbs]

theorem le_le (k n : ℕ) : Res.Le (p.le k n) (q.le k n) := (bytes_le h k n).map _

theorem be_le (k n : ℕ) : Res.Le (p.be k n) (q.be k n) := (bytes_le h k n).map _

end Extends

/-! ### Reading behind a known prefix -/

section Append
variable {p : Ptr} {x y z : Bytes}

/-- **A read behind a prefix** `x` sees the bytes `y` that follow it. -/
theorem bytes_append (h : p.data = x ++ y ++ z) : p.bytes x.length y.length = .ok y := by
  unfold bytes
  simp [h, List.append_assoc]

theorem bytes_at (h : p.data = x ++ y ++ z) {k n : ℕ} (hk : k = x.length)
    (hn : n = y.length) : p.bytes k n = .ok y := by
  subst hk hn; exact bytes_append h

/-- The same behind two parts. -/
theorem bytes_behind {w : Bytes} (h : p.data = x ++ (w ++ (y ++ z))) {k n : ℕ}
    (hk : k = x.length + w.length) (hn : n = y.length) : p.bytes k n = .ok y := by
  have h' : p.data = (x ++ w) ++ y ++ z := by rw [h]; simp only [List.append_assoc]
  exact bytes_at h' (by rw [hk, List.length_append]) hn

theorem le_at (h : p.data = x ++ y ++ z) {k n : ℕ} (hk : k = x.length)
    (hn : n = y.length) : p.le k n = .ok (leNat y) := by
  simp [le, bytes_at h hk hn]

theorem be_at (h : p.data = x ++ y ++ z) {k n : ℕ} (hk : k = x.length)
    (hn : n = y.length) : p.be k n = .ok (beNat y) := by
  simp [be, bytes_at h hk hn]

theorem bytes_head (h : p.data = y ++ z) {n : ℕ} (hn : n = y.length) : p.bytes 0 n = .ok y := by
  rw [← List.nil_append y] at h
  exact bytes_at h rfl hn

theorem le_head (h : p.data = y ++ z) {n : ℕ} (hn : n = y.length) :
    p.le 0 n = .ok (leNat y) := by
  simp [le, bytes_head h hn]

theorem be_head (h : p.data = y ++ z) {n : ℕ} (hn : n = y.length) :
    p.be 0 n = .ok (beNat y) := by
  simp [be, bytes_head h hn]

/-- A number stored as a `w`-byte pattern, most significant byte first. -/
theorem be_ofSigned_at {w : ℕ} {v : ℤ} (h : p.data = x ++ beBytes w (ofSigned (8 * w) v) ++ z) {k : ℕ}
    (hk : k = x.length) : p.be k w = .ok (ofSigned (8 * w) v) := by
  have hpow : (2 : ℕ) ^ (8 * w) = 256 ^ w := by rw [pow_mul]; norm_num
  rw [be_at h hk (by simp), beNat_beBytes_of_lt]
  exact hpow ▸ ofSigned_lt (8 * w) v

theorem read_at {b : UInt8} (h : p.data = x ++ b :: z) {k : ℕ} (hk : k = x.length) :
    p.read k = .ok b := by
  subst hk; simp [read, h]

theorem add_at (h : p.data = x ++ z) {k : ℕ} (hk : k = x.length) : (p.add k).data = z := by
  subst hk; simp [h]

end Append

end Ptr

end DataSync.Lib.Memory
