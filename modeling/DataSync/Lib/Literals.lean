import Mathlib

/-! # Double-quoted literals

A tokeniser for the double-quoted literals of MySQL: inside one a backslash escapes the next character and
a doubled quote stands for a quote. Outside, runs of word characters are words, into which the sign and the
exponent of a number go, and every other character is a token of its own. A literal keeps its spelling
and its value.

`tokens_quote_iff`: a text between quotes is one literal that spells itself exactly when the text is
`clean` and the text before it leaves no literal open. A statement with values (`Field`) keeps the tokens
that are not constants whatever its constants are (`skeleton_eq`). -/

namespace DataSync.Lib.Literals

/-! ### The tokeniser -/

inductive Token where
  | word (w : List Char)
  | sign (c : Char)
  | literal (spelling value : List Char)
  | unterminated
  deriving DecidableEq, Repr

/-- Letters, digits, and what identifiers and numbers have beside them. -/
def isWord (c : Char) : Bool :=
  c.isAlphanum || decide (128 ≤ c.toNat) || c ∈ ['_', '$', '.', '+', '-']

/-- What a backslash and a character stand for. -/
def unescape (c : Char) : List Char :=
  if c = '0' then [Char.ofNat 0]
  else if c = 'b' then [Char.ofNat 8]
  else if c = 'n' then ['\n']
  else if c = 'r' then ['\r']
  else if c = 't' then ['\t']
  else if c = 'Z' then [Char.ofNat 26]
  else if c = '%' ∨ c = '_' then ['\\', c]
  else [c]

/-- Where the tokeniser stands: outside, behind part of a word; inside a literal; behind a backslash in it;
or behind a quote in it that may close it. -/
inductive Mode where
  | plain (w : List Char)
  | inside (spelling value : List Char)
  | escaped (spelling value : List Char)
  | closing (spelling value : List Char)
  deriving DecidableEq, Repr

/-- The word that ends here. -/
def flush (w : List Char) : List Token := if w = [] then [] else [.word w]

/-- A character outside of literals. -/
def plainStep (w : List Char) (c : Char) : List Token × Mode :=
  if c = '"' then (flush w, .inside [] [])
  else if isWord c then ([], .plain (w ++ [c]))
  else (flush w ++ [.sign c], .plain [])

/-- A character, with the tokens it completes. -/
def step : Mode → Char → List Token × Mode
  | .plain w, c => plainStep w c
  | .inside r v, c =>
    if c = '"' then ([], .closing r v)
    else if c = '\\' then ([], .escaped r v)
    else ([], .inside (r ++ [c]) (v ++ [c]))
  | .escaped r v, c => ([], .inside (r ++ ['\\', c]) (v ++ unescape c))
  | .closing r v, c =>
    if c = '"' then ([], .inside (r ++ ['"', '"']) (v ++ ['"']))
    else (.literal r v :: (plainStep [] c).1, (plainStep [] c).2)

/-- The token at the end of the text. -/
def finish : Mode → List Token
  | .plain w => flush w
  | .closing r v => [.literal r v]
  | _ => [.unterminated]

/-- The mode behind a text. -/
def after : Mode → List Char → Mode
  | m, [] => m
  | m, c :: t => after (step m c).2 t

/-- The tokens completed in a text. -/
def emitted : Mode → List Char → List Token
  | _, [] => []
  | m, c :: t => (step m c).1 ++ emitted (step m c).2 t

/-- The tokens of a text from a mode on. -/
def tokensFrom (m : Mode) (t : List Char) : List Token := emitted m t ++ finish (after m t)

/-- The tokens of a text. -/
def tokens (t : List Char) : List Token := tokensFrom (.plain []) t

theorem after_append (m : Mode) (s t : List Char) : after m (s ++ t) = after (after m s) t := by
  induction s generalizing m with
  | nil => rfl
  | cons c s ih => exact ih _

theorem emitted_append (m : Mode) (s t : List Char) :
    emitted m (s ++ t) = emitted m s ++ emitted (after m s) t := by
  induction s generalizing m with
  | nil => rfl
  | cons c s ih => simp [emitted, after, ih]

theorem tokensFrom_append (m : Mode) (s t : List Char) :
    tokensFrom m (s ++ t) = emitted m s ++ tokensFrom (after m s) t := by
  simp [tokensFrom, emitted_append, after_append]

/-! ### Clean texts -/

/-- The text has no quote, and a backslash only before `%` or `_`. -/
def clean : List Char → Bool
  | [] => true
  | [c] => decide (c ≠ '"' ∧ c ≠ '\\')
  | c :: d :: s =>
    if c = '\\' then decide (d = '%' ∨ d = '_') && clean s else decide (c ≠ '"') && clean (d :: s)

/-- A clean text inside a literal spells itself. -/
theorem inside_clean {s : List Char} (h : clean s = true) (r v : List Char) :
    after (.inside r v) s = .inside (r ++ s) (v ++ s) ∧ emitted (.inside r v) s = [] := by
  induction s using clean.induct generalizing r v with
  | case1 => simp [after, emitted]
  | case2 c =>
    obtain ⟨h1, h2⟩ : c ≠ '"' ∧ c ≠ '\\' := by simpa [clean] using h
    simp [after, emitted, step, h1, h2]
  | case3 d s ih =>
    obtain ⟨hd, hs⟩ : (d = '%' ∨ d = '_') ∧ clean s = true := by simpa [clean] using h
    have hun : unescape d = ['\\', d] := by
      rcases hd with rfl | rfl <;> rfl
    obtain ⟨h1, h2⟩ := ih hs (r ++ ['\\', d]) (v ++ ['\\', d])
    simp [after, emitted, step, hun, h1, h2]
  | case4 c d s hc ih =>
    obtain ⟨hq, hs⟩ : c ≠ '"' ∧ clean (d :: s) = true := by simpa [clean, hc] using h
    obtain ⟨h1, h2⟩ := ih hs (r ++ [c]) (v ++ [c])
    constructor
    · change after (step (.inside r v) c).2 (d :: s) = _
      simp only [step, hq, if_false, hc]
      rw [h1]
      simp
    · change (step (.inside r v) c).1 ++ emitted (step (.inside r v) c).2 (d :: s) = _
      simp only [step, hq, if_false, hc]
      rw [h2]
      rfl

/-- A clean text between quotes, outside of literals. -/
theorem plain_quote {s : List Char} (hs : clean s = true) (w : List Char) :
    after (.plain w) ('"' :: s ++ ['"']) = .closing s s ∧
      emitted (.plain w) ('"' :: s ++ ['"']) = flush w := by
  obtain ⟨h1, h2⟩ := inside_clean hs [] []
  constructor
  · change after (.inside [] []) (s ++ ['"']) = _
    rw [after_append, h1]
    rfl
  · change flush w ++ emitted (.inside [] []) (s ++ ['"']) = _
    rw [emitted_append, h1, h2]
    simp [emitted, step]

theorem clean_append {s t : List Char} (hs : clean s = true) (ht : clean t = true) :
    clean (s ++ t) = true := by
  induction s using clean.induct with
  | case1 => exact ht
  | case2 c =>
    obtain ⟨h1, h2⟩ : c ≠ '"' ∧ c ≠ '\\' := by simpa [clean] using hs
    cases t with
    | nil => simpa using hs
    | cons d t => simp [clean, h1, h2, ht]
  | case3 d s ih =>
    obtain ⟨hd, hs⟩ : (d = '%' ∨ d = '_') ∧ clean s = true := by simpa [clean] using hs
    simp [clean, hd, ih hs]
  | case4 c d s hc ih =>
    obtain ⟨hq, hs⟩ : c ≠ '"' ∧ clean (d :: s) = true := by simpa [clean, hc] using hs
    have htail := ih hs
    simp only [List.cons_append] at htail ⊢
    simp [clean, hc, hq, htail]

/-- What a literal's spelling stands for. -/
inductive Spells : List Char → List Char → Prop where
  | nil : Spells [] []
  | plain {r v : List Char} {c : Char} : Spells r v → c ≠ '"' → c ≠ '\\' → Spells (r ++ [c]) (v ++ [c])
  | escape {r v : List Char} (c : Char) : Spells r v → Spells (r ++ ['\\', c]) (v ++ unescape c)
  | doubled {r v : List Char} : Spells r v → Spells (r ++ ['"', '"']) (v ++ ['"'])

theorem unescape_length (c : Char) :
    (unescape c).length ≤ 1 ∨ (unescape c).length = 2 ∧ (c = '%' ∨ c = '_') := by
  by_cases hc : c = '%' ∨ c = '_'
  · refine Or.inr ⟨?_, hc⟩
    rcases hc with rfl | rfl <;> rfl
  · left
    unfold unescape
    split_ifs <;> exact Nat.le_refl 1

/-- A spelling is not shorter than its value, and clean if it is as long. -/
theorem Spells.length {r v : List Char} (h : Spells r v) :
    v.length ≤ r.length ∧ (v.length = r.length → clean r = true) := by
  induction h with
  | nil => exact ⟨le_rfl, fun _ => rfl⟩
  | plain _ h1 h2 ih =>
    refine ⟨by simpa using ih.1, fun hlen => clean_append (ih.2 (by simpa using hlen)) ?_⟩
    simp [clean, h1, h2]
  | @escape r v c _ ih =>
    rcases unescape_length c with h | ⟨h, hc⟩
    · constructor
      · simp only [List.length_append, List.length_cons, List.length_nil]
        omega
      · intro hlen
        simp only [List.length_append, List.length_cons, List.length_nil] at hlen
        omega
    · constructor
      · simp only [List.length_append, List.length_cons, List.length_nil]
        omega
      · intro hlen
        have hrv : v.length = r.length := by
          simp only [List.length_append, List.length_cons, List.length_nil] at hlen
          omega
        refine clean_append (ih.2 hrv) ?_
        simp [clean, hc]
  | doubled _ ih =>
    constructor
    · simp only [List.length_append, List.length_cons, List.length_nil]
      omega
    · intro hlen
      simp only [List.length_append, List.length_cons, List.length_nil] at hlen
      omega

/-- The mode's literal is spelled as it was read. -/
def Mode.Ok : Mode → Prop
  | .plain _ => True
  | .inside r v | .escaped r v | .closing r v => Spells r v

/-- The token is a literal spelled as it was read, or no literal. -/
def Token.Ok : Token → Prop
  | .literal r v => Spells r v
  | .unterminated => False
  | _ => True

theorem flush_ok (w : List Char) : ∀ t ∈ flush w, t.Ok := by
  unfold flush
  split
  · simp
  · simp [Token.Ok]

theorem plainStep_ok (w : List Char) (c : Char) :
    (plainStep w c).2.Ok ∧ ∀ t ∈ (plainStep w c).1, t.Ok := by
  unfold plainStep
  split_ifs
  · exact ⟨.nil, flush_ok w⟩
  · exact ⟨trivial, by simp⟩
  · refine ⟨trivial, fun t ht => ?_⟩
    rcases List.mem_append.mp ht with ht | ht
    · exact flush_ok w t ht
    · rw [List.mem_singleton.mp ht]
      trivial

theorem step_ok {m : Mode} (h : m.Ok) (c : Char) :
    (step m c).2.Ok ∧ ∀ t ∈ (step m c).1, t.Ok := by
  cases m with
  | plain w => exact plainStep_ok w c
  | inside r v =>
    simp only [step]
    split_ifs with hq hb
    · exact ⟨h, by simp⟩
    · exact ⟨h, by simp⟩
    · exact ⟨.plain h hq hb, by simp⟩
  | escaped r v => exact ⟨.escape c h, by simp [step]⟩
  | closing r v =>
    simp only [step]
    split_ifs
    · exact ⟨.doubled h, by simp⟩
    · refine ⟨(plainStep_ok [] c).1, fun t ht => ?_⟩
      rcases List.mem_cons.mp ht with rfl | ht
      · exact h
      · exact (plainStep_ok [] c).2 t ht

theorem emitted_ok {m : Mode} (h : m.Ok) (t : List Char) :
    (after m t).Ok ∧ ∀ tok ∈ emitted m t, tok.Ok := by
  induction t generalizing m with
  | nil => exact ⟨h, by simp [emitted]⟩
  | cons c t ih =>
    obtain ⟨h1, h2⟩ := step_ok h c
    obtain ⟨h3, h4⟩ := ih h1
    refine ⟨h3, fun tok htok => ?_⟩
    rcases List.mem_append.mp htok with htok | htok
    · exact h2 tok htok
    · exact h4 tok htok

/-- A literal of a text that spells itself is clean. -/
theorem clean_of_mem_tokens {t s : List Char} (h : .literal s s ∈ tokens t) : clean s = true := by
  obtain ⟨h1, h2⟩ := emitted_ok (m := .plain []) trivial t
  rcases List.mem_append.mp h with h | h
  · exact (h2 _ h).length.2 rfl
  · cases hm : after (.plain []) t with
    | plain w =>
      simp only [hm, finish, flush] at h
      split at h <;> simp at h
    | closing r v =>
      rw [hm] at h h1
      obtain ⟨rfl, rfl⟩ : s = r ∧ s = v := by simpa [finish] using h
      exact h1.length.2 rfl
    | inside r v => simp [hm, finish] at h
    | escaped r v => simp [hm, finish] at h

/-! ### One entry -/

/-- A literal is open in the mode. -/
def Mode.isOpen : Mode → Bool
  | .inside _ _ | .escaped _ _ => true
  | _ => false

/-- The text leaves no literal open. -/
def Closed (t : List Char) : Prop := (after (.plain []) t).isOpen = false

instance (t : List Char) : Decidable (Closed t) :=
  inferInstanceAs (Decidable ((after (.plain []) t).isOpen = false))

/-- Only a quote leads to the mode that may close a literal. -/
theorem plain_of_closed {t : List Char} (h : Closed t) (hq : t.getLast? ≠ some '"') :
    ∃ w, after (.plain []) t = .plain w := by
  induction t using List.reverseRecOn with
  | nil => exact ⟨[], rfl⟩
  | append_singleton t c _ =>
    have hc : c ≠ '"' := by simpa using hq
    have hplain : ∀ w, ∃ w', (plainStep w c).2 = .plain w' := by
      intro w
      by_cases hw : isWord c = true
      · exact ⟨w ++ [c], by simp [plainStep, hc, hw]⟩
      · exact ⟨[], by simp [plainStep, hc, hw]⟩
    unfold Closed at h
    rw [after_append] at h ⊢
    simp only [after] at h ⊢
    cases hm : after (.plain []) t with
    | plain w => exact hplain w
    | closing r v => simpa [step, hc] using hplain []
    | inside r v =>
      rw [hm] at h
      simp only [step, hc, if_false] at h
      split at h <;> simp [Mode.isOpen] at h
    | escaped r v => simp [hm, step, Mode.isOpen] at h

/-- A text between quotes, with another text behind it that does not start with a quote. -/
theorem tokensFrom_closing (r v : List Char) {t : List Char} (ht : t.head? ≠ some '"') :
    tokensFrom (.closing r v) t = .literal r v :: tokens t := by
  cases t with
  | nil => rfl
  | cons c t =>
    have hc : c ≠ '"' := by simpa using ht
    simp [tokens, tokensFrom, emitted, after, step, hc]

/-- Only the last token of a text can be an open literal. -/
theorem closed_of_tokens {t before : List Char} {tok : Token} {rest : List Token}
    (h : tokens t = tokens before ++ tok :: rest) : Closed before := by
  by_contra hopen
  have hlast : ∃ A, tokens before = A ++ [.unterminated] := by
    refine ⟨emitted (.plain []) before, ?_⟩
    unfold Closed at hopen
    unfold tokens tokensFrom
    cases hm : after (.plain []) before with
    | plain w | closing r v => simp [hm, Mode.isOpen] at hopen
    | inside r v | escaped r v => rfl
  obtain ⟨A, hA⟩ := hlast
  have hfin : (finish (after (.plain []) t)).length ≤ 1 := by
    cases after (.plain []) t with
    | plain w =>
      simp only [finish, flush]
      split <;> simp
    | inside r v | escaped r v | closing r v => simp [finish]
  -- the open literal of `before` would be among the tokens completed in `t`
  rw [hA] at h
  have hpre : A ++ [.unterminated] <+: emitted (.plain []) t := by
    have h1 : A ++ [.unterminated] <+: tokens t := ⟨tok :: rest, h.symm⟩
    have h2 : emitted (.plain []) t <+: tokens t := ⟨_, rfl⟩
    refine List.prefix_of_prefix_length_le h1 h2 ?_
    have hlen := congrArg List.length h
    simp only [tokens, tokensFrom, List.length_append, List.length_cons, List.length_nil] at hlen ⊢
    omega
  exact (emitted_ok (m := .plain []) trivial t).2 .unterminated (hpre.subset (by simp))

/-- **One entry**: a text between quotes is one literal with the text as its value exactly when it is clean
and no literal is open before it. -/
theorem tokens_quote_iff {before s rest : List Char} (hb : before.getLast? ≠ some '"')
    (hr : rest.head? ≠ some '"') :
    tokens (before ++ ('"' :: s ++ ['"']) ++ rest) = tokens before ++ .literal s s :: tokens rest ↔
      clean s = true ∧ Closed before := by
  constructor
  · intro h
    refine ⟨clean_of_mem_tokens (h ▸ List.mem_append_right _ List.mem_cons_self), closed_of_tokens h⟩
  · rintro ⟨hs, hclosed⟩
    obtain ⟨w, hw⟩ := plain_of_closed hclosed hb
    have hbefore : tokens before = emitted (.plain []) before ++ flush w := by
      simp [tokens, tokensFrom, hw, finish]
    have hquote := plain_quote hs w
    rw [List.append_assoc, hbefore, tokens, tokensFrom_append, tokensFrom_append, hw, hquote.1, hquote.2,
      tokensFrom_closing s s hr, List.append_assoc]

/-! ### Constants -/

def numberChar (c : Char) : Bool := c.isDigit || c ∈ ['.', 'e', 'E', '+', '-']

def startsNumber : List Char → Bool
  | [] => false
  | [c] => c.isDigit
  | c :: d :: _ => c.isDigit || ((c == '+' || c == '-') && d.isDigit)

/-- A decimal number, with or without a sign, a point and an exponent. -/
def isNumber (w : List Char) : Bool := startsNumber w && w.all numberChar

/-- A number or `null`. -/
def isConstant (w : List Char) : Bool := w == "null".toList || isNumber w

/-- The token is a string, a number or `null`. -/
def Token.isConstant : Token → Bool
  | .literal _ _ => true
  | .word w => Literals.isConstant w
  | _ => false

/-- The tokens that are not constants. -/
def skeleton (ts : List Token) : List Token := ts.filter fun t => !t.isConstant

theorem skeleton_append (ts us : List Token) : skeleton (ts ++ us) = skeleton ts ++ skeleton us :=
  List.filter_append ..

theorem isWord_of_constant {w : List Char} (h : isConstant w = true) : ∀ c ∈ w, isWord c = true := by
  intro c hc
  rcases Bool.or_eq_true_iff.mp h with h | h
  · rw [eq_of_beq h] at hc
    have hmem : c = 'n' ∨ c = 'u' ∨ c = 'l' := by simpa using hc
    rcases hmem with rfl | rfl | rfl <;> rfl
  · have hnum : numberChar c = true := List.all_eq_true.mp (Bool.and_eq_true_iff.mp h).2 c hc
    rcases Bool.or_eq_true_iff.mp hnum with hd | hd
    · simp [isWord, Char.isAlphanum, hd]
    · have hmem : c = '.' ∨ c = 'e' ∨ c = 'E' ∨ c = '+' ∨ c = '-' := by simpa using hd
      rcases hmem with rfl | rfl | rfl | rfl | rfl <;> rfl

theorem ne_nil_of_constant {w : List Char} (h : isConstant w = true) : w ≠ [] := by
  rintro rfl
  exact absurd h (by decide)

theorem ne_of_isWord {c : Char} (h : isWord c = true) : c ≠ '"' ∧ c ≠ '\\' := by
  constructor
  · rintro rfl
    exact absurd h (by decide)
  · rintro rfl
    exact absurd h (by decide)

theorem clean_of_isWord {w : List Char} (h : ∀ c ∈ w, isWord c = true) : clean w = true := by
  induction w with
  | nil => rfl
  | cons c w ih =>
    obtain ⟨h1, h2⟩ := ne_of_isWord (h c (by simp))
    have hw := ih fun d hd => h d (List.mem_cons_of_mem c hd)
    rw [← List.singleton_append]
    exact clean_append (by simp [clean, h1, h2]) hw

/-- Word characters outside of literals. -/
theorem plain_isWord {t : List Char} (h : ∀ c ∈ t, isWord c = true) (w : List Char) :
    after (.plain w) t = .plain (w ++ t) ∧ emitted (.plain w) t = [] := by
  induction t generalizing w with
  | nil => simp [after, emitted]
  | cons c t ih =>
    have hc := h c (by simp)
    have hstep : step (.plain w) c = ([], .plain (w ++ [c])) := by
      simp [step, plainStep, (ne_of_isWord hc).1, hc]
    obtain ⟨h1, h2⟩ := ih (fun d hd => h d (List.mem_cons_of_mem c hd)) (w ++ [c])
    simp [after, emitted, hstep, h1, h2]

/-! ### Texts that differ in their constants -/

/-- Two modes that differ at most in what a literal holds. -/
def Same : Mode → Mode → Prop
  | .plain w, .plain w' => w = w'
  | .inside _ _, .inside _ _ | .escaped _ _, .escaped _ _ | .closing _ _, .closing _ _ => True
  | _, _ => False

/-- The mode is behind a constant. -/
def Complete : Mode → Prop
  | .closing _ _ => True
  | .plain w => isConstant w = true
  | _ => False

/-- Two modes that differ at most in what a literal holds or in the constant they are behind. -/
def Alike (m m' : Mode) : Prop := Same m m' ∨ Complete m ∧ Complete m'

theorem Same.refl (m : Mode) : Same m m := by
  cases m <;> simp [Same]

theorem Same.isOpen {m m' : Mode} (h : Same m m') : m.isOpen = m'.isOpen := by
  cases m <;> cases m' <;> simp_all [Same, Mode.isOpen]

theorem Same.step {m m' : Mode} (h : Same m m') (c : Char) :
    Same (step m c).2 (step m' c).2 ∧ skeleton (step m c).1 = skeleton (step m' c).1 := by
  cases m with
  | plain w =>
    cases m' with
    | plain w' =>
      obtain rfl : w = w' := h
      exact ⟨Same.refl _, rfl⟩
    | inside _ _ | escaped _ _ | closing _ _ => exact absurd h (by simp [Same])
  | inside r v =>
    cases m' with
    | inside r' v' =>
      simp only [Literals.step]
      split_ifs <;> exact ⟨trivial, rfl⟩
    | plain _ | escaped _ _ | closing _ _ => exact absurd h (by simp [Same])
  | escaped r v =>
    cases m' with
    | escaped r' v' => exact ⟨trivial, rfl⟩
    | plain _ | inside _ _ | closing _ _ => exact absurd h (by simp [Same])
  | closing r v =>
    cases m' with
    | closing r' v' =>
      simp only [Literals.step]
      split_ifs
      · exact ⟨trivial, rfl⟩
      · exact ⟨Same.refl _, rfl⟩
    | plain _ | inside _ _ | escaped _ _ => exact absurd h (by simp [Same])

theorem Same.text {m m' : Mode} (h : Same m m') (t : List Char) :
    Same (after m t) (after m' t) ∧ skeleton (emitted m t) = skeleton (emitted m' t) := by
  induction t generalizing m m' with
  | nil => exact ⟨h, rfl⟩
  | cons c t ih =>
    obtain ⟨h1, h2⟩ := h.step c
    obtain ⟨h3, h4⟩ := ih h1
    exact ⟨h3, by simp only [emitted, skeleton_append, h2, h4]⟩

/-- What stands between the parts of a statement. -/
def isDelimiter (c : Char) : Bool := c ∈ [' ', '=', ',', '(']

theorem delimiter_spec {c : Char} (h : isDelimiter c = true) :
    c ≠ '"' ∧ c ≠ '\\' ∧ isWord c = false := by
  have hmem : c = ' ' ∨ c = '=' ∨ c = ',' ∨ c = '(' := by simpa [isDelimiter] using h
  rcases hmem with rfl | rfl | rfl | rfl <;> exact ⟨by decide, by decide, rfl⟩

theorem Complete.delimiter {m : Mode} (h : Complete m) {c : Char} (hc : isDelimiter c = true) :
    (step m c).2 = .plain [] ∧ skeleton (step m c).1 = [.sign c] := by
  obtain ⟨hq, -, hw⟩ := delimiter_spec hc
  cases m with
  | plain w =>
    have hne := ne_nil_of_constant h
    have hconst : isConstant w = true := h
    simp [step, plainStep, hq, hw, flush, hne, skeleton, Token.isConstant, hconst]
  | closing r v => simp [step, plainStep, hq, hw, flush, skeleton, Token.isConstant]
  | inside r v | escaped r v => exact absurd h (by simp [Complete])

theorem Complete.finish {m : Mode} (h : Complete m) : skeleton (finish m) = [] := by
  cases m with
  | plain w =>
    have hconst : isConstant w = true := h
    simp [Literals.finish, flush, ne_nil_of_constant h, skeleton, Token.isConstant, hconst]
  | closing r v => rfl
  | inside r v | escaped r v => exact absurd h (by simp [Complete])

theorem Alike.delimiter {m m' : Mode} (h : Alike m m') {c : Char} (hc : isDelimiter c = true) :
    Same (step m c).2 (step m' c).2 ∧ skeleton (step m c).1 = skeleton (step m' c).1 := by
  rcases h with h | ⟨h, h'⟩
  · exact h.step c
  · obtain ⟨h1, h2⟩ := h.delimiter hc
    obtain ⟨h3, h4⟩ := h'.delimiter hc
    exact ⟨by rw [h1, h3]; exact Same.refl _, by rw [h2, h4]⟩

theorem Alike.finish {m m' : Mode} (h : Alike m m') : skeleton (finish m) = skeleton (finish m') := by
  rcases h with h | ⟨h, h'⟩
  · cases m <;> cases m' <;> simp_all [Same, Literals.finish, skeleton, Token.isConstant]
  · rw [h.finish, h'.finish]

/-- The text starts with a delimiter. -/
def StartsDelimited (t : List Char) : Prop := ∃ c u, t = c :: u ∧ isDelimiter c = true

/-- The text ends with a delimiter. -/
def EndsDelimited (t : List Char) : Prop := ∃ u c, t = u ++ [c] ∧ isDelimiter c = true

theorem Alike.text {m m' : Mode} (h : Alike m m') {t : List Char} (ht : StartsDelimited t) :
    Same (after m t) (after m' t) ∧ skeleton (emitted m t) = skeleton (emitted m' t) := by
  obtain ⟨c, u, rfl, hc⟩ := ht
  obtain ⟨h1, h2⟩ := h.delimiter hc
  obtain ⟨h3, h4⟩ := h1.text u
  exact ⟨h3, by simp only [emitted, skeleton_append, h2, h4]⟩

/-- Behind a delimiter a word has not begun. -/
theorem after_delimited (m : Mode) {t : List Char} (h : EndsDelimited t) :
    after m t = .plain [] ∨ ∃ r v, after m t = .inside r v := by
  obtain ⟨u, c, rfl, hc⟩ := h
  obtain ⟨hq, hb, hw⟩ := delimiter_spec hc
  rw [after_append]
  simp only [after]
  cases after m u with
  | plain w => exact Or.inl (by simp [step, plainStep, hq, hw])
  | inside r v => exact Or.inr ⟨r ++ [c], v ++ [c], by simp [step, hq, hb]⟩
  | escaped r v => exact Or.inr ⟨_, _, rfl⟩
  | closing r v => exact Or.inl (by simp [step, plainStep, hq, hw])

/-! ### Statements with values -/

/-- A value as it stands in a statement: a string between quotes, a bare word, or a word between quotes. -/
inductive Value where
  | string (s : List Char)
  | bare (w : List Char)
  | quoted (w : List Char)
  deriving DecidableEq, Repr

namespace Value

def text : Value → List Char
  | string s => '"' :: s ++ ['"']
  | bare w => w
  | quoted w => '"' :: w ++ ['"']

/-- A value that is not a string is a constant. -/
def Constant : Value → Prop
  | string _ => True
  | bare w | quoted w => isConstant w = true

/-- Both values can stand at one place: none of them is bare where the other is quoted. -/
def Compatible : Value → Value → Prop
  | bare _, quoted _ | quoted _, bare _ => False
  | _, _ => True

/-- `null` at the place of the value. -/
def blank : Value → Value
  | quoted _ => quoted "null".toList
  | _ => bare "null".toList

/-- A string at this mode is one literal. -/
def Sound (m : Mode) (v : Value) : Prop := ∀ s, v = string s → clean s = true ∧ m.isOpen = false

theorem constant_blank (v : Value) : v.blank.Constant := by
  cases v <;> rfl

theorem compatible_blank (v : Value) : Compatible v v.blank := by
  cases v <;> trivial

theorem sound_blank (m : Mode) (v : Value) : v.blank.Sound m := by
  intro s hs
  cases v <;> simp [blank] at hs

end Value

/-- A value outside of literals is one constant. -/
theorem value_plain {v : Value} (hv : v.Constant) (hs : v.Sound (.plain [])) :
    Complete (after (.plain []) v.text) ∧ skeleton (emitted (.plain []) v.text) = [] := by
  cases v with
  | string s =>
    obtain ⟨h1, h2⟩ := plain_quote (hs s rfl).1 []
    rw [Value.text, h1, h2]
    exact ⟨trivial, rfl⟩
  | bare w =>
    obtain ⟨h1, h2⟩ := plain_isWord (isWord_of_constant hv) []
    rw [Value.text, h1, h2]
    exact ⟨hv, rfl⟩
  | quoted w =>
    obtain ⟨h1, h2⟩ := plain_quote (clean_of_isWord (isWord_of_constant hv)) []
    rw [Value.text, h1, h2]
    exact ⟨trivial, rfl⟩

/-- A bare word in an open literal leaves it open. -/
theorem bare_inside {w : List Char} (hw : isConstant w = true) (r v : List Char) :
    (∃ r' v', after (.inside r v) w = .inside r' v') ∧ skeleton (emitted (.inside r v) w) = [] := by
  obtain ⟨h1, h2⟩ := inside_clean (clean_of_isWord (isWord_of_constant hw)) r v
  exact ⟨⟨_, _, h1⟩, by rw [h2]; rfl⟩

/-- A word between quotes in an open literal closes it and opens another one. -/
theorem quoted_inside {w : List Char} (hw : isConstant w = true) (r v : List Char) :
    (∃ r' v', after (.inside r v) ('"' :: w ++ ['"']) = .inside r' v') ∧
      skeleton (emitted (.inside r v) ('"' :: w ++ ['"'])) = [] := by
  have hword := isWord_of_constant hw
  obtain ⟨c, w, rfl⟩ := List.exists_cons_of_ne_nil (ne_nil_of_constant hw)
  have hc := hword c (by simp)
  have hstep : step (.closing r v) c = ([.literal r v], .plain [c]) := by
    simp [step, plainStep, (ne_of_isWord hc).1, hc]
  obtain ⟨h1, h2⟩ := plain_isWord (fun d hd => hword d (List.mem_cons_of_mem c hd)) [c]
  have hafter : after (.closing r v) (c :: w ++ ['"']) = .inside [] [] := by
    rw [List.cons_append, after, hstep, after_append, h1]
    rfl
  have hemitted : emitted (.closing r v) (c :: w ++ ['"']) = [.literal r v, .word (c :: w)] := by
    rw [List.cons_append, emitted, hstep, emitted_append, h1, h2]
    rfl
  constructor
  · exact ⟨[], [], hafter⟩
  · change skeleton (emitted (.closing r v) (c :: w ++ ['"'])) = []
    rw [hemitted]
    simp [skeleton, Token.isConstant, hw]

/-- **Two values at one place** leave alike modes and no token but constants. -/
theorem value_alike {m m' : Mode} (h : Same m m') (hm : m = .plain [] ∨ ∃ r v, m = .inside r v)
    {v v' : Value} (hvv : v.Compatible v') (hv : v.Constant) (hv' : v'.Constant) (hs : v.Sound m)
    (hs' : v'.Sound m') :
    Alike (after m v.text) (after m' v'.text) ∧
      skeleton (emitted m v.text) = skeleton (emitted m' v'.text) := by
  rcases hm with rfl | ⟨r, w, rfl⟩
  · obtain rfl : m' = .plain [] := by
      cases m' <;> simp_all [Same]
    obtain ⟨h1, h2⟩ := value_plain hv hs
    obtain ⟨h3, h4⟩ := value_plain hv' hs'
    exact ⟨Or.inr ⟨h1, h3⟩, by rw [h2, h4]⟩
  · -- in an open literal there is no string, and both are bare or both quoted
    obtain ⟨r', w', rfl⟩ : ∃ r' w', m' = .inside r' w' := by
      cases m' <;> simp_all [Same]
    have hopen : ∀ {r w : List Char} {s : List Char}, ¬ (Value.string s).Sound (.inside r w) :=
      fun hsound => absurd (hsound _ rfl).2 (by simp [Mode.isOpen])
    cases v with
    | string s => exact absurd hs hopen
    | bare t =>
      cases v' with
      | string s => exact absurd hs' hopen
      | quoted t' => exact hvv.elim
      | bare t' =>
        obtain ⟨⟨_, _, h1⟩, h2⟩ := bare_inside hv r w
        obtain ⟨⟨_, _, h3⟩, h4⟩ := bare_inside hv' r' w'
        exact ⟨Or.inl (by rw [Value.text, Value.text, h1, h3]; trivial), by
          rw [Value.text, Value.text, h2, h4]⟩
    | quoted t =>
      cases v' with
      | string s => exact absurd hs' hopen
      | bare t' => exact hvv.elim
      | quoted t' =>
        obtain ⟨⟨_, _, h1⟩, h2⟩ := quoted_inside hv r w
        obtain ⟨⟨_, _, h3⟩, h4⟩ := quoted_inside hv' r' w'
        exact ⟨Or.inl (by rw [Value.text, Value.text, h1, h3]; trivial), by
          rw [Value.text, Value.text, h2, h4]⟩

/-- A value of a statement with the text before it, back to the value before. -/
abbrev Field := List Char × Value

/-- The text of the fields and of what is behind them. -/
def textOf : List Field → List Char → List Char
  | [], tail => tail
  | (lead, v) :: fields, tail => lead ++ v.text ++ textOf fields tail

theorem textOf_append (pre post : List Field) (tail : List Char) :
    textOf (pre ++ post) tail = textOf pre (textOf post tail) := by
  induction pre with
  | nil => rfl
  | cons f pre ih => simp [textOf, ih]

theorem textOf_append_tail (fields : List Field) (s t : List Char) :
    textOf fields (s ++ t) = textOf fields s ++ t := by
  induction fields with
  | nil => rfl
  | cons f fields ih => simp [textOf, ih]

/-- The texts between the values end, and but for the first one start, with a delimiter. -/
structure Spaced (fields : List Field) (tail : List Char) : Prop where
  ends : ∀ f ∈ fields, EndsDelimited f.1
  starts : ∀ f ∈ fields.tail, StartsDelimited f.1
  tail : tail = [] ∨ StartsDelimited tail

/-- Every string of the fields is one literal of the statement, with the string as its value. -/
def AreLiterals (fields : List Field) (tail : List Char) (statement : List Char) : Prop :=
  ∀ pre lead s post, fields = pre ++ (lead, .string s) :: post →
    tokens statement = tokens (textOf pre lead) ++ .literal s s :: tokens (textOf post tail)

/-- Every string is clean, and no literal is open before it. -/
def Sound : Mode → List Field → Prop
  | _, [] => True
  | m, (lead, v) :: fields => v.Sound (after m lead) ∧ Sound (after (after m lead) v.text) fields

/-- The same, with `null` for the values before it. -/
def SoundNames : Mode → List Field → Prop
  | _, [] => True
  | m, (lead, v) :: fields =>
    v.Sound (after m lead) ∧ SoundNames (after (after m lead) v.blank.text) fields

theorem sound_iff (m : Mode) (fields : List Field) :
    Sound m fields ↔ ∀ pre lead s post, fields = pre ++ (lead, .string s) :: post →
      clean s = true ∧ (after m (textOf pre lead)).isOpen = false := by
  induction fields generalizing m with
  | nil => simp [Sound]
  | cons f fields ih =>
    obtain ⟨lead, v⟩ := f
    rw [Sound, ih]
    constructor
    · rintro ⟨hv, hrest⟩ pre lead' s post heq
      cases pre with
      | nil =>
        simp only [List.nil_append, List.cons.injEq, Prod.mk.injEq] at heq
        obtain ⟨⟨rfl, rfl⟩, -⟩ := heq
        exact hv s rfl
      | cons g pre =>
        simp only [List.cons_append, List.cons.injEq] at heq
        obtain ⟨rfl, heq⟩ := heq
        have h := hrest pre lead' s post heq
        simpa [textOf, after_append] using h
    · intro h
      refine ⟨?_, fun pre lead' s post heq => ?_⟩
      · rintro s rfl
        exact h [] lead s fields rfl
      · have h' := h ((lead, v) :: pre) lead' s post (by rw [heq]; rfl)
        simpa [textOf, after_append] using h'

/-- Behind modes that are alike, or the same in front of the first field, a lead makes them the same. -/
theorem lead_same {m m' : Mode} {lead : List Char}
    (h : Same m m' ∨ Alike m m' ∧ StartsDelimited lead) :
    Same (after m lead) (after m' lead) ∧ skeleton (emitted m lead) = skeleton (emitted m' lead) := by
  rcases h with h | ⟨h, hlead⟩
  · exact h.text lead
  · exact h.text hlead

/-- Whether the strings are literals depends on the leads only. -/
theorem sound_iff_soundNames {m m' : Mode} {fields : List Field}
    (h : Same m m' ∨ Alike m m' ∧ ∀ f ∈ fields, StartsDelimited f.1)
    (hends : ∀ f ∈ fields, EndsDelimited f.1) (hstarts : ∀ f ∈ fields.tail, StartsDelimited f.1)
    (hconst : ∀ f ∈ fields, f.2.Constant) : Sound m fields ↔ SoundNames m' fields := by
  induction fields generalizing m m' with
  | nil => exact Iff.rfl
  | cons f fields ih =>
    obtain ⟨lead, v⟩ := f
    have hlead : Same (after m lead) (after m' lead) :=
      (lead_same (h.imp id fun h => ⟨h.1, h.2 (lead, v) (by simp)⟩)).1
    have hsound : v.Sound (after m lead) ↔ v.Sound (after m' lead) := by
      unfold Value.Sound
      rw [hlead.isOpen]
    simp only [Sound, SoundNames, hsound]
    refine and_congr_right fun hv => ?_
    have hvalue := value_alike hlead (after_delimited m (hends (lead, v) (by simp))) v.compatible_blank
      (hconst (lead, v) (by simp)) v.constant_blank (hsound.mpr hv) (v.sound_blank _)
    refine ih (Or.inr ⟨hvalue.1, hstarts⟩) (fun f hf => hends f (List.mem_cons_of_mem _ hf))
      (fun f hf => hstarts f ?_) fun f hf => hconst f (List.mem_cons_of_mem _ hf)
    exact List.mem_of_mem_tail hf

/-- Statements whose fields have the same leads and compatible values have the same tokens but for the
constants. -/
theorem skeleton_from {m m' : Mode} {fields fields' : List Field} {tail : List Char}
    (hff : List.Forall₂ (fun f f' => f.1 = f'.1 ∧ f.2.Compatible f'.2) fields fields')
    (h : Same m m' ∨ Alike m m' ∧ (∀ f ∈ fields, StartsDelimited f.1) ∧
      (tail = [] ∨ StartsDelimited tail))
    (hs : Spaced fields tail) (hconst : ∀ f ∈ fields, f.2.Constant)
    (hconst' : ∀ f ∈ fields', f.2.Constant) (hsound : Sound m fields) (hsound' : Sound m' fields') :
    skeleton (tokensFrom m (textOf fields tail)) = skeleton (tokensFrom m' (textOf fields' tail)) := by
  induction hff generalizing m m' with
  | nil =>
    simp only [textOf, tokensFrom, skeleton_append]
    rcases h with h | ⟨h, -, rfl | htail⟩
    · obtain ⟨h1, h2⟩ := h.text tail
      rw [h2, Alike.finish (Or.inl h1)]
    · rw [after, after, h.finish]
      rfl
    · obtain ⟨h1, h2⟩ := h.text htail
      rw [h2, Alike.finish (Or.inl h1)]
  | @cons f f' fields fields' hf hff ih =>
    obtain ⟨lead, v⟩ := f
    obtain ⟨lead', v'⟩ := f'
    obtain ⟨rfl, hvv⟩ : lead = lead' ∧ v.Compatible v' := hf
    obtain ⟨hlead, hskel⟩ := lead_same (h.imp id fun h => ⟨h.1, h.2.1 (lead, v) (by simp)⟩)
    obtain ⟨hv, hrest⟩ := hsound
    obtain ⟨hv', hrest'⟩ := hsound'
    obtain ⟨hvalue, hskel'⟩ := value_alike hlead (after_delimited m (hs.ends (lead, v) (by simp))) hvv
      (hconst (lead, v) (by simp)) (hconst' (lead, v') (by simp)) hv hv'
    have hspaced : Spaced fields tail :=
      ⟨fun f hf => hs.ends f (List.mem_cons_of_mem _ hf),
        fun f hf => hs.starts f (List.mem_of_mem_tail hf), hs.tail⟩
    have ih' := ih (Or.inr ⟨hvalue, hs.starts, hs.tail⟩) hspaced
      (fun f hf => hconst f (List.mem_cons_of_mem _ hf))
      (fun f hf => hconst' f (List.mem_cons_of_mem _ hf)) hrest hrest'
    simp only [textOf, List.append_assoc, tokensFrom_append, skeleton_append]
    rw [hskel, hskel', ih']

theorem EndsDelimited.getLast {t u : List Char} (h : EndsDelimited u) : (t ++ u).getLast? ≠ some '"' := by
  obtain ⟨u, c, rfl, hc⟩ := h
  have hq := (delimiter_spec hc).1
  simpa [← List.append_assoc] using hq

theorem StartsDelimited.head {t : List Char} (h : StartsDelimited t) (u : List Char) :
    (t ++ u).head? ≠ some '"' := by
  obtain ⟨c, t, rfl, hc⟩ := h
  have hq := (delimiter_spec hc).1
  simpa using hq

/-- **The strings of a statement** are its literals exactly when each is clean and the names before it
leave no literal open. -/
theorem areLiterals_iff {fields : List Field} {tail : List Char} (hs : Spaced fields tail)
    (hconst : ∀ f ∈ fields, f.2.Constant) :
    AreLiterals fields tail (textOf fields tail) ↔ SoundNames (.plain []) fields := by
  rw [← sound_iff_soundNames (Or.inl (Same.refl (.plain []))) hs.ends hs.starts hconst, sound_iff]
  refine forall_congr' fun pre => forall_congr' fun lead => forall_congr' fun s => forall_congr' fun post =>
    forall_congr' fun heq => ?_
  subst heq
  have htext : textOf (pre ++ (lead, .string s) :: post) tail =
      textOf pre lead ++ ('"' :: s ++ ['"']) ++ textOf post tail := by
    rw [textOf_append, textOf, Value.text, textOf_append_tail, textOf_append_tail]
  have hb : (textOf pre lead).getLast? ≠ some '"' := by
    have hlead := hs.ends (lead, .string s) (by simp)
    rw [← List.nil_append lead, textOf_append_tail]
    exact hlead.getLast
  have hr : (textOf post tail).head? ≠ some '"' := by
    cases post with
    | nil =>
      rcases hs.tail with rfl | htail
      · simp [textOf]
      · simpa [textOf] using htail.head []
    | cons g post =>
      obtain ⟨lead', v⟩ := g
      have hstart : StartsDelimited lead' := hs.starts (lead', v) (by cases pre <;> simp)
      rw [textOf, List.append_assoc]
      exact hstart.head _
  rw [htext]
  exact tokens_quote_iff hb hr

/-- **The other tokens of a statement** do not depend on its values. -/
theorem skeleton_eq {fields fields' : List Field} {tail : List Char}
    (hff : List.Forall₂ (fun f f' => f.1 = f'.1 ∧ f.2.Compatible f'.2) fields fields')
    (hs : Spaced fields tail) (hs' : Spaced fields' tail) (hconst : ∀ f ∈ fields, f.2.Constant)
    (hconst' : ∀ f ∈ fields', f.2.Constant) (hsound : SoundNames (.plain []) fields)
    (hsound' : SoundNames (.plain []) fields') :
    skeleton (tokens (textOf fields tail)) = skeleton (tokens (textOf fields' tail)) := by
  have hsame := Same.refl (.plain [])
  exact skeleton_from hff (Or.inl hsame) hs hconst hconst'
    ((sound_iff_soundNames (Or.inl hsame) hs.ends hs.starts hconst).mpr hsound)
    ((sound_iff_soundNames (Or.inl hsame) hs'.ends hs'.starts hconst').mpr hsound')

/-- The text has no quote. -/
def Quoteless (t : List Char) : Prop := '"' ∉ t

instance (t : List Char) : Decidable (Quoteless t) := inferInstanceAs (Decidable ('"' ∉ t))

theorem Quoteless.append {s t : List Char} (hs : Quoteless s) (ht : Quoteless t) : Quoteless (s ++ t) :=
  fun h => (List.mem_append.mp h).elim hs ht

/-- A text without quotes opens no literal. -/
theorem after_quoteless {m : Mode} (hm : m.isOpen = false) {t : List Char} (h : Quoteless t) :
    (after m t).isOpen = false := by
  induction t generalizing m with
  | nil => exact hm
  | cons c t ih =>
    have hc : c ≠ '"' := fun hc => h (hc ▸ List.mem_cons_self)
    have hplain : ∀ w, (plainStep w c).2.isOpen = false := by
      intro w
      simp only [plainStep, hc, if_false]
      split_ifs <;> rfl
    refine ih ?_ fun ht => h (List.mem_cons_of_mem c ht)
    cases m with
    | plain w => exact hplain w
    | closing r v => simpa [step, hc] using hplain []
    | inside r v | escaped r v => simp [Mode.isOpen] at hm

/-- Clean strings behind leads without quotes are literals. -/
theorem soundNames_of_quoteless {m : Mode} (hm : m.isOpen = false) {fields : List Field}
    (hends : ∀ f ∈ fields, EndsDelimited f.1) (hleads : ∀ f ∈ fields, Quoteless f.1)
    (hclean : ∀ f ∈ fields, ∀ s, f.2 = .string s → clean s = true) : SoundNames m fields := by
  induction fields generalizing m with
  | nil => trivial
  | cons f fields ih =>
    obtain ⟨lead, v⟩ := f
    have hopen : (after m lead).isOpen = false := after_quoteless hm (hleads (lead, v) (by simp))
    have hplain : after m lead = .plain [] := by
      rcases after_delimited m (hends (lead, v) (by simp)) with h | ⟨r, w, h⟩
      · exact h
      · simp [h, Mode.isOpen] at hopen
    refine ⟨fun s hs => ⟨hclean (lead, v) (by simp) s hs, hopen⟩, ih ?_
      (fun f hf => hends f (List.mem_cons_of_mem _ hf)) (fun f hf => hleads f (List.mem_cons_of_mem _ hf))
      fun f hf => hclean f (List.mem_cons_of_mem _ hf)⟩
    have hblank := (value_plain v.constant_blank (v.sound_blank _)).1
    rw [hplain]
    cases hafter : after (.plain []) v.blank.text with
    | plain w | closing r w => rfl
    | inside r w | escaped r w => simp [hafter, Complete] at hblank

/-! ### Lists of values -/

section FieldsOf

variable {ι : Type}

/-- The fields of a list: `lead` before the first and `sep` before the others, then the name of each. -/
def fieldsOf (name : ι → List Char) (value : ι → Value) (sep : List Char) :
    List Char → List ι → List Field
  | _, [] => []
  | lead, i :: is => (lead ++ name i, value i) :: fieldsOf name value sep sep is

theorem textOf_fieldsOf (name : ι → List Char) (value : ι → Value) (sep lead : List Char) (is : List ι)
    (j : ι) (tail : List Char) :
    textOf (fieldsOf name value sep lead (is ++ [j])) tail =
      lead ++ is.flatMap (fun i => name i ++ (value i).text ++ sep) ++ name j ++ (value j).text ++ tail := by
  induction is generalizing lead with
  | nil => simp [fieldsOf, textOf]
  | cons i is ih => simp [fieldsOf, textOf, ih]

variable {name : ι → List Char} {value : ι → Value} {sep lead : List Char} {is : List ι}

theorem mem_fieldsOf {f : Field} (h : f ∈ fieldsOf name value sep lead is) :
    ∃ i ∈ is, f.2 = value i ∧ (f.1 = lead ++ name i ∨ f.1 = sep ++ name i) := by
  induction is generalizing lead with
  | nil => simp [fieldsOf] at h
  | cons i is ih =>
    rcases List.mem_cons.mp h with rfl | h
    · exact ⟨i, by simp, rfl, Or.inl rfl⟩
    · obtain ⟨j, hj, hv, hname⟩ := ih h
      exact ⟨j, List.mem_cons_of_mem i hj, hv, Or.inr (hname.elim id id)⟩

theorem mem_tail_fieldsOf {f : Field} (h : f ∈ (fieldsOf name value sep lead is).tail) :
    ∃ i, f.1 = sep ++ name i := by
  cases is with
  | nil => simp [fieldsOf] at h
  | cons i is =>
    obtain ⟨j, -, -, hname⟩ := mem_fieldsOf (show f ∈ fieldsOf name value sep sep is from h)
    exact ⟨j, hname.elim id id⟩

theorem StartsDelimited.append {t : List Char} (h : StartsDelimited t) (u : List Char) :
    StartsDelimited (t ++ u) := by
  obtain ⟨c, t, rfl, hc⟩ := h
  exact ⟨c, t ++ u, rfl, hc⟩

theorem EndsDelimited.append {u : List Char} (h : EndsDelimited u) (t : List Char) :
    EndsDelimited (t ++ u) := by
  obtain ⟨u, c, rfl, hc⟩ := h
  exact ⟨t ++ u, c, by simp, hc⟩

theorem spaced_fieldsOf (hlead : ∀ i, EndsDelimited (lead ++ name i))
    (hsep : ∀ i, EndsDelimited (sep ++ name i)) (hstart : StartsDelimited sep) {tail : List Char}
    (htail : tail = [] ∨ StartsDelimited tail) : Spaced (fieldsOf name value sep lead is) tail where
  ends f hf := by
    obtain ⟨i, -, -, h | h⟩ := mem_fieldsOf hf
    · exact h ▸ hlead i
    · exact h ▸ hsep i
  starts f hf := by
    obtain ⟨i, h⟩ := mem_tail_fieldsOf hf
    exact h ▸ hstart.append (name i)
  tail := htail

theorem constant_fieldsOf (h : ∀ i, (value i).Constant) :
    ∀ f ∈ fieldsOf name value sep lead is, f.2.Constant := by
  intro f hf
  obtain ⟨i, -, hv, -⟩ := mem_fieldsOf hf
  exact hv ▸ h i

theorem forall₂_fieldsOf {value' : ι → Value} (h : ∀ i, (value i).Compatible (value' i)) :
    List.Forall₂ (fun f f' => f.1 = f'.1 ∧ f.2.Compatible f'.2) (fieldsOf name value sep lead is)
      (fieldsOf name value' sep lead is) := by
  induction is generalizing lead with
  | nil => exact .nil
  | cons i is ih => exact .cons ⟨rfl, h i⟩ ih

theorem quoteless_fieldsOf (hlead : Quoteless lead) (hsep : Quoteless sep)
    (hname : ∀ i ∈ is, Quoteless (name i)) : ∀ f ∈ fieldsOf name value sep lead is, Quoteless f.1 := by
  intro f hf
  obtain ⟨i, hi, -, h | h⟩ := mem_fieldsOf hf
  · exact h ▸ hlead.append (hname i hi)
  · exact h ▸ hsep.append (hname i hi)

theorem clean_fieldsOf (h : ∀ i s, value i = .string s → clean s = true) :
    ∀ f ∈ fieldsOf name value sep lead is, ∀ s, f.2 = .string s → clean s = true := by
  intro f hf s hs
  obtain ⟨i, -, hv, -⟩ := mem_fieldsOf hf
  exact h i s (hv ▸ hs)

end FieldsOf

/-- Fields behind fields. -/
theorem Spaced.append {fields fields' : List Field} {tail : List Char} (h : Spaced fields [])
    (h' : Spaced fields' tail) (hstart : ∀ f ∈ fields', StartsDelimited f.1) :
    Spaced (fields ++ fields') tail where
  ends f hf := (List.mem_append.mp hf).elim (h.ends f) (h'.ends f)
  starts f hf := by
    cases fields with
    | nil => exact hstart f (List.mem_of_mem_tail hf)
    | cons g fields =>
      rcases List.mem_append.mp hf with hf | hf
      · exact h.starts f hf
      · exact hstart f hf
  tail := h'.tail

end DataSync.Lib.Literals
