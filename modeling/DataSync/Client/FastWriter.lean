import DataSync.Client.JsonReader

/-! # The writer of `jsoncpp` and its reader

`Json::FastWriter::write` prints a value on one line. `parse_write`: the reader gives the value back, from
whatever stands behind it in the buffer, except that a small integer comes back as an `intValue` and a
large one as a `uintValue`, and a double that `%.17g` prints without a point and an exponent as the integer of
its digits (`reread`). `parse_write_parse`: what the reader gave is printed to a text that is read to the same
value, such doubles apart. Of the C library nothing is assumed but that `%.17g` prints a double as `%g` does
(`GText`), with fewer than eighteen digits where there are digits only, and that a stream reads it back
(`ReadsBack`). -/

namespace DataSync.Client.FastWriter

open DataSync.Client.BuildFinally (Text lit Json DoubleFormat uintToString intToString ok_bind)
open DataSync.Client.JsonReader

/-! ### The code -/

/-- `isControlCharacter`. -/
def isControlCharacter (ch : Char) : Bool := 0 < ch.toNat && ch.toNat ≤ 0x1F

/-- The characters a string is searched for: those of `strnpbrk` and of `containsControlCharacter0`. -/
def isEscaped (c : Char) : Bool :=
  c = '"' || c = '\\' || c = '\x08' || c = '\x0c' || c = '\n' || c = '\r' || c = '\t' ||
    isControlCharacter c || c = '\x00'

/-- A character of an escaped string. -/
def escape (c : Char) : Text :=
  if c = '"' then ['\\', '"']
  else if c = '\\' then ['\\', '\\']
  else if c = '\x08' then ['\\', 'b']
  else if c = '\x0c' then ['\\', 'f']
  else if c = '\n' then ['\\', 'n']
  else if c = '\r' then ['\\', 'r']
  else if c = '\t' then ['\\', 't']
  else if isControlCharacter c ∨ c = '\x00' then
    ['\\', 'u'] ++ ((Nat.toDigits 16 c.toNat).map Char.toUpper).leftpad 4 '0'
  else [c]

/-- `valueToQuotedStringN`. The string that needs no escapes is taken up to its terminator. -/
def valueToQuotedStringN (value : Text) : Text :=
  if value.all fun c => !isEscaped c then '"' :: value.takeWhile (· ≠ '\x00') ++ ['"']
  else '"' :: value.flatMap escape ++ ['"']

section
variable {ρ : Type} (F : DoubleFormat ρ)

mutual

/-- `writeValue`. -/
def writeValue : Json ρ → Text
  | .null => lit "null"
  | .int i => intToString i
  | .uint n => uintToString n
  | .real r => F.g17 r
  | .string s => valueToQuotedStringN s
  | .bool b => if b then lit "true" else lit "false"
  | .array items => '[' :: writeItems items ++ [']']
  | .object members => '{' :: writeMembers members ++ ['\x7d']

/-- The loop over the elements of an array. -/
def writeItems : List (Json ρ) → Text
  | [] => []
  | [v] => writeValue v
  | v :: w :: items => writeValue v ++ ',' :: writeItems (w :: items)

/-- The loop over the members of an object. -/
def writeMembers : List (Text × Json ρ) → Text
  | [] => []
  | [(name, v)] => valueToQuotedStringN name ++ ':' :: writeValue v
  | (name, v) :: m :: members =>
    valueToQuotedStringN name ++ ':' :: writeValue v ++ ',' :: writeMembers (m :: members)

end

/-- `write`. -/
def write (root : Json ρ) : Text := writeValue F root ++ ['\n']

/-- The number that a text stands for, if it consists of digits, with a sign perhaps. -/
def integerOf (s : Text) : Option ℤ :=
  let digits := if s.head? = some '-' then s.drop 1 else s
  if digits.all isDigit then
    some (if s.head? = some '-' then -(Nat.ofDigitChars 10 digits 0 : ℤ) else Nat.ofDigitChars 10 digits 0)
  else none

/-- The value an integer is read as. -/
def rereadInt (i : ℤ) : Json ρ := if i ≤ maxInt then .int i else .uint i.toNat

mutual

/-- The value as it is read back. -/
def reread : Json ρ → Json ρ
  | .int i => rereadInt i
  | .uint n => rereadInt n
  | .real r =>
    match integerOf (F.g17 r) with
    | some i => rereadInt i
    | none => .real r
  | .array items => .array (rereadItems items)
  | .object members => .object (rereadMembers members)
  | .null => .null
  | .string s => .string s
  | .bool b => .bool b

def rereadItems : List (Json ρ) → List (Json ρ)
  | [] => []
  | v :: items => reread v :: rereadItems items

def rereadMembers : List (Text × Json ρ) → List (Text × Json ρ)
  | [] => []
  | (name, v) :: members => (name, reread v) :: rereadMembers members

end

end

/-! ### Strings -/

theorem escape_plain {c : Char} (h : isEscaped c = false) : escape c = [c] := by
  simp only [isEscaped, Bool.or_eq_false_iff, decide_eq_false_iff_not] at h
  obtain ⟨⟨⟨⟨⟨⟨⟨⟨h1, h2⟩, h3⟩, h4⟩, h5⟩, h6⟩, h7⟩, h8⟩, h9⟩ := h
  simp [escape, h1, h2, h3, h4, h5, h6, h7, h8, h9]

/-- The short way agrees with the long one. -/
theorem valueToQuotedStringN_eq (value : Text) :
    valueToQuotedStringN value = '"' :: value.flatMap escape ++ ['"'] := by
  unfold valueToQuotedStringN
  split_ifs with h
  · have hplain : ∀ c ∈ value, isEscaped c = false := by simpa using h
    have htake : value.takeWhile (· ≠ '\x00') = value := by
      refine List.takeWhile_eq_self_iff.mpr fun c hc => ?_
      have := hplain c hc
      simp only [isEscaped, Bool.or_eq_false_iff, decide_eq_false_iff_not] at this
      simpa using this.2
    have hescape : value.flatMap escape = value := by
      clear h htake
      induction value with
      | nil => rfl
      | cons c value ih =>
        rw [List.flatMap_cons, escape_plain (hplain c List.mem_cons_self),
          ih fun c hc => hplain c (List.mem_cons_of_mem _ hc), List.singleton_append]
    rw [htake, hescape]
  · rfl

/-- The digits behind `\u`. -/
def hex4 (c : Char) : Text := ((Nat.toDigits 16 c.toNat).map Char.toUpper).leftpad 4 '0'

theorem hex4_eq : ∀ k < 32, hex4 (Char.ofNat k) =
    ['0', '0', Nat.digitChar (k / 16), (Nat.digitChar (k % 16)).toUpper] := by decide

theorem digitChar_spec : ∀ k < 16, hexDigit (Nat.digitChar k).toUpper = some k ∧
    (Nat.digitChar k).toUpper ≠ '"' ∧ (Nat.digitChar k).toUpper ≠ '\\' := by decide

theorem hex4_spec {c : Char} (h : c.toNat < 32) :
    hexDigits 0 (hex4 c) = .ok c.toNat ∧ (hex4 c).length = 4 ∧ ∀ x ∈ hex4 c, x ≠ '"' ∧ x ≠ '\\' := by
  have heq := hex4_eq c.toNat h
  rw [Char.ofNat_toNat] at heq
  have hupper : Nat.digitChar (c.toNat / 16) = (Nat.digitChar (c.toNat / 16)).toUpper := by
    have : ∀ k < 2, Nat.digitChar k = (Nat.digitChar k).toUpper := by decide
    exact this _ (by omega)
  rw [hupper] at heq
  obtain ⟨h1, h1', h1''⟩ := digitChar_spec (c.toNat / 16) (by omega)
  obtain ⟨h2, h2', h2''⟩ := digitChar_spec (c.toNat % 16) (by omega)
  have h0 : hexDigit '0' = some 0 := by decide
  refine ⟨?_, by rw [heq]; rfl, ?_⟩
  · rw [heq]
    simp only [hexDigits, h0, h1, h2]
    exact congrArg _ (by omega)
  · rw [heq]
    simp [h1', h1'', h2', h2'']

/-- A character is printed as itself, as a backslash with a letter, or with its number. -/
theorem escape_cases (c : Char) :
    (escape c = [c] ∧ c ≠ '"' ∧ c ≠ '\\') ∨
      (∃ e, escape c = ['\\', e] ∧ e ≠ 'u' ∧ simpleEscape e = some c) ∨
      (escape c = '\\' :: 'u' :: hex4 c ∧ c.toNat < 32) := by
  by_cases hplain : isEscaped c = false
  · refine .inl ⟨escape_plain hplain, ?_, ?_⟩ <;> rintro rfl <;> exact absurd hplain (by decide)
  by_cases hsimple : c = '"' ∨ c = '\\' ∨ c = '\x08' ∨ c = '\x0c' ∨ c = '\n' ∨ c = '\r' ∨ c = '\t'
  · refine .inr (.inl ?_)
    obtain rfl | rfl | rfl | rfl | rfl | rfl | rfl := hsimple
    exacts [⟨'"', by decide⟩, ⟨'\\', by decide⟩, ⟨'b', by decide⟩, ⟨'f', by decide⟩, ⟨'n', by decide⟩,
      ⟨'r', by decide⟩, ⟨'t', by decide⟩]
  · push Not at hsimple
    obtain ⟨h1, h2, h3, h4, h5, h6, h7⟩ := hsimple
    have hcontrol : isControlCharacter c = true ∨ c = '\x00' := by
      simpa [isEscaped, h1, h2, h3, h4, h5, h6, h7, or_iff_not_imp_left] using hplain
    refine .inr (.inr ⟨?_, ?_⟩)
    · simp [escape, h1, h2, h3, h4, h5, h6, h7, hcontrol, hex4]
    · obtain h | rfl := hcontrol
      · simp only [isControlCharacter, Bool.and_eq_true, decide_eq_true_eq] at h
        omega
      · decide

theorem readString_cons {c : Char} (h1 : c ≠ '"') (h2 : c ≠ '\\') {t : Text} (ht : t ≠ []) :
    readString (c :: t) = readString t := by
  rcases t with _ | ⟨c', t⟩
  · exact absurd rfl ht
  · simp [readString, h1, h2]

theorem readString_append {s t : Text} (h : ∀ c ∈ s, c ≠ '"' ∧ c ≠ '\\') (ht : t ≠ []) :
    readString (s ++ t) = readString t := by
  induction s with
  | nil => rfl
  | cons c s ih =>
    obtain ⟨h1, h2⟩ := h c List.mem_cons_self
    rw [List.cons_append, readString_cons h1 h2 (by simp [ht]), ih fun c hc => h c (List.mem_cons_of_mem _ hc)]

theorem readString_escape (c : Char) {t : Text} (ht : t ≠ []) :
    readString (escape c ++ t) = readString t := by
  obtain ⟨h, h1, h2⟩ | ⟨e, h, -, -⟩ | ⟨h, hc⟩ := escape_cases c
  · rw [h]
    exact readString_cons h1 h2 ht
  · rw [h]
    simp [readString]
  · rw [h]
    simp only [List.cons_append, readString, ↓reduceIte]
    exact readString_append (hex4_spec hc).2.2 ht

/-- The token of a string ends at its closing quote. -/
theorem readString_flatMap (s r : Text) : readString (s.flatMap escape ++ '"' :: r) = (true, r) := by
  induction s with
  | nil => rcases r with _ | ⟨c, r⟩ <;> simp [readString]
  | cons c s ih => rw [List.flatMap_cons, List.append_assoc, readString_escape c (by simp), ih]

theorem decodeChars_escape (n : ℕ) (decoded t : Text) (c : Char) :
    decodeChars (n + 1) decoded (escape c ++ t) = decodeChars n (decoded ++ [c]) t := by
  obtain ⟨h, h1, h2⟩ | ⟨e, h, he, hs⟩ | ⟨h, hc⟩ := escape_cases c
  · rw [h]
    simp [decodeChars, h1, h2]
  · rw [h]
    simp [decodeChars, he, hs]
  · obtain ⟨hdigits, hlen, -⟩ := hex4_spec hc
    have hunicode : decodeUnicodeCodePoint (hex4 c ++ t) = .ok (c.toNat, t) := by
      have hle : ¬ (hex4 c ++ t).length < 4 := by simp [hlen]
      have hseq : decodeUnicodeEscapeSequence (hex4 c ++ t) = .ok (c.toNat, t) := by
        rw [decodeUnicodeEscapeSequence, if_neg hle, List.take_left' hlen, List.drop_left' hlen, hdigits]
        rfl
      rw [decodeUnicodeCodePoint, hseq]
      change (if 0xD800 ≤ c.toNat ∧ c.toNat ≤ 0xDBFF then _ else _) = _
      rw [if_neg (by omega)]
      rfl
    have hutf : codePointToUTF8 c.toNat = [c] := by
      rw [codePointToUTF8, if_pos (by omega), Char.ofNat_toNat]
    rw [h]
    simp only [List.cons_append, decodeChars, ↓reduceIte, hunicode]
    rw [if_neg (by decide)]
    change decodeChars n (decoded ++ codePointToUTF8 c.toNat) t = _
    rw [hutf]

theorem decodeChars_flatMap {n : ℕ} {s : Text} (h : s.length ≤ n) (decoded : Text) :
    decodeChars n decoded (s.flatMap escape) = .ok (decoded ++ s) := by
  induction s generalizing n decoded with
  | nil => rcases n with _ | n <;> simp [decodeChars]
  | cons c s ih =>
    obtain ⟨n, rfl⟩ : ∃ m, n = m + 1 := ⟨n - 1, by simp only [List.length_cons] at h; omega⟩
    rw [List.flatMap_cons, decodeChars_escape, ih (by simpa using h), List.append_assoc,
      List.singleton_append]

/-! ### Tokens -/

/-- The number ends here. -/
def EndsNumber (r : Text) : Prop :=
  ∀ c ∈ r.head?, isDigit c = false ∧ c ≠ '.' ∧ c ≠ 'e' ∧ c ≠ 'E'

/-- The text of a number: `readNumber` reads it to its end. -/
def NumberText (s : Text) : Prop :=
  ∃ c t, s = c :: t ∧ (isDigit c = true ∨ c = '-') ∧ ∀ r, EndsNumber r → readNumber (t ++ r) = r

theorem skipSpaces_cons {c : Char} (h : isSpace c = false) (t : Text) : skipSpaces (c :: t) = c :: t := by
  simp [skipSpaces, h]

/-- A token from its first character. -/
theorem readToken_cons {c : Char} {t s r : Text} {type : TokenType} (hspace : isSpace c = false)
    (hs : t = s ++ r) (h : scanChar c t = (type, r)) : readToken (c :: t) = (⟨type, c :: s⟩, r) := by
  subst hs
  have hlen : (c :: (s ++ r)).length - r.length = (c :: s).length := by
    simp only [List.length_cons, List.length_append]
    omega
  simp only [readToken, skipSpaces_cons hspace, scan, h, hlen, Prod.mk.injEq, Token.mk.injEq, true_and,
    and_true]
  rw [← List.cons_append]
  exact List.take_left

theorem skipCommentTokens_of_readToken {s r : Text} {token : Token} (h : readToken s = (token, r))
    (htype : token.type ≠ .comment) : skipCommentTokens s = (token, r) := by
  unfold skipCommentTokens
  rcases s.length with _ | n
  · exact h
  · simp only [skipComments, h, if_neg htype]

theorem isDigit_ne {c : Char} (h : isDigit c = true ∨ c = '-') (x : Char) (hx : isDigit x = false)
    (hx' : x ≠ '-') : c ≠ x := by
  rintro rfl
  obtain h | h := h
  · rw [h] at hx
    exact absurd hx (by simp)
  · exact hx' h

theorem readToken_number {s r : Text} (h : NumberText s) (hr : EndsNumber r) :
    readToken (s ++ r) = (⟨.number, s⟩, r) := by
  obtain ⟨c, t, rfl, hc, hread⟩ := h
  have hne := isDigit_ne hc
  refine readToken_cons ?_ rfl ?_
  · simp [isSpace, hne ' ' (by decide) (by decide), hne '\t' (by decide) (by decide),
      hne '\r' (by decide) (by decide), hne '\n' (by decide) (by decide)]
  · rw [scanChar, if_neg (hne _ (by decide) (by decide)), if_neg (hne _ (by decide) (by decide)),
      if_neg (hne _ (by decide) (by decide)), if_neg (hne _ (by decide) (by decide)),
      if_neg (hne _ (by decide) (by decide)), if_neg (hne _ (by decide) (by decide)), if_pos hc]
    exact congrArg (Prod.mk _) (hread r hr)

theorem dropWhile_digits {ds r : Text} (hds : ∀ c ∈ ds, isDigit c = true) (hr : ∀ c ∈ r.head?, isDigit c = false) :
    (ds ++ r).dropWhile isDigit = r := by
  rw [List.dropWhile_append_of_pos hds]
  rcases r with _ | ⟨c, r⟩
  · rfl
  · simp [hr c rfl]

theorem readExponent_ends {r : Text} (hr : EndsNumber r) : readExponent r = r := by
  rcases r with _ | ⟨c, r⟩
  · rfl
  · obtain ⟨-, -, he, hE⟩ := hr c rfl
    rw [readExponent, if_neg (not_or.mpr ⟨he, hE⟩)]

/-- A fraction, if there is one. -/
def Fraction (s : Text) : Prop := s = [] ∨ ∃ ds, s = '.' :: ds ∧ ∀ c ∈ ds, isDigit c = true

/-- An exponent, if there is one. -/
def Exponent (s : Text) : Prop :=
  s = [] ∨ ∃ sign ds, s = 'e' :: sign :: ds ∧ (sign = '+' ∨ sign = '-') ∧ ∀ c ∈ ds, isDigit c = true

theorem readExponent_append {exponent r : Text} (h : Exponent exponent) (hr : EndsNumber r) :
    readExponent (exponent ++ r) = r := by
  obtain rfl | ⟨sign, ds, rfl, hsign, hds⟩ := h
  · rw [List.nil_append, readExponent_ends hr]
  · rw [List.cons_append, List.cons_append, readExponent, if_pos (.inl rfl), readSign, if_pos hsign]
    exact dropWhile_digits hds fun c hc => (hr c hc).1

theorem readFraction_append {fraction exponent r : Text} (h : Fraction fraction) (he : Exponent exponent)
    (hr : EndsNumber r) : readFraction (fraction ++ (exponent ++ r)) = exponent ++ r := by
  have hhead : ∀ c ∈ (exponent ++ r).head?, isDigit c = false ∧ c ≠ '.' := by
    obtain rfl | ⟨sign, ds, rfl, -, -⟩ := he
    · exact fun c hc => ⟨(hr c hc).1, (hr c hc).2.1⟩
    · intro c hc
      obtain rfl : 'e' = c := by simpa using hc
      decide
  obtain rfl | ⟨ds, rfl, hds⟩ := h
  · rw [List.nil_append]
    rcases hs : exponent ++ r with _ | ⟨c, s⟩
    · rfl
    · rw [readFraction, if_neg (hhead c (by rw [hs]; rfl)).2]
  · rw [List.cons_append, readFraction, if_pos rfl]
    exact dropWhile_digits hds fun c hc => (hhead c hc).1

/-- The digits, the fraction and the exponent of a number are read. -/
theorem readNumber_append {ds fraction exponent r : Text} (hds : ∀ c ∈ ds, isDigit c = true)
    (hf : Fraction fraction) (he : Exponent exponent) (hr : EndsNumber r) :
    readNumber (ds ++ (fraction ++ (exponent ++ r))) = r := by
  have hstop : ∀ c ∈ (fraction ++ (exponent ++ r)).head?, isDigit c = false := by
    intro c hc
    obtain rfl | ⟨fs, rfl, -⟩ := hf
    · obtain rfl | ⟨sign, es, rfl, -, -⟩ := he
      · exact (hr c hc).1
      · obtain rfl : 'e' = c := by simpa using hc
        decide
    · obtain rfl : '.' = c := by simpa using hc
      decide
  rw [readNumber, dropWhile_digits hds hstop, readFraction_append hf he hr, readExponent_append he hr]

theorem readNumber_digits {ds r : Text} (hds : ∀ c ∈ ds, isDigit c = true) (hr : EndsNumber r) :
    readNumber (ds ++ r) = r := by
  change readNumber (ds ++ ([] ++ ([] ++ r))) = r
  exact readNumber_append hds (.inl rfl) (.inl rfl) hr

/-- What `%g` prints for a finite double: digits, a fraction perhaps and an exponent perhaps, behind a sign
perhaps. -/
def GText (s : Text) : Prop :=
  ∃ sign ds fraction exponent, s = sign ++ (ds ++ (fraction ++ exponent)) ∧ (sign = [] ∨ sign = ['-']) ∧ ds ≠ [] ∧
    (∀ c ∈ ds, isDigit c = true) ∧ Fraction fraction ∧ Exponent exponent

/-- The reader takes it for a number. -/
theorem GText.numberText {s : Text} (h : GText s) : NumberText s := by
  obtain ⟨sign, ds, fraction, exponent, rfl, rfl | rfl, hne, hds, hf, he⟩ := h
  · obtain ⟨c, ds, rfl⟩ := List.exists_cons_of_ne_nil hne
    refine ⟨c, ds ++ (fraction ++ exponent), rfl, .inl (hds c List.mem_cons_self), fun r hr => ?_⟩
    rw [List.append_assoc, List.append_assoc]
    exact readNumber_append (fun x hx => hds x (List.mem_cons_of_mem _ hx)) hf he hr
  · refine ⟨'-', ds ++ (fraction ++ exponent), rfl, .inr rfl, fun r hr => ?_⟩
    rw [List.append_assoc, List.append_assoc]
    exact readNumber_append hds hf he hr

theorem readToken_null (r : Text) : readToken (lit "null" ++ r) = (⟨.null, lit "null"⟩, r) := by
  have h : lit "null" = ['n', 'u', 'l', 'l'] := by decide
  rw [h]
  exact readToken_cons (by decide) rfl (by simp [scanChar, isDigit, matchPattern, whenOk, lit])

theorem readToken_true (r : Text) : readToken (lit "true" ++ r) = (⟨.true, lit "true"⟩, r) := by
  have h : lit "true" = ['t', 'r', 'u', 'e'] := by decide
  rw [h]
  exact readToken_cons (by decide) rfl (by simp [scanChar, isDigit, matchPattern, whenOk, lit])

theorem readToken_false (r : Text) : readToken (lit "false" ++ r) = (⟨.false, lit "false"⟩, r) := by
  have h : lit "false" = ['f', 'a', 'l', 's', 'e'] := by decide
  rw [h]
  exact readToken_cons (by decide) rfl (by simp [scanChar, isDigit, matchPattern, whenOk, lit])

theorem readToken_string (s r : Text) :
    readToken (valueToQuotedStringN s ++ r) = (⟨.string, valueToQuotedStringN s⟩, r) := by
  rw [valueToQuotedStringN_eq, List.cons_append, List.cons_append]
  refine readToken_cons (by decide) rfl ?_
  have : scanChar '"' (s.flatMap escape ++ ['"'] ++ r) =
      whenOk .string (readString (s.flatMap escape ++ ['"'] ++ r)) := by
    simp [scanChar]
  rw [this, List.append_assoc, List.singleton_append, readString_flatMap]
  rfl

theorem decodeString_token (s : Text) : decodeString ⟨.string, valueToQuotedStringN s⟩ = .ok s := by
  have hinner : ((valueToQuotedStringN s).drop 1).dropLast = s.flatMap escape := by
    rw [valueToQuotedStringN_eq, List.cons_append, List.drop_one, List.tail_cons, List.dropLast_concat]
  have hlen : s.length ≤ (valueToQuotedStringN s).length := by
    have hone : ∀ c, 1 ≤ (escape c).length := by
      intro c
      obtain ⟨h, -⟩ | ⟨e, h, -⟩ | ⟨h, -⟩ := escape_cases c <;> simp [h]
    have hle : s.length ≤ (s.flatMap escape).length := by
      induction s with
      | nil => simp
      | cons c s ih =>
        have := hone c
        simp only [List.flatMap_cons, List.length_append, List.length_cons]
        clear hinner
        have := ih (by rw [valueToQuotedStringN_eq]; simp)
        omega
    rw [valueToQuotedStringN_eq]
    simp only [List.length_append, List.length_cons]
    omega
  rw [decodeString]
  change decodeChars (valueToQuotedStringN s).length [] ((valueToQuotedStringN s).drop 1).dropLast = _
  rw [hinner, decodeChars_flatMap hlen, List.nil_append]

/-! ### Numbers -/

theorem isDigit_uintToString (n : ℕ) : ∀ c ∈ uintToString n, isDigit c = true := by
  intro c hc
  exact Nat.isDigit_of_mem_toDigits (by decide) (by decide) hc

theorem numberText_uintToString (n : ℕ) : NumberText (uintToString n) := by
  have hall := isDigit_uintToString n
  rcases hs : uintToString n with _ | ⟨c, t⟩
  · exact absurd hs Nat.toDigits_ne_nil
  · rw [hs] at hall
    exact ⟨c, t, rfl, .inl (hall c List.mem_cons_self), fun r hr =>
      readNumber_digits (fun x hx => hall x (List.mem_cons_of_mem _ hx)) hr⟩

theorem numberText_intToString (i : ℤ) : NumberText (intToString i) := by
  unfold intToString
  split_ifs with h
  · exact ⟨'-', _, rfl, .inr rfl, fun r hr => readNumber_digits (isDigit_uintToString _) hr⟩
  · exact numberText_uintToString _

/-- Digits of a number that fits are all read. -/
theorem decodeDigits_eq (maxIntegerValue value : ℕ) {s : Text} (hmax : 10 ≤ maxIntegerValue)
    (hs : ∀ c ∈ s, isDigit c = true) (h : Nat.ofDigitChars 10 s value ≤ maxIntegerValue) :
    decodeDigits maxIntegerValue value s = some (Nat.ofDigitChars 10 s value) := by
  induction s generalizing value with
  | nil => simp [decodeDigits]
  | cons c s ih =>
    rw [Nat.ofDigitChars_cons] at h ⊢
    have hbound : 10 ^ s.length * (10 * value + (c.toNat - '0'.toNat)) ≤ maxIntegerValue := by
      rw [Nat.ofDigitChars_eq_ofDigitChars_zero] at h
      exact (Nat.le_add_right _ _).trans h
    have hone : 10 * value + (c.toNat - '0'.toNat) ≤ maxIntegerValue :=
      (Nat.le_mul_of_pos_left _ (by positivity)).trans hbound
    have hgo : ¬ (maxIntegerValue / 10 ≤ value ∧ (maxIntegerValue / 10 < value ∨ s ≠ [] ∨
        maxIntegerValue % 10 < c.toNat - '0'.toNat)) := by
      rintro ⟨hle, hlt | hne | hlt⟩
      · omega
      · have hten : 10 ≤ 10 ^ s.length := by
          calc 10 = 10 ^ 1 := rfl
            _ ≤ 10 ^ s.length := Nat.pow_le_pow_right (by norm_num) (List.length_pos_iff.mpr hne)
        have hmul : 10 * (10 * value + (c.toNat - '0'.toNat)) ≤ maxIntegerValue :=
          (Nat.mul_le_mul_right _ hten).trans hbound
        omega
      · omega
    simp only [decodeDigits, hs c List.mem_cons_self, Bool.true_eq_false, ↓reduceIte]
    rw [if_neg hgo, Nat.mul_comm value 10]
    exact ih _ (fun x hx => hs x (List.mem_cons_of_mem _ hx)) h

section
variable {ρ : Type} (readDouble : Text → Option ρ)

theorem ofInteger_false (n : ℕ) : (ofInteger false n : Json ρ) = rereadInt n := by
  simp only [ofInteger, rereadInt, Bool.false_eq_true, if_false, Nat.cast_le, Int.toNat_natCast]

theorem decodeNumber_uint {n : ℕ} (h : n ≤ maxLargestUInt) :
    decodeNumber readDouble ⟨.number, uintToString n⟩ = .ok (rereadInt n : Json ρ) := by
  have hdigits := isDigit_uintToString n
  have hhead : (uintToString n).head? ≠ some '-' := by
    intro e
    have := hdigits '-' (List.mem_of_mem_head? (by simp [e]))
    exact absurd this (by decide)
  have hvalue : Nat.ofDigitChars 10 (uintToString n) 0 = n := Nat.ofDigitChars_toDigits (by decide) (by decide)
  have hread := decodeDigits_eq maxLargestUInt 0 (by decide) hdigits
    (by rw [hvalue]; exact h)
  rw [hvalue] at hread
  simp only [decodeNumber, hhead, ↓reduceIte, decide_false, hread, ofInteger_false]

/-- Anything else than digits is left to the stream. -/
theorem decodeDigits_none (maxIntegerValue value : ℕ) {s : Text} (hs : s.all isDigit = false) :
    decodeDigits maxIntegerValue value s = none := by
  induction s generalizing value with
  | nil => simp at hs
  | cons c s ih =>
    simp only [decodeDigits]
    split_ifs with hc
    · rfl
    · rfl
    · refine ih _ ?_
      rw [List.all_cons, Bool.and_eq_false_iff] at hs
      exact hs.resolve_left hc

theorem decodeNumber_int {i : ℤ} (h1 : -(maxLargestInt + 1) ≤ i) (h2 : i ≤ maxLargestInt) :
    decodeNumber readDouble ⟨.number, intToString i⟩ =
      .ok (rereadInt i : Json ρ) := by
  unfold rereadInt
  by_cases hneg : i < 0
  · rw [intToString, if_pos hneg, if_pos (by omega)]
    have hdigits := isDigit_uintToString i.natAbs
    have hvalue : Nat.ofDigitChars 10 (uintToString i.natAbs) 0 = i.natAbs :=
      Nat.ofDigitChars_toDigits (by decide) (by decide)
    have hread := decodeDigits_eq (maxLargestInt + 1) 0 (by decide) hdigits
      (by rw [hvalue]; omega)
    rw [hvalue] at hread
    simp only [decodeNumber, List.head?_cons, ↓reduceIte, decide_true, List.drop_one, List.tail_cons, hread,
      ofInteger]
    rw [show -(i.natAbs : ℤ) = i by omega]
  · rw [intToString, if_neg hneg, decodeNumber_uint readDouble (by unfold maxLargestInt at h2; unfold maxLargestUInt; omega)]
    rw [rereadInt, show (i.natAbs : ℤ) = i by omega]

/-! ### Values -/

variable (F : DoubleFormat ρ)

/-- What the C library does with a double: `%.17g` prints it as a number, with an exponent from `10 ^ 17` on, and
a stream reads that number as the double. -/
structure ReadsBack (r : ρ) : Prop where
  number : GText (F.g17 r)
  small : ∀ i ∈ integerOf (F.g17 r), i.natAbs < 10 ^ 17
  double : readDouble (F.g17 r) = some r

variable {readDouble F} in
/-- The reader looks for an integer first. -/
theorem decodeNumber_real {r : ρ} (h : ReadsBack readDouble F r) :
    decodeNumber readDouble ⟨.number, F.g17 r⟩ = .ok (reread F (.real r)) := by
  have hsmall := h.small
  have hdouble := h.double
  unfold decodeNumber reread
  generalize F.g17 r = s at hsmall hdouble ⊢
  unfold integerOf at hsmall ⊢
  by_cases hneg : s.head? = some '-'
  · simp only [hneg, if_true, decide_true] at hsmall ⊢
    cases hdigits : (s.drop 1).all isDigit with
    | false => simp only [decodeDigits_none _ _ hdigits, hdouble, Bool.false_eq_true, if_false]
    | true =>
      simp only [hdigits, if_true, Option.mem_def, Option.some.injEq, forall_eq'] at hsmall ⊢
      rw [decodeDigits_eq (maxLargestInt + 1) 0 (by decide) (List.all_eq_true.mp hdigits)
        (by unfold maxLargestInt; omega)]
      simp only [ofInteger, if_true, rereadInt]
      rw [if_pos (by omega)]
  · simp only [hneg, if_false, decide_false] at hsmall ⊢
    cases hdigits : s.all isDigit with
    | false => simp only [decodeDigits_none _ _ hdigits, hdouble, Bool.false_eq_true, if_false]
    | true =>
      simp only [hdigits, if_true, Option.mem_def, Option.some.injEq, forall_eq'] at hsmall ⊢
      rw [decodeDigits_eq maxLargestUInt 0 (by decide) (List.all_eq_true.mp hdigits)
        (by unfold maxLargestUInt; omega)]
      simp only [ofInteger_false]

/-- The leaves that are printed and read back: integers of 64 bits, and doubles the C library reads back. -/
def IsWritten : Json ρ → Prop
  | .int i => -(maxLargestInt + 1) ≤ i ∧ i ≤ maxLargestInt
  | .uint n => n ≤ maxLargestUInt
  | .real r => ReadsBack readDouble F r
  | _ => True

theorem endsNumber_cons {c : Char} (h : isDigit c = false ∧ c ≠ '.' ∧ c ≠ 'e' ∧ c ≠ 'E') (r : Text) :
    EndsNumber (c :: r) := by
  intro x hx
  obtain rfl := Option.some.inj hx
  exact h

theorem endsNumber_comma (r : Text) : EndsNumber (',' :: r) := endsNumber_cons (by decide) r

theorem endsNumber_bracket (r : Text) : EndsNumber (']' :: r) := endsNumber_cons (by decide) r

theorem endsNumber_brace (r : Text) : EndsNumber ('\x7d' :: r) := endsNumber_cons (by decide) r

theorem endsNumber_newline (r : Text) : EndsNumber ('\n' :: r) := endsNumber_cons (by decide) r

/-- `readValue` in so many steps reads the printed value, at so many open values. -/
def ReadsValue (d : ℕ) (v : Json ρ) : Prop :=
  ∀ (n : ℕ) (old : Json ρ) (r : Text) (errors : List ErrorInfo) (depth : ℕ),
    2 * (writeValue F v).length < n → depth + d ≤ stackLimit → EndsNumber r →
    readValue readDouble n old ⟨writeValue F v ++ r, errors, depth⟩ = .ok (true, reread F v, ⟨r, errors, depth⟩)

variable {readDouble F}

/-- A printed value begins with its first token. -/
theorem head_writeValue {d : ℕ} {v : Json ρ} (h : Built (IsWritten readDouble F) d v) :
    ∃ c t, writeValue F v = c :: t ∧ isSpace c = false ∧ c ≠ ']' := by
  have hnumber : ∀ {s : Text}, NumberText s → ∃ c t, s = c :: t ∧ isSpace c = false ∧ c ≠ ']' := by
    rintro s ⟨c, t, rfl, hc, -⟩
    have hne := isDigit_ne hc
    refine ⟨c, t, rfl, ?_, hne _ (by decide) (by decide)⟩
    simp [isSpace, hne ' ' (by decide) (by decide), hne '\t' (by decide) (by decide),
      hne '\r' (by decide) (by decide), hne '\n' (by decide) (by decide)]
  obtain ⟨d, rfl⟩ : ∃ e, d = e + 1 := by
    rcases d with _ | d
    · exact absurd h (by simp [Built])
    · exact ⟨d, rfl⟩
  cases v with
  | null => exact ⟨'n', _, rfl, by decide, by decide⟩
  | int i => exact hnumber (numberText_intToString i)
  | uint n => exact hnumber (numberText_uintToString n)
  | real r => exact hnumber (ReadsBack.number h).numberText
  | string s => exact ⟨'"', _, by rw [writeValue, valueToQuotedStringN_eq]; rfl, by decide, by decide⟩
  | bool b => cases b <;> exact ⟨_, _, rfl, by decide, by decide⟩
  | array items => exact ⟨'[', _, by rw [writeValue]; rfl, by decide, by decide⟩
  | object members => exact ⟨'{', _, by rw [writeValue]; rfl, by decide, by decide⟩

/-- A value that is one token. -/
theorem readValue_token {d n depth : ℕ} {s r : Text} {old v : Json ρ} {errors : List ErrorInfo}
    {type : TokenType} (hn : 0 < n) (hd : depth + (d + 1) ≤ stackLimit)
    (htoken : readToken (s ++ r) = (⟨type, s⟩, r))
    (h : (type = .number ∧ decodeNumber readDouble ⟨type, s⟩ = .ok v) ∨
      (∃ t, type = .string ∧ decodeString ⟨type, s⟩ = .ok t ∧ v = .string t) ∨
      (type = .true ∧ v = .bool true) ∨ (type = .false ∧ v = .bool false) ∨ (type = .null ∧ v = .null)) :
    readValue readDouble n old ⟨s ++ r, errors, depth⟩ = .ok (true, v, ⟨r, errors, depth⟩) := by
  obtain ⟨n, rfl⟩ : ∃ m, n = m + 1 := ⟨n - 1, by omega⟩
  have hskip : skipCommentTokens (s ++ r) = (⟨type, s⟩, r) := by
    refine skipCommentTokens_of_readToken htoken ?_
    obtain ⟨rfl, -⟩ | ⟨t, rfl, -⟩ | ⟨rfl, -⟩ | ⟨rfl, -⟩ | ⟨rfl, -⟩ := h <;> exact TokenType.noConfusion
  rw [readValue, if_neg (by dsimp only; omega), hskip]
  obtain ⟨rfl, hv⟩ | ⟨t, rfl, hv, rfl⟩ | ⟨rfl, rfl⟩ | ⟨rfl, rfl⟩ | ⟨rfl, rfl⟩ := h <;>
    simp [*]

theorem readItems_write {d : ℕ} {items : List (Json ρ)} (hne : items ≠ [])
    (hitems : ∀ v ∈ items, ReadsValue readDouble F d v) {n : ℕ} (acc : List (Json ρ)) {r : Text}
    {errors : List ErrorInfo} {depth : ℕ} (hn : 2 * (writeItems F items).length + 1 < n)
    (hd : depth + d ≤ stackLimit) :
    readItems readDouble n acc ⟨writeItems F items ++ ']' :: r, errors, depth⟩ =
      .ok (true, acc ++ rereadItems F items, ⟨r, errors, depth⟩) := by
  have hclose : readToken (']' :: r) = (⟨.arrayEnd, [']']⟩, r) :=
    readToken_cons (by decide) rfl (by simp [scanChar])
  have hcomma : ∀ t, readToken (',' :: t) = (⟨.arraySeparator, [',']⟩, t) := fun t =>
    readToken_cons (by decide) rfl (by simp [scanChar, isDigit])
  induction items generalizing n acc with
  | nil => exact absurd rfl hne
  | cons v items ih =>
    obtain ⟨n, rfl⟩ : ∃ m, n = m + 1 := ⟨n - 1, by omega⟩
    rcases items with _ | ⟨w, items⟩
    · simp only [writeItems] at hn ⊢
      rw [readItems, hitems v List.mem_cons_self n .null (']' :: r) errors depth (by omega) hd
        (endsNumber_bracket r), ok_bind]
      simp only [Bool.true_eq_false, ↓reduceIte,
        skipCommentTokens_of_readToken hclose TokenType.noConfusion]
      simp [rereadItems, pure, Except.pure]
    · simp only [writeItems, List.length_append, List.length_cons] at hn ⊢
      rw [readItems, List.append_assoc, List.cons_append, hitems v List.mem_cons_self n .null _ errors depth
        (by omega) hd (endsNumber_comma _), ok_bind]
      simp only [Bool.true_eq_false, ↓reduceIte,
        skipCommentTokens_of_readToken (hcomma _) TokenType.noConfusion]
      have hgo := ih (by simp) (fun x hx => hitems x (List.mem_cons_of_mem _ hx)) (n := n) (acc ++ [reread F v])
        (by omega)
      simp only [ne_eq, reduceCtorEq, not_true_eq_false, not_false_eq_true, and_true, ↓reduceIte, hgo]
      simp [rereadItems]

theorem readMembers_write {d : ℕ} {members : List (Text × Json ρ)} (hne : members ≠ [])
    (hmembers : ∀ m ∈ members, ReadsValue readDouble F d m.2) (hordered : Ordered members) {n : ℕ}
    (name : Text) {acc : List (Text × Json ρ)} (hacc : ∀ a ∈ acc, ∀ m ∈ members, a.1 < m.1) {r : Text}
    {errors : List ErrorInfo} {depth : ℕ} (hn : 2 * (writeMembers F members).length + 1 < n)
    (hd : depth + d ≤ stackLimit) :
    readMembers readDouble n name acc ⟨writeMembers F members ++ '\x7d' :: r, errors, depth⟩ =
      .ok (true, acc ++ rereadMembers F members, ⟨r, errors, depth⟩) := by
  have hclose : readToken ('\x7d' :: r) = (⟨.objectEnd, ['\x7d']⟩, r) :=
    readToken_cons (by decide) rfl (by simp [scanChar])
  have hcomma : ∀ t, readToken (',' :: t) = (⟨.arraySeparator, [',']⟩, t) := fun t =>
    readToken_cons (by decide) rfl (by simp [scanChar, isDigit])
  have hcolon : ∀ t, readToken (':' :: t) = (⟨.memberSeparator, [':']⟩, t) := fun t =>
    readToken_cons (by decide) rfl (by simp [scanChar, isDigit])
  induction members generalizing n name acc with
  | nil => exact absurd rfl hne
  | cons m members ih =>
    obtain ⟨key, v⟩ := m
    obtain ⟨n, rfl⟩ : ∃ m, n = m + 1 := ⟨n - 1, by omega⟩
    have hlast : setMember key (reread F v) acc = acc ++ [(key, reread F v)] :=
      setMember_last _ fun a ha => hacc a ha _ List.mem_cons_self
    have hname : ∀ t, skipCommentTokens (valueToQuotedStringN key ++ ':' :: t) =
        (⟨.string, valueToQuotedStringN key⟩, ':' :: t) := fun t =>
      skipCommentTokens_of_readToken (readToken_string key _) TokenType.noConfusion
    have hread : ReadsValue readDouble F d v := hmembers _ List.mem_cons_self
    rcases members with _ | ⟨m', members⟩
    · simp only [writeMembers, List.length_append, List.length_cons] at hn ⊢
      rw [readMembers, List.append_assoc, List.cons_append, hname]
      simp only [reduceCtorEq, false_and, ↓reduceIte, decodeString_token, hcolon, ne_eq, not_true_eq_false]
      rw [hread n _ ('\x7d' :: r) errors depth (by omega) hd (endsNumber_brace r), ok_bind]
      simp only [Bool.true_eq_false, ↓reduceIte, hclose]
      simp [hlast, rereadMembers, pure, Except.pure]
    · simp only [writeMembers, List.length_append, List.length_cons] at hn ⊢
      rw [readMembers, List.append_assoc, List.append_assoc, List.cons_append, List.cons_append, hname]
      simp only [reduceCtorEq, false_and, ↓reduceIte, decodeString_token, hcolon, ne_eq, not_true_eq_false]
      rw [hread n _ _ errors depth (by omega) hd (endsNumber_comma _), ok_bind]
      obtain ⟨hfirst, hrest⟩ := List.pairwise_cons.mp hordered
      have hacc' : ∀ a ∈ acc ++ [(key, reread F v)], ∀ x ∈ m' :: members, a.1 < x.1 := by
        intro a ha x hx
        obtain ha | ha := List.mem_append.mp ha
        · exact hacc a ha x (List.mem_cons_of_mem _ hx)
        · rw [List.mem_singleton.mp ha]
          exact hfirst x hx
      have hgo := ih (by simp) (fun x hx => hmembers x (List.mem_cons_of_mem _ hx)) hrest (n := n) key hacc'
        (by omega)
      simp only [Bool.true_eq_false, ↓reduceIte, hcomma, reduceCtorEq, not_false_eq_true, not_true_eq_false,
        and_true, and_false, hlast, hgo]
      simp [rereadMembers]

/-- **Printing and reading a value.** By induction on the depth; the lists of an array and of an object are
read one by one. -/
theorem readsValue {d : ℕ} {v : Json ρ} (h : Built (IsWritten readDouble F) d v) :
    ReadsValue readDouble F d v := by
  induction d generalizing v with
  | zero => exact absurd h (by simp [Built])
  | succ d ih =>
    intro n old r errors depth hn hd hr
    have htoken : ∀ {s : Text}, NumberText s → readToken (s ++ r) = (⟨.number, s⟩, r) :=
      fun hs => readToken_number hs hr
    cases v with
    | null =>
      exact readValue_token (by omega) hd (readToken_null r) (by simp [reread])
    | bool b =>
      cases b
      · exact readValue_token (by omega) hd (readToken_false r) (by simp [reread])
      · exact readValue_token (by omega) hd (readToken_true r) (by simp [reread])
    | int i =>
      exact readValue_token (by omega) hd (htoken (numberText_intToString i))
        (.inl ⟨rfl, decodeNumber_int readDouble h.1 h.2⟩)
    | uint m =>
      exact readValue_token (by omega) hd (htoken (numberText_uintToString m))
        (.inl ⟨rfl, decodeNumber_uint readDouble h⟩)
    | real x => exact readValue_token (by omega) hd (htoken (ReadsBack.number h).numberText) (.inl ⟨rfl, decodeNumber_real h⟩)
    | string s =>
      exact readValue_token (by omega) hd (readToken_string s r)
        (.inr (.inl ⟨s, rfl, decodeString_token s, rfl⟩))
    | array items =>
      obtain ⟨n, rfl⟩ : ∃ m, n = m + 1 := ⟨n - 1, by omega⟩
      have hopen : ∀ t, skipCommentTokens ('[' :: t) = (⟨.arrayBegin, ['[']⟩, t) := fun t =>
        skipCommentTokens_of_readToken (readToken_cons (by decide) rfl (by simp [scanChar]))
          TokenType.noConfusion
      simp only [writeValue, List.length_append, List.length_cons, List.length_nil] at hn ⊢
      rw [List.cons_append, List.cons_append, List.append_assoc, List.singleton_append, readValue,
        if_neg (by dsimp only; omega), hopen]
      dsimp only
      rcases items with _ | ⟨w, items⟩
      · have hclose : readToken (']' :: r) = (⟨.arrayEnd, [']']⟩, r) :=
          readToken_cons (by decide) rfl (by simp [scanChar])
        simp [writeItems, skipSpaces_cons (c := ']') (by decide), hclose, reread, rereadItems]
      · have hw : Built (IsWritten readDouble F) d w := h w List.mem_cons_self
        obtain ⟨c, t, hhead, hspace, hbracket⟩ : ∃ c t, writeItems F (w :: items) = c :: t ∧
            isSpace c = false ∧ c ≠ ']' := by
          obtain ⟨c, t, hc, hspace, hbracket⟩ := head_writeValue hw
          rcases items with _ | ⟨x, items⟩
          · exact ⟨c, t, by rw [writeItems, hc], hspace, hbracket⟩
          · exact ⟨c, _, by rw [writeItems, hc]; rfl, hspace, hbracket⟩
        have hskip : skipSpaces (writeItems F (w :: items) ++ ']' :: r) =
            writeItems F (w :: items) ++ ']' :: r := by
          rw [hhead, List.cons_append, skipSpaces_cons hspace]
        have hno : (writeItems F (w :: items) ++ ']' :: r).head? ≠ some ']' := by
          rw [hhead, List.cons_append, List.head?_cons]
          exact fun e => hbracket (Option.some.inj e)
        rw [hskip, if_neg hno, readItems_write (by simp) (fun x hx => ih (h x hx)) [] (by omega) (by omega)]
        rfl
    | object members =>
      obtain ⟨n, rfl⟩ : ∃ m, n = m + 1 := ⟨n - 1, by omega⟩
      have hopen : ∀ t, skipCommentTokens ('{' :: t) = (⟨.objectBegin, ['{']⟩, t) := fun t =>
        skipCommentTokens_of_readToken (readToken_cons (by decide) rfl (by simp [scanChar]))
          TokenType.noConfusion
      simp only [writeValue, List.length_append, List.length_cons, List.length_nil] at hn ⊢
      rw [List.cons_append, List.cons_append, List.append_assoc, List.singleton_append, readValue,
        if_neg (by dsimp only; omega), hopen]
      dsimp only
      rcases members with _ | ⟨m, members⟩
      · obtain ⟨n, rfl⟩ : ∃ m, n = m + 1 := ⟨n - 1, by omega⟩
        have hclose : skipCommentTokens ('\x7d' :: r) = (⟨.objectEnd, ['\x7d']⟩, r) :=
          skipCommentTokens_of_readToken (readToken_cons (by decide) rfl (by simp [scanChar]))
            TokenType.noConfusion
        rw [writeMembers, List.nil_append, readMembers, hclose]
        simp [reread, rereadMembers, ok_bind, pure, Except.pure]
      · rw [readMembers_write (by simp) (fun x hx => ih (h.2 x hx)) h.1 [] (by simp) (by omega) (by omega)]
        rfl

/-! ### Documents -/

/-- The text of a value, read with anything behind it that ends a number. -/
theorem parse_writeValue {v : Json ρ} (h : Built (IsWritten readDouble F) stackLimit v) {slack : Text}
    (hslack : EndsNumber slack) :
    ∃ r, parse readDouble (writeValue F v) slack = .ok (true, reread F v, r) ∧ r.errors = [] := by
  have hread := readsValue h (2 * (writeValue F v ++ slack).length + 1) .null slack [] 0
    (by simp only [List.length_append]; omega) (by omega) hslack
  exact ⟨_, by rw [parse, hread]; rfl, rfl⟩

/-- The leaf is not a double that is printed without a point and an exponent. -/
def IsPointed (F : DoubleFormat ρ) (v : Json ρ) : Prop := ∀ x, v = .real x → integerOf (F.g17 x) = none

/-- Every double in the value is printed with a point or an exponent. -/
def Pointed (F : DoubleFormat ρ) (v : Json ρ) : Prop := Built (IsPointed F) stackLimit v

/-- What was read is read again as it is. -/
theorem reread_of_built {d : ℕ} {v : Json ρ}
    (h : Built (fun w => IsRead w ∧ IsPointed F w) d v) : reread F v = v := by
  induction d generalizing v with
  | zero => exact absurd h (by simp [Built])
  | succ d ih =>
    cases v with
    | int i => simp [reread, rereadInt, And.right (And.left h)]
    | uint n => simp [reread, rereadInt, Nat.not_le.mpr (And.left (And.left h))]
    | real r => rw [reread, And.right h r rfl]
    | array items =>
      have hall : ∀ items : List (Json ρ), (∀ v ∈ items, Built (fun w => IsRead w ∧ IsPointed F w) d v) → rereadItems F items = items := by
        intro items hitems
        induction items with
        | nil => rfl
        | cons v items hi =>
          rw [rereadItems, ih (hitems v List.mem_cons_self), hi fun w hw => hitems w (List.mem_cons_of_mem _ hw)]
      rw [reread, hall items h]
    | object members =>
      have hall : ∀ members : List (Text × Json ρ), (∀ m ∈ members, Built (fun w => IsRead w ∧ IsPointed F w) d m.2) →
          rereadMembers F members = members := by
        intro members hmembers
        induction members with
        | nil => rfl
        | cons m members hi =>
          rw [rereadMembers, ih (hmembers m List.mem_cons_self),
            hi fun w hw => hmembers w (List.mem_cons_of_mem _ hw)]
      rw [reread, hall members h.2]
    | _ => rfl

theorem reread_eq {v : Json ρ} (h : Built IsRead stackLimit v) (hpointed : Pointed F v) : reread F v = v :=
  reread_of_built (h.and hpointed)

/-- The C library prints and reads back the doubles in the value. -/
def RealsReadBack (readDouble : Text → Option ρ) (F : DoubleFormat ρ) (v : Json ρ) : Prop :=
  Built (fun w => ∀ x, w = .real x → ReadsBack readDouble F x) stackLimit v

/-- The line feed behind a document belongs to what follows the value. -/
theorem parse_write_eq (v : Json ρ) (slack : Text) :
    parse readDouble (write F v) slack = parse readDouble (writeValue F v) ('\n' :: slack) := by
  simp only [parse, write, List.append_assoc, List.singleton_append]

/-- **A written value reads back.** For every value nested at most a thousand deep, with its members in the
order of their keys, integers of 64 bits and doubles the C library reads back, and whatever the buffer
holds behind the text. -/
theorem parse_write {v : Json ρ} (h : Built (IsWritten readDouble F) stackLimit v) (slack : Text) :
    ∃ r, parse readDouble (write F v) slack = .ok (true, reread F v, r) ∧ r.errors = [] := by
  rw [parse_write_eq]
  exact parse_writeValue h (endsNumber_newline slack)

/-- **What was read is printed to a text with the same meaning**: the same value, if every double in it is printed
with a point or an exponent, and else the value with an integer in the place of each of the others. -/
theorem parse_write_parse {document slack : Text} {v : Json ρ} {r : Reader}
    (h : parse readDouble document slack = .ok (true, v, r)) (hreal : RealsReadBack readDouble F v)
    (slack' : Text) :
    (∃ r', parse readDouble (write F v) slack' = .ok (true, reread F v, r') ∧ r'.errors = []) ∧
      (Pointed F v → reread F v = v) := by
  have hread := built_of_parse h
  refine ⟨parse_write ((hread.and hreal).imp fun v hv => ?_) slack', reread_eq hread⟩
  cases v with
  | int i => exact ⟨hv.1.1, hv.1.2.trans (by decide)⟩
  | uint n => exact hv.1.2
  | real x => exact hv.2 x rfl
  | _ => trivial

/-! ### A few doubles -/

/-- Two doubles. -/
inductive Sample where
  | half | five
  deriving DecidableEq, Repr

/-- As the C library prints them. -/
def sampleFormat : DoubleFormat Sample :=
  let print : Sample → Text
    | .half => lit "0.5"
    | .five => lit "5"
  ⟨print, print⟩

/-- And reads them. -/
def readSample (s : Text) : Option Sample :=
  if s = lit "0.5" then some .half else if s = lit "5.0" ∨ s = lit "5" then some .five else none

theorem readsBack_sample (r : Sample) : ReadsBack readSample sampleFormat r := by
  cases r with
  | half =>
    have hzero : ∀ c ∈ ['0'], isDigit c = true := List.forall_mem_singleton.mpr (by decide)
    have hfraction : Fraction ['.', '5'] := .inr ⟨['5'], rfl, List.forall_mem_singleton.mpr (by decide)⟩
    have hno : integerOf (lit "0.5") = none := by decide
    refine ⟨⟨[], ['0'], ['.', '5'], [], by decide, .inl rfl, by simp, hzero, hfraction, .inl rfl⟩, fun i hi => ?_,
      by decide⟩
    exact absurd (hno.symm.trans hi) (by simp)
  | five =>
    have hfive : integerOf (lit "5") = some 5 := by decide
    refine ⟨⟨[], ['5'], [], [], by decide, .inl rfl, by simp, List.forall_mem_singleton.mpr (by decide), .inl rfl,
      .inl rfl⟩, fun i hi => ?_, by decide⟩
    obtain rfl : 5 = i := Option.some.inj (hfive.symm.trans hi)
    norm_num

/-- A quote, a line feed, an integer that does not fit an `int`, and two doubles. -/
def sample (big five : Json Sample) : Json Sample :=
  .object [(lit "tables", .array [.string ['"', '\n'], big, .real .half, five])]

theorem parse_write_sample :
    ∃ r, parse readSample (write sampleFormat (sample (.int 5000000000) (.real .five))) [] =
      .ok (true, sample (.uint 5000000000) (.int 5), r) ∧ r.errors = [] :=
  parse_write (v := sample (.int 5000000000) (.real .five)) (by
    simp [sample, Built, Ordered, IsWritten, stackLimit, maxLargestInt, readsBack_sample]) []

theorem parse_write_parse_sample :
    (∃ r, parse readSample (write sampleFormat (.real .five)) [] = .ok (true, .int 5, r) ∧ r.errors = []) ∧
      ∃ r, parse readSample (write sampleFormat (.real .half)) [] = .ok (true, .real .half, r) ∧ r.errors = [] := by
  have hback : ∀ v : Sample, RealsReadBack readSample sampleFormat (.real v) := fun v r _ => readsBack_sample r
  have hfive : ∃ r, parse readSample (lit "5.0") [] = .ok (true, .real .five, r) := ⟨_, by rfl⟩
  have hhalf : ∃ r, parse readSample (lit "0.5") [] = .ok (true, .real .half, r) := ⟨_, by rfl⟩
  obtain ⟨r, hfive⟩ := hfive
  obtain ⟨r', hhalf⟩ := hhalf
  have hpointed : Pointed sampleFormat (.real .half) := fun x hx => by
    obtain rfl : .half = x := Json.real.inj hx
    decide
  obtain ⟨hread, hsame⟩ := parse_write_parse hhalf (hback .half) []
  rw [hsame hpointed] at hread
  exact ⟨(parse_write_parse hfive (hback .five) []).1, hread⟩

end

end DataSync.Client.FastWriter
