import DataSync.Client.BuildFinally

/-! # The reader of `jsoncpp`

`Json::Reader::parse` as `LoadJson` calls it, with the features it has by default: comments are skipped,
keys are strings, a value may be missing nowhere. Its position is the text that is still to be read; where
the source looks at `*current_` at the end it sees the terminator. A `char` is a byte of the text.

The reader copies the whole buffer of the string, so that behind the text and its terminator stands
whatever the buffer holds: `slack`.

`parse_spec` says of every text that the reader comes back, when it succeeds, and what it gives then. -/

namespace DataSync.Client.JsonReader

open DataSync.Client.BuildFinally (Text lit Json)

/-! ### Tokens -/

/-- `TokenType`. -/
inductive TokenType where
  | endOfStream | objectBegin | objectEnd | arrayBegin | arrayEnd | string | number | true | false | null
  | arraySeparator | memberSeparator | comment | error
  deriving DecidableEq, Repr

/-- `Token`: its type and the characters from `start_` to `end_`. -/
structure Token where
  type : TokenType
  text : Text
  deriving DecidableEq, Repr

/-- The characters `skipSpaces` skips. -/
def isSpace (c : Char) : Bool := c = ' ' || c = '\t' || c = '\r' || c = '\n'

/-- `skipSpaces`. -/
def skipSpaces (current : Text) : Text := current.dropWhile isSpace

/-- `c >= '0' && c <= '9'`. -/
def isDigit (c : Char) : Bool := '0' ≤ c && c ≤ '9'

/-- `match`: whether the pattern stands there, and the position behind it. -/
def matchPattern (pattern : String) (current : Text) : Bool × Text :=
  if (lit pattern).isPrefixOf current then (true, current.drop (lit pattern).length) else (false, current)

/-- `readString`, behind the opening quote. -/
def readString : Text → Bool × Text
  | [] => (false, [])
  | [c] => (c = '"', [])
  | c :: c' :: rest =>
    if c = '\\' then readString rest
    else if c = '"' then (true, c' :: rest)
    else readString (c' :: rest)

/-- `readCStyleComment`, behind the opening. -/
def readCStyleComment : Text → Bool × Text
  | [] => (false, [])
  | c :: rest => if c = '*' ∧ rest.head? = some '/' then (true, rest.tail) else readCStyleComment rest

/-- `readCppStyleComment`, behind the opening. -/
def readCppStyleComment : Text → Text
  | [] => []
  | c :: rest =>
    if c = '\n' then rest
    else if c = '\r' then (if rest.head? = some '\n' then rest.tail else rest)
    else readCppStyleComment rest

/-- `readComment`. -/
def readComment : Text → Bool × Text
  | [] => (false, [])
  | c :: rest =>
    if c = '*' then readCStyleComment rest
    else if c = '/' then (true, readCppStyleComment rest)
    else (false, rest)

/-- The fractional part of `readNumber`. -/
def readFraction : Text → Text
  | [] => []
  | c :: rest => if c = '.' then rest.dropWhile isDigit else c :: rest

/-- The sign behind the `e`. -/
def readSign : Text → Text
  | [] => []
  | c :: rest => if c = '+' ∨ c = '-' then rest else c :: rest

/-- The exponential part of `readNumber`. -/
def readExponent : Text → Text
  | [] => []
  | c :: rest => if c = 'e' ∨ c = 'E' then (readSign rest).dropWhile isDigit else c :: rest

/-- `readNumber`, behind the first character. -/
def readNumber (current : Text) : Text := readExponent (readFraction (current.dropWhile isDigit))

/-- A token whose reading may fail. -/
def whenOk (type : TokenType) (result : Bool × Text) : TokenType × Text :=
  (if result.1 then type else .error, result.2)

/-- The `switch` of `readToken` on the first character: the type of the token and the position behind it. -/
def scanChar (c : Char) (rest : Text) : TokenType × Text :=
  if c = '{' then (.objectBegin, rest)
  else if c = '}' then (.objectEnd, rest)
  else if c = '[' then (.arrayBegin, rest)
  else if c = ']' then (.arrayEnd, rest)
  else if c = '"' then whenOk .string (readString rest)
  else if c = '/' then whenOk .comment (readComment rest)
  else if isDigit c ∨ c = '-' then (.number, readNumber rest)
  else if c = 't' then whenOk .true (matchPattern "rue" rest)
  else if c = 'f' then whenOk .false (matchPattern "alse" rest)
  else if c = 'n' then whenOk .null (matchPattern "ull" rest)
  else if c = ',' then (.arraySeparator, rest)
  else if c = ':' then (.memberSeparator, rest)
  else if c = '\x00' then (.endOfStream, rest)
  else (.error, rest)

/-- The `switch`; at the end `getNextChar` gives a zero. -/
def scan : Text → TokenType × Text
  | [] => (.endOfStream, [])
  | c :: rest => scanChar c rest

/-- `readToken`. -/
def readToken (current : Text) : Token × Text :=
  let start := skipSpaces current
  let (type, rest) := scan start
  (⟨type, start.take (start.length - rest.length)⟩, rest)

/-- The loop of `skipCommentTokens`, for so many comments. -/
def skipComments : ℕ → Text → Token × Text
  | 0, current => readToken current
  | n + 1, current =>
    let (token, rest) := readToken current
    if token.type = .comment then skipComments n rest else (token, rest)

/-- `skipCommentTokens`. -/
def skipCommentTokens (current : Text) : Token × Text := skipComments current.length current

/-- The loop of `recoverFromError`, for so many tokens. -/
def recover (skipUntilToken : TokenType) : ℕ → Text → Text
  | 0, current => current
  | n + 1, current =>
    let (skip, rest) := readToken current
    if skip.type = skipUntilToken ∨ skip.type = .endOfStream then rest else recover skipUntilToken n rest

/-! ### Strings and numbers -/

/-- A hexadecimal digit. -/
def hexDigit (c : Char) : Option ℕ :=
  if '0' ≤ c ∧ c ≤ '9' then some (c.toNat - '0'.toNat)
  else if 'a' ≤ c ∧ c ≤ 'f' then some (c.toNat - 'a'.toNat + 10)
  else if 'A' ≤ c ∧ c ≤ 'F' then some (c.toNat - 'A'.toNat + 10)
  else none

/-- The loop of `decodeUnicodeEscapeSequence`. -/
def hexDigits : ℕ → Text → Except Text ℕ
  | unicode, [] => .ok unicode
  | unicode, c :: cs =>
    match hexDigit c with
    | some digit => hexDigits (unicode * 16 + digit) cs
    | none => .error (lit "Bad unicode escape sequence in string: hexadecimal digit expected.")

/-- `decodeUnicodeEscapeSequence`: the number and the position behind it. -/
def decodeUnicodeEscapeSequence (current : Text) : Except Text (ℕ × Text) := do
  if current.length < 4 then
    throw (lit "Bad unicode escape sequence in string: four digits expected.")
  let unicode ← hexDigits 0 (current.take 4)
  return (unicode, current.drop 4)

/-- `decodeUnicodeCodePoint`. -/
def decodeUnicodeCodePoint (current : Text) : Except Text (ℕ × Text) := do
  let (unicode, current) ← decodeUnicodeEscapeSequence current
  if 0xD800 ≤ unicode ∧ unicode ≤ 0xDBFF then
    if current.length < 6 then
      throw (lit "additional six characters expected to parse unicode surrogate pair.")
    if current.take 2 = ['\\', 'u'] then
      let (surrogatePair, current) ← decodeUnicodeEscapeSequence (current.drop 2)
      return (0x10000 + (unicode % 0x400) * 0x400 + surrogatePair % 0x400, current)
    else throw (lit "expecting another \\u token to begin the second half of a unicode surrogate pair")
  else return (unicode, current)

/-- `codePointToUTF8`. -/
def codePointToUTF8 (cp : ℕ) : Text :=
  if cp ≤ 0x7F then [Char.ofNat cp]
  else if cp ≤ 0x7FF then [Char.ofNat (0xC0 + cp / 0x40 % 0x20), Char.ofNat (0x80 + cp % 0x40)]
  else if cp ≤ 0xFFFF then
    [Char.ofNat (0xE0 + cp / 0x1000 % 0x10), Char.ofNat (0x80 + cp / 0x40 % 0x40),
      Char.ofNat (0x80 + cp % 0x40)]
  else if cp ≤ 0x10FFFF then
    [Char.ofNat (0xF0 + cp / 0x40000 % 8), Char.ofNat (0x80 + cp / 0x1000 % 0x40),
      Char.ofNat (0x80 + cp / 0x40 % 0x40), Char.ofNat (0x80 + cp % 0x40)]
  else []

/-- The escapes of one letter. -/
def simpleEscape (escape : Char) : Option Char :=
  if escape = '"' then some '"'
  else if escape = '/' then some '/'
  else if escape = '\\' then some '\\'
  else if escape = 'b' then some '\x08'
  else if escape = 'f' then some '\x0c'
  else if escape = 'n' then some '\n'
  else if escape = 'r' then some '\r'
  else if escape = 't' then some '\t'
  else none

/-- The loop of `decodeString`, for so many characters. -/
def decodeChars : ℕ → Text → Text → Except Text Text
  | 0, decoded, _ => .ok decoded
  | _ + 1, decoded, [] => .ok decoded
  | n + 1, decoded, c :: current =>
    if c = '"' then .ok decoded
    else if c = '\\' then
      match current with
      | [] => .error (lit "Empty escape sequence in string")
      | escape :: current =>
        if escape = 'u' then do
          let (unicode, current) ← decodeUnicodeCodePoint current
          decodeChars n (decoded ++ codePointToUTF8 unicode) current
        else
          match simpleEscape escape with
          | some c => decodeChars n (decoded ++ [c]) current
          | none => .error (lit "Bad escape sequence in string")
    else decodeChars n (decoded ++ [c]) current

/-- `decodeString`, between the quotes of the token. -/
def decodeString (token : Token) : Except Text Text :=
  decodeChars token.text.length [] (token.text.drop 1).dropLast

/-- `Value::maxLargestInt`, `Value::maxLargestUInt` and `Value::maxInt`. -/
def maxLargestInt : ℕ := 2 ^ 63 - 1

def maxLargestUInt : ℕ := 2 ^ 64 - 1

def maxInt : ℕ := 2 ^ 31 - 1

/-- The loop of `decodeNumber`; `none` where it goes on to `decodeDouble`. -/
def decodeDigits (maxIntegerValue : ℕ) : ℕ → Text → Option ℕ
  | value, [] => some value
  | value, c :: current =>
    let threshold := maxIntegerValue / 10
    let digit := c.toNat - '0'.toNat
    if isDigit c = false then none
    else if threshold ≤ value ∧ (threshold < value ∨ current ≠ [] ∨ maxIntegerValue % 10 < digit) then none
    else decodeDigits maxIntegerValue (value * 10 + digit) current

/-- The value of digits that fit. -/
def ofInteger {ρ : Type} (isNegative : Bool) (value : ℕ) : Json ρ :=
  if isNegative then .int (-value) else if value ≤ maxInt then .int value else .uint value

/-- `decodeNumber`. `readDouble` reads a `double` from a stream, and fails where that does. -/
def decodeNumber {ρ : Type} (readDouble : Text → Option ρ) (token : Token) : Except Text (Json ρ) :=
  let isNegative := token.text.head? = some '-'
  let digits := if isNegative then token.text.drop 1 else token.text
  match decodeDigits (if isNegative then maxLargestInt + 1 else maxLargestUInt) 0 digits with
  | some value => .ok (ofInteger isNegative value)
  | none =>
    match readDouble token.text with
    | some value => .ok (.real value)
    | none => .error (lit "'" ++ token.text ++ lit "' is not a number.")

/-! ### Objects -/

/-- `CZString::operator<`: the bytes decide, then the lengths. -/
def less : Text → Text → Bool
  | _, [] => false
  | [], _ :: _ => true
  | c :: s, c' :: s' => c < c' || (c = c' && less s s')

/-- The member of that name set, in the `std::map`. -/
def setMember {ρ : Type} (name : Text) (value : Json ρ) : List (Text × Json ρ) → List (Text × Json ρ)
  | [] => [(name, value)]
  | m :: members =>
    if name = m.1 then (name, value) :: members
    else if less name m.1 then (name, value) :: m :: members
    else m :: setMember name value members

/-! ### Values -/

/-- `ErrorInfo`. -/
structure ErrorInfo where
  token : Token
  message : Text
  deriving DecidableEq, Repr

/-- `current_`, `errors_` and `stackDepth_g`. -/
structure Reader where
  current : Text
  errors : List ErrorInfo
  stackDepth : ℕ
  deriving DecidableEq, Repr

/-- What ends a call otherwise: `throwRuntimeError`, or steps used up. -/
inductive Stop where
  | runtimeError (message : Text)
  | hang
  deriving DecidableEq, Repr

/-- `addError`. -/
def Reader.addError (r : Reader) (message : Text) (token : Token) : Reader :=
  { r with errors := r.errors ++ [⟨token, message⟩] }

/-- `recoverFromError`. -/
def Reader.recoverFromError (r : Reader) (skipUntilToken : TokenType) : Reader :=
  { r with current := recover skipUntilToken r.current.length r.current }

/-- `stackLimit_g`. -/
def stackLimit : ℕ := 1000

section
variable {ρ : Type} (readDouble : Text → Option ρ)

mutual

/-- `readValue`, in so many steps: whether it succeeds, the value then, and the reader then. `value` is the
value before. -/
def readValue : ℕ → Json ρ → Reader → Except Stop (Bool × Json ρ × Reader)
  | 0, _, _ => .error .hang
  | n + 1, value, r =>
    if stackLimit ≤ r.stackDepth then
      .error (.runtimeError (lit "Exceeded stackLimit in readValue()."))
    else
      let (token, current) := skipCommentTokens r.current
      let r := { r with current := current, stackDepth := r.stackDepth + 1 }
      let leave (r : Reader) : Reader := { r with stackDepth := r.stackDepth - 1 }
      match token.type with
      | .objectBegin => do
        let (ok, members, r) ← readMembers n [] [] r
        return (ok, .object members, leave r)
      | .arrayBegin =>
        if (skipSpaces r.current).head? = some ']' then
          .ok (true, .array [], leave { r with current := (readToken (skipSpaces r.current)).2 })
        else do
          let (ok, items, r) ← readItems n [] { r with current := skipSpaces r.current }
          return (ok, .array items, leave r)
      | .number =>
        match decodeNumber readDouble token with
        | .ok decoded => .ok (true, decoded, leave r)
        | .error message => .ok (false, value, leave (r.addError message token))
      | .string =>
        match decodeString token with
        | .ok decoded => .ok (true, .string decoded, leave r)
        | .error message => .ok (false, value, leave (r.addError message token))
      | .true => .ok (true, .bool true, leave r)
      | .false => .ok (true, .bool false, leave r)
      | .null => .ok (true, .null, leave r)
      | _ => .ok (false, value, r.addError (lit "Syntax error: value, object or array expected.") token)

/-- The loop of `readObject`: `name` is the name before, `members` what the object holds. -/
def readMembers : ℕ → Text → List (Text × Json ρ) → Reader →
    Except Stop (Bool × List (Text × Json ρ) × Reader)
  | 0, _, _, _ => .error .hang
  | n + 1, name, members, r =>
    let (tokenName, current) := skipCommentTokens r.current
    let r := { r with current := current }
    if tokenName.type = .objectEnd ∧ name = [] then .ok (true, members, r)
    else if tokenName.type = .string then
      match decodeString tokenName with
      | .error message => .ok (false, members, (r.addError message tokenName).recoverFromError .objectEnd)
      | .ok name =>
        let (colon, current) := readToken r.current
        let r := { r with current := current }
        if colon.type ≠ .memberSeparator then
          .ok (false, members, (r.addError (lit "Missing ':' after object member name") colon).recoverFromError
            .objectEnd)
        else do
          let old := (members.lookup name).getD .null
          let (ok, value, r) ← readValue n old r
          let members := setMember name value members
          if ok = false then return (false, members, r.recoverFromError .objectEnd)
          else
            let (comma, current) := readToken r.current
            let r := { r with current := current }
            if comma.type ≠ .objectEnd ∧ comma.type ≠ .arraySeparator ∧ comma.type ≠ .comment then
              return (false, members, (r.addError (lit "Missing ',' or '\x7d' in object declaration")
                comma).recoverFromError .objectEnd)
            else
              let (comma, current) := if comma.type = .comment then skipCommentTokens r.current
                else (comma, r.current)
              let r := { r with current := current }
              if comma.type = .objectEnd then return (true, members, r)
              else readMembers n name members r
    else
      .ok (false, members, (r.addError (lit "Missing '\x7d' or object member name")
        tokenName).recoverFromError .objectEnd)

/-- The loop of `readArray`: `items` is what the array holds. -/
def readItems : ℕ → List (Json ρ) → Reader → Except Stop (Bool × List (Json ρ) × Reader)
  | 0, _, _ => .error .hang
  | n + 1, items, r => do
    let (ok, value, r) ← readValue n .null r
    let items := items ++ [value]
    if ok = false then return (false, items, r.recoverFromError .arrayEnd)
    else
      let (token, current) := skipCommentTokens r.current
      let r := { r with current := current }
      if token.type ≠ .arraySeparator ∧ token.type ≠ .arrayEnd then
        return (false, items, (r.addError (lit "Missing ',' or ']' in array declaration")
          token).recoverFromError .arrayEnd)
      else if token.type = .arrayEnd then return (true, items, r)
      else readItems n items r

end

/-- `parse` of a document: whether it succeeds, the root and the reader then. -/
def parse (document slack : Text) : Except Stop (Bool × Json ρ × Reader) := do
  let text := document ++ slack
  let (successful, root, r) ← readValue readDouble (2 * text.length + 1) .null ⟨text, [], 0⟩
  return (successful, root, { r with current := (skipCommentTokens r.current).2 })

end

/-! ### Positions -/

theorem length_readString (s : Text) : (readString s).2.length ≤ s.length := by
  fun_induction readString s with
  | case1 => simp
  | case2 c => simp
  | case3 c' rest ih =>
    simp only [List.length_cons]
    omega
  | case4 c' rest h => simp
  | case5 c c' rest h h' ih =>
    simp only [List.length_cons] at ih ⊢
    omega

theorem length_readCStyleComment (s : Text) : (readCStyleComment s).2.length ≤ s.length := by
  fun_induction readCStyleComment s with
  | case1 => simp
  | case2 c rest h =>
    simp only [List.length_tail, List.length_cons]
    omega
  | case3 c rest h ih =>
    simp only [List.length_cons]
    omega

theorem length_readCppStyleComment (s : Text) : (readCppStyleComment s).length ≤ s.length := by
  fun_induction readCppStyleComment s with
  | case1 => simp
  | case2 rest => simp
  | case3 rest h h' =>
    simp only [List.length_tail, List.length_cons]
    omega
  | case4 rest h h' => simp
  | case5 c rest h h' ih =>
    simp only [List.length_cons]
    omega

theorem length_readComment (s : Text) : (readComment s).2.length ≤ s.length := by
  rcases s with _ | ⟨c, rest⟩
  · simp [readComment]
  · have h1 := length_readCStyleComment rest
    have h2 := length_readCppStyleComment rest
    simp only [readComment, List.length_cons]
    split_ifs
    · omega
    · exact h2.trans (Nat.le_succ _)
    · exact Nat.le_succ _

theorem length_dropWhile_le (p : Char → Bool) (s : Text) : (s.dropWhile p).length ≤ s.length :=
  (List.dropWhile_suffix p).length_le

theorem length_readNumber (s : Text) : (readNumber s).length ≤ s.length := by
  have hfraction : ∀ s : Text, (readFraction s).length ≤ s.length := by
    rintro (_ | ⟨c, rest⟩)
    · simp [readFraction]
    · have := length_dropWhile_le isDigit rest
      simp only [readFraction, List.length_cons]
      split_ifs
      · omega
      · exact le_refl _
  have hexponent : ∀ s : Text, (readExponent s).length ≤ s.length := by
    rintro (_ | ⟨c, rest⟩)
    · simp [readExponent]
    · have h1 := length_dropWhile_le isDigit (readSign rest)
      have h2 : (readSign rest).length ≤ rest.length := by
        rcases rest with _ | ⟨c, rest⟩
        · simp [readSign]
        · simp only [readSign]
          split_ifs <;> simp
      simp only [readExponent, List.length_cons]
      split_ifs
      · omega
      · exact le_refl _
  exact (hexponent _).trans ((hfraction _).trans (length_dropWhile_le isDigit s))

theorem length_matchPattern (pattern : String) (s : Text) : (matchPattern pattern s).2.length ≤ s.length := by
  unfold matchPattern
  split_ifs
  · simp only [List.length_drop]
    omega
  · exact le_refl _

theorem length_ite {p : Prop} [Decidable p] {a b : TokenType × Text} {n : ℕ} (ha : a.2.length ≤ n)
    (hb : b.2.length ≤ n) : (if p then a else b).2.length ≤ n := by
  split
  · exact ha
  · exact hb

/-- Every token but the end takes a character. -/
theorem length_scanChar (c : Char) (rest : Text) : (scanChar c rest).2.length ≤ rest.length := by
  have h1 := length_readString rest
  have h2 := length_readComment rest
  have h3 := length_readNumber rest
  have h4 := length_matchPattern "rue" rest
  have h5 := length_matchPattern "alse" rest
  have h6 := length_matchPattern "ull" rest
  unfold scanChar
  repeat' first | exact le_refl _ | assumption | apply length_ite

theorem length_skipSpaces (s : Text) : (skipSpaces s).length ≤ s.length := length_dropWhile_le _ _

theorem length_readToken (s : Text) : (readToken s).2.length ≤ s.length := by
  have h := length_skipSpaces s
  simp only [readToken]
  rcases hs : skipSpaces s with _ | ⟨c, rest⟩
  · simp [scan]
  · have := length_scanChar c rest
    simp only [hs, List.length_cons] at h
    exact this.trans (by omega)

theorem readToken_lt {s : Text} (h : (readToken s).1.type ≠ .endOfStream) :
    (readToken s).2.length < s.length := by
  have hle := length_skipSpaces s
  simp only [readToken] at h ⊢
  rcases hs : skipSpaces s with _ | ⟨c, rest⟩
  · rw [hs] at h
    exact absurd rfl h
  · have := length_scanChar c rest
    simp only [hs, List.length_cons] at hle
    exact this.trans_lt (by omega)

theorem skipComments_spec (n : ℕ) (s : Text) : (skipComments n s).2.length ≤ s.length ∧
    ((skipComments n s).1.type ≠ .endOfStream → (skipComments n s).2.length < s.length) := by
  induction n generalizing s with
  | zero => exact ⟨length_readToken s, readToken_lt⟩
  | succ n ih =>
    have hlen := length_readToken s
    simp only [skipComments]
    split_ifs with hc
    · obtain ⟨h1, h2⟩ := ih (readToken s).2
      exact ⟨h1.trans hlen, fun h => (h2 h).trans_le hlen⟩
    · exact ⟨hlen, readToken_lt⟩

theorem length_skipCommentTokens {s current : Text} {token : Token}
    (h : skipCommentTokens s = (token, current)) : current.length ≤ s.length := by
  have := (skipComments_spec s.length s).1
  rw [← skipCommentTokens, h] at this
  exact this

theorem skipCommentTokens_lt {s current : Text} {token : Token}
    (h : skipCommentTokens s = (token, current)) (ht : token.type ≠ .endOfStream) :
    current.length < s.length := by
  have := (skipComments_spec s.length s).2
  rw [← skipCommentTokens, h] at this
  exact this ht

theorem length_recover (skipUntilToken : TokenType) (n : ℕ) (s : Text) :
    (recover skipUntilToken n s).length ≤ s.length := by
  induction n generalizing s with
  | zero => exact le_refl _
  | succ n ih =>
    have hlen := length_readToken s
    simp only [recover]
    split_ifs with hc
    · exact hlen
    · exact (ih _).trans hlen

/-! ### The order of the keys -/

theorem less_iff {s t : Text} : less s t = true ↔ s < t := by
  induction s generalizing t with
  | nil => rcases t with _ | ⟨c, t⟩ <;> simp [less]
  | cons c s ih =>
    rcases t with _ | ⟨c', t⟩
    · simp [less]
    · simp [less, List.cons_lt_cons_iff, ih]

/-- The members stand in the order of their names. -/
def Ordered {ρ : Type} (members : List (Text × Json ρ)) : Prop := members.Pairwise fun m m' => m.1 < m'.1

theorem mem_setMember {ρ : Type} {name : Text} {value : Json ρ} {members : List (Text × Json ρ)}
    {m : Text × Json ρ} (h : m ∈ setMember name value members) : m = (name, value) ∨ m ∈ members := by
  induction members with
  | nil => simpa [setMember] using h
  | cons m' members ih =>
    simp only [setMember] at h
    split_ifs at h with h1 h2
    · obtain rfl | h := List.mem_cons.mp h
      · exact .inl rfl
      · exact .inr (List.mem_cons_of_mem _ h)
    · obtain rfl | h := List.mem_cons.mp h
      · exact .inl rfl
      · exact .inr h
    · obtain rfl | h := List.mem_cons.mp h
      · exact .inr List.mem_cons_self
      · exact (ih h).imp id (List.mem_cons_of_mem _)

/-- The map stays ordered. -/
theorem ordered_setMember {ρ : Type} (name : Text) (value : Json ρ) {members : List (Text × Json ρ)}
    (h : Ordered members) : Ordered (setMember name value members) := by
  induction members with
  | nil => exact List.pairwise_singleton _ _
  | cons m' members ih =>
    obtain ⟨h1, h2⟩ := List.pairwise_cons.mp h
    simp only [setMember]
    split_ifs with heq hlt
    · exact List.pairwise_cons.mpr ⟨fun m hm => heq ▸ h1 m hm, h2⟩
    · rw [less_iff] at hlt
      refine List.pairwise_cons.mpr ⟨fun m hm => ?_, h⟩
      obtain rfl | hm := List.mem_cons.mp hm
      · exact hlt
      · exact hlt.trans (h1 m hm)
    · rw [less_iff, not_lt] at hlt
      refine List.pairwise_cons.mpr ⟨fun m hm => ?_, ih h2⟩
      obtain rfl | hm := mem_setMember hm
      · exact lt_of_le_of_ne hlt fun e => heq e.symm
      · exact h1 m hm

/-- A name behind all others is put at the end. -/
theorem setMember_last {ρ : Type} {name : Text} (value : Json ρ) {members : List (Text × Json ρ)}
    (h : ∀ m ∈ members, m.1 < name) : setMember name value members = members ++ [(name, value)] := by
  induction members with
  | nil => rfl
  | cons m' members ih =>
    have hm := h m' List.mem_cons_self
    have hless : ¬ less name m'.1 = true := fun e => lt_asymm hm (less_iff.mp e)
    rw [setMember, if_neg (ne_of_gt hm), if_neg hless, ih fun m h' => h m (List.mem_cons_of_mem _ h'),
      List.cons_append]

/-! ### What the reader gives -/

section
variable {ρ : Type}

/-- A value nested at most so deep, with ordered objects, whose leaves are as told. -/
def Built (leaf : Json ρ → Prop) : ℕ → Json ρ → Prop
  | 0, _ => False
  | d + 1, .array items => ∀ v ∈ items, Built leaf d v
  | d + 1, .object members => Ordered members ∧ ∀ m ∈ members, Built leaf d m.2
  | _ + 1, v => leaf v

theorem Built.imp {leaf leaf' : Json ρ → Prop} (himp : ∀ v, leaf v → leaf' v) {d : ℕ} {v : Json ρ}
    (h : Built leaf d v) : Built leaf' d v := by
  induction d generalizing v with
  | zero => exact absurd h (by simp [Built])
  | succ d ih =>
    cases v with
    | array items => exact fun w hw => ih (h w hw)
    | object members => exact ⟨h.1, fun m hm => ih (h.2 m hm)⟩
    | _ => exact himp _ h

theorem Built.and {leaf leaf' : Json ρ → Prop} {d : ℕ} {v : Json ρ} (h : Built leaf d v)
    (h' : Built leaf' d v) : Built (fun v => leaf v ∧ leaf' v) d v := by
  induction d generalizing v with
  | zero => exact absurd h (by simp [Built])
  | succ d ih =>
    cases v with
    | array items => exact fun w hw => ih (h w hw) (h' w hw)
    | object members => exact ⟨h.1, fun m hm => ih (h.2 m hm) (h'.2 m hm)⟩
    | _ => exact ⟨h, h'⟩

/-- The leaves the reader makes: a small number is an `intValue`. -/
def IsRead : Json ρ → Prop
  | .int i => -(maxLargestInt + 1) ≤ i ∧ i ≤ maxInt
  | .uint n => maxInt < n ∧ n ≤ maxLargestUInt
  | _ => True

theorem decodeDigits_le {maxIntegerValue value v : ℕ} {s : Text} (hv : value ≤ maxIntegerValue)
    (h : decodeDigits maxIntegerValue value s = some v) : v ≤ maxIntegerValue := by
  induction s generalizing value with
  | nil =>
    obtain rfl := Option.some.inj h
    exact hv
  | cons c s ih =>
    simp only [decodeDigits] at h
    split_ifs at h with h1 h2
    refine ih ?_ h
    have hdigit : c.toNat - '0'.toNat ≤ 9 := by
      have : c ≤ '9' := by
        simp only [isDigit, Bool.and_eq_false_iff, not_or, Bool.not_eq_false, decide_eq_true_eq] at h1
        exact h1.2
      have : c.toNat ≤ '9'.toNat := this
      have h0 : '0'.toNat = 48 := rfl
      have h9 : '9'.toNat = 57 := rfl
      omega
    by_cases hlt : value < maxIntegerValue / 10
    · omega
    · have hno : ¬ (maxIntegerValue / 10 < value ∨ s ≠ [] ∨
          maxIntegerValue % 10 < c.toNat - '0'.toNat) := fun hc => h2 ⟨by omega, hc⟩
      push Not at hno
      obtain ⟨hle, _, hd⟩ := hno
      omega

/-- A number that is read is a leaf the reader makes. -/
theorem decodeNumber_isRead {readDouble : Text → Option ρ} {token : Token} {v : Json ρ}
    (h : decodeNumber readDouble token = .ok v) (d : ℕ) : Built IsRead (d + 1) v := by
  simp only [decodeNumber] at h
  split at h
  · next value hvalue =>
    obtain rfl := Except.ok.inj h
    have hle := decodeDigits_le (Nat.zero_le _) hvalue
    by_cases hneg : token.text.head? = some '-'
    · simp only [hneg, ↓reduceIte] at hle
      simp only [hneg, decide_true, ofInteger, ↓reduceIte, Built, IsRead]
      unfold maxLargestInt maxInt at *
      omega
    · simp only [hneg, ↓reduceIte] at hle
      simp only [hneg, decide_false, ofInteger, Bool.false_eq_true, ↓reduceIte]
      split_ifs with hint
      · simp only [Built, IsRead]
        unfold maxLargestInt maxInt at *
        omega
      · exact ⟨by omega, hle⟩
  · split at h
    · obtain rfl := Except.ok.inj h
      trivial
    · exact absurd h (by simp)

/-- What a call leaves behind: the position moves on, and an error is recorded exactly when it fails. -/
structure After (r r' : Reader) (ok : Bool) : Prop where
  shorter : r'.current.length ≤ r.current.length
  succeeds : ok = true → r'.errors = r.errors ∧ r'.stackDepth = r.stackDepth
  fails : ok = false → ∃ e es, r'.errors = r.errors ++ e :: es

theorem After.trans {r r₁ r' : Reader} {ok : Bool} (h : After r r₁ true) (h' : After r₁ r' ok) :
    After r r' ok := by
  obtain ⟨he, hd⟩ := h.succeeds rfl
  exact ⟨h'.shorter.trans h.shorter, fun e => ⟨(h'.succeeds e).1.trans he, (h'.succeeds e).2.trans hd⟩,
    fun e => he ▸ h'.fails e⟩

theorem After.move {r : Reader} {current : Text} (h : current.length ≤ r.current.length) :
    After r { r with current := current } true :=
  ⟨h, fun _ => ⟨rfl, rfl⟩, fun e => absurd e (by simp)⟩

theorem After.addError (r : Reader) (message : Text) (token : Token) (depth : ℕ) :
    After r { r.addError message token with stackDepth := depth } false :=
  ⟨le_refl _, fun e => absurd e (by simp), fun _ => ⟨_, [], rfl⟩⟩

theorem After.recover {r r' : Reader} (h : After r r' false) (skipUntilToken : TokenType) :
    After r (r'.recoverFromError skipUntilToken) false :=
  ⟨(length_recover _ _ _).trans h.shorter, fun e => absurd e (by simp), h.fails⟩

theorem After.addErrorAndRecover {r r' : Reader} (h : After r r' true) (message : Text) (token : Token)
    (skipUntilToken : TokenType) :
    After r ((r'.addError message token).recoverFromError skipUntilToken) false :=
  (h.trans (After.addError r' message token r'.stackDepth)).recover skipUntilToken

/-- A call goes beyond the stack limit, or comes back with what it left behind. -/
def Gives {α : Type} (x : Except Stop (Bool × α × Reader)) (r : Reader) (Q : α → Prop) : Prop :=
  x = .error (.runtimeError (lit "Exceeded stackLimit in readValue().")) ∨
    ∃ ok a r', x = .ok (ok, a, r') ∧ After r r' ok ∧ (ok = true → Q a)

theorem Gives.intro {α : Type} {r r' : Reader} {Q : α → Prop} {ok : Bool} {a : α} (h : After r r' ok)
    (hQ : ok = true → Q a) : Gives (.ok (ok, a, r')) r Q :=
  .inr ⟨ok, a, r', rfl, h, hQ⟩

theorem Gives.bind {α β : Type} {x : Except Stop (Bool × α × Reader)} {r r₀ : Reader} {Q : α → Prop}
    {Q' : β → Prop} {f : Bool × α × Reader → Except Stop (Bool × β × Reader)} (h : Gives x r Q)
    (hf : ∀ ok a r', After r r' ok → (ok = true → Q a) → Gives (f (ok, a, r')) r₀ Q') :
    Gives (x >>= f) r₀ Q' := by
  obtain rfl | ⟨ok, a, r', rfl, hafter, hQ⟩ := h
  · exact .inl rfl
  · exact hf ok a r' hafter hQ

/-- What is known of the three functions with so many steps. -/
structure Works (readDouble : Text → Option ρ) (n : ℕ) : Prop where
  value : ∀ (value : Json ρ) (r : Reader), 2 * r.current.length + 1 ≤ n →
    Gives (readValue readDouble n value r) r (Built IsRead (stackLimit - r.stackDepth))
  members : ∀ (name : Text) (members : List (Text × Json ρ)) (r : Reader),
    2 * r.current.length + 1 ≤ n → Ordered members →
    (∀ m ∈ members, Built IsRead (stackLimit - r.stackDepth) m.2) →
    Gives (readMembers readDouble n name members r) r fun members => Ordered members ∧
      ∀ m ∈ members, Built IsRead (stackLimit - r.stackDepth) m.2
  items : ∀ (items : List (Json ρ)) (r : Reader), 2 * r.current.length + 2 ≤ n →
    (∀ v ∈ items, Built IsRead (stackLimit - r.stackDepth) v) →
    Gives (readItems readDouble n items r) r fun items =>
      ∀ v ∈ items, Built IsRead (stackLimit - r.stackDepth) v

variable {readDouble : Text → Option ρ} {n : ℕ}

/-- A value is left with the depth it was entered with. -/
theorem After.leave {r r' : Reader} {current : Text} {ok : Bool} (hcurrent : current.length ≤ r.current.length)
    (h : After { r with current := current, stackDepth := r.stackDepth + 1 } r' ok) :
    After r { r' with stackDepth := r'.stackDepth - 1 } ok :=
  ⟨h.shorter.trans hcurrent,
    fun e => ⟨(h.succeeds e).1, by have := (h.succeeds e).2; dsimp only at this ⊢; omega⟩, h.fails⟩

theorem works_value (ih : Works readDouble n) (value : Json ρ) (r : Reader)
    (hn : 2 * r.current.length + 1 ≤ n + 1) :
    Gives (readValue readDouble (n + 1) value r) r (Built IsRead (stackLimit - r.stackDepth)) := by
  rw [readValue]
  by_cases hlimit : stackLimit ≤ r.stackDepth
  · rw [if_pos hlimit]
    exact .inl rfl
  rw [if_neg hlimit]
  obtain ⟨d, hd⟩ : ∃ d, stackLimit - r.stackDepth = d + 1 := ⟨stackLimit - r.stackDepth - 1, by omega⟩
  have hd' : stackLimit - (r.stackDepth + 1) = d := by omega
  rw [hd]
  rcases htoken : skipCommentTokens r.current with ⟨⟨type, text⟩, current⟩
  have hle := length_skipCommentTokens htoken
  have hlt := skipCommentTokens_lt htoken
  have hmove : ∀ {c : Text}, c.length ≤ current.length →
      After { r with current := current, stackDepth := r.stackDepth + 1 }
        { r with current := c, stackDepth := r.stackDepth + 1 } true :=
    fun h => ⟨h, fun _ => ⟨rfl, rfl⟩, fun e => absurd e (by simp)⟩
  have hdone := (hmove (le_refl _)).leave hle
  have herror := fun message token depth => (After.addError
    { r with current := current, stackDepth := r.stackDepth + 1 } message token depth)
  cases type
  case objectBegin =>
    have := hlt TokenType.noConfusion
    refine (ih.members [] [] _ (by dsimp only; omega) List.Pairwise.nil (by simp)).bind ?_
    intro ok members r' hafter hQ
    rw [hd'] at hQ
    exact Gives.intro (hafter.leave hle) fun e => hQ e
  case arrayBegin =>
    have := hlt TokenType.noConfusion
    have hskip := length_skipSpaces current
    dsimp only
    split_ifs with hempty
    · have hclose := length_readToken (skipSpaces current)
      exact Gives.intro ((hmove (hclose.trans hskip)).leave hle) fun _ => by simp [Built]
    · refine (ih.items [] _ (by dsimp only; omega) (by simp)).bind ?_
      intro ok items r' hafter hQ
      rw [hd'] at hQ
      exact Gives.intro (((hmove hskip).trans hafter).leave hle) fun e => hQ e
  case number =>
    dsimp only
    split
    · next v hv => exact Gives.intro hdone fun _ => decodeNumber_isRead hv d
    · next message hv => exact Gives.intro ((herror message _ _).leave hle) fun e => absurd e (by simp)
  case string =>
    dsimp only
    split
    · exact Gives.intro hdone fun _ => trivial
    · next message hv => exact Gives.intro ((herror message _ _).leave hle) fun e => absurd e (by simp)
  case true => exact Gives.intro hdone fun _ => trivial
  case false => exact Gives.intro hdone fun _ => trivial
  case null => exact Gives.intro hdone fun _ => trivial
  all_goals
    exact Gives.intro ⟨hle, fun e => absurd e (by simp), fun _ => ⟨_, [], rfl⟩⟩ fun e => absurd e (by simp)

theorem works_items (ih : Works readDouble n) (items : List (Json ρ)) (r : Reader)
    (hn : 2 * r.current.length + 2 ≤ n + 1)
    (hitems : ∀ v ∈ items, Built IsRead (stackLimit - r.stackDepth) v) :
    Gives (readItems readDouble (n + 1) items r) r fun items =>
      ∀ v ∈ items, Built IsRead (stackLimit - r.stackDepth) v := by
  rw [readItems]
  refine (ih.value .null r (by omega)).bind ?_
  intro ok v r₁ hafter hQ
  cases ok
  · exact Gives.intro (hafter.recover _) fun e => absurd e (by simp)
  have hall : ∀ w ∈ items ++ [v], Built IsRead (stackLimit - r.stackDepth) w := by
    intro w hw
    obtain hw | hw := List.mem_append.mp hw
    · exact hitems w hw
    · rw [List.mem_singleton.mp hw]
      exact hQ rfl
  rcases htoken : skipCommentTokens r₁.current with ⟨token, current⟩
  have hmove := hafter.trans (After.move (length_skipCommentTokens htoken))
  have hshort := hafter.shorter
  rw [← (hafter.succeeds rfl).2] at hall ⊢
  simp only [Bool.true_eq_false, ↓reduceIte, htoken]
  split_ifs with hbad hend
  · exact Gives.intro (hmove.addErrorAndRecover _ _ _) fun e => absurd e (by simp)
  · exact Gives.intro hmove fun _ => hall
  · have hlt := skipCommentTokens_lt htoken fun e => hbad (by simp [e])
    have h := ih.items (items ++ [v]) { r₁ with current := current } (by dsimp only; omega) hall
    obtain h | ⟨ok, items', r', h, hafter', hQ'⟩ := h
    · exact .inl h
    · exact .inr ⟨ok, items', r', h, hmove.trans hafter', hQ'⟩

theorem works_members (ih : Works readDouble n) (name : Text) (members : List (Text × Json ρ)) (r : Reader)
    (hn : 2 * r.current.length + 1 ≤ n + 1) (hordered : Ordered members)
    (hmembers : ∀ m ∈ members, Built IsRead (stackLimit - r.stackDepth) m.2) :
    Gives (readMembers readDouble (n + 1) name members r) r fun members => Ordered members ∧
      ∀ m ∈ members, Built IsRead (stackLimit - r.stackDepth) m.2 := by
  rw [readMembers]
  rcases htoken : skipCommentTokens r.current with ⟨tokenName, current⟩
  have hle := length_skipCommentTokens htoken
  have hmove := After.move (r := r) hle
  dsimp only
  by_cases hclose : tokenName.type = .objectEnd ∧ name = []
  · rw [if_pos hclose]
    exact Gives.intro hmove fun _ => ⟨hordered, hmembers⟩
  rw [if_neg hclose]
  by_cases hstring : tokenName.type = .string
  · rw [if_pos hstring]
    have hlt := skipCommentTokens_lt htoken (by rw [hstring]; exact TokenType.noConfusion)
    split
    · exact Gives.intro (hmove.addErrorAndRecover _ _ _) fun e => absurd e (by simp)
    next name hname =>
    have hcolon := length_readToken current
    have hmove := After.move (r := r) (hcolon.trans hle)
    by_cases hsep : (readToken current).1.type ≠ .memberSeparator
    · rw [if_pos hsep]
      exact Gives.intro (hmove.addErrorAndRecover _ _ _) fun e => absurd e (by simp)
    rw [if_neg hsep]
    refine (ih.value _ _ (by dsimp only; omega)).bind ?_
    intro ok v r₁ hafter hQ
    have hshort := hafter.shorter
    have hafter := hmove.trans hafter
    cases ok
    · exact Gives.intro (hafter.recover _) fun e => absurd e (by simp)
    have hset : Ordered (setMember name v members) ∧
        ∀ m ∈ setMember name v members, Built IsRead (stackLimit - r.stackDepth) m.2 := by
      refine ⟨ordered_setMember name v hordered, fun m hm => ?_⟩
      obtain rfl | hm := mem_setMember hm
      · exact hQ rfl
      · exact hmembers m hm
    have hcomma := length_readToken r₁.current
    rw [← (hafter.succeeds rfl).2] at hset ⊢
    simp only [Bool.true_eq_false, ↓reduceIte]
    by_cases hbad : (readToken r₁.current).1.type ≠ .objectEnd ∧
        (readToken r₁.current).1.type ≠ .arraySeparator ∧ (readToken r₁.current).1.type ≠ .comment
    · rw [if_pos hbad]
      exact Gives.intro ((hafter.trans (After.move hcomma)).addErrorAndRecover _ _ _)
        fun e => absurd e (by simp)
    rw [if_neg hbad]
    rcases hskip : (if (readToken r₁.current).1.type = .comment then skipCommentTokens (readToken r₁.current).2
      else ((readToken r₁.current).1, (readToken r₁.current).2)) with ⟨comma, current'⟩
    have hle' : current'.length ≤ (readToken r₁.current).2.length := by
      split_ifs at hskip
      · exact length_skipCommentTokens hskip
      · exact (congrArg (fun x => x.2.length) hskip).ge
    have hmove := hafter.trans (After.move (hle'.trans hcomma))
    dsimp only
    split_ifs with hend
    · exact Gives.intro hmove fun _ => hset
    · have h := ih.members name (setMember name v members) { r₁ with current := current' }
        (by dsimp only at hshort ⊢; omega) hset.1 hset.2
      obtain h | ⟨ok, members', r', h, hafter', hQ'⟩ := h
      · exact .inl h
      · exact .inr ⟨ok, members', r', h, hmove.trans hafter', hQ'⟩
  · rw [if_neg hstring]
    exact Gives.intro (hmove.addErrorAndRecover _ _ _) fun e => absurd e (by simp)

theorem works (readDouble : Text → Option ρ) (n : ℕ) : Works readDouble n := by
  induction n with
  | zero => exact ⟨fun _ _ h => by omega, fun _ _ _ h => by omega, fun _ _ h => by omega⟩
  | succ n ih => exact ⟨works_value ih, works_members ih, works_items ih⟩

/-- What is read is well formed. -/
theorem built_of_parse {readDouble : Text → Option ρ} {document slack : Text} {v : Json ρ} {r : Reader}
    (h : parse readDouble document slack = .ok (true, v, r)) : Built IsRead stackLimit v := by
  have hvalue := (works readDouble (2 * (document ++ slack).length + 1)).value .null ⟨document ++ slack, [], 0⟩
    (le_refl _)
  obtain hstop | ⟨ok, root, r', hok, -, hQ⟩ := hvalue
  · rw [parse, hstop] at h
    exact absurd h (by simp [bind, Except.bind])
  · rw [parse, hok] at h
    change Except.ok _ = Except.ok _ at h
    simp only [Except.ok.injEq, Prod.mk.injEq] at h
    obtain ⟨rfl, rfl, -⟩ := h
    exact hQ rfl

/-- **Every text is read to an answer.** Unless the values are nested too deep, `parse` comes back; it
returns true exactly when no error is recorded, and then the value is nested at most a thousand deep, its
objects are in the order of their keys, and its integers fit their types. -/
theorem parse_spec (readDouble : Text → Option ρ) (document slack : Text) :
    parse readDouble document slack = .error (.runtimeError (lit "Exceeded stackLimit in readValue().")) ∨
    ∃ ok root r, parse readDouble document slack = .ok (ok, root, r) ∧ (ok = true ↔ r.errors = []) ∧
      (ok = true → Built IsRead stackLimit root) := by
  have h := (works readDouble (2 * (document ++ slack).length + 1)).value .null ⟨document ++ slack, [], 0⟩
    (le_refl _)
  obtain h | ⟨ok, root, r, h, hafter, -⟩ := h
  · exact .inl (by rw [parse, h]; rfl)
  · have hparse : parse readDouble document slack =
        .ok (ok, root, { r with current := (skipCommentTokens r.current).2 }) := by
      rw [parse, h]
      rfl
    refine .inr ⟨ok, root, _, hparse, ?_, fun hok => built_of_parse (hok ▸ hparse)⟩
    cases ok with
    | true => simpa using (hafter.succeeds rfl).1
    | false =>
      obtain ⟨e, es, he⟩ := hafter.fails rfl
      simp [he]

end

end DataSync.Client.JsonReader
