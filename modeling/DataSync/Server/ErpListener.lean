import DataSync.Lib.Digits
import DataSync.Net.Framing

/-! # Messages of the ERP

`MessageListenerErpFinal::consume` takes a message of the queue apart: one byte of dispatch type, four
digits with the length of the store string, the store string, and the payload behind it. The digits go
through `atoi`, which has a number for whatever it is given.

`consume_number` says what becomes of a message with a number in its length field, `consume_short` which
messages are dropped. `parses_iff`: a message is taken apart as its grammar says, or dropped, exactly when
its length field is a number or `atoi` makes of it more than there are bytes. -/

namespace DataSync.Server.ErpListener

open DataSync.Lib.Words DataSync.Lib.Digits DataSync.Net.Framing

/-! ### The listener -/

/-- The digits `0` to `9`. -/
def isDigit (b : UInt8) : Bool := 48 ≤ b && b ≤ 57

/-- The number a string of digits spells. -/
def number (bs : Bytes) : ℕ := val (bs.map fun b => b.toNat - 48)

/-- `isspace`. -/
def isSpace (b : UInt8) : Bool := b = 32 || (9 ≤ b && b ≤ 13)

/-- `atoi`: blanks, a sign, and the digits up to the first byte that is none. -/
def atoi (bs : Bytes) : ℤ :=
  match bs.dropWhile isSpace with
  | [] => 0
  | b :: ds =>
    if b = 45 then -number (ds.takeWhile isDigit)
    else if b = 43 then number (ds.takeWhile isDigit)
    else number ((b :: ds).takeWhile isDigit)

/-- How `consume` stops. -/
inductive Exit where
  /-- `std::out_of_range`, which nobody catches. -/
  | outOfRange
  /-- A write behind the end of `message_id_`. -/
  | overrun
  deriving DecidableEq, Repr

/-- An `int` as a `size_t`. -/
def sizeT (x : ℤ) : ℕ := ofSigned 64 x

/-- `substr` with one argument. -/
def substrFrom (s : Bytes) (pos : ℕ) : Except Exit Bytes :=
  if s.length < pos then .error .outOfRange else .ok (s.drop pos)

/-- `substr`. -/
def substr (s : Bytes) (pos n : ℕ) : Except Exit Bytes := (List.take n) <$> substrFrom s pos

/-- The fields of the header and the strings `consume` has built. -/
structure Parsed where
  code : ℕ
  dataLen : ℤ
  messageId : Bytes
  strDispatchType : Bytes
  strStores : Bytes
  strBody : Bytes
  deriving DecidableEq, Repr

/-- What becomes of a message. -/
inductive Outcome where
  | dropped
  | built (parsed : Parsed)
  deriving DecidableEq, Repr

/-- `MSG_TYPE_UPDATE_DATABASE`. -/
def msgTypeUpdateDatabase : ℕ := 103

/-- `MessageListenerErpFinal::consume`. `message_id_` has 33 bytes, the last one for a NUL. -/
def consume (strMsgId strMsg : Bytes) : Except Exit Outcome := do
  let msgLen := toSigned 32 strMsg.length
  if msgLen < 5 then return .dropped
  let strDispatchType ← substr strMsg 0 1
  let strStoreLen ← substr strMsg 1 4
  let iStoreLen := atoi strStoreLen
  if msgLen < iStoreLen + 5 then return .dropped
  let strStores ← substr strMsg 5 (sizeT iStoreLen)
  let strBody ← substrFrom strMsg (sizeT (iStoreLen + 5))
  let dataLen := toSigned 32 (headerSize + strBody.length)
  if 32 < strMsgId.length then throw .overrun
  return .built ⟨msgTypeUpdateDatabase, dataLen, strMsgId, strDispatchType, strStores, strBody⟩

/-! ### The grammar -/

/-- The message is the dispatch type `type`, four digits that spell the length of `stores`, `stores` and
`body`. -/
def Envelope (strMsg : Bytes) (type : UInt8) (stores body : Bytes) : Prop :=
  ∃ digits : Bytes, digits.length = 4 ∧ (∀ b ∈ digits, isDigit b) ∧ number digits = stores.length ∧
    strMsg = type :: (digits ++ (stores ++ body))

/-- **The listener accepts exactly its grammar**: an envelope is taken apart into its parts, with the length
of the header and the payload, and everything else is dropped. -/
def Parses (strMsgId strMsg : Bytes) : Prop :=
  (∀ type stores body, Envelope strMsg type stores body → consume strMsgId strMsg =
    .ok (.built ⟨msgTypeUpdateDatabase, headerSize + body.length, strMsgId, [type], stores, body⟩)) ∧
  ((∀ type stores body, ¬ Envelope strMsg type stores body) → consume strMsgId strMsg = .ok .dropped)

section Message
variable (strMsg : Bytes)

/-- The length field. -/
def lengthField : Bytes := (strMsg.drop 1).take 4

/-- The length field has digits only. -/
def HasNumber : Prop := ∀ b ∈ lengthField strMsg, isDigit b

instance : Decidable (HasNumber strMsg) := inferInstanceAs (Decidable (∀ b ∈ lengthField strMsg, isDigit b))

/-- The length of the store string, by the length field. -/
def storeLen : ℕ := number (lengthField strMsg)

/-- **When a message is understood**: it is shorter than a length field; its length field has digits only,
and as an envelope its lengths are numbers of an `int`; or `atoi` makes of the length field more than there
are bytes behind it. -/
def Understood : Prop :=
  strMsg.length < 5 ∨
  (HasNumber strMsg ∧ (storeLen strMsg + 5 ≤ strMsg.length →
    strMsg.length < 2 ^ 31 ∧ headerSize + (strMsg.length - (storeLen strMsg + 5)) < 2 ^ 31)) ∨
  (¬ HasNumber strMsg ∧ (toSigned 32 strMsg.length < 5 ∨
    toSigned 32 strMsg.length < atoi (lengthField strMsg) + 5))

end Message

/-! ### Numbers -/

theorem isDigit_iff {b : UInt8} : isDigit b ↔ 48 ≤ b.toNat ∧ b.toNat ≤ 57 := by
  simp [isDigit, UInt8.le_iff_toNat_le]

/-- `atoi` of digits. -/
theorem atoi_digits {bs : Bytes} (hne : bs ≠ []) (h : ∀ b ∈ bs, isDigit b) : atoi bs = number bs := by
  obtain ⟨b, ds, rfl⟩ := List.exists_cons_of_ne_nil hne
  have hb := isDigit_iff.mp (h b List.mem_cons_self)
  have hspace : isSpace b = false := by
    simp only [isSpace, UInt8.le_iff_toNat_le, Bool.or_eq_false_iff, decide_eq_false_iff_not,
      Bool.and_eq_false_iff]
    refine ⟨fun heq => ?_, .inr ?_⟩
    · rw [heq] at hb; exact absurd hb.1 (by decide)
    · show ¬ b.toNat ≤ 13
      omega
  have hminus : b ≠ 45 := by rintro rfl; exact absurd hb.1 (by decide)
  have hplus : b ≠ 43 := by rintro rfl; exact absurd hb.1 (by decide)
  unfold atoi
  rw [List.dropWhile_cons_of_neg (by rw [hspace]; decide)]
  dsimp only
  rw [if_neg hminus, if_neg hplus, List.takeWhile_eq_self_iff.mpr h]

theorem number_lt {bs : Bytes} (h : ∀ b ∈ bs, isDigit b) : number bs < 10 ^ bs.length := by
  have hdigits : AreDigits (bs.map fun b => b.toNat - 48) := by
    intro d hd
    obtain ⟨b, hb, rfl⟩ := List.mem_map.mp hd
    have := isDigit_iff.mp (h b hb)
    omega
  have hlt := val_lt hdigits
  rwa [List.length_map] at hlt

/-! ### Envelopes -/

section Parts
variable {strMsg : Bytes}

theorem length_lengthField (h : 5 ≤ strMsg.length) : (lengthField strMsg).length = 4 := by
  rw [lengthField, List.length_take, List.length_drop]; omega

theorem storeLen_lt (h : 5 ≤ strMsg.length) (hnum : HasNumber strMsg) : storeLen strMsg < 10000 := by
  have hlt := number_lt hnum
  rwa [length_lengthField h] at hlt

theorem atoi_lengthField (h : 5 ≤ strMsg.length) (hnum : HasNumber strMsg) :
    atoi (lengthField strMsg) = storeLen strMsg := by
  refine atoi_digits (fun hnil => ?_) hnum
  have hlen := length_lengthField h
  rw [hnil] at hlen
  cases hlen

/-- **An envelope** is a message with a number and that many bytes behind it, and has the parts there. -/
theorem envelope_iff {type : UInt8} {stores body : Bytes} : Envelope strMsg type stores body ↔
    HasNumber strMsg ∧ 5 ≤ strMsg.length ∧ storeLen strMsg + 5 ≤ strMsg.length ∧ strMsg.take 1 = [type] ∧
      stores = (strMsg.drop 5).take (storeLen strMsg) ∧ body = strMsg.drop (storeLen strMsg + 5) := by
  constructor
  · rintro ⟨digits, hlen, hdigits, hnumber, rfl⟩
    have hfield : lengthField (type :: (digits ++ (stores ++ body))) = digits := by
      rw [lengthField, List.drop_one, List.tail_cons, ← hlen, List.take_left]
    have hstore : storeLen (type :: (digits ++ (stores ++ body))) = stores.length := by
      rw [storeLen, hfield, hnumber]
    have hbehind : (type :: (digits ++ (stores ++ body))).drop 5 = stores ++ body := by
      rw [List.drop_succ_cons, ← hlen, List.drop_left]
    have hbody : (type :: (digits ++ (stores ++ body))).drop (stores.length + 5) = body := by
      rw [Nat.add_comm, ← List.drop_drop, hbehind, List.drop_left]
    rw [HasNumber, hfield, hstore, hbehind, hbody]
    refine ⟨hdigits, ?_, ?_, rfl, (List.take_left ..).symm, rfl⟩ <;>
      simp only [List.length_cons, List.length_append] <;> omega
  · rintro ⟨hnum, h5, hlen, htype, rfl, rfl⟩
    refine ⟨lengthField strMsg, length_lengthField h5, hnum, ?_, ?_⟩
    · rw [List.length_take, List.length_drop]
      exact (Nat.min_eq_left (Nat.le_sub_of_add_le hlen)).symm
    · have hbody : strMsg.drop (storeLen strMsg + 5) = (strMsg.drop 5).drop (storeLen strMsg) := by
        rw [List.drop_drop, Nat.add_comm]
      have hbehind : strMsg.drop 5 = (strMsg.drop 1).drop 4 := by rw [List.drop_drop]
      calc strMsg = strMsg.take 1 ++ strMsg.drop 1 := (List.take_append_drop ..).symm
        _ = type :: strMsg.drop 1 := by rw [htype]; rfl
        _ = _ := by rw [hbody, List.take_append_drop, hbehind, lengthField, List.take_append_drop]

/-! ### What `consume` does -/

theorem toSigned_lt (n : ℕ) : toSigned 32 n < 2 ^ 31 := by
  have h := Int.bmod_lt (x := (n : ℤ)) (m := 2 ^ 32) (by norm_num)
  rw [toSigned]
  omega

theorem toSigned_of_small {n : ℕ} (h : n < 2 ^ 31) : toSigned 32 n = n :=
  toSigned_of_lt (by norm_num) (by omega)

/-- The lengths between `2 ^ 31` and `2 ^ 32` are negative. -/
theorem toSigned_neg {n : ℕ} (hlo : 2 ^ 31 ≤ n) (hhi : n < 2 ^ 32) : toSigned 32 n < 0 := by
  exact (Int.bmod_neg_iff (by omega) (by omega)).mpr (.inr (by omega))

theorem consume_short {strMsgId : Bytes} (h : strMsg.length < 5) : consume strMsgId strMsg = .ok .dropped := by
  unfold consume
  dsimp only
  rw [if_pos]
  · rfl
  · rw [toSigned_of_small (by omega)]; omega

/-- What `consume` does behind the comparison with the length. -/
def build (strMsgId strMsg : Bytes) (iStoreLen : ℤ) : Except Exit Outcome := do
  let strStores ← substr strMsg 5 (sizeT iStoreLen)
  let strBody ← substrFrom strMsg (sizeT (iStoreLen + 5))
  let dataLen := toSigned 32 (headerSize + strBody.length)
  if 32 < strMsgId.length then throw .overrun
  return .built ⟨msgTypeUpdateDatabase, dataLen, strMsgId, strMsg.take 1, strStores, strBody⟩

/-- A message with a length field. -/
theorem consume_eq (strMsgId : Bytes) (h : 5 ≤ strMsg.length) : consume strMsgId strMsg =
    if toSigned 32 strMsg.length < 5 ∨ toSigned 32 strMsg.length < atoi (lengthField strMsg) + 5
    then .ok .dropped else build strMsgId strMsg (atoi (lengthField strMsg)) := by
  have htype : substr strMsg 0 1 = .ok (strMsg.take 1) := by
    unfold substr substrFrom
    rw [if_neg (by omega)]
    rfl
  have hfield : substr strMsg 1 4 = .ok (lengthField strMsg) := by
    unfold substr substrFrom
    rw [if_neg (by omega)]
    rfl
  unfold consume
  rw [htype, hfield]
  by_cases hshort : toSigned 32 strMsg.length < 5
  · rw [if_pos hshort, if_pos (.inl hshort)]
    rfl
  by_cases hlong : toSigned 32 strMsg.length < atoi (lengthField strMsg) + 5
  · rw [if_neg hshort, if_pos (.inr hlong)]
    show (if toSigned 32 strMsg.length < atoi (lengthField strMsg) + 5 then _ else _) = _
    rw [if_pos hlong]
    rfl
  · rw [if_neg hshort, if_neg (not_or.mpr ⟨hshort, hlong⟩)]
    show (if toSigned 32 strMsg.length < atoi (lengthField strMsg) + 5 then _ else _) = _
    rw [if_neg hlong]
    rfl

/-- A message that is taken apart is not dropped. -/
theorem build_ne_dropped (strMsgId : Bytes) (iStoreLen : ℤ) :
    build strMsgId strMsg iStoreLen ≠ .ok .dropped := by
  unfold build
  cases substr strMsg 5 (sizeT iStoreLen) with
  | error e => intro h; cases h
  | ok strStores =>
    cases substrFrom strMsg (sizeT (iStoreLen + 5)) with
    | error e => intro h; cases h
    | ok strBody =>
      show (if 32 < strMsgId.length then _ else _) ≠ _
      split_ifs
      · intro h; cases h
      · intro h; cases h

/-- **Which messages are dropped.** -/
theorem consume_dropped_iff (strMsgId : Bytes) (h : 5 ≤ strMsg.length) :
    consume strMsgId strMsg = .ok .dropped ↔
    toSigned 32 strMsg.length < 5 ∨ toSigned 32 strMsg.length < atoi (lengthField strMsg) + 5 := by
  rw [consume_eq strMsgId h]
  split_ifs with hdrop
  · exact iff_of_true rfl hdrop
  · exact iff_of_false (build_ne_dropped _ _) hdrop

theorem sizeT_natCast {n : ℕ} (h : n < 2 ^ 64) : sizeT n = n := by
  unfold sizeT ofSigned
  omega

/-- **A message with a number** in its length field and that many bytes behind it is taken apart there. -/
theorem build_number {strMsgId : Bytes} (hid : strMsgId.length ≤ 32) {n : ℕ} (hn : n < 10000)
    (hlen : n + 5 ≤ strMsg.length) : build strMsgId strMsg n = .ok (.built ⟨msgTypeUpdateDatabase,
      toSigned 32 (headerSize + (strMsg.length - (n + 5))), strMsgId, strMsg.take 1,
      (strMsg.drop 5).take n, strMsg.drop (n + 5)⟩) := by
  have hstores : substr strMsg 5 (sizeT n) = .ok ((strMsg.drop 5).take n) := by
    unfold substr substrFrom
    rw [if_neg (by omega), sizeT_natCast (by omega)]
    rfl
  have hbody : substrFrom strMsg (sizeT ((n : ℤ) + 5)) = .ok (strMsg.drop (n + 5)) := by
    have hcast : ((n : ℤ) + 5) = ((n + 5 : ℕ) : ℤ) := by push_cast; rfl
    unfold substrFrom
    rw [hcast, sizeT_natCast (by omega), if_neg (by omega)]
  unfold build
  rw [hstores, hbody, ← List.length_drop]
  show (if 32 < strMsgId.length then _ else _) = _
  rw [if_neg (by omega)]
  rfl

/-- An envelope is taken apart when its lengths are numbers of an `int`. -/
theorem consume_envelope_iff {strMsgId : Bytes} (hid : strMsgId.length ≤ 32) (h5 : 5 ≤ strMsg.length)
    (hnum : HasNumber strMsg) (hlen : storeLen strMsg + 5 ≤ strMsg.length) :
    consume strMsgId strMsg = .ok (.built ⟨msgTypeUpdateDatabase,
      headerSize + (strMsg.drop (storeLen strMsg + 5)).length, strMsgId, strMsg.take 1,
      (strMsg.drop 5).take (storeLen strMsg), strMsg.drop (storeLen strMsg + 5)⟩) ↔
    strMsg.length < 2 ^ 31 ∧ headerSize + (strMsg.length - (storeLen strMsg + 5)) < 2 ^ 31 := by
  have hlt := storeLen_lt h5 hnum
  have hbuild := build_number hid hlt hlen
  rw [consume_eq strMsgId h5, atoi_lengthField h5 hnum, hbuild, List.length_drop]
  constructor
  · intro h
    split_ifs at h with hdrop
    · cases h
    · rw [Except.ok.injEq, Outcome.built.injEq, Parsed.mk.injEq] at h
      have hdata : toSigned 32 (headerSize + (strMsg.length - (storeLen strMsg + 5))) = _ := h.2.1
      have hbound := toSigned_lt (headerSize + (strMsg.length - (storeLen strMsg + 5)))
      refine ⟨?_, by omega⟩
      by_contra hlong
      have := toSigned_neg (n := strMsg.length) (by omega) (by omega)
      omega
  · rintro ⟨hsmall, hdata⟩
    rw [toSigned_of_small hsmall, if_neg (by omega), toSigned_of_small hdata]
    push_cast
    rfl

end Parts

/-- **The listener accepts exactly its grammar** on the messages it understands: a length field that is no
number is not looked at twice. -/
theorem parses_iff {strMsgId : Bytes} (hid : strMsgId.length ≤ 32) (strMsg : Bytes) :
    Parses strMsgId strMsg ↔ Understood strMsg := by
  unfold Parses Understood
  simp only [envelope_iff]
  rcases Nat.lt_or_ge strMsg.length 5 with hshort | h5
  · refine iff_of_true ⟨?_, fun _ => consume_short hshort⟩ (.inl hshort)
    rintro type stores body ⟨-, h5, -⟩
    omega
  have hdrop := consume_dropped_iff strMsgId h5
  by_cases hnum : HasNumber strMsg
  · have hlt := storeLen_lt h5 hnum
    rw [atoi_lengthField h5 hnum] at hdrop
    rcases Nat.lt_or_ge strMsg.length (storeLen strMsg + 5) with hless | hlen
    · refine iff_of_true ⟨?_, fun _ => hdrop.mpr (.inr ?_)⟩ (.inr (.inl ⟨hnum, fun h => absurd h (by omega)⟩))
      · rintro type stores body ⟨-, -, h, -⟩
        omega
      · rw [toSigned_of_small (by omega)]
        omega
    · obtain ⟨type, htype⟩ : ∃ type, strMsg.take 1 = [type] :=
        List.length_eq_one_iff.mp (by rw [List.length_take]; omega)
      have hbuilt := consume_envelope_iff hid h5 hnum hlen
      rw [htype] at hbuilt
      constructor
      · rintro ⟨h, -⟩
        exact .inr (.inl ⟨hnum, fun _ => hbuilt.mp (h type _ _ ⟨hnum, h5, hlen, htype, rfl, rfl⟩)⟩)
      · rintro (h | ⟨-, h⟩ | ⟨h, -⟩)
        · omega
        · refine ⟨?_, fun h => absurd ⟨hnum, h5, hlen, htype, rfl, rfl⟩ (h type _ _)⟩
          rintro type' stores body ⟨-, -, -, htype', rfl, rfl⟩
          obtain rfl := List.singleton_inj.mp (htype.symm.trans htype')
          exact hbuilt.mpr (h hlen)
        · exact absurd hnum h
  · constructor
    · rintro ⟨-, h⟩
      exact .inr (.inr ⟨hnum, hdrop.mp (h fun type stores body h => hnum h.1)⟩)
    · rintro (h | ⟨h, -⟩ | ⟨-, h⟩)
      · omega
      · exact absurd h hnum
      · exact ⟨fun type stores body h => absurd h.1 hnum, fun _ => hdrop.mpr h⟩

/-- The message of the type `3` for the store `AB` with the payload `{}`. -/
def storeMessage : Bytes := [51, 48, 48, 48, 50, 65, 66, 123, 125]

/-- A message id as the queue gives it, of 32 characters. -/
def messageId : Bytes := List.replicate 32 65

/-- It is taken apart. -/
theorem storeMessage_parses : messageId.length ≤ 32 ∧ Understood storeMessage ∧ Parses messageId storeMessage ∧
    consume messageId storeMessage = .ok (.built ⟨103, 46, messageId, [51], [65, 66], [123, 125]⟩) := by
  have hunderstood : Understood storeMessage := .inr (.inl (by decide +kernel))
  exact ⟨by decide, hunderstood, (parses_iff (by decide) storeMessage).mpr hunderstood, by decide +kernel⟩

/-- The message `1abcdX`. -/
def letterMessage : Bytes := [49, 97, 98, 99, 100, 88]

/-- The message `1-999`. -/
def negativeMessage : Bytes := [49, 45, 57, 57, 57]

/-- **Letters in the length field** pass for a length of zero, and a negative number is not caught. -/
theorem letterMessage_built : consume [] letterMessage = .ok (.built ⟨103, 45, [], [49], [], [88]⟩) ∧
    consume [] negativeMessage = .error .outOfRange ∧ ¬ Parses [] letterMessage := by
  have hbuilt : consume [] letterMessage = .ok (.built ⟨103, 45, [], [49], [], [88]⟩) := by decide +kernel
  refine ⟨hbuilt, by decide +kernel, fun h => ?_⟩
  have hdropped : consume [] letterMessage = .ok .dropped := by
    refine h.2 fun type stores body henvelope => ?_
    have hnum := (envelope_iff.mp henvelope).1
    revert hnum
    decide
  rw [hbuilt] at hdropped
  cases hdropped

end DataSync.Server.ErpListener
