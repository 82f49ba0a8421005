import DataSync.Client.PreBinlog
import DataSync.Server.Upload

/-! # An export on its way up

The client's `SendMessage` takes a text from the code page of the machine to UTF-8 and puts a header in
front. `exported_reach_topic`: the rows of an export reach the topic of the ERP: each by one message, in order,
under the code of the store, with its number, and readable as the row it was. The texts are those that the
two encodings spell alike. -/

namespace DataSync.Server.ExportUpload

open DataSync.Lib.Words DataSync.Lib.Memory DataSync.Lib.Runs
open DataSync.Client.BuildFinally (Text lit Json DoubleFormat uintToString)
open DataSync.Client.JsonReader DataSync.Client.FastWriter DataSync.Client.PreBinlog
open DataSync.Client.MyslqQueue (Table)
open DataSync.Client.PutMessageQueue
open DataSync.Net.Framing
open DataSync.Server.Upload

/-! ### Bytes of a text -/

/-- The bytes of a text of the client. -/
def bytesOf (t : Text) : Bytes := t.map fun c => UInt8.ofNat c.toNat

/-- The text that bytes are to `jsoncpp`. -/
def textOf (bs : Bytes) : Text := bs.map fun b => Char.ofNat b.toNat

/-- A character that the code pages share, and no NUL. -/
def IsAscii (c : Char) : Prop := 0 < c.toNat ∧ c.toNat < 128

instance : DecidablePred IsAscii := fun c => inferInstanceAs (Decidable (0 < c.toNat ∧ c.toNat < 128))

/-- A text of such characters. -/
def AsciiText (t : Text) : Prop := ∀ c ∈ t, IsAscii c

instance : DecidablePred AsciiText := fun t => inferInstanceAs (Decidable (∀ c ∈ t, IsAscii c))

theorem toNat_byte {c : Char} (h : IsAscii c) : (UInt8.ofNat c.toNat).toNat = c.toNat := by
  have hlt := h.2
  rw [UInt8.toNat_ofNat', Nat.mod_eq_of_lt (by omega)]

theorem textOf_bytesOf {t : Text} (h : AsciiText t) : textOf (bytesOf t) = t := by
  rw [textOf, bytesOf, List.map_map]
  refine (List.map_congr_left fun c hc => ?_).trans t.map_id
  rw [Function.comp_apply, toNat_byte (h c hc), Char.ofNat_toNat, id]

theorem bytesOf_ascii {t : Text} (h : AsciiText t) : ∀ b ∈ bytesOf t, b ≠ 0 ∧ b.toNat < 128 := by
  intro b hb
  obtain ⟨c, hc, rfl⟩ := List.mem_map.mp hb
  have hnat := toNat_byte (h c hc)
  refine ⟨fun e => ?_, by rw [hnat]; exact (h c hc).2⟩
  rw [e] at hnat
  exact absurd (h c hc).1 (by rw [← hnat]; decide)

theorem AsciiText.append {s t : Text} (hs : AsciiText s) (ht : AsciiText t) : AsciiText (s ++ t) := fun c hc =>
  (List.mem_append.mp hc).elim (hs c) (ht c)

/-! ### The texts of an export -/

theorem digitChar_ascii : ∀ k < 16, IsAscii (Nat.digitChar k) ∧ IsAscii (Nat.digitChar k).toUpper := by decide

theorem hex4_ascii {c : Char} (h : c.toNat < 32) : AsciiText (hex4 c) := by
  have heq := hex4_eq c.toNat h
  rw [Char.ofNat_toNat] at heq
  have h1 := (digitChar_ascii (c.toNat / 16) (by omega)).1
  have h2 := (digitChar_ascii (c.toNat % 16) (by omega)).2
  intro x hx
  simp only [heq, List.mem_cons, List.not_mem_nil, or_false] at hx
  obtain rfl | rfl | rfl | rfl := hx
  exacts [by decide, by decide, h1, h2]

theorem escape_ascii {c : Char} (h : IsAscii c) : AsciiText (escape c) := by
  obtain ⟨heq, -, -⟩ | ⟨e, heq, -, he⟩ | ⟨heq, hlt⟩ := escape_cases c
  · rw [heq]
    exact fun x hx => List.mem_singleton.mp hx ▸ h
  · have hascii : IsAscii e := by
      unfold simpleEscape at he
      split_ifs at he <;> subst_vars <;> decide
    rw [heq]
    intro x hx
    obtain rfl | hx := List.mem_cons.mp hx
    · decide
    · exact List.mem_singleton.mp hx ▸ hascii
  · rw [heq]
    intro x hx
    obtain rfl | hx := List.mem_cons.mp hx
    · decide
    obtain rfl | hx := List.mem_cons.mp hx
    · decide
    · exact hex4_ascii hlt x hx

theorem quoted_ascii {s : Text} (h : AsciiText s) : AsciiText (valueToQuotedStringN s) := by
  intro c hc
  rw [valueToQuotedStringN_eq] at hc
  simp only [List.mem_append, List.mem_cons, List.mem_flatMap, List.not_mem_nil, or_false] at hc
  obtain (rfl | ⟨x, hx, hc⟩) | rfl := hc
  · decide
  · exact escape_ascii (h x hx) c hc
  · decide

section
variable {ρ : Type} (F : DoubleFormat ρ)

theorem items_ascii {items : List (Json ρ)} (h : ∀ v ∈ items, AsciiText (writeValue F v)) :
    AsciiText (writeItems F items) := by
  induction items with
  | nil => simp [writeItems, AsciiText]
  | cons v items ih =>
    have hv := h v List.mem_cons_self
    have hitems := ih fun w hw => h w (List.mem_cons_of_mem _ hw)
    rcases items with _ | ⟨w, items⟩
    · rw [writeItems]
      exact hv
    · rw [writeItems]
      refine hv.append fun c hc => ?_
      obtain rfl | hc := List.mem_cons.mp hc
      · decide
      · exact hitems c hc

theorem members_ascii {members : List (Text × Json ρ)}
    (h : ∀ m ∈ members, AsciiText m.1 ∧ AsciiText (writeValue F m.2)) : AsciiText (writeMembers F members) := by
  have hone : ∀ {name : Text} {v : Json ρ}, AsciiText name ∧ AsciiText (writeValue F v) →
      AsciiText (valueToQuotedStringN name ++ ':' :: writeValue F v) := by
    intro name v hv
    refine (quoted_ascii hv.1).append fun c hc => ?_
    obtain rfl | hc := List.mem_cons.mp hc
    · decide
    · exact hv.2 c hc
  induction members with
  | nil => simp [writeMembers, AsciiText]
  | cons m members ih =>
    obtain ⟨name, v⟩ := m
    have hv := hone (h (name, v) List.mem_cons_self)
    have hmembers := ih fun w hw => h w (List.mem_cons_of_mem _ hw)
    rcases members with _ | ⟨w, members⟩
    · rw [writeMembers]
      exact hv
    · rw [writeMembers]
      refine hv.append fun c hc => ?_
      obtain rfl | hc := List.mem_cons.mp hc
      · decide
      · exact hmembers c hc

/-- The texts of a row are ASCII. -/
structure AsciiRow (data : GenerateData) : Prop where
  tableName : AsciiText data.tableName.toList
  columnKey : ∀ s ∈ data.columnKey, AsciiText s.toList
  columnVal : ∀ s ∈ data.columnVal, AsciiText s.toList

theorem AsciiRow.isCText {data : GenerateData} (h : AsciiRow data) : IsCText data := by
  have hnul : ∀ {t : Text}, AsciiText t → '\x00' ∉ t := fun ht hc => absurd (ht _ hc) (by decide)
  exact ⟨fun s hs => hnul (h.columnKey s hs), fun s hs => hnul (h.columnVal s hs)⟩

theorem names_ascii : AsciiText (lit "tables") ∧ AsciiText (lit "column") ∧ AsciiText (lit "name") ∧
    AsciiText (lit "values") := by
  simp [AsciiText, lit, IsAscii]

theorem bracket_ascii {t : Text} {a b : Char} (ha : IsAscii a) (hb : IsAscii b) (ht : AsciiText t) :
    AsciiText (a :: t ++ [b]) := by
  intro c hc
  simp only [List.cons_append, List.mem_cons, List.mem_append, List.not_mem_nil, or_false] at hc
  obtain rfl | hc | rfl := hc
  exacts [ha, ht c hc, hb]

theorem row_ascii {data : GenerateData} (h : AsciiRow data) :
    AsciiText (writeValue F (.object (rowMembers data) : Json ρ)) := by
  have hstrings : ∀ {name : String} {ss : List String}, AsciiText (lit name) →
      (∀ s ∈ ss, AsciiText s.toList) → ∀ m ∈ arrayMember name (strings (ρ := ρ) ss),
        AsciiText m.1 ∧ AsciiText (writeValue F m.2) := by
    intro name ss hname hss m hm
    rw [arrayMember_name hm]
    refine ⟨hname, ?_⟩
    rw [writeValue]
    refine bracket_ascii (by decide) (by decide) (items_ascii F fun v hv => ?_)
    obtain ⟨s, hs, rfl⟩ := List.mem_map.mp hv
    rw [writeValue]
    exact quoted_ascii (hss s hs)
  rw [writeValue]
  refine bracket_ascii (by decide) (by decide) (members_ascii F fun m hm => ?_)
  obtain hm | hm := List.mem_append.mp hm
  · exact hstrings names_ascii.2.1 h.columnKey m hm
  obtain rfl | hm := List.mem_cons.mp hm
  · exact ⟨names_ascii.2.2.1, by rw [writeValue]; exact quoted_ascii h.tableName⟩
  · exact hstrings names_ascii.2.2.2 h.columnVal m hm

theorem rows_ascii {rows : List GenerateData} (h : ∀ row ∈ rows, AsciiRow row) :
    AsciiText (writeValue F (rowsValue rows : Json ρ)) := by
  rw [rowsValue, writeValue]
  refine bracket_ascii (by decide) (by decide) (members_ascii F fun m hm => ?_)
  rw [List.mem_singleton.mp hm]
  refine ⟨names_ascii.1, ?_⟩
  rw [writeValue]
  refine bracket_ascii (by decide) (by decide) (items_ascii F fun v hv => ?_)
  obtain ⟨row, hrow, rfl⟩ := List.mem_map.mp hv
  exact row_ascii F (h row hrow)

theorem uintToString_ascii (n : ℕ) : AsciiText (uintToString n) := by
  intro c hc
  have hdigit := isDigit_uintToString n c hc
  simp only [isDigit, Bool.and_eq_true, decide_eq_true_eq, Char.le_def, UInt32.le_iff_toNat_le] at hdigit
  have h0 : '0'.val.toNat = 48 := rfl
  have h9 : '9'.val.toNat = 57 := rfl
  rw [h0, h9] at hdigit
  change 48 ≤ c.toNat ∧ c.toNat ≤ 57 at hdigit
  exact ⟨by omega, by omega⟩

/-- A message of rows. -/
theorem buildSendData_ascii {storehouseId : Text} {data : HeadGenerateData} (hbody : data.headBody ≠ [])
    (hrows : ∀ row ∈ data.headBody, AsciiRow row) (hid : AsciiText data.headID.toList)
    (hstore : AsciiText storehouseId) : AsciiText (buildSendData F storehouseId (some data)) := by
  have hcomma : AsciiText [','] := by simp [AsciiText, IsAscii]
  rw [buildSendData_eq, rootOf_eq hbody fun row hrow => (hrows row hrow).isCText, headText]
  exact ((((((hid.append hcomma).append (uintToString_ascii _)).append hcomma).append
    (uintToString_ascii _)).append hcomma).append hstore).append (rows_ascii F hrows)

end

/-! ### The client -/

/-- `MSG_TYPE_HEART_BEAT`. -/
def msgTypeHeartBeat : ℕ := 104

/-- The message of `SendMessage`. `gbk2Utf8` is `StringCoding::Gbk2Utf8`; the id is what the stack held. -/
def sendMessage (gbk2Utf8 : Bytes → Bytes) (messageId : Bytes) (type : ℕ) (strMessage : Text) : SocketMessage :=
  let strMessage := gbk2Utf8 (bytesOf strMessage)
  ⟨type, headerSize + strMessage.length, messageId, strMessage⟩

/-- Who calls `SendMessage`: `SendStoreCode`, `SendHeartbeat`, or `ProcessBinlogThread` with a head. -/
inductive Call where
  | storeCode
  | heartbeat
  | processBinlog (data : HeadGenerateData)

/-- The head of a call. -/
def Call.head : Call → Option HeadGenerateData
  | .processBinlog data => some data
  | _ => none

section
variable {ρ : Type} (F : DoubleFormat ρ) (gbk2Utf8 : Bytes → Bytes) (storehouseCode : Text)

/-- The text of a call. -/
def Call.text : Call → Text
  | .storeCode => storehouseCode
  | .heartbeat => lit "heartbeat"
  | .processBinlog data => buildSendData F storehouseCode (some data)

/-- The type of a call. -/
def Call.type : Call → ℕ
  | .storeCode => msgTypeStorecode
  | .heartbeat => msgTypeHeartBeat
  | .processBinlog _ => msgTypeBinlog

/-- The message of a call. -/
def messageOf (call : Call × Bytes) : SocketMessage :=
  sendMessage gbk2Utf8 call.2 call.1.type (call.1.text F storehouseCode)

/-- All that a client sends in a connection: its store code, in answer to the "begin" of the server, and the
calls that follow. -/
def session (messageId : Bytes) (calls : List (Call × Bytes)) : List SocketMessage :=
  ((Call.storeCode, messageId) :: calls).map (messageOf F gbk2Utf8 storehouseCode)

/-- A message whose length an `int` holds. -/
structure Fits (call : Call × Bytes) : Prop where
  messageId : call.2.length = 36
  int : headerSize + (call.1.text F storehouseCode).length < 2 ^ 31

variable {F gbk2Utf8 storehouseCode} (hgbk : ∀ bs : Bytes, (∀ b ∈ bs, b.toNat < 128) → gbk2Utf8 bs = bs)
include hgbk

theorem messageOf_body {call : Call × Bytes} (hascii : AsciiText (call.1.text F storehouseCode)) :
    (messageOf F gbk2Utf8 storehouseCode call).body = bytesOf (call.1.text F storehouseCode) :=
  hgbk _ fun b hb => (bytesOf_ascii hascii b hb).2

theorem messageOf_wellFormed {call : Call × Bytes} (hascii : AsciiText (call.1.text F storehouseCode))
    (h : Fits F storehouseCode call) : (messageOf F gbk2Utf8 storehouseCode call).WellFormed := by
  have hbody := messageOf_body hgbk hascii
  have hlen : (messageOf F gbk2Utf8 storehouseCode call).dataLen =
      headerSize + (messageOf F gbk2Utf8 storehouseCode call).body.length := rfl
  refine ⟨?_, hlen, ?_, h.messageId, fun b hb => ?_⟩
  · have htype : ∀ c : Call, c.type < 2 ^ 32 := by
      rintro (_ | _ | _) <;> simp [Call.type, msgTypeStorecode, msgTypeHeartBeat, msgTypeBinlog]
    exact htype call.1
  · rw [hlen, hbody, bytesOf, List.length_map]
    exact h.int
  · exact (bytesOf_ascii hascii b (hbody ▸ hb)).1

/-- What a registered client's message gives: a head its data, under the store code. -/
theorem handlerMessage_messageOf (hcode : AsciiText storehouseCode) {call : Call × Bytes}
    (hascii : AsciiText (call.1.text F storehouseCode))
    (hbody : ∀ data ∈ call.1.head, buildSendData F storehouseCode (some data) ≠ []) :
    let h := handlerMessage [] (bytesOf storehouseCode) (messageOf F gbk2Utf8 storehouseCode call)
    h.clientId = bytesOf storehouseCode ∧ h.raw = call.1.head.map fun data =>
      ⟨bytesOf storehouseCode, bytesOf (buildSendData F storehouseCode (some data))⟩ := by
  have hmessage := messageOf_body hgbk hascii
  obtain ⟨call, messageId⟩ := call
  rcases call with _ | _ | data
  · have hcode : (messageOf F gbk2Utf8 storehouseCode (.storeCode, messageId)).code = msgTypeStorecode := rfl
    -- the server knows the code already
    simp only [handlerMessage, hcode, hmessage, Call.text]
    split_ifs <;> simp_all [Call.head]
  · exact ⟨rfl, rfl⟩
  · have htype : (messageOf F gbk2Utf8 storehouseCode (.processBinlog data, messageId)).code = msgTypeBinlog := rfl
    have hne : ¬ bytesOf (buildSendData F storehouseCode (some data)) = [] := by
      simpa [bytesOf] using hbody data rfl
    have hstr := cStr_of_no_nul fun b hb => (bytesOf_ascii hcode b hb).1
    have hstr' := cStr_of_no_nul fun b hb => (bytesOf_ascii hascii b hb).1
    simp only [Call.text] at hmessage hstr'
    simp only [handlerMessage, htype, hmessage, hstr, hstr', hne, if_false, if_true, Call.head]
    exact ⟨rfl, rfl⟩

/-- The rows of a registered client, one by one. -/
theorem uploads_calls (hcode : AsciiText storehouseCode) {calls : List (Call × Bytes)}
    (hascii : ∀ call ∈ calls, AsciiText (call.1.text F storehouseCode))
    (hbody : ∀ data ∈ calls.filterMap (·.1.head), buildSendData F storehouseCode (some data) ≠ []) :
    uploads (bytesOf storehouseCode) (calls.map (messageOf F gbk2Utf8 storehouseCode)) =
      (calls.filterMap (·.1.head)).map fun data =>
        ⟨bytesOf storehouseCode, [], bytesOf (buildSendData F storehouseCode (some data))⟩ := by
  induction calls with
  | nil => rfl
  | cons call calls ih =>
    have hcall : ∀ data ∈ call.1.head, data ∈ (call :: calls).filterMap (·.1.head) := fun data hd =>
      List.mem_filterMap.mpr ⟨call, List.mem_cons_self, hd⟩
    obtain ⟨hid, hraw⟩ := handlerMessage_messageOf hgbk hcode (hascii call List.mem_cons_self)
      fun data hd => hbody data (hcall data hd)
    have hrest := ih (fun c hc => hascii c (List.mem_cons_of_mem _ hc)) fun data hd => hbody data <| by
      obtain ⟨c, hc, he⟩ := List.mem_filterMap.mp hd
      exact List.mem_filterMap.mpr ⟨c, List.mem_cons_of_mem _ hc, he⟩
    rw [List.map_cons, uploads_cons, hid, hraw, hrest, List.filterMap_cons]
    cases call.1.head <;> rfl

end

/-! ### An export -/

theorem headId_ascii (junk : Bytes) (sTimeTag : Text) : AsciiText (headId junk sTimeTag).toList := by
  have hdigits : ∀ c ∈ "0123456789abcdef".toList, IsAscii c := by simp [IsAscii]
  exact fun c hc => hdigits c (Client.Md5.toString_digits _ _ hc)

section
variable {ρ : Type} {F : DoubleFormat ρ} {gbk2Utf8 : Bytes → Bytes} {storehouseCode : Text}
  {readDouble : Text → Option ρ}

theorem buildSendData_ne_nil {data : HeadGenerateData} : buildSendData F storehouseCode (some data) ≠ [] := by
  rw [buildSendData_eq, headText]
  simp

/-- The session of a client that sends rows opens its connection, and gives the rows to the topic. -/
theorem session_uploads (hgbk : ∀ bs : Bytes, (∀ b ∈ bs, b.toNat < 128) → gbk2Utf8 bs = bs)
    (hcode : AsciiText storehouseCode) (hne : storehouseCode ≠ []) {messageId : Bytes} {calls : List (Call × Bytes)}
    (hascii : ∀ call ∈ calls, AsciiText (call.1.text F storehouseCode))
    (hfits : ∀ call ∈ (.storeCode, messageId) :: calls, Fits F storehouseCode call) :
    Opens (session F gbk2Utf8 storehouseCode messageId calls) ∧
      uploads [] (session F gbk2Utf8 storehouseCode messageId calls) =
        (calls.filterMap (·.1.head)).map fun data =>
          ⟨bytesOf storehouseCode, [], bytesOf (buildSendData F storehouseCode (some data))⟩ := by
  have hall : ∀ call ∈ (.storeCode, messageId) :: calls, AsciiText (call.1.text F storehouseCode) := by
    intro call hc
    obtain rfl | hc := List.mem_cons.mp hc
    · exact hcode
    · exact hascii call hc
  have hbody := messageOf_body hgbk (hall _ List.mem_cons_self)
  have hnil : (messageOf F gbk2Utf8 storehouseCode (.storeCode, messageId)).body ≠ [] := by
    rw [hbody]
    simpa [bytesOf, Call.text] using hne
  refine ⟨⟨fun m hm => ?_, _, _, rfl, rfl, hnil⟩, ?_⟩
  · obtain ⟨call, hc, rfl⟩ := List.mem_map.mp hm
    exact messageOf_wellFormed hgbk (hall call hc) (hfits call hc)
  · rw [session, List.map_cons, uploads_cons, handlerMessage_storecode rfl hnil, hbody, Call.text,
      uploads_calls hgbk hcode hascii fun _ _ => buildSendData_ne_nil]
    rfl

/-- The texts of the calls that send the heads of such rows. -/
theorem calls_ascii (hcode : AsciiText storehouseCode) {headID : String} (hid : AsciiText headID.toList) {total : ℕ}
    {rows : List GenerateData} (hrows : ∀ row ∈ rows, AsciiRow row) {calls : List (Call × Bytes)}
    (hcalls : calls.filterMap (·.1.head) = headsOf headID total 0 rows) :
    ∀ call ∈ calls, AsciiText (call.1.text F storehouseCode) := by
  rintro ⟨_ | _ | data, messageId⟩ hc
  · exact hcode
  · simp [Call.text, lit, AsciiText, IsAscii]
  · have hdata : data ∈ headsOf headID total 0 rows := hcalls ▸ List.mem_filterMap.mpr ⟨_, hc, rfl⟩
    obtain ⟨k, hk, rfl⟩ := List.mem_mapIdx.mp hdata
    exact buildSendData_ascii F (by simp) (by simpa using hrows _ (List.getElem_mem hk)) hid hcode

/-- What the ERP finds for the `k`-th row of an export: a message under the code of the store, without a key,
that reads as that row. -/
def Tells (readDouble : Text → Option ρ) (storehouseCode : Text) (headID : String) (headNumber : ℕ) (slack : Text)
    (message : TopicMessage) (row : ℕ × GenerateData) : Prop :=
  message.tag = bytesOf storehouseCode ∧ message.key = [] ∧
    Reads readDouble (textOf message.body) (headText storehouseCode ⟨headID, headNumber, row.1 + 1, []⟩)
      (rowsValue [row.2]) slack

/-- **The rows reach the topic.** In every state of a run without a disturbance the topic holds the first rows
of the export, one message for each, and all of them when nothing is on its way any more. -/
theorem exported_reach_topic (hgbk : ∀ bs : Bytes, (∀ b ∈ bs, b.toNat < 128) → gbk2Utf8 bs = bs)
    (hcode : AsciiText storehouseCode) (hne : storehouseCode ≠ []) (hbrace : '{' ∉ storehouseCode)
    {junk : Bytes} {sTimeTag : Text} {tables : List Table} (htables : tables ≠ [])
    (hrows : ∀ row ∈ tables.flatMap fun t => records t t.rows, AsciiRow row) {heads : List HeadGenerateData}
    (hheads : putOneMessageQueues (headId junk sTimeTag) (tables.map Table.name) (tables.map Table.keys)
      (tables.map Table.rows) = .ok (true, heads)) {messageId : Bytes} {calls : List (Call × Bytes)}
    (hcalls : calls.filterMap (·.1.head) = heads)
    (hfits : ∀ call ∈ (.storeCode, messageId) :: calls, Fits F storehouseCode call) {slack : Text}
    (hslack : EndsNumber slack) {moves : List Move}
    (h : Avoids step Disturbs (.initial (session F gbk2Utf8 storehouseCode messageId calls)) moves) :
    Throughout step (fun s =>
      List.Forall₂ (Tells readDouble storehouseCode (headId junk sTimeTag) (tables.map fun t => t.rows.length).sum slack)
        s.topic (((tables.flatMap fun t => records t t.rows).mapIdx fun k row => (k, row)).take s.topic.length) ∧
      (AtRest s → s.topic.length = (tables.flatMap fun t => records t t.rows).length))
      (.initial (session F gbk2Utf8 storehouseCode messageId calls)) moves := by
  have hid := headId_ascii junk sTimeTag
  have hnobrace := brace_notMem_headId junk sTimeTag
  rw [putOneMessageQueues_headsOf, decide_eq_true htables] at hheads
  generalize headId junk sTimeTag = headID at hid hnobrace hheads ⊢
  generalize (tables.map fun t => t.rows.length).sum = total at hheads ⊢
  generalize (tables.flatMap fun t => records t t.rows) = rows at hrows hheads ⊢
  obtain rfl : headsOf headID total 0 rows = heads := by simpa using hheads
  have hascii := calls_ascii (F := F) hcode hid hrows hcalls
  obtain ⟨hopens, hup⟩ := session_uploads hgbk hcode hne hascii hfits
  rw [hcalls] at hup
  -- all the messages, if they arrive
  have hreads : List.Forall₂ (fun head (row : ℕ × GenerateData) =>
      Reads readDouble (buildSendData F storehouseCode (some head))
        (headText storehouseCode ⟨headID, total, row.1 + 1, []⟩) (rowsValue [row.2]) slack)
      (headsOf headID total 0 rows) (rows.mapIdx fun k row => (k, row)) :=
    headsOf_reads total (fun row hrow => (hrows row hrow).isCText) hnobrace hbrace hslack
  have hback : ∀ data ∈ headsOf headID total 0 rows,
      textOf (bytesOf (buildSendData F storehouseCode (some data))) = buildSendData F storehouseCode (some data) := by
    intro data hdata
    obtain ⟨call, hc, hhead⟩ := List.mem_filterMap.mp (hcalls.symm ▸ hdata)
    have htext := hascii call hc
    obtain ⟨_ | _ | data', messageId'⟩ := call
    · cases hhead
    · cases hhead
    · obtain rfl : data' = data := by simpa [Call.head] using hhead
      exact textOf_bytesOf htext
  have hall := (List.forall₂_and_left _ _).mpr ⟨hback, hreads⟩
  have htells : List.Forall₂ (Tells readDouble storehouseCode headID total slack)
      (uploads [] (session F gbk2Utf8 storehouseCode messageId calls)) (rows.mapIdx fun k row => (k, row)) := by
    rw [hup, List.forall₂_map_left_iff]
    exact hall.imp fun data row hd => ⟨rfl, rfl, by rw [hd.1]; exact hd.2⟩
  refine (throughout_carries hopens h).mono fun s hs => ?_
  obtain ⟨pending, hc⟩ := hs
  refine ⟨?_, fun hrest => ?_⟩
  · have htake := List.prefix_iff_eq_take.mp (topic_begins hc)
    have hfirst := List.forall₂_take s.topic.length htells
    rwa [← htake] at hfirst
  · rw [topic_atRest hc hrest, htells.length_eq, List.length_mapIdx]

/-- The calls of a client with two heads, and a heartbeat between them. -/
def stockCalls (heads : List HeadGenerateData) : List (Call × Bytes) :=
  heads.flatMap fun data => [(.heartbeat, List.replicate 36 0), (.processBinlog data, List.replicate 36 0)]

theorem stockCalls_heads (heads : List HeadGenerateData) : (stockCalls heads).filterMap (·.1.head) = heads := by
  induction heads with
  | nil => rfl
  | cons data heads ih =>
    rw [stockCalls, List.flatMap_cons, List.filterMap_append, ← stockCalls, ih]
    rfl

theorem stock_fits {headID : String} (hid : headID.toList.length = 32) : ∀ call ∈ (Call.storeCode, List.replicate 36 0) ::
    stockCalls (headsOf headID 2 0 (stock.flatMap fun t => records t t.rows)),
      Fits noDoubles (lit "7") call := by
  have hdata : ∀ data ∈ headsOf headID 2 0 (stock.flatMap fun t => records t t.rows),
      headerSize + (buildSendData noDoubles (lit "7") (some data)).length < 2 ^ 31 := by
    intro data hdata
    obtain ⟨k, hk, rfl⟩ := List.mem_mapIdx.mp hdata
    have hrows : ∀ row ∈ stock.flatMap fun t => records t t.rows,
        (writeValue noDoubles (rootOf [row])).length < 200 := by decide +kernel
    have hlen := hrows _ (List.getElem_mem hk)
    have hcount : (stock.flatMap fun t => records t t.rows).length = 2 := rfl
    have hnumber : ∀ n < 4, (uintToString n).length = 1 := by decide +kernel
    have hcode : (lit "7").length = 1 := by simp [lit]
    rw [buildSendData_eq, headText]
    simp only [List.length_append, List.length_singleton, hid, hnumber 2 (by omega), hnumber (0 + k + 1) (by omega),
      headerSize, hcode]
    omega
  intro call hc
  obtain rfl | hc := List.mem_cons.mp hc
  · exact ⟨rfl, by decide +kernel⟩
  obtain ⟨data, hd, hc⟩ := List.mem_flatMap.mp hc
  simp only [List.mem_cons, List.not_mem_nil, or_false] at hc
  obtain rfl | rfl := hc
  · exact ⟨rfl, by decide +kernel⟩
  · exact ⟨rfl, hdata data hd⟩

theorem stock_ascii : ∀ row ∈ stock.flatMap fun t => records t t.rows, AsciiRow row := by
  intro row hrow
  have hstock : (stock.flatMap fun t => records t t.rows) =
      [⟨"stock", ["sku"], ["3"]⟩, ⟨"stock", ["sku"], ["4"]⟩] := rfl
  rw [hstock] at hrow
  simp only [List.mem_cons, List.not_mem_nil, or_false] at hrow
  obtain rfl | rfl := hrow <;> constructor <;> simp [AsciiText, IsAscii]

/-- A run that brings the rows of `stock` to the topic. -/
theorem exported_reach_topic_stock : ∃ heads moves t,
    putOneMessageQueues (headId (List.replicate 64 0) (lit "2016-01-01 00:00:00")) (stock.map Table.name)
      (stock.map Table.keys) (stock.map Table.rows) = .ok (true, heads) ∧
    moves.foldlM step (.initial (session noDoubles id (lit "7") (List.replicate 36 0) (stockCalls heads))) = .ok t ∧
    AtRest t ∧
    Throughout step (fun s =>
      List.Forall₂ (Tells (fun _ => (none : Option Empty)) (lit "7") (headId (List.replicate 64 0) (lit "2016-01-01 00:00:00"))
        (stock.map fun t => t.rows.length).sum [])
        s.topic (((stock.flatMap fun t => records t t.rows).mapIdx fun k row => (k, row)).take s.topic.length) ∧
      (AtRest s → s.topic.length = (stock.flatMap fun t => records t t.rows).length))
      (.initial (session noDoubles id (lit "7") (List.replicate 36 0) (stockCalls heads))) moves := by
  generalize hid : headId (List.replicate 64 0) (lit "2016-01-01 00:00:00") = headID
  have hlen : headID.toList.length = 32 := by
    rw [← hid, String.length_toList]
    exact Client.Md5.length_toString _ _
  have hcode : AsciiText (lit "7") := by simp [AsciiText, lit, IsAscii]
  have hheads : putOneMessageQueues headID (stock.map Table.name) (stock.map Table.keys) (stock.map Table.rows) =
      .ok (true, headsOf headID 2 0 (stock.flatMap fun t => records t t.rows)) := by
    rw [putOneMessageQueues_headsOf]
    rfl
  have hcalls := stockCalls_heads (headsOf headID 2 0 (stock.flatMap fun t => records t t.rows))
  have hgbk : ∀ bs : Bytes, (∀ b ∈ bs, b.toNat < 128) → id bs = bs := fun _ _ => rfl
  obtain ⟨hopens, -⟩ := session_uploads hgbk hcode (by simp [lit])
    (calls_ascii hcode (hid ▸ headId_ascii _ _) stock_ascii hcalls) (stock_fits hlen)
  obtain ⟨moves, t, havoids, ht, hrest, -⟩ := exists_atRest (carries_initial hopens)
  refine ⟨_, moves, t, hheads, ht, hrest, ?_⟩
  rw [← hid] at hheads havoids ⊢
  exact exported_reach_topic hgbk hcode (by simp [lit]) (by simp [lit]) (by simp [stock]) stock_ascii hheads
    (hid ▸ hcalls) (by rw [hid]; exact stock_fits hlen) (by simp [EndsNumber]) havoids

end

end DataSync.Server.ExportUpload
