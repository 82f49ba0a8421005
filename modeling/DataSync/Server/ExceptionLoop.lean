import DataSync.Queue.HandOff
import DataSync.Server.ErpListener
import DataSync.Server.Registration

/-! # The exception loop

`dispatchMessage` sends to the clients of a store, and what is for a store on the list of disconnected ones goes
to the exception topic under the store code as its key. `MessageListenerException` gives it from there to the
exception queue, and `threadProcessException` sends it to a client of the store, or pushes it to the topic
again. The clients come and go meanwhile, and every thread may move at any time. The broker may hand a message
out more than once; two registrations may overlap (`Registration.Overlaps`), so that two clients have one code;
and the list may change between the two loops of a dispatch (`Interrupts`).

`at_most_once`: as long as none of it happens, a store is never sent a text more often than it was dispatched to it.
`exactly_once_iff`: and no copy of it gets lost, exactly when no move loses one.
`retry_delivers`: from every state a text that is on its way can still reach a store that is back. -/

namespace DataSync.Server.ExceptionLoop

open DataSync.Lib.Words DataSync.Lib.Memory DataSync.Lib.Runs
open DataSync.Net.Framing (headerSize)
open DataSync.Queue
open DataSync.Server.ErpListener (msgTypeUpdateDatabase)
open DataSync.Server.SocketServer
open DataSync.Server.Registration (ServerState)

/-! ### The server -/

/-- A message of the exception topic. -/
structure Message where
  tag : String
  key : Bytes
  body : Bytes
  deriving DecidableEq, Repr

/-- `MQ_DATA`. -/
structure MqData where
  code : ℕ
  dataLen : ℤ
  dispatchType : String
  stores : Bytes
  body : Bytes
  deriving DecidableEq, Repr

/-- `MessageListenerException::consume`: the data for `ProductExceptionData`. -/
def consume (message : Message) : Option MqData :=
  if toSigned 32 message.body.length < 5 then none
  else if message.key = [] then none
  else some ⟨msgTypeUpdateDatabase, toSigned 32 (headerSize + message.body.length), "1", message.key, message.body⟩

/-- A call of `dispatchMessage`. -/
structure Dispatched where
  type : String
  storeCode : Bytes
  strData : Bytes
  deriving DecidableEq, Repr

/-- The server with its registry, the exception topic, the exception queue (thread 0 is that of
`threadProcessException`, the others are the listener's), the dispatches, the one whose second loop is still to
come, and the successful sends. -/
structure State where
  server : ServerState
  topic : List Message
  queue : HandOff.State MqData
  dispatched : List Dispatched
  dealing : Option Dispatched
  sent : List (HandlerClientSocket × Bytes)

/-- The server at its start. -/
def State.initial : State := ⟨.initial, [], .initial, [], none, []⟩

/-- The registry, as the dispatches see it. -/
abbrev State.registry (s : State) : Registry := s.server.registry

/-- What a send comes to. -/
def sentAs (strData : Bytes) : Effect → Option (HandlerClientSocket × Bytes)
  | .sent h ok => if ok then some (h, strData) else none
  | .pushed _ => none

/-- What a push comes to, with the result of `pushMessage`. -/
def pushedAs (pushOk : Bytes → Bool) (strData : Bytes) : Effect → Option Message
  | .sent _ _ => none
  | .pushed storeCode => if pushOk storeCode then some ⟨"ERP_SEND_TO_WMS_FAILED", storeCode, strData⟩ else none

/-- What effects come to. -/
def perform (pushOk : Bytes → Bool) (strData : Bytes) (s : State) (effects : List Effect) : State :=
  { s with
    topic := s.topic ++ effects.filterMap (pushedAs pushOk strData)
    sent := s.sent ++ effects.filterMap (sentAs strData) }

/-- A round of `threadProcessException`, with what it has taken out of the queue. -/
def threadProcessException (sendOk : HandlerClientSocket → Bool) (pushOk : Bytes → Bool) (s : State)
    (queue : HandOff.State MqData) : State :=
  (queue.consumed.drop s.queue.consumed.length).foldl (fun s data =>
    if data.stores = [] then s
    else perform pushOk data.body s (dispatchOneMessage sendOk s.registry data.dispatchType data.stores))
    { s with queue := queue }

/-- `ProductExceptionData` in the listener's thread `t`, if there is something for it. -/
def product (t : ℕ) (s : State) : Option MqData → Res State
  | none => .ok s
  | some data => do
    let queue ← HandOff.step .mqException s.queue (.product (t + 1) data)
    return { s with queue := queue }

/-- Who moves, with the results of the sends and the pushes. A loop over the clients or over the list of
disconnected stores holds no lock; it is one move, as a change of what it goes through is a race. -/
inductive Move where
  /-- A thread that accepts, registers or drops clients moves. -/
  | serve (move : Registration.Move)
  /-- The broker will hand the message at `i` out once more. -/
  | redeliver (i : ℕ)
  /-- `dispatchMessage` goes through the clients; only `threadProcess` calls it. -/
  | dispatch (type : String) (storeCode strData : Bytes) (sendOk : HandlerClientSocket → Bool)
  /-- And through the list of disconnected stores. -/
  | deal (pushOk : Bytes → Bool)
  /-- The listener's thread `t` is given the message at `i`. -/
  | listen (t i : ℕ)
  /-- `threadProcessException` asks for data. -/
  | process (sendOk : HandlerClientSocket → Bool) (pushOk : Bytes → Bool)
  /-- A thread wakes from its wait. -/
  | wake (t : ℕ) (sendOk : HandlerClientSocket → Bool) (pushOk : Bytes → Bool)

/-- One move. -/
def step (s : State) : Move → Res State
  | .serve move => do
    let server ← Registration.step s.server move
    return { s with server := server }
  | .redeliver i =>
    match s.topic[i]? with
    | none => .ok s
    | some message => .ok { s with topic := s.topic ++ [message] }
  | .dispatch type storeCode strData sendOk =>
    match s.dealing with
    | some _ => .ok s
    | none => .ok
      { s with
        dispatched := s.dispatched ++ [⟨type, storeCode, strData⟩]
        dealing := some ⟨type, storeCode, strData⟩
        sent := s.sent ++ (sendClients sendOk s.registry type storeCode).filterMap (sentAs strData) }
  | .deal pushOk =>
    match s.dealing with
    | none => .ok s
    | some d => .ok
      { s with
        topic := s.topic ++
          (dealDisconnectStoreData s.registry d.type d.storeCode).filterMap (pushedAs pushOk d.strData)
        dealing := none }
  | .listen t i =>
    match s.queue.threads (t + 1) with
    | .outside =>
      match s.topic[i]? with
      | none => .ok s
      | some message => product t { s with topic := s.topic.eraseIdx i } (consume message)
    | _ => .ok s
  | .process sendOk pushOk =>
    threadProcessException sendOk pushOk s <$> HandOff.step .mqException s.queue (.consumer 0)
  | .wake t sendOk pushOk =>
    threadProcessException sendOk pushOk s <$> HandOff.step .mqException s.queue (.wake t)

/-! ### Copies -/

/-- The dispatch is addressed to store `c`. -/
def addresses (type : String) (storeCode c : Bytes) : Bool :=
  if type = "1" then c == cStr storeCode
  else if type = "2" then (splitStrToVector storeCode).contains c
  else type = "3"

/-- How often `b` was dispatched to store `c`. -/
def dispatches (c b : Bytes) (s : State) : ℕ :=
  s.dispatched.countP fun d => addresses d.type d.storeCode c && d.strData == b

/-- The effect puts a message for `c` on the topic. -/
def pushedTo (pushOk : Bytes → Bool) (c : Bytes) : Effect → Bool
  | .sent _ _ => false
  | .pushed d => pushOk d && d == c

/-- The copies of `b` that the second loop of a dispatch will push for store `c`. -/
def pending (c b : Bytes) (s : State) : ℕ :=
  match s.dealing with
  | none => 0
  | some d =>
    if d.strData = b then
      (dealDisconnectStoreData s.registry d.type d.storeCode).countP (pushedTo (fun _ => true) c)
    else 0

/-- The copies of `b` that clients of store `c` have been sent, or that are on their way to it. -/
def copies (c b : Bytes) (s : State) : ℕ :=
  (s.sent.countP fun e => e.1.clientId == c && e.2 == b) + pending c b s +
    (s.topic.countP fun m => m.key == c && m.body == b) +
    s.queue.deque.countP fun d => d.stores == c && d.body == b

/-- A client of `c` takes a message. -/
def Takes (sendOk : HandlerClientSocket → Bool) (r : Registry) (c : Bytes) : Prop :=
  ∃ h ∈ r.clients, h.clientId = c ∧ sendOk h = true

instance (sendOk : HandlerClientSocket → Bool) (r : Registry) (c : Bytes) : Decidable (Takes sendOk r c) :=
  inferInstanceAs (Decidable (∃ h ∈ r.clients, h.clientId = c ∧ sendOk h = true))

/-- Store `c` is on the list. For a single store the list is asked for the whole string. -/
def OnList (r : Registry) (type : String) (storeCode c : Bytes) : Prop :=
  c ∈ r.disconnectStore ∧ (type = "1" → storeCode = c)

instance (r : Registry) (type : String) (storeCode c : Bytes) : Decidable (OnList r type storeCode c) :=
  inferInstanceAs (Decidable (c ∈ r.disconnectStore ∧ (type = "1" → storeCode = c)))

/-- What a move takes out of the queue. -/
def taken (queue : HandOff.State MqData) : HandOff.Move MqData → Option MqData
  | .product _ _ => none
  | .consumer t =>
    match queue.threads t with
    | .outside => queue.deque.head?
    | _ => none
  | .wake t =>
    match queue.threads t with
    | .waitEmpty => queue.deque.head?
    | _ => none

/-- The retry of a copy of `b` for store `c` finds a client that does not take it first, or none and its push
fails. -/
def LosesRetry (c b : Bytes) (s : State) (sendOk : HandlerClientSocket → Bool) (pushOk : Bytes → Bool)
    (move : HandOff.Move MqData) : Prop :=
  ∃ d, taken s.queue move = some d ∧ d.stores = c ∧ d.body = b ∧
    ¬ (firstTakes sendOk s.registry c = true ∨ ((∀ h ∈ s.registry.clients, h.clientId ≠ c) ∧ pushOk c = true))

/-- The move loses a copy of `b` for store `c`: a dispatch to a client whose send fails, or to a store that is
neither connected nor on the list; a push that fails; a message too short for the listener, or a full
queue; a retry that comes to nothing. -/
def Loses (c b : Bytes) (s : State) : Move → Prop
  | .serve _ | .redeliver _ => False
  | .dispatch type storeCode strData sendOk =>
    s.dealing = none ∧ strData = b ∧ addresses type storeCode c = true ∧
      ¬ (Takes sendOk s.registry c ∨ OnList s.registry type storeCode c)
  | .deal pushOk => pending c b s ≠ 0 ∧ pushOk c = false
  | .listen t i =>
    s.queue.threads (t + 1) = .outside ∧ ∃ m, s.topic[i]? = some m ∧ m.key = c ∧ m.body = b ∧
      (toSigned 32 b.length < 5 ∨ HandOff.capacity .mqException ≤ s.queue.deque.length)
  | .process sendOk pushOk => LosesRetry c b s sendOk pushOk (.consumer 0)
  | .wake t sendOk pushOk => LosesRetry c b s sendOk pushOk (.wake t)

/-- The list of disconnected stores changes between the two loops of a dispatch. -/
def Interrupts (s : State) (move : Registration.Move) : Prop :=
  s.dealing ≠ none ∧
    (fun server => server.registry.disconnectStore) <$> Registration.step s.server move ≠
      .ok s.registry.disconnectStore

instance (s : State) (move : Registration.Move) : Decidable (Interrupts s move) :=
  inferInstanceAs (Decidable (s.dealing ≠ none ∧
    (fun server => server.registry.disconnectStore) <$> Registration.step s.server move ≠
      .ok s.registry.disconnectStore))

/-- What at-most-once delivery does not survive: a registration that overlaps with another one or with the end
of its own client, a store that comes or goes within a dispatch, and a broker that hands a message out again. -/
def Disturbs (s : State) : Move → Prop
  | .serve move => Registration.Overlaps s.server move ∨ Interrupts s move
  | .redeliver _ => True
  | _ => False

/-- The listener or `threadProcessException` moves. -/
def Works : Move → Prop
  | .listen .. | .process .. | .wake .. => True
  | _ => False

instance (s : State) : (move : Move) → Decidable (Disturbs s move)
  | .serve move => inferInstanceAs (Decidable (Registration.Overlaps s.server move ∨ Interrupts s move))
  | .redeliver _ => inferInstanceAs (Decidable True)
  | .dispatch .. | .deal _ | .listen .. | .process .. | .wake .. => inferInstanceAs (Decidable False)

/-- What holds in every state: the codes that go round are those of stores, and the thread that empties the queue
does not wait for room in it. -/
structure Good (s : State) : Prop where
  ids : Registration.Ids s.server
  topic : ∀ m ∈ s.topic, m.key ≠ [] ∧ ∀ b ∈ m.key, b ≠ 0
  queue : ∀ d ∈ s.queue.deque, d.dispatchType = "1" ∧ d.stores ≠ [] ∧ ∀ b ∈ d.stores, b ≠ 0
  consumer : ∀ data, s.queue.threads 0 ≠ .waitFull data

theorem good_initial : Good .initial := ⟨Registration.ids_initial, by simp [State.initial],
  by simp [State.initial, HandOff.State.initial], by simp [State.initial, HandOff.State.initial]⟩

/-! ### Effects -/

theorem countP_sentAs (strData : Bytes) (effects : List Effect) (c b : Bytes) :
    (effects.filterMap (sentAs strData)).countP (fun e => e.1.clientId == c && e.2 == b) =
      if strData = b then effects.countP (sentTo c) else 0 := by
  rw [List.countP_filterMap]
  split_ifs with hb
  · refine List.countP_congr fun e _ => ?_
    rcases e with ⟨h, _ | _⟩ | d <;> simp [sentAs, sentTo, hb]
  · refine List.countP_eq_zero.mpr fun e _ => ?_
    rcases e with ⟨h, _ | _⟩ | d <;> simp [sentAs, hb]

theorem countP_pushedAs (pushOk : Bytes → Bool) (strData : Bytes) (effects : List Effect) (c b : Bytes) :
    (effects.filterMap (pushedAs pushOk strData)).countP (fun m => m.key == c && m.body == b) =
      if strData = b then effects.countP (pushedTo pushOk c) else 0 := by
  rw [List.countP_filterMap]
  split_ifs with hb
  · refine List.countP_congr fun e _ => ?_
    rcases e with ⟨h, ok⟩ | d
    · simp [pushedAs, pushedTo]
    · cases hd : pushOk d <;> simp [pushedAs, pushedTo, hb, hd]
  · refine List.countP_eq_zero.mpr fun e _ => ?_
    rcases e with ⟨h, ok⟩ | d
    · simp [pushedAs]
    · cases hd : pushOk d <;> simp [pushedAs, hb, hd]

theorem copies_perform (pushOk : Bytes → Bool) (strData : Bytes) (s : State) (effects : List Effect) (c b : Bytes) :
    copies c b (perform pushOk strData s effects) = copies c b s +
      if strData = b then effects.countP (sentTo c) + effects.countP (pushedTo pushOk c) else 0 := by
  have hpending : pending c b (perform pushOk strData s effects) = pending c b s := rfl
  rw [copies, copies, hpending]
  simp only [perform, List.countP_append, countP_sentAs, countP_pushedAs]
  split_ifs <;> omega

/-- A push that fails is counted by the others only. -/
theorem countP_pushedTo (pushOk : Bytes → Bool) (effects : List Effect) (c : Bytes) :
    effects.countP (pushedTo pushOk c) = if pushOk c = true then effects.countP (pushedTo (fun _ => true) c) else 0 := by
  split_ifs with hok
  · refine List.countP_congr fun e _ => ?_
    rcases e with ⟨h, ok⟩ | d
    · simp [pushedTo]
    · simp only [pushedTo, Bool.and_eq_true, beq_iff_eq, true_and]
      exact ⟨fun h => h.2, fun h => ⟨h ▸ hok, h⟩⟩
  · refine List.countP_eq_zero.mpr fun e _ => ?_
    rcases e with ⟨h, ok⟩ | d
    · simp [pushedTo]
    · simp only [pushedTo, Bool.and_eq_true, beq_iff_eq]
      exact fun h => hok (h.2 ▸ h.1)

section Registry
variable {r : Registry} (hids : CStringIds r) {c : Bytes} (sendOk : HandlerClientSocket → Bool)
  (pushOk : Bytes → Bool)

section Once
variable (hone : occurrences r c ≤ 1)
include hone

/-- A store has one client at most. -/
theorem countP_clients :
    (r.clients.countP fun h => sendOk h && h.clientId == c) = if Takes sendOk r c then 1 else 0 := by
  have hle : (r.clients.countP fun h => sendOk h && h.clientId == c) ≤ r.clients.countP (·.clientId == c) :=
    List.countP_mono_left fun h _ hh => (Bool.and_eq_true_iff.mp hh).2
  have hpos : 0 < (r.clients.countP fun h => sendOk h && h.clientId == c) ↔ Takes sendOk r c := by
    simp only [List.countP_pos_iff, Takes, Bool.and_eq_true, beq_iff_eq]
    exact exists_congr fun h => and_congr_right fun _ => and_comm
  unfold occurrences at hone
  split_ifs with ht
  · have := hpos.mpr ht
    omega
  · have := mt hpos.mp ht
    omega

/-- And is on the list once at most. -/
theorem countP_list : r.disconnectStore.countP (· == c) = if c ∈ r.disconnectStore then 1 else 0 := by
  have hcount : r.disconnectStore.countP (· == c) = r.disconnectStore.count c := rfl
  have hpos : 0 < r.disconnectStore.count c ↔ c ∈ r.disconnectStore := List.count_pos_iff
  unfold occurrences at hone
  rw [hcount]
  split_ifs with ht
  · have := hpos.mpr ht
    omega
  · have := mt hpos.mp ht
    omega

end Once

include hids in
/-- The first client of a store code. -/
theorem countP_sendFirst_of (storeCode : Bytes) : (sendFirst sendOk r storeCode).countP (sentTo c) =
    if c = cStr storeCode ∧ firstTakes sendOk r c = true then 1 else 0 := by
  by_cases hcode : c = cStr storeCode
  · have hnul : ∀ b ∈ c, b ≠ 0 := hcode ▸ fun b hb => mem_cStr_ne_zero hb
    have hsame : sendFirst sendOk r storeCode = sendFirst sendOk r c := by
      have hcmp : cmpClientId storeCode = cmpClientId c := by
        funext h
        rw [cmpClientId, cmpClientId, cStr_of_no_nul hnul, hcode]
      rw [sendFirst, sendFirst, hcmp]
    rw [hsame, countP_sendFirst]
    simp [← hcode]
  · rw [if_neg fun h => hcode h.1, List.countP_eq_zero]
    intro e he
    unfold sendFirst at he
    cases hfind : r.clients.find? (cmpClientId storeCode) with
    | none => simp [hfind] at he
    | some h =>
      rw [hfind] at he
      obtain rfl := List.mem_singleton.mp he
      have hcmp : cStr storeCode = h.clientId := by
        have hcmp := List.find?_some hfind
        rwa [cmpClientId, beq_iff_eq, cStr_of_no_nul (hids h (List.mem_of_find?_eq_some hfind))] at hcmp
      have hne : h.clientId ≠ c := fun e => hcode (e ▸ hcmp.symm)
      simp [sentTo, hne]

theorem countP_pushed_sendFirst (storeCode : Bytes) :
    (sendFirst sendOk r storeCode).countP (pushedTo pushOk c) = 0 := by
  unfold sendFirst
  cases r.clients.find? (cmpClientId storeCode) <;> simp [pushedTo]

theorem countP_sent (clients : List HandlerClientSocket) :
    (clients.map fun h => Effect.sent h (sendOk h)).countP (sentTo c) =
      clients.countP fun h => sendOk h && h.clientId == c := List.countP_map

theorem countP_pushed (codes : List Bytes) :
    (codes.map Effect.pushed).countP (pushedTo (fun _ => true) c) = codes.countP (· == c) :=
  List.countP_map

theorem countP_push_sent (d : Bytes) (p : Prop) [Decidable p] :
    (if p then [Effect.pushed d] else []).countP (sentTo c) = 0 := by
  split <;> simp [sentTo]

theorem countP_push (d : Bytes) (p : Prop) [Decidable p] :
    (if p then [Effect.pushed d] else []).countP (pushedTo pushOk c) =
      if p ∧ pushOk d = true ∧ d = c then 1 else 0 := by
  by_cases hp : p <;> simp [hp, pushedTo, List.countP_singleton]

/-- Of those that have the code of a store, a list of codes takes all or none. -/
theorem countP_filter_mem {α : Type} {f : α → Bytes} {p : α → Bool} (hp : ∀ a, p a = true → f a = c) (l : List α)
    {codes : List Bytes} : (l.filter (f · ∈ codes)).countP p = if c ∈ codes then l.countP p else 0 := by
  rw [List.countP_filter]
  split_ifs with hmem
  · refine List.countP_congr fun a _ => ?_
    simp only [Bool.and_eq_true, decide_eq_true_eq, and_iff_left_iff_imp]
    intro ha
    rwa [hp a ha]
  · refine List.countP_eq_zero.mpr fun a _ => ?_
    simp only [Bool.and_eq_true, decide_eq_true_eq, not_and]
    intro ha
    rwa [hp a ha]

include hids in
/-- What the loops of a dispatch come to for a store that has its code once: one send, one push, or nothing. -/
theorem countP_dispatchMessage (hone : occurrences r c ≤ 1) (hlist : ∀ d ∈ r.disconnectStore, ∀ b ∈ d, b ≠ 0)
    (type : String) (storeCode : Bytes) :
    (sendClients sendOk r type storeCode).countP (sentTo c) +
      (dealDisconnectStoreData r type storeCode).countP (pushedTo (fun _ => true) c) =
    if addresses type storeCode c = true ∧ (Takes sendOk r c ∨ OnList r type storeCode c) then 1 else 0 := by
  have hnot : Takes sendOk r c → c ∉ r.disconnectStore := by
    rintro ⟨h, hh, hid, -⟩
    exact not_mem_disconnectStore hone hh hid
  have hclients := countP_clients sendOk hone
  have hcodes := countP_list hone
  have hfirst : c = cStr storeCode → (firstTakes sendOk r c = true ↔ Takes sendOk r c) := fun hcode =>
    firstTakes_iff hone hids (hcode ▸ fun b hb => mem_cStr_ne_zero hb) sendOk
  unfold sendClients dealDisconnectStoreData addresses OnList
  by_cases h1 : type = "1"
  · subst h1
    simp only [if_true, countP_sendFirst_of hids, beq_iff_eq, forall_const, countP_push, and_congr_right hfirst]
    by_cases hcode : storeCode = c
    · subst hcode
      by_cases hmem : storeCode ∈ r.disconnectStore
      · have hstr := cStr_of_no_nul (hlist storeCode hmem)
        have hno : ¬ Takes sendOk r storeCode := fun ht => hnot ht hmem
        simp [hmem, hstr, hno]
      · simp [hmem]
    · simp [hcode]
  by_cases h2 : type = "2"
  · subst h2
    have h21 : ("2" : String) ≠ "1" := by decide
    simp only [h21, if_false, if_true, countP_sent, countP_pushed, false_implies, and_true]
    have hcode : (r.disconnectStore.filter (· ∈ splitStrToVector storeCode)).countP (· == c) =
        if c ∈ splitStrToVector storeCode then r.disconnectStore.countP (· == c) else 0 :=
      countP_filter_mem (f := fun d => d) (fun d hd => by simpa using hd) r.disconnectStore
    rw [hcode, countP_filter_mem (fun h hh => by simpa using (Bool.and_eq_true_iff.mp hh).2) r.clients, hclients,
      hcodes]
    by_cases hmem : c ∈ splitStrToVector storeCode
    · by_cases ht : Takes sendOk r c
      · simp [hmem, ht, hnot ht]
      · simp [hmem, ht]
    · simp [hmem]
  by_cases h3 : type = "3"
  · subst h3
    have h31 : ("3" : String) ≠ "1" := by decide
    have h32 : ("3" : String) ≠ "2" := by decide
    simp only [h31, h32, if_false, if_true, countP_sent, countP_pushed, false_implies, and_true, decide_true, true_and]
    rw [hclients, hcodes]
    by_cases ht : Takes sendOk r c
    · simp [ht, hnot ht]
    · simp [ht]
  · simp [h1, h2, h3]

include hids in
/-- And what a retry comes to, however many clients have the code. -/
theorem countP_dispatchOneMessage {storeCode : Bytes} (hnul : ∀ b ∈ storeCode, b ≠ 0) :
    (dispatchOneMessage sendOk r "1" storeCode).countP (sentTo c) +
      (dispatchOneMessage sendOk r "1" storeCode).countP (pushedTo pushOk c) =
    if storeCode = c ∧ (firstTakes sendOk r c = true ∨ ((∀ h ∈ r.clients, h.clientId ≠ c) ∧ pushOk c = true))
      then 1 else 0 := by
  have hstr := cStr_of_no_nul hnul
  simp only [dispatchOneMessage, if_true, List.countP_append, countP_sendFirst_of hids, countP_pushed_sendFirst,
    hstr, countP_push_sent, countP_push]
  by_cases hcode : storeCode = c
  swap
  · simp [hcode, Ne.symm hcode]
  subst hcode
  have hnone : r.clients.find? (cmpClientId storeCode) = none ↔ ∀ h ∈ r.clients, h.clientId ≠ storeCode := by
    rw [List.find?_eq_none]
    exact forall₂_congr fun h hh => not_congr (cmpClientId_iff hids hnul hh)
  by_cases hall : ∀ h ∈ r.clients, h.clientId ≠ storeCode
  · have hno : firstTakes sendOk r storeCode = false := by
      rw [firstTakes, hnone.mpr hall]
      rfl
    simp only [hnone.mpr hall, hno, iff_true_intro hall]
    simp
  · simp only [mt hnone.mp hall, hall]
    simp

end Registry

/-! ### One move -/

theorem good_perform {s : State} (hs : Good s) (pushOk : Bytes → Bool) (strData : Bytes)
    {effects : List Effect} (h : ∀ d, .pushed d ∈ effects → d ≠ [] ∧ ∀ b ∈ d, b ≠ 0) :
    Good (perform pushOk strData s effects) := by
  refine ⟨hs.ids, fun m hm => ?_, hs.queue, hs.consumer⟩
  obtain hm | hm := List.mem_append.mp hm
  · exact hs.topic m hm
  obtain ⟨e, he, hm⟩ := List.mem_filterMap.mp hm
  rcases e with ⟨g, ok⟩ | d
  · simp [pushedAs] at hm
  · cases hok : pushOk d
    · simp [pushedAs, hok] at hm
    · simp only [pushedAs, hok, if_true, Option.some.injEq] at hm
      exact hm ▸ h d he

theorem pushed_notMem_sendFirst {sendOk : HandlerClientSocket → Bool} {r : Registry} {c d : Bytes} :
    .pushed d ∉ sendFirst sendOk r c := by
  unfold sendFirst
  cases r.clients.find? (cmpClientId c) <;> simp

/-- Only stores on the list are pushed. -/
theorem mem_of_pushed {r : Registry} {type : String} {storeCode d : Bytes}
    (h : .pushed d ∈ dealDisconnectStoreData r type storeCode) : d ∈ r.disconnectStore := by
  unfold dealDisconnectStoreData at h
  split_ifs at h with h1 hmem h2 h3
  · obtain rfl : d = storeCode := by simpa using h
    exact hmem
  · cases h
  · simp at h
    exact h.1
  · simpa using h
  · cases h

/-- The loop goes by the list only. -/
theorem pending_congr {s t : State} (hdealing : t.dealing = s.dealing)
    (hlist : t.registry.disconnectStore = s.registry.disconnectStore) (c b : Bytes) :
    pending c b t = pending c b s := by
  unfold pending dealDisconnectStoreData
  rw [hdealing, hlist]

/-- What a move does to the copies: it keeps them in step with the dispatches, or loses one. -/
def Accounts (c b : Bytes) (s t : State) (lost : Prop) : Prop :=
  (lost → copies c b t + dispatches c b s + 1 = copies c b s + dispatches c b t) ∧
    (¬ lost → copies c b t + dispatches c b s = copies c b s + dispatches c b t)

theorem step_listen {s : State} {t i : ℕ} {m : Message} (hthread : s.queue.threads (t + 1) = .outside)
    (hi : s.topic[i]? = some m) :
    step s (.listen t i) = product t { s with topic := s.topic.eraseIdx i } (consume m) := by
  simp only [step, hthread, hi]

theorem product_some {s : State} {t : ℕ} (hthread : s.queue.threads (t + 1) = .outside) (data : MqData) :
    product t s (some data) = .ok { s with
      queue := if HandOff.capacity .mqException ≤ s.queue.deque.length then
          { s.queue with threads := Function.update s.queue.threads (t + 1) (.waitFull data) }
        else { s.queue with deque := s.queue.deque ++ [data], returned := s.queue.returned ++ [data] } } := by
  simp only [product, HandOff.step, hthread]
  split_ifs <;> rfl

section Moves
variable {s : State} (hs : Good s) {c : Bytes} (b : Bytes)
include hs

/-- Another message on the topic. -/
theorem good_topic {topic : List Message} (htopic : ∀ m ∈ topic, m.key ≠ [] ∧ ∀ b ∈ m.key, b ≠ 0)
    (dealing : Option Dispatched) : Good { s with topic := s.topic ++ topic, dealing := dealing } :=
  ⟨hs.ids, fun m hm => (List.mem_append.mp hm).elim (hs.topic m) (htopic m), hs.queue, hs.consumer⟩

/-- A dispatch to a store that has its code once. -/
theorem dispatch_accounts (hone : occurrences s.registry c ≤ 1) (type : String) (storeCode strData : Bytes)
    (sendOk : HandlerClientSocket → Bool) : ∃ t, step s (.dispatch type storeCode strData sendOk) = .ok t ∧ Good t ∧
      t.server = s.server ∧ Accounts c b s t (Loses c b s (.dispatch type storeCode strData sendOk)) := by
  cases hdealing : s.dealing with
  | some d => exact ⟨s, by simp only [step, hdealing], hs, rfl, by simp [Accounts, Loses, hdealing]⟩
  | none =>
    have hstep : step s (.dispatch type storeCode strData sendOk) = .ok
        { s with
          dispatched := s.dispatched ++ [⟨type, storeCode, strData⟩]
          dealing := some ⟨type, storeCode, strData⟩
          sent := s.sent ++ (sendClients sendOk s.registry type storeCode).filterMap (sentAs strData) } := by
      simp only [step, hdealing]
    refine ⟨_, hstep, ⟨hs.ids, hs.topic, hs.queue, hs.consumer⟩, rfl, ?_⟩
    have hcount := countP_dispatchMessage hs.ids.clients sendOk hone (fun d hd => (hs.ids.list d hd).2) type storeCode
    have hbefore : pending c b s = 0 := by simp only [pending, hdealing]
    have hpending : pending c b
        { s with
          dispatched := s.dispatched ++ [⟨type, storeCode, strData⟩]
          dealing := some ⟨type, storeCode, strData⟩
          sent := s.sent ++ (sendClients sendOk s.registry type storeCode).filterMap (sentAs strData) } =
        if strData = b then (dealDisconnectStoreData s.registry type storeCode).countP (pushedTo (fun _ => true) c)
        else 0 := rfl
    simp only [Accounts, Loses, copies, hbefore, hpending, dispatches, hdealing, List.countP_append, countP_sentAs,
      List.countP_singleton, Bool.and_eq_true, beq_iff_eq, true_and]
    generalize (sendClients sendOk s.registry type storeCode).countP (sentTo c) = sends at hcount ⊢
    generalize (dealDisconnectStoreData s.registry type storeCode).countP (pushedTo (fun _ => true) c) = pushes
      at hcount ⊢
    by_cases hb : strData = b <;> by_cases ha : addresses type storeCode c = true <;>
      by_cases hr : Takes sendOk s.registry c ∨ OnList s.registry type storeCode c <;>
      simp [hb, ha, hr] at hcount ⊢ <;> omega

theorem deal_good (pushOk : Bytes → Bool) : ∃ t, step s (.deal pushOk) = .ok t ∧ Good t ∧ t.server = s.server ∧
    t.dispatched = s.dispatched ∧ copies c b t + (if pushOk c = true then 0 else pending c b s) = copies c b s := by
  cases hdealing : s.dealing with
  | none => exact ⟨s, by simp only [step, hdealing], hs, rfl, rfl, by simp [pending, hdealing]⟩
  | some d =>
    have hkeys : ∀ m ∈ (dealDisconnectStoreData s.registry d.type d.storeCode).filterMap (pushedAs pushOk d.strData),
        m.key ≠ [] ∧ ∀ b ∈ m.key, b ≠ 0 := by
      intro m hm
      obtain ⟨e, he, hm⟩ := List.mem_filterMap.mp hm
      rcases e with ⟨g, ok⟩ | code
      · simp [pushedAs] at hm
      · cases hok : pushOk code
        · simp [pushedAs, hok] at hm
        · simp only [pushedAs, hok, if_true, Option.some.injEq] at hm
          exact hm ▸ hs.ids.list code (mem_of_pushed he)
    have hstep : step s (.deal pushOk) = .ok
        { s with
          topic := s.topic ++
            (dealDisconnectStoreData s.registry d.type d.storeCode).filterMap (pushedAs pushOk d.strData)
          dealing := none } := by
      simp only [step, hdealing]
    refine ⟨_, hstep, good_topic hs hkeys none, rfl, rfl, ?_⟩
    simp only [copies, pending, hdealing, List.countP_append, countP_pushedAs, countP_pushedTo pushOk]
    split_ifs <;> omega

/-- What is pushed for a store that has its code once. -/
theorem deal_accounts (hone : occurrences s.registry c ≤ 1) (pushOk : Bytes → Bool) :
    ∃ t, step s (.deal pushOk) = .ok t ∧ Good t ∧ t.server = s.server ∧
      Accounts c b s t (Loses c b s (.deal pushOk)) := by
  obtain ⟨t, ht, hgood, hserver, hdispatched, hcopies⟩ := deal_good hs (c := c) b pushOk
  refine ⟨t, ht, hgood, hserver, ?_⟩
  have hle : pending c b s ≤ 1 := by
    unfold pending
    cases s.dealing with
    | none => exact Nat.zero_le _
    | some d =>
      have hcount := countP_dispatchMessage hs.ids.clients (fun _ => false) hone
        (fun d hd => (hs.ids.list d hd).2) d.type d.storeCode
      have hif : ∀ (p : Prop) [Decidable p], (if p then 1 else 0) ≤ 1 := fun p _ => by split <;> omega
      dsimp only
      split
      · exact (Nat.le_add_left _ _).trans (hcount.trans_le (hif _))
      · exact Nat.zero_le _
  simp only [Accounts, Loses, dispatches, hdispatched]
  by_cases hok : pushOk c = true
  · simp only [hok, if_true, Nat.add_zero] at hcopies
    simp [hok, hcopies]
  · rw [if_neg hok] at hcopies
    simp only [Bool.not_eq_true] at hok
    simp only [hok, and_true]
    omega

theorem listen_accounts (t i : ℕ) : ∃ u, step s (.listen t i) = .ok u ∧ Good u ∧ u.server = s.server ∧
    Accounts c b s u (Loses c b s (.listen t i)) := by
  by_cases hthread : s.queue.threads (t + 1) = .outside
  swap
  · have hstep : step s (.listen t i) = .ok s := by
      rcases ht : s.queue.threads (t + 1) with _ | item | _
      · exact absurd ht hthread
      · simp only [step, ht]
      · simp only [step, ht]
    exact ⟨s, hstep, hs, rfl, by simp [Accounts, Loses, hthread]⟩
  cases hi : s.topic[i]? with
  | none => exact ⟨s, by simp only [step, hthread, hi], hs, rfl, by simp [Accounts, Loses, hi]⟩
  | some m =>
    have hkey := hs.topic m (List.mem_of_getElem? hi)
    obtain ⟨hlt, rfl⟩ := List.getElem?_eq_some_iff.mp hi
    have htopic : ∀ m' ∈ s.topic.eraseIdx i, m'.key ≠ [] ∧ ∀ b ∈ m'.key, b ≠ 0 := fun m' hm =>
      hs.topic m' (List.mem_of_mem_eraseIdx hm)
    have hpending : ∀ topic queue, pending c b { s with topic := topic, queue := queue } = pending c b s :=
      fun _ _ => rfl
    have herase := (List.getElem_cons_eraseIdx_perm hlt).countP_eq fun m => m.key == c && m.body == b
    rw [List.countP_cons] at herase
    have hmatch : ((s.topic[i].key == c && s.topic[i].body == b) = true) ↔
        s.topic[i].key = c ∧ s.topic[i].body = b := by
      simp
    simp only [hmatch] at herase
    have hloses : Loses c b s (.listen t i) ↔ (s.topic[i].key = c ∧ s.topic[i].body = b) ∧
        (toSigned 32 s.topic[i].body.length < 5 ∨ HandOff.capacity .mqException ≤ s.queue.deque.length) := by
      simp only [Loses, hthread, hi, true_and, Option.some.injEq]
      constructor
      · rintro ⟨m, rfl, hk, hb, h⟩
        exact ⟨⟨hk, hb⟩, hb ▸ h⟩
      · rintro ⟨⟨hk, hb⟩, h⟩
        exact ⟨_, rfl, hk, hb, hb ▸ h⟩
    by_cases hshort : toSigned 32 s.topic[i].body.length < 5
    · have hconsume : consume s.topic[i] = none := by rw [consume, if_pos hshort]
      refine ⟨{ s with topic := s.topic.eraseIdx i }, by
        rw [step_listen hthread hi, hconsume, product], ⟨hs.ids, htopic, hs.queue, hs.consumer⟩, rfl, ?_⟩
      simp only [Accounts, hloses, hshort, true_or, and_true, copies, hpending, dispatches]
      by_cases hm : s.topic[i].key = c ∧ s.topic[i].body = b
      · simp only [hm, if_true, and_self] at herase ⊢
        simp only [true_implies, not_true, false_implies, and_true]
        omega
      · simp only [hm, if_false] at herase ⊢
        simp only [not_false_eq_true, true_implies, false_implies, true_and]
        omega
    · have hconsume : consume s.topic[i] = some ⟨msgTypeUpdateDatabase,
          toSigned 32 (headerSize + s.topic[i].body.length), "1", s.topic[i].key, s.topic[i].body⟩ := by
        rw [consume, if_neg hshort, if_neg hkey.1]
      have hthread' : ({ s with topic := s.topic.eraseIdx i } : State).queue.threads (t + 1) = .outside := hthread
      have hstep := step_listen hthread hi
      rw [hconsume, product_some hthread'] at hstep
      refine ⟨_, hstep, ⟨hs.ids, htopic, ?_, fun data => ?_⟩, rfl, ?_⟩
      · split_ifs
        · exact hs.queue
        · intro d hd
          obtain hd | hd := List.mem_append.mp hd
          · exact hs.queue d hd
          · rw [List.mem_singleton.mp hd]
            exact ⟨rfl, hkey⟩
      · have hconsumer := hs.consumer data
        split_ifs <;> simpa using hconsumer
      · simp only [Accounts, hloses, hshort, false_or, copies, hpending, dispatches]
        by_cases hm : s.topic[i].key = c ∧ s.topic[i].body = b <;>
          by_cases hfull : HandOff.capacity .mqException ≤ s.queue.deque.length <;>
          simp [hm, hfull, List.countP_append] at herase ⊢ <;> omega

/-- What the thread of the queue has taken is sent, pushed again, or lost. -/
theorem take_accounts {t : ℕ} {x : MqData} {deque : List MqData} (hdeque : s.queue.deque = x :: deque)
    (sendOk : HandlerClientSocket → Bool) (pushOk : Bytes → Bool) :
    Good (threadProcessException sendOk pushOk s (HandOff.takeFront s.queue t x deque)) ∧
    (threadProcessException sendOk pushOk s (HandOff.takeFront s.queue t x deque)).server = s.server ∧
    Accounts c b s (threadProcessException sendOk pushOk s (HandOff.takeFront s.queue t x deque))
      (x.stores = c ∧ x.body = b ∧
        ¬ (firstTakes sendOk s.registry c = true ∨
          ((∀ h ∈ s.registry.clients, h.clientId ≠ c) ∧ pushOk c = true))) := by
  obtain ⟨htype, hne, hnul⟩ := hs.queue x (by rw [hdeque]; exact List.mem_cons_self)
  have hround : threadProcessException sendOk pushOk s (HandOff.takeFront s.queue t x deque) =
      perform pushOk x.body { s with queue := HandOff.takeFront s.queue t x deque }
        (dispatchOneMessage sendOk s.registry "1" x.stores) := by
    simp [threadProcessException, HandOff.takeFront, hne, htype]
  have hgood : Good { s with queue := HandOff.takeFront s.queue t x deque } :=
    ⟨hs.ids, hs.topic, fun d hd => hs.queue d (by rw [hdeque]; exact List.mem_cons_of_mem _ hd), fun data => by
      rcases eq_or_ne t 0 with rfl | ht
      · simp [HandOff.takeFront]
      · simpa [HandOff.takeFront, ht.symm] using hs.consumer data⟩
  have hcopies := copies_perform pushOk x.body { s with queue := HandOff.takeFront s.queue t x deque }
    (dispatchOneMessage sendOk s.registry "1" x.stores) c b
  rw [hround]
  refine ⟨good_perform hgood pushOk x.body fun d hd => ?_, rfl, ?_⟩
  · obtain rfl : d = x.stores := by
      simp only [dispatchOneMessage, if_true] at hd
      obtain hd | hd := List.mem_append.mp hd
      · exact absurd hd pushed_notMem_sendFirst
      · split_ifs at hd
        · simpa using hd
        · simp at hd
    exact ⟨hne, hnul⟩
  · have hpending : ∀ queue, pending c b { s with queue := queue } = pending c b s := fun _ => rfl
    have hbefore : copies c b s = copies c b { s with queue := HandOff.takeFront s.queue t x deque } +
        if x.stores = c ∧ x.body = b then 1 else 0 := by
      simp only [copies, hpending, HandOff.takeFront, hdeque, List.countP_cons, Bool.and_eq_true, beq_iff_eq]
      omega
    have hsame : ∀ effects, dispatches c b (perform pushOk x.body
        { s with queue := HandOff.takeFront s.queue t x deque } effects) = dispatches c b s := fun _ => rfl
    rw [countP_dispatchOneMessage hs.ids.clients sendOk pushOk hnul] at hcopies
    simp only [Accounts, hcopies, hbefore, hsame]
    by_cases hstores : x.stores = c <;> by_cases hbody : x.body = b <;>
      by_cases hr : firstTakes sendOk s.registry c = true ∨
        ((∀ h ∈ s.registry.clients, h.clientId ≠ c) ∧ pushOk c = true) <;>
      (simp only [hstores, hbody, hr]; simp <;> omega)

end Moves

/-- A move of the queue's consumer leaves the queue, or takes its front. -/
theorem consumer_spec (queue : HandOff.State MqData) {move : HandOff.Move MqData}
    (hmove : move = .consumer 0 ∨ ∃ t, move = .wake t) :
    (∃ queue', HandOff.step .mqException queue move = .ok queue' ∧ queue'.deque = queue.deque ∧
      queue'.consumed = queue.consumed ∧ taken queue move = none ∧
      ∀ data, queue'.threads 0 = .waitFull data → queue.threads 0 = .waitFull data) ∨
    ∃ t x deque, queue.deque = x :: deque ∧ taken queue move = some x ∧
      HandOff.step .mqException queue move = .ok (HandOff.takeFront queue t x deque) := by
  have hkept : ∀ t data, Function.update queue.threads t .outside 0 = .waitFull data →
      queue.threads 0 = .waitFull data := by
    intro t data h
    rcases eq_or_ne t 0 with rfl | ht
    · simp at h
    · simpa [ht.symm] using h
  obtain rfl | ⟨t, rfl⟩ := hmove
  · rcases hthread : queue.threads 0 with _ | item | _
    · rcases hdeque : queue.deque with _ | ⟨x, deque⟩
      · refine .inl ⟨{ queue with threads := Function.update queue.threads 0 .waitEmpty }, ?_, hdeque,
          rfl, ?_, ?_⟩
        · simp only [HandOff.step, hthread, hdeque]
        · simp only [taken, hthread, hdeque, List.head?_nil]
        · simp
      · refine .inr ⟨0, x, deque, rfl, ?_, ?_⟩
        · simp only [taken, hthread, hdeque, List.head?_cons]
        · simp only [HandOff.step, hthread, hdeque]
    · exact .inl ⟨queue, by simp only [HandOff.step, hthread], rfl, rfl, by simp only [taken, hthread],
        fun _ h => hthread.symm.trans h⟩
    · exact .inl ⟨queue, by simp only [HandOff.step, hthread], rfl, rfl, by simp only [taken, hthread],
        fun _ h => hthread.symm.trans h⟩
  · rcases hthread : queue.threads t with _ | item | _
    · exact .inl ⟨queue, by simp only [HandOff.step, hthread], rfl, rfl, by simp only [taken, hthread],
        fun _ h => h⟩
    · refine .inl ⟨{ queue with threads := Function.update queue.threads t .outside
                                returned := queue.returned ++ [item] }, ?_, rfl, rfl, ?_, hkept t⟩
      · simp only [HandOff.step, hthread]
      · simp only [taken, hthread]
    · rcases hdeque : queue.deque with _ | ⟨x, deque⟩
      · refine .inl ⟨{ queue with threads := Function.update queue.threads t .outside }, ?_, hdeque, rfl,
          ?_, hkept t⟩
        · simp only [HandOff.step, hthread, hdeque, HandOff.testsAgain, if_true]
        · simp only [taken, hthread, hdeque, List.head?_nil]
      · refine .inr ⟨t, x, deque, rfl, ?_, ?_⟩
        · simp only [taken, hthread, hdeque, List.head?_cons]
        · simp only [HandOff.step, hthread, hdeque]

section Moves
variable {s : State} (hs : Good s) {c : Bytes} (b : Bytes)
include hs

/-- A round of `threadProcessException`, however it begins. -/
theorem round_accounts (sendOk : HandlerClientSocket → Bool) (pushOk : Bytes → Bool) {move : HandOff.Move MqData}
    (hmove : move = .consumer 0 ∨ ∃ t, move = .wake t) :
    ∃ u, threadProcessException sendOk pushOk s <$> HandOff.step .mqException s.queue move = .ok u ∧ Good u ∧
      u.server = s.server ∧ Accounts c b s u (LosesRetry c b s sendOk pushOk move) := by
  obtain ⟨queue, hqueue, hdeque, hconsumed, htaken, hkept⟩ | ⟨t, x, deque, hdeque, htaken, hqueue⟩ :=
    consumer_spec s.queue hmove
  · have hround : threadProcessException sendOk pushOk s queue = { s with queue := queue } := by
      simp [threadProcessException, hconsumed]
    refine ⟨_, by rw [hqueue]; rfl, ?_⟩
    rw [hround]
    refine ⟨⟨hs.ids, hs.topic, hdeque ▸ hs.queue, fun data h => hs.consumer data (hkept data h)⟩, rfl,
      fun h => ?_, fun _ => ?_⟩
    · obtain ⟨d, hd, -⟩ := h
      rw [htaken] at hd
      cases hd
    · have hpending : pending c b { s with queue := queue } = pending c b s := rfl
      simp only [copies, hpending, dispatches, hdeque]
  · obtain ⟨hgood, hserver, haccounts⟩ := take_accounts (t := t) hs b hdeque sendOk pushOk
    refine ⟨_, by rw [hqueue]; rfl, hgood, hserver, ?_⟩
    simpa [LosesRetry, htaken] using haccounts

/-- What the listener and `threadProcessException` do keeps the copies in step with the dispatches, unless it
loses one, whoever is registered. -/
theorem works_accounts {move : Move} (hmove : Works move) : ∃ t, step s move = .ok t ∧ Good t ∧
    t.server = s.server ∧ Accounts c b s t (Loses c b s move) := by
  cases move with
  | serve | redeliver | dispatch | deal => exact hmove.elim
  | listen t i => exact listen_accounts hs b t i
  | process sendOk pushOk => exact round_accounts hs b sendOk pushOk (.inl rfl)
  | wake t sendOk pushOk => exact round_accounts hs b sendOk pushOk (.inr ⟨t, rfl⟩)

/-- Whatever moves, a state stays a good one. -/
theorem step_good {move : Move} {t : State} (ht : step s move = .ok t) : Good t := by
  have hworks : Works move → Good t := by
    intro hmove
    obtain ⟨u, hu, hgood, -⟩ := works_accounts hs (c := []) [] hmove
    exact Except.ok.inj (hu.symm.trans ht) ▸ hgood
  cases move with
  | serve move =>
    obtain ⟨server, hserver, ht⟩ := Res.bind_eq_ok.mp ht
    obtain rfl := Except.ok.inj ht
    exact ⟨Registration.step_ids hs.ids hserver, hs.topic, hs.queue, hs.consumer⟩
  | redeliver i =>
    simp only [step] at ht
    cases hi : s.topic[i]? with
    | none =>
      simp only [hi] at ht
      exact Except.ok.inj ht ▸ hs
    | some m =>
      simp only [hi] at ht
      obtain rfl := Except.ok.inj ht
      refine ⟨hs.ids, fun m' hm => ?_, hs.queue, hs.consumer⟩
      rcases List.mem_append.mp hm with hm | hm
      · exact hs.topic m' hm
      · exact List.mem_singleton.mp hm ▸ hs.topic m (List.mem_of_getElem? hi)
  | dispatch type storeCode strData sendOk =>
    simp only [step] at ht
    split at ht
    · exact Except.ok.inj ht ▸ hs
    · obtain rfl := Except.ok.inj ht
      exact ⟨hs.ids, hs.topic, hs.queue, hs.consumer⟩
  | deal pushOk =>
    obtain ⟨u, hu, hgood, -⟩ := deal_good hs (c := []) [] pushOk
    exact Except.ok.inj (hu.symm.trans ht) ▸ hgood
  | listen | process | wake => exact hworks trivial

/-- **One move** that does not disturb: it keeps the copies in step with the dispatches, unless it loses one. -/
theorem step_accounts (hinv : Registration.Inv s.server) (hc : c ≠ []) {move : Move} (hcalm : ¬ Disturbs s move) :
    ∃ t, step s move = .ok t ∧ Good t ∧ Registration.Inv t.server ∧ Accounts c b s t (Loses c b s move) := by
  have hworks : Works move → ∃ t, step s move = .ok t ∧ Good t ∧ Registration.Inv t.server ∧
      Accounts c b s t (Loses c b s move) := by
    intro hmove
    obtain ⟨t, ht, hgood, hserver, haccounts⟩ := works_accounts hs (c := c) b hmove
    exact ⟨t, ht, hgood, hserver ▸ hinv, haccounts⟩
  cases move with
  | serve move =>
    obtain ⟨hoverlaps, hinterrupts⟩ := not_or.mp hcalm
    obtain ⟨server, hserver, hinv'⟩ := Registration.step_inv s.server move hinv hoverlaps
    have hstep : step s (.serve move) = .ok { s with server := server } := by
      simp only [step, hserver, Res.ok_bind, Res.pure_eq]
    have hpending : pending c b { s with server := server } = pending c b s := by
      by_cases hdealing : s.dealing = none
      · simp only [pending, hdealing]
      · simp only [Interrupts, hdealing, hserver, Res.map_ok, ne_eq, not_false_eq_true, true_and, not_not,
          Except.ok.injEq] at hinterrupts
        have hsame : ({ s with server := server } : State).dealing = s.dealing := rfl
        exact pending_congr hsame hinterrupts c b
    exact ⟨_, hstep, step_good hs hstep, hinv', fun h => h.elim, fun _ => by
      simp only [copies, hpending, dispatches]⟩
  | redeliver i => exact absurd trivial hcalm
  | dispatch type storeCode strData sendOk =>
    obtain ⟨t, ht, hgood, hserver, haccounts⟩ :=
      dispatch_accounts hs b (hinv.registry.once c hc) type storeCode strData sendOk
    exact ⟨t, ht, hgood, hserver ▸ hinv, haccounts⟩
  | deal pushOk =>
    obtain ⟨t, ht, hgood, hserver, haccounts⟩ := deal_accounts hs b (hinv.registry.once c hc) pushOk
    exact ⟨t, ht, hgood, hserver ▸ hinv, haccounts⟩
  | listen | process | wake => exact hworks trivial

end Moves

/-! ### Runs -/

theorem copies_initial (c b : Bytes) : copies c b .initial = dispatches c b .initial := rfl

/-- **At most once**: in a run in which no registrations overlap, no store comes or goes within a dispatch and the
broker hands out every message once, a store is sent a text, or has it on its way, at most as often as the text
was dispatched to it. -/
theorem at_most_once {c : Bytes} (hc : c ≠ []) (b : Bytes) (moves : List Move)
    (hcalm : Avoids step Disturbs .initial moves) :
    Throughout step (fun s => copies c b s ≤ dispatches c b s) .initial moves := by
  refine (throughout_of_avoids
    (P := fun s => (Good s ∧ Registration.Inv s.server) ∧ copies c b s ≤ dispatches c b s) ?_
    ⟨⟨good_initial, Registration.inv_initial⟩, (copies_initial c b).le⟩ hcalm).mono fun s h => h.2
  rintro s move ⟨⟨hs, hinv⟩, hle⟩ hmove
  obtain ⟨t, ht, hgood, hinv', hlost, hkept⟩ := step_accounts hs b hinv hc hmove
  refine ⟨t, ht, ⟨hgood, hinv'⟩, ?_⟩
  by_cases hloses : Loses c b s move
  · have := hlost hloses
    omega
  · have := hkept hloses
    omega

/-- **Exactly once, exactly when** no move of such a run loses a copy. -/
theorem exactly_once_iff {c : Bytes} (hc : c ≠ []) (b : Bytes) (moves : List Move)
    (hcalm : Avoids step Disturbs .initial moves) :
    Throughout step (fun s => copies c b s = dispatches c b s) .initial moves ↔
      Avoids step (Loses c b) .initial moves := by
  have hgood : Throughout step (fun s => Good s ∧ Registration.Inv s.server) .initial moves := by
    refine throughout_of_avoids ?_ ⟨good_initial, Registration.inv_initial⟩ hcalm
    rintro s move ⟨hs, hinv⟩ hmove
    obtain ⟨t, ht, hgood, hinv', -⟩ := step_accounts hs b hinv hc hmove
    exact ⟨t, ht, hgood, hinv'⟩
  have hboth : Throughout step (fun s => copies c b s = dispatches c b s) .initial moves ↔
      Throughout step (fun s => copies c b s = dispatches c b s ∧ Good s ∧ Registration.Inv s.server) .initial
        moves :=
    ⟨fun h => h.and hgood, fun h => h.mono fun s hs => hs.1⟩
  rw [hboth]
  refine throughout_iff_avoids_of_avoids ?_ ?_ ⟨copies_initial c b, good_initial, Registration.inv_initial⟩ hcalm
  · rintro s move ⟨heq, hs, hinv⟩ hmove hkeeps
    obtain ⟨t, ht, hgood, hinv', -, hkept⟩ := step_accounts hs b hinv hc hmove
    have := hkept hkeeps
    exact ⟨t, ht, by omega, hgood, hinv'⟩
  · rintro s move t ⟨heq, hs, hinv⟩ hmove hloses ht ⟨heq', -⟩
    obtain ⟨t', ht', -, -, hlost, -⟩ := step_accounts hs b hinv hc hmove
    rw [ht] at ht'
    injection ht' with ht'
    subst ht'
    have := hlost hloses
    omega

/-- A store. -/
def store : Bytes := [83, 49]

/-- A text for it. -/
def text : Bytes := [104, 101, 108, 108, 111]

/-- The store registers and is dropped; a text for it is dispatched; it comes back. -/
def comeBack : List Move :=
  [.serve (.accept 7), .serve (.check 7 store), .serve (.assign 7), .serve (.heartbeat 0 false),
    .dispatch "1" store text fun _ => true, .deal fun _ => true, .serve (.accept 8), .serve (.check 8 store),
    .serve (.assign 8), .listen 0 0, .process (fun _ => true) (fun _ => true)]

theorem at_most_once_comeBack :
    Throughout step (fun s => copies store text s ≤ dispatches store text s) .initial comeBack :=
  at_most_once (by decide) text comeBack (by decide)

theorem exactly_once_iff_comeBack :
    Throughout step (fun s => copies store text s = dispatches store text s) .initial comeBack ↔
      Avoids step (Loses store text) .initial comeBack :=
  exactly_once_iff (by decide) text comeBack (by decide)

/-- Two registrations overlap, and both clients are sent what is dispatched to their store. -/
example : ¬ Throughout step (fun s => copies store text s ≤ dispatches store text s) .initial
    [.serve (.accept 7), .serve (.accept 8), .serve (.check 7 store), .serve (.check 8 store), .serve (.assign 7),
      .serve (.assign 8), .dispatch "2" store text fun _ => true] := by
  decide

/-- A store is sent a text and dropped, and the second loop of the dispatch finds it on the list. -/
example : ¬ Throughout step (fun s => copies store text s ≤ dispatches store text s) .initial
    [.serve (.accept 7), .serve (.check 7 store), .serve (.assign 7), .dispatch "1" store text fun _ => true,
      .serve (.heartbeat 0 false), .deal fun _ => true] := by
  decide

/-- A message that the broker hands out once more is on its way twice. -/
example : ¬ Throughout step (fun s => copies store text s ≤ dispatches store text s) .initial
    (comeBack.take 9 ++ [.redeliver 0]) := by
  decide

/-! ### Progress -/

/-- The copies of `b` that clients of store `c` have been sent. -/
def received (c b : Bytes) (s : State) : ℕ := s.sent.countP fun e => e.1.clientId == c && e.2 == b

/-- The copies on the topic. -/
def onTopic (c b : Bytes) (s : State) : ℕ := s.topic.countP fun m => m.key == c && m.body == b

/-- The listener's first thread is not free. -/
def busy (s : State) : ℕ :=
  match s.queue.threads 1 with
  | .outside => 0
  | _ => 1

/-- What there is to do until nothing is on its way to `c`. -/
def work (c b : Bytes) (s : State) : ℕ :=
  3 * pending c b s + 2 * onTopic c b s + s.queue.deque.length + busy s

theorem copies_eq_received {c b : Bytes} {s : State} (h : work c b s = 0) : copies c b s = received c b s := by
  have hdeque : s.queue.deque = [] := List.eq_nil_of_length_eq_zero (by unfold work at h; omega)
  have htopic : onTopic c b s = 0 := by unfold work at h; omega
  have hpending : pending c b s = 0 := by unfold work at h; omega
  unfold onTopic at htopic
  simp [copies, received, hdeque, htopic, hpending]

section Progress
variable {s : State} (hs : Good s) {c b : Bytes} {h : HandlerClientSocket} (hh : h ∈ s.registry.clients)
  (hid : h.clientId = c)
include hs hh hid

/-- A client that takes everything is found under its code. -/
theorem firstTakes_all : firstTakes (fun _ => true) s.registry c = true := by
  have hnul : ∀ b ∈ c, b ≠ 0 := hid ▸ hs.ids.clients h hh
  unfold firstTakes
  cases hfind : s.registry.clients.find? (cmpClientId c) with
  | none =>
    exact absurd ((cmpClientId_iff hs.ids.clients hnul hh).mpr hid) (List.find?_eq_none.mp hfind h hh)
  | some g =>
    have hg := (cmpClientId_iff hs.ids.clients hnul (List.mem_of_find?_eq_some hfind)).mp (List.find?_some hfind)
    simp [hg]

/-- The front of the queue is worked off: what is for `c` reaches its client. -/
theorem retry_take {x : MqData} {deque : List MqData} (hdeque : s.queue.deque = x :: deque) :
    ∃ move t, Works move ∧ step s move = .ok t ∧ ¬ Loses c b s move ∧ t.dispatched = s.dispatched ∧
      work c b t < work c b s := by
  have htakes := firstTakes_all hs hh hid
  obtain ⟨htype, hne, hnul⟩ := hs.queue x (by rw [hdeque]; exact List.mem_cons_self)
  have hround : threadProcessException (fun _ => true) (fun _ => true) s (HandOff.takeFront s.queue 0 x deque) =
      perform (fun _ => true) x.body { s with queue := HandOff.takeFront s.queue 0 x deque }
        (dispatchOneMessage (fun _ => true) s.registry "1" x.stores) := by
    simp [threadProcessException, HandOff.takeFront, hne, htype]
  -- a message for `c` is not pushed again
  have hpushed : (dispatchOneMessage (fun _ => true) s.registry "1" x.stores).countP
      (pushedTo (fun _ => true) c) = 0 := by
    simp only [dispatchOneMessage, if_true, List.countP_append, countP_pushed_sendFirst, countP_push, Nat.zero_add]
    refine if_neg fun hpush => ?_
    obtain ⟨hnone, -, rfl⟩ := hpush
    exact List.find?_eq_none.mp hnone h hh ((cmpClientId_iff hs.ids.clients hnul hh).mpr hid)
  have hless : work c b (threadProcessException (fun _ => true) (fun _ => true) s
      (HandOff.takeFront s.queue 0 x deque)) < work c b s := by
    rw [hround]
    have htopic : onTopic c b (perform (fun _ => true) x.body
        { s with queue := HandOff.takeFront s.queue 0 x deque }
        (dispatchOneMessage (fun _ => true) s.registry "1" x.stores)) = onTopic c b s := by
      simp only [onTopic, perform, List.countP_append, countP_pushedAs, hpushed, ite_self, Nat.add_zero]
    have hbusy : busy (perform (fun _ => true) x.body { s with queue := HandOff.takeFront s.queue 0 x deque }
        (dispatchOneMessage (fun _ => true) s.registry "1" x.stores)) = busy s := by
      simp [busy, perform, HandOff.takeFront]
    have hpending : pending c b (perform (fun _ => true) x.body
        { s with queue := HandOff.takeFront s.queue 0 x deque }
        (dispatchOneMessage (fun _ => true) s.registry "1" x.stores)) = pending c b s := rfl
    simp only [work, htopic, hbusy, hpending, hdeque, List.length_cons]
    simp only [perform, HandOff.takeFront]
    omega
  have hnot : ∀ move : HandOff.Move MqData, ¬ LosesRetry c b s (fun _ => true) (fun _ => true) move := by
    rintro move ⟨d, -, -, -, hno⟩
    exact hno (.inl htakes)
  have hframe : (threadProcessException (fun _ => true) (fun _ => true) s
      (HandOff.takeFront s.queue 0 x deque)).dispatched = s.dispatched := by
    rw [hround]
    rfl
  rcases hthread : s.queue.threads 0 with _ | item | _
  · exact ⟨.process (fun _ => true) (fun _ => true), _, trivial,
      by simp only [step, HandOff.step, hthread, hdeque]; rfl, hnot _, hframe, hless⟩
  · exact absurd hthread (hs.consumer item)
  · exact ⟨.wake 0 (fun _ => true) (fun _ => true), _, trivial,
      by simp only [step, HandOff.step, hthread, hdeque]; rfl, hnot _, hframe, hless⟩

omit hh hid in
/-- With the queue empty the listener takes up a message for `c`. -/
theorem retry_listen (hb : ¬ toSigned 32 b.length < 5) (hdeque : s.queue.deque = []) (hnone : pending c b s = 0)
    (hwork : work c b s ≠ 0) : ∃ move t, Works move ∧ step s move = .ok t ∧ ¬ Loses c b s move ∧
      t.dispatched = s.dispatched ∧ work c b t < work c b s := by
  have hpending : ∀ topic queue, pending c b { s with topic := topic, queue := queue } = pending c b s :=
    fun _ _ => rfl
  rcases hthread : s.queue.threads 1 with _ | item | _
  · -- the thread is free
    have hpos : 0 < onTopic c b s := by
      simp only [work, busy, hthread, hdeque, hnone, List.length_nil] at hwork
      omega
    obtain ⟨m, hm, hmatch⟩ := List.countP_pos_iff.mp hpos
    obtain ⟨hkey, hbody⟩ : m.key = c ∧ m.body = b := by simpa using hmatch
    obtain ⟨i, hi, rfl⟩ := List.mem_iff_getElem.mp hm
    have hget : s.topic[i]? = some s.topic[i] := List.getElem?_eq_getElem hi
    have hconsume : consume s.topic[i] = some ⟨msgTypeUpdateDatabase,
        toSigned 32 (headerSize + s.topic[i].body.length), "1", s.topic[i].key, s.topic[i].body⟩ := by
      rw [consume, if_neg (hbody ▸ hb), if_neg (hs.topic _ hm).1]
    have hroom : ¬ HandOff.capacity .mqException ≤ s.queue.deque.length := by rw [hdeque]; decide
    have hthread' : ({ s with topic := s.topic.eraseIdx i } : State).queue.threads (0 + 1) = .outside := hthread
    have hstep := step_listen (t := 0) hthread hget
    rw [hconsume, product_some hthread', if_neg hroom] at hstep
    refine ⟨.listen 0 i, _, trivial, hstep, ?_, rfl, ?_⟩
    · rintro ⟨-, m, hm', -, -, hshort | hfull⟩
      · exact hb hshort
      · exact hroom hfull
    · have herase := (List.getElem_cons_eraseIdx_perm hi).countP_eq fun m => m.key == c && m.body == b
      rw [List.countP_cons, if_pos hmatch] at herase
      simp only [work, busy, hthread, onTopic, hpending, hdeque, List.nil_append, List.length_singleton,
        List.length_nil]
      omega
  · refine ⟨.wake 1 (fun _ => true) (fun _ => true), { s with queue := { s.queue with
      threads := Function.update s.queue.threads 1 .outside, returned := s.queue.returned ++ [item] } }, trivial,
      ?_, ?_, rfl, ?_⟩
    · simp only [step, HandOff.step, hthread]
      simp [threadProcessException]
    · rintro ⟨d, hd, -⟩
      simp only [taken, hthread] at hd
      cases hd
    · simp only [work, busy, hthread, onTopic, hpending, Function.update_self]
      omega
  · refine ⟨.wake 1 (fun _ => true) (fun _ => true), { s with queue := { s.queue with
      threads := Function.update s.queue.threads 1 .outside } }, trivial, ?_, ?_, rfl, ?_⟩
    · simp only [step, HandOff.step, hthread, hdeque, HandOff.testsAgain, if_true]
      simp [threadProcessException]
    · rintro ⟨d, hd, -⟩
      simp only [taken, hthread, hdeque, List.head?_nil] at hd
      cases hd
    · simp only [work, busy, hthread, onTopic, hpending, Function.update_self]
      omega

omit hh hid in
/-- What a dispatch has still to push goes to the topic. -/
theorem retry_deal (hsome : pending c b s ≠ 0) : ∃ move t, step s move = .ok t ∧ ¬ Loses c b s move ∧ Good t ∧
    t.server = s.server ∧ copies c b t = copies c b s ∧ work c b t < work c b s := by
  obtain ⟨t, ht, hgood, hserver, -, hcopies⟩ := deal_good hs (c := c) b fun _ => true
  refine ⟨.deal fun _ => true, t, ht, fun h => Bool.noConfusion h.2, hgood, hserver, by simpa using hcopies, ?_⟩
  cases hdealing : s.dealing with
  | none => exact absurd (by simp only [pending, hdealing]) hsome
  | some d =>
    have hbefore : pending c b s = if d.strData = b then
        (dealDisconnectStoreData s.registry d.type d.storeCode).countP (pushedTo (fun _ => true) c) else 0 := by
      simp only [pending, hdealing]
    simp only [step, hdealing] at ht
    obtain rfl := Except.ok.inj ht
    have hafter : ∀ topic, pending c b { s with topic := topic, dealing := none } = 0 := fun _ => rfl
    simp only [work, hafter, onTopic, busy, List.countP_append, countP_pushedAs, ← hbefore]
    omega

/-- So everything for `c` can reach its client. -/
theorem exists_retries (hb : ¬ toSigned 32 b.length < 5) : ∃ moves t, Avoids step (Loses c b) s moves ∧
    moves.foldlM step s = .ok t ∧ t.registry = s.registry ∧ received c b t = copies c b s := by
  induction hn : work c b s using Nat.strong_induction_on generalizing s with
  | _ n ih =>
    by_cases hwork : work c b s = 0
    · exact ⟨[], s, avoids_nil, rfl, rfl, (copies_eq_received hwork).symm⟩
    have hmove : ∃ move t, step s move = .ok t ∧ ¬ Loses c b s move ∧ Good t ∧ t.server = s.server ∧
        copies c b t = copies c b s ∧ work c b t < work c b s := by
      by_cases hpending : pending c b s = 0
      swap
      · exact retry_deal hs hpending
      have hretry : ∃ move t, Works move ∧ step s move = .ok t ∧ ¬ Loses c b s move ∧
          t.dispatched = s.dispatched ∧ work c b t < work c b s := by
        rcases hdeque : s.queue.deque with _ | ⟨x, deque⟩
        · exact retry_listen hs hb hdeque hpending hwork
        · exact retry_take hs hh hid hdeque
      obtain ⟨move, t, hworks, ht, hkeeps, hdispatched, hless⟩ := hretry
      obtain ⟨t', ht', hgood, hserver, -, hkept⟩ := works_accounts hs (c := c) b hworks
      rw [ht] at ht'
      injection ht' with ht'
      subst ht'
      have hcopies := hkept hkeeps
      simp only [dispatches, hdispatched] at hcopies
      exact ⟨move, t, ht, hkeeps, hgood, hserver, by omega, hless⟩
    obtain ⟨move, t, ht, hkeeps, hgood, hserver, hcopies, hless⟩ := hmove
    have hregistry : t.registry = s.registry := congrArg ServerState.registry hserver
    obtain ⟨moves, u, havoids, hu, hregistry', hreceived⟩ := ih _ (hn ▸ hless) hgood (hregistry ▸ hh) rfl
    refine ⟨move :: moves, u, avoids_cons.mpr ⟨hkeeps, fun v hv => ?_⟩, foldlM_cons_ok.mpr ⟨t, ht, hu⟩,
      hregistry'.trans hregistry, hreceived.trans hcopies⟩
    rw [ht] at hv
    injection hv with hv
    exact hv ▸ havoids

end Progress

/-- Every state of a run is a good one. -/
theorem good_of_run {moves : List Move} {s : State} (hs : moves.foldlM step .initial = .ok s) : Good s :=
  Res.foldlM_invariant (P := fun _ t => Good t) hs good_initial fun _ _ _ _ _ ht hstep => step_good ht hstep

/-- **A retry delivers**: whatever has happened, while a store has a client everything that is on its way to it
can still reach it, with no copy lost and none sent twice. -/
theorem retry_delivers {c b : Bytes} (hb : ¬ toSigned 32 b.length < 5) {moves : List Move} {s : State}
    (hs : moves.foldlM step .initial = .ok s) {h : HandlerClientSocket} (hh : h ∈ s.registry.clients)
    (hid : h.clientId = c) : ∃ more t, Avoids step (Loses c b) s more ∧ more.foldlM step s = .ok t ∧
      t.registry = s.registry ∧ received c b t = copies c b s :=
  exists_retries (good_of_run hs) hh hid hb

theorem retry_delivers_comeBack : ∃ s more t, (comeBack.take 9).foldlM step .initial = .ok s ∧
    Avoids step (Loses store text) s more ∧ more.foldlM step s = .ok t ∧ t.registry = s.registry ∧
      received store text t = copies store text s := by
  have hs : (comeBack.take 9).foldlM step .initial = .ok ⟨⟨⟨[⟨8, store⟩], []⟩, []⟩,
      [⟨"ERP_SEND_TO_WMS_FAILED", store, text⟩], .initial, [⟨"1", store, text⟩], none, []⟩ := rfl
  obtain ⟨more, t, h⟩ := retry_delivers (c := store) (b := text) (by decide) hs (h := ⟨8, store⟩) (by decide) rfl
  exact ⟨_, more, t, hs, h⟩

end DataSync.Server.ExceptionLoop
