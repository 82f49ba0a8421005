import DataSync.Net.Fragmentation
import DataSync.Queue.HandOff

/-! # The way up

A client sends its messages on its socket; the network brings their bytes in pieces; the handler thread of
the server reads them message by message, first the store code in `initConnect`, and gives the rows to
`ProductRawData`; the thread of the raw queue takes them out and pushes each to the topic of the ERP, under
the store code as its tag. Any of the four may move at any time.

`topic_in_order`: in a run without a disturbance, of a client that sends its store code first, the topic holds,
in every state, a beginning of what the client sends, in order and under its store code, and all of it once
everything has come to rest. `upload_completes`: from every state of such a run it can come to rest. -/

namespace DataSync.Server.Upload

open DataSync.Lib.Words DataSync.Lib.Memory DataSync.Lib.Reading DataSync.Lib.Runs
open DataSync.Net.Framing DataSync.Net.Fragmentation
open DataSync.Queue

/-! ### The server -/

/-- `MQ_DATA` of the raw queue. -/
structure MqData where
  stores : Bytes
  body : Bytes
  deriving DecidableEq, Repr

/-- A message of the topic. -/
structure TopicMessage where
  tag : Bytes
  key : Bytes
  body : Bytes
  deriving DecidableEq, Repr

/-- What `threadProcessRaw` pushes to `wms_producer`. -/
def pushed (data : MqData) : TopicMessage := ⟨data.stores, [], data.body⟩

/-- `MSG_TYPE_STORECODE`. -/
def msgTypeStorecode : ℕ := 101

/-- `MSG_TYPE_BINLOG`. -/
def msgTypeBinlog : ℕ := 102

/-- What `handlerMessage` comes to: its result, `m_client_id` behind it, and the data for
`ProductRawData`. -/
structure Handled where
  result : Bool
  clientId : Bytes
  raw : Option MqData
  deriving DecidableEq, Repr

/-- `handlerMessage` of a client; `others` are the ids of the other clients. -/
def handlerMessage (others : List Bytes) (clientId : Bytes) (m : SocketMessage) : Handled :=
  if m.code = msgTypeStorecode then
    if m.body = [] then ⟨false, clientId, none⟩
    else if (clientId :: others).contains m.body then ⟨false, clientId, none⟩
    else ⟨true, m.body, none⟩
  else if m.code = msgTypeBinlog then
    if m.body = [] then ⟨false, clientId, none⟩
    else ⟨true, clientId, some ⟨cStr clientId, cStr m.body⟩⟩
  else ⟨true, clientId, none⟩

/-! ### The system -/

/-- Where the handler thread is: in `initConnect`, in the loop of `threadHandler`, or gone. -/
inductive Phase where
  | connecting | connected | gone
  deriving DecidableEq, Repr

/-- The messages the client has not sent, the bytes on their way, what the server's socket holds, the handler
thread with its `m_client_id`, the raw queue (thread 0 is the handler, thread 1 the one of the queue), and
the topic. -/
structure State where
  unsent : List SocketMessage
  network : Bytes
  socket : List Arrival
  phase : Phase
  clientId : Bytes
  queue : HandOff.State MqData
  topic : List TopicMessage

/-- A client with so many messages to send. -/
def State.initial (all : List SocketMessage) : State := ⟨all, [], [], .connecting, [], .initial, []⟩

/-- Who moves. -/
inductive Move where
  /-- The client sends its next message. -/
  | send
  /-- So many bytes and one more arrive. -/
  | arrive (n : ℕ)
  /-- `SO_RCVTIMEO` runs out in the handler's `recv`. -/
  | timeout
  /-- A round of the handler, with the ids of the other clients. -/
  | handle (others : List Bytes)
  /-- A round of `threadProcessRaw`; `ok` is what `pushMessage` returns. -/
  | consume (ok : Bool)
  /-- The same thread wakes from its wait. -/
  | wake (ok : Bool)

/-- What the thread of the queue has taken goes to the topic, if the push succeeds. -/
def takeTo (s : State) (ok : Bool) (queue : HandOff.State MqData) : State :=
  { s with queue := queue
           topic := s.topic ++ if ok then (queue.consumed.drop s.queue.consumed.length).map pushed else [] }

/-- What the handler does with a message it has received. -/
def handleMessage (others : List Bytes) (s : State) (m : SocketMessage) : Res State :=
  let h := handlerMessage others s.clientId m
  match s.phase with
  | .connecting =>
    .ok { s with phase := if m.code = msgTypeStorecode ∧ h.result then .connected else .gone
                 clientId := h.clientId }
  | _ =>
    match h.raw with
    | none => .ok { s with clientId := h.clientId }
    | some data => do
      let queue ← HandOff.step .mqRaw s.queue (.product 0 data)
      return { s with clientId := h.clientId, queue := queue }

/-- A round of the handler: it waits, it goes on behind what it has dropped, or it has a message. A handler that
waits for the queue does nothing. -/
def handle (others : List Bytes) (s : State) : Res State :=
  match s.phase, s.queue.threads 0 with
  | .gone, _ => .ok s
  | _, .waitFull _ => .ok s
  | _, _ =>
    match recvMessage (mRecv .other) s.socket with
    | .message m rest => handleMessage others { s with socket := rest } m
    | .dropped rest => .ok { s with socket := rest, phase := if s.phase = .connecting then .gone else s.phase }
    | _ => .ok s

/-- One move. -/
def step (s : State) : Move → Res State
  | .send =>
    match s.unsent with
    | [] => .ok s
    | m :: unsent => .ok { s with unsent := unsent, network := s.network ++ wire m }
  | .arrive n =>
    if h : s.network.take (n + 1) ≠ [] then
      .ok { s with network := s.network.drop (n + 1), socket := s.socket ++ [.chunk ⟨_, h⟩] }
    else .ok s
  | .timeout => .ok { s with socket := s.socket ++ [.timeout] }
  | .handle others => handle others s
  | .consume ok => takeTo s ok <$> HandOff.step .mqRaw s.queue (.consumer 1)
  | .wake ok =>
    match s.queue.threads 1, s.queue.deque with
    -- the pointer `ConsumerRawData` returns is not set
    | .waitEmpty, [] => .error .fault
    | _, _ => takeTo s ok <$> HandOff.step .mqRaw s.queue (.wake 1)

/-! ### What disturbs -/

/-- The handler has read a part of a message. -/
def InsideMessage (s : State) : Prop :=
  ∀ ms : List SocketMessage, (∀ m ∈ ms, m.WellFormed) → s.socket.flatMap Arrival.bytes ≠ ms.flatMap wire

/-- What disturbs the way: a time-out in `initConnect` or inside a message, a store code that another client
has, rows for the full queue, a push that fails, a wakeup to the empty queue. -/
def Disturbs (s : State) : Move → Prop
  | .send => False
  | .arrive _ => False
  | .timeout => s.phase = .connecting ∨ InsideMessage s
  | .handle others => ∃ m rest, recvMessage (mRecv .other) s.socket = .message m rest ∧
      ((m.code = msgTypeStorecode ∧ m.body ∈ others) ∨
        (m.code = msgTypeBinlog ∧ HandOff.capacity .mqRaw ≤ s.queue.deque.length))
  | .consume ok => ok = false
  | .wake ok => ok = false ∨ s.queue.deque = []

/-! ### What is to come -/

/-- What the messages give to the topic, with no other client about. -/
def uploads (clientId : Bytes) : List SocketMessage → List TopicMessage
  | [] => []
  | m :: ms => ((handlerMessage [] clientId m).raw.map pushed).toList ++
      uploads (handlerMessage [] clientId m).clientId ms

/-- The client begins with its store code. -/
structure Opens (all : List SocketMessage) : Prop where
  wellFormed : ∀ m ∈ all, m.WellFormed
  first : ∃ m ms, all = m :: ms ∧ m.code = msgTypeStorecode ∧ m.body ≠ []

/-- Nothing is on its way. -/
def AtRest (s : State) : Prop :=
  s.unsent = [] ∧ s.network = [] ∧ events .other s.socket = [] ∧ s.queue.deque = []

/-! ### Bytes and messages -/

/-- The handler waits for the rest of a message. -/
theorem recvMessage_part {m : SocketMessage} (hm : m.WellFormed) {part more : Bytes} (hw : wire m = part ++ more)
    (hmore : more ≠ []) : recvMessage readEvents (part.map .ok) = .waits := by
  have hbody : ¬ ((m.body.length : ℕ) : ℤ) < 0 := by omega
  have hlen := congrArg List.length hw
  have hpos : 0 < more.length := List.length_pos_iff.mpr hmore
  rw [wire_eq] at hw hlen
  simp only [List.length_append, length_header hm] at hlen
  unfold recvMessage receiveRound
  by_cases h1 : part.length < headerSize
  · rw [readEvents_waits h1]
  -- the part has the whole header
  obtain ⟨part, rfl, hw'⟩ := append_eq_append_of_length_le hw (by rw [length_header hm]; omega)
  rw [List.length_append, length_header hm] at hlen h1
  simp only [List.map_append, readEvents_full _ _ (length_header hm).symm, bodyLen_header hm, hbody,
    if_false, Int.toNat_natCast]
  by_cases h2 : part.length < m.body.length
  · rw [readEvents_waits h2]
  -- and the whole body
  obtain ⟨part, rfl, -⟩ := append_eq_append_of_length_le hw' (by omega)
  rw [List.length_append] at hlen h2
  simp only [List.map_append, readEvents_full _ _ rfl]
  rw [readEvents_waits (by omega)]

/-- A message is the beginning of one stream only. -/
theorem wire_append_inj {m m' : SocketMessage} (hm : m.WellFormed) (hm' : m'.WellFormed) {x y : Bytes}
    (h : wire m ++ x = wire m' ++ y) : m = m' ∧ x = y := by
  have hr := receiveRound_wire hm .dropped (x.map .ok)
  have hr' := receiveRound_wire hm' .dropped (y.map .ok)
  rw [← List.map_append] at hr hr'
  rw [h, hr'] at hr
  injection hr with h1 h2
  exact ⟨h1.symm, (List.map_injective_iff.mpr (fun a b e => Except.ok.inj e) h2).symm⟩

theorem wire_ne_nil (m : SocketMessage) : wire m ≠ [] := by simp [wire, messageBufferOver]

/-- Whole messages at the beginning of a stream are its first ones. -/
theorem wires_prefix {ms pending : List SocketMessage} (hms : ∀ m ∈ ms, m.WellFormed)
    (hpending : ∀ m ∈ pending, m.WellFormed) {more : Bytes}
    (h : ms.flatMap wire ++ more = pending.flatMap wire) : ∃ k, ms = pending.take k := by
  induction ms generalizing pending with
  | nil => exact ⟨0, rfl⟩
  | cons m ms ih =>
    rcases pending with _ | ⟨m', pending⟩
    · simp [wire_ne_nil] at h
    · rw [List.flatMap_cons, List.flatMap_cons, List.append_assoc] at h
      obtain ⟨rfl, hrest⟩ := wire_append_inj (hms m (by simp)) (hpending m' (by simp)) h
      obtain ⟨k, rfl⟩ := ih (fun x hx => hms x (List.mem_cons_of_mem _ hx))
        (fun x hx => hpending x (List.mem_cons_of_mem _ hx)) hrest
      exact ⟨k + 1, rfl⟩

/-- What a round of the handler finds: nothing or too little, a time-out, or the next message. -/
theorem recvMessage_spec {pending : List SocketMessage} (hpending : ∀ m ∈ pending, m.WellFormed)
    {s : List (Except ℤ UInt8)} {more : Bytes} (hunits : units s ++ more = pending.flatMap wire)
    (hbetween : Between pending s) :
    (recvMessage readEvents s = .waits ∧ (s = [] ∨ more ≠ [])) ∨
    (∃ code rest, s = .error code :: rest ∧ recvMessage readEvents s = .dropped rest) ∨
    ∃ m ms rest, pending = m :: ms ∧ s = (wire m).map .ok ++ rest ∧ recvMessage readEvents s = .message m rest := by
  rcases s with _ | ⟨code | b, s⟩
  · exact .inl ⟨rfl, .inl rfl⟩
  · exact .inr (.inl ⟨code, s, rfl, recvMessage_error code s⟩)
  rcases pending with _ | ⟨m, ms⟩
  · simp at hunits
  have hm := hpending m List.mem_cons_self
  rw [List.flatMap_cons] at hunits
  -- a part of the message leaves something out
  have hpart : ∀ {as more' : Bytes}, as.length < (wire m).length → as ++ more' = wire m ++ ms.flatMap wire →
      ∃ es, wire m = as ++ es ∧ es ≠ [] ∧ more' ≠ [] := by
    intro as more' has h
    obtain ⟨es, hw, hmore⟩ := append_eq_append_of_length_le h has.le
    have hes : es ≠ [] := by
      rintro rfl
      rw [hw, List.append_nil] at has
      exact lt_irrefl _ has
    exact ⟨es, hw, hes, by simp [hmore, hes]⟩
  cases hr : readEvents (wire m).length (Except.ok b :: s) with
  | waits =>
    obtain ⟨as, has, hs⟩ := of_waits hr
    rw [hs, units_map_ok] at hunits
    obtain ⟨es, hw, hes, hmore⟩ := hpart has hunits
    exact .inl ⟨by rw [hs]; exact recvMessage_part hm hw hes, .inr hmore⟩
  | full as rest =>
    obtain ⟨has, hs⟩ := of_full hr
    rw [hs, units_append, units_map_ok, List.append_assoc] at hunits
    obtain ⟨rfl, -⟩ := List.append_inj hunits has
    exact .inr (.inr ⟨m, ms, rest, rfl, hs, by rw [hs]; exact receiveRound_wire hm _ _⟩)
  | failed code rest =>
    obtain ⟨as, has, hs⟩ := of_failed hr
    rw [hs, units_append, units_map_ok, List.append_assoc] at hunits
    obtain ⟨es, hw, hes, -⟩ := hpart has hunits
    have hne : as ≠ [] := by
      rintro rfl
      simp at hs
    rw [hs] at hbetween
    exact absurd hbetween (not_between_cut hw hne hes)

/-! ### What is on its way -/

theorem between_append {ms : List SocketMessage} {s : List (Except ℤ UInt8)} (h : Between ms s)
    (more : List SocketMessage) : Between (ms ++ more) s := by
  rintro pre code post rfl
  obtain ⟨k, hk⟩ := h pre code post rfl
  refine ⟨min k ms.length, ?_⟩
  rw [hk, List.take_append_of_le_length (by omega), ← List.take_take, List.take_length]

/-- A failure in a longer stream stands in its beginning or behind it. -/
theorem between_concat {ms : List SocketMessage} {s t : List (Except ℤ UInt8)} (h : Between ms s)
    (ht : ∀ pre code post, t = pre ++ .error code :: post → ∃ k, units (s ++ pre) = (ms.take k).flatMap wire) :
    Between ms (s ++ t) := by
  intro pre code post hs
  rcases List.append_eq_append_iff.mp hs with ⟨pre', rfl, hpost⟩ | ⟨es, rfl, hes⟩
  · exact ht pre' code post hpost
  · rcases es with _ | ⟨e, es⟩
    · obtain ⟨k, hk⟩ := ht [] code post hes.symm
      exact ⟨k, by simpa using hk⟩
    · obtain ⟨rfl, -⟩ := List.cons.inj hes
      exact h pre code es rfl

theorem between_ok {ms : List SocketMessage} {s : List (Except ℤ UInt8)} (h : Between ms s) (bs : Bytes) :
    Between ms (s ++ bs.map .ok) := by
  refine between_concat h fun pre code post hbs => ?_
  have hmem : Except.error code ∈ bs.map (Except.ok : UInt8 → Except ℤ UInt8) := hbs ▸ by simp
  simp at hmem

theorem between_timeout {ms : List SocketMessage} {s : List (Except ℤ UInt8)} (h : Between ms s) {k : ℕ}
    (hk : units s = (ms.take k).flatMap wire) (code : ℤ) : Between ms (s ++ [.error code]) := by
  refine between_concat h fun pre code' post hpre => ?_
  obtain rfl : pre = [] := by
    rcases pre with _ | ⟨e, pre⟩
    · rfl
    · simp at hpre
  exact ⟨k, by rw [List.append_nil, hk]⟩

/-- What there is still to do, by its stage. -/
def backlog (s : State) : ℕ :=
  4 * (s.unsent.flatMap wire).length + 3 * s.network.length + 2 * (events .other s.socket).length +
    s.queue.deque.length

/-- So many messages are sent and not yet received. -/
structure Carries (all pending : List SocketMessage) (s : State) : Prop where
  wellFormed : ∀ m ∈ pending ++ s.unsent, m.WellFormed
  bytes : s.socket.flatMap Arrival.bytes ++ s.network = pending.flatMap wire
  between : Between pending (events .other s.socket)
  order : s.topic ++ (s.queue.deque.map pushed ++ uploads s.clientId (pending ++ s.unsent)) = uploads [] all
  connecting : s.phase = .connecting → .timeout ∉ s.socket ∧
    ∃ m ms, pending ++ s.unsent = m :: ms ∧ m.code = msgTypeStorecode ∧ m.body ≠ [] ∧ s.clientId = []
  phase : s.phase ≠ .gone
  threads : ∀ t, s.queue.threads t = .outside ∨ (t = 1 ∧ s.queue.threads t = .waitEmpty)

theorem carries_initial {all : List SocketMessage} (h : Opens all) : Carries all [] (.initial all) where
  wellFormed := by simpa [State.initial] using h.wellFormed
  bytes := rfl
  between := fun pre code post hs => by simp [State.initial, events] at hs
  order := rfl
  connecting := fun _ => by
    obtain ⟨m, ms, hall, hcode, hbody⟩ := h.first
    exact ⟨by simp [State.initial], m, ms, by simpa [State.initial] using hall, hcode, hbody, rfl⟩
  phase := by simp [State.initial]
  threads := fun t => .inl rfl

theorem takeTo_self (s : State) (ok : Bool) : takeTo s ok s.queue = s := by simp [takeTo]

/-- What a message gives, whoever the other clients are. -/
theorem handlerMessage_others {others : List Bytes} {clientId : Bytes} {m : SocketMessage}
    (hm : ¬ (m.code = msgTypeStorecode ∧ m.body ∈ others)) :
    handlerMessage others clientId m = handlerMessage [] clientId m := by
  unfold handlerMessage
  by_cases hcode : m.code = msgTypeStorecode
  · have hbody : m.body ∉ others := fun hmem => hm ⟨hcode, hmem⟩
    simp [hcode, hbody]
  · simp [hcode]

theorem handlerMessage_storecode {m : SocketMessage} (hcode : m.code = msgTypeStorecode) (hbody : m.body ≠ []) :
    handlerMessage [] [] m = ⟨true, m.body, none⟩ := by simp [handlerMessage, hcode, hbody]

/-- Only rows go to the queue. -/
theorem binlog_of_raw {others : List Bytes} {clientId : Bytes} {m : SocketMessage} {data : MqData}
    (h : (handlerMessage others clientId m).raw = some data) : m.code = msgTypeBinlog := by
  by_contra hcode
  unfold handlerMessage at h
  split_ifs at h

theorem uploads_cons (clientId : Bytes) (m : SocketMessage) (ms : List SocketMessage) :
    uploads clientId (m :: ms) = ((handlerMessage [] clientId m).raw.map pushed).toList ++
      uploads (handlerMessage [] clientId m).clientId ms := rfl

theorem handleMessage_connecting {others : List Bytes} {s : State} {m : SocketMessage} (hp : s.phase = .connecting) :
    handleMessage others s m = .ok { s with
      phase := if m.code = msgTypeStorecode ∧ (handlerMessage others s.clientId m).result then .connected else .gone
      clientId := (handlerMessage others s.clientId m).clientId } := by
  simp only [handleMessage, hp]

theorem handleMessage_none {others : List Bytes} {s : State} {m : SocketMessage} (hp : s.phase = .connected)
    (hraw : (handlerMessage others s.clientId m).raw = none) :
    handleMessage others s m = .ok { s with clientId := (handlerMessage others s.clientId m).clientId } := by
  simp only [handleMessage, hp, hraw]

theorem handleMessage_some {others : List Bytes} {s : State} {m : SocketMessage} {data : MqData}
    (hp : s.phase = .connected) (hraw : (handlerMessage others s.clientId m).raw = some data)
    (hthread : s.queue.threads 0 = .outside) (hroom : ¬ HandOff.capacity .mqRaw ≤ s.queue.deque.length) :
    handleMessage others s m = .ok { s with
      clientId := (handlerMessage others s.clientId m).clientId
      queue := { s.queue with deque := s.queue.deque ++ [data], returned := s.queue.returned ++ [data] } } := by
  simp only [handleMessage, hp, hraw, HandOff.step, hthread, hroom, if_false]
  rfl

theorem phase_cases {s : State} (h : s.phase ≠ .gone) : s.phase = .connecting ∨ s.phase = .connected := by
  rcases hp : s.phase with _ | _ | _
  · exact .inl rfl
  · exact .inr rfl
  · exact absurd hp h

theorem backlog_take {s : State} {x : MqData} {deque : List MqData} (hdeque : s.queue.deque = x :: deque) :
    backlog (takeTo s true (HandOff.takeFront s.queue 1 x deque)) < backlog s := by
  simp only [backlog, takeTo, HandOff.takeFront, hdeque, List.length_cons]
  omega

section Moves
variable {all pending : List SocketMessage} {s : State} (h : Carries all pending s)
include h

theorem carries_send : ∃ t pending', step s .send = .ok t ∧ Carries all pending' t ∧
    (s.unsent ≠ [] → backlog t < backlog s) := by
  rcases hunsent : s.unsent with _ | ⟨m, unsent⟩
  · exact ⟨s, pending, by rw [step, hunsent], h, fun hne => absurd rfl hne⟩
  · have hall : (pending ++ [m]) ++ unsent = pending ++ s.unsent := by rw [hunsent]; simp
    refine ⟨{ s with unsent := unsent, network := s.network ++ wire m }, pending ++ [m], by rw [step, hunsent],
      ⟨by rw [hall]; exact h.wellFormed, ?_,
      between_append h.between [m], by rw [hall]; exact h.order, by rw [hall]; exact h.connecting, h.phase,
      h.threads⟩, fun _ => ?_⟩
    · rw [← List.append_assoc, h.bytes, List.flatMap_append, List.flatMap_singleton]
    · have hpos := List.length_pos_iff.mpr (wire_ne_nil m)
      simp only [backlog, hunsent, List.flatMap_cons, List.length_append]
      omega

theorem carries_arrive (n : ℕ) : ∃ t, step s (.arrive n) = .ok t ∧ Carries all pending t ∧
    (s.network ≠ [] → backlog t < backlog s) := by
  by_cases hbytes : s.network.take (n + 1) ≠ []
  · have hevents : events .other [.chunk ⟨s.network.take (n + 1), hbytes⟩] =
        (s.network.take (n + 1)).map .ok := by simp [events]
    refine ⟨{ s with
      network := s.network.drop (n + 1), socket := s.socket ++ [.chunk ⟨s.network.take (n + 1), hbytes⟩] },
      by rw [step, dif_pos hbytes], ⟨h.wellFormed, ?_, ?_, h.order, fun hp => ?_, h.phase, h.threads⟩, fun hne => ?_⟩
    · rw [List.flatMap_append, List.flatMap_singleton, List.append_assoc]
      change _ ++ (s.network.take (n + 1) ++ s.network.drop (n + 1)) = _
      rw [List.take_append_drop, h.bytes]
    · rw [events_append, hevents]
      exact between_ok h.between _
    · obtain ⟨hno, hrest⟩ := h.connecting hp
      exact ⟨by simpa using hno, hrest⟩
    · have hpos := List.length_pos_iff.mpr hne
      simp only [backlog, events_append, hevents, List.length_append, List.length_map, List.length_take,
        List.length_drop]
      omega
  · exact ⟨s, by rw [step, dif_neg hbytes], h, fun hne => absurd (by simpa using hbytes) hne⟩

theorem carries_timeout (hquiet : ¬ Disturbs s .timeout) :
    ∃ t, step s .timeout = .ok t ∧ Carries all pending t := by
  have hphase : s.phase ≠ .connecting := fun hp => hquiet (.inl hp)
  obtain ⟨ms, hms, hwhole⟩ : ∃ ms : List SocketMessage, (∀ m ∈ ms, m.WellFormed) ∧
      s.socket.flatMap Arrival.bytes = ms.flatMap wire := by
    by_contra hno
    exact hquiet (.inr fun ms hms he => hno ⟨ms, hms, he⟩)
  obtain ⟨k, rfl⟩ := wires_prefix hms (fun m hm => h.wellFormed m (List.mem_append_left _ hm))
    (by rw [← hwhole]; exact h.bytes)
  refine ⟨_, rfl, h.wellFormed, ?_, ?_, h.order, fun hp => absurd hp hphase, h.phase, h.threads⟩
  · rw [List.flatMap_append, List.flatMap_singleton]
    simpa [Arrival.bytes] using h.bytes
  · rw [events_append]
    exact between_timeout h.between (by rw [units_events, hwhole]) (-2)

/-- What the thread of the queue takes is the first of the queue. -/
theorem carries_take {x : MqData} {deque : List MqData} (hdeque : s.queue.deque = x :: deque) :
    Carries all pending (takeTo s true (HandOff.takeFront s.queue 1 x deque)) := by
  refine ⟨h.wellFormed, h.bytes, h.between, ?_, h.connecting, h.phase, fun t => ?_⟩
  · have horder := h.order
    rw [hdeque] at horder
    simpa [takeTo, HandOff.takeFront] using horder
  · rcases eq_or_ne t 1 with rfl | ht
    · exact .inl (by simp [takeTo, HandOff.takeFront])
    · have hthread := h.threads t
      simpa [takeTo, HandOff.takeFront, ht] using hthread

/-- A consumer that finds nothing waits. -/
theorem carries_wait (ok : Bool) : Carries all pending
    (takeTo s ok { s.queue with threads := Function.update s.queue.threads 1 .waitEmpty }) := by
  refine ⟨h.wellFormed, h.bytes, h.between, ?_, h.connecting, h.phase, fun t => ?_⟩
  · simpa [takeTo] using h.order
  · rcases eq_or_ne t 1 with rfl | ht
    · exact .inr ⟨rfl, by simp [takeTo]⟩
    · have hthread := h.threads t
      simpa [takeTo, ht] using hthread

theorem carries_consume {ok : Bool} (hquiet : ¬ Disturbs s (.consume ok)) :
    ∃ t, step s (.consume ok) = .ok t ∧ Carries all pending t ∧
      (s.queue.deque ≠ [] → s.queue.threads 1 = .outside → backlog t < backlog s) := by
  obtain rfl : ok = true := by simpa [Disturbs] using hquiet
  rcases h.threads 1 with hthread | ⟨-, hthread⟩
  · rcases hdeque : s.queue.deque with _ | ⟨x, deque⟩
    · exact ⟨_, by simp only [step, HandOff.step, hthread, hdeque]; rfl, carries_wait h true,
        fun hne => absurd rfl hne⟩
    · exact ⟨_, by simp only [step, HandOff.step, hthread, hdeque]; rfl, carries_take h hdeque,
        fun _ _ => backlog_take hdeque⟩
  · refine ⟨takeTo s true s.queue, by simp only [step, HandOff.step, hthread]; rfl, ?_, fun _ hout => ?_⟩
    · exact (takeTo_self s true).symm ▸ h
    · rw [hthread] at hout
      cases hout

theorem carries_wake {ok : Bool} (hquiet : ¬ Disturbs s (.wake ok)) :
    ∃ t, step s (.wake ok) = .ok t ∧ Carries all pending t ∧
      (s.queue.threads 1 = .waitEmpty → backlog t < backlog s) := by
  obtain ⟨hok, hne⟩ := not_or.mp hquiet
  obtain rfl : ok = true := by simpa using hok
  obtain ⟨x, deque, hdeque⟩ := List.exists_cons_of_ne_nil hne
  rcases h.threads 1 with hthread | ⟨-, hthread⟩
  · refine ⟨takeTo s true s.queue, by simp only [step, HandOff.step, hthread]; rfl, ?_, fun hwait => ?_⟩
    · exact (takeTo_self s true).symm ▸ h
    · rw [hthread] at hwait
      cases hwait
  · exact ⟨_, by simp only [step, HandOff.step, hthread, hdeque]; rfl, carries_take h hdeque,
      fun _ => backlog_take hdeque⟩

/-- The handler takes a message. -/
theorem carries_message {others : List Bytes} {m : SocketMessage} {ms : List SocketMessage}
    (hpending : pending = m :: ms) {rest : List Arrival}
    (hrest : events .other s.socket = (wire m).map .ok ++ events .other rest)
    (hm : ¬ (m.code = msgTypeStorecode ∧ m.body ∈ others))
    (hroom : ¬ (m.code = msgTypeBinlog ∧ HandOff.capacity .mqRaw ≤ s.queue.deque.length)) :
    ∃ t, handleMessage others { s with socket := rest } m = .ok t ∧ Carries all ms t ∧ backlog t < backlog s := by
  subst hpending
  have hsize : (events .other s.socket).length = (wire m).length + (events .other rest).length := by
    rw [hrest, List.length_append, List.length_map]
  have hpos := List.length_pos_iff.mpr (wire_ne_nil m)
  obtain ⟨hwf, hbytes, hbetween, horder, hconnecting, hphase, hthreads⟩ := h
  have hwf' : ∀ m' ∈ ms ++ s.unsent, m'.WellFormed := fun m' hm' => hwf m' (List.mem_cons_of_mem _ hm')
  have hbytes' : rest.flatMap Arrival.bytes ++ s.network = ms.flatMap wire := by
    have hunits := congrArg units hrest
    rw [units_append, units_map_ok, units_events, units_events] at hunits
    rw [hunits, List.append_assoc, List.flatMap_cons] at hbytes
    exact List.append_cancel_left hbytes
  have hbetween' : Between ms (events .other rest) := by
    rw [hrest] at hbetween
    exact between_wire.mp hbetween
  rw [List.cons_append, uploads_cons] at horder
  have hothers : handlerMessage others s.clientId m = handlerMessage [] s.clientId m := handlerMessage_others hm
  rw [← hothers] at horder
  obtain hp | hp := phase_cases hphase
  · obtain ⟨hno, m', ms', hall, hcode, hbody, hid⟩ := hconnecting hp
    obtain ⟨rfl, -⟩ := List.cons.inj hall
    have hh : handlerMessage others s.clientId m = ⟨true, m.body, none⟩ := by
      rw [hothers, hid, handlerMessage_storecode hcode hbody]
    refine ⟨_, handleMessage_connecting hp, ⟨hwf', hbytes', hbetween', ?_, fun hp' => ?_, ?_, hthreads⟩, by
      simp only [backlog]; omega⟩
    · rw [hh] at horder ⊢
      simpa using horder
    · simp [hcode, hh] at hp'
    · simp [hcode, hh]
  · have hnot : s.phase ≠ .connecting := fun e => by rw [hp] at e; cases e
    cases hraw : (handlerMessage others s.clientId m).raw with
    | none =>
      rw [hraw] at horder
      exact ⟨_, handleMessage_none hp hraw, ⟨hwf', hbytes', hbetween', by simpa using horder,
        fun e => absurd e hnot, hphase, hthreads⟩, by simp only [backlog]; omega⟩
    | some data =>
      rw [hraw] at horder
      have hlt : ¬ HandOff.capacity .mqRaw ≤ s.queue.deque.length := fun hfull =>
        hroom ⟨binlog_of_raw hraw, hfull⟩
      have hthread : s.queue.threads 0 = .outside := by
        rcases hthreads 0 with h0 | ⟨h0, -⟩
        · exact h0
        · omega
      exact ⟨_, handleMessage_some hp hraw hthread hlt, ⟨hwf', hbytes', hbetween', by simpa using horder,
        fun e => absurd e hnot, hphase, hthreads⟩, by
          simp only [backlog, List.length_append, List.length_singleton]; omega⟩

/-- A round of the handler takes something off, unless there is nothing or a message is on its way. -/
theorem carries_handle {others : List Bytes} (hquiet : ¬ Disturbs s (.handle others)) :
    ∃ t pending', step s (.handle others) = .ok t ∧ Carries all pending' t ∧
      (events .other s.socket ≠ [] → s.network = [] → backlog t < backlog s) := by
  have hthread : s.queue.threads 0 = .outside := by
    rcases h.threads 0 with h0 | ⟨h0, -⟩
    · exact h0
    · omega
  have hsim := receiveRound_simulates (mRecv_simulates .other)
    (show ∀ a, Round.dropped (events .other a) = (Round.dropped a).map (events .other) from fun _ => rfl) s.socket
  change recvMessage readEvents (events .other s.socket) =
    (recvMessage (mRecv .other) s.socket).map (events .other) at hsim
  have hround := recvMessage_spec (fun m hm => h.wellFormed m (List.mem_append_left _ hm))
    (by rw [units_events]; exact h.bytes) h.between
  rw [hsim] at hround
  have hhandle : step s (.handle others) =
      match recvMessage (mRecv .other) s.socket with
      | .message m rest => handleMessage others { s with socket := rest } m
      | .dropped rest => .ok { s with socket := rest, phase := if s.phase = .connecting then .gone else s.phase }
      | _ => .ok s := by
    simp only [step, handle, hthread]
    obtain hp | hp := phase_cases h.phase <;> simp only [hp]
  rw [hhandle]
  cases hrecv : recvMessage (mRecv .other) s.socket with
  | waits =>
    rw [hrecv] at hround
    obtain ⟨-, hmore⟩ | ⟨code, rest', -, hdrop⟩ | ⟨m, ms, rest', -, -, hm⟩ := hround
    · exact ⟨s, pending, rfl, h, fun hne hnet => absurd (hmore.resolve_left hne) (by simp [hnet])⟩
    · exact absurd hdrop (by simp [Round.map])
    · exact absurd hm (by simp [Round.map])
  | ended =>
    rw [hrecv] at hround
    obtain ⟨hw, -⟩ | ⟨code, rest', -, hdrop⟩ | ⟨m, ms, rest', -, -, hm⟩ := hround
    · exact absurd hw (by simp [Round.map])
    · exact absurd hdrop (by simp [Round.map])
    · exact absurd hm (by simp [Round.map])
  | dropped rest =>
    -- a time-out in front of a message
    rw [hrecv] at hround
    obtain ⟨hw, -⟩ | ⟨code, rest', hs, hdrop⟩ | ⟨m, ms, rest', -, -, hm⟩ := hround
    · exact absurd hw (by simp [Round.map])
    · injection hdrop with hdrop
      subst hdrop
      have hnot : s.phase ≠ .connecting := by
        intro hp
        rw [← List.nil_append (Except.error code :: _)] at hs
        obtain ⟨before, behind, hsocket, -⟩ := exists_timeout hs
        exact (h.connecting hp).1 (hsocket ▸ by simp)
      have hunits : s.socket.flatMap Arrival.bytes = rest.flatMap Arrival.bytes := by
        rw [← units_events .other, hs, units_error_cons, units_events]
      refine ⟨_, pending, rfl, ⟨h.wellFormed, hunits ▸ h.bytes, ?_, h.order, fun hp => ?_, ?_, h.threads⟩,
        fun _ _ => ?_⟩
      · exact between_error.mp (hs ▸ h.between)
      · exact absurd hp (by simp [hnot])
      · simpa [hnot] using h.phase
      · simp only [backlog, hs, List.length_cons]
        omega
    · exact absurd hm (by simp [Round.map])
  | message m rest =>
    rw [hrecv] at hround
    obtain ⟨hw, -⟩ | ⟨code, rest', -, hdrop⟩ | ⟨m', ms, rest', hpending, hs, hm⟩ := hround
    · exact absurd hw (by simp [Round.map])
    · exact absurd hdrop (by simp [Round.map])
    · injection hm with hm hrest
      subst hm hrest
      have hcalm := not_or.mp fun hbad => hquiet ⟨m, rest, hrecv, hbad⟩
      obtain ⟨t, ht, hcarries, hless⟩ := carries_message h hpending hs hcalm.1 hcalm.2
      exact ⟨t, ms, ht, hcarries, fun _ _ => hless⟩

end Moves

/-! ### Runs -/

theorem carries_step (all : List SocketMessage) (s : State) (move : Move)
    (h : ∃ pending, Carries all pending s) (hquiet : ¬ Disturbs s move) :
    ∃ t, step s move = .ok t ∧ ∃ pending, Carries all pending t := by
  obtain ⟨pending, h⟩ := h
  cases move with
  | send =>
    obtain ⟨t, pending', ht, hc, -⟩ := carries_send h
    exact ⟨t, ht, pending', hc⟩
  | arrive n =>
    obtain ⟨t, ht, hc, -⟩ := carries_arrive h n
    exact ⟨t, ht, pending, hc⟩
  | timeout =>
    obtain ⟨t, ht, hc⟩ := carries_timeout h hquiet
    exact ⟨t, ht, pending, hc⟩
  | handle others =>
    obtain ⟨t, pending', ht, hc, -⟩ := carries_handle h hquiet
    exact ⟨t, ht, pending', hc⟩
  | consume ok =>
    obtain ⟨t, ht, hc, -⟩ := carries_consume h hquiet
    exact ⟨t, ht, pending, hc⟩
  | wake ok =>
    obtain ⟨t, ht, hc, -⟩ := carries_wake h hquiet
    exact ⟨t, ht, pending, hc⟩

/-- A run carries everything. -/
theorem throughout_carries {all : List SocketMessage} (hall : Opens all) {moves : List Move}
    (h : Avoids step Disturbs (.initial all) moves) :
    Throughout step (fun s => ∃ pending, Carries all pending s) (.initial all) moves :=
  throughout_of_avoids (carries_step all) ⟨[], carries_initial hall⟩ h

section States
variable {all pending : List SocketMessage} {s : State} (h : Carries all pending s)
include h

theorem topic_begins : s.topic <+: uploads [] all := ⟨_, h.order⟩

theorem topic_atRest (hrest : AtRest s) : s.topic = uploads [] all := by
  obtain ⟨hunsent, hnetwork, hsocket, hdeque⟩ := hrest
  have hbytes := h.bytes
  rw [← units_events .other, hsocket, hnetwork] at hbytes
  have hpending : pending = [] := by
    rcases pending with _ | ⟨m, ms⟩
    · rfl
    · exact absurd hbytes (by simp [wire_ne_nil])
  simpa [hunsent, hdeque, hpending, uploads] using h.order

/-- There is a move that disturbs nothing and takes something off. -/
theorem exists_quiet (hrest : ¬ AtRest s) : ∃ move t pending', ¬ Disturbs s move ∧ step s move = .ok t ∧
    Carries all pending' t ∧ backlog t < backlog s := by
  by_cases hdeque : s.queue.deque = []
  · by_cases hsocket : events .other s.socket ≠ [] ∧ s.network = []
    · have hquiet : ¬ Disturbs s (.handle []) := by
        rintro ⟨m, rest, -, ⟨-, hmem⟩ | ⟨-, hfull⟩⟩
        · exact absurd hmem (by simp)
        · rw [hdeque] at hfull
          exact absurd hfull (by decide)
      obtain ⟨t, pending', ht, hc, hless⟩ := carries_handle h hquiet
      exact ⟨_, t, pending', hquiet, ht, hc, hless hsocket.1 hsocket.2⟩
    by_cases hnetwork : s.network = []
    · have hunsent : s.unsent ≠ [] := fun e =>
        hrest ⟨e, hnetwork, by by_contra hne; exact hsocket ⟨hne, hnetwork⟩, hdeque⟩
      obtain ⟨t, pending', ht, hc, hless⟩ := carries_send h
      exact ⟨.send, t, pending', id, ht, hc, hless hunsent⟩
    · obtain ⟨t, ht, hc, hless⟩ := carries_arrive h 0
      exact ⟨.arrive 0, t, pending, id, ht, hc, hless hnetwork⟩
  · rcases h.threads 1 with hthread | ⟨-, hthread⟩
    · have hquiet : ¬ Disturbs s (.consume true) := by simp [Disturbs]
      obtain ⟨t, ht, hc, hless⟩ := carries_consume h hquiet
      exact ⟨_, t, pending, hquiet, ht, hc, hless hdeque hthread⟩
    · have hquiet : ¬ Disturbs s (.wake true) := by simp [Disturbs, hdeque]
      obtain ⟨t, ht, hc, hless⟩ := carries_wake h hquiet
      exact ⟨_, t, pending, hquiet, ht, hc, hless hthread⟩

end States

/-- **The topic is in order**: in every state of a run without a disturbance it holds the first of the
messages, and all of them when nothing is on its way any more. -/
theorem topic_in_order {all : List SocketMessage} (hall : Opens all) {moves : List Move}
    (h : Avoids step Disturbs (.initial all) moves) :
    Throughout step (fun s => s.topic <+: uploads [] all ∧ (AtRest s → s.topic = uploads [] all))
      (.initial all) moves :=
  (throughout_carries hall h).mono fun _ ⟨_, hc⟩ => ⟨topic_begins hc, topic_atRest hc⟩

/-- A system that carries everything can come to rest. -/
theorem exists_atRest {all pending : List SocketMessage} {s : State} (h : Carries all pending s) :
    ∃ moves t, Avoids step Disturbs s moves ∧ moves.foldlM step s = .ok t ∧ AtRest t ∧
      t.topic = uploads [] all := by
  induction hn : backlog s using Nat.strong_induction_on generalizing s pending with
  | _ n ih =>
    by_cases hrest : AtRest s
    · exact ⟨[], s, avoids_nil, rfl, hrest, topic_atRest h hrest⟩
    · obtain ⟨move, t, pending', hquiet, ht, hc, hless⟩ := exists_quiet h hrest
      obtain ⟨moves, u, havoids, hu, hat, htopic⟩ := ih _ (hn ▸ hless) hc rfl
      refine ⟨move :: moves, u, avoids_cons.mpr ⟨hquiet, fun t' ht' => ?_⟩,
        foldlM_cons_ok.mpr ⟨t, ht, hu⟩, hat, htopic⟩
      rw [ht] at ht'
      injection ht' with ht'
      exact ht' ▸ havoids

/-- **The upload completes**: from every state that a run without a disturbance comes to, the system can come
to rest without one, and then the topic holds everything. -/
theorem upload_completes {all : List SocketMessage} (hall : Opens all) {moves : List Move} {s : State}
    (h : Avoids step Disturbs (.initial all) moves) (hs : moves.foldlM step (.initial all) = .ok s) :
    ∃ more t, Avoids step Disturbs s more ∧ more.foldlM step s = .ok t ∧ AtRest t ∧
      t.topic = uploads [] all := by
  obtain ⟨t, ht, pending, hc⟩ := throughout_carries hall h moves List.prefix_rfl
  rw [hs] at ht
  injection ht with ht
  subst ht
  exact exists_atRest hc

/-! ### A row on its way -/

/-- A move of a run in which nothing goes wrong and no other client is about. -/
def Plain : Move → Prop
  | .send | .arrive _ => True
  | .handle others => others = []
  | .consume ok => ok = true
  | .timeout | .wake _ => False

/-- The queue grows by one at most. -/
theorem step_length {s t : State} {move : Move} (h : Plain move) (ht : step s move = .ok t) :
    t.queue.deque.length ≤ s.queue.deque.length + 1 := by
  cases move with
  | send => simp only [step] at ht; split at ht <;> cases ht <;> simp
  | arrive n => simp only [step] at ht; split at ht <;> cases ht <;> simp
  | timeout | wake => exact h.elim
  | handle others =>
    have hmessage : ∀ {rest m}, handleMessage others { s with socket := rest } m = .ok t →
        t.queue.deque.length ≤ s.queue.deque.length + 1 := by
      intro rest m hu
      simp only [handleMessage] at hu
      split at hu
      · cases hu
        exact Nat.le_succ _
      · split at hu
        · cases hu
          exact Nat.le_succ _
        · obtain ⟨queue, hqueue, hu⟩ := Res.bind_eq_ok.mp hu
          cases hu
          exact HandOff.length_step hqueue
    simp only [step, handle] at ht
    split at ht
    · cases ht
      exact Nat.le_succ _
    · cases ht
      exact Nat.le_succ _
    · split at ht
      · exact hmessage ht
      · cases ht
        exact Nat.le_succ _
      · cases ht
        exact Nat.le_succ _
  | consume ok =>
    obtain ⟨queue, hqueue, hu⟩ := Res.map_eq_ok.mp ht
    cases hu
    exact HandOff.length_step hqueue

/-- So few moves do not fill the queue. -/
theorem avoids_plain {moves : List Move} (hmoves : ∀ move ∈ moves, Plain move) {s : State}
    (hroom : s.queue.deque.length + moves.length ≤ HandOff.capacity .mqRaw) : Avoids step Disturbs s moves := by
  induction moves generalizing s with
  | nil => exact avoids_nil
  | cons move moves ih =>
    have hmove := hmoves move List.mem_cons_self
    rw [List.length_cons] at hroom
    refine avoids_cons.mpr ⟨fun hbad => ?_, fun t ht => ih (fun m hm => hmoves m (List.mem_cons_of_mem _ hm)) ?_⟩
    · cases move with
      | send | arrive => exact hbad
      | timeout | wake => exact hmove
      | handle others =>
        obtain ⟨m, rest, -, ⟨-, hmem⟩ | ⟨-, hfull⟩⟩ := hbad
        · rw [hmove] at hmem
          exact absurd hmem List.not_mem_nil
        · omega
      | consume ok => exact absurd (hbad.symm.trans hmove) (by simp)
    · have := step_length hmove ht
      omega

/-- Rows of a store. -/
def rows : SocketMessage := ⟨102, 45, List.replicate 36 0, [123]⟩

theorem opens_rows : Opens [storeCode, rows, rows] := by
  refine ⟨fun m hm => ?_, _, _, rfl, rfl, by simp [storeCode]⟩
  obtain rfl | hm := List.mem_cons.mp hm
  · exact storeCode_heartbeat_wellFormed _ (by simp)
  · obtain rfl : m = rows := by simpa using hm
    exact ⟨by decide, by decide, by decide, by decide, by simp [rows]⟩

/-- The client sends its store code and a row, the handler takes both, and the row goes to the topic. -/
def firstMoves : List Move := [.send, .send, .arrive 7, .arrive 200, .handle [], .handle [], .consume true]

theorem avoids_firstMoves (all : List SocketMessage) : Avoids step Disturbs (.initial all) firstMoves :=
  avoids_plain (by simp [firstMoves, Plain]) (by simp [State.initial, HandOff.State.initial, firstMoves, HandOff.capacity])

theorem topic_firstMoves : State.topic <$> firstMoves.foldlM step (.initial [storeCode, rows, rows]) =
    .ok [⟨storeCode.body, [], rows.body⟩] := by
  rfl

theorem topic_in_order_firstMoves :
    Throughout step (fun s => s.topic <+: uploads [] [storeCode, rows, rows] ∧
      (AtRest s → s.topic = uploads [] [storeCode, rows, rows])) (.initial [storeCode, rows, rows]) firstMoves :=
  topic_in_order opens_rows (avoids_firstMoves _)

/-- The second row follows. -/
theorem upload_completes_firstMoves : ∃ s more t,
    firstMoves.foldlM step (.initial [storeCode, rows, rows]) = .ok s ∧ s.topic = [⟨storeCode.body, [], rows.body⟩] ∧
    Avoids step Disturbs s more ∧ more.foldlM step s = .ok t ∧ AtRest t ∧
      t.topic = uploads [] [storeCode, rows, rows] := by
  obtain ⟨s, hs, htopic⟩ := Res.map_eq_ok.mp topic_firstMoves
  obtain ⟨more, t, h⟩ := upload_completes opens_rows (avoids_firstMoves _) hs
  exact ⟨s, more, t, hs, htopic, h⟩

end DataSync.Server.Upload
