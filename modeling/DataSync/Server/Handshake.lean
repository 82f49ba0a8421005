import DataSync.Lib.Runs

/-! # The handshake of a connection

One connection from its acceptance on. The accept thread puts the client among the clients of the server,
where the heartbeat thread finds it, and starts its handler thread; the handler thread sends `begin` and
takes the first message it receives for the answer. The client answers every message from a thread of its
own, `begin` with its store code and any other heartbeat with a heartbeat. No message is lost, and each of
the two directions of the connection keeps the order of its messages. Time is left out: no `recv` times
out, and `sendHeartbeat` drops no client for having been silent.

`handshake_registers`: in every run in which no thread of the client sends a heartbeat ahead of the store
code the first message received is the store code and the client is registered with it, and every such run
can go on until it is. -/

namespace DataSync.Server.Handshake

open DataSync.Lib.Memory DataSync.Lib.Runs

/-- A message: `code_` of its header and its body. -/
structure Message where
  code : ℕ
  data : String
  deriving DecidableEq, Repr

/-- `MSG_TYPE_STORECODE`. -/
def msgTypeStorecode : ℕ := 101

/-- `MSG_TYPE_BINLOG`. -/
def msgTypeBinlog : ℕ := 102

/-- `MSG_TYPE_UPDATE_DATABASE`. -/
def msgTypeUpdateDatabase : ℕ := 103

/-- `MSG_TYPE_HEART_BEAT`. -/
def msgTypeHeartBeat : ℕ := 104

/-- `MSG_TYPE_CONNECT_SUCCESS`. -/
def msgTypeConnectSuccess : ℕ := 105

/-- `SendStoreCode` of the client. -/
def storeCodeMessage (storehouseCode : String) : Message := ⟨msgTypeStorecode, storehouseCode⟩

@[simp] theorem storeCodeMessage_code (storehouseCode : String) :
    (storeCodeMessage storehouseCode).code = msgTypeStorecode := rfl

/-- `SendHeartbeat` of the client. -/
def heartbeatMessage : Message := ⟨msgTypeHeartBeat, "heartbeat"⟩

/-- What `initConnect` greets the client with. -/
def beginMessage : Message := ⟨msgTypeHeartBeat, "begin"⟩

/-- What `sendHeartbeat` of the server sends. -/
def helloMessage : Message := ⟨msgTypeHeartBeat, "hello"⟩

/-- What a thread of the client sends in answer to a message, `ThreadProcHandler`. -/
def threadProcHandler (storehouseCode : String) (m : Message) : Option Message :=
  if m.code = msgTypeUpdateDatabase then some heartbeatMessage
  else if m.code = msgTypeHeartBeat then
    if m.data = "begin" then some (storeCodeMessage storehouseCode) else some heartbeatMessage
  else none

/-- `handlerMessage` of the server's handler for the client `clientId`: its result and the client's id
behind it. `others` are the ids of the other clients. -/
def handlerMessage (others : List String) (clientId : String) (m : Message) : Bool × String :=
  if m.code = msgTypeStorecode then
    if m.data = "" then (false, clientId)
    else if m.data ∈ others ∨ m.data = clientId then (false, clientId)
    else (true, m.data)
  else if m.code = msgTypeBinlog ∧ m.data = "" then (false, clientId)
  else (true, clientId)

/-- How far the server is: the connection is accepted, the client is added, `initConnect` waits for the
answer, `initConnect` has returned. -/
inductive Phase where
  | accepted
  | added
  | waiting
  | returned (ok : Bool)
  deriving DecidableEq, Repr

/-- The connection: the messages on their way to the client, the answers its threads are about to send,
the messages on their way to the server, those the handler has received, and the client's id. -/
structure Connection where
  phase : Phase
  toClient : List Message
  threads : List Message
  toServer : List Message
  received : List Message
  clientId : String
  deriving DecidableEq, Repr

/-- An accepted connection. -/
def Connection.initial : Connection := ⟨.accepted, [], [], [], [], ""⟩

/-- Who moves. -/
inductive Move where
  /-- The accept thread: `addClient`. -/
  | addClient
  /-- The handler thread: `initConnect` up to its `recvMessage`. -/
  | initConnect
  /-- The heartbeat thread: the round of `sendHeartbeat` for this client. -/
  | sendHeartbeat
  /-- The client's loop receives a message and starts a thread for it. -/
  | clientReceives
  /-- The `k`-th thread of the client sends its answer. -/
  | clientAnswers (k : ℕ)
  /-- The handler thread receives a message. -/
  | handlerReceives
  deriving DecidableEq, Repr

/-- One step. A step that its thread is not ready for changes nothing. -/
def step (others : List String) (storehouseCode : String) (s : Connection) : Move → Res Connection
  | .addClient => .ok (if s.phase = .accepted then { s with phase := .added } else s)
  | .initConnect => .ok (if s.phase = .added then
      { s with phase := .waiting, toClient := s.toClient ++ [beginMessage] } else s)
  | .sendHeartbeat => .ok (if s.phase = .accepted ∨ s.phase = .returned false then s
      else { s with toClient := s.toClient ++ [helloMessage] })
  | .clientReceives => .ok (match s.toClient with
      | [] => s
      | m :: rest => { s with
          toClient := rest
          threads := s.threads ++ (threadProcHandler storehouseCode m).toList })
  | .clientAnswers k => .ok (match s.threads[k]? with
      | none => s
      | some m => { s with threads := s.threads.eraseIdx k, toServer := s.toServer ++ [m] })
  | .handlerReceives => .ok (match s.toServer, s.phase with
      | m :: rest, .waiting =>
        let s := { s with toServer := rest, received := s.received ++ [m] }
        let (ok, clientId) := handlerMessage others s.clientId m
        if m.code = msgTypeStorecode ∧ ok = true then
          { s with
            phase := .returned true
            toClient := s.toClient ++ [⟨msgTypeConnectSuccess, "i am server"⟩]
            clientId := clientId }
        else { s with phase := .returned false }
      | m :: rest, .returned true => { s with
          toServer := rest
          received := s.received ++ [m]
          clientId := (handlerMessage others s.clientId m).2 }
      | _, _ => s)

/-- The first message the handler has received, if any, is the store code, `initConnect` has returned
`true` and the client is registered. -/
def Registers (storehouseCode : String) (s : Connection) : Prop :=
  ∀ m ∈ s.received.head?,
    m = storeCodeMessage storehouseCode ∧ s.phase = .returned true ∧ s.clientId = storehouseCode

instance (storehouseCode : String) : DecidablePred (Registers storehouseCode) := fun _ =>
  inferInstanceAs (Decidable (∀ m ∈ _, _))

/-- A thread of the client sends something else than the store code when the client has sent nothing
yet. -/
def HeartbeatFirst (storehouseCode : String) (s : Connection) : Move → Prop
  | .clientAnswers k => s.received ++ s.toServer = [] ∧
      ∃ m ∈ s.threads[k]?, m ≠ storeCodeMessage storehouseCode
  | _ => False

instance (storehouseCode : String) (s : Connection) (m : Move) :
    Decidable (HeartbeatFirst storehouseCode s m) := by
  rcases m with _ | _ | _ | _ | k | _ <;> unfold HeartbeatFirst <;> infer_instance

/-! ### What holds along a run -/

/-- The store code on its way: `begin` has still to be received, a thread is about to send the code, or
it is the first message the server will receive. -/
def OnItsWay (storehouseCode : String) (s : Connection) : Prop :=
  (beginMessage ∈ s.toClient ∧ s.toServer = []) ∨
    (storeCodeMessage storehouseCode ∈ s.threads ∧ s.toServer = []) ∨
    s.toServer.head? = some (storeCodeMessage storehouseCode)

/-- What the client's messages are. -/
def Answer (storehouseCode : String) (m : Message) : Prop :=
  m = storeCodeMessage storehouseCode ∨ m = heartbeatMessage

/-- Phase by phase. -/
def Progress (storehouseCode : String) (s : Connection) : Prop :=
  match s.phase with
  | .accepted | .added => s.received = [] ∧ s.toServer = [] ∧
      (∀ m ∈ s.toClient, m = helloMessage) ∧ ∀ m ∈ s.threads, m = heartbeatMessage
  | .waiting => s.received = [] ∧ OnItsWay storehouseCode s
  | .returned true => s.received.head? = some (storeCodeMessage storehouseCode) ∧
      s.clientId = storehouseCode
  | .returned false => False

/-- The invariant: the phase says where the store code is, the client sends answers only, and without a
registration its id is empty. -/
structure Inv (storehouseCode : String) (s : Connection) : Prop where
  progress : Progress storehouseCode s
  threads : ∀ m ∈ s.threads, Answer storehouseCode m
  toServer : ∀ m ∈ s.toServer, Answer storehouseCode m
  unregistered : s.phase ≠ .returned true → s.clientId = ""

theorem registers_of_inv {storehouseCode : String} {s : Connection} (h : Inv storehouseCode s) :
    Registers storehouseCode s := by
  intro m hm
  have hprogress := h.progress
  unfold Progress at hprogress
  rcases hp : s.phase with _ | _ | _ | _ | _ <;> rw [hp] at hprogress
  · rw [hprogress.1] at hm
    cases hm
  · rw [hprogress.1] at hm
    cases hm
  · rw [hprogress.1] at hm
    cases hm
  · exact absurd hprogress id
  · obtain rfl : storeCodeMessage storehouseCode = m := by simpa [hprogress.1] using hm
    exact ⟨rfl, rfl, hprogress.2⟩

theorem answer_threadProcHandler {storehouseCode : String} {m a : Message}
    (h : threadProcHandler storehouseCode m = some a) : Answer storehouseCode a := by
  unfold threadProcHandler at h
  split_ifs at h
  · exact Or.inr (Option.some.inj h).symm
  · exact Or.inl (Option.some.inj h).symm
  · exact Or.inr (Option.some.inj h).symm

/-! ### One step -/

section Steps
variable {storehouseCode : String} {s : Connection} (h : Inv storehouseCode s)
include h

theorem inv_addClient (hp : s.phase = .accepted) :
    Inv storehouseCode { s with phase := .added } := by
  have hprogress := h.progress
  rw [Progress, hp] at hprogress
  exact ⟨hprogress, h.threads, h.toServer, fun _ => h.unregistered (by simp [hp])⟩

theorem inv_initConnect (hp : s.phase = .added) : Inv storehouseCode
    { s with phase := .waiting, toClient := s.toClient ++ [beginMessage] } := by
  have hprogress := h.progress
  rw [Progress, hp] at hprogress
  refine ⟨⟨hprogress.1, Or.inl ⟨?_, hprogress.2.1⟩⟩, h.threads, h.toServer,
    fun _ => h.unregistered (by simp [hp])⟩
  simp

theorem inv_sendHeartbeat : Inv storehouseCode { s with toClient := s.toClient ++ [helloMessage] } := by
  refine ⟨?_, h.threads, h.toServer, h.unregistered⟩
  have hprogress := h.progress
  have hhello : (∀ m ∈ s.toClient, m = helloMessage) →
      ∀ m ∈ s.toClient ++ [helloMessage], m = helloMessage := by
    intro hall m hm
    rcases List.mem_append.mp hm with hm | hm
    · exact hall m hm
    · exact List.mem_singleton.mp hm
  unfold Progress at hprogress ⊢
  rcases hp : s.phase with _ | _ | _ | _ | _ <;> rw [hp] at hprogress
  · exact ⟨hprogress.1, hprogress.2.1, hhello hprogress.2.2.1, hprogress.2.2.2⟩
  · exact ⟨hprogress.1, hprogress.2.1, hhello hprogress.2.2.1, hprogress.2.2.2⟩
  · refine ⟨hprogress.1, ?_⟩
    rcases hprogress.2 with ⟨hbegin, hnil⟩ | hrest
    · exact Or.inl ⟨List.mem_append_left _ hbegin, hnil⟩
    · exact Or.inr hrest
  · exact hprogress
  · exact hprogress

theorem inv_clientReceives {m : Message} {rest : List Message} (hm : s.toClient = m :: rest) :
    Inv storehouseCode { s with
      toClient := rest
      threads := s.threads ++ (threadProcHandler storehouseCode m).toList } := by
  refine ⟨?_, fun a ha => ?_, h.toServer, h.unregistered⟩
  · have hprogress := h.progress
    -- before `begin` is sent only heartbeats arrive, and are answered by heartbeats
    have hearly : (∀ m ∈ s.toClient, m = helloMessage) → (∀ m ∈ s.threads, m = heartbeatMessage) →
        (∀ m ∈ rest, m = helloMessage) ∧ ∀ a ∈ s.threads ++
          (threadProcHandler storehouseCode m).toList, a = heartbeatMessage := by
      intro hhello hthreads
      rw [hm] at hhello
      obtain rfl := hhello m (by simp)
      refine ⟨fun a ha => hhello a (by simp [ha]), fun a ha => ?_⟩
      rcases List.mem_append.mp ha with ha | ha
      · exact hthreads a ha
      · exact List.mem_singleton.mp ha
    unfold Progress at hprogress ⊢
    rcases hp : s.phase with _ | _ | _ | _ | _ <;> rw [hp] at hprogress
    · exact ⟨hprogress.1, hprogress.2.1, hearly hprogress.2.2.1 hprogress.2.2.2⟩
    · exact ⟨hprogress.1, hprogress.2.1, hearly hprogress.2.2.1 hprogress.2.2.2⟩
    · refine ⟨hprogress.1, ?_⟩
      rcases hprogress.2 with ⟨hbegin, hnil⟩ | ⟨hcode, hnil⟩ | hhead
      · rw [hm] at hbegin
        rcases List.mem_cons.mp hbegin with rfl | hbegin
        · exact Or.inr (Or.inl ⟨List.mem_append_right _ (by simp [threadProcHandler, beginMessage,
            msgTypeHeartBeat, msgTypeUpdateDatabase]), hnil⟩)
        · exact Or.inl ⟨hbegin, hnil⟩
      · exact Or.inr (Or.inl ⟨List.mem_append_left _ hcode, hnil⟩)
      · exact Or.inr (Or.inr hhead)
    · exact hprogress
    · exact hprogress
  · rcases List.mem_append.mp ha with ha | ha
    · exact h.threads a ha
    · exact answer_threadProcHandler (Option.mem_toList.mp ha)

theorem inv_clientAnswers {k : ℕ} {m : Message} (hk : s.threads[k]? = some m)
    (hok : ¬ HeartbeatFirst storehouseCode s (.clientAnswers k)) :
    Inv storehouseCode { s with
      threads := s.threads.eraseIdx k
      toServer := s.toServer ++ [m] } := by
  have hmem : m ∈ s.threads := List.mem_of_getElem? hk
  have hfirst : s.received = [] → s.toServer = [] → m = storeCodeMessage storehouseCode := by
    intro hr ht
    by_contra hne
    exact hok ⟨by rw [hr, ht]; rfl, m, hk, hne⟩
  refine ⟨?_, fun a ha => h.threads a (List.mem_of_mem_eraseIdx ha), fun a ha => ?_, h.unregistered⟩
  · have hprogress := h.progress
    -- before `begin` is sent there is no store code to send first
    have hearly : s.received = [] → s.toServer = [] → (∀ m ∈ s.threads, m = heartbeatMessage) → False := by
      intro hr ht hall
      have hcode := congrArg Message.code ((hfirst hr ht).symm.trans (hall m hmem))
      exact absurd hcode (show ¬ msgTypeStorecode = msgTypeHeartBeat by decide)
    unfold Progress at hprogress ⊢
    rcases hp : s.phase with _ | _ | _ | _ | _ <;> rw [hp] at hprogress
    · exact absurd (hearly hprogress.1 hprogress.2.1 hprogress.2.2.2) id
    · exact absurd (hearly hprogress.1 hprogress.2.1 hprogress.2.2.2) id
    · refine ⟨hprogress.1, Or.inr (Or.inr ?_)⟩
      rcases hprogress.2 with ⟨-, hnil⟩ | ⟨-, hnil⟩ | hhead
      · rw [hnil, hfirst hprogress.1 hnil]
        rfl
      · rw [hnil, hfirst hprogress.1 hnil]
        rfl
      · rw [List.head?_append, hhead]
        rfl
    · exact hprogress
    · exact hprogress
  · rcases List.mem_append.mp ha with ha | ha
    · exact h.toServer a ha
    · rw [List.mem_singleton.mp ha]
      exact h.threads m hmem

/-- The handler waits and the store code is there: it registers. -/
theorem inv_handlerReceives_waiting {others : List String} (hne : storehouseCode ≠ "")
    (hunused : storehouseCode ∉ others) (hp : s.phase = .waiting) {m : Message} {rest : List Message}
    (hm : s.toServer = m :: rest) : step others storehouseCode s .handlerReceives = .ok { s with
        phase := .returned true
        toClient := s.toClient ++ [⟨msgTypeConnectSuccess, "i am server"⟩]
        toServer := rest
        received := s.received ++ [m]
        clientId := storehouseCode } ∧ s.received = [] ∧ m = storeCodeMessage storehouseCode := by
  have hprogress := h.progress
  rw [Progress, hp] at hprogress
  obtain rfl : storeCodeMessage storehouseCode = m := by
    rcases hprogress.2 with ⟨-, hnil⟩ | ⟨-, hnil⟩ | hhead
    · rw [hnil] at hm
      cases hm
    · rw [hnil] at hm
      cases hm
    · simpa [hm] using hhead.symm
  have hid : s.clientId = "" := h.unregistered (by simp [hp])
  refine ⟨?_, hprogress.1, rfl⟩
  have hhandler : handlerMessage others s.clientId (storeCodeMessage storehouseCode) =
      (true, storehouseCode) := by
    simp [handlerMessage, storeCodeMessage, hid, hne, hunused]
  simp only [step, hm, hp, hhandler, storeCodeMessage_code, true_and, if_true]

/-- A registered client stays registered under its code. -/
theorem inv_handlerReceives_returned (others : List String) (hp : s.phase = .returned true) {m : Message}
    {rest : List Message} (hm : s.toServer = m :: rest) : Inv storehouseCode { s with
        toServer := rest
        received := s.received ++ [m]
        clientId := (handlerMessage others s.clientId m).2 } := by
  have hprogress := h.progress
  rw [Progress, hp] at hprogress
  have hanswer : Answer storehouseCode m := h.toServer m (by simp [hm])
  have hid : (handlerMessage others s.clientId m).2 = s.clientId := by
    rcases hanswer with rfl | rfl
    · rw [handlerMessage, if_pos (storeCodeMessage_code storehouseCode)]
      split_ifs
      · rfl
      · rfl
      · exact hprogress.2.symm
    · rfl
  refine ⟨?_, h.threads, fun a ha => h.toServer a (by simp [hm, ha]), fun hne => absurd hp hne⟩
  rw [Progress, hp]
  refine ⟨?_, hid.trans hprogress.2⟩
  simp only [List.head?_append, hprogress.1]
  rfl

end Steps

section Runs
variable {others : List String} {storehouseCode : String} (hne : storehouseCode ≠ "")
  (hunused : storehouseCode ∉ others)
include hne hunused

theorem step_inv (s : Connection) (m : Move) (h : Inv storehouseCode s)
    (hok : ¬ HeartbeatFirst storehouseCode s m) :
    ∃ t, step others storehouseCode s m = .ok t ∧ Inv storehouseCode t := by
  rcases m with _ | _ | _ | _ | k | _
  · refine ⟨_, rfl, ?_⟩
    split_ifs with hp
    · exact inv_addClient h hp
    · exact h
  · refine ⟨_, rfl, ?_⟩
    split_ifs with hp
    · exact inv_initConnect h hp
    · exact h
  · refine ⟨_, rfl, ?_⟩
    split_ifs
    · exact h
    · exact inv_sendHeartbeat h
  · refine ⟨_, rfl, ?_⟩
    rcases hm : s.toClient with _ | ⟨m, rest⟩
    · exact h
    · exact inv_clientReceives h hm
  · refine ⟨_, rfl, ?_⟩
    rcases hk : s.threads[k]? with _ | m
    · exact h
    · exact inv_clientAnswers h hk hok
  · rcases hm : s.toServer with _ | ⟨m, rest⟩
    · exact ⟨s, by simp only [step, hm], h⟩
    rcases hp : s.phase with _ | _ | _ | _ | _
    · exact ⟨s, by simp only [step, hm, hp], h⟩
    · exact ⟨s, by simp only [step, hm, hp], h⟩
    · obtain ⟨hstep, hnil, rfl⟩ := inv_handlerReceives_waiting h hne hunused hp hm
      refine ⟨_, hstep, ⟨?_, rfl⟩, h.threads, fun a ha => h.toServer a (by simp [hm, ha]), ?_⟩
      · rw [hnil]
        rfl
      · intro hreturned
        exact absurd rfl hreturned
    · exact ⟨s, by simp only [step, hm, hp], h⟩
    · exact ⟨_, by simp only [step, hm, hp], inv_handlerReceives_returned h others hp hm⟩

/-! ### A run can go on until the client is registered -/

/-- The run can go on from `s`, without a heartbeat ahead of the store code, until the client is
registered. -/
def CanRegister (others : List String) (storehouseCode : String) (s : Connection) : Prop :=
  ∃ more t, Avoids (step others storehouseCode) (HeartbeatFirst storehouseCode) s more ∧
    more.foldlM (step others storehouseCode) s = .ok t ∧ t.phase = .returned true ∧
    t.clientId = storehouseCode

omit hne hunused in
/-- One step on the way. -/
theorem canRegister_step {s t : Connection} (m : Move) (hok : ¬ HeartbeatFirst storehouseCode s m)
    (hstep : step others storehouseCode s m = .ok t) (ht : CanRegister others storehouseCode t) :
    CanRegister others storehouseCode s := by
  obtain ⟨more, u, havoid, hrun, hu⟩ := ht
  refine ⟨m :: more, u, avoids_cons.mpr ⟨hok, fun v hv => ?_⟩, ?_, hu⟩
  · rw [hstep] at hv
    obtain rfl := Except.ok.inj hv
    exact havoid
  · exact foldlM_cons_ok.mpr ⟨t, hstep, hrun⟩

theorem canRegister_received {s : Connection} (h : Inv storehouseCode s) (hp : s.phase = .waiting)
    (hhead : s.toServer.head? = some (storeCodeMessage storehouseCode)) :
    CanRegister others storehouseCode s := by
  obtain ⟨rest, hm⟩ := List.head?_eq_some_iff.mp hhead
  obtain ⟨hstep, -, -⟩ := inv_handlerReceives_waiting h hne hunused hp hm
  exact canRegister_step .handlerReceives id hstep ⟨[], _, avoids_nil, rfl, rfl, rfl⟩

theorem canRegister_answered {s : Connection} (h : Inv storehouseCode s) (hp : s.phase = .waiting)
    (hcode : storeCodeMessage storehouseCode ∈ s.threads) (hnil : s.toServer = []) :
    CanRegister others storehouseCode s := by
  obtain ⟨k, hk⟩ := List.getElem?_of_mem hcode
  have hok : ¬ HeartbeatFirst storehouseCode s (.clientAnswers k) := by
    rintro ⟨-, m, hm, hm'⟩
    rw [hk] at hm
    exact hm' (Option.some.inj hm).symm
  refine canRegister_step _ hok (by simp only [step, hk])
    (canRegister_received hne hunused (inv_clientAnswers h hk hok) hp ?_)
  rw [hnil]
  rfl

/-- The client receives what stands before `begin`, then `begin`. -/
theorem canRegister_begun {s : Connection} (h : Inv storehouseCode s) (hp : s.phase = .waiting)
    {pre post : List Message} (hbegin : s.toClient = pre ++ beginMessage :: post)
    (hnil : s.toServer = []) : CanRegister others storehouseCode s := by
  induction pre generalizing s with
  | nil =>
    refine canRegister_step .clientReceives id (by simp only [step, hbegin, List.nil_append])
      (canRegister_answered hne hunused (inv_clientReceives h hbegin) hp ?_ hnil)
    exact List.mem_append_right _ (by simp [threadProcHandler, beginMessage, msgTypeHeartBeat,
      msgTypeUpdateDatabase])
  | cons m pre ih =>
    rw [List.cons_append] at hbegin
    exact canRegister_step .clientReceives id (by simp only [step, hbegin])
      (ih (inv_clientReceives h hbegin) hp rfl hnil)

/-- From every state of such a run. -/
theorem canRegister_of_inv {s : Connection} (h : Inv storehouseCode s) :
    CanRegister others storehouseCode s := by
  have hwaiting : ∀ {s}, Inv storehouseCode s → s.phase = .waiting →
      CanRegister others storehouseCode s := by
    intro s h hp
    have hprogress := h.progress
    rw [Progress, hp] at hprogress
    rcases hprogress.2 with ⟨hbegin, hnil⟩ | ⟨hcode, hnil⟩ | hhead
    · obtain ⟨pre, post, hsplit⟩ := List.append_of_mem hbegin
      exact canRegister_begun hne hunused h hp hsplit hnil
    · exact canRegister_answered hne hunused h hp hcode hnil
    · exact canRegister_received hne hunused h hp hhead
  have hadded : ∀ {s}, Inv storehouseCode s → s.phase = .added →
      CanRegister others storehouseCode s := by
    intro s h hp
    exact canRegister_step .initConnect id (by simp only [step, hp, if_true])
      (hwaiting (inv_initConnect h hp) rfl)
  have hprogress := h.progress
  unfold Progress at hprogress
  rcases hp : s.phase with _ | _ | _ | _ | _ <;> rw [hp] at hprogress
  · exact canRegister_step .addClient id (by simp only [step, hp, if_true])
      (hadded (inv_addClient h hp) rfl)
  · exact hadded h hp
  · exact hwaiting h hp
  · exact absurd hprogress id
  · exact ⟨[], s, avoids_nil, rfl, hp, hprogress.2⟩

end Runs

/-- **The client is registered whatever the heartbeats do**, as long as no thread of the client sends a
heartbeat ahead of the store code: throughout the run the first message received is the store code, and
the run can go on until the client is registered. -/
theorem handshake_registers (others : List String) (storehouseCode : String) (hne : storehouseCode ≠ "")
    (hunused : storehouseCode ∉ others) (moves : List Move)
    (h : Avoids (step others storehouseCode) (HeartbeatFirst storehouseCode) .initial moves) :
    Throughout (step others storehouseCode) (fun s => Registers storehouseCode s ∧
      CanRegister others storehouseCode s) .initial moves := by
  have hinitial : Inv storehouseCode .initial :=
    ⟨⟨rfl, rfl, by simp [Connection.initial], by simp [Connection.initial]⟩,
      by simp [Connection.initial], by simp [Connection.initial], fun _ => rfl⟩
  exact (throughout_of_avoids (step_inv hne hunused) hinitial h).mono fun s hs =>
    ⟨registers_of_inv hs, canRegister_of_inv hne hunused hs⟩

/-- A heartbeat reaches the client before `begin`, and its thread is late. -/
theorem handshake_registers_late : Throughout (step ["S2"] "S1") (fun s => Registers "S1" s ∧
      CanRegister ["S2"] "S1" s) .initial
    [.addClient, .sendHeartbeat, .initConnect, .clientReceives, .clientReceives, .clientAnswers 1,
      .handlerReceives, .clientAnswers 0, .handlerReceives] :=
  handshake_registers ["S2"] "S1" (by decide) (by decide) _ (by decide)

/-- The thread that answers the heartbeat is first: `initConnect` returns `false`. -/
theorem heartbeat_refused : ¬ Throughout (step ["S2"] "S1") (Registers "S1") .initial
    [.addClient, .sendHeartbeat, .initConnect, .clientReceives, .clientReceives, .clientAnswers 0,
      .handlerReceives] := by
  decide

end DataSync.Server.Handshake
