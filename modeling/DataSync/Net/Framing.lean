import DataSync.Lib.Runs

/-! # Frames on a client socket

`HandlerClientSocket::sendMessage` sends a frame, the header with the body behind it, and then the
trailer `&over&`, in two sends and without a lock. The receive loop of the client reads a header, a body
of `data_len_` minus the header's size and six bytes of trailer, and drops a message whose trailer is
wrong. Up to four threads of the server send on one socket.

`receive_wire`: whole messages are received as they were sent. `no_frame_corrupted`: in a run in which no
frame is sent while another sender owes its trailer, the client has received at every moment exactly
the messages sent so far. -/

namespace DataSync.Net.Framing

open DataSync.Lib.Words DataSync.Lib.Memory DataSync.Lib.Runs

/-- `sizeof(SOCKET_MESSAGE_HEADER)`: two 32-bit numbers, 33 bytes of message id and three of
padding. -/
def headerSize : ℕ := 44

/-- `MESSAGE_BUFFER_OVER`. -/
def messageBufferOver : Bytes := [38, 111, 118, 101, 114, 38]

/-- A message: `code_`, `data_len_`, the bytes of `message_id_` with the padding, and the body. -/
structure SocketMessage where
  code : ℕ
  dataLen : ℕ
  messageId : Bytes
  body : Bytes
  deriving DecidableEq, Repr

/-- What the callers of `sendMessage` build: `data_len_` counts the header and the body, and the body is
a C string. -/
structure SocketMessage.WellFormed (m : SocketMessage) : Prop where
  code : m.code < 2 ^ 32
  dataLen : m.dataLen = headerSize + m.body.length
  int : m.dataLen < 2 ^ 31
  messageId : m.messageId.length = 36
  body : ∀ b ∈ m.body, b ≠ 0

/-- The first send of `sendMessage`. -/
def frame (m : SocketMessage) : Bytes :=
  leBytes 4 m.code ++ leBytes 4 m.dataLen ++ m.messageId ++ m.body

/-- Both sends of `sendMessage`. -/
def wire (m : SocketMessage) : Bytes := frame m ++ messageBufferOver

/-! ### The client's receive loop -/

/-- `ThreadProcServer` on the bytes that have arrived: the messages it hands to `CHandlerMessage`. Where
bytes are missing it waits; a negative body length ends it. -/
def receiveLoop : ℕ → Bytes → List SocketMessage
  | 0, _ => []
  | fuel + 1, stream =>
    if stream.length < headerSize then []
    else
      let dataLen := leNat ((stream.drop 4).take 4)
      let bodyLen := toSigned 32 (dataLen + 2 ^ 32 - headerSize)
      if bodyLen < 0 then []
      else
        let behind := stream.drop headerSize
        let len := bodyLen.toNat
        if behind.length < len + messageBufferOver.length then []
        else
          let rest := receiveLoop fuel (behind.drop (len + messageBufferOver.length))
          if (behind.drop len).take messageBufferOver.length = messageBufferOver then
            ⟨leNat (stream.take 4), dataLen, (stream.drop 8).take 36, cStr (behind.take len)⟩ :: rest
          else rest

/-- The loop on a whole stream; every round takes fifty bytes at least. -/
def receive (stream : Bytes) : List SocketMessage := receiveLoop (stream.length + 1) stream

section Receive
variable {m : SocketMessage} (h : m.WellFormed)
include h

theorem length_frame : (frame m).length = headerSize + m.body.length := by
  have hid := h.messageId
  simp only [frame, List.length_append, length_leBytes, headerSize]
  omega

/-- A frame at the front of the stream: the loop waits for six more bytes, and takes the message if they
are the trailer. -/
theorem receiveLoop_frame (fuel : ℕ) (behind : Bytes) :
    receiveLoop (fuel + 1) (frame m ++ behind) =
      if behind.length < messageBufferOver.length then []
      else if behind.take messageBufferOver.length = messageBufferOver then
        m :: receiveLoop fuel (behind.drop messageBufferOver.length)
      else receiveLoop fuel (behind.drop messageBufferOver.length) := by
  have hframe := length_frame h
  obtain ⟨hcode, hdl, hint, hid, hbody⟩ := h
  have hstream : frame m ++ behind = leBytes 4 m.code ++ (leBytes 4 m.dataLen ++ (m.messageId ++
      (m.body ++ behind))) := by
    simp only [frame, List.append_assoc]
  have hdrop : (frame m ++ behind).drop headerSize = m.body ++ behind := by
    rw [hstream, ← List.append_assoc, ← List.append_assoc]
    exact drop_at (by simp [headerSize, hid])
  have hdata : leNat (((frame m ++ behind).drop 4).take 4) = m.dataLen := by
    rw [hstream, window_at (by simp) (by simp), leNat_leBytes_of_lt (by omega)]
  have hc : leNat ((frame m ++ behind).take 4) = m.code := by
    rw [hstream, take_at (by simp), leNat_leBytes_of_lt (by omega)]
  have hmid : ((frame m ++ behind).drop 8).take 36 = m.messageId := by
    rw [hstream, ← List.append_assoc]
    exact window_at (by simp) hid.symm
  have hbl : toSigned 32 (m.dataLen + 2 ^ 32 - headerSize) = m.body.length := by
    have e : m.dataLen + 2 ^ 32 - headerSize = m.body.length + 2 ^ 32 := by omega
    rw [e, toSigned_add_pow]
    exact toSigned_of_lt (by decide) (by simp only [headerSize] at hdl; omega)
  have h1 : ¬ (frame m ++ behind).length < headerSize := by
    rw [List.length_append, hframe]; omega
  have h2 : (m.body ++ behind).length < m.body.length + messageBufferOver.length ↔
      behind.length < messageBufferOver.length := by
    rw [List.length_append]; omega
  have h3 : ¬ (m.body.length : ℤ) < 0 := by omega
  have hrest : (m.body ++ behind).drop (m.body.length + messageBufferOver.length) =
      behind.drop messageBufferOver.length := by
    rw [← List.drop_drop, List.drop_left]
  rw [receiveLoop]
  simp only [h1, if_false, hdata, hbl, h3, Int.toNat_natCast, hdrop, h2, hrest, hc, hmid,
    List.drop_left, List.take_left, cStr_of_no_nul hbody]

end Receive

theorem receiveLoop_nil (fuel : ℕ) : receiveLoop fuel [] = [] := by
  cases fuel with
  | zero => rfl
  | succ fuel => simp [receiveLoop, headerSize]

/-- **Whole messages are received as they were sent**, and a frame whose trailer is still missing is
waited on. -/
theorem receiveLoop_wire {ms : List SocketMessage} {part : Option SocketMessage}
    (hms : ∀ m ∈ ms, m.WellFormed) (hpart : ∀ m ∈ part, m.WellFormed) {fuel : ℕ}
    (hfuel : ms.length < fuel) :
    receiveLoop fuel (ms.flatMap wire ++ part.elim [] frame) = ms := by
  induction ms generalizing fuel with
  | nil =>
    obtain ⟨fuel, rfl⟩ : ∃ k, fuel = k + 1 := ⟨fuel - 1, by omega⟩
    cases part with
    | none => exact receiveLoop_nil _
    | some m =>
      have h := receiveLoop_frame (hpart m rfl) fuel []
      simpa [messageBufferOver] using h
  | cons m ms ih =>
    obtain ⟨fuel, rfl⟩ : ∃ k, fuel = k + 1 := ⟨fuel - 1, by omega⟩
    have hm := hms m (by simp)
    have hrest : receiveLoop fuel (ms.flatMap wire ++ part.elim [] frame) = ms :=
      ih (fun m' hm' => hms m' (by simp [hm'])) (by simp only [List.length_cons] at hfuel; omega)
    have hlong : ¬ (messageBufferOver ++ (ms.flatMap wire ++ part.elim [] frame)).length <
        messageBufferOver.length := by
      rw [List.length_append]; omega
    rw [List.flatMap_cons, List.append_assoc, wire, List.append_assoc, receiveLoop_frame hm,
      if_neg hlong, take_at rfl, if_pos rfl, drop_at rfl, hrest]

theorem length_flatMap_wire (ms : List SocketMessage) : ms.length ≤ (ms.flatMap wire).length :=
  length_le_flatMap fun m _ => by simp [wire, messageBufferOver]

theorem receive_wire {ms : List SocketMessage} {part : Option SocketMessage}
    (hms : ∀ m ∈ ms, m.WellFormed) (hpart : ∀ m ∈ part, m.WellFormed) :
    receive (ms.flatMap wire ++ part.elim [] frame) = ms := by
  refine receiveLoop_wire hms hpart ?_
  have h := length_flatMap_wire ms
  rw [List.length_append]
  omega

/-! ### The senders of one socket -/

/-- The threads that send on a client socket. -/
inductive Sender where
  | heartbeat | dispatch | exceptionDispatch | handler
  deriving DecidableEq, Repr

instance : Fintype Sender :=
  ⟨{.heartbeat, .dispatch, .exceptionDispatch, .handler}, by intro t; cases t <;> simp⟩

/-- The bytes sent so far, the messages each thread still has to send, and the message whose frame it
has sent and whose trailer it owes. -/
structure Socket where
  stream : Bytes
  todo : Sender → List SocketMessage
  owes : Sender → Option SocketMessage

/-- Nothing sent yet. -/
def Socket.start (msgs : Sender → List SocketMessage) : Socket := ⟨[], msgs, fun _ => none⟩

/-- The next `mSend` of thread `t`. -/
def mSend (s : Socket) (t : Sender) : Res Socket :=
  match s.owes t with
  | some _ =>
    .ok { s with stream := s.stream ++ messageBufferOver, owes := Function.update s.owes t none }
  | none =>
    match s.todo t with
    | [] => .ok s
    | m :: rest =>
      .ok { stream := s.stream ++ frame m
            todo := Function.update s.todo t rest
            owes := Function.update s.owes t (some m) }

/-- The messages of all senders. -/
def gather (f : Sender → List SocketMessage) : List SocketMessage :=
  f .heartbeat ++ f .dispatch ++ f .exceptionDispatch ++ f .handler

/-- The messages that have not been sent whole. -/
def unsent (s : Socket) : List SocketMessage := gather fun t => (s.owes t).toList ++ s.todo t

/-- The client has received every message that was sent whole, once, and nothing else. -/
def ReceivedExactly (msgs : Sender → List SocketMessage) (s : Socket) : Prop :=
  (receive s.stream ++ unsent s).Perm (gather msgs)

/-- Thread `t` sends a frame while some thread owes its trailer. -/
def FrameInside (s : Socket) (t : Sender) : Prop :=
  s.owes t = none ∧ s.todo t ≠ [] ∧ ∃ u, s.owes u ≠ none

instance (msgs : Sender → List SocketMessage) : DecidablePred (ReceivedExactly msgs) := fun s =>
  inferInstanceAs (Decidable ((receive s.stream ++ unsent s).Perm (gather msgs)))

instance (s : Socket) (t : Sender) : Decidable (FrameInside s t) :=
  inferInstanceAs (Decidable (s.owes t = none ∧ s.todo t ≠ [] ∧ ∃ u, s.owes u ≠ none))

/-- What holds while no frame is sent inside another: the stream is the whole messages `fin` and at most
one frame, of the thread that owes its trailer. -/
structure Whole (msgs : Sender → List SocketMessage) (s : Socket) (fin : List SocketMessage)
    (part : Option (Sender × SocketMessage)) : Prop where
  stream : s.stream = fin.flatMap wire ++ (part.map Prod.snd).elim [] frame
  owes : ∀ t m, s.owes t = some m ↔ part = some (t, m)
  perm : (fin ++ unsent s).Perm (gather msgs)

theorem count_gather (f : Sender → List SocketMessage) (m : SocketMessage) :
    (gather f).count m = (f .heartbeat).count m + (f .dispatch).count m +
      (f .exceptionDispatch).count m + (f .handler).count m := by
  simp only [gather, List.count_append]

/-- What a thread has before it moves over from its list to a message, it has not behind it. -/
theorem count_gather_update (f : Sender → List SocketMessage) (t : Sender) (l : List SocketMessage)
    (m : SocketMessage) :
    (gather (Function.update f t l)).count m + (f t).count m = (gather f).count m + l.count m := by
  simp only [count_gather]
  cases t <;> simp [Function.update] <;> omega

theorem whole_start (msgs : Sender → List SocketMessage) : Whole msgs (.start msgs) [] none where
  stream := rfl
  owes := by simp [Socket.start]
  perm := List.Perm.refl _

/-- A thread that owes its trailer sends it: its message is whole. -/
theorem whole_trailer {msgs : Sender → List SocketMessage} {s : Socket} {fin : List SocketMessage}
    {t : Sender} {m : SocketMessage} (h : Whole msgs s fin (some (t, m))) :
    Whole msgs { s with stream := s.stream ++ messageBufferOver
                        owes := Function.update s.owes t none } (fin ++ [m]) none := by
  have ht : s.owes t = some m := (h.owes t m).mpr rfl
  refine ⟨?_, ?_, ?_⟩
  · rw [h.stream]
    simp [wire, List.append_assoc]
  · intro u m'
    by_cases hu : u = t
    · subst hu; simp
    · show Function.update s.owes t none u = some m' ↔ _
      rw [Function.update_of_ne hu, h.owes u m']
      simp [Ne.symm hu]
  · rw [List.perm_iff_count]
    intro a
    have hc := (List.perm_iff_count.mp h.perm) a
    have hu := count_gather_update (fun u => (s.owes u).toList ++ s.todo u) t (s.todo t) a
    have hU : (fun u => (Function.update s.owes t none u).toList ++ s.todo u) =
        Function.update (fun u => (s.owes u).toList ++ s.todo u) t (s.todo t) := by
      funext u
      by_cases hut : u = t
      · subst hut; simp
      · simp [Function.update_of_ne hut]
    unfold unsent at hc ⊢
    simp only [List.count_append] at hc ⊢
    rw [hU]
    simp only [ht, Option.toList_some, List.count_append] at hu
    omega

/-- While nobody owes a trailer, a thread sends its next frame. -/
theorem whole_frame {msgs : Sender → List SocketMessage} {s : Socket} {fin : List SocketMessage}
    {t : Sender} {m : SocketMessage} {rest : List SocketMessage} (h : Whole msgs s fin none)
    (htodo : s.todo t = m :: rest) :
    Whole msgs { stream := s.stream ++ frame m
                 todo := Function.update s.todo t rest
                 owes := Function.update s.owes t (some m) } fin (some (t, m)) := by
  have hnone : ∀ u, s.owes u = none := by
    intro u
    rw [Option.eq_none_iff_forall_ne_some]
    exact fun m' hm' => absurd ((h.owes u m').mp hm') (by simp)
  refine ⟨?_, ?_, ?_⟩
  · rw [h.stream]
    simp
  · intro u m'
    by_cases hu : u = t
    · subst hu; simp
    · show Function.update s.owes t (some m) u = some m' ↔ _
      rw [Function.update_of_ne hu, hnone u]
      simp [Ne.symm hu]
  · have hU : (fun u => (Function.update s.owes t (some m) u).toList ++
        Function.update s.todo t rest u) = fun u => (s.owes u).toList ++ s.todo u := by
      funext u
      by_cases hu : u = t
      · subst hu; simp [htodo, hnone u]
      · simp [Function.update_of_ne hu]
    have hp := h.perm
    unfold unsent at hp ⊢
    simp only
    rw [hU]
    exact hp

/-- **One send** keeps the messages whole unless it is a frame inside another. -/
theorem mSend_whole {msgs : Sender → List SocketMessage} (s : Socket) (t : Sender)
    (h : ∃ fin part, Whole msgs s fin part) (ht : ¬ FrameInside s t) :
    ∃ s', mSend s t = .ok s' ∧ ∃ fin part, Whole msgs s' fin part := by
  obtain ⟨fin, part, hw⟩ := h
  cases ho : s.owes t with
  | some m =>
    obtain rfl := (hw.owes t m).mp ho
    exact ⟨_, by simp [mSend, ho], fin ++ [m], none, whole_trailer hw⟩
  | none =>
    cases htodo : s.todo t with
    | nil => exact ⟨s, by simp [mSend, ho, htodo], fin, part, hw⟩
    | cons m rest =>
      have hpart : part = none := by
        rw [Option.eq_none_iff_forall_ne_some]
        rintro ⟨u, m'⟩ hp
        refine ht ⟨ho, by simp [htodo], u, ?_⟩
        rw [(hw.owes u m').mpr hp]
        simp
      subst hpart
      exact ⟨_, by simp [mSend, ho, htodo], fin, some (t, m), whole_frame hw htodo⟩

section Senders
variable {msgs : Sender → List SocketMessage} (hwf : ∀ m ∈ gather msgs, m.WellFormed)
include hwf

theorem receivedExactly_of_whole {s : Socket} {fin : List SocketMessage}
    {part : Option (Sender × SocketMessage)} (h : Whole msgs s fin part) :
    ReceivedExactly msgs s := by
  have hfin : ∀ m ∈ fin, m.WellFormed := fun m hm =>
    hwf m (h.perm.mem_iff.mp (by simp [hm]))
  have hpart : ∀ m ∈ part.map Prod.snd, m.WellFormed := by
    intro m hm
    obtain ⟨⟨t, m'⟩, hp, rfl⟩ := Option.map_eq_some_iff.mp hm
    have ho := (h.owes t m').mpr hp
    refine hwf m' (h.perm.mem_iff.mp (List.mem_append_right _ ?_))
    cases t <;> simp [unsent, gather, ho]
  unfold ReceivedExactly
  rw [h.stream, receive_wire hfin hpart]
  exact h.perm

/-- **No frame is corrupted** in a run in which no frame is sent while another sender owes its trailer:
at every moment the client has received exactly the messages that were sent whole, each once. -/
theorem no_frame_corrupted (sched : List Sender)
    (hsched : Avoids mSend FrameInside (.start msgs) sched) :
    Throughout mSend (ReceivedExactly msgs) (.start msgs) sched := by
  have h := throughout_of_avoids (P := fun s => ∃ fin part, Whole msgs s fin part) mSend_whole
    ⟨[], none, whole_start msgs⟩ hsched
  exact h.mono fun s ⟨fin, part, hw⟩ => receivedExactly_of_whole hwf hw

end Senders

/-- A heartbeat and an update. -/
def twoSenders : Sender → List SocketMessage
  | .heartbeat => [⟨104, 49, List.replicate 36 0, [104, 101, 108, 108, 111]⟩]
  | .dispatch => [⟨103, 45, List.replicate 36 0, [120]⟩]
  | _ => []

theorem twoSenders_wellFormed : ∀ m ∈ gather twoSenders, m.WellFormed := by
  intro m hm
  simp only [gather, twoSenders, List.append_nil, List.cons_append, List.nil_append,
    List.mem_cons, List.not_mem_nil, or_false] at hm
  rcases hm with rfl | rfl
  · exact ⟨by decide, by decide, by decide, by decide, by simp⟩
  · exact ⟨by decide, by decide, by decide, by decide, by simp⟩

/-- Each sender finishes its message before the other begins. -/
theorem no_frame_corrupted_twoSenders :
    Throughout mSend (ReceivedExactly twoSenders) (.start twoSenders)
      [.heartbeat, .heartbeat, .dispatch, .dispatch] :=
  no_frame_corrupted twoSenders_wellFormed _ (by decide)

/-- The update's frame goes between the heartbeat's frame and its trailer. -/
theorem twoSenders_interleaved : ¬ Throughout mSend (ReceivedExactly twoSenders) (.start twoSenders)
    [.heartbeat, .dispatch, .heartbeat, .dispatch] := by
  decide

end DataSync.Net.Framing
