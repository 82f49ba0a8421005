import DataSync.Lib.Reading
import DataSync.Net.Framing

/-! # Receiving in pieces

`recv` gives what has arrived: a chunk of the stream, a time-out, or nothing once the peer has closed.
`mRecv` calls it until a request is filled. The client's `ThreadProcServer` and the server's
`recvMessage` read header, body and trailer of a message by three calls of `mRecv`.

`handlers_eq_sent`: however the stream is cut into chunks, the client creates one handler for each
message sent. `recvMessages_eq_iff`: with time-outs between the chunks the server receives the messages
sent exactly when every time-out falls between two messages; a time-out inside a frame loses the part
that was read. -/

namespace DataSync.Net.Fragmentation

open DataSync.Lib.Words DataSync.Lib.Memory DataSync.Lib.Reading DataSync.Net.Framing

/-! ### `recv` and `mRecv` -/

/-- The two branches of `mRecv`. -/
inductive Build where
  | win32 | other
  deriving DecidableEq, Repr

/-- Bytes that one `recv` could give at once. -/
structure Chunk where
  bytes : Bytes
  nonempty : bytes ≠ []
  deriving DecidableEq, Repr

/-- What the next `recv` finds: a chunk, no data before `SO_RCVTIMEO` runs out (`recv` returns -1), a
closed connection (it returns 0). -/
inductive Arrival where
  | chunk (c : Chunk)
  | timeout
  | closed
  deriving DecidableEq, Repr

/-- The chunk behind its first `n` bytes. -/
def Chunk.drop (c : Chunk) (n : ℕ) (h : ¬ c.bytes.length ≤ n) : Chunk :=
  ⟨c.bytes.drop n, fun hnil => h (List.drop_eq_nil_iff.mp hnil)⟩

/-- The loop of `mRecv`, with `buff` received so far. A chunk longer than the request stays with its rest
in the socket. On Windows a closed connection is an error, otherwise the loop calls `recv` again. -/
def mRecvLoop (build : Build) (len : ℕ) : List Arrival → Bytes → Read ℤ UInt8 (List Arrival)
  | [], buff => if buff.length < len then .waits else .full buff []
  | .chunk c :: arrivals, buff =>
    if buff.length < len then
      if h : c.bytes.length ≤ len - buff.length then mRecvLoop build len arrivals (buff ++ c.bytes)
      else .full (buff ++ c.bytes.take (len - buff.length))
        (.chunk (c.drop (len - buff.length) h) :: arrivals)
    else .full buff (.chunk c :: arrivals)
  | .timeout :: arrivals, buff =>
    if buff.length < len then .failed (-2) arrivals else .full buff (.timeout :: arrivals)
  | .closed :: arrivals, buff =>
    if buff.length < len then
      match build with
      | .win32 => .failed (-3) arrivals
      | .other => mRecvLoop build len arrivals buff
    else .full buff (.closed :: arrivals)

/-- `mRecv`. -/
def mRecv (build : Build) : ReadFn ℤ UInt8 (List Arrival) := fun len arrivals =>
  mRecvLoop build len arrivals []

/-- The arrivals without the cuts between chunks. -/
def events (build : Build) : List Arrival → List (Except ℤ UInt8)
  | [] => []
  | .chunk c :: arrivals => c.bytes.map .ok ++ events build arrivals
  | .timeout :: arrivals => .error (-2) :: events build arrivals
  | .closed :: arrivals =>
    match build with
    | .win32 => .error (-3) :: events build arrivals
    | .other => events build arrivals

/-- The bytes that arrive. -/
def Arrival.bytes : Arrival → Bytes
  | .chunk c => c.bytes
  | _ => []

theorem mRecvLoop_of_le {build : Build} {len : ℕ} {buff : Bytes} (h : len ≤ buff.length)
    (arrivals : List Arrival) : mRecvLoop build len arrivals buff = .full buff arrivals := by
  have h' : ¬ buff.length < len := by omega
  cases arrivals with
  | nil => simp [mRecvLoop, h']
  | cons a arrivals => cases a <;> simp [mRecvLoop, h']

/-- The bytes received so far stand in front of what is still read. -/
def prepend {σ : Type} (buff : Bytes) : Read ℤ UInt8 σ → Read ℤ UInt8 σ
  | .full bytes rest => .full (buff ++ bytes) rest
  | .failed code rest => .failed code rest
  | .waits => .waits

theorem prepend_cons {σ : Type} (buff : Bytes) (b : UInt8) (r : Read ℤ UInt8 σ) :
    prepend buff (r.cons b) = prepend (buff ++ [b]) r := by
  cases r <;> simp [prepend, Read.cons]

/-- The model reader on a chunk that is used up. -/
theorem readEvents_chunk {n : ℕ} (c : Bytes) (s : List (Except ℤ UInt8)) (buff : Bytes)
    (h : c.length ≤ n) :
    prepend buff (readEvents n (c.map .ok ++ s)) = prepend (buff ++ c) (readEvents (n - c.length) s) := by
  induction c generalizing n buff with
  | nil => simp
  | cons b c ih =>
    rw [List.length_cons] at h
    obtain ⟨n, rfl⟩ : ∃ k, n = k + 1 := ⟨n - 1, by omega⟩
    rw [List.map_cons, List.cons_append, readEvents, prepend_cons, ih (buff ++ [b]) (by omega),
      List.append_assoc, List.length_cons, Nat.add_sub_add_right]
    rfl

/-- `mRecv` with `buff` received so far reads the rest of the request. -/
theorem mRecvLoop_events (build : Build) (len : ℕ) (arrivals : List Arrival) (buff : Bytes)
    (h : buff.length ≤ len) :
    (mRecvLoop build len arrivals buff).map (events build) =
      prepend buff (readEvents (len - buff.length) (events build arrivals)) := by
  induction arrivals generalizing buff with
  | nil =>
    by_cases hlt : buff.length < len
    · obtain ⟨n, hn⟩ : ∃ k, len - buff.length = k + 1 := ⟨len - buff.length - 1, by omega⟩
      simp [mRecvLoop, hlt, events, hn, readEvents, Read.map, prepend]
    · have hz : len - buff.length = 0 := by omega
      simp [mRecvLoop, hlt, events, hz, Read.map, prepend]
  | cons a arrivals ih =>
    by_cases hlt : buff.length < len
    · obtain ⟨n, hn⟩ : ∃ k, len - buff.length = k + 1 := ⟨len - buff.length - 1, by omega⟩
      cases a with
      | chunk c =>
        by_cases hc : c.bytes.length ≤ len - buff.length
        · rw [mRecvLoop, if_pos hlt, dif_pos hc, ih (buff ++ c.bytes) (by simp; omega), events,
            readEvents_chunk c.bytes _ buff hc, List.length_append, Nat.sub_sub]
        · -- the request ends inside the chunk
          have hsplit : c.bytes.map Except.ok ++ events build arrivals =
              (c.bytes.take (len - buff.length)).map Except.ok ++
                ((c.bytes.drop (len - buff.length)).map Except.ok ++ events build arrivals) := by
            rw [← List.append_assoc, ← List.map_append, List.take_append_drop]
          rw [mRecvLoop, if_pos hlt, dif_neg hc, events, hsplit,
            readEvents_full _ _ (by rw [List.length_take]; omega)]
          rfl
      | timeout => simp [mRecvLoop, hlt, events, hn, readEvents, Read.map, prepend]
      | closed =>
        cases build with
        | win32 => simp [mRecvLoop, hlt, events, hn, readEvents, Read.map, prepend]
        | other =>
          rw [mRecvLoop, if_pos hlt]
          exact ih buff h
    · have hz : len - buff.length = 0 := by omega
      rw [mRecvLoop_of_le (by omega), hz, readEvents_zero]
      simp [Read.map, prepend]

/-- **The cuts between chunks do not matter** to `mRecv`. -/
theorem mRecv_simulates (build : Build) : Simulates (events build) (mRecv build) readEvents := by
  intro n arrivals
  have h := mRecvLoop_events build n arrivals [] (by simp)
  have hp : ∀ r : Read ℤ UInt8 (List (Except ℤ UInt8)), prepend [] r = r := by
    intro r; cases r <;> rfl
  rw [hp] at h
  exact h.symm

/-! ### The two receivers -/

/-- `bodyLen`: `data_len_` without the header, as an `int`. -/
def bodyLen (header : Bytes) : ℤ := toSigned 32 (leNat ((header.drop 4).take 4) + 2 ^ 32 - headerSize)

/-- The header, and the body as a C string. -/
def received (header body : Bytes) : SocketMessage :=
  ⟨leNat (header.take 4), leNat ((header.drop 4).take 4), header.drop 8, cStr body⟩

/-- What a round of a receiver comes to. -/
inductive Round (σ : Type) where
  /-- A message, and the stream behind it. -/
  | message (m : SocketMessage) (rest : σ)
  /-- No message; the receiver goes on with the stream behind the bytes it has read. -/
  | dropped (rest : σ)
  /-- The receiver leaves its loop. -/
  | ended
  /-- It waits in `recv`. -/
  | waits
  deriving DecidableEq, Repr

/-- The same round, for the streams behind `f`. -/
def Round.map {σ τ : Type} (f : σ → τ) : Round σ → Round τ
  | .message m rest => .message m (f rest)
  | .dropped rest => .dropped (f rest)
  | .ended => .ended
  | .waits => .waits

section Receivers
variable {σ τ : Type}

/-- What the two receivers do in one round: the header, the body and the trailer, each by one `mRecv`.
They differ where the body is not received: a length below -1 cannot be allocated, for -1 `mRecv`
returns 0, and the read of the body may fail. -/
def receiveRound (noBody : σ → Round σ) (mRecv : ReadFn ℤ UInt8 σ) (s : σ) : Round σ :=
  match mRecv headerSize s with
  | .waits => .waits
  | .failed _ s => .dropped s
  | .full header s =>
    if bodyLen header < 0 then noBody s
    else
      match mRecv (bodyLen header).toNat s with
      | .waits => .waits
      | .failed _ s => noBody s
      | .full body s =>
        match mRecv messageBufferOver.length s with
        | .waits => .waits
        | .failed _ s => .dropped s
        | .full buf s =>
          if buf = messageBufferOver then .message (received header body) s else .dropped s

/-- A round of the client's `ThreadProcServer`, which breaks its loop without a body; `message` is a call
of `CHandlerMessage`. -/
def threadProcServer (mRecv : ReadFn ℤ UInt8 σ) : σ → Round σ := receiveRound (fun _ => .ended) mRecv

/-- The server's `recvMessage`, which returns false without a body; `message` is the return of true. -/
def recvMessage (mRecv : ReadFn ℤ UInt8 σ) : σ → Round σ := receiveRound .dropped mRecv

/-- Where a receiver stands at the end of what has arrived. -/
inductive Standing where
  | waits | ended
  deriving DecidableEq, Repr

/-- Round after round: the messages, and where the receiver stands then. -/
def receiveAll (round : σ → Round σ) : ℕ → σ → Option (List SocketMessage × Standing)
  | 0, _ => none
  | fuel + 1, s =>
    match round s with
    | .message m rest => (receiveAll round fuel rest).map fun r => (m :: r.1, r.2)
    | .dropped rest => receiveAll round fuel rest
    | .ended => some ([], .ended)
    | .waits => some ([], .waits)

theorem receiveRound_simulates {f : σ → τ} {r : ReadFn ℤ UInt8 σ} {r' : ReadFn ℤ UInt8 τ}
    (h : Simulates f r r') {noBody : σ → Round σ} {noBody' : τ → Round τ}
    (hno : ∀ s, noBody' (f s) = (noBody s).map f) (s : σ) :
    receiveRound noBody' r' (f s) = (receiveRound noBody r s).map f := by
  unfold receiveRound
  rw [h]
  cases r headerSize s with
  | waits => rfl
  | failed code s => rfl
  | full header s =>
    simp only [Read.map]
    split_ifs
    · exact hno s
    rw [h]
    cases r (bodyLen header).toNat s with
    | waits => rfl
    | failed code s => exact hno s
    | full body s =>
      simp only [Read.map]
      rw [h]
      cases r messageBufferOver.length s with
      | waits => rfl
      | failed code s => rfl
      | full buf s =>
        simp only [Read.map]
        split_ifs <;> rfl

/-- A receiver sees the same messages behind `f`. -/
theorem receiveAll_map {f : σ → τ} {round : σ → Round σ} {round' : τ → Round τ}
    (h : ∀ s, round' (f s) = (round s).map f) (fuel : ℕ) (s : σ) :
    receiveAll round' fuel (f s) = receiveAll round fuel s := by
  induction fuel generalizing s with
  | zero => rfl
  | succ fuel ih =>
    rw [receiveAll, receiveAll, h]
    cases round s with
    | message m rest => simp only [Round.map, ih]
    | dropped rest => simp only [Round.map, ih]
    | ended => rfl
    | waits => rfl

end Receivers

/-- The client on what arrives; a round takes one event at least. -/
def clientReceives (arrivals : List Arrival) : Option (List SocketMessage × Standing) :=
  receiveAll (threadProcServer (mRecv .win32)) ((events .win32 arrivals).length + 1) arrivals

/-- The loop of `threadHandler` on what arrives: the messages for which `recvMessage` returns true. -/
def serverReceives (arrivals : List Arrival) : Option (List SocketMessage × Standing) :=
  receiveAll (recvMessage (mRecv .other)) ((events .other arrivals).length + 1) arrivals

theorem clientReceives_eq (arrivals : List Arrival) :
    clientReceives arrivals = receiveAll (threadProcServer readEvents)
      ((events .win32 arrivals).length + 1) (events .win32 arrivals) :=
  (receiveAll_map (receiveRound_simulates (mRecv_simulates .win32) fun _ => rfl) _ _).symm

theorem serverReceives_eq (arrivals : List Arrival) :
    serverReceives arrivals = receiveAll (recvMessage readEvents)
      ((events .other arrivals).length + 1) (events .other arrivals) :=
  (receiveAll_map (receiveRound_simulates (mRecv_simulates .other) fun _ => rfl) _ _).symm

/-! ### A message that was sent -/

/-- `HandlerClientSocket::sendMessage`: a buffer of `data_len_` zeros and one byte more, into which header
and body are copied; `data_len_` bytes of it are sent, and the trailer. -/
def sendMessage (m : SocketMessage) : Res Bytes :=
  if m.dataLen + 1 < (frame m).length then .error .fault
  else .ok ((frame m ++ List.replicate (m.dataLen - (frame m).length) 0).take m.dataLen ++
    messageBufferOver)

/-- The messages one after another. -/
def sendMessages (ms : List SocketMessage) : Res Bytes := List.flatten <$> ms.mapM sendMessage

/-- The bytes of the header. -/
def header (m : SocketMessage) : Bytes := leBytes 4 m.code ++ leBytes 4 m.dataLen ++ m.messageId

theorem wire_eq (m : SocketMessage) : wire m = header m ++ (m.body ++ messageBufferOver) := by
  simp only [wire, frame, header, List.append_assoc]

section Sent
variable {m : SocketMessage} (h : m.WellFormed)
include h

theorem length_header : (header m).length = headerSize := by
  simp [header, headerSize, h.messageId]

theorem dataLen_header : leNat (((header m).drop 4).take 4) = m.dataLen := by
  have hint := h.int
  rw [header, List.append_assoc, window_at (by simp) (by simp), leNat_leBytes_of_lt (by omega)]

theorem bodyLen_header : bodyLen (header m) = m.body.length := by
  have hint := h.int
  have hlen := h.dataLen
  have hsum : m.dataLen + 2 ^ 32 - headerSize = m.body.length + 2 ^ 32 := by omega
  rw [bodyLen, dataLen_header h, hsum, toSigned_add_pow]
  exact toSigned_of_lt (by decide) (by simp only [headerSize] at hlen; omega)

theorem received_header : received (header m) m.body = m := by
  have hcode : leNat ((header m).take 4) = m.code := by
    rw [header, List.append_assoc, take_at (by simp), leNat_leBytes_of_lt h.code]
  have hid : (header m).drop 8 = m.messageId := by
    rw [header]
    exact drop_at (by simp)
  rw [received, hcode, dataLen_header h, hid, cStr_of_no_nul h.body]

theorem sendMessage_wire : sendMessage m = .ok (wire m) := by
  have hlen : (frame m).length = m.dataLen := by rw [length_frame h, h.dataLen]
  rw [sendMessage, if_neg (by omega), hlen, Nat.sub_self, List.replicate_zero, List.append_nil,
    ← hlen, List.take_length]
  rfl

/-- A whole message in front of the stream is received. -/
theorem receiveRound_wire (noBody : List (Except ℤ UInt8) → Round (List (Except ℤ UInt8)))
    (s : List (Except ℤ UInt8)) :
    receiveRound noBody readEvents ((wire m).map .ok ++ s) = .message m s := by
  have hbody : ¬ ((m.body.length : ℕ) : ℤ) < 0 := by omega
  rw [wire_eq, List.map_append, List.map_append, List.append_assoc, List.append_assoc]
  simp only [receiveRound, readEvents_full _ _ (length_header h).symm, bodyLen_header h, hbody,
    if_false, Int.toNat_natCast, readEvents_full _ _ rfl, received_header h, if_true]

/-- A failure inside a message: the receiver goes on behind the failure. -/
theorem recvMessage_cut {part more : Bytes} (hw : wire m = part ++ more) (hmore : more ≠ [])
    (code : ℤ) (s : List (Except ℤ UInt8)) :
    recvMessage readEvents (part.map .ok ++ .error code :: s) = .dropped s := by
  have hbody : ¬ ((m.body.length : ℕ) : ℤ) < 0 := by omega
  have hlen := congrArg List.length hw
  have hpos : 0 < more.length := List.length_pos_iff.mpr hmore
  rw [wire_eq] at hw hlen
  simp only [List.length_append, length_header h] at hlen
  unfold recvMessage receiveRound
  by_cases h1 : part.length < headerSize
  · rw [readEvents_failed h1]
  -- the part has the whole header
  obtain ⟨part, rfl, hw'⟩ := append_eq_append_of_length_le hw (by rw [length_header h]; omega)
  rw [List.length_append, length_header h] at hlen h1
  simp only [List.map_append, List.append_assoc, readEvents_full _ _ (length_header h).symm,
    bodyLen_header h, hbody, if_false, Int.toNat_natCast]
  by_cases h2 : part.length < m.body.length
  · rw [readEvents_failed h2]
  -- and the whole body
  obtain ⟨part, rfl, -⟩ := append_eq_append_of_length_le hw' (by omega)
  rw [List.length_append] at hlen h2
  simp only [List.map_append, List.append_assoc, readEvents_full _ _ rfl]
  rw [readEvents_failed (by omega)]

end Sent

theorem sendMessages_wire {ms : List SocketMessage} (hms : ∀ m ∈ ms, m.WellFormed) :
    sendMessages ms = .ok (ms.flatMap wire) := by
  induction ms with
  | nil => rfl
  | cons m ms ih =>
    have hrest := ih fun m' hm' => hms m' (by simp [hm'])
    obtain ⟨stream, hs, hflat⟩ := Res.map_eq_ok.mp hrest
    rw [sendMessages, List.mapM_cons, sendMessage_wire (hms m (by simp)), Res.ok_bind, hs]
    simp [← hflat]

/-! ### Any fragmentation -/

theorem events_chunks (build : Build) (chunks : List Chunk) :
    events build (chunks.map .chunk) = (chunks.flatMap Chunk.bytes).map .ok := by
  induction chunks with
  | nil => rfl
  | cons c chunks ih => rw [List.map_cons, events, ih, List.flatMap_cons, List.map_append]

/-- Whole messages are received one by one. -/
theorem receiveAll_wire (noBody : List (Except ℤ UInt8) → Round (List (Except ℤ UInt8)))
    {ms : List SocketMessage} (hms : ∀ m ∈ ms, m.WellFormed) {fuel : ℕ} (hfuel : ms.length < fuel) :
    receiveAll (receiveRound noBody readEvents) fuel ((ms.flatMap wire).map .ok) =
      some (ms, .waits) := by
  obtain ⟨fuel, rfl⟩ : ∃ k, fuel = k + 1 := ⟨fuel - 1, by omega⟩
  induction ms generalizing fuel with
  | nil => rfl
  | cons m ms ih =>
    rw [List.length_cons] at hfuel
    obtain ⟨fuel, rfl⟩ : ∃ k, fuel = k + 1 := ⟨fuel - 1, by omega⟩
    rw [List.flatMap_cons, List.map_append, receiveAll, receiveRound_wire (hms m (by simp))]
    simp only [ih (fun m' hm' => hms m' (by simp [hm'])) fuel (by omega), Option.map_some]

/-- **Every fragmentation is undone**: however `recv` cuts what `sendMessage` has sent, the client
creates one handler for each message, in order and with its header and body, and waits for more. -/
theorem handlers_eq_sent {ms : List SocketMessage} (hms : ∀ m ∈ ms, m.WellFormed) :
    ∃ stream, sendMessages ms = .ok stream ∧ ∀ chunks : List Chunk,
      chunks.flatMap Chunk.bytes = stream →
        clientReceives (chunks.map .chunk) = some (ms, .waits) := by
  refine ⟨_, sendMessages_wire hms, fun chunks hchunks => ?_⟩
  have hlen := length_flatMap_wire ms
  rw [clientReceives_eq, events_chunks, hchunks]
  exact receiveAll_wire _ hms (by rw [List.length_map]; omega)

/-! ### The loop on the bytes that have arrived -/

theorem readEvents_bytes (n : ℕ) (bs : Bytes) :
    readEvents n (bs.map (.ok : UInt8 → Except ℤ UInt8)) =
      if bs.length < n then .waits else .full (bs.take n) ((bs.drop n).map .ok) := by
  split_ifs with h
  · exact readEvents_waits h
  · rw [← readEvents_full (bs.take n) ((bs.drop n).map .ok) (by rw [List.length_take, min_eq_left (not_lt.mp h)]),
      ← List.map_append, List.take_append_drop]

/-- A round of a receiver on the bytes that have arrived. -/
theorem receiveRound_bytes {σ : Type} {f : Bytes → σ} {mRecv : ReadFn ℤ UInt8 σ}
    (h : ∀ n bs, mRecv n (f bs) = if bs.length < n then .waits else .full (bs.take n) (f (bs.drop n)))
    (noBody : σ → Round σ) (stream : Bytes) :
    receiveRound noBody mRecv (f stream) =
      if stream.length < headerSize then .waits
      else if bodyLen (stream.take headerSize) < 0 then noBody (f (stream.drop headerSize))
      else
        let behind := stream.drop headerSize
        let len := (bodyLen (stream.take headerSize)).toNat
        if behind.length < len + messageBufferOver.length then .waits
        else
          let rest := f (behind.drop (len + messageBufferOver.length))
          if (behind.drop len).take messageBufferOver.length = messageBufferOver then
            .message (received (stream.take headerSize) (behind.take len)) rest
          else .dropped rest := by
  unfold receiveRound
  generalize messageBufferOver = trailer
  rw [h]
  by_cases h1 : stream.length < headerSize
  · simp only [h1, if_true]
  simp only [h1, if_false]
  generalize bodyLen (stream.take headerSize) = len
  by_cases h2 : len < 0
  · simp only [h2, if_true]
  simp only [h2, if_false, h]
  generalize len.toNat = len
  generalize stream.drop headerSize = behind
  by_cases h3 : behind.length < len
  · have hshort : behind.length < len + trailer.length := by omega
    simp only [h3, hshort, if_true]
  simp only [h3, if_false, h, List.length_drop]
  by_cases h4 : behind.length - len < trailer.length
  · have hshort : behind.length < len + trailer.length := by omega
    simp only [h4, hshort, if_true]
  have hlong : ¬ behind.length < len + trailer.length := by omega
  simp only [h4, hlong, if_false, List.drop_drop]

theorem bodyLen_take (stream : Bytes) :
    bodyLen (stream.take headerSize) = toSigned 32 (leNat ((stream.drop 4).take 4) + 2 ^ 32 - headerSize) := by
  have hlen : ((stream.take headerSize).drop 4).take 4 = (stream.drop 4).take 4 := by
    rw [List.drop_take, List.take_take, min_eq_left (by decide : 4 ≤ headerSize - 4)]
  rw [bodyLen, hlen]

theorem received_take (stream body : Bytes) :
    received (stream.take headerSize) body =
      ⟨leNat (stream.take 4), leNat ((stream.drop 4).take 4), (stream.drop 8).take 36, cStr body⟩ := by
  have hcode : (stream.take headerSize).take 4 = stream.take 4 := by
    rw [List.take_take, min_eq_left (by decide : 4 ≤ headerSize)]
  have hlen : ((stream.take headerSize).drop 4).take 4 = (stream.drop 4).take 4 := by
    rw [List.drop_take, List.take_take, min_eq_left (by decide : 4 ≤ headerSize - 4)]
  have hid : (stream.take headerSize).drop 8 = (stream.drop 8).take 36 := List.drop_take ..
  rw [received, hcode, hlen, hid]

/-- Round after round the client reads what `receive` takes from the whole stream. -/
theorem receiveAll_receiveLoop {fuel : ℕ} {stream : Bytes} (h : stream.length < fuel) :
    ∃ st, receiveAll (threadProcServer readEvents) fuel (stream.map .ok) = some (receiveLoop fuel stream, st) := by
  unfold threadProcServer
  induction fuel generalizing stream with
  | zero => omega
  | succ fuel ih =>
    rw [receiveAll, receiveLoop, receiveRound_bytes readEvents_bytes]
    simp only [received_take, bodyLen_take]
    generalize messageBufferOver = trailer
    generalize toSigned 32 (leNat ((stream.drop 4).take 4) + 2 ^ 32 - headerSize) = len
    by_cases h1 : stream.length < headerSize
    · simp only [h1, if_true]
      exact ⟨.waits, rfl⟩
    have hrest : ((stream.drop headerSize).drop (len.toNat + trailer.length)).length < fuel := by
      simp only [List.length_drop, headerSize] at h1 ⊢
      omega
    obtain ⟨st, hst⟩ := ih hrest
    simp only [h1, if_false]
    by_cases h2 : len < 0
    · simp only [h2, if_true]
      exact ⟨.ended, rfl⟩
    simp only [h2, if_false]
    by_cases h3 : (stream.drop headerSize).length < len.toNat + trailer.length
    · simp only [h3, if_true]
      exact ⟨.waits, rfl⟩
    simp only [h3, if_false]
    refine ⟨st, ?_⟩
    by_cases h4 : ((stream.drop headerSize).drop len.toNat).take trailer.length = trailer
    · simp only [h4, if_true, hst, Option.map_some]
    · simp only [h4, if_false, hst]

/-- **The two loops are one**: whatever the chunks, the client creates the handlers that it creates for the whole
stream at once. -/
theorem clientReceives_receive (chunks : List Chunk) : ∃ st,
    clientReceives (chunks.map .chunk) = some (receive (chunks.flatMap Chunk.bytes), st) := by
  rw [clientReceives_eq, events_chunks, List.length_map]
  exact receiveAll_receiveLoop (Nat.lt_succ_self _)

/-! ### Time-outs -/

/-- A message that is received stands in front of the stream, whatever the stream is. -/
theorem receiveRound_message {noBody : List (Except ℤ UInt8) → Round (List (Except ℤ UInt8))}
    (hno : ∀ s m rest, noBody s ≠ .message m rest) {s rest : List (Except ℤ UInt8)} {m : SocketMessage}
    (h : receiveRound noBody readEvents s = .message m rest) :
    ∃ header body, header.length = headerSize ∧ m = received header body ∧
      s = (header ++ (body ++ messageBufferOver)).map .ok ++ rest := by
  unfold receiveRound at h
  cases hr1 : readEvents headerSize s with
  | waits => rw [hr1] at h; cases h
  | failed code s1 => rw [hr1] at h; cases h
  | full header s1 =>
    obtain ⟨hlen1, rfl⟩ := of_full hr1
    rw [hr1] at h
    dsimp only at h
    split_ifs at h
    · exact absurd h (hno _ _ _)
    cases hr2 : readEvents (bodyLen header).toNat s1 with
    | waits => rw [hr2] at h; cases h
    | failed code s2 => rw [hr2] at h; exact absurd h (hno _ _ _)
    | full body s2 =>
      obtain ⟨-, rfl⟩ := of_full hr2
      rw [hr2] at h
      dsimp only at h
      cases hr3 : readEvents messageBufferOver.length s2 with
      | waits => rw [hr3] at h; cases h
      | failed code s3 => rw [hr3] at h; cases h
      | full buf s3 =>
        obtain ⟨-, rfl⟩ := of_full hr3
        rw [hr3] at h
        dsimp only at h
        split_ifs at h with hbuf
        injection h with hm hrest
        subst hbuf hrest
        exact ⟨header, body, hlen1, hm.symm, by simp⟩

/-- A round without a message takes something from the stream and puts nothing back. -/
theorem recvMessage_dropped {s rest : List (Except ℤ UInt8)}
    (h : recvMessage readEvents s = .dropped rest) : ∃ front, front ≠ [] ∧ s = front ++ rest := by
  unfold recvMessage receiveRound at h
  cases hr1 : readEvents headerSize s with
  | waits => rw [hr1] at h; cases h
  | failed code s1 =>
    obtain ⟨as, -, rfl⟩ := of_failed hr1
    rw [hr1] at h
    injection h with h
    exact ⟨as.map .ok ++ [.error code], by simp, by simp [h]⟩
  | full header s1 =>
    obtain ⟨hlen1, rfl⟩ := of_full hr1
    have hne : header.map (Except.ok : UInt8 → Except ℤ UInt8) ≠ [] := by
      rintro hnil
      rw [List.map_eq_nil_iff.mp hnil] at hlen1
      cases hlen1
    suffices hs : ∃ front, s1 = front ++ rest by
      obtain ⟨front, rfl⟩ := hs
      exact ⟨header.map .ok ++ front, by simp [List.map_eq_nil_iff.not.mp hne], by simp⟩
    rw [hr1] at h
    dsimp only at h
    split_ifs at h
    · injection h with h
      exact ⟨[], h⟩
    cases hr2 : readEvents (bodyLen header).toNat s1 with
    | waits => rw [hr2] at h; cases h
    | failed code s2 =>
      obtain ⟨as, -, rfl⟩ := of_failed hr2
      rw [hr2] at h
      injection h with h
      exact ⟨as.map .ok ++ [.error code], by simp [h]⟩
    | full body s2 =>
      obtain ⟨-, rfl⟩ := of_full hr2
      rw [hr2] at h
      dsimp only at h
      cases hr3 : readEvents messageBufferOver.length s2 with
      | waits => rw [hr3] at h; cases h
      | failed code s3 =>
        obtain ⟨as, -, rfl⟩ := of_failed hr3
        rw [hr3] at h
        injection h with h
        exact ⟨body.map .ok ++ as.map .ok ++ [.error code], by simp [h]⟩
      | full buf s3 =>
        obtain ⟨-, rfl⟩ := of_full hr3
        rw [hr3] at h
        dsimp only at h
        split_ifs at h
        injection h with h
        exact ⟨body.map .ok ++ buf.map .ok, by simp [h]⟩

theorem length_wire_received {header body : Bytes} (h : header.length = headerSize) :
    (wire (received header body)).length ≤ (header ++ (body ++ messageBufferOver)).length := by
  have hstr : (cStr body).length ≤ body.length := (List.takeWhile_prefix _).length_le
  have hsize : headerSize = 44 := rfl
  simp only [received, wire, frame, List.length_append, length_leBytes, List.length_drop]
  omega

/-- All messages that are received have room in the stream. -/
theorem receiveAll_units {fuel : ℕ} {s : List (Except ℤ UInt8)} {out : List SocketMessage}
    {st : Standing} (h : receiveAll (recvMessage readEvents) fuel s = some (out, st)) :
    (out.flatMap wire).length ≤ (units s).length := by
  induction fuel generalizing s out with
  | zero => cases h
  | succ fuel ih =>
    rw [receiveAll] at h
    cases hr : recvMessage readEvents s with
    | message m rest =>
      rw [hr] at h
      obtain ⟨⟨out', st'⟩, ho, he⟩ := Option.map_eq_some_iff.mp h
      obtain ⟨rfl, rfl⟩ := Prod.mk.inj he
      obtain ⟨header, body, hlen, rfl, rfl⟩ := receiveRound_message (by simp) hr
      have hrest := ih ho
      have hwire := @length_wire_received header body hlen
      rw [List.flatMap_cons, List.length_append, units_append, units_map_ok, List.length_append]
      exact Nat.add_le_add hwire hrest
    | dropped rest =>
      rw [hr] at h
      obtain ⟨front, -, rfl⟩ := recvMessage_dropped hr
      have hrest := ih h
      rw [units_append, List.length_append]
      omega
    | ended =>
      rw [hr] at h
      obtain ⟨rfl, -⟩ := Prod.mk.inj (Option.some.inj h)
      simp
    | waits =>
      rw [hr] at h
      obtain ⟨rfl, -⟩ := Prod.mk.inj (Option.some.inj h)
      simp

/-- Every failure stands between two messages. -/
def Between (ms : List SocketMessage) (s : List (Except ℤ UInt8)) : Prop :=
  ∀ pre code post, s = pre ++ .error code :: post → ∃ k, units pre = (ms.take k).flatMap wire

theorem between_error {ms : List SocketMessage} {code : ℤ} {s : List (Except ℤ UInt8)} :
    Between ms (.error code :: s) ↔ Between ms s := by
  constructor
  · rintro h pre code' post rfl
    obtain ⟨k, hk⟩ := h (.error code :: pre) code' post rfl
    exact ⟨k, by simpa using hk⟩
  · intro h pre code' post hs
    cases pre with
    | nil => exact ⟨0, by simp⟩
    | cons e pre =>
      obtain ⟨rfl, rfl⟩ := List.cons.inj hs
      obtain ⟨k, hk⟩ := h pre code' post rfl
      exact ⟨k, by simpa using hk⟩

/-- Behind a whole message the failures stand between the messages that follow it. -/
theorem between_wire {m : SocketMessage} {ms : List SocketMessage} {s : List (Except ℤ UInt8)} :
    Between (m :: ms) ((wire m).map .ok ++ s) ↔ Between ms s := by
  have hpos : 0 < (wire m).length := by simp [wire, messageBufferOver]
  constructor
  · rintro h pre code post rfl
    obtain ⟨k, hk⟩ := h ((wire m).map .ok ++ pre) code post (by simp)
    rw [units_append, units_map_ok] at hk
    cases k with
    | zero =>
      have hlen := congrArg List.length hk
      simp only [List.length_append, List.take_zero, List.flatMap_nil, List.length_nil] at hlen
      omega
    | succ k => exact ⟨k, by simpa using hk⟩
  · intro h pre code post hs
    obtain ⟨pre', rfl, rfl⟩ := map_ok_append_eq hs
    obtain ⟨k, hk⟩ := h pre' code post rfl
    exact ⟨k + 1, by simp [hk]⟩

/-- The receiver goes on behind a failure between two messages as if nothing had been. -/
theorem recvMessage_error (code : ℤ) (s : List (Except ℤ UInt8)) :
    recvMessage readEvents (.error code :: s) = .dropped s := by
  have h : readEvents headerSize (.error code :: s) = .failed code s :=
    readEvents_failed (show ([] : Bytes).length < headerSize by decide) code s
  unfold recvMessage receiveRound
  rw [h]

/-- With a failure inside it, a message is not received: too few bytes are left behind the failure. -/
theorem receiveAll_cut {m : SocketMessage} (hm : m.WellFormed) {as more : Bytes} (hw : wire m = as ++ more)
    (has : as ≠ []) (hmore : more ≠ []) {ms : List SocketMessage} {rest : List (Except ℤ UInt8)}
    (hrest : units rest = more ++ ms.flatMap wire) {code : ℤ} {fuel : ℕ} {st : Standing} :
    receiveAll (recvMessage readEvents) (fuel + 1) (as.map .ok ++ .error code :: rest) ≠
      some (m :: ms, st) := by
  intro h
  rw [receiveAll, recvMessage_cut hm hw hmore] at h
  have hroom := receiveAll_units h
  have hpos := List.length_pos_iff.mpr has
  rw [List.flatMap_cons, hw, hrest, List.append_assoc, List.length_append] at hroom
  omega

/-- A failure inside a message does not stand between two of them. -/
theorem not_between_cut {m : SocketMessage} {as more : Bytes} (hw : wire m = as ++ more) (has : as ≠ [])
    (hmore : more ≠ []) {ms : List SocketMessage} {rest : List (Except ℤ UInt8)} {code : ℤ} :
    ¬ Between (m :: ms) (as.map .ok ++ .error code :: rest) := by
  intro h
  obtain ⟨k, hk⟩ := h (as.map .ok) code rest rfl
  rw [units_map_ok] at hk
  cases k with
  | zero => exact has hk
  | succ k =>
    have hlen := congrArg List.length hk
    have hpos := List.length_pos_iff.mpr hmore
    rw [List.take_succ_cons, List.flatMap_cons, hw, List.length_append, List.length_append] at hlen
    omega

/-- **The server receives what was sent exactly when** every failure stands between two messages. -/
theorem receiveAll_iff {ms : List SocketMessage} (hms : ∀ m ∈ ms, m.WellFormed) {fuel : ℕ}
    {s : List (Except ℤ UInt8)} (hsent : units s = ms.flatMap wire) (hfuel : s.length < fuel) :
    receiveAll (recvMessage readEvents) fuel s = some (ms, .waits) ↔ Between ms s := by
  induction fuel generalizing ms s with
  | zero => omega
  | succ fuel ih =>
    have hlen := length_flatMap_wire ms
    cases s with
    | nil =>
      obtain rfl : ms = [] := by
        rw [← hsent] at hlen
        exact List.length_eq_zero_iff.mp (by simpa using hlen)
      refine iff_of_true rfl fun pre code post hs => ?_
      simp at hs
    | cons e s =>
      rw [List.length_cons] at hfuel
      cases e with
      | error code =>
        rw [receiveAll, recvMessage_error, between_error]
        exact ih hms hsent (by omega)
      | ok b =>
        cases ms with
        | nil => simp at hsent
        | cons m ms =>
          have hm : m.WellFormed := hms m (by simp)
          have hms' : ∀ m' ∈ ms, m'.WellFormed := fun m' hm' => hms m' (by simp [hm'])
          rw [List.flatMap_cons] at hsent
          cases hr : readEvents (wire m).length (Except.ok b :: s) with
          | waits =>
            -- the message is there
            obtain ⟨as, has, hs⟩ := of_waits hr
            rw [hs, units_map_ok] at hsent
            rw [hsent, List.length_append] at has
            omega
          | full as rest =>
            obtain ⟨has, hs⟩ := of_full hr
            rw [hs, units_append, units_map_ok] at hsent
            obtain ⟨rfl, hrest⟩ := List.append_inj hsent has
            have hshort := congrArg List.length hs
            have hpos : 0 < (wire m).length := by simp [wire, messageBufferOver]
            simp only [List.length_cons, List.length_append, List.length_map] at hshort
            have hih := ih hms' hrest (by omega)
            rw [hs, between_wire, ← hih, receiveAll, recvMessage, receiveRound_wire hm]
            simp
          | failed code rest =>
            obtain ⟨as, has, hs⟩ := of_failed hr
            rw [hs, units_append, units_map_ok, units_error_cons] at hsent
            obtain ⟨more, hw, hrest⟩ := append_eq_append_of_length_le hsent has.le
            have hmore : more ≠ [] := by
              rintro rfl
              rw [hw, List.append_nil] at has
              omega
            have hne : as ≠ [] := by
              rintro rfl
              simp at hs
            rw [hs]
            exact iff_of_false (receiveAll_cut hm hw hne hmore hrest) (not_between_cut hw hne hmore)

theorem units_events (build : Build) (arrivals : List Arrival) :
    units (events build arrivals) = arrivals.flatMap Arrival.bytes := by
  induction arrivals with
  | nil => rfl
  | cons a arrivals ih =>
    cases a with
    | chunk c => simp [events, ih, Arrival.bytes]
    | timeout => simp [events, ih, Arrival.bytes]
    | closed => cases build <;> simp [events, ih, Arrival.bytes]

theorem events_append (build : Build) (xs ys : List Arrival) :
    events build (xs ++ ys) = events build xs ++ events build ys := by
  induction xs with
  | nil => rfl
  | cons a xs ih =>
    cases a with
    | chunk c => simp [events, ih]
    | timeout => simp [events, ih]
    | closed => cases build <;> simp [events, ih]

/-- On the server only a time-out is a failure. -/
theorem exists_timeout {arrivals : List Arrival} {pre post : List (Except ℤ UInt8)} {code : ℤ}
    (h : events .other arrivals = pre ++ .error code :: post) :
    ∃ before behind, arrivals = before ++ .timeout :: behind ∧ events .other before = pre := by
  induction arrivals generalizing pre with
  | nil => simp [events] at h
  | cons a arrivals ih =>
    cases a with
    | chunk c =>
      obtain ⟨pre', rfl, hs⟩ := map_ok_append_eq h
      obtain ⟨before, behind, rfl, rfl⟩ := ih hs
      exact ⟨.chunk c :: before, behind, rfl, rfl⟩
    | timeout =>
      cases pre with
      | nil => exact ⟨[], arrivals, rfl, rfl⟩
      | cons e pre =>
        obtain ⟨rfl, hs⟩ := List.cons.inj h
        obtain ⟨before, behind, rfl, rfl⟩ := ih hs
        exact ⟨.timeout :: before, behind, rfl, rfl⟩
    | closed =>
      obtain ⟨before, behind, rfl, rfl⟩ := ih h
      exact ⟨.closed :: before, behind, rfl, rfl⟩

/-- **Time-outs**: the server receives exactly the messages sent if and only if every time-out falls
between two of them. -/
theorem serverReceives_iff {ms : List SocketMessage} (hms : ∀ m ∈ ms, m.WellFormed)
    {arrivals : List Arrival} (hsent : arrivals.flatMap Arrival.bytes = ms.flatMap wire) :
    serverReceives arrivals = some (ms, .waits) ↔
      ∀ before behind, arrivals = before ++ .timeout :: behind →
        ∃ k, before.flatMap Arrival.bytes = (ms.take k).flatMap wire := by
  have hunits : units (events .other arrivals) = ms.flatMap wire := by rw [units_events, hsent]
  rw [serverReceives_eq, receiveAll_iff hms hunits (Nat.lt_succ_self _)]
  constructor
  · rintro h before behind rfl
    obtain ⟨k, hk⟩ := h (events .other before) (-2) (events .other behind) (by
      rw [events_append]; rfl)
    exact ⟨k, by rw [← hk, units_events]⟩
  · intro h pre code post hs
    obtain ⟨before, behind, rfl, rfl⟩ := exists_timeout hs
    obtain ⟨k, hk⟩ := h before behind rfl
    exact ⟨k, by rw [units_events, hk]⟩

/-- The store code of a client. -/
def storeCode : SocketMessage := ⟨101, 46, List.replicate 36 0, [48, 49]⟩

/-- Its heartbeat. -/
def heartbeat : SocketMessage := ⟨104, 45, List.replicate 36 0, [104]⟩

theorem storeCode_heartbeat_wellFormed : ∀ m ∈ [storeCode, heartbeat], m.WellFormed := by
  simp only [List.mem_cons, List.not_mem_nil, or_false]
  rintro m (rfl | rfl)
  · exact ⟨by decide, by decide, by decide, by decide, by simp [storeCode]⟩
  · exact ⟨by decide, by decide, by decide, by decide, by simp [heartbeat]⟩

set_option maxRecDepth 2000 in
/-- Three chunks, cut inside the first header and inside the second trailer. -/
def pieces : List Chunk :=
  [⟨(wire storeCode).take 20, by decide⟩, ⟨(wire storeCode).drop 20 ++ (wire heartbeat).take 48, by decide⟩,
    ⟨(wire heartbeat).drop 48, by decide⟩]

theorem pieces_bytes : pieces.flatMap Chunk.bytes = [storeCode, heartbeat].flatMap wire := by
  simp only [pieces, List.flatMap_cons, List.flatMap_nil, List.append_nil]
  rw [List.append_assoc, List.take_append_drop, ← List.append_assoc, List.take_append_drop]

theorem clientReceives_pieces :
    clientReceives (pieces.map .chunk) = some ([storeCode, heartbeat], .waits) := by
  obtain ⟨stream, hs, h⟩ := handlers_eq_sent storeCode_heartbeat_wellFormed
  rw [sendMessages_wire storeCode_heartbeat_wellFormed] at hs
  exact h pieces (pieces_bytes.trans (Except.ok.inj hs))

set_option maxRecDepth 2000 in
/-- A time-out between the two messages. -/
theorem serverReceives_timeout_between :
    serverReceives [.chunk ⟨wire storeCode, by decide⟩, .timeout, .chunk ⟨wire heartbeat, by decide⟩] =
      some ([storeCode, heartbeat], .waits) := by
  refine (serverReceives_iff storeCode_heartbeat_wellFormed rfl).mpr fun before behind h => ?_
  refine ⟨1, ?_⟩
  match before, h with
  | [_], h =>
    obtain ⟨rfl, -⟩ := List.cons.inj h
    rfl
  | _ :: _ :: _ :: _, h => simp at h

set_option maxRecDepth 4000 in
/-- A time-out after twenty bytes of the store code: the client's message is never received. -/
theorem serverReceives_timeout_inside :
    ¬ ∀ (ms : List SocketMessage) (arrivals : List Arrival), (∀ m ∈ ms, m.WellFormed) →
      Arrival.closed ∉ arrivals → arrivals.flatMap Arrival.bytes = ms.flatMap wire →
        (serverReceives arrivals).map Prod.fst = some ms := by
  intro h
  have hbad := h [storeCode] [.chunk ⟨(wire storeCode).take 20, by decide⟩, .timeout,
    .chunk ⟨(wire storeCode).drop 20, by decide⟩]
    (fun m hm => storeCode_heartbeat_wellFormed m (by simp_all)) (by simp) (by decide)
  revert hbad
  decide

end DataSync.Net.Fragmentation
