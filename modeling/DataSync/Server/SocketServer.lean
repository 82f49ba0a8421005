import DataSync.Lib.Words

/-! # The server's registry and the dispatch of messages

`SocketServer`: the clients that are connected, each under the store code it has registered with, and
the list `m_disconnect_store` of the stores whose client was dropped. `dispatchMessage` sends a message
to the clients of the stores it is addressed to and pushes it to the exception queue for those that are
on the list; `dispatchOneMessage` pushes it when no client matches. The result of a send is ignored.

`run_inv`: a registry that its operations lead to holds every store code at most once, as a client
or on the list. `delivered_iff`: in any registry an addressed store gets the message exactly once if and only
if the sends and pushes for it count one. Where the registry holds the code at most once, that is: it has a
client whose send succeeds or is on the list; a store that never connected and a send that fails are the two
ways to lose one. -/

namespace DataSync.Server.SocketServer

open DataSync.Lib.Words

/-- `HandlerClientSocket`: its socket and `m_client_id`, empty until the client has registered. -/
structure HandlerClientSocket where
  socket : ℕ
  clientId : Bytes
  deriving DecidableEq, Repr

/-- `m_clients` and `m_disconnect_store`. -/
structure Registry where
  clients : List HandlerClientSocket
  disconnectStore : List Bytes
  deriving DecidableEq, Repr

/-- `cmpClientId`, a `strcmp`. -/
def cmpClientId (storeCode : Bytes) (h : HandlerClientSocket) : Bool :=
  cStr storeCode == cStr h.clientId

/-! ### Operations on the registry -/

/-- What changes the registry. -/
inductive Op where
  /-- `addClient` for an accepted connection. -/
  | accept (socket : ℕ)
  /-- `handlerMessage` of the client at `i` for a `MSG_TYPE_STORECODE` message. -/
  | storeCode (i : ℕ) (text : Bytes)
  /-- The round of `sendHeartbeat` for the client at `i`, which is found alive or dead. -/
  | heartbeat (i : ℕ) (alive : Bool)
  deriving DecidableEq, Repr

/-- `checkClientsIdExist`. -/
def checkClientsIdExist (r : Registry) (id : Bytes) : Bool := r.clients.any (·.clientId == id)

/-- `removeDisconnectStore`: the first entry goes. -/
def removeDisconnectStore (r : Registry) (storeId : Bytes) : Registry :=
  { r with disconnectStore := r.disconnectStore.erase storeId }

/-- `removeClient` and the `erase` behind it. -/
def removeClient (r : Registry) (i : ℕ) (storeId : Bytes) : Registry :=
  { clients := r.clients.eraseIdx i
    disconnectStore :=
      if storeId ≠ [] then r.disconnectStore ++ [storeId] else r.disconnectStore }

/-- One operation. -/
def apply (r : Registry) : Op → Registry
  | .accept socket => { r with clients := r.clients ++ [⟨socket, []⟩] }
  | .storeCode i text =>
    let strMessage := cStr text
    match r.clients[i]? with
    | none => r
    | some h =>
      if strMessage = [] ∨ checkClientsIdExist r strMessage then r
      else removeDisconnectStore
        { r with clients := r.clients.set i { h with clientId := strMessage } } strMessage
  | .heartbeat i alive =>
    match r.clients[i]? with
    | none => r
    | some h => if alive then removeDisconnectStore r h.clientId else removeClient r i h.clientId

/-- The registry behind a run of operations. -/
def run (ops : List Op) : Registry := ops.foldl apply ⟨[], []⟩

/-! ### Dispatch -/

/-- What a dispatch does: a send with its result, or a push to the exception queue. -/
inductive Effect where
  | sent (client : HandlerClientSocket) (ok : Bool)
  | pushed (storeCode : Bytes)
  deriving DecidableEq, Repr

/-- The loop of `splitStrToVector` from a token's first character on. -/
def splitTokens : ℕ → Bytes → List Bytes
  | 0, _ => []
  | _ + 1, [] => []
  | fuel + 1, str =>
    let token := str.takeWhile fun b => b ≠ 44 ∧ b ≠ 0
    token :: splitTokens fuel (str.drop (token.length + 1))

/-- `splitStrToVector`: leading blanks are skipped, commas and NULs end a token. -/
def splitStrToVector (str : Bytes) : List Bytes :=
  splitTokens str.length (str.dropWhile (· = 32))

section Dispatch
variable (sendOk : HandlerClientSocket → Bool) (r : Registry)

/-- The loop that sends to the first client of a store. -/
def sendFirst (storeCode : Bytes) : List Effect :=
  match r.clients.find? (cmpClientId storeCode) with
  | some h => [.sent h (sendOk h)]
  | none => []

/-- `dispatchMessage`. -/
def dispatchMessage (type : String) (storeCode : Bytes) : List Effect :=
  if type = "1" then
    sendFirst sendOk r storeCode ++
      (if storeCode ∈ r.disconnectStore then [.pushed storeCode] else [])
  else if type = "2" then
    let vStore := splitStrToVector storeCode
    (r.clients.filter (·.clientId ∈ vStore)).map (fun h => .sent h (sendOk h)) ++
      (r.disconnectStore.filter (· ∈ vStore)).map .pushed
  else if type = "3" then
    r.clients.map (fun h => .sent h (sendOk h)) ++ r.disconnectStore.map .pushed
  else []

/-- The loops of `dispatchMessage` over the clients. -/
def sendClients (type : String) (storeCode : Bytes) : List Effect :=
  if type = "1" then sendFirst sendOk r storeCode
  else if type = "2" then
    (r.clients.filter (·.clientId ∈ splitStrToVector storeCode)).map fun h => .sent h (sendOk h)
  else if type = "3" then r.clients.map fun h => .sent h (sendOk h)
  else []

/-- `dealDisconnectStoreData`, behind them. -/
def dealDisconnectStoreData (type : String) (storeCode : Bytes) : List Effect :=
  if type = "1" then if storeCode ∈ r.disconnectStore then [.pushed storeCode] else []
  else if type = "2" then (r.disconnectStore.filter (· ∈ splitStrToVector storeCode)).map .pushed
  else if type = "3" then r.disconnectStore.map .pushed
  else []

theorem dispatchMessage_eq (type : String) (storeCode : Bytes) :
    dispatchMessage sendOk r type storeCode =
      sendClients sendOk r type storeCode ++ dealDisconnectStoreData r type storeCode := by
  unfold dispatchMessage sendClients dealDisconnectStoreData
  split_ifs <;> rfl

/-- `dispatchOneMessage`. -/
def dispatchOneMessage (type : String) (storeCode : Bytes) : List Effect :=
  if type = "1" then
    sendFirst sendOk r storeCode ++
      (if r.clients.find? (cmpClientId storeCode) = none then [.pushed storeCode] else [])
  else []

end Dispatch

/-! ### Delivery -/

/-- The dispatches whose messages must not get lost. -/
inductive Dispatch where
  /-- `dispatchMessage` of type 1. -/
  | single (storeCode : Bytes)
  /-- `dispatchMessage` of type 2. -/
  | several (storeCode : Bytes)
  /-- `dispatchOneMessage` of type 1. -/
  | exception (storeCode : Bytes)
  deriving DecidableEq, Repr

/-- The store codes a message is addressed to. -/
def Dispatch.addressees : Dispatch → List Bytes
  | .single storeCode | .exception storeCode => [storeCode]
  | .several storeCode => splitStrToVector storeCode

/-- What the dispatch does. -/
def Dispatch.effects (sendOk : HandlerClientSocket → Bool) (r : Registry) : Dispatch → List Effect
  | .single storeCode => dispatchMessage sendOk r "1" storeCode
  | .several storeCode => dispatchMessage sendOk r "2" storeCode
  | .exception storeCode => dispatchOneMessage sendOk r "1" storeCode

/-- The effect is a successful send to a client registered under `c`. -/
def sentTo (c : Bytes) : Effect → Bool
  | .sent h ok => ok && h.clientId == c
  | .pushed _ => false

/-- Store `c` gets the message exactly once: by one successful send or by one push. -/
def DeliveredOnce (effects : List Effect) (c : Bytes) : Prop :=
  (effects.countP (sentTo c) = 1 ∧ effects.count (.pushed c) = 0) ∨
    (effects.countP (sentTo c) = 0 ∧ effects.count (.pushed c) = 1)

instance (effects : List Effect) (c : Bytes) : Decidable (DeliveredOnce effects c) :=
  inferInstanceAs (Decidable (_ ∨ _))

theorem deliveredOnce_iff_add {effects : List Effect} {c : Bytes} : DeliveredOnce effects c ↔
    effects.countP (sentTo c) + effects.count (.pushed c) = 1 := by
  unfold DeliveredOnce
  omega

/-- The first client that `cmpClientId` finds is registered under `c` and takes the message. -/
def firstTakes (sendOk : HandlerClientSocket → Bool) (r : Registry) (c : Bytes) : Bool :=
  (r.clients.find? (cmpClientId c)).any fun h => sendOk h && h.clientId == c

/-- When store `c` gets the message exactly once, for any registry. -/
def Dispatch.Counts (sendOk : HandlerClientSocket → Bool) (r : Registry) (c : Bytes) :
    Dispatch → Prop
  | .single _ => firstTakes sendOk r c = true ↔ c ∉ r.disconnectStore
  | .several _ => (r.clients.countP fun h => sendOk h && h.clientId == c) +
      r.disconnectStore.count c = 1
  | .exception _ => r.clients.find? (cmpClientId c) = none ∨ firstTakes sendOk r c = true

theorem countP_sendFirst (sendOk : HandlerClientSocket → Bool) (r : Registry) (c : Bytes) :
    (sendFirst sendOk r c).countP (sentTo c) = if firstTakes sendOk r c then 1 else 0 := by
  unfold sendFirst firstTakes
  cases r.clients.find? (cmpClientId c) with
  | none => simp
  | some h => cases hs : (sendOk h && h.clientId == c) <;> simp_all [sentTo]

theorem count_pushed_sendFirst (sendOk : HandlerClientSocket → Bool) (r : Registry) (c d : Bytes) :
    (sendFirst sendOk r c).count (.pushed d) = 0 := by
  unfold sendFirst
  cases r.clients.find? (cmpClientId c) <;> simp

/-- The effects on store `c`, counted. -/
theorem deliveredOnce_iff_counts (sendOk : HandlerClientSocket → Bool) (r : Registry) {d : Dispatch}
    {c : Bytes} (hc : c ∈ d.addressees) :
    DeliveredOnce (d.effects sendOk r) c ↔ d.Counts sendOk r c := by
  rw [deliveredOnce_iff_add]
  cases d with
  | single storeCode =>
    obtain rfl : c = storeCode := by simpa [Dispatch.addressees] using hc
    simp only [Dispatch.effects, dispatchMessage, if_true, List.countP_append, List.count_append,
      countP_sendFirst, count_pushed_sendFirst, Dispatch.Counts]
    by_cases hD : c ∈ r.disconnectStore <;> cases hf : firstTakes sendOk r c <;>
      simp [hD, sentTo]
  | several storeCode =>
    have hmem : c ∈ splitStrToVector storeCode := hc
    have hsent : ((r.clients.filter (·.clientId ∈ splitStrToVector storeCode)).map
        fun h => Effect.sent h (sendOk h)).countP (sentTo c) =
        r.clients.countP fun h => sendOk h && h.clientId == c := by
      rw [List.countP_map, List.countP_filter]
      refine List.countP_congr fun h _ => ?_
      by_cases hid : h.clientId = c
      · simp [sentTo, hid, hmem]
      · simp [sentTo, hid]
    have hpushed : ((r.disconnectStore.filter (· ∈ splitStrToVector storeCode)).map
        Effect.pushed).count (.pushed c) = r.disconnectStore.count c := by
      rw [List.count_map_of_injective _ _ (fun a b h => by simpa using h),
        List.count_filter (by simpa using hmem)]
    have hnone : ((r.clients.filter (·.clientId ∈ splitStrToVector storeCode)).map
        fun h => Effect.sent h (sendOk h)).count (.pushed c) = 0 := by
      rw [List.count_eq_zero]
      simp
    have hzero : ((r.disconnectStore.filter (· ∈ splitStrToVector storeCode)).map
        Effect.pushed).countP (sentTo c) = 0 := by
      rw [List.countP_eq_zero]
      intro e he
      obtain ⟨x, -, rfl⟩ := List.mem_map.mp he
      simp [sentTo]
    have htype : ("2" : String) ≠ "1" := by decide
    simp only [Dispatch.effects, dispatchMessage, if_neg htype, if_true, List.countP_append,
      List.count_append, hsent, hpushed, hnone, hzero, Dispatch.Counts, Nat.add_zero, Nat.zero_add]
  | exception storeCode =>
    obtain rfl : c = storeCode := by simpa [Dispatch.addressees] using hc
    simp only [Dispatch.effects, dispatchOneMessage, if_true, List.countP_append, List.count_append,
      countP_sendFirst, count_pushed_sendFirst, Dispatch.Counts]
    cases hfind : r.clients.find? (cmpClientId c) with
    | none => simp [firstTakes, hfind, sentTo]
    | some h => cases hf : firstTakes sendOk r c <;> simp

/-! ### Reachable registries -/

/-- How often a store code occurs in the registry. -/
def occurrences (r : Registry) (c : Bytes) : ℕ :=
  r.clients.countP (·.clientId == c) + r.disconnectStore.count c

/-- Client ids are C strings. -/
def CStringIds (r : Registry) : Prop := ∀ h ∈ r.clients, ∀ b ∈ h.clientId, b ≠ 0

/-- Every store code occurs at most once, and client ids are C strings. -/
structure Inv (r : Registry) : Prop where
  once : ∀ c, c ≠ [] → occurrences r c ≤ 1
  noNul : CStringIds r

theorem mem_cStr_ne_zero {bs : Bytes} {b : UInt8} (h : b ∈ cStr bs) : b ≠ 0 := by
  simpa using List.mem_takeWhile_imp h

theorem cStringIds_accept {r : Registry} (h : CStringIds r) (socket : ℕ) :
    CStringIds (apply r (.accept socket)) := by
  intro g hg
  rcases List.mem_append.mp hg with hg | hg
  · exact h g hg
  · obtain rfl : g = ⟨socket, []⟩ := by simpa using hg
    simp

theorem cStringIds_set {r : Registry} (h : CStringIds r) (i : ℕ) {g : HandlerClientSocket}
    (hg : ∀ b ∈ g.clientId, b ≠ 0) (c : Bytes) :
    CStringIds (removeDisconnectStore { r with clients := r.clients.set i g } c) := by
  intro k hk
  rcases List.mem_or_eq_of_mem_set hk with hk | rfl
  · exact h k hk
  · exact hg

theorem cStringIds_heartbeat {r : Registry} (h : CStringIds r) (i : ℕ) (alive : Bool) :
    CStringIds (apply r (.heartbeat i alive)) := by
  rcases hi : r.clients[i]? with _ | g
  · simpa only [apply, hi] using h
  · simp only [apply, hi]
    split_ifs
    · exact h
    · exact fun k hk => h k (List.mem_of_mem_eraseIdx hk)

theorem inv_accept {r : Registry} (h : Inv r) (socket : ℕ) : Inv (apply r (.accept socket)) := by
  refine ⟨fun c hc => ?_, cStringIds_accept h.noNul socket⟩
  have hone := h.once c hc
  have hnil : (([] : Bytes) == c) = false := by simpa using Ne.symm hc
  simpa [apply, occurrences, List.countP_append, hnil] using hone

theorem inv_removeDisconnectStore {r : Registry} (h : Inv r) (c : Bytes) :
    Inv (removeDisconnectStore r c) := by
  refine ⟨fun d hd => ?_, h.noNul⟩
  have hone := h.once d hd
  have hle : (r.disconnectStore.erase c).count d ≤ r.disconnectStore.count d :=
    List.Sublist.count_le d List.erase_sublist
  unfold occurrences removeDisconnectStore at *
  simp only
  omega

theorem inv_removeClient {r : Registry} (h : Inv r) {i : ℕ} {g : HandlerClientSocket}
    (hi : r.clients[i]? = some g) : Inv (removeClient r i g.clientId) := by
  obtain ⟨hlt, rfl⟩ := List.getElem?_eq_some_iff.mp hi
  have hperm := List.getElem_cons_eraseIdx_perm hlt
  refine ⟨fun c hc => ?_, fun k hk => h.noNul k (List.mem_of_mem_eraseIdx hk)⟩
  have hone := h.once c hc
  have hcount := hperm.countP_eq (·.clientId == c)
  rw [List.countP_cons] at hcount
  unfold occurrences removeClient at *
  simp only
  -- what the clients lose, the list gains
  by_cases hid : r.clients[i].clientId = c
  · have hne : r.clients[i].clientId ≠ [] := hid ▸ hc
    simp only [hid, beq_self_eq_true, if_true] at hcount
    rw [if_pos hne, hid, List.count_append, List.count_singleton_self]
    omega
  · have hbeq : (r.clients[i].clientId == c) = false := by simpa using hid
    simp only [hbeq, Bool.false_eq_true, if_false] at hcount
    split_ifs
    · rw [List.count_append, List.count_singleton, hbeq]
      simp only [Bool.false_eq_true, if_false]
      omega
    · omega

theorem inv_storeCode {r : Registry} (h : Inv r) {i : ℕ} {g : HandlerClientSocket} {text : Bytes}
    (hi : r.clients[i]? = some g) (hnew : checkClientsIdExist r (cStr text) = false) :
    Inv (removeDisconnectStore
      { r with clients := r.clients.set i { g with clientId := cStr text } } (cStr text)) := by
  obtain ⟨hlt, rfl⟩ := List.getElem?_eq_some_iff.mp hi
  refine ⟨fun c hc => ?_, cStringIds_set h.noNul i (fun b hb => mem_cStr_ne_zero hb) _⟩
  have hone := h.once c hc
  have hset := List.countP_set (p := fun k : HandlerClientSocket => k.clientId == c)
    (a := { r.clients[i] with clientId := cStr text }) hlt
  unfold occurrences removeDisconnectStore at *
  simp only at *
  by_cases hcode : cStr text = c
  · -- the new code had no client before, and goes off the list
    have hzero : r.clients.countP (·.clientId == c) = 0 := by
      rw [List.countP_eq_zero]
      intro k hk
      have := (List.any_eq_false.mp hnew) k hk
      rwa [hcode] at this
    rw [hset, hcode, List.count_erase_self, hzero]
    simp
    omega
  · have hbeq : (cStr text == c) = false := by simpa using hcode
    rw [hset, List.count_erase_of_ne (Ne.symm hcode), hbeq]
    simp only [Bool.false_eq_true, if_false, Nat.add_zero]
    omega

theorem apply_inv {r : Registry} (h : Inv r) (op : Op) : Inv (apply r op) := by
  cases op with
  | accept socket => exact inv_accept h socket
  | storeCode i text =>
    cases hi : r.clients[i]? with
    | none => simpa only [apply, hi] using h
    | some g =>
      simp only [apply, hi]
      split_ifs with hc
      · exact h
      · rw [not_or] at hc
        exact inv_storeCode h hi (by simpa using hc.2)
  | heartbeat i alive =>
    cases hi : r.clients[i]? with
    | none => simpa only [apply, hi] using h
    | some g =>
      simp only [apply, hi]
      split_ifs
      · exact inv_removeDisconnectStore h g.clientId
      · exact inv_removeClient h hi

/-- **Every registry its operations lead to** holds every store code at most once. -/
theorem run_inv (ops : List Op) : Inv (run ops) := by
  have hstart : Inv ⟨[], []⟩ := ⟨fun c _ => by simp [occurrences], by simp [CStringIds]⟩
  have h : ∀ (ops : List Op) (r : Registry), Inv r → Inv (ops.foldl apply r) := by
    intro ops
    induction ops with
    | nil => exact fun r hr => hr
    | cons op ops ih => exact fun r hr => ih (apply r op) (apply_inv hr op)
  exact h ops _ hstart

/-- When store `c` gets the message exactly once, for a registry that holds `c` at most once. -/
def Dispatch.Reaches (sendOk : HandlerClientSocket → Bool) (r : Registry) (c : Bytes) :
    Dispatch → Prop
  | .single _ | .several _ =>
    (∃ h ∈ r.clients, h.clientId = c ∧ sendOk h = true) ∨ c ∈ r.disconnectStore
  | .exception _ => ∀ h ∈ r.clients, h.clientId = c → sendOk h = true

section Unique
variable {r : Registry} {c : Bytes}

theorem cmpClientId_iff (hids : CStringIds r) (hnul : ∀ b ∈ c, b ≠ 0) {h : HandlerClientSocket}
    (hh : h ∈ r.clients) : cmpClientId c h = true ↔ h.clientId = c := by
  unfold cmpClientId
  rw [cStr_of_no_nul hnul, cStr_of_no_nul (hids h hh)]
  simp only [beq_iff_eq]
  exact eq_comm

variable (hone : occurrences r c ≤ 1)
include hone

theorem client_unique {g h : HandlerClientSocket} (hg : g ∈ r.clients) (hh : h ∈ r.clients)
    (hgc : g.clientId = c) (hhc : h.clientId = c) : g = h := by
  have hlen : (r.clients.filter (·.clientId == c)).length ≤ 1 := by
    rw [← List.countP_eq_length_filter]
    unfold occurrences at hone
    omega
  have hg' : g ∈ r.clients.filter (·.clientId == c) := by simp [hg, hgc]
  have hh' : h ∈ r.clients.filter (·.clientId == c) := by simp [hh, hhc]
  match hf : r.clients.filter (·.clientId == c) with
  | [] => simp [hf] at hg'
  | [x] =>
    rw [hf] at hg' hh'
    rw [List.mem_singleton.mp hg', List.mem_singleton.mp hh']
  | _ :: _ :: _ => simp [hf] at hlen

theorem not_mem_disconnectStore {h : HandlerClientSocket} (hh : h ∈ r.clients)
    (hhc : h.clientId = c) : c ∉ r.disconnectStore := by
  intro hmem
  have h1 : 0 < r.clients.countP (·.clientId == c) := List.countP_pos_iff.mpr ⟨h, hh, by simp [hhc]⟩
  have h2 : 0 < r.disconnectStore.count c := List.count_pos_iff.mpr hmem
  unfold occurrences at hone
  omega

variable (hids : CStringIds r) (hnul : ∀ b ∈ c, b ≠ 0)
include hids hnul

theorem firstTakes_iff (sendOk : HandlerClientSocket → Bool) : firstTakes sendOk r c = true ↔
    ∃ h ∈ r.clients, h.clientId = c ∧ sendOk h = true := by
  unfold firstTakes
  cases hfind : r.clients.find? (cmpClientId c) with
  | none =>
    have hnone := List.find?_eq_none.mp hfind
    simp only [Option.any_none, Bool.false_eq_true, false_iff, not_exists, not_and]
    intro h hh hhc
    exact absurd ((cmpClientId_iff hids hnul hh).mpr hhc) (hnone h hh)
  | some g =>
    have hg := List.mem_of_find?_eq_some hfind
    have hgc := (cmpClientId_iff hids hnul hg).mp (List.find?_some hfind)
    simp only [Option.any_some, hgc, beq_self_eq_true, Bool.and_true]
    constructor
    · exact fun hs => ⟨g, hg, hgc, hs⟩
    · rintro ⟨h, hh, hhc, hs⟩
      rwa [client_unique hone hg hh hgc hhc]

/-- Where the code occurs at most once, the counts come down to membership. -/
theorem counts_iff_reaches (sendOk : HandlerClientSocket → Bool) (d : Dispatch) :
    d.Counts sendOk r c ↔ d.Reaches sendOk r c := by
  have hfirst := firstTakes_iff hone hids hnul sendOk
  have hdisj : (∃ h ∈ r.clients, h.clientId = c ∧ sendOk h = true) → c ∉ r.disconnectStore :=
    fun ⟨h, hh, hhc, _⟩ => not_mem_disconnectStore hone hh hhc
  cases d with
  | single storeCode =>
    simp only [Dispatch.Counts, Dispatch.Reaches, hfirst]
    by_cases hex : ∃ h ∈ r.clients, h.clientId = c ∧ sendOk h = true
    · simp only [hex, hdisj hex, not_false_eq_true, or_false]
    · simp only [hex, false_iff, not_not, false_or]
  | several storeCode =>
    unfold occurrences at hone
    have hle : (r.clients.countP fun h => sendOk h && h.clientId == c) ≤
        r.clients.countP (·.clientId == c) := by
      refine List.countP_mono_left fun h _ hs => ?_
      simp only [Bool.and_eq_true] at hs
      exact hs.2
    have hpos : 0 < (r.clients.countP fun h => sendOk h && h.clientId == c) ↔
        ∃ h ∈ r.clients, h.clientId = c ∧ sendOk h = true := by
      rw [List.countP_pos_iff]
      simp only [Bool.and_eq_true, beq_iff_eq, and_comm]
    have hmem : 0 < r.disconnectStore.count c ↔ c ∈ r.disconnectStore := List.count_pos_iff
    simp only [Dispatch.Counts, Dispatch.Reaches, ← hpos, ← hmem]
    omega
  | exception storeCode =>
    simp only [Dispatch.Counts, Dispatch.Reaches, hfirst, List.find?_eq_none]
    constructor
    · rintro (hnone | ⟨g, hg, hgc, hs⟩) h hh hhc
      · exact absurd ((cmpClientId_iff hids hnul hh).mpr hhc) (hnone h hh)
      · rwa [← client_unique hone hg hh hgc hhc]
    · intro hall
      by_cases hex : ∃ h ∈ r.clients, h.clientId = c
      · obtain ⟨h, hh, hhc⟩ := hex
        exact Or.inr ⟨h, hh, hhc, hall h hh hhc⟩
      · refine Or.inl fun h hh hcmp => hex ⟨h, hh, ?_⟩
        exact (cmpClientId_iff hids hnul hh).mp hcmp

end Unique

/-- **Delivered once, exactly when.** In any registry an addressed store gets the message exactly once if
and only if the sends and pushes for it count one. Where the registry holds its code at most once, that is
if and only if it has a client whose send succeeds or is on the list of disconnected stores
(`dispatchMessage`), or has no client whose send fails (`dispatchOneMessage`). -/
theorem delivered_iff (sendOk : HandlerClientSocket → Bool) (d : Dispatch) (c : Bytes)
    (hc : c ∈ d.addressees) (r : Registry) :
    (DeliveredOnce (d.effects sendOk r) c ↔ d.Counts sendOk r c) ∧
    (CStringIds r → (∀ b ∈ c, b ≠ 0) → occurrences r c ≤ 1 →
      (DeliveredOnce (d.effects sendOk r) c ↔ d.Reaches sendOk r c)) := by
  refine ⟨deliveredOnce_iff_counts sendOk r hc, fun hids hnul hone => ?_⟩
  rw [deliveredOnce_iff_counts sendOk r hc]
  exact counts_iff_reaches hone hids hnul sendOk d

/-- A store with a client: accepted, registered, and the send succeeds. -/
theorem delivered_iff_registered :
    DeliveredOnce (Dispatch.effects (fun _ => true)
      (run [.accept 7, .storeCode 0 [83, 49]]) (.single [83, 49])) [83, 49] :=
  ((delivered_iff (fun _ => true) (.single [83, 49]) [83, 49] (by decide)
    (run [.accept 7, .storeCode 0 [83, 49]])).2 (run_inv _).noNul (by simp) (by decide)).mpr
      (Or.inl (by decide))

/-- Two clients of one code, as overlapping registrations leave them, both get a message of a list. -/
example : ¬ DeliveredOnce (Dispatch.effects (fun _ => true)
    ⟨[⟨5, [83, 49]⟩, ⟨6, [83, 49]⟩], []⟩ (.several [83, 49])) [83, 49] := by decide

/-- A message to a store that never connected is neither sent nor pushed. -/
theorem never_connected_lost :
    ¬ DeliveredOnce (Dispatch.effects (fun _ => true) (run []) (.single [83, 49])) [83, 49] := by
  decide

end DataSync.Server.SocketServer
