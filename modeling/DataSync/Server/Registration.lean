import DataSync.Lib.Runs
import DataSync.Server.SocketServer

/-! # Registering a store code, step by step

`handlerMessage` looks for the store code among the clients under the lock of `checkClientsIdExist` and
assigns `m_client_id` after the lock is gone, so that the steps of other threads can come in between.
`check_assign` says that without such steps a registration is the single operation of `SocketServer`;
`unique_store_codes` that the codes stay unique in a run in which no code is looked for while another
handler is about to take it, and no client is dropped while its handler is about to assign. In such a run
the registry keeps the whole invariant of `SocketServer` (`registry_inv`); in every run its ids are
C strings (`cStringIds`). -/

namespace DataSync.Server.Registration

open DataSync.Lib.Words DataSync.Lib.Memory DataSync.Lib.Runs DataSync.Server.SocketServer

/-- The registry and the handler threads, named by their sockets, that have found their store code free
and not yet assigned it. -/
structure ServerState where
  registry : Registry
  checked : List (ℕ × Bytes)
  deriving DecidableEq, Repr

/-- The server at its start. -/
def ServerState.initial : ServerState := ⟨⟨[], []⟩, []⟩

/-- The steps of the threads. -/
inductive Move where
  /-- `addClient` for an accepted connection. -/
  | accept (socket : ℕ)
  /-- `handlerMessage` on a store code, up to the return of `checkClientsIdExist`. -/
  | check (socket : ℕ) (text : Bytes)
  /-- `handlerMessage` behind it. -/
  | assign (socket : ℕ)
  /-- The round of `sendHeartbeat` for the client at `i`, which is found alive or dead. -/
  | heartbeat (i : ℕ) (alive : Bool)
  deriving DecidableEq, Repr

/-- One step. A step that no thread is ready for changes nothing; assigning to a client that has been
deleted meanwhile is a fault. -/
def step (s : ServerState) : Move → Res ServerState
  | .accept socket =>
    if s.registry.clients.any (·.socket == socket) then .ok s
    else .ok { s with registry := apply s.registry (.accept socket) }
  | .check socket text =>
    let strMessage := cStr text
    if s.registry.clients.any (·.socket == socket) ∧ s.checked.all (·.1 != socket) ∧
        strMessage ≠ [] ∧ checkClientsIdExist s.registry strMessage = false then
      .ok { s with checked := s.checked ++ [(socket, strMessage)] }
    else .ok s
  | .assign socket =>
    match s.checked.find? (·.1 == socket) with
    | none => .ok s
    | some x =>
      match s.registry.clients.findIdx? (·.socket == socket) with
      | none => .error .fault
      | some i => .ok
        { registry := removeDisconnectStore
            { s.registry with clients := s.registry.clients.set i ⟨socket, x.2⟩ } x.2
          checked := s.checked.erase x }
  | .heartbeat i alive => .ok { s with registry := apply s.registry (.heartbeat i alive) }

/-- No two clients have the same store code. -/
def UniqueCodes (s : ServerState) : Prop :=
  ((s.registry.clients.map (·.clientId)).filter (· ≠ [])).Nodup

instance : DecidablePred UniqueCodes := fun s =>
  inferInstanceAs (Decidable ((s.registry.clients.map (·.clientId)).filter (· ≠ [])).Nodup)

/-- The step looks for a code that another handler is about to assign, or drops a client whose handler
is about to assign. -/
def Overlaps (s : ServerState) : Move → Prop
  | .check _ text => cStr text ∈ s.checked.map Prod.snd
  | .heartbeat i false => ∃ h ∈ s.registry.clients[i]?, h.socket ∈ s.checked.map Prod.fst
  | _ => False

instance (s : ServerState) : (m : Move) → Decidable (Overlaps s m)
  | .accept _ | .assign _ | .heartbeat _ true => inferInstanceAs (Decidable False)
  | .check _ text => decidable_of_iff ((s.checked.map Prod.snd).contains (cStr text)) List.contains_iff_mem
  | .heartbeat i false =>
    inferInstanceAs (Decidable (∃ h ∈ s.registry.clients[i]?, h.socket ∈ s.checked.map Prod.fst))

/-! ### A registration in one piece -/

/-- **Undisturbed, the two steps are the one operation of the registry.** -/
theorem check_assign {r : Registry} {i : ℕ} {g : HandlerClientSocket} (hi : r.clients[i]? = some g)
    (hfirst : r.clients.findIdx? (·.socket == g.socket) = some i) (text : Bytes) :
    [Move.check g.socket text, .assign g.socket].foldlM step ⟨r, []⟩ =
      .ok ⟨apply r (.storeCode i text), []⟩ := by
  have hany : r.clients.any (·.socket == g.socket) = true :=
    List.any_eq_true.mpr ⟨g, List.mem_of_getElem? hi, by simp⟩
  simp only [List.foldlM_cons, List.foldlM_nil, step, apply, hi]
  by_cases hfree : cStr text ≠ [] ∧ checkClientsIdExist r (cStr text) = false
  · have hrefused : ¬ (cStr text = [] ∨ checkClientsIdExist r (cStr text) = true) := by
      rw [not_or, Bool.not_eq_true]
      exact hfree
    rw [if_pos ⟨hany, rfl, hfree⟩, if_neg hrefused, Res.ok_bind]
    simp [hfirst]
  · have hrefused : cStr text = [] ∨ checkClientsIdExist r (cStr text) = true := by
      rw [not_and_or, not_not, Bool.not_eq_false] at hfree
      exact hfree
    rw [if_neg fun h => hfree h.2.2, if_pos hrefused, Res.ok_bind]
    rfl

/-! ### Overlapping registrations -/

/-- How often a code is in use or about to be. -/
def uses (s : ServerState) (c : Bytes) : ℕ :=
  s.registry.clients.countP (·.clientId == c) + (s.checked.map Prod.snd).count c

/-- The client ids, those about to be assigned too, are C strings, and so are the codes on the list, of
which none is empty. -/
structure Ids (s : ServerState) : Prop where
  clients : CStringIds s.registry
  checked : ∀ x ∈ s.checked, ∀ b ∈ x.2, b ≠ 0
  list : ∀ c ∈ s.registry.disconnectStore, c ≠ [] ∧ ∀ b ∈ c, b ≠ 0

/-- Every code is in use or about to be at most once, and whoever is about to assign is connected; the
registry is as single registrations keep it. -/
structure Inv (s : ServerState) : Prop where
  once : ∀ c, c ≠ [] → uses s c ≤ 1
  connected : ∀ x ∈ s.checked, ∃ h ∈ s.registry.clients, h.socket = x.1
  registry : SocketServer.Inv s.registry
  checked : ∀ x ∈ s.checked, x.2 ≠ [] ∧ ∀ b ∈ x.2, b ≠ 0

theorem uniqueCodes_of_inv {s : ServerState} (h : Inv s) : UniqueCodes s := by
  refine List.nodup_iff_count_le_one.mpr fun c => ?_
  by_cases hc : c = []
  · have hnot : c ∉ (s.registry.clients.map (·.clientId)).filter (· ≠ []) := by simp [hc]
    rw [List.count_eq_zero_of_not_mem hnot]
    exact Nat.zero_le 1
  · have hone := h.once c hc
    have hcount : (s.registry.clients.map (·.clientId)).count c =
        s.registry.clients.countP (·.clientId == c) := by
      rw [List.count, List.countP_map]
      rfl
    rw [List.count_filter (by simpa using hc), hcount]
    unfold uses at hone
    omega

theorem inv_check {s : ServerState} (h : Inv s) {socket : ℕ} {c : Bytes}
    (hthread : s.registry.clients.any (·.socket == socket) = true) (hc : c ≠ [] ∧ ∀ b ∈ c, b ≠ 0)
    (hfree : checkClientsIdExist s.registry c = false) (hnew : c ∉ s.checked.map Prod.snd) :
    Inv { s with checked := s.checked ++ [(socket, c)] } := by
  refine ⟨fun d hd => ?_, fun x hx => ?_, h.registry, fun x hx => ?_⟩
  · have hone := h.once d hd
    unfold uses at hone ⊢
    simp only [List.map_append, List.map_cons, List.map_nil, List.count_append]
    by_cases hcd : c = d
    · subst hcd
      have hzero : s.registry.clients.countP (·.clientId == c) = 0 := by
        rw [List.countP_eq_zero]
        exact List.any_eq_false.mp hfree
      rw [hzero, List.count_eq_zero_of_not_mem hnew, List.count_singleton_self]
    · have hbeq : (c == d) = false := by simpa using hcd
      rw [List.count_singleton, hbeq]
      simpa using hone
  · rcases List.mem_append.mp hx with hx | hx
    · exact h.connected x hx
    · obtain ⟨g, hg, hsocket⟩ := List.any_eq_true.mp hthread
      rw [List.mem_singleton.mp hx]
      exact ⟨g, hg, by simpa using hsocket⟩
  · rcases List.mem_append.mp hx with hx | hx
    · exact h.checked x hx
    · rw [List.mem_singleton.mp hx]
      exact hc

theorem inv_assign {s : ServerState} (h : Inv s) {x : ℕ × Bytes} (hx : x ∈ s.checked) {i : ℕ}
    (hlt : i < s.registry.clients.length) (hsocket : s.registry.clients[i].socket = x.1) :
    Inv { registry := removeDisconnectStore
            { s.registry with clients := s.registry.clients.set i ⟨x.1, x.2⟩ } x.2
          checked := s.checked.erase x } := by
  refine ⟨fun c hc => ?_, fun y hy => ?_, ?_, fun y hy => h.checked y (List.mem_of_mem_erase hy)⟩
  · have hone := h.once c hc
    have hset := List.countP_set (p := fun k : HandlerClientSocket => k.clientId == c)
      (a := ⟨x.1, x.2⟩) hlt
    -- what is about to be used is used now
    have hperm := ((List.perm_cons_erase hx).map Prod.snd).count_eq c
    rw [List.map_cons, List.count_cons] at hperm
    unfold uses removeDisconnectStore at *
    simp only at *
    rw [hset]
    omega
  · obtain ⟨g, hg, hgs⟩ := h.connected y (List.mem_of_mem_erase hy)
    obtain ⟨j, hj, rfl⟩ := List.getElem_of_mem hg
    unfold removeDisconnectStore
    simp only
    by_cases hij : i = j
    · subst hij
      exact ⟨_, List.mem_set hlt _, by rw [← hgs, hsocket]⟩
    · refine ⟨s.registry.clients[j], ?_, hgs⟩
      rw [List.mem_iff_getElem]
      exact ⟨j, by simpa using hj, List.getElem_set_ne hij _⟩
  · -- the code is still free, so this is the single operation
    obtain ⟨hne, hnul⟩ := h.checked x hx
    have hfree : checkClientsIdExist s.registry x.2 = false := by
      have hone := h.once x.2 hne
      have hpos : 0 < (s.checked.map Prod.snd).count x.2 :=
        List.count_pos_iff.mpr (List.mem_map_of_mem hx)
      unfold uses at hone
      exact List.any_eq_false.mpr (List.countP_eq_zero.mp (by omega))
    have hnew : checkClientsIdExist s.registry (cStr x.2) = false := by rwa [cStr_of_no_nul hnul]
    have hinv := inv_storeCode h.registry (List.getElem?_eq_getElem hlt) hnew
    rwa [cStr_of_no_nul hnul, hsocket] at hinv

theorem inv_heartbeat {s : ServerState} (h : Inv s) {i : ℕ} {alive : Bool}
    (hok : ¬ Overlaps s (.heartbeat i alive)) :
    Inv { s with registry := apply s.registry (.heartbeat i alive) } := by
  rcases hi : s.registry.clients[i]? with _ | g
  · simpa only [apply, hi] using h
  rcases alive with _ | _
  · obtain ⟨hlt, rfl⟩ := List.getElem?_eq_some_iff.mp hi
    have hbusy : s.registry.clients[i].socket ∉ s.checked.map Prod.fst := fun hmem =>
      hok ⟨_, hi, hmem⟩
    refine ⟨fun c hc => ?_, fun x hx => ?_, apply_inv h.registry (.heartbeat i false), h.checked⟩
    · have hone := h.once c hc
      have hle : (s.registry.clients.eraseIdx i).countP (·.clientId == c) ≤
          s.registry.clients.countP (·.clientId == c) :=
        (List.eraseIdx_sublist _ i).countP_le
      unfold uses at hone ⊢
      simp only [apply, hi, Bool.false_eq_true, if_false, removeClient]
      omega
    · obtain ⟨g, hg, hgx⟩ := h.connected x hx
      refine ⟨g, ?_, hgx⟩
      simp only [apply, hi, Bool.false_eq_true, if_false, removeClient]
      obtain ⟨j, hj, rfl⟩ := List.getElem_of_mem hg
      refine List.mem_eraseIdx_iff_getElem.mpr ⟨j, hj, ?_, rfl⟩
      rintro rfl
      exact hbusy (hgx ▸ List.mem_map_of_mem hx)
  · have hclients : (apply s.registry (.heartbeat i true)).clients = s.registry.clients := by
      simp only [apply, hi, if_true, removeDisconnectStore]
    exact ⟨fun c hc => by simpa only [uses, hclients] using h.once c hc,
      fun x hx => by simpa only [hclients] using h.connected x hx,
      apply_inv h.registry (.heartbeat i true), h.checked⟩

/-- One step. -/
theorem step_inv (s : ServerState) (m : Move) (h : Inv s) (hok : ¬ Overlaps s m) :
    ∃ t, step s m = .ok t ∧ Inv t := by
  rcases m with socket | ⟨socket, text⟩ | socket | ⟨i, alive⟩
  · simp only [step]
    split_ifs
    · exact ⟨s, rfl, h⟩
    · refine ⟨_, rfl, fun c hc => ?_, fun x hx => ?_, inv_accept h.registry socket, h.checked⟩
      · have hone := h.once c hc
        have hnil : (([] : Bytes) == c) = false := by simpa using Ne.symm hc
        simpa [uses, apply, List.countP_append, hnil] using hone
      · obtain ⟨g, hg, hgx⟩ := h.connected x hx
        exact ⟨g, List.mem_append_left _ hg, hgx⟩
  · simp only [step]
    split_ifs with hc
    · exact ⟨_, rfl, inv_check h hc.1 ⟨hc.2.2.1, fun b hb => mem_cStr_ne_zero hb⟩ hc.2.2.2 hok⟩
    · exact ⟨s, rfl, h⟩
  · rcases hfind : s.checked.find? (·.1 == socket) with _ | x
    · exact ⟨s, by simp only [step, hfind], h⟩
    · have hx := List.mem_of_find?_eq_some hfind
      obtain rfl : x.1 = socket := by simpa using List.find?_some hfind
      obtain ⟨g, hg, hgx⟩ := h.connected x hx
      rcases hidx : s.registry.clients.findIdx? (·.socket == x.1) with _ | i
      · have hnone := List.findIdx?_eq_none_iff.mp hidx g hg
        simp [hgx] at hnone
      · obtain ⟨hlt, hsocket, -⟩ := List.findIdx?_eq_some_iff_getElem.mp hidx
        refine ⟨_, ?_, inv_assign h hx hlt (by simpa using hsocket)⟩
        simp only [step, hfind, hidx]
  · exact ⟨_, rfl, inv_heartbeat h hok⟩

theorem inv_initial : Inv .initial :=
  ⟨fun c _ => by simp [uses, ServerState.initial], by simp [ServerState.initial],
    ⟨fun c _ => by simp [occurrences, ServerState.initial], by simp [CStringIds, ServerState.initial]⟩,
    by simp [ServerState.initial]⟩

/-- **Store codes are unique among the clients** throughout every run in which no code is looked for while
another handler is about to assign it, and no client is dropped while its handler is about to assign. -/
theorem unique_store_codes (moves : List Move) (h : Avoids step Overlaps .initial moves) :
    Throughout step UniqueCodes .initial moves :=
  (throughout_of_avoids step_inv inv_initial h).mono fun _ => uniqueCodes_of_inv

/-- Throughout such a run the registry holds every store code at most once, on the list too. -/
theorem registry_inv (moves : List Move) (h : Avoids step Overlaps .initial moves) :
    Throughout step (fun s => SocketServer.Inv s.registry) .initial moves :=
  (throughout_of_avoids step_inv inv_initial h).mono fun _ hs => hs.registry

/-- So a dispatch in such a state delivers to the stores that have a client or are on the list. -/
theorem deliveredOnce_iff (moves : List Move) (h : Avoids step Overlaps .initial moves) :
    Throughout step (fun s => ∀ (sendOk : HandlerClientSocket → Bool) (d : Dispatch), ∀ c ∈ d.addressees,
      c ≠ [] → (∀ b ∈ c, b ≠ 0) →
        (DeliveredOnce (d.effects sendOk s.registry) c ↔ d.Reaches sendOk s.registry c)) .initial moves :=
  (registry_inv moves h).mono fun s hs sendOk d c hc hne hnul => by
    rw [deliveredOnce_iff_counts sendOk s.registry hc]
    exact counts_iff_reaches (hs.once c hne) hs.noNul hnul sendOk d

theorem ids_initial : Ids .initial :=
  ⟨by simp [CStringIds, ServerState.initial], by simp [ServerState.initial], by simp [ServerState.initial]⟩

/-- A client that is dropped leaves its code on the list, if it has one. -/
theorem list_heartbeat {r : Registry} (hids : CStringIds r)
    (hlist : ∀ c ∈ r.disconnectStore, c ≠ [] ∧ ∀ b ∈ c, b ≠ 0) (i : ℕ) (alive : Bool) :
    ∀ c ∈ (apply r (.heartbeat i alive)).disconnectStore, c ≠ [] ∧ ∀ b ∈ c, b ≠ 0 := by
  rcases hi : r.clients[i]? with _ | g
  · simpa only [apply, hi] using hlist
  · simp only [apply, hi]
    split_ifs with halive
    · exact fun c hc => hlist c (List.mem_of_mem_erase hc)
    · simp only [removeClient]
      split_ifs with hne
      · intro c hc
        rcases List.mem_append.mp hc with hc | hc
        · exact hlist c hc
        · rw [List.mem_singleton.mp hc]
          exact ⟨hne, hids g (List.mem_of_getElem? hi)⟩
      · exact hlist

/-- Whatever overlaps, the ids are C strings. -/
theorem step_ids {s t : ServerState} {m : Move} (h : Ids s) (ht : step s m = .ok t) : Ids t := by
  rcases m with socket | ⟨socket, text⟩ | socket | ⟨i, alive⟩
  · simp only [step] at ht
    split_ifs at ht <;> obtain rfl := Except.ok.inj ht
    · exact h
    · exact ⟨cStringIds_accept h.clients socket, h.checked, h.list⟩
  · simp only [step] at ht
    split_ifs at ht <;> obtain rfl := Except.ok.inj ht
    · refine ⟨h.clients, fun x hx => ?_, h.list⟩
      rcases List.mem_append.mp hx with hx | hx
      · exact h.checked x hx
      · rw [List.mem_singleton.mp hx]
        exact fun b hb => mem_cStr_ne_zero hb
    · exact h
  · simp only [step] at ht
    rcases hfind : s.checked.find? (·.1 == socket) with _ | x
    · simp only [hfind] at ht
      exact Except.ok.inj ht ▸ h
    · rcases hidx : s.registry.clients.findIdx? (·.socket == socket) with _ | i
      · simp [hfind, hidx] at ht
      · simp only [hfind, hidx] at ht
        obtain rfl := Except.ok.inj ht
        exact ⟨cStringIds_set h.clients i (h.checked x (List.mem_of_find?_eq_some hfind)) _,
          fun y hy => h.checked y (List.mem_of_mem_erase hy),
          fun c hc => h.list c (List.mem_of_mem_erase hc)⟩
  · obtain rfl := Except.ok.inj ht
    exact ⟨cStringIds_heartbeat h.clients i alive, h.checked, list_heartbeat h.clients h.list i alive⟩

/-- In every state the server comes to, in whatever order its threads move, client ids are C strings. -/
theorem cStringIds {moves : List Move} {s : ServerState} (h : moves.foldlM step .initial = .ok s) :
    CStringIds s.registry :=
  (Res.foldlM_invariant (P := fun _ t => Ids t) h ids_initial fun _ _ _ _ _ ht hstep =>
    step_ids ht hstep).clients

/-- Two clients register one after the other, the second first under the code of the first. -/
theorem unique_store_codes_inTurn : Throughout step UniqueCodes .initial
    [.accept 5, .accept 6, .check 5 [83, 49], .assign 5, .check 6 [83, 49], .check 6 [83, 50],
      .assign 6] :=
  unique_store_codes _ (by decide)

/-- Both find the code free before either has it. -/
theorem overlapping_registrations : ¬ Throughout step UniqueCodes .initial
    [.accept 5, .accept 6, .check 5 [83, 49], .check 6 [83, 49], .assign 5, .assign 6] := by
  decide

end DataSync.Server.Registration
