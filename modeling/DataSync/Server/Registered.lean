import DataSync.Server.SocketServer

/-! # Registered stores and the list of disconnected ones

Whole sweeps of the heartbeat over the registry, and two things that must hold of a registry the server
has come to. `disconnectStore_faithful`: the list of disconnected stores is a set of store codes, none of
them the code of a connected client. `only_registered_iff`: a dispatch sends to registered clients only,
exactly when there are no others or it does not address the empty store code; broadcasting, an empty
store string and an empty segment of a store list all address it. -/

namespace DataSync.Server.Registered

open DataSync.Lib.Words DataSync.Server.SocketServer

/-! ### Sweeps -/

/-- The loop of `sendHeartbeat` from the client at `i` on. `alive` has what `checkSocketState` and the
time of the last heartbeat say of one client after the other; a dead client leaves its place to the next
one. -/
def sendHeartbeat : List Bool → ℕ → Registry → Registry
  | [], _, r => r
  | alive :: rest, i, r =>
    sendHeartbeat rest (if alive then i + 1 else i) (apply r (.heartbeat i alive))

/-- What the server does to its registry, each as a whole. -/
inductive ServerOp where
  | addClient (socket : ℕ)
  | storeCode (i : ℕ) (text : Bytes)
  | sweep (alive : List Bool)
  deriving DecidableEq, Repr

/-- One operation of the server. -/
def serve (r : Registry) : ServerOp → Registry
  | .addClient socket => apply r (.accept socket)
  | .storeCode i text => apply r (.storeCode i text)
  | .sweep alive => sendHeartbeat alive 0 r

/-- The registry behind a run of the server. -/
def serveAll (ops : List ServerOp) : Registry := ops.foldl serve ⟨[], []⟩

theorem sendHeartbeat_eq_foldl (alive : List Bool) (i : ℕ) (r : Registry) :
    ∃ ops : List Op, sendHeartbeat alive i r = ops.foldl apply r := by
  induction alive generalizing i r with
  | nil => exact ⟨[], rfl⟩
  | cons a alive ih =>
    obtain ⟨ops, hops⟩ := ih (if a then i + 1 else i) (apply r (.heartbeat i a))
    exact ⟨.heartbeat i a :: ops, hops⟩

/-- A sweep is so many rounds of the heartbeat, so whole runs are runs of the registry. -/
theorem serveAll_eq_run (ops : List ServerOp) : ∃ ops', serveAll ops = run ops' := by
  induction ops using List.reverseRecOn with
  | nil => exact ⟨[], rfl⟩
  | append_singleton ops op ih =>
    obtain ⟨ops', hops⟩ := ih
    have hstep : ∃ more : List Op, serve (run ops') op = more.foldl apply (run ops') := by
      rcases op with socket | ⟨i, text⟩ | alive
      · exact ⟨[.accept socket], rfl⟩
      · exact ⟨[.storeCode i text], rfl⟩
      · exact sendHeartbeat_eq_foldl alive 0 (run ops')
    obtain ⟨more, hmore⟩ := hstep
    refine ⟨ops' ++ more, ?_⟩
    unfold serveAll at hops ⊢
    rw [List.foldl_append, List.foldl_cons, List.foldl_nil, hops, hmore]
    unfold run
    rw [List.foldl_append]

/-! ### The list of disconnected stores -/

/-- The empty store code never gets on the list. -/
theorem nil_notMem_apply {r : Registry} (h : ([] : Bytes) ∉ r.disconnectStore) (op : Op) :
    ([] : Bytes) ∉ (apply r op).disconnectStore := by
  have herase : ∀ c, ([] : Bytes) ∉ r.disconnectStore.erase c := fun c hmem =>
    h (List.mem_of_mem_erase hmem)
  rcases op with socket | ⟨i, text⟩ | ⟨i, alive⟩
  · exact h
  · rcases hi : r.clients[i]? with _ | g
    · simpa only [apply, hi] using h
    · simp only [apply, hi]
      split_ifs
      · exact h
      · exact herase _
  · rcases hi : r.clients[i]? with _ | g
    · simpa only [apply, hi] using h
    · simp only [apply, hi]
      split_ifs
      · exact herase _
      · unfold removeClient
        simp only
        split_ifs with hid
        · intro hmem
          rcases List.mem_append.mp hmem with hmem | hmem
          · exact h hmem
          · exact hid (List.mem_singleton.mp hmem).symm
        · exact h

theorem nil_notMem_run (ops : List Op) : ([] : Bytes) ∉ (run ops).disconnectStore := by
  induction ops using List.reverseRecOn with
  | nil => simp [run]
  | append_singleton ops op ih =>
    unfold run at ih ⊢
    rw [List.foldl_append, List.foldl_cons, List.foldl_nil]
    exact nil_notMem_apply ih op

/-- **The list of disconnected stores is a faithful set** in every state of the server: no store code is
on it twice, the empty one never, and none that a connected client is registered under. -/
theorem disconnectStore_faithful (ops : List ServerOp) :
    (serveAll ops).disconnectStore.Nodup ∧ ([] : Bytes) ∉ (serveAll ops).disconnectStore ∧
      ∀ h ∈ (serveAll ops).clients, h.clientId ∉ (serveAll ops).disconnectStore := by
  obtain ⟨ops', hrun⟩ := serveAll_eq_run ops
  rw [hrun]
  have hinv := run_inv ops'
  have hnil := nil_notMem_run ops'
  refine ⟨List.nodup_iff_count_le_one.mpr fun c => ?_, hnil, fun h hh hmem => ?_⟩
  · by_cases hc : c = []
    · rw [hc, List.count_eq_zero_of_not_mem hnil]
      exact Nat.zero_le 1
    · have hone := hinv.once c hc
      unfold occurrences at hone
      omega
  · have hne : h.clientId ≠ [] := fun h0 => hnil (h0 ▸ hmem)
    exact not_mem_disconnectStore (hinv.once _ hne) hh rfl hmem

/-! ### Who is sent to -/

/-- Every client that is sent to has registered. -/
def OnlyRegistered (effects : List Effect) : Prop :=
  ∀ h ok, Effect.sent h ok ∈ effects → h.clientId ≠ []

/-- A dispatch of the type to the store string addresses the empty store code. -/
def AddressesEmpty (type : String) (storeCode : Bytes) : Prop :=
  type = "3" ∨ (type = "2" ∧ [] ∈ splitStrToVector storeCode) ∨ (type = "1" ∧ cStr storeCode = [])

/-- All connected clients have registered. -/
def AllRegistered (r : Registry) : Prop := ∀ h ∈ r.clients, h.clientId ≠ []

section Sends
variable (sendOk : HandlerClientSocket → Bool) {r : Registry} (hids : CStringIds r)

/-- Pushes send to nobody. -/
theorem onlyRegistered_append (xs : List Effect) {ys : List Effect}
    (hys : ∀ h ok, Effect.sent h ok ∉ ys) : OnlyRegistered (xs ++ ys) ↔ OnlyRegistered xs := by
  simp [OnlyRegistered, hys]

include hids in
/-- The first client that answers to a store string. -/
theorem onlyRegistered_sendFirst (storeCode : Bytes) : OnlyRegistered (sendFirst sendOk r storeCode) ↔
    AllRegistered r ∨ cStr storeCode ≠ [] := by
  have hid : ∀ h ∈ r.clients, cStr h.clientId = h.clientId := fun h hh =>
    cStr_of_no_nul (hids h hh)
  unfold sendFirst
  rcases hfind : r.clients.find? (cmpClientId storeCode) with _ | g
  · -- nobody answers, so nobody without a code is there to answer to the empty one
    simp only [OnlyRegistered, List.not_mem_nil, false_implies, implies_true, true_iff]
    by_cases hcode : cStr storeCode = []
    · refine Or.inl fun h hh h0 => List.find?_eq_none.mp hfind h hh ?_
      rw [cmpClientId, hcode, hid h hh, h0]
      rfl
    · exact Or.inr hcode
  · have hg := List.mem_of_find?_eq_some hfind
    have hcmp : cStr storeCode = g.clientId := by
      have h := List.find?_some hfind
      rwa [cmpClientId, beq_iff_eq, hid g hg] at h
    have honly : OnlyRegistered [Effect.sent g (sendOk g)] ↔ g.clientId ≠ [] := by
      simp [OnlyRegistered]
    rw [honly, hcmp]
    refine ⟨Or.inr, ?_⟩
    rintro (hall | hne)
    · exact hall g hg
    · exact hne

/-- The clients a predicate picks. -/
theorem onlyRegistered_filter (p : HandlerClientSocket → Bool)
    (hp : ∀ h, h.clientId = [] → p h = true) :
    OnlyRegistered ((r.clients.filter p).map fun h => .sent h (sendOk h)) ↔ AllRegistered r := by
  constructor
  · intro h g hg h0
    refine h g (sendOk g) ?_ h0
    exact List.mem_map.mpr ⟨g, List.mem_filter.mpr ⟨hg, hp g h0⟩, rfl⟩
  · intro hall g ok hmem
    obtain ⟨h, hh, heq⟩ := List.mem_map.mp hmem
    obtain ⟨rfl, -⟩ := Effect.sent.injEq _ _ _ _ ▸ heq
    exact hall h (List.mem_of_mem_filter hh)

end Sends

/-- **Only registered clients are sent to, exactly when** all clients of the registry have registered or
the empty store code is not addressed. Nothing is asked of the registry but that its ids are C strings. -/
theorem only_registered_iff (sendOk : HandlerClientSocket → Bool) {r : Registry} (hids : CStringIds r)
    (type : String) (storeCode : Bytes) :
    (OnlyRegistered (dispatchMessage sendOk r type storeCode) ↔
      AllRegistered r ∨ ¬ AddressesEmpty type storeCode) ∧
    (OnlyRegistered (dispatchOneMessage sendOk r type storeCode) ↔
      AllRegistered r ∨ ¬ (type = "1" ∧ cStr storeCode = [])) := by
  have hfirst := onlyRegistered_sendFirst sendOk hids storeCode
  have hnone : OnlyRegistered [] := by simp [OnlyRegistered]
  have hpush : ∀ (c : Prop) [Decidable c] (h : HandlerClientSocket) (ok : Bool),
      Effect.sent h ok ∉ (if c then [Effect.pushed storeCode] else []) := by
    intro c _ h ok
    split_ifs <;> simp
  have hpushAll : ∀ (codes : List Bytes) (h : HandlerClientSocket) (ok : Bool),
      Effect.sent h ok ∉ codes.map Effect.pushed := by simp
  constructor
  · by_cases h1 : type = "1"
    · rw [dispatchMessage, if_pos h1, onlyRegistered_append _ (hpush _), hfirst]
      simp [AddressesEmpty, h1]
    by_cases h2 : type = "2"
    · rw [dispatchMessage, if_neg h1, if_pos h2]
      simp only [onlyRegistered_append _ (hpushAll _)]
      by_cases hmem : ([] : Bytes) ∈ splitStrToVector storeCode
      · rw [onlyRegistered_filter sendOk _ fun h h0 => by simpa [h0] using hmem]
        simp [AddressesEmpty, h2, hmem]
      · -- whoever is picked has a code of the list, which is not empty
        refine iff_of_true (fun g ok hg h0 => ?_) (Or.inr (by simp [AddressesEmpty, h2, hmem]))
        obtain ⟨h, hh, heq⟩ := List.mem_map.mp hg
        obtain ⟨rfl, -⟩ := Effect.sent.injEq _ _ _ _ ▸ heq
        rw [List.mem_filter, decide_eq_true_eq, h0] at hh
        exact hmem hh.2
    by_cases h3 : type = "3"
    · have hall := onlyRegistered_filter (r := r) sendOk (fun _ => true) fun _ _ => rfl
      rw [List.filter_true] at hall
      rw [dispatchMessage, if_neg h1, if_neg h2, if_pos h3, onlyRegistered_append _ (hpushAll _), hall]
      simp [AddressesEmpty, h3]
    · rw [dispatchMessage, if_neg h1, if_neg h2, if_neg h3]
      exact iff_of_true hnone (Or.inr (by simp [AddressesEmpty, h1, h2, h3]))
  · by_cases h1 : type = "1"
    · rw [dispatchOneMessage, if_pos h1, onlyRegistered_append _ (hpush _), hfirst]
      simp [h1]
    · rw [dispatchOneMessage, if_neg h1]
      exact iff_of_true hnone (Or.inr (by simp [h1]))

/-- A store list without an empty segment, to a registry with two clients of one code and one that has not
registered. -/
theorem only_registered_twoOfOneCode : OnlyRegistered (dispatchMessage (fun _ => true)
    ⟨[⟨5, [83, 49]⟩, ⟨6, [83, 49]⟩, ⟨7, []⟩], []⟩ "2" [83, 49, 44, 83, 50]) :=
  (only_registered_iff (fun _ => true)
    (r := ⟨[⟨5, [83, 49]⟩, ⟨6, [83, 49]⟩, ⟨7, []⟩], []⟩) (by simp [CStringIds]) "2"
    [83, 49, 44, 83, 50]).1.mpr (Or.inr (by unfold AddressesEmpty; decide))

/-- The store list `S1,,S2` has an empty segment: a client that has just been accepted gets the
message. -/
theorem emptySegment_unregistered :
    ¬ OnlyRegistered (dispatchMessage (fun _ => true) (run [.accept 7]) "2" [83, 49, 44, 44, 83, 50]) := by
  intro h
  exact h ⟨7, []⟩ true (by decide) rfl

end DataSync.Server.Registered
