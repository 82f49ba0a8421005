import DataSync.Net.Fragmentation

/-! # A connection that is closed

Once the peer has closed, every `recv` returns 0. Of the two branches of `mRecv` only the Windows one looks
at that: the other adds the 0 to what it has and calls `recv` again.

`mRecv_enough` and `mRecv_short`: what a request comes to on such a connection. `noticesClose_iff`: `mRecv`
returns, and with the right number, exactly on Windows or when the request is filled before the close. -/

namespace DataSync.Net.ClosedConnection

open DataSync.Lib.Words DataSync.Lib.Reading DataSync.Net.Framing DataSync.Net.Fragmentation

/-- The chunks that arrive before the close, and `k` results of `recv` behind it. -/
def script (chunks : List Chunk) (k : ℕ) : List Arrival :=
  chunks.map .chunk ++ List.replicate k .closed

/-- The number of bytes that arrive. -/
def arrived (chunks : List Chunk) : ℕ := (chunks.flatMap Chunk.bytes).length

/-- The number `mRecv` returns, when it does. -/
def returned {σ : Type} : Read ℤ UInt8 σ → Option ℤ
  | .full bytes _ => some bytes.length
  | .failed code _ => some code
  | .waits => none

/-- What `mRecv` returns for the request of `len` bytes; one of a negative number ends at once. -/
def mRecvResult (build : Build) (len : ℤ) (arrivals : List Arrival) : Option ℤ :=
  returned (mRecv build len.toNat arrivals)

/-- **`mRecv` notices the close**: it returns after some number of calls of `recv`, with the requested
length when enough bytes have arrived, and with a negative code otherwise. -/
def NoticesClose (build : Build) (len : ℤ) (chunks : List Chunk) : Prop :=
  ∃ k v, mRecvResult build len (script chunks k) = some v ∧
    (len ≤ arrived chunks → v = len) ∧ (arrived chunks < len → v < 0)

theorem returned_map {σ τ : Type} (f : σ → τ) (r : Read ℤ UInt8 σ) : returned (r.map f) = returned r := by
  cases r <;> rfl

/-- The script without the cuts between chunks. -/
theorem events_script (build : Build) (chunks : List Chunk) (k : ℕ) :
    events build (script chunks k) =
      (chunks.flatMap Chunk.bytes).map .ok ++ events build (List.replicate k .closed) := by
  rw [script, events_append, events_chunks]

theorem events_closed_other (k : ℕ) : events .other (List.replicate k .closed) = [] := by
  induction k with
  | zero => rfl
  | succ k ih => rw [List.replicate_succ, events, ih]

section Script
variable {build : Build} {chunks : List Chunk}

theorem mRecvResult_events (len : ℤ) (k : ℕ) : mRecvResult build len (script chunks k) =
    returned (readEvents len.toNat ((chunks.flatMap Chunk.bytes).map (.ok : UInt8 → Except ℤ UInt8) ++
      events build (List.replicate k .closed))) := by
  rw [← events_script, mRecv_simulates build, returned_map]
  rfl

/-- **A request that is filled before the close** is answered without another call. -/
theorem mRecv_enough {len : ℤ} (h : len ≤ arrived chunks) (k : ℕ) :
    mRecvResult build len (script chunks k) = some (len.toNat : ℤ) := by
  unfold arrived at h
  set bytes := chunks.flatMap Chunk.bytes
  have hlen : len.toNat ≤ bytes.length := by omega
  have htake : (bytes.take len.toNat).length = len.toNat := by rw [List.length_take]; omega
  have hsplit : bytes.map (.ok : UInt8 → Except ℤ UInt8) =
      (bytes.take len.toNat).map .ok ++ (bytes.drop len.toNat).map .ok := by
    rw [← List.map_append, List.take_append_drop]
  rw [mRecvResult_events, hsplit, List.append_assoc, readEvents_full _ _ htake.symm, returned, htake]

/-- **A request the close cuts short** fails on Windows, and waits after any number of calls elsewhere. -/
theorem mRecv_short {len : ℤ} (h : arrived chunks < len) (k : ℕ) :
    mRecvResult .win32 len (script chunks (k + 1)) = some (-3) ∧
      mRecvResult .other len (script chunks k) = none := by
  unfold arrived at h
  have hlen : (chunks.flatMap Chunk.bytes).length < len.toNat := by omega
  constructor
  · rw [mRecvResult_events, List.replicate_succ, events, readEvents_failed hlen]
    rfl
  · rw [mRecvResult_events, events_closed_other, List.append_nil, readEvents_waits hlen]
    rfl

end Script

/-- **A closed connection is noticed** exactly on Windows, or when the request is filled before the close. A
negative length is answered with 0. -/
theorem noticesClose_iff (build : Build) (len : ℤ) (chunks : List Chunk) :
    NoticesClose build len chunks ↔ 0 ≤ len ∧ (build = .win32 ∨ len ≤ arrived chunks) := by
  unfold NoticesClose
  rcases lt_or_ge (arrived chunks : ℤ) len with hshort | henough
  · have hcodes := mRecv_short (k := 0) hshort
    cases build with
    | win32 =>
      have hpos : 0 ≤ len := by omega
      refine iff_of_true ⟨1, -3, hcodes.1, fun h => absurd h (by omega), fun _ => by norm_num⟩ ⟨hpos, .inl rfl⟩
    | other =>
      refine iff_of_false ?_ ?_
      · rintro ⟨k, v, hv, -⟩
        rw [(mRecv_short hshort k).2] at hv
        cases hv
      · rintro ⟨-, h | h⟩
        · cases h
        · omega
  · constructor
    · rintro ⟨k, v, hv, hlen, -⟩
      rw [mRecv_enough henough, Option.some.injEq] at hv
      have := hlen henough
      exact ⟨by omega, .inr henough⟩
    · rintro ⟨hpos, -⟩
      exact ⟨0, len.toNat, mRecv_enough henough 0, fun _ => Int.toNat_of_nonneg hpos,
        fun h => absurd h (by omega)⟩

/-- **A peer that closes at once** keeps `mRecv` in its loop. -/
theorem closed_at_once : (∀ k, mRecvResult .other 1 (script [] k) = none) ∧ ¬ NoticesClose .other 1 [] := by
  have hnone (k : ℕ) : mRecvResult .other 1 (script [] k) = none := (mRecv_short (by decide) k).2
  refine ⟨hnone, ?_⟩
  rintro ⟨k, v, hv, -⟩
  rw [hnone k] at hv
  cases hv

end DataSync.Net.ClosedConnection
