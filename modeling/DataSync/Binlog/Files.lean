import DataSync.Binlog.EventStream

/-! # Binary log files

A binary log as the server writes it: the magic number, the events of the header, one of them a format
description, and the events. `parseBegin` on what there is of it: `parseBegin_growing` as long as the first
event has not begun, `parseBegin_header` with whole events behind the header, `parseBegin_resume` from the
end of a former call on. -/

namespace DataSync.Binlog.Files

open DataSync.Lib.Words DataSync.Lib.Memory DataSync.Binlog.Format DataSync.Binlog.LogEvent
open DataSync.Binlog.ParseLogEntry DataSync.Binlog.EventStream

/-- A binary log file. -/
structure LogFile where
  headers : List Bytes
  events : List Bytes
  deriving DecidableEq, Repr

namespace LogFile

/-- The magic number and the header. -/
def header (f : LogFile) : Bytes := binlogMagic ++ f.headers.flatten

/-- The file with its first `k` events. -/
def upTo (f : LogFile) (k : ℕ) : Bytes := f.header ++ (f.events.take k).flatten

/-- The whole file. -/
def bytes (f : LogFile) : Bytes := f.header ++ f.events.flatten

/-- The format description a fresh parser takes from the header. -/
def description (f : LogFile) : CHeaderEvent := f.headers.foldl describe .initial

/-- The file can be read at all: one format description, with a common header of at least nineteen bytes,
events with the right length fields and known types that begin with one `checkHeader` does not take for the
header, and a size that can be told. -/
structure Formed (f : LogFile) : Prop where
  headers : ∀ h ∈ f.headers, IsHeader h
  description : f.headers.countP isDescription = 1
  common : logEventHeaderLen ≤ f.description.commonHeaderLength
  events : ∀ e ∈ f.events, Framed e ∧ Known e
  first : ∀ e ∈ f.events.head?, isHeaderType (EventType.ofCode (typeCode e)) = false
  size : f.bytes.length < 2 ^ 31

/-- Every event behind the header is longer than its own header; one of nineteen bytes ends `parseEvents`. -/
def Bodied (f : LogFile) : Prop := ∀ e ∈ f.events, logEventHeaderLen < e.length

/-- The file is well formed: one format description, with a common header of at least nineteen bytes,
events that begin with one `checkHeader` does not take for the header, and a size that can be told. -/
structure Ok (f : LogFile) : Prop where
  headers : ∀ h ∈ f.headers, IsHeader h
  description : f.headers.countP isDescription = 1
  common : logEventHeaderLen ≤ f.description.commonHeaderLength
  events : ∀ e ∈ f.events, IsEvent e
  first : ∀ e ∈ f.events.head?, isHeaderType (EventType.ofCode (typeCode e)) = false
  size : f.bytes.length < 2 ^ 31

instance (f : LogFile) : Decidable f.Ok :=
  decidable_of_iff ((∀ h ∈ f.headers, IsHeader h) ∧ f.headers.countP isDescription = 1 ∧
      logEventHeaderLen ≤ f.description.commonHeaderLength ∧ (∀ e ∈ f.events, IsEvent e) ∧
      (∀ e ∈ f.events.head?, isHeaderType (EventType.ofCode (typeCode e)) = false) ∧
      f.bytes.length < 2 ^ 31)
    ⟨fun ⟨h1, h2, h3, h4, h5, h6⟩ => ⟨h1, h2, h3, h4, h5, h6⟩,
      fun ⟨h1, h2, h3, h4, h5, h6⟩ => ⟨h1, h2, h3, h4, h5, h6⟩⟩

theorem ok_iff {f : LogFile} : f.Ok ↔ f.Formed ∧ f.Bodied := by
  constructor
  · intro h
    exact ⟨⟨h.headers, h.description, h.common, fun e he => ⟨(h.events e he).framed, (h.events e he).type⟩,
      h.first, h.size⟩, fun e he => (h.events e he).long⟩
  · rintro ⟨h, hbodied⟩
    refine ⟨h.headers, h.description, h.common, fun e he => ?_, h.first, h.size⟩
    have hle := (List.sublist_flatten_of_mem he).length_le
    have hsize := h.size
    rw [LogFile.bytes, List.length_append] at hsize
    exact ⟨hbodied e he, by omega, (h.events e he).1.size, (h.events e he).2⟩

end LogFile

/-! ### Format descriptions of one file -/

/-- `g'` says all that `g` says. -/
structure Extends (g g' : CHeaderEvent) : Prop where
  common : g'.commonHeaderLength = g.commonHeaderLength
  postHeader : g.postHeaderLen <+: g'.postHeaderLen

/-- Headers without a format description change nothing. -/
theorem foldl_describe_of_none {hs : List Bytes} (h : hs.countP isDescription = 0) (g : CHeaderEvent) :
    hs.foldl describe g = g := by
  induction hs generalizing g with
  | nil => rfl
  | cons b hs ih =>
    rw [List.countP_eq_zero] at h
    have hb := h b List.mem_cons_self
    rw [List.foldl_cons, describe, if_neg hb]
    exact ih (List.countP_eq_zero.mpr fun x hx => h x (List.mem_cons_of_mem _ hx)) g

/-- With one format description the header is that description. -/
theorem foldl_describe_of_one {hs : List Bytes} (h : hs.countP isDescription = 1) :
    ∃ c table, ∀ g : CHeaderEvent, hs.foldl describe g = ⟨c, g.postHeaderLen ++ table⟩ := by
  induction hs with
  | nil => simp at h
  | cons b hs ih =>
    by_cases hb : isDescription b = true
    · rw [List.countP_cons_of_pos hb] at h
      refine ⟨(descriptionOf b).commonHeaderLength, (descriptionOf b).postHeaderLen, fun g => ?_⟩
      rw [List.foldl_cons, describe, if_pos hb]
      exact foldl_describe_of_none (by omega) _
    · rw [List.countP_cons_of_neg hb] at h
      obtain ⟨c, table, hfold⟩ := ih h
      refine ⟨c, table, fun g => ?_⟩
      rw [List.foldl_cons, describe, if_neg hb]
      exact hfold g

/-- As long as the whole header has not been read, the table of a parser consists of whole copies of the
table of the file. -/
def Copies (f : LogFile) (g : CHeaderEvent) : Prop :=
  ∃ n, g.postHeaderLen = (List.replicate n f.description.postHeaderLen).flatten

theorem copies_take {f : LogFile} (hf : f.Ok) {g : CHeaderEvent} (hg : Copies f g) (k : ℕ) :
    Copies f ((f.headers.take k).foldl describe g) := by
  obtain ⟨n, hn⟩ := hg
  obtain ⟨c, table, hall⟩ := foldl_describe_of_one hf.description
  have htable : f.description.postHeaderLen = table := by
    rw [LogFile.description, hall]
    rfl
  have hle : (f.headers.take k).countP isDescription ≤ 1 :=
    hf.description ▸ (List.take_sublist k f.headers).countP_le
  rcases Nat.eq_zero_or_pos ((f.headers.take k).countP isDescription) with h0 | h1
  · exact ⟨n, by rw [foldl_describe_of_none h0, hn]⟩
  · obtain ⟨c', table', htake⟩ := foldl_describe_of_one (show (f.headers.take k).countP isDescription = 1
      by omega)
    -- the rest of the header adds nothing, so this is the table of the whole header
    have hrest : (f.headers.drop k).countP isDescription = 0 := by
      have hsum : (f.headers.take k ++ f.headers.drop k).countP isDescription = _ := List.countP_append
      rw [List.take_append_drop, hf.description] at hsum
      omega
    have hwhole := hall g
    rw [← List.take_append_drop k f.headers, List.foldl_append, foldl_describe_of_none hrest, htake]
      at hwhole
    refine ⟨n + 1, ?_⟩
    rw [htake g, ← List.append_cancel_left (congrArg CHeaderEvent.postHeaderLen hwhole).symm, hn, htable,
      List.replicate_succ', List.flatten_append, List.flatten_singleton]

theorem extends_of_copies {f : LogFile} (hf : f.Ok) {g : CHeaderEvent} (hg : Copies f g) :
    Extends f.description (f.headers.foldl describe g) := by
  obtain ⟨n, hn⟩ := hg
  obtain ⟨c, table, hall⟩ := foldl_describe_of_one hf.description
  have hdesc : f.description = ⟨c, table⟩ := by
    rw [LogFile.description, hall]
    rfl
  rw [hdesc] at hn
  rw [hall, hdesc, hn]
  refine ⟨rfl, ?_⟩
  rcases n with _ | n
  · exact List.prefix_refl _
  · rw [List.replicate_succ, List.flatten_cons, List.append_assoc]
    exact List.prefix_append _ _

/-! ### Reading what there is of a file -/

section Reading
variable {alloc : ℕ → ℕ} {f : LogFile} (hf : f.Ok) {s : CParseLogEntry}
include hf

omit hf in
theorem length_le_flatten {xs : List Bytes} (h : ∀ x ∈ xs, Framed x) : xs.length ≤ xs.flatten.length := by
  rw [← List.flatMap_id]
  refine length_le_flatMap fun x hx => List.length_pos_iff.mp ?_
  exact lt_of_le_of_lt (Nat.zero_le _) (h x hx).long

omit hf in
theorem getFileSize_eq {file : Bytes} (h : file.length < 2 ^ 31) (pos : ℕ) :
    FileCache.getFileSize ⟨file, pos⟩ = file.length := by
  rw [FileCache.getFileSize, FileCache.tell, if_pos h, Nat.mod_eq_of_lt (by simp only; omega)]

omit hf in
theorem drop_upTo (f : LogFile) (k : ℕ) : (f.upTo k).drop f.header.length = (f.events.take k).flatten := by
  rw [LogFile.upTo, List.drop_left]

omit hf in
theorem take_append_drop_take (xs : List Bytes) {j k : ℕ} (hjk : j ≤ k) :
    xs.take k = xs.take j ++ (xs.take k).drop j := by
  have happend := List.take_append_drop j (xs.take k)
  rw [List.take_take, min_eq_left hjk] at happend
  exact happend.symm

omit hf in
theorem upTo_append (f : LogFile) {j k : ℕ} (hjk : j ≤ k) :
    f.upTo k = f.upTo j ++ ((f.events.take k).drop j).flatten := by
  rw [LogFile.upTo, LogFile.upTo, List.append_assoc, ← List.flatten_append,
    ← take_append_drop_take f.events hjk]

omit hf in
theorem upTo_length_le (k : ℕ) : (f.upTo k).length ≤ f.bytes.length := by
  have hle := ((List.take_sublist k f.events).flatten).length_le
  unfold LogFile.upTo LogFile.bytes
  rw [List.length_append, List.length_append]
  omega

/-- The file has not grown an event header beyond its header: nothing is parsed. -/
theorem parseBegin_growing (hptr : s.filePtr = 0) {file : Bytes} (hfile : file <+: f.bytes)
    (hshort : file.length < f.header.length + logEventHeaderLen) :
    ∃ k, parseBegin alloc (FileCache.init file) s =
      .ok (false, { s with gde := (f.headers.take k).foldl describe s.gde }) := by
  have hcheck : ∃ fc' k, checkHeader (FileCache.init file) s.gde =
      .ok (false, fc', (f.headers.take k).foldl describe s.gde) := by
    unfold LogFile.bytes LogFile.header at hfile
    rw [List.append_assoc] at hfile
    by_cases hmagic : binlogMagic.length ≤ file.length
    · obtain ⟨rest, hrest⟩ := List.prefix_of_prefix_length_le (List.prefix_append binlogMagic _) hfile
        hmagic
      have hread : (FileCache.init file).readCache binlogMagic.length = _ :=
        readCache_append hrest.symm (by decide)
      have hdrop : (⟨file, binlogMagic.length⟩ : FileCache).file.drop binlogMagic.length = rest := by
        simp only [← hrest, List.drop_left]
      have hprefix : rest <+: f.headers.flatten ++ f.events.flatten := by
        rw [← hrest] at hfile
        exact (List.prefix_append_right_inj binlogMagic).mp hfile
      have hlen := congrArg List.length hrest
      rw [List.length_append] at hlen
      unfold LogFile.header at hshort
      rw [List.length_append] at hshort
      obtain ⟨fc', k, hk⟩ := @checkHeaderLoop_growing f.headers hf.headers ⟨file, binlogMagic.length⟩ s.gde
        f.events.flatten (by rw [hdrop]; exact hprefix) (by rw [hdrop]; omega) (file.length + 2)
        (by rw [hdrop]; omega)
      refine ⟨fc', k, ?_⟩
      rw [checkHeader, hread]
      simp only [FileCache.init, Nat.zero_add, ne_eq, not_true_eq_false, if_false]
      exact hk
    · refine ⟨⟨file, file.length⟩, 0, ?_⟩
      have hread : (FileCache.init file).readCache binlogMagic.length = _ :=
        readCache_short rfl (show ((FileCache.init file).file.drop 0).length < binlogMagic.length by
          rw [List.drop_zero]
          exact Nat.lt_of_not_le hmagic)
      rw [checkHeader, hread]
      simp [FileCache.init]
  obtain ⟨fc', k, hk⟩ := hcheck
  refine ⟨k, ?_⟩
  rw [parseBegin, if_pos hptr, hk]
  rfl

/-- **The header and some events**: a fresh call handles the events under the description of the header,
and the next call will begin behind them. -/
theorem parseBegin_header (hptr : s.filePtr = 0) {k : ℕ} (hk : f.events.take k ≠ []) :
    parseBegin alloc (FileCache.init (f.upTo k)) s =
      ((f.events.take k).foldlM (handle alloc) { s with gde := f.headers.foldl describe s.gde } >>=
        fun s' => .ok (true, { s' with filePtr := (f.upTo k).length })) := by
  have hsize : (f.upTo k).length < 2 ^ 31 := lt_of_le_of_lt (upTo_length_le k) hf.size
  have hmem : ∀ e ∈ f.events.take k, IsEvent e := fun e he => hf.events e (List.mem_of_mem_take he)
  obtain ⟨e, rest, hcons⟩ := List.exists_cons_of_ne_nil hk
  have he : IsEvent e := hmem e (by simp [hcons])
  have hfirst : isHeaderType (EventType.ofCode (typeCode e)) = false := by
    refine hf.first e ?_
    have hhead := congrArg List.head? hcons
    rw [List.head?_take] at hhead
    split_ifs at hhead
    · cases hhead
    · exact hhead
  have hcheck : checkHeader (FileCache.init (f.upTo k)) s.gde =
      .ok (true, ⟨f.upTo k, f.header.length⟩, f.headers.foldl describe s.gde) := by
    have hsplit : f.upTo k = binlogMagic ++ (f.headers.flatten ++ (f.events.take k).flatten) := by
      rw [LogFile.upTo, LogFile.header, List.append_assoc]
    have hread : (FileCache.init (f.upTo k)).readCache binlogMagic.length =
        (some binlogMagic, ⟨f.upTo k, binlogMagic.length⟩) := by
      have hinit : (FileCache.init (f.upTo k)).file.drop (FileCache.init (f.upTo k)).pos =
          binlogMagic ++ (f.headers.flatten ++ (f.events.take k).flatten) := hsplit
      have hread := readCache_append hinit (by decide)
      rwa [show (FileCache.init (f.upTo k)).pos = 0 from rfl, Nat.zero_add] at hread
    have hdrop : (⟨f.upTo k, binlogMagic.length⟩ : FileCache).file.drop binlogMagic.length =
        f.headers.flatten ++ (f.events.take k).flatten := by
      simp only [hsplit, List.drop_left]
    have hfuel : (f.upTo k).length + 2 = f.headers.length + ((f.upTo k).length + 1 - f.headers.length) + 1 := by
      have hheaders := length_le_flatten fun h hh => (hf.headers h hh).framed
      rw [hsplit, List.length_append, List.length_append]
      omega
    have hlen : binlogMagic.length + f.headers.flatten.length = f.header.length := by
      rw [LogFile.header, List.length_append]
    have hhead : e.take logEventHeaderLen <+: (f.upTo k).drop f.header.length := by
      rw [drop_upTo, hcons, List.flatten_cons]
      exact (List.take_prefix _ _).trans (List.prefix_append _ _)
    rw [checkHeader, hread]
    simp only [ne_eq, not_true_eq_false, if_false]
    rw [hfuel, Nat.add_assoc, checkHeaderLoop_headers (fun h hh => (hf.headers h hh).scanned) hdrop]
    simp only [hlen]
    exact checkHeaderLoop_stop he.framed hhead hfirst
  have hcommon : logEventHeaderLen ≤ (f.headers.foldl describe s.gde).commonHeaderLength := by
    obtain ⟨c, table, hall⟩ := foldl_describe_of_one hf.description
    have hc := hf.common
    rw [LogFile.description, hall] at hc
    rw [hall]
    exact hc
  have hevents : parseEvents alloc ⟨f.upTo k, f.header.length⟩
      { s with gde := f.headers.foldl describe s.gde } = _ :=
    parseEventsLoop_events hcommon hmem hsize
      (by simp only [LogFile.upTo, List.length_append]; omega) (drop_upTo f k) (by
        have hle := length_le_flatten fun e he => (hmem e he).framed
        simp only [LogFile.upTo, List.length_append]
        omega)
  rw [parseBegin, if_pos hptr, hcheck, Res.ok_bind]
  simp only [if_true, hevents, bind_assoc, Res.ok_bind, getFileSize_eq hsize, Res.pure_eq]

omit hf in
/-- A file that has not grown beyond the end of the last call is left alone. -/
theorem parseBegin_behind {file : Bytes} (hsize : file.length < 2 ^ 31) (hptr : s.filePtr ≠ 0)
    (hle : file.length ≤ s.filePtr) : parseBegin alloc (FileCache.init file) s = .ok (true, s) := by
  have hget : (FileCache.init file).getFileSize = file.length := getFileSize_eq hsize 0
  rw [parseBegin, if_neg hptr, hget, if_pos hle]
  rfl

/-- **More events** behind those of the last call. -/
theorem parseBegin_resume {j k : ℕ} (hjk : j ≤ k) (hptr : s.filePtr = (f.upTo j).length)
    (hcommon : logEventHeaderLen ≤ s.gde.commonHeaderLength)
    (hlt : (f.upTo j).length < (f.upTo k).length) :
    parseBegin alloc (FileCache.init (f.upTo k)) s =
      (((f.events.take k).drop j).foldlM (handle alloc) s >>=
        fun s' => .ok (true, { s' with filePtr := (f.upTo k).length })) := by
  have hsize : (f.upTo k).length < 2 ^ 31 := lt_of_le_of_lt (upTo_length_le k) hf.size
  have hmem : ∀ e ∈ (f.events.take k).drop j, IsEvent e := fun e he =>
    hf.events e (List.mem_of_mem_take (List.mem_of_mem_drop he))
  have hsplit := upTo_append f hjk
  have hget : (FileCache.init (f.upTo k)).getFileSize = (f.upTo k).length := getFileSize_eq hsize 0
  have hzero : s.filePtr ≠ 0 := by
    rw [hptr, LogFile.upTo, LogFile.header, List.length_append, List.length_append]
    simp [binlogMagic]
  have hseek : (FileCache.init (f.upTo k)).seekSet (toSigned 32 s.filePtr) =
      ⟨f.upTo k, (f.upTo j).length⟩ := by
    rw [hptr, toSigned_of_lt (by norm_num) (by omega)]
    unfold FileCache.seekSet FileCache.init
    rw [if_neg (by omega), Int.toNat_natCast]
  have hdrop : (f.upTo k).drop (f.upTo j).length = ((f.events.take k).drop j).flatten := by
    rw [hsplit, List.drop_left]
  have hevents : parseEvents alloc ⟨f.upTo k, (f.upTo j).length⟩ s = _ :=
    parseEventsLoop_events hcommon hmem hsize (by simp only; omega) hdrop (by
      have hle := length_le_flatten fun e he => (hmem e he).framed
      have hlen := congrArg List.length hsplit
      rw [List.length_append] at hlen
      simp only
      omega)
  rw [parseBegin, if_neg hzero, hget, if_neg (by omega), hseek]
  simp only [hevents, bind_assoc, Res.ok_bind, getFileSize_eq hsize, Res.pure_eq]

end Reading

end DataSync.Binlog.Files
