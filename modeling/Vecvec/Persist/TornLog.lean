import Vecvec.Persist.Sample

/-!
# Persist/TornLog — a log cut anywhere, a log written with errors, a record that does not fit

Opening a log cuts it back to its last whole record, so records appended afterwards are read.  Only
opening does so: a record that an append gives up half-way stays, and what is appended behind it in
the same process is acknowledged and never read.  Nor is a record whose length its header cannot
hold.
-/

namespace Vecvec

open Machinery

variable {P : Platform}

/-! ## A log cut anywhere -/

/-- **A log cut anywhere and reopened.**  Of the records appended to an empty log, exactly those
whose frames lie whole before the cut are read, the file ends where they do, opening it again
changes nothing, and records appended then are read after them. -/
theorem torn_log_reopens {ops more : List WalOp} (hops : ∀ op ∈ ops, op.Fits P)
    (hmore : ∀ op ∈ more, op.Fits P) {log f : WalFile} {c : ℕ}
    (hlog : log = ops.foldl (WalFile.append P) (WalFile.opened P none))
    (hc : c ≤ log.bytes.length) (hf : f = WalFile.opened P (some (log.setLen c))) :
    ∃ n ≤ ops.length,
      (∀ k ≤ ops.length, (walFrames P (ops.take k)).length ≤ c ↔ k ≤ n) ∧
      (readRecords P f.bytes).1 = ops.take n ∧
      f.bytes = walFrames P (ops.take n) ∧
      WalFile.opened P (some f) = f ∧
      (readRecords P (WalFile.opened P (some (more.foldl (WalFile.append P) f))).bytes).1 =
        ops.take n ++ more := by
  have hbytes : log.bytes = walFrames P ops := by
    rw [hlog, WalFile.bytes_foldl_append]
    rfl
  have hcut : (log.setLen c).bytes = (walFrames P ops).take c := by
    rw [WalFile.bytes_setLen, hbytes]
  rw [hbytes] at hc
  obtain ⟨l, ⟨l', rfl⟩, hread, htake⟩ := @readRecords_torn P [] ops (by simp) hops _
    (List.take_prefix c (walFrames P ops))
  rw [walFrames_nil, List.nil_append, List.nil_append] at hread htake
  have hfits : ∀ op ∈ l, op.Fits P := fun op hop => hops op (List.mem_append_left _ hop)
  have hfb : f.bytes = walFrames P l := by
    rw [hf, WalFile.bytes_opened, hcut, hread]
    exact htake
  have hreadf : readRecords P f.bytes = (l, (walFrames P l).length) := by
    rw [hfb]
    exact readRecords_frames hfits
  refine ⟨l.length, by simp, fun k hk => ⟨fun hkc => ?_, fun hkl => ?_⟩, ?_, ?_, ?_, ?_⟩
  · -- The first `k` records lie whole before the cut, so the reader gets past them.
    have hpre : walFrames P ((l ++ l').take k) <+: (walFrames P (l ++ l')).take c :=
      List.prefix_take_iff.mpr ⟨walFrames_mono (List.take_prefix _ _), hkc⟩
    obtain ⟨rest, hrest⟩ := hpre
    rw [← hrest, readRecords_frames_append fun op hop =>
      hops op (List.mem_of_mem_take hop)] at hread
    have hlen := congrArg (fun x => x.1.length) hread
    simp only [List.length_append, List.length_take] at hlen
    rw [List.length_append] at hk
    omega
  · have hlc : (walFrames P l).length ≤ c := by
      rw [← htake]
      exact (List.length_take_le' _ _).trans (List.length_take_le _ _)
    rw [List.take_append_of_le_length hkl]
    exact ((walFrames_mono (List.take_prefix _ _)).length_le).trans hlc
  · rw [hreadf, List.take_left']
    rfl
  · rw [hfb, List.take_left']
    rfl
  · exact WalFile.setLen_of_length_le (by rw [hreadf, hfb])
  · have happ : (more.foldl (WalFile.append P) f).bytes = walFrames P (l ++ more) := by
      rw [WalFile.bytes_foldl_append, hfb, walFrames_append]
    have hall : ∀ op ∈ l ++ more, op.Fits P := List.forall_mem_append.mpr ⟨hfits, hmore⟩
    have hopen : WalFile.opened P (some (more.foldl (WalFile.append P) f)) =
        more.foldl (WalFile.append P) f :=
      WalFile.setLen_of_length_le (by rw [happ, readRecords_frames hall])
    rw [hopen, happ, readRecords_frames hall, List.take_left']
    rfl

/-- The short records fit. -/
theorem Sample.fits_delete {id : GlobalId} (hid : id < 128) :
    (WalOp.delete id).Fits Sample.platform :=
  Sample.readable_iff.mpr (decide_eq_true hid)

/-- A log of two deletes, cut in the header of the second, reopened, and appended to. -/
theorem torn_log_reopens_sample :
    let log := [WalOp.delete 0, .delete 1].foldl (WalFile.append Sample.platform) ⟨[], []⟩
    let f := WalFile.opened Sample.platform (some (log.setLen 20))
    (readRecords Sample.platform f.bytes).1.length = 1 ∧
      ∃ n ≤ 2, (readRecords Sample.platform f.bytes).1 = [WalOp.delete 0, .delete 1].take n ∧
        (readRecords Sample.platform (WalFile.opened Sample.platform
          (some (f.append Sample.platform (.delete 2)))).bytes).1 =
            [WalOp.delete 0, .delete 1].take n ++ [.delete 2] := by
  obtain ⟨n, hn, -, hread, -, -, hmore⟩ := @torn_log_reopens Sample.platform
    [.delete 0, .delete 1] [.delete 2] (by simp [Sample.fits_delete]) (by simp [Sample.fits_delete])
    _ _ 20 rfl (by decide +kernel) rfl
  exact ⟨by decide +kernel, n, hn, hread, hmore⟩

/-! ## A log written with errors -/

/-- A call on an open log, and how it ended. -/
inductive WalCall
  /-- an append that returned `Ok` -/
  | append (op : WalOp)
  /-- an append that failed after this many bytes of its frame were written -/
  | appendFailed (op : WalOp) (written : ℕ)
  /-- a flush that returned `Ok` -/
  | flush
  /-- a flush that failed -/
  | flushFailed

/-- The call is a flush that returned `Ok`. -/
def WalCall.isFlush : WalCall → Bool
  | .flush => true
  | _ => false

variable (P)

/-- What a call leaves of the file: a failed append leaves the bytes it wrote. -/
def WalFile.perform (f : WalFile) : WalCall → WalFile
  | .append op => f.append P op
  | .appendFailed op written => { f with pending := f.pending ++ (walFrame P op).take written }
  | .flush => f.flush
  | .flushFailed => f

/-- The acknowledged records: appended, and flushed later. -/
def acked : List WalCall → List WalOp
  | [] => []
  | .append op :: cs => if cs.any WalCall.isFlush then op :: acked cs else acked cs
  | _ :: cs => acked cs

/-- Before the last acknowledged record, every record that is written whole fits, and a failed
append wrote its frame whole or not at all. -/
def Tidy : List WalCall → Prop
  | [] => True
  | .append op :: cs => (cs.any WalCall.isFlush → op.Fits P) ∧ Tidy cs
  | .appendFailed op written :: cs => (acked cs ≠ [] →
      written = 0 ∨ (walFrame P op).length ≤ written ∧ op.Fits P) ∧ Tidy cs
  | _ :: cs => Tidy cs

variable {P}

theorem acked_of_not_any_isFlush {cs : List WalCall} (h : ¬ cs.any WalCall.isFlush) :
    acked cs = [] := by
  induction cs with
  | nil => rfl
  | cons c cs ih =>
    rw [List.any_cons, Bool.or_eq_true, not_or] at h
    cases c with
    | append op => rw [acked, if_neg h.2, ih h.2]
    | _ => exact ih h.2

/-- What a crash leaves of a file begins with its flushed bytes. -/
theorem WalFile.Survives.durable_isPrefix {f f' : WalFile} (h : f.Survives f') :
    f.durable <+: f'.bytes := by
  obtain ⟨kept, -, rfl⟩ := h
  exact ⟨kept, by rw [bytes, List.append_nil]⟩

/-- The records `l` are read from any file that begins with their frames, once it is opened. -/
theorem isPrefix_readRecords_opened {l : List WalOp} (hl : ∀ op ∈ l, op.Fits P) {f : WalFile}
    (h : walFrames P l <+: f.bytes) : l <+:
      (readRecords P (WalFile.opened P (some f)).bytes).1 := by
  obtain ⟨rest, hrest⟩ := h
  rw [WalFile.bytes_opened, ← hrest, readRecords_frames_append hl, List.take_length_add_append,
    readRecords_frames_append hl]
  exact List.prefix_append _ _

/-- The run lemma.  The file holds the records `l` and then `junk`; there is none while an
acknowledged record is still to come, and `l` is flushed now or later. -/
theorem sublist_readRecords_of_tidy {cs : List WalCall} (hcs : Tidy P cs) {l : List WalOp}
    (hl : ∀ op ∈ l, op.Fits P) (f : WalFile) (junk : List UInt8) {f' : WalFile}
    (hf : f.bytes = walFrames P l ++ junk) (hjunk : acked cs ≠ [] → junk = [])
    (hflush : cs.any WalCall.isFlush ∨ walFrames P l <+: f.durable)
    (hs : (cs.foldl (WalFile.perform P) f).Survives f') :
    (l ++ acked cs).Sublist (readRecords P (WalFile.opened P (some f')).bytes).1 := by
  induction cs generalizing l f junk with
  | nil =>
    have hflush := hflush.resolve_left (by simp)
    rw [acked, List.append_nil]
    exact (isPrefix_readRecords_opened hl (hflush.trans hs.durable_isPrefix)).sublist
  | cons c cs ih =>
    cases c with
    | flush =>
      refine ih hcs hl f.flush junk (by rw [WalFile.bytes_flush, hf]) hjunk (.inr ?_) hs
      change walFrames P l <+: f.bytes
      rw [hf]
      exact List.prefix_append _ _
    | flushFailed =>
      exact ih hcs hl f junk hf hjunk (hflush.imp_left (by simp [WalCall.isFlush])) hs
    | append op =>
      by_cases hmem : cs.any WalCall.isFlush
      · -- The record is acknowledged: it joins the whole ones.
        rw [acked, if_pos hmem] at hjunk ⊢
        have hl' : ∀ o ∈ l ++ [op], o.Fits P :=
          List.forall_mem_append.mpr ⟨hl, by simpa using hcs.1 hmem⟩
        have := ih hcs.2 hl' (f.append P op) [] (by
          rw [WalFile.bytes_append, hf, hjunk (by simp), List.append_nil, List.append_nil,
            walFrames_append, walFrames_singleton]) (fun _ => rfl) (.inl hmem) hs
        rwa [List.append_assoc, List.singleton_append] at this
      · rw [acked, if_neg hmem]
        refine ih hcs.2 hl (f.append P op) (junk ++ walFrame P op) (by
          rw [WalFile.bytes_append, hf, List.append_assoc])
          (fun h => absurd (acked_of_not_any_isFlush hmem) h) ?_ hs
        exact .inr (hflush.resolve_left (by simpa [WalCall.isFlush] using hmem))
    | appendFailed op written =>
      set f₁ : WalFile := { f with pending := f.pending ++ (walFrame P op).take written } with hf₁
      have hb : f₁.bytes = f.bytes ++ (walFrame P op).take written := by
        rw [hf₁, WalFile.bytes, WalFile.bytes, List.append_assoc]
      have hflush : cs.any WalCall.isFlush ∨ walFrames P l <+: f₁.durable :=
        hflush.imp_left (by simp [WalCall.isFlush])
      by_cases hack : acked cs = []
      · exact ih hcs.2 hl f₁ (junk ++ (walFrame P op).take written)
          (by rw [hb, hf, List.append_assoc]) (fun h => absurd hack h) hflush hs
      rcases hcs.1 hack with rfl | ⟨hlen, hfits⟩
      · exact ih hcs.2 hl f₁ junk (by rw [hb, List.take_zero, List.append_nil, hf]) hjunk hflush hs
      · -- Its frame was written whole, so it is read although it was not acknowledged.
        have hl' : ∀ o ∈ l ++ [op], o.Fits P :=
          List.forall_mem_append.mpr ⟨hl, by simpa using hfits⟩
        have hmem : cs.any WalCall.isFlush := by
          by_contra h
          exact hack (acked_of_not_any_isFlush h)
        have := ih hcs.2 hl' f₁ [] (by
          rw [hb, hf, hjunk hack, List.take_of_length_le hlen, List.append_nil, List.append_nil,
            walFrames_append, walFrames_singleton]) (fun _ => rfl) (.inl hmem) hs
        exact ((List.sublist_append_left l [op]).append_right _).trans this

/-- **Acknowledged records are read after a reopen**, in order — if no append gave a record up
half-way before them. -/
theorem acked_readRecords {old : List WalOp} (hold : ∀ op ∈ old, op.Fits P) {calls : List WalCall}
    (htidy : Tidy P calls) {f' : WalFile}
    (hs : (calls.foldl (WalFile.perform P) ⟨walFrames P old, []⟩).Survives f') :
    (old ++ acked calls).Sublist (readRecords P (WalFile.opened P (some f')).bytes).1 :=
  sublist_readRecords_of_tidy htidy hold ⟨walFrames P old, []⟩ [] rfl (fun _ => rfl)
    (.inr List.prefix_rfl) hs

/-- An append that fails before it writes anything does no harm. -/
theorem acked_readRecords_sample :
    let calls : List WalCall := [.appendFailed (.delete 0) 0, .append (.delete 1), .flush]
    let f := calls.foldl (WalFile.perform Sample.platform) ⟨walFrames Sample.platform [], []⟩
    [WalOp.delete 1].Sublist
      (readRecords Sample.platform (WalFile.opened Sample.platform (some f)).bytes).1 :=
  @acked_readRecords Sample.platform [] (by simp)
    [.appendFailed (.delete 0) 0, .append (.delete 1), .flush]
    ⟨fun _ => .inl rfl, fun _ => Sample.fits_delete (by decide), trivial⟩ _
    ⟨[], List.nil_prefix, rfl⟩

/-- **A record acknowledged behind a torn one is lost.** -/
theorem acked_lost_behind_torn :
    let calls : List WalCall := [.appendFailed (.delete 0) 1, .append (.delete 1), .flush]
    let f := calls.foldl (WalFile.perform Sample.platform) ⟨walFrames Sample.platform [], []⟩
    acked calls = [.delete 1] ∧ f.Survives f ∧
      (readRecords Sample.platform (WalFile.opened Sample.platform (some f)).bytes).1 = [] :=
  ⟨rfl, ⟨[], List.nil_prefix, rfl⟩, by
    rw [← List.length_eq_zero_iff]
    decide +kernel⟩

/-! ## A record that does not fit -/

/-- There are strings of every length. -/
theorem exists_utf8ByteSize (n : ℕ) : ∃ s : String, s.utf8ByteSize = n := by
  induction n with
  | zero => exact ⟨"", String.utf8ByteSize_empty⟩
  | succ n ih =>
    obtain ⟨s, hs⟩ := ih
    exact ⟨s.push 'a', by rw [String.utf8ByteSize_push, hs]; rfl⟩

namespace Sample

/-- An upsert with a string of this length for a payload is a record one byte too long. -/
theorem exists_oversized (id : GlobalId) (hid : id < 128) : ∃ s : String,
    (platform.encode (.upsert id [0] (some (.string s)))).length = 2 ^ 32 := by
  obtain ⟨s, hs⟩ := exists_utf8ByteSize (2 ^ 32 - 21)
  refine ⟨s, ?_⟩
  have hlen : s.toByteArray.data.toList.length = s.utf8ByteSize := Array.length_toList
  change ((encodeShort _).getD _).length = _
  rw [encodeShort, if_pos ⟨hid, by omega, by omega⟩, Option.getD_some, List.length_append,
    List.length_append, hlen, length_upsertHead, List.length_cons, be32, List.length_reverse,
    RecordLog.length_toLe32]
  omega

/-- **A record of `2^32` bytes is not read**, nor is anything behind it: its header gives its length
as zero. -/
theorem readRecords_oversized {op : WalOp} (h : (platform.encode op).length = 2 ^ 32)
    (rest : List UInt8) : readRecords platform (walFrame platform op ++ rest) = ([], 0) := by
  have hhead := @RecordLog.scan_header _ platform.decode platform.crc32 (platform.encode op).length
    (platform.crc32 (platform.encode op)).toNat (platform.encode op ++ rest)
  rw [h, Nat.mod_self, if_neg (Nat.not_lt_zero _), List.take_zero] at hhead
  rw [readRecords, walFrame, RecordLog.frame, List.append_assoc, h, hhead]
  have hnil : platform.decode [] = none := decode_nil
  rw [hnil]
  split <;> rfl

end Sample

end Vecvec
