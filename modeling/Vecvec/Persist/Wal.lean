import Vecvec.Machinery.RecordLog
import Vecvec.Version.Store

/-!
# Persist/Wal — the write-ahead log

Every mutation is appended here, and flushed, before it is acknowledged and before it is applied in
memory.  On disk the log is a `RecordLog` of MessagePack payloads.
-/

namespace Vecvec

open Machinery

/-- A logged mutation. -/
inductive WalOp
  | upsert (id : GlobalId) (vector : List F32) (payload : Option Payload)
  | delete (id : GlobalId)

/-- The persisted pointer to the latest checkpoint (the `HEAD` file). -/
structure CheckpointHead where
  /-- The log generation to replay on top. -/
  walGeneration : ℕ
  /-- The segments of the working set at the checkpoint. -/
  workingSegmentIds : List SegmentId
  /-- Every segment the checkpoint persisted. -/
  allSegmentIds : List SegmentId
  /-- The global-id allocator. -/
  nextGlobalId : GlobalId
  /-- The segment-id allocator. -/
  nextSegmentId : SegmentId
  /-- The live tombstones. -/
  deletions : DeletionVector
  /-- The payloads. -/
  payloads : PayloadMap

/-- What the engine takes from outside: the MessagePack codec, CRC-32, and the floating-point
kernels.  Nothing says that decoding undoes encoding: the real decoder refuses a payload that is
nested too deep, and reads a `null` payload as none. -/
structure Platform where
  /-- `rmp_serde::to_vec` at `WalOp`. -/
  encode : WalOp → List UInt8
  /-- `rmp_serde::from_slice` at `WalOp`. -/
  decode : List UInt8 → Option WalOp
  /-- Whether `rmp_serde::from_slice` gives back the `HEAD` that `to_vec` wrote, or an error. -/
  headReads : CheckpointHead → Bool
  /-- Whether `rmp_serde::from_slice` gives back the versions file that `to_vec` wrote, or an
  error. -/
  versionsRead : VersionStoreSnapshot → Bool
  /-- `crc32fast::hash`. -/
  crc32 : List UInt8 → UInt32
  /-- `l2_normalize`. -/
  l2Normalize : List F32 → List F32
  /-- `DistanceKernel::score_f32`: the raw score of a query against a stored vector. -/
  scoreF32 : Metric → List F32 → List F32 → F32

/-- A log file: the bytes a power loss keeps, and those written since the last flush. -/
structure WalFile where
  /-- Bytes that have been flushed. -/
  durable : List UInt8
  /-- Bytes written and not yet flushed: a crash keeps an arbitrary prefix of them. -/
  pending : List UInt8

namespace WalFile

/-- The file as a running process reads it. -/
def bytes (f : WalFile) : List UInt8 := f.durable ++ f.pending

/-- The file cut to its first `n` bytes (`set_len`). -/
def setLen (f : WalFile) (n : ℕ) : WalFile :=
  ⟨f.durable.take n, f.pending.take (n - f.durable.length)⟩

/-- What a crash may leave of a file. -/
def Survives (f f' : WalFile) : Prop :=
  ∃ kept, kept <+: f.pending ∧ f' = ⟨f.durable ++ kept, []⟩

end WalFile

variable (P : Platform)

/-- The framed bytes `Wal::append` writes for `op`. -/
def walFrame (op : WalOp) : List UInt8 := RecordLog.frame P.encode P.crc32 op

/-- The bytes of a log of records. -/
def walFrames (ops : List WalOp) : List UInt8 := RecordLog.frames P.encode P.crc32 ops

/-- `read_records`: the valid records of a log file, and the offset of the end of the last one. -/
def readRecords (bytes : List UInt8) : List WalOp × ℕ := RecordLog.scan P.decode P.crc32 bytes

/-- The record is one a reader gives back: its length fits the four bytes its header has for it, and
its payload decodes to it. -/
def WalOp.Fits (op : WalOp) : Prop := RecordLog.Readable P.encode P.decode op

namespace WalFile

/-- `Wal::open` on a path: absent is an empty log, and a torn tail is cut off. -/
def opened (f : Option WalFile) : WalFile :=
  match f with
  | none => ⟨[], []⟩
  | some f => f.setLen (readRecords P f.bytes).2

/-- `Wal::append`. -/
def append (f : WalFile) (op : WalOp) : WalFile := { f with pending := f.pending ++ walFrame P op }

/-- `Wal::flush`. -/
def flush (f : WalFile) : WalFile := ⟨f.durable ++ f.pending, []⟩

@[simp] theorem bytes_append (f : WalFile) (op : WalOp) :
    (f.append P op).bytes = f.bytes ++ walFrame P op := by
  simp [bytes, append]

@[simp] theorem bytes_flush (f : WalFile) : f.flush.bytes = f.bytes := by simp [bytes, flush]

@[simp] theorem pending_flush (f : WalFile) : f.flush.pending = [] := rfl

theorem bytes_setLen (f : WalFile) (n : ℕ) : (f.setLen n).bytes = f.bytes.take n := by
  rw [bytes, setLen, bytes, List.take_append]

end WalFile

variable {P}

@[simp] theorem walFrames_nil : walFrames P [] = [] := rfl

theorem walFrames_append (ops ops' : List WalOp) :
    walFrames P (ops ++ ops') = walFrames P ops ++ walFrames P ops' :=
  RecordLog.frames_append _ _

theorem walFrames_singleton (op : WalOp) : walFrames P [op] = walFrame P op :=
  List.flatMap_singleton _ _

/-- **A log of records that fit reads back as itself.** -/
theorem readRecords_frames {ops : List WalOp} (h : ∀ op ∈ ops, op.Fits P) :
    readRecords P (walFrames P ops) = (ops, (walFrames P ops).length) :=
  RecordLog.scan_frames h

/-- **A torn log reads back as a prefix of its records**: those before the tear. -/
theorem readRecords_torn {old new : List WalOp} (hold : ∀ op ∈ old, op.Fits P)
    (hnew : ∀ op ∈ new, op.Fits P) {kept : List UInt8} (hk : kept <+: walFrames P new) :
    ∃ l, l <+: new ∧
      readRecords P (walFrames P old ++ kept) = (old ++ l, (walFrames P (old ++ l)).length) ∧
      (walFrames P old ++ kept).take (walFrames P (old ++ l)).length = walFrames P (old ++ l) := by
  obtain ⟨l, hl, hscan, htake⟩ := RecordLog.scan_frames_prefix hnew hk
  refine ⟨l, hl, ?_, ?_⟩
  · rw [readRecords, walFrames, RecordLog.scan_frames_append hold, hscan,
      walFrames_append, List.length_append]
    rfl
  · rw [walFrames_append, List.length_append, List.take_length_add_append]
    exact congrArg _ htake

/-! ## Reading past whole records -/

/-- Whole records at the front are read, whatever follows. -/
theorem readRecords_frames_append {ops : List WalOp} (h : ∀ op ∈ ops, op.Fits P)
    (rest : List UInt8) :
    readRecords P (walFrames P ops ++ rest) =
      (ops ++ (readRecords P rest).1,
        (walFrames P ops).length + (readRecords P rest).2) :=
  RecordLog.scan_frames_append h rest

theorem walFrames_mono {l ops : List WalOp} (h : l <+: ops) :
    walFrames P l <+: walFrames P ops := by
  obtain ⟨l', rfl⟩ := h
  rw [walFrames_append]
  exact List.prefix_append _ _

namespace WalFile

@[simp] theorem bytes_foldl_append (ops : List WalOp) (f : WalFile) :
    (ops.foldl (WalFile.append P) f).bytes = f.bytes ++ walFrames P ops := by
  induction ops generalizing f with
  | nil => simp
  | cons op ops ih =>
    rw [List.foldl_cons, ih, bytes_append, List.append_assoc, ← walFrames_singleton,
      ← walFrames_append, List.singleton_append]

/-- Opening cuts a file to the records it reads. -/
theorem bytes_opened (f : WalFile) :
    (WalFile.opened P (some f)).bytes = f.bytes.take (readRecords P f.bytes).2 :=
  bytes_setLen f _

/-- A file that is not longer is not cut. -/
theorem setLen_of_length_le {f : WalFile} {n : ℕ} (h : f.bytes.length ≤ n) : f.setLen n = f := by
  rw [bytes, List.length_append] at h
  rw [setLen, List.take_of_length_le (by omega), List.take_of_length_le (by omega)]

/-- Nothing pending, nothing lost. -/
theorem survives_of_flushed {f f' : WalFile} (hf : f.pending = []) (h : f.Survives f') :
    f' = f := by
  obtain ⟨kept, hk, rfl⟩ := h
  rw [hf, List.prefix_nil] at hk
  subst hk
  cases f
  cases hf
  simp

end WalFile

/-- A frame cut short holds no record. -/
theorem readRecords_of_length_lt {op : WalOp} (h : op.Fits P) {kept : List UInt8}
    (hk : kept <+: walFrame P op) (hlt : kept.length < (walFrame P op).length) :
    (readRecords P kept).1 = [] := by
  rw [← walFrames_singleton] at hk hlt
  obtain ⟨l, hl, hread, htake⟩ := @readRecords_torn P [] [op] (by simp) (by simpa using h) kept hk
  rw [walFrames_nil, List.nil_append, List.nil_append] at hread htake
  rw [hread]
  cases l with
  | nil => rfl
  | cons a l =>
    -- The whole frame would be there.
    obtain ⟨rfl, hnil⟩ := List.cons_prefix_cons.mp hl
    obtain rfl := List.prefix_nil.mp hnil
    have hlen := congrArg List.length htake
    rw [List.length_take] at hlen
    omega

/-! ## Files that are read to their end -/

namespace WalFile

variable (P) in
/-- The records a reader finds in a file. -/
def records (f : WalFile) : List WalOp := (readRecords P f.bytes).1

variable (P) in
/-- A reader reads the file to its end: nothing appended would stand behind bytes it skips. -/
def Whole (f : WalFile) : Prop := (readRecords P f.bytes).2 = f.bytes.length

variable {f f' : WalFile} {ops : List WalOp}

/-- **A file just opened is read to its end.** -/
theorem whole_opened (o : Option WalFile) : (WalFile.opened P o).Whole P := by
  cases o with
  | none => rfl
  | some f =>
    have h := @RecordLog.scan_take_append _ P.decode P.crc32 f.bytes []
    rw [List.append_nil] at h
    rw [Whole, bytes_opened, readRecords, readRecords, h, List.length_take,
      Nat.min_eq_left (RecordLog.scan_snd_le f.bytes)]
    rfl

/-- Opening a file loses no record. -/
theorem records_opened (f : WalFile) : (WalFile.opened P (some f)).records P = f.records P := by
  have h := @RecordLog.scan_take_append _ P.decode P.crc32 f.bytes []
  rw [List.append_nil] at h
  rw [records, bytes_opened, readRecords, readRecords, h]
  exact List.append_nil _

theorem Whole.opened (h : f.Whole P) : WalFile.opened P (some f) = f :=
  setLen_of_length_le (Nat.le_of_eq h.symm)

/-- What is written behind a file that is read to its end is read as if it stood alone. -/
theorem Whole.readRecords_append (h : f.Whole P) (rest : List UInt8) :
    readRecords P (f.bytes ++ rest) =
      (f.records P ++ (readRecords P rest).1, f.bytes.length + (readRecords P rest).2) := by
  have happ := @RecordLog.scan_take_append _ P.decode P.crc32 f.bytes rest
  change RecordLog.scan P.decode P.crc32
    (f.bytes.take (readRecords P f.bytes).2 ++ rest) = _ at happ
  rw [h, List.take_length] at happ
  rw [readRecords, happ, ← h]
  rfl

theorem Whole.records_foldl_append (h : f.Whole P) (hops : ∀ op ∈ ops, op.Fits P) :
    (ops.foldl (WalFile.append P) f).records P = f.records P ++ ops := by
  rw [records, bytes_foldl_append, h.readRecords_append, readRecords_frames hops]

/-- **Appending records that fit** leaves a file that is read to its end. -/
theorem Whole.foldl_append (h : f.Whole P) (hops : ∀ op ∈ ops, op.Fits P) :
    (ops.foldl (WalFile.append P) f).Whole P := by
  rw [Whole, bytes_foldl_append, h.readRecords_append, readRecords_frames hops,
    List.length_append]

theorem Whole.flush (h : f.Whole P) : f.flush.Whole P := by
  rwa [Whole, bytes_flush]

@[simp] theorem records_flush (f : WalFile) : f.flush.records P = f.records P := by
  rw [records, bytes_flush, records]

@[simp] theorem durable_foldl_append (ops : List WalOp) (f : WalFile) :
    (ops.foldl (WalFile.append P) f).durable = f.durable := by
  induction ops generalizing f with
  | nil => rfl
  | cons op ops ih => exact ih _

/-- **Unflushed records, torn by a crash**: a prefix of them is read. -/
theorem Whole.records_survives (h : f.Whole P) (hf : f.pending = [])
    (hops : ∀ op ∈ ops, op.Fits P) (hs : (ops.foldl (WalFile.append P) f).Survives f') :
    ∃ l, l <+: ops ∧ f'.records P = f.records P ++ l := by
  obtain ⟨kept, hk, rfl⟩ := hs
  have hb : f.bytes = f.durable := by rw [bytes, hf, List.append_nil]
  have hpend : (ops.foldl (WalFile.append P) f).pending = walFrames P ops := by
    have := @bytes_foldl_append P ops f
    rw [bytes, durable_foldl_append, hb] at this
    exact List.append_cancel_left this
  rw [hpend] at hk
  obtain ⟨l, hl, hread, -⟩ := @readRecords_torn P [] ops (by simp) hops kept hk
  refine ⟨l, hl, ?_⟩
  have happ := h.readRecords_append kept
  rw [walFrames_nil, List.nil_append, List.nil_append] at hread
  rw [hread, hb] at happ
  rw [records, bytes, List.append_nil, durable_foldl_append, happ]

end WalFile

end Vecvec
