import Vecvec.Collection.Calls

/-!
# Durable/State — a durable collection: its disk, its process, their atomic actions

A directory holds the `HEAD` of the last checkpoint, the `versions` file, one file per sealed
segment and numbered generations of the log.  `write_atomic` replaces a file all at once, and a file
written through it is modelled by the value that was encoded in it, which a reader gets back or
fails to decode (`readBack`); only the log is modelled by its bytes.
-/

namespace Vecvec

open Machinery

/-- The directory of a collection. -/
structure Disk where
  /-- The `config` file. -/
  config : Option CollectionConfig
  /-- The `HEAD` file. -/
  head : Option CheckpointHead
  /-- The `versions` file. -/
  versions : Option VersionStoreSnapshot
  /-- The segment files, by id: the rows they hold. -/
  segments : SegmentId → Option (List Row)
  /-- The log files, by generation. -/
  wals : ℕ → Option WalFile

namespace Disk

/-- An empty directory. -/
def empty : Disk := ⟨none, none, none, fun _ => none, fun _ => none⟩

/-- The directory with the log file of a generation replaced. -/
def setWal (d : Disk) (generation : ℕ) (f : Option WalFile) : Disk :=
  { d with wals := Function.update d.wals generation f }

/-- The directory with the file of a segment replaced. -/
def setSegment (d : Disk) (id : SegmentId) (rows : Option (List Row)) : Disk :=
  { d with segments := Function.update d.segments id rows }

/-- What a crash may leave of a directory: of each log file, its flushed bytes and a prefix of the
others; of everything else, what is there. -/
def Survives (d d' : Disk) : Prop :=
  d'.config = d.config ∧ d'.head = d.head ∧ d'.versions = d.versions ∧ d'.segments = d.segments ∧
    ∀ g, (d.wals g = none ∧ d'.wals g = none) ∨
      ∃ f f', d.wals g = some f ∧ d'.wals g = some f' ∧ f.Survives f'

end Disk

/-- A file decoded: absent, the value that was written, or an error. -/
def readBack {α : Type} (reads : α → Bool) : Option α → Except CoreError (Option α)
  | none => .ok none
  | some a => if reads a then .ok (some a) else .error .serialization

theorem readBack_of_all {α : Type} {reads : α → Bool} {o : Option α} (h : o.all reads) :
    readBack reads o = .ok o := by
  cases o with
  | none => rfl
  | some a => exact if_pos h

theorem readBack_of_not {α : Type} {reads : α → Bool} {o : Option α} (h : ¬ o.all reads) :
    readBack reads o = .error .serialization := by
  cases o with
  | none => exact absurd rfl h
  | some a => exact if_neg h

/-- When the log is flushed. -/
inductive FsyncMode
  | sync
  | async
  deriving DecidableEq

/-- A directory and the process that has it open. -/
structure World where
  /-- The directory. -/
  disk : Disk
  /-- The in-memory collection. -/
  collection : Collection
  /-- The generation of the open log (`WalState`). -/
  generation : ℕ
  /-- The call that holds the log's mutex. -/
  walHolder : Option ℕ
  /-- When the log is flushed. -/
  fsync : FsyncMode
  /-- Progress towards the next automatic commit. -/
  trigger : TriggerEvaluator
  /-- The segment ids already written to disk. -/
  persistedSegments : Finset SegmentId
  /-- The successive readings of the wall clock. -/
  clock : ℕ → ℕ
  /-- How many readings have been taken. -/
  ticks : ℕ

/-- The atomic actions of a durable collection. -/
inductive DurableOp
  /-- an action of the in-memory collection -/
  | collection (o : CollectionOp)
  /-- `wal.lock()` -/
  | lockWal
  /-- the end of a held `wal.lock()` -/
  | unlockWal
  /-- `Wal::append` -/
  | walAppend (op : WalOp)
  /-- the flush of a write, in `FsyncMode::Sync` -/
  | walFlush
  /-- the generation held under the log's mutex -/
  | walGeneration
  /-- `Wal::open` on a generation -/
  | openWal (generation : ℕ)
  /-- `Wal::read_all` on a generation -/
  | readWal (generation : ℕ)
  /-- puts a generation in place of the open one -/
  | switchWal (generation : ℕ)
  /-- `remove_file` on a generation -/
  | removeWal (generation : ℕ)
  /-- `persisted_segments.lock().contains(id)` -/
  | persistedContains (id : SegmentId)
  /-- `persisted_segments.lock().insert(id)` -/
  | persistedInsert (id : SegmentId)
  /-- `persisted_segments.lock().remove(id)` -/
  | persistedRemove (id : SegmentId)
  /-- `SegmentStore::write_sealed` -/
  | writeSealed (seg : SealedSegment)
  /-- `SegmentStore::remove` -/
  | removeSegment (id : SegmentId)
  /-- `SegmentStore::load` -/
  | loadSegment (id : SegmentId)
  /-- `write_atomic` on the versions file -/
  | writeVersions (snapshot : VersionStoreSnapshot)
  /-- reads the versions file, if it exists, and decodes it -/
  | readVersions
  /-- `write_atomic` on `HEAD` -/
  | writeHead (head : CheckpointHead)
  /-- reads `HEAD`, if it exists, and decodes it -/
  | readHead
  /-- `write_config_if_absent` -/
  | writeConfigIfAbsent
  /-- `trigger.lock()`: records writes and asks whether to commit -/
  | recordWritesAndCheck (n : ℕ)
  /-- `trigger.lock()`: records writes and notes an explicit commit -/
  | recordWritesAndNote (n : ℕ)
  /-- `trigger.lock()`: notes an automatic commit -/
  | noteCommit

/-- What an action of a durable collection answers. -/
@[reducible] def DurableOp.Ret : DurableOp → Type
  | collection o => o.Ret
  | lockWal => Unit
  | unlockWal => Unit
  | walAppend _ => Unit
  | walFlush => Unit
  | walGeneration => ℕ
  | openWal _ => Unit
  | readWal _ => List WalOp
  | switchWal _ => Unit
  | removeWal _ => Unit
  | persistedContains _ => Bool
  | persistedInsert _ => Unit
  | persistedRemove _ => Unit
  | writeSealed _ => Unit
  | removeSegment _ => Unit
  | loadSegment _ => Option SealedSegment
  | writeVersions _ => Unit
  | readVersions => Except CoreError (Option VersionStoreSnapshot)
  | writeHead _ => Unit
  | readHead => Except CoreError (Option CheckpointHead)
  | writeConfigIfAbsent => Unit
  | recordWritesAndCheck _ => Bool
  | recordWritesAndNote _ => Unit
  | noteCommit => Unit

/-- The interface of a durable collection. -/
@[reducible] def durableInterface : Interface := ⟨DurableOp, DurableOp.Ret⟩

/-- A call on a durable collection. -/
abbrev DurableProg := Prog durableInterface

namespace World

/-- The process at the start of `open`: an empty collection and a fresh trigger. -/
def boot (d : Disk) (cfg : CollectionConfig) (fsync : FsyncMode) (clock : ℕ → ℕ) : World where
  disk := d
  collection := .create
  generation := 0
  walHolder := none
  fsync := fsync
  trigger := .new cfg.versioning (clock 0)
  persistedSegments := ∅
  clock := clock
  ticks := 1

/-- The clock's next reading. -/
def now (w : World) : ℕ := w.clock w.ticks

/-- What an action of caller `t` does; `none` while it waits for a lock. -/
def step (P : Platform) (cfg : CollectionConfig) : Handler durableInterface World
  | t, .collection o, w =>
    (w.collection.step P cfg t o).map fun r => (r.1, { w with collection := r.2 })
  | t, .lockWal, w => if w.walHolder = none then some ((), { w with walHolder := some t }) else none
  | _, .unlockWal, w => some ((), { w with walHolder := none })
  | _, .walAppend op, w => some ((),
      { w with
        disk :=
          w.disk.setWal w.generation ((w.disk.wals w.generation).map fun f => f.append P op) })
  | _, .walFlush, w => some ((),
      match w.fsync with
      | .sync =>
        { w with disk := w.disk.setWal w.generation ((w.disk.wals w.generation).map .flush) }
      | .async => w)
  | _, .walGeneration, w => some (w.generation, w)
  | _, .openWal g, w => some ((),
      { w with disk := w.disk.setWal g (some (WalFile.opened P (w.disk.wals g))) })
  | _, .readWal g, w => some (((w.disk.wals g).elim [] fun f => (readRecords P f.bytes).1), w)
  | _, .switchWal g, w => some ((), { w with generation := g })
  | _, .removeWal g, w => some ((), { w with disk := w.disk.setWal g none })
  | _, .persistedContains id, w => some (decide (id ∈ w.persistedSegments), w)
  | _, .persistedInsert id, w => some ((),
      { w with persistedSegments := insert id w.persistedSegments })
  | _, .persistedRemove id, w => some ((),
      { w with persistedSegments := w.persistedSegments.erase id })
  | _, .writeSealed seg, w => some ((),
      { w with disk := w.disk.setSegment seg.id (some seg.rows) })
  | _, .removeSegment id, w => some ((),
      { w with disk := w.disk.setSegment id none })
  | _, .loadSegment id, w => some ((w.disk.segments id).map fun rows => ⟨id, rows⟩, w)
  | _, .writeVersions s, w => some ((), { w with disk.versions := some s })
  | _, .readVersions, w => some (readBack P.versionsRead w.disk.versions, w)
  | _, .writeHead h, w => some ((), { w with disk.head := some h })
  | _, .readHead, w => some (readBack P.headReads w.disk.head, w)
  | _, .writeConfigIfAbsent, w => some ((),
      { w with disk.config := some (w.disk.config.getD cfg) })
  | _, .recordWritesAndCheck n, w =>
      let trigger := w.trigger.recordWrites n
      some (trigger.shouldCommit w.now, { w with trigger := trigger, ticks := w.ticks + 1 })
  | _, .recordWritesAndNote n, w => some ((),
      { w with trigger := (w.trigger.recordWrites n).noteCommit w.now, ticks := w.ticks + 1 })
  | _, .noteCommit, w => some ((),
      { w with trigger := w.trigger.noteCommit w.now, ticks := w.ticks + 1 })

end World

end Vecvec
