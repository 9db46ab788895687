import Vecvec.Durable.State

/-!
# Durable/Calls — the operations of a durable collection, as programs

Each definition is one method of the source, its atomic actions and disk effects in the source's
order.
-/

namespace Vecvec

open Machinery DurableOp

namespace Durable

/-- Performs one action of a durable collection. -/
abbrev perform (o : DurableOp) : DurableProg o.Ret := @Prog.perform durableInterface o

/-- A call on the in-memory collection (`self.collection`). -/
def inMemory {α : Type} (p : CollectionProg α) : DurableProg α :=
  p.lift DurableOp.collection fun _ r => r

/-- `segment_ids_to_persist`: the working set, and everything a version references. -/
def segmentIdsToPersist : DurableProg (List SegmentId) := do
  let working ← inMemory (Collection.perform .loadWorking)
  let referenced ← inMemory (Collection.perform .referencedSegments)
  return sortedIds (working.map SealedSegment.id ++ referenced)

/-- `get_segment`. -/
def getSegment (id : SegmentId) : DurableProg (Option SealedSegment) := do
  let segs ← inMemory (Collection.perform (.registeredSegments [id]))
  return segs.head?

/-- Writes one segment of a commit to disk, unless that was done before. -/
def persistSegment (id : SegmentId) : DurableProg PUnit := do
  if ← perform (persistedContains id) then
    return ()
  else
    match ← getSegment id with
    | some seg =>
      perform (writeSealed seg)
      perform (persistedInsert id)
    | none => return ()

/-- `persist_versions`: the segments not yet on disk, then the versions file. -/
def persistVersions : DurableProg PUnit := do
  (← segmentIdsToPersist).forM persistSegment
  let snapshot ← inMemory (Collection.perform .versionSnapshot)
  perform (writeVersions snapshot)

/-- The outcome of a write batch. -/
structure WriteBatchResult where
  /-- The ids of the upserted vectors, in input order. -/
  ids : List GlobalId
  /-- How many deletes were newly applied. -/
  deleted : ℕ
  /-- The version created, if any. -/
  version : Option VersionId

/-- The records `write_batch` logs for its upserts, under freshly allocated ids. -/
def logUpserts : List (List F32 × Option Payload) → DurableProg (List GlobalId)
  | [] => return []
  | (v, p) :: rest => do
    let id ← inMemory Collection.alloc
    perform (walAppend (.upsert id v p))
    let ids ← logUpserts rest
    return id :: ids

/-- The deletes of a batch, applied in memory: how many were new. -/
def applyDeletes : List GlobalId → DurableProg ℕ
  | [] => return 0
  | id :: rest => do
    let newly ← inMemory (Collection.delete id)
    let n ← applyDeletes rest
    return (if newly then 1 else 0) + n

/-- The upserts of a batch, applied in memory. -/
def applyUpserts (cfg : CollectionConfig) :
    List (GlobalId × List F32 × Option Payload) → DurableProg (Except CoreError Unit)
  | [] => return .ok ()
  | (id, v, p) :: rest => do
    match ← inMemory (Collection.insertWithIdAndPayload cfg id v p) with
    | .error e => return .error e
    | .ok () => applyUpserts cfg rest

/-- The version bookkeeping that follows a batch, outside the log's mutex. -/
def afterBatch (count : ℕ) (explicit : Option VersionId) : DurableProg (Option VersionId) := do
  match explicit with
  | some v =>
    perform (recordWritesAndNote count)
    return some v
  | none =>
    if ← perform (recordWritesAndCheck count) then
      let v ← inMemory (Collection.commit "auto" none none)
      perform noteCommit
      persistVersions
      return some v
    else
      return none

/-- `write_batch`: logs deletes then upserts, flushes once, applies them in memory, commits if asked
to — all under the log's mutex — and then sees to the automatic commit. -/
def writeBatch (cfg : CollectionConfig) (upserts : List (List F32 × Option Payload))
    (deletes : List GlobalId) (commit : Option (Option String × Option String)) :
    DurableProg (Except CoreError WriteBatchResult) := do
  match upserts.find? fun u => u.1.length ≠ cfg.dim with
  | some u => return .error (.dimensionMismatch cfg.dim u.1.length)
  | none =>
    perform lockWal
    deletes.forM fun id => perform (walAppend (.delete id))
    let ids ← logUpserts upserts
    perform walFlush
    let deleted ← applyDeletes deletes
    match ← applyUpserts cfg (ids.zip upserts) with
    | .error e =>
      perform unlockWal
      return .error e
    | .ok () =>
      let explicit ← match commit with
        | some (message, tag) => do
          let v ← inMemory (Collection.commit "batch" message tag)
          persistVersions
          pure (some v)
        | none => pure none
      perform unlockWal
      let version ← afterBatch ids.length explicit
      return .ok ⟨ids, deleted, version⟩

/-- `upsert`. -/
def upsert (cfg : CollectionConfig) (points : List (List F32 × Option Payload)) :
    DurableProg (Except CoreError (List GlobalId)) := do
  match ← writeBatch cfg points [] none with
  | .ok r => return .ok r.ids
  | .error e => return .error e

/-- `delete`: logs a tombstone, flushes it, and applies it. -/
def delete (id : GlobalId) : DurableProg Bool := do
  perform lockWal
  perform (walAppend (.delete id))
  perform walFlush
  let newly ← inMemory (Collection.delete id)
  perform unlockWal
  return newly

/-- `commit`. -/
def commit (message tag : Option String) : DurableProg VersionId := do
  let v ← inMemory (Collection.commit "manual" message tag)
  persistVersions
  return v

/-- `restore`. -/
def restore (v : VersionId) : DurableProg (Except CoreError VersionId) := do
  match ← inMemory (Collection.restore v) with
  | .error e => return .error e
  | .ok w =>
    persistVersions
    return .ok w

/-- `create_tag`. -/
def createTag (name : String) (v : VersionId) : DurableProg (Except CoreError Unit) := do
  match ← inMemory (Collection.createTag name v) with
  | .error e => return .error e
  | .ok () =>
    persistVersions
    return .ok ()

/-- `create_branch`. -/
def createBranch (name : String) (v : VersionId) : DurableProg (Except CoreError Unit) := do
  match ← inMemory (Collection.createBranch name v) with
  | .error e => return .error e
  | .ok () =>
    persistVersions
    return .ok ()

/-- The segments a checkpoint writes, whatever was written before; the ids written. -/
def checkpointSegments : List SegmentId → DurableProg (List SegmentId)
  | [] => return []
  | id :: rest => do
    match ← getSegment id with
    | some seg =>
      perform (writeSealed seg)
      perform (persistedInsert id)
      let ids ← checkpointSegments rest
      return id :: ids
    | none => checkpointSegments rest

/-- `checkpoint`: seal, persist every segment, open the next log generation, swing `HEAD` to it,
retire the old one — all under the log's mutex. -/
def checkpoint : DurableProg PUnit := do
  perform lockWal
  let _ ← inMemory Collection.sealAppendable
  let working ← inMemory (Collection.perform .loadWorking)
  let all ← checkpointSegments (← segmentIdsToPersist)
  let old ← perform walGeneration
  perform (openWal (old + 1))
  let nextGlobal ← inMemory (Collection.perform .nextGlobalIdValue)
  let nextSegment ← inMemory (Collection.perform .nextSegmentIdValue)
  let deletions ← inMemory (Collection.perform .loadDeletions)
  let payloads ← inMemory (Collection.perform .payloadsSnapshot)
  perform (writeHead
    ⟨old + 1, working.map SealedSegment.id, all, nextGlobal, nextSegment, deletions, payloads⟩)
  perform (switchWal (old + 1))
  perform (removeWal old)
  perform unlockWal

/-- `compact`: merges the working segments and checkpoints. -/
def compact (P : Platform) (cfg : CollectionConfig) : DurableProg (Option SegmentId) := do
  match ← inMemory (Collection.compact P cfg) with
  | none => return none
  | some id =>
    checkpoint
    return some id

/-- Deletes the files of dropped segments. -/
def removeSegments (ids : List SegmentId) : DurableProg PUnit :=
  ids.forM fun id => do
    perform (removeSegment id)
    perform (persistedRemove id)

/-- `gc`: drops versions and segments in memory, deletes the dropped segments' files, and rewrites
the versions file. -/
def gc (rules : RetentionRules) : DurableProg (List SegmentId) := do
  let dropped ← inMemory (Collection.gc rules)
  removeSegments dropped
  persistVersions
  return dropped

/-! ## Recovery -/

/-- Loads segment files in order; the first that is missing fails the load. -/
def loadSegments : List SegmentId → DurableProg (Except CoreError (List SealedSegment))
  | [] => return .ok []
  | id :: rest => do
    match ← perform (loadSegment id) with
    | none => return .error (.io s!"segments/{id}.seg")
    | some seg =>
      perform (persistedInsert id)
      match ← loadSegments rest with
      | .error e => return .error e
      | .ok segs => return .ok (seg :: segs)

/-- `install_recovered`: all segments into the registry, those named into the working set. -/
def installRecovered (all : List SealedSegment) (workingIds : List SegmentId) :
    DurableProg PUnit := do
  inMemory (Collection.perform (.registerSegments all))
  inMemory (Collection.perform (.storeWorking (all.filter fun s => s.id ∈ workingIds)))

/-- `apply_op`: replays one record of the log.  A record of the wrong dimension is skipped. -/
def applyOp (cfg : CollectionConfig) : WalOp → DurableProg PUnit
  | .upsert id vector payload => do
    let _ ← inMemory (Collection.insertWithIdAndPayload cfg id vector payload)
    return ()
  | .delete id => do
    let _ ← inMemory (Collection.delete id)
    return ()

/-- `open`: the versions file, the checkpoint if there is one, then the log on top of it. -/
def openCollection (cfg : CollectionConfig) : DurableProg (Except CoreError Unit) := do
  perform writeConfigIfAbsent
  match ← perform readVersions with
  | .error e => return .error e
  | .ok (some snapshot) =>
    inMemory (Collection.perform (.loadVersionSnapshot snapshot))
    recoverCheckpoint snapshot.referenced
  | .ok none => recoverCheckpoint []
where
  /-- Recovers the checkpoint, if any, and every segment a version references. -/
  recoverCheckpoint (referenced : List SegmentId) : DurableProg (Except CoreError Unit) := do
    match ← perform readHead with
    | .error e => return .error e
    | .ok (some head) =>
      match ← loadSegments
          (sortedIds (head.allSegmentIds ++ head.workingSegmentIds ++ referenced)) with
      | .error e => return .error e
      | .ok segs =>
        installRecovered segs head.workingSegmentIds
        inMemory (Collection.perform (.setAllocators head.nextGlobalId head.nextSegmentId))
        inMemory (Collection.perform (.storeDeletions head.deletions))
        inMemory (Collection.perform (.setPayloads head.payloads))
        replayLog head.walGeneration
    | .ok none =>
      match ← loadSegments (sortedIds referenced) with
      | .error e => return .error e
      | .ok segs =>
        installRecovered segs []
        replayLog 0
  /-- Opens a generation of the log and replays it. -/
  replayLog (generation : ℕ) : DurableProg (Except CoreError Unit) := do
    perform (openWal generation)
    (← perform (readWal generation)).forM (applyOp cfg)
    perform (switchWal generation)
    return .ok ()

end Durable

end Vecvec
