import Vecvec.Machinery.Fill
import Vecvec.Machinery.Prog
import Vecvec.Segment.Basic
import Vecvec.Version.Diff
import Vecvec.Version.Policy

/-!
# Collection/State — a collection's shared state and its atomic actions

The calls of a collection run concurrently on one shared state.  What is indivisible is a section
under one of the small locks, or one `ArcSwap` load, store or `rcu`; each is an action here, under
the name of what it does.

Two fields are the locals of calls in progress, kept with the state so that a state can speak of
them: the rows a seal has taken out of the appendable and not yet published (`sealing`), and the ids
a call has allocated and not yet appended (`inserting`).  No action reads them.
-/

namespace Vecvec

open Machinery

/-- The state the calls of one collection share. -/
structure Collection where
  /-- The appendable segment. -/
  appendable : AppendableSegment
  /-- The live set of sealed segments. -/
  working : SegmentSet
  /-- The registry of sealed segments. -/
  allSegments : SegmentId → Option SealedSegment
  /-- The live tombstones. -/
  workingDeletions : DeletionVector
  /-- Payloads by global id. -/
  payloads : PayloadMap
  /-- The calls inside a `payloads.read()`. -/
  payloadReaders : Finset ℕ
  /-- The commit DAG. -/
  versions : VersionStore
  /-- The next global id. -/
  nextGlobalId : GlobalId
  /-- The next segment id. -/
  nextSegmentId : SegmentId
  /-- Per caller: the segment it has taken out of the appendable and not yet published. -/
  sealing : ℕ → Option SealedSegment
  /-- Per caller: the global ids it has allocated and not yet appended. -/
  inserting : ℕ → List GlobalId

/-- The atomic actions of a collection. -/
inductive CollectionOp
  /-- `next_global_id.fetch_add(1)` -/
  | allocGlobalId
  /-- `appendable.write().append(id, vector)` -/
  | appendRow (id : GlobalId) (vector : List F32)
  /-- `appendable.write()`, held while rows are appended -/
  | appendRows (rows : List (GlobalId × List F32))
  /-- `next_global_id.fetch_max(n)` -/
  | bumpGlobalId (n : GlobalId)
  /-- `payloads.write().insert(id, payload)` -/
  | insertPayload (id : GlobalId) (payload : Payload)
  /-- `appendable.read().contains(id)` -/
  | appendableContains (id : GlobalId)
  /-- `appendable.read().vector_of(id)` -/
  | appendableVectorOf (id : GlobalId)
  /-- `appendable.read()`, scanned -/
  | appendableRows
  /-- `working.load()` -/
  | loadWorking
  /-- `working_deletions.load()` -/
  | loadDeletions
  /-- `working_deletions.rcu(..)`: whether the id was newly added -/
  | tombstone (id : GlobalId)
  /-- the write-locked section of `seal`: an empty segment is put in place of a non-empty one, whose
  rows are frozen under the next segment id -/
  | takeAppendable
  /-- `all_segments.write()`: inserts segments -/
  | registerSegments (segs : List SealedSegment)
  /-- `working.rcu(..)`: appends a segment -/
  | publishSegment (seg : SealedSegment)
  /-- `working.store(..)` -/
  | storeWorking (segs : SegmentSet)
  /-- `working_deletions.store(..)` -/
  | storeDeletions (deletions : DeletionVector)
  /-- `*appendable.write() = AppendableSegment::new(..)` -/
  | resetAppendable
  /-- `next_segment_id.fetch_add(1)` -/
  | allocSegmentId
  /-- `all_segments.read()`: the segments found under some ids -/
  | registeredSegments (ids : List SegmentId)
  /-- `all_segments.read()`: stores the segments found under some ids as the working set -/
  | restoreWorking (ids : List SegmentId)
  /-- `all_segments.write()`: removes segments, returning the ids that were there -/
  | removeSegments (ids : List SegmentId)
  /-- `versions.lock().commit(..)` -/
  | recordVersion (trigger : String) (message tag : Option String) (segments : List SegmentRef)
      (deletions : DeletionVector)
  /-- `versions.lock().get(v)` -/
  | manifestOf (v : VersionId)
  /-- `versions.lock()`: resolves a selector and gets its manifest -/
  | resolveManifest (selector : VersionSelector)
  /-- `versions.lock().set_tag(..)` -/
  | setTag (name : String) (v : VersionId)
  /-- `versions.lock().set_branch(..)` -/
  | setBranch (name : String) (v : VersionId)
  /-- `versions.lock().diff(..)` -/
  | diffVersions (fromVersion toVersion : VersionId)
  /-- `versions.lock().gc(..)` -/
  | collectVersions (rules : RetentionRules)
  /-- `versions.lock().all_referenced_segments()` -/
  | referencedSegments
  /-- `versions.lock().snapshot()` -/
  | versionSnapshot
  /-- `payloads.read()`, held -/
  | lockPayloads
  /-- the end of a held `payloads.read()` -/
  | unlockPayloads
  /-- `payloads.read().get(id)` -/
  | payloadOf (id : GlobalId)
  /-- `payloads.read().clone()` -/
  | payloadsSnapshot
  /-- `next_global_id.load()` -/
  | nextGlobalIdValue
  /-- `next_segment_id.load()` -/
  | nextSegmentIdValue
  /-- `*versions.lock() = VersionStore::from_snapshot(..)` -/
  | loadVersionSnapshot (snapshot : VersionStoreSnapshot)
  /-- stores both allocators -/
  | setAllocators (nextGlobal : GlobalId) (nextSegment : SegmentId)
  /-- `*payloads.write() = ..` -/
  | setPayloads (payloads : PayloadMap)

/-- What an action of a collection answers. -/
@[reducible] def CollectionOp.Ret : CollectionOp → Type
  | allocGlobalId => GlobalId
  | appendRow .. => Unit
  | appendRows _ => Unit
  | bumpGlobalId _ => Unit
  | insertPayload .. => Unit
  | appendableContains _ => Bool
  | appendableVectorOf _ => Option (List F32)
  | appendableRows => List Row
  | loadWorking => SegmentSet
  | loadDeletions => DeletionVector
  | tombstone _ => Bool
  | takeAppendable => Option SealedSegment
  | registerSegments _ => Unit
  | publishSegment _ => Unit
  | storeWorking _ => Unit
  | storeDeletions _ => Unit
  | resetAppendable => Unit
  | allocSegmentId => SegmentId
  | registeredSegments _ => List SealedSegment
  | restoreWorking _ => Unit
  | removeSegments _ => List SegmentId
  | recordVersion .. => VersionId
  | manifestOf _ => Option Manifest
  | resolveManifest _ => Option (Option Manifest)
  | setTag .. => Except String Unit
  | setBranch .. => Except String Unit
  | diffVersions .. => Except String Diff
  | collectVersions _ => GcReport
  | referencedSegments => List SegmentId
  | versionSnapshot => VersionStoreSnapshot
  | lockPayloads => PayloadMap
  | unlockPayloads => Unit
  | payloadOf _ => Option Payload
  | payloadsSnapshot => PayloadMap
  | nextGlobalIdValue => GlobalId
  | nextSegmentIdValue => SegmentId
  | loadVersionSnapshot _ => Unit
  | setAllocators .. => Unit
  | setPayloads _ => Unit

/-- The interface of a collection. -/
@[reducible] def collectionInterface : Interface := ⟨CollectionOp, CollectionOp.Ret⟩

/-- A call on a collection. -/
abbrev CollectionProg := Prog collectionInterface

namespace Collection

/-- An empty collection (`create`). -/
def create : Collection where
  appendable := .new
  working := []
  allSegments := fun _ => none
  workingDeletions := ∅
  payloads := fun _ => none
  payloadReaders := ∅
  versions := .new
  nextGlobalId := 0
  nextSegmentId := 0
  sealing := fun _ => none
  inserting := fun _ => []

/-- The registry with some segments inserted, later ones over earlier ones. -/
def insertSegments (m : SegmentId → Option SealedSegment) (segs : List SealedSegment) :
    SegmentId → Option SealedSegment :=
  fill SealedSegment.id (fun s => s) m segs

/-- What an action of caller `t` does; `none` while it waits for the payload lock. -/
def step (P : Platform) (cfg : CollectionConfig) : Handler collectionInterface Collection
  | t, .allocGlobalId, c => some (c.nextGlobalId,
      { c with
        nextGlobalId := c.nextGlobalId + 1
        inserting := Function.update c.inserting t (c.nextGlobalId :: c.inserting t) })
  | t, .appendRow id v, c => some ((),
      { c with
        appendable := c.appendable.append P cfg.metric id v
        inserting := Function.update c.inserting t ((c.inserting t).erase id) })
  | t, .appendRows rows, c => some ((),
      { c with
        appendable := rows.foldl (fun s r => s.append P cfg.metric r.1 r.2) c.appendable
        inserting :=
          Function.update c.inserting t (rows.foldl (fun l r => l.erase r.1) (c.inserting t)) })
  | _, .bumpGlobalId n, c => some ((), { c with nextGlobalId := max c.nextGlobalId n })
  | _, .insertPayload id p, c =>
      if c.payloadReaders = ∅ then
        some ((), { c with payloads := Function.update c.payloads id (some p) })
      else none
  | _, .appendableContains id, c => some (containsId c.appendable.rows id, c)
  | _, .appendableVectorOf id, c => some (vectorOf c.appendable.rows id, c)
  | _, .appendableRows, c => some (c.appendable.rows, c)
  | _, .loadWorking, c => some (c.working, c)
  | _, .loadDeletions, c => some (c.workingDeletions, c)
  | _, .tombstone id, c => some (decide (id ∉ c.workingDeletions),
      { c with workingDeletions := insert id c.workingDeletions })
  | t, .takeAppendable, c =>
      if c.appendable.rows = [] then some (none, c)
      else
        let sealed := c.appendable.sealAs c.nextSegmentId
        some (some sealed,
          { c with
            appendable := .new
            nextSegmentId := c.nextSegmentId + 1
            sealing := Function.update c.sealing t (some sealed) })
  | _, .registerSegments segs, c =>
      some ((), { c with allSegments := insertSegments c.allSegments segs })
  | t, .publishSegment seg, c => some ((),
      { c with
        working := c.working ++ [seg]
        sealing := Function.update c.sealing t none })
  | _, .storeWorking segs, c => some ((), { c with working := segs })
  | _, .storeDeletions d, c => some ((), { c with workingDeletions := d })
  | _, .resetAppendable, c => some ((), { c with appendable := .new })
  | _, .allocSegmentId, c => some (c.nextSegmentId, { c with nextSegmentId := c.nextSegmentId + 1 })
  | _, .registeredSegments ids, c => some (ids.filterMap c.allSegments, c)
  | _, .restoreWorking ids, c => some ((), { c with working := ids.filterMap c.allSegments })
  | _, .removeSegments ids, c => some (ids.filter fun id => (c.allSegments id).isSome,
      { c with allSegments := fun id => if id ∈ ids then none else c.allSegments id })
  | _, .recordVersion trigger message tag segments deletions, c =>
      let r := c.versions.commit trigger message tag segments deletions
      some (r.1.version, { c with versions := r.2 })
  | _, .manifestOf v, c => some (c.versions.get v, c)
  | _, .resolveManifest s, c => some ((c.versions.resolve s).map c.versions.get, c)
  | _, .setTag name v, c => match c.versions.setTag name v with
      | .ok vs => some (.ok (), { c with versions := vs })
      | .error e => some (.error e, c)
  | _, .setBranch name v, c => match c.versions.setBranch name v with
      | .ok vs => some (.ok (), { c with versions := vs })
      | .error e => some (.error e, c)
  | _, .diffVersions a b, c => some (c.versions.diff a b, c)
  | _, .collectVersions rules, c =>
      let r := c.versions.gc rules
      some (r.1, { c with versions := r.2 })
  | _, .referencedSegments, c => some (c.versions.allReferencedSegments, c)
  | _, .versionSnapshot, c => some (c.versions.snapshot, c)
  | t, .lockPayloads, c => some (c.payloads, { c with payloadReaders := insert t c.payloadReaders })
  | t, .unlockPayloads, c => some ((), { c with payloadReaders := c.payloadReaders.erase t })
  | _, .payloadOf id, c => some (c.payloads id, c)
  | _, .payloadsSnapshot, c => some (c.payloads, c)
  | _, .nextGlobalIdValue, c => some (c.nextGlobalId, c)
  | _, .nextSegmentIdValue, c => some (c.nextSegmentId, c)
  | _, .loadVersionSnapshot s, c => some ((), { c with versions := .fromSnapshot s })
  | _, .setAllocators g s, c => some ((), { c with nextGlobalId := g, nextSegmentId := s })
  | _, .setPayloads p, c => some ((), { c with payloads := p })

end Collection

end Vecvec
