import Vecvec.Collection.State
import Vecvec.Segment.Search

/-!
# Collection/Calls — the operations of a collection, as programs

Each definition is one method of the source, its atomic actions in the source's order.  How a sealed
segment is searched is up to its index, and a parameter here (`SegmentSearch`).
-/

namespace Vecvec

open Machinery CollectionOp

namespace Collection

/-- Performs one action of a collection. -/
abbrev perform (o : CollectionOp) : CollectionProg o.Ret := @Prog.perform collectionInterface o

/-! ## Writes -/

/-- `alloc_global_id`. -/
def alloc : CollectionProg GlobalId := perform allocGlobalId

/-- `insert_with_id_and_payload`: the single in-memory upsert path. -/
def insertWithIdAndPayload (cfg : CollectionConfig) (id : GlobalId) (vector : List F32)
    (payload : Option Payload) : CollectionProg (Except CoreError Unit) := do
  if vector.length ≠ cfg.dim then
    return .error (.dimensionMismatch cfg.dim vector.length)
  else
    perform (appendRow id vector)
    perform (bumpGlobalId (id + 1))
    match payload with
    | some p => perform (insertPayload id p)
    | none => pure ()
    return .ok ()

/-- `insert`: a single vector under a fresh id. -/
def insertVector (cfg : CollectionConfig) (vector : List F32) :
    CollectionProg (Except CoreError GlobalId) := do
  let id ← alloc
  match ← insertWithIdAndPayload cfg id vector none with
  | .ok () => return .ok id
  | .error e => return .error e

/-- The ids a batch allocates, in order. -/
def allocMany : ℕ → CollectionProg (List GlobalId)
  | 0 => return []
  | n + 1 => do
    let id ← alloc
    let ids ← allocMany n
    return id :: ids

/-- `insert_batch`: every dimension is checked first; then, with the appendable's lock held, the
vectors are appended under fresh ids. -/
def insertBatch (cfg : CollectionConfig) (vectors : List (List F32)) :
    CollectionProg (Except CoreError (List GlobalId)) := do
  match vectors.find? fun v => v.length ≠ cfg.dim with
  | some v => return .error (.dimensionMismatch cfg.dim v.length)
  | none =>
    let ids ← allocMany vectors.length
    perform (appendRows (ids.zip vectors))
    perform (bumpGlobalId (ids.getLast?.elim 0 (· + 1)))
    return .ok ids

/-- `contains_any`: the appendable first, then the working set. -/
def containsAny (id : GlobalId) : CollectionProg Bool := do
  if ← perform (appendableContains id) then
    return true
  else
    let working ← perform loadWorking
    return working.any fun s => containsId s.rows id

/-- `delete`: tombstones a point that is present. -/
def delete (id : GlobalId) : CollectionProg Bool := do
  if ← containsAny id then perform (tombstone id) else return false

/-- `seal`: moves the appendable's rows into a sealed segment — taken out under the appendable's
lock, registered under the registry's, then published. -/
def sealAppendable : CollectionProg (Option SegmentId) := do
  match ← perform takeAppendable with
  | none => return none
  | some sealed =>
    perform (registerSegments [sealed])
    perform (publishSegment sealed)
    return some sealed.id

/-- The reference a manifest keeps to a segment; an empty segment has none. -/
def segmentRef (s : SealedSegment) : Option SegmentRef :=
  (globalIdRange s.rows).map fun r => ⟨s.id, r.1, r.2, s.rows.length⟩

/-- `commit`: seals, then records the working set and the tombstones as a new version. -/
def commit (trigger : String) (message tag : Option String) : CollectionProg VersionId := do
  let _ ← sealAppendable
  let working ← perform loadWorking
  let deletions ← perform loadDeletions
  perform (recordVersion trigger message tag (working.filterMap segmentRef) deletions)

/-- `restore`: re-points the working state at a version and commits it. -/
def restore (v : VersionId) : CollectionProg (Except CoreError VersionId) := do
  match ← perform (manifestOf v) with
  | none => return .error (.version s!"no such version {v}")
  | some manifest =>
    perform (restoreWorking manifest.segmentIds)
    perform (storeDeletions manifest.deletions)
    perform resetAppendable
    let w ← commit "restore" (some s!"restore of v{v}") none
    return .ok w

/-- The rows a compaction rebuilds: those of every working segment by ascending id, pushed through
the normalising ingest path once more. -/
def mergedRows (P : Platform) (cfg : CollectionConfig) (working : SegmentSet) :
    AppendableSegment :=
  (sortById working.rows).foldl (fun s r => s.append P cfg.metric r.1 r.2) .new

/-- `compact`: merges the working segments into one. -/
def compact (P : Platform) (cfg : CollectionConfig) : CollectionProg (Option SegmentId) := do
  let working ← perform loadWorking
  if working.length ≤ 1 then
    return none
  else
    let segId ← perform allocSegmentId
    let sealed := (mergedRows P cfg working).sealAs segId
    perform (registerSegments [sealed])
    perform (storeWorking [sealed])
    return some segId

/-- `gc`: drops versions, then the segments only they referenced and no working segment is.
Returns the segment ids dropped. -/
def gc (rules : RetentionRules) : CollectionProg (List SegmentId) := do
  let report ← perform (collectVersions rules)
  let working ← perform loadWorking
  perform (removeSegments
    (report.orphanSegments.filter fun id => id ∉ working.map SealedSegment.id))

/-- `create_tag`. -/
def createTag (name : String) (v : VersionId) : CollectionProg (Except CoreError Unit) := do
  match ← perform (setTag name v) with
  | .ok () => return .ok ()
  | .error e => return .error (.version e)

/-- `create_branch`. -/
def createBranch (name : String) (v : VersionId) : CollectionProg (Except CoreError Unit) := do
  match ← perform (setBranch name v) with
  | .ok () => return .ok ()
  | .error e => return .error (.version e)

/-- `diff`. -/
def diff (fromVersion toVersion : VersionId) : CollectionProg (Except CoreError Diff) := do
  match ← perform (diffVersions fromVersion toVersion) with
  | .ok d => return .ok d
  | .error e => return .error (.version e)

/-! ## Reads -/

/-- `len`: the rows of the working set and the appendable, less the tombstones. -/
def len : CollectionProg ℕ := do
  let working ← perform loadWorking
  let app ← perform appendableRows
  let deletions ← perform loadDeletions
  return (working.rows.length + app.length) - deletions.card

/-- A materialised point. -/
structure PointRecord where
  /-- The point's id. -/
  id : GlobalId
  /-- The stored vector. -/
  vector : List F32
  /-- The payload, if any. -/
  payload : Option Payload

/-- `get_vector`: the appendable first, then the working set. -/
def getVector (id : GlobalId) : CollectionProg (Option (List F32)) := do
  match ← perform (appendableVectorOf id) with
  | some v => return some v
  | none =>
    let working ← perform loadWorking
    return working.findSome? fun s => vectorOf s.rows id

/-- `get_point`: a live point, or `none` if missing or tombstoned. -/
def getPoint (id : GlobalId) : CollectionProg (Option PointRecord) := do
  let deletions ← perform loadDeletions
  if id ∈ deletions then
    return none
  else
    match ← getVector id with
    | none => return none
    | some vector =>
      let payload ← perform (payloadOf id)
      return some ⟨id, vector, payload⟩

/-- The rows a read keeps: those that are not tombstoned. -/
def liveRows (rows : List Row) (deletions : DeletionVector) : List Row :=
  rows.filter fun r => r.1 ∉ deletions

/-- The page of a scroll over some rows, and their number. -/
def page (rows : List Row) (payloads : PayloadMap) (offset limit : ℕ) : List PointRecord × ℕ :=
  ((((sortById rows).drop offset).take limit).map fun r => ⟨r.1, r.2, payloads r.1⟩, rows.length)

/-- `scroll`: a page of live points, now or as of a version, with the payload lock held. -/
def scroll (at' : Option VersionSelector) (offset limit : ℕ) :
    CollectionProg (Except CoreError (List PointRecord × ℕ)) := do
  let payloads ← perform lockPayloads
  match at' with
  | none =>
    let deletions ← perform loadDeletions
    let working ← perform loadWorking
    let app ← perform appendableRows
    perform unlockPayloads
    return .ok (page (liveRows (working.rows ++ app) deletions) payloads offset limit)
  | some selector =>
    match ← perform (resolveManifest selector) with
    | none =>
      perform unlockPayloads
      return .error (.version s!"unresolved selector {selector.debug}")
    | some none =>
      perform unlockPayloads
      return .error (.aborted "resolved version exists")
    | some (some manifest) =>
      let segs ← perform (registeredSegments manifest.segmentIds)
      perform unlockPayloads
      return .ok (page (liveRows (SegmentSet.rows segs) manifest.deletions) payloads offset limit)

/-- A payload filter as the segments are given it (`FilterQuery`): what its evaluation says of the
payload of an id. -/
def filterQuery (filter : Option (Option Payload → Bool)) (payloads : PayloadMap) :
    Option (GlobalId → Bool) := filter.map fun f g => f (payloads g)

/-- `search`: the best `k` live points that pass the filter. -/
def search (S : SegmentSearch) (P : Platform) (cfg : CollectionConfig) (query : List F32) (k : ℕ)
    (filter : Option (Option Payload → Bool)) :
    CollectionProg (Except CoreError (List (GlobalId × F32))) := do
  if query.length ≠ cfg.dim then
    return .error (.dimensionMismatch cfg.dim query.length)
  else
    let higher := cfg.metric.higherIsBetter
    let score := P.scoreF32 cfg.metric query
    let deletions ← perform loadDeletions
    let working ← perform loadWorking
    let payloads ← perform lockPayloads
    let fq := filterQuery filter payloads
    let merger := working.foldl (fun (b : BoundedTopK GlobalId) s =>
      b.offerAll (S.find s query k deletions fq)) (.new GlobalId k higher)
    let app ← perform appendableRows
    perform unlockPayloads
    return .ok (mergeFinalize (merger.offerAll
      (searchLocal score higher app k (segmentLiveFilter deletions fq))))

/-- `search_at`: the best `k` points of a version that pass the filter. -/
def searchAt (S : SegmentSearch) (cfg : CollectionConfig) (selector : VersionSelector)
    (query : List F32) (k : ℕ) (filter : Option (Option Payload → Bool)) :
    CollectionProg (Except CoreError (List (GlobalId × F32))) := do
  if query.length ≠ cfg.dim then
    return .error (.dimensionMismatch cfg.dim query.length)
  else
    match ← perform (resolveManifest selector) with
    | none => return .error (.version s!"unresolved selector {selector.debug}")
    | some none => return .error (.aborted "resolved version exists")
    | some (some manifest) =>
      let higher := cfg.metric.higherIsBetter
      let segs ← perform (registeredSegments manifest.segmentIds)
      let payloads ← perform lockPayloads
      let fq := filterQuery filter payloads
      let merger := segs.foldl (fun (b : BoundedTopK GlobalId) s =>
        b.offerAll (S.find s query k manifest.deletions fq)) (.new GlobalId k higher)
      perform unlockPayloads
      return .ok (mergeFinalize merger)

end Collection

end Vecvec
