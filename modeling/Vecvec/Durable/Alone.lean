import Mathlib.Data.Finset.Lattice.Lemmas
import Vecvec.Durable.Effects

/-!
# Durable/Alone — what a call of a durable collection does when nothing interferes

Run alone, every call is a sequence of a few **moves**: a batch of records logged and applied, a
commit persisted, a checkpoint, …  A move says which disk effects happen in which order and what
the process looks like afterwards; the lemmas here say which moves each call makes.
-/

namespace Vecvec

open Machinery DurableOp

variable (P : Platform) (cfg : CollectionConfig)

/-! ## The moves -/

/-- The upsert records of a batch: its ids are consecutive. -/
def upsertRecords : GlobalId → List (List F32 × Option Payload) → List WalOp
  | _, [] => []
  | next, (v, p) :: rest => .upsert next v p :: upsertRecords (next + 1) rest

/-- The records of a batch, in log order: the deletes, then the upserts. -/
def batchRecords (next : GlobalId) (upserts : List (List F32 × Option Payload))
    (deletes : List GlobalId) : List WalOp :=
  deletes.map .delete ++ upsertRecords next upserts

namespace World

/-- The segments a `persist_versions` or a checkpoint considers. -/
def toPersist (w : World) : List SegmentId :=
  sortedIds (w.collection.working.map SealedSegment.id ++
    w.collection.versions.allReferencedSegments)

/-- The segments a `persist_versions` writes. -/
def unpersisted (w : World) : List SealedSegment :=
  (w.toPersist.filter fun id => id ∉ w.persistedSegments).filterMap w.collection.allSegments

/-- The state after some segment files are written. -/
def wrote (w : World) (segs : List SealedSegment) : World :=
  { w with
    disk := w.disk.performAll P cfg (segs.map .writeSegment)
    persistedSegments := w.persistedSegments ∪ (segs.map SealedSegment.id).toFinset }

/-- The effects of `persist_versions`. -/
def persistEffects (w : World) : List DiskEffect :=
  w.unpersisted.map .writeSegment ++ [.writeVersions w.collection.versions.snapshot]

/-- The state after `persist_versions`. -/
def persist (w : World) : World :=
  { w with
    disk := w.disk.performAll P cfg w.persistEffects
    persistedSegments := w.persistedSegments ∪ (w.unpersisted.map SealedSegment.id).toFinset }

/-- The effects of logging some records. -/
def logEffects (w : World) (ops : List WalOp) : List DiskEffect :=
  ops.map (.append w.generation) ++ [.flush w.generation]

/-- The state after some records are logged, flushed and applied. -/
def logged (w : World) (ops : List WalOp) : World :=
  { w with
    disk := w.disk.performAll P cfg (w.logEffects ops)
    collection := ops.foldl (Collection.replay P cfg) w.collection }

/-- The segments a checkpoint writes, the appendable being sealed. -/
def checkpointed (w : World) : List SealedSegment := w.toPersist.filterMap w.collection.allSegments

/-- The `HEAD` a checkpoint writes, the appendable being sealed. -/
def newHead (w : World) : CheckpointHead where
  walGeneration := w.generation + 1
  workingSegmentIds := w.collection.working.map SealedSegment.id
  allSegmentIds := w.checkpointed.map SealedSegment.id
  nextGlobalId := w.collection.nextGlobalId
  nextSegmentId := w.collection.nextSegmentId
  deletions := w.collection.workingDeletions
  payloads := w.collection.payloads

/-- The effects of a checkpoint, the appendable being sealed. -/
def checkpointEffects (w : World) : List DiskEffect :=
  w.checkpointed.map .writeSegment ++
    [.openLog (w.generation + 1), .writeHead w.newHead, .removeLog w.generation]

/-- The state after a checkpoint, the appendable having been sealed before. -/
def checkpoint (w : World) : World :=
  { w with
    disk := w.disk.performAll P cfg w.checkpointEffects
    persistedSegments := w.persistedSegments ∪ (w.checkpointed.map SealedSegment.id).toFinset
    generation := w.generation + 1 }

/-- The state after the files of some segments are deleted. -/
def removeSegments (w : World) (ids : List SegmentId) : World :=
  { w with
    disk := w.disk.performAll P cfg (ids.map .removeSegment)
    persistedSegments := w.persistedSegments \ ids.toFinset }

/-- No call is in progress, every segment is registered under its own id, and writes are flushed. -/
structure Idle (w : World) : Prop where
  /-- No in-memory call is in progress. -/
  quiet : w.collection.Quiet
  /-- The log is not locked. -/
  free : w.walHolder = none
  /-- Every write is flushed. -/
  sync : w.fsync = .sync
  /-- Segments are registered under their own ids. -/
  keyed : w.collection.Keyed

end World

/-- A move of a durable collection. -/
inductive Move
  /-- a batch of records logged and applied -/
  | log (upserts : List (List F32 × Option Payload)) (deletes : List GlobalId)
  /-- a commit, persisted -/
  | commit (trigger : String) (message tag : Option String)
  /-- a restore, persisted -/
  | restore (v : VersionId) (m : Manifest)
  /-- a tag or a branch moved, and persisted -/
  | point (versions : VersionStore)
  /-- an in-memory compaction -/
  | compact
  /-- a checkpoint -/
  | checkpoint
  /-- a collection pass -/
  | gc (rules : RetentionRules)
  /-- the trigger and the clock advanced -/
  | tick (trigger : TriggerEvaluator) (ticks : ℕ)

namespace Move

/-- The process as the effects of a move find it: the in-memory part of the move is done. -/
def prepare (w : World) : Move → World
  | .log .. => w
  | .commit trigger message tag =>
    { w with collection := w.collection.commitNow trigger message tag }
  | .restore v m => { w with collection := w.collection.restoreNow v m }
  | .point versions => { w with collection.versions := versions }
  | .compact => { w with collection := w.collection.compactNow P cfg }
  | .checkpoint => { w with collection := w.collection.sealNow }
  | .gc rules => ({ w with collection := w.collection.gcNow rules } : World).removeSegments P cfg
      (w.collection.dropped rules)
  | .tick trigger ticks => { w with trigger := trigger, ticks := ticks }

/-- The disk effects of a move. -/
def effects (w : World) (m : Move) : List DiskEffect :=
  match m with
  | .log upserts deletes => w.logEffects (batchRecords w.collection.nextGlobalId upserts deletes)
  | .commit .. | .restore .. | .point .. => (m.prepare P cfg w).persistEffects
  | .compact | .tick .. => []
  | .checkpoint => (m.prepare P cfg w).checkpointEffects
  | .gc rules => (w.collection.dropped rules).map .removeSegment ++
      (m.prepare P cfg w).persistEffects

/-- The state after a move. -/
def result (w : World) (m : Move) : World :=
  match m with
  | .log upserts deletes => w.logged P cfg (batchRecords w.collection.nextGlobalId upserts deletes)
  | .commit .. | .restore .. | .point .. | .gc .. => (m.prepare P cfg w).persist P cfg
  | .compact | .tick .. => m.prepare P cfg w
  | .checkpoint => (m.prepare P cfg w).checkpoint P cfg

/-- When a move can be made. -/
def Enabled (w : World) : Move → Prop
  | .log upserts _ => ∀ u ∈ upserts, u.1.length = cfg.dim
  | .restore v m => w.collection.versions.get v = some m
  | .point versions => ∃ name v, w.collection.versions.setTag name v = .ok versions ∨
      w.collection.versions.setBranch name v = .ok versions
  | .compact => 1 < w.collection.working.length
  | _ => True

end Move

/-- A sequence of moves, with the effects they add up to. -/
inductive Moves : World → List Move → List DiskEffect → World → Prop
  | nil (w : World) : Moves w [] [] w
  | cons {w w' : World} {m : Move} {ms : List Move} {es : List DiskEffect}
      (hm : m.Enabled cfg w) (rest : Moves (m.result P cfg w) ms es w') :
      Moves w (m :: ms) (m.effects P cfg w ++ es) w'

variable {P cfg}

@[simp] theorem Move.result_disk (w : World) (m : Move) :
    (m.result P cfg w).disk = w.disk.performAll P cfg (m.effects P cfg w) := by
  cases m with
  | gc rules => exact (List.foldl_append ..).symm
  | _ => rfl

theorem Moves.disk_eq {w w' : World} {ms : List Move} {es : List DiskEffect}
    (h : Moves P cfg w ms es w') : w'.disk = w.disk.performAll P cfg es := by
  induction h with
  | nil => rfl
  | cons _ _ ih => rw [ih, Move.result_disk, Disk.performAll_append]

theorem Moves.single {w : World} {m : Move} (hm : m.Enabled cfg w) :
    Moves P cfg w [m] (m.effects P cfg w) (m.result P cfg w) := by
  have := Moves.cons hm (.nil (P := P) _)
  rwa [List.append_nil] at this

theorem Moves.append {w w' w'' : World} {ms ms' : List Move} {es es' : List DiskEffect}
    (h : Moves P cfg w ms es w') (h' : Moves P cfg w' ms' es' w'') :
    Moves P cfg w (ms ++ ms') (es ++ es') w'' := by
  induction h with
  | nil => exact h'
  | cons hm _ ih =>
    rw [List.append_assoc]
    exact .cons hm (ih h')

/-! ## The pieces of a call -/

section Pieces

variable {t : ℕ} {w : World}

theorem performs_getSegment {id : SegmentId} :
    Performs (World.persistence P cfg) t (Durable.getSegment id) w []
      (w.collection.allSegments id) w := by
  refine (performs_inMemory_perform (c := w.collection) rfl).bind_ret ?_
  cases h : w.collection.allSegments id <;> simp [h]

theorem performs_segmentIdsToPersist :
    Performs (World.persistence P cfg) t Durable.segmentIdsToPersist w [] w.toPersist w :=
  (performs_inMemory_perform (c := w.collection) rfl).bind
    ((performs_inMemory_perform (c := w.collection) rfl).bind_ret rfl)

@[simp] theorem wrote_nil : w.wrote P cfg [] = w := by
  simp [World.wrote]

theorem wrote_wrote (segs segs' : List SealedSegment) :
    (w.wrote P cfg segs).wrote P cfg segs' = w.wrote P cfg (segs ++ segs') := by
  simp only [World.wrote, List.map_append, Disk.performAll_append, List.toFinset_append,
    Finset.union_assoc]

/-- What `persist_versions` writes of one id: nothing, if it is on disk already. -/
theorem performs_persistSegment_of_mem {id : SegmentId} (hid : id ∈ w.persistedSegments) :
    Performs (World.persistence P cfg) t (Durable.persistSegment id) w [] PUnit.unit w := by
  refine .perform_silent rfl rfl ?_
  rw [if_pos (decide_eq_true hid)]
  exact .ret _ _

theorem performs_persistSegment_of_none {id : SegmentId} (hid : id ∉ w.persistedSegments)
    (hn : w.collection.allSegments id = none) :
    Performs (World.persistence P cfg) t (Durable.persistSegment id) w [] PUnit.unit w := by
  refine .perform_silent rfl rfl ?_
  rw [if_neg (by simpa using hid)]
  refine performs_getSegment.bind_ret ?_
  rw [hn]
  rfl

theorem performs_persistSegment_of_some {id : SegmentId} {seg : SealedSegment}
    (hid : id ∉ w.persistedSegments) (hs : w.collection.allSegments id = some seg)
    (hk : seg.id = id) :
    Performs (World.persistence P cfg) t (Durable.persistSegment id) w [.writeSegment seg]
      PUnit.unit (w.wrote P cfg [seg]) := by
  refine .perform_silent rfl rfl ?_
  rw [if_neg (by simpa using hid)]
  refine performs_getSegment.bind_silent ?_
  rw [hs]
  refine .perform_effect rfl rfl ?_
  have : w.wrote P cfg [seg] = { w with
      disk := w.disk.setSegment seg.id (some seg.rows)
      persistedSegments := insert id w.persistedSegments } := by
    simp [World.wrote, Disk.perform, hk]
  rw [this]
  exact .last_silent rfl rfl rfl

/-- The loop of `persist_versions`, over ids that are all different. -/
theorem performs_forM_persistSegment
    (hk : w.collection.Keyed) {ids : List SegmentId}
    (hids : ids.Nodup) :
    Performs (World.persistence P cfg) t (ids.forM Durable.persistSegment) w
      (((ids.filter fun id => id ∉ w.persistedSegments).filterMap
        w.collection.allSegments).map .writeSegment) PUnit.unit
      (w.wrote P cfg ((ids.filter fun id => id ∉ w.persistedSegments).filterMap
        w.collection.allSegments)) := by
  induction ids generalizing w with
  | nil => simpa using Performs.ret _ _
  | cons id ids ih =>
    obtain ⟨hid, hids⟩ := List.nodup_cons.mp hids
    by_cases hp : id ∈ w.persistedSegments
    · have := (performs_persistSegment_of_mem hp).bind (f := fun _ => _) (ih hk hids)
      simpa [hp] using this
    cases hs : w.collection.allSegments id with
    | none =>
      have := (performs_persistSegment_of_none hp hs).bind (f := fun _ => _) (ih hk hids)
      simpa [hp, hs] using this
    | some seg =>
      have hfilter : (ids.filter fun i => i ∉ (w.wrote P cfg [seg]).persistedSegments) =
          ids.filter fun i => i ∉ w.persistedSegments := by
        refine List.filter_congr fun i hi => ?_
        have : i ≠ id := fun h => hid (h ▸ hi)
        simp [World.wrote, hk id seg hs, this]
      have := (performs_persistSegment_of_some hp hs (hk id seg hs)).bind (f := fun _ => _)
        (ih (w := w.wrote P cfg [seg]) hk hids)
      rw [hfilter, wrote_wrote] at this
      simpa [hp, hs, World.wrote] using this

theorem performs_persistVersions (hk : w.collection.Keyed) :
    Performs (World.persistence P cfg) t Durable.persistVersions w w.persistEffects PUnit.unit
      (w.persist P cfg) := by
  refine performs_segmentIdsToPersist.bind_silent ?_
  refine (performs_forM_persistSegment hk (nodup_sortedIds _)).bind ?_
  refine (performs_inMemory_perform (c := w.collection) rfl).bind_silent ?_
  have : w.persist P cfg = { w.wrote P cfg w.unpersisted with
      disk.versions := some w.collection.versions.snapshot } := by
    simp [World.persist, World.wrote, World.persistEffects, Disk.perform]
  rw [this]
  exact .last_effect rfl rfl rfl

theorem performs_forM_walAppend {ops : List WalOp} {ids : List GlobalId}
    (hops : ops = ids.map .delete) :
    Performs (World.persistence P cfg) t
      (ids.forM fun id => Durable.perform (walAppend (.delete id))) w
      (ops.map (.append w.generation)) PUnit.unit
      { w with disk := w.disk.performAll P cfg (ops.map (.append w.generation)) } := by
  subst hops
  induction ids generalizing w with
  | nil => exact .ret _ _
  | cons id ids ih => exact .perform_effect rfl rfl ih

/-- The upserts of a batch, logged: the allocator has passed their ids. -/
theorem performs_logUpserts {ups : List (List F32 × Option Payload)} :
    Performs (World.persistence P cfg) t (Durable.logUpserts ups) w
      ((upsertRecords w.collection.nextGlobalId ups).map (.append w.generation))
      (List.range' w.collection.nextGlobalId ups.length)
      { w with
        disk := w.disk.performAll P cfg
          ((upsertRecords w.collection.nextGlobalId ups).map (.append w.generation))
        collection.nextGlobalId := w.collection.nextGlobalId + ups.length
        collection.inserting := Function.update w.collection.inserting t
          ((List.range' w.collection.nextGlobalId ups.length).reverse ++
            w.collection.inserting t) } := by
  induction ups generalizing w with
  | nil => simpa [Durable.logUpserts, upsertRecords] using Performs.ret _ _
  | cons u ups ih =>
    obtain ⟨v, p⟩ := u
    rw [Durable.logUpserts]
    have halloc : Collection.step P cfg t .allocGlobalId w.collection =
      some (w.collection.nextGlobalId, { w.collection with
        nextGlobalId := w.collection.nextGlobalId + 1
        inserting := Function.update w.collection.inserting t
          (w.collection.nextGlobalId :: w.collection.inserting t) }) := rfl
    refine (performs_inMemory_perform halloc).bind_silent (.perform_effect rfl rfl ?_)
    refine Performs.bind_ret ?_ rfl
    have hn : w.collection.nextGlobalId + (ups.length + 1) =
      w.collection.nextGlobalId + 1 + ups.length := Nat.add_right_comm _ _ 1
    simpa [Disk.perform, upsertRecords, List.range'_succ, hn] using
      ih (w := { w with
        disk := w.disk.perform P cfg (.append w.generation (.upsert w.collection.nextGlobalId v p))
        collection.nextGlobalId := w.collection.nextGlobalId + 1
        collection.inserting := Function.update w.collection.inserting t
          (w.collection.nextGlobalId :: w.collection.inserting t) })

theorem performs_applyDeletes (ids : List GlobalId) (c : Collection) :
    ∃ n, ∀ w : World, Performs (World.persistence P cfg) t (Durable.applyDeletes ids)
      { w with collection := c } [] n
      { w with collection := (ids.map .delete).foldl (Collection.replay P cfg) c } := by
  induction ids generalizing c with
  | nil => exact ⟨0, fun w => .ret _ _⟩
  | cons id ids ih =>
    obtain ⟨n, hn⟩ := ih (c.remove id)
    refine ⟨(if c.holds id && decide (id ∉ c.workingDeletions) then 1 else 0) + n, fun w => ?_⟩
    exact (performs_inMemory Collection.run_delete).bind_silent ((hn w).bind_ret rfl)

/-- The upserts of a batch, applied: their ids have been allocated, up to `n`. -/
theorem performs_applyUpserts {ups : List (List F32 × Option Payload)} {next n : GlobalId}
    {c : Collection} (hr : c.payloadReaders = ∅) (hdim : ∀ u ∈ ups, u.1.length = cfg.dim)
    (hn : next + ups.length ≤ n) :
    Performs (World.persistence P cfg) t
      (Durable.applyUpserts cfg ((List.range' next ups.length).zip ups))
      { w with collection := { c with
        nextGlobalId := n
        inserting := Function.update c.inserting t (List.range' next ups.length).reverse } } []
      (.ok ())
      { w with collection := { (upsertRecords next ups).foldl (Collection.replay P cfg) c with
        nextGlobalId := n
        inserting := Function.update c.inserting t [] } } := by
  induction ups generalizing c next with
  | nil => simpa [Durable.applyUpserts, upsertRecords] using Performs.ret _ _
  | cons u ups ih =>
    obtain ⟨v, p⟩ := u
    have hv : v.length = cfg.dim := hdim _ List.mem_cons_self
    have hlen : next + 1 + ups.length ≤ n := by
      simp only [List.length_cons] at hn
      lia
    have hmax : max n (next + 1) = n := by lia
    have herase : (List.range' next (ups.length + 1)).reverse.erase next =
        (List.range' (next + 1) ups.length).reverse := by
      rw [List.range'_succ, List.reverse_cons, List.erase_append_right]
      · simp
      · simp only [List.mem_reverse, List.mem_range', not_exists, not_and]
        lia
    have hput : run (Collection.step P cfg) t (Collection.insertWithIdAndPayload cfg next v p)
        { c with
          nextGlobalId := n
          inserting := Function.update c.inserting t (List.range' next (ups.length + 1)).reverse } =
        some (.ok (), { c.put P cfg next v p with
          nextGlobalId := n
          inserting :=
            Function.update c.inserting t (List.range' (next + 1) ups.length).reverse }) := by
      refine (Collection.run_insertWithIdAndPayload (by exact hr) hv).trans ?_
      simp [Collection.put, hmax, herase]
    refine (performs_inMemory hput).bind_silent ?_
    rw [upsertRecords, List.foldl_cons, Collection.replay, if_pos hv]
    exact ih (c := c.put P cfg next v p) hr (fun u hu => hdim u (List.mem_cons_of_mem _ hu)) hlen

/-- Deletes read neither the allocator nor the ids being inserted. -/
theorem foldl_delete_with (ids : List GlobalId) (c : Collection) (n : GlobalId)
    (f : ℕ → List GlobalId) :
    (ids.map WalOp.delete).foldl (Collection.replay P cfg)
        { c with nextGlobalId := n, inserting := f } =
      { (ids.map WalOp.delete).foldl (Collection.replay P cfg) c with
        nextGlobalId := n
        inserting := f } := by
  induction ids generalizing c with
  | nil => rfl
  | cons id ids ih =>
    have : ({ c with nextGlobalId := n, inserting := f } : Collection).remove id =
        { c.remove id with nextGlobalId := n, inserting := f } := by
      unfold Collection.remove Collection.holds
      dsimp only
      split <;> rfl
    simp only [List.map_cons, List.foldl_cons, Collection.replay, this]
    exact ih _

theorem foldl_delete_nextGlobalId (ids : List GlobalId) (c : Collection) :
    ((ids.map WalOp.delete).foldl (Collection.replay P cfg) c).nextGlobalId = c.nextGlobalId := by
  induction ids generalizing c with
  | nil => rfl
  | cons id ids ih => exact (ih _).trans Collection.remove_nextGlobalId

theorem foldl_upsert_nextGlobalId {ups : List (List F32 × Option Payload)} {c : Collection}
    (hdim : ∀ u ∈ ups, u.1.length = cfg.dim) :
    ((upsertRecords c.nextGlobalId ups).foldl (Collection.replay P cfg) c).nextGlobalId =
      c.nextGlobalId + ups.length := by
  induction ups generalizing c with
  | nil => rfl
  | cons u ups ih =>
    obtain ⟨v, p⟩ := u
    have hput : (c.put P cfg c.nextGlobalId v p).nextGlobalId = c.nextGlobalId + 1 := by
      rw [Collection.put_nextGlobalId]
      lia
    rw [upsertRecords, List.foldl_cons, Collection.replay, if_pos (hdim _ List.mem_cons_self)]
    rw [← hput, ih fun u hu => hdim u (List.mem_cons_of_mem _ hu), hput, List.length_cons]
    lia

/-- **The records of a batch advance the allocator past its ids.** -/
theorem foldl_batch_nextGlobalId {ups : List (List F32 × Option Payload)} {dels : List GlobalId}
    {c : Collection} (hdim : ∀ u ∈ ups, u.1.length = cfg.dim) :
    ((batchRecords c.nextGlobalId ups dels).foldl (Collection.replay P cfg) c).nextGlobalId =
      c.nextGlobalId + ups.length := by
  rw [batchRecords, List.foldl_append]
  have hd := @foldl_delete_nextGlobalId P cfg dels c
  rw [← hd, foldl_upsert_nextGlobalId hdim]

/-- The deletes of a batch, applied while its ids are allocated. -/
theorem performs_batchDeletes (dels : List GlobalId) (c : Collection) (next : GlobalId)
    (f : ℕ → List GlobalId) :
    ∃ n, ∀ w : World, Performs (World.persistence P cfg) t (Durable.applyDeletes dels)
      { w with collection := { c with nextGlobalId := next, inserting := f } } [] n
      { w with collection := { (dels.map .delete).foldl (Collection.replay P cfg) c with
        nextGlobalId := next
        inserting := f } } := by
  obtain ⟨n, hdel⟩ := @performs_applyDeletes P cfg t dels { c with
    nextGlobalId := next
    inserting := f }
  rw [foldl_delete_with] at hdel
  exact ⟨n, hdel⟩

/-- The upserts of a batch, applied behind its deletes. -/
theorem performs_batchUpserts {ups : List (List F32 × Option Payload)} {dels : List GlobalId}
    {c : Collection} (hq : c.Quiet) (hdim : ∀ u ∈ ups, u.1.length = cfg.dim) :
    Performs (World.persistence P cfg) t
      (Durable.applyUpserts cfg ((List.range' c.nextGlobalId ups.length).zip ups))
      { w with collection := { (dels.map .delete).foldl (Collection.replay P cfg) c with
        nextGlobalId := c.nextGlobalId + ups.length
        inserting :=
          Function.update c.inserting t (List.range' c.nextGlobalId ups.length).reverse } } []
      (.ok ())
      { w with
        collection := (batchRecords c.nextGlobalId ups dels).foldl
          (Collection.replay P cfg) c } := by
  have hq' : ((dels.map WalOp.delete).foldl (Collection.replay P cfg) c).Quiet :=
    hq.foldl_replay _
  have hup := @performs_applyUpserts P cfg t w ups c.nextGlobalId
    (c.nextGlobalId + ups.length) _ hq'.payloadReaders hdim le_rfl
  rw [hq'.inserting, ← hq.inserting, ← List.foldl_append] at hup
  have hfold := @Collection.Quiet.foldl_replay P cfg c hq (batchRecords c.nextGlobalId ups dels)
  have heta : ({ (batchRecords c.nextGlobalId ups dels).foldl (Collection.replay P cfg) c with
      nextGlobalId := c.nextGlobalId + ups.length
      inserting := Function.update c.inserting t [] } : Collection) =
      (batchRecords c.nextGlobalId ups dels).foldl (Collection.replay P cfg) c := by
    rw [← @foldl_batch_nextGlobalId P cfg ups dels c hdim, hq.inserting,
      Function.update_eq_self_iff.mpr rfl, ← hfold.inserting]
  exact heta ▸ hup

/-- The in-memory half of a batch: its ids are allocated, its records are not applied yet. -/
theorem performs_applyBatch {ups : List (List F32 × Option Payload)} {dels : List GlobalId}
    {c : Collection} (hq : c.Quiet) (hdim : ∀ u ∈ ups, u.1.length = cfg.dim) {α : Type} :
    ∃ n, ∀ {w w' : World} {err : CoreError → DurableProg α} {k : ℕ → DurableProg α}
      {es : List DiskEffect} {a : α},
      Performs (World.persistence P cfg) t (k n)
        { w with
          collection := (batchRecords c.nextGlobalId ups dels).foldl (Collection.replay P cfg) c }
        es a w' →
      Performs (World.persistence P cfg) t (do
          let deleted ← Durable.applyDeletes dels
          match ← Durable.applyUpserts cfg ((List.range' c.nextGlobalId ups.length).zip ups) with
          | .error e => err e
          | .ok () => k deleted)
        { w with collection := { c with
          nextGlobalId := c.nextGlobalId + ups.length
          inserting :=
            Function.update c.inserting t (List.range' c.nextGlobalId ups.length).reverse } }
        es a w' := by
  obtain ⟨n, hdel⟩ := @performs_batchDeletes P cfg t dels c (c.nextGlobalId + ups.length)
    (Function.update c.inserting t (List.range' c.nextGlobalId ups.length).reverse)
  exact ⟨n, fun hk => (hdel _).bind_silent ((performs_batchUpserts hq hdim).bind_silent hk)⟩

/-- **A batch, logged and applied**: what `write_batch` does under the log's mutex, up to its
explicit commit. -/
theorem performs_batch {ups : List (List F32 × Option Payload)} {dels : List GlobalId}
    (hi : w.Idle) (hdim : ∀ u ∈ ups, u.1.length = cfg.dim) {α : Type} :
    ∃ n, ∀ {w' : World} {err : CoreError → DurableProg α}
      {k : List GlobalId → ℕ → DurableProg α} {es : List DiskEffect} {a : α},
      Performs (World.persistence P cfg) t
        (k (List.range' w.collection.nextGlobalId ups.length) n)
        { w.logged P cfg (batchRecords w.collection.nextGlobalId ups dels) with
          walHolder := some t } es a w' →
      Performs (World.persistence P cfg) t (do
          Durable.perform lockWal
          dels.forM fun id => Durable.perform (walAppend (.delete id))
          let ids ← Durable.logUpserts ups
          Durable.perform walFlush
          let deleted ← Durable.applyDeletes dels
          match ← Durable.applyUpserts cfg (ids.zip ups) with
          | .error e => err e
          | .ok () => k ids deleted) w
        (w.logEffects (batchRecords w.collection.nextGlobalId ups dels) ++ es) a w' := by
  obtain ⟨n, happly⟩ := @performs_applyBatch P cfg t ups dels w.collection hi.quiet hdim α
  refine ⟨n, fun {w' err k es a} hk => ?_⟩
  refine .perform_silent (if_pos hi.free) rfl ?_
  rw [World.logEffects, batchRecords, List.map_append, List.append_assoc, List.append_assoc]
  have hins : w.collection.inserting t = [] := by rw [hi.quiet.inserting]
  have hlog := @performs_logUpserts P cfg t { w with
    walHolder := some t
    disk := w.disk.performAll P cfg ((dels.map .delete).map (.append w.generation)) } ups
  simp only [hins, List.append_nil] at hlog
  refine (performs_forM_walAppend rfl).bind (hlog.bind ?_)
  refine .perform_effect (World.step_walFlush hi.sync) (if_pos hi.sync) ?_
  have hrest := @happly { w with
    walHolder := some t
    disk := w.disk.performAll P cfg
      (w.logEffects (batchRecords w.collection.nextGlobalId ups dels)) } w' err _ es a hk
  rw [World.logEffects, batchRecords, List.map_append, Disk.performAll_append,
    Disk.performAll_append] at hrest
  exact hrest

theorem unlocked_eq (hw : w.walHolder = none) : { w with walHolder := none } = w := by
  rw [← hw]

/-- The bookkeeping after a batch that does not fire the automatic commit. -/
theorem performs_afterBatch_quiet {n : ℕ}
    (hf : (w.trigger.recordWrites n).shouldCommit w.now = false) :
    Performs (World.persistence P cfg) t (Durable.afterBatch n none) w [] none
      ((Move.tick (w.trigger.recordWrites n) (w.ticks + 1)).result P cfg w) := by
  refine .perform_silent rfl rfl ?_
  rw [hf]
  exact .ret _ _

/-- The bookkeeping after a batch that fires the automatic commit. -/
theorem performs_afterBatch_fire {n : ℕ} (hi : w.Idle)
    (hf : (w.trigger.recordWrites n).shouldCommit w.now = true) :
    Performs (World.persistence P cfg) t (Durable.afterBatch n none) w
      ((Move.commit "auto" none none).effects P cfg w) (some w.collection.versions.nextVersion)
      ((Move.tick ((w.trigger.recordWrites n).noteCommit (w.clock (w.ticks + 1)))
        (w.ticks + 2)).result P cfg ((Move.commit "auto" none none).result P cfg w)) := by
  refine .perform_silent rfl rfl ?_
  rw [hf, if_pos rfl]
  refine (performs_inMemory (Collection.run_commit (by rw [hi.quiet.sealing]))).bind_silent ?_
  refine .perform_silent rfl rfl ?_
  exact (performs_persistVersions hi.keyed.commitNow).bind_ret rfl

theorem performs_checkpointSegments {ids : List SegmentId} (hk : w.collection.Keyed) :
    Performs (World.persistence P cfg) t (Durable.checkpointSegments ids) w
      ((ids.filterMap w.collection.allSegments).map .writeSegment)
      ((ids.filterMap w.collection.allSegments).map SealedSegment.id)
      (w.wrote P cfg (ids.filterMap w.collection.allSegments)) := by
  induction ids generalizing w with
  | nil => simpa [Durable.checkpointSegments] using Performs.ret _ _
  | cons id ids ih =>
    refine performs_getSegment.bind_silent ?_
    cases hs : w.collection.allSegments id with
    | none => simpa [hs] using ih hk
    | some seg =>
      have hwrote : w.wrote P cfg [seg] = { w with
          disk := w.disk.setSegment seg.id (some seg.rows)
          persistedSegments := insert id w.persistedSegments } := by
        simp [World.wrote, Disk.perform, hk id seg hs]
      have hrest := ih (w := w.wrote P cfg [seg]) hk
      rw [wrote_wrote] at hrest
      have hids : (w.wrote P cfg [seg]).collection.allSegments = w.collection.allSegments := rfl
      rw [hids] at hrest
      simp only [List.filterMap_cons, hs, List.map_cons]
      refine .perform_effect rfl rfl (.perform_silent rfl rfl ?_)
      rw [← hwrote, hk id seg hs]
      exact hrest.bind_ret rfl

/-- The end of a checkpoint: the next log, the new `HEAD`, and the old log removed. -/
theorem performs_checkpoint_swing {working : SegmentSet} {all : List SegmentId}
    {head : CheckpointHead}
    (hh : head = ⟨w.generation + 1, working.map SealedSegment.id, all, w.collection.nextGlobalId,
      w.collection.nextSegmentId, w.collection.workingDeletions, w.collection.payloads⟩) :
    Performs (World.persistence P cfg) t (do
        let old ← Durable.perform walGeneration
        Durable.perform (openWal (old + 1))
        let nextGlobal ← Durable.inMemory (Collection.perform .nextGlobalIdValue)
        let nextSegment ← Durable.inMemory (Collection.perform .nextSegmentIdValue)
        let deletions ← Durable.inMemory (Collection.perform .loadDeletions)
        let payloads ← Durable.inMemory (Collection.perform .payloadsSnapshot)
        Durable.perform (writeHead ⟨old + 1, working.map SealedSegment.id, all, nextGlobal,
          nextSegment, deletions, payloads⟩)
        Durable.perform (switchWal (old + 1))
        Durable.perform (removeWal old)
        Durable.perform unlockWal) w
      [.openLog (w.generation + 1), .writeHead head, .removeLog w.generation] PUnit.unit
      { w with
        disk := w.disk.performAll P cfg
          [.openLog (w.generation + 1), .writeHead head, .removeLog w.generation]
        generation := w.generation + 1
        walHolder := none } := by
  subst hh
  refine .perform_silent rfl rfl (.perform_effect rfl rfl ?_)
  refine (performs_inMemory_perform (c := w.collection) rfl).bind_silent ?_
  refine (performs_inMemory_perform (c := w.collection) rfl).bind_silent ?_
  refine (performs_inMemory_perform (c := w.collection) rfl).bind_silent ?_
  refine (performs_inMemory_perform (c := w.collection) rfl).bind_silent ?_
  refine .perform_effect rfl rfl (.perform_silent rfl rfl ?_)
  dsimp only
  exact .perform_effect rfl rfl (.last_silent rfl rfl rfl)

/-- **A checkpoint**, from a state whose appendable it has yet to seal. -/
theorem performs_checkpoint (hi : w.Idle) :
    Performs (World.persistence P cfg) t Durable.checkpoint w (Move.checkpoint.effects P cfg w)
      PUnit.unit (Move.checkpoint.result P cfg w) := by
  obtain ⟨r, hr⟩ := @Collection.run_sealAppendable P cfg w.collection t (by rw [hi.quiet.sealing])
  refine .perform_silent (if_pos hi.free) rfl
    ((performs_inMemory (w := { w with walHolder := some t }) hr).bind_silent ?_)
  dsimp only
  refine (performs_inMemory_perform (c := w.collection.sealNow) rfl).bind_silent ?_
  dsimp only
  refine performs_segmentIdsToPersist.bind_silent ?_
  refine (performs_checkpointSegments hi.keyed.sealNow).bind ?_
  have hswing := @performs_checkpoint_swing P cfg t (({ w with
      walHolder := some t, collection := w.collection.sealNow } : World).wrote P cfg
        (Move.checkpoint.prepare P cfg w).checkpointed) w.collection.sealNow.working
    ((Move.checkpoint.prepare P cfg w).checkpointed.map SealedSegment.id)
    (Move.checkpoint.prepare P cfg w).newHead rfl
  have hres : Move.checkpoint.result P cfg w = { (Move.checkpoint.result P cfg w) with
      walHolder := none } := (unlocked_eq (w := Move.checkpoint.result P cfg w) hi.free).symm
  rw [hres]
  simp only [Move.result, World.checkpoint, World.checkpointEffects, Disk.performAll_append]
  exact hswing

/-- The file of one dropped segment, deleted. -/
theorem performs_removeSegment {id : SegmentId} :
    Performs (World.persistence P cfg) t (do
        Durable.perform (removeSegment id)
        Durable.perform (persistedRemove id)) w [.removeSegment id] ()
      (w.removeSegments P cfg [id]) := by
  refine .perform_effect rfl rfl ?_
  have : w.removeSegments P cfg [id] = { w with
      disk := w.disk.setSegment id none
      persistedSegments := w.persistedSegments.erase id } := by
    simp [World.removeSegments, Disk.perform, Finset.sdiff_singleton_eq_erase]
  rw [this]
  exact .last_silent rfl rfl rfl

theorem removeSegments_cons (id : SegmentId) (ids : List SegmentId) :
    (w.removeSegments P cfg [id]).removeSegments P cfg ids =
      w.removeSegments P cfg (id :: ids) := by
  have hp : (w.persistedSegments \ [id].toFinset) \ ids.toFinset =
      w.persistedSegments \ (id :: ids).toFinset := by
    ext i
    simp only [Finset.mem_sdiff, List.mem_toFinset, List.mem_cons, List.not_mem_nil, or_false]
    tauto
  simp only [World.removeSegments, hp]
  rfl

theorem performs_removeSegments {ids : List SegmentId} :
    Performs (World.persistence P cfg) t (Durable.removeSegments ids) w
      (ids.map .removeSegment) PUnit.unit (w.removeSegments P cfg ids) := by
  induction ids generalizing w with
  | nil => simpa [World.removeSegments, Durable.removeSegments] using Performs.ret _ _
  | cons id ids ih =>
    rw [← removeSegments_cons]
    exact performs_removeSegment.bind ih

end Pieces

end Vecvec
