import Vecvec.Durable.Alone

/-!
# Durable/Recovery — what opening a directory rebuilds

`Disk.recover` is the collection a directory stands for: the checkpoint's working set, tombstones
and payloads, with the records of its log replayed on top.  `open` computes it, or fails when `HEAD`
or the versions file does not decode or a segment file is missing.
-/

namespace Vecvec

open Machinery DurableOp

namespace Disk

/-- The segment ids the versions file references. -/
def referenced (d : Disk) : List SegmentId := d.versions.elim [] VersionStoreSnapshot.referenced

/-- The segments `HEAD` and the versions file name: those a recovery loads. -/
def named (d : Disk) : List SegmentId :=
  match d.head with
  | some h => sortedIds (h.allSegmentIds ++ h.workingSegmentIds ++ d.referenced)
  | none => sortedIds d.referenced

/-- The segments `HEAD` names. -/
def headNamed (d : Disk) : List SegmentId :=
  d.head.elim [] fun h => h.allSegmentIds ++ h.workingSegmentIds

theorem mem_named {d : Disk} {id : SegmentId} :
    id ∈ d.named ↔ id ∈ d.headNamed ∨ id ∈ d.referenced := by
  rw [named, headNamed]
  cases d.head <;> simp [or_assoc]

theorem nodup_named (d : Disk) : d.named.Nodup := by
  rw [named]
  split <;> exact nodup_sortedIds _

/-- The segments of the checkpointed working set. -/
def workingIds (d : Disk) : List SegmentId := d.head.elim [] CheckpointHead.workingSegmentIds

/-- The generation of the active log. -/
def generation (d : Disk) : ℕ := d.head.elim 0 CheckpointHead.walGeneration

/-- Segment files, loaded; `none` if one is missing. -/
def loadFiles (files : SegmentId → Option (List Row)) :
    List SegmentId → Option (List SealedSegment)
  | [] => some []
  | id :: ids =>
    (files id).bind fun rows => (loadFiles files ids).map fun segs => ⟨id, rows⟩ :: segs

/-- The segments with these ids, if every file is there. -/
abbrev load (d : Disk) (ids : List SegmentId) : Option (List SealedSegment) :=
  loadFiles d.segments ids

/-- The checkpointed collection, before the log is replayed. -/
def base (d : Disk) (segs : List SealedSegment) : Collection :=
  { Collection.create with
    working := segs.filter fun s => s.id ∈ d.workingIds
    allSegments := Collection.insertSegments (fun _ => none) segs
    workingDeletions := d.head.elim ∅ CheckpointHead.deletions
    payloads := d.head.elim (fun _ => none) CheckpointHead.payloads
    versions := d.versions.elim .new .fromSnapshot
    nextGlobalId := d.head.elim 0 CheckpointHead.nextGlobalId
    nextSegmentId := d.head.elim 0 CheckpointHead.nextSegmentId }

variable (P : Platform) (cfg : CollectionConfig)

/-- The records a recovery replays. -/
def records (d : Disk) : List WalOp :=
  (readRecords P (WalFile.opened P (d.wals d.generation)).bytes).1

/-- `HEAD` and the versions file, as far as they are there, decode to what was written. -/
def Reads (d : Disk) : Prop := d.head.all P.headReads ∧ d.versions.all P.versionsRead

instance (d : Disk) : Decidable (d.Reads P) := inferInstanceAs (Decidable (_ ∧ _))

/-- **The collection a directory stands for.** -/
def recover (d : Disk) : Option Collection :=
  if d.Reads P then
    (d.load d.named).map fun segs => (d.records P).foldl (Collection.replay P cfg) (d.base segs)
  else none

variable {P cfg} {d : Disk}

/-- What a directory is recovered to. -/
theorem of_recover {c : Collection} (h : d.recover P cfg = some c) : ∃ segs,
    d.load d.named = some segs ∧
      (d.records P).foldl (Collection.replay P cfg) (d.base segs) = c := by
  rw [recover] at h
  split at h
  · exact Option.map_eq_some_iff.mp h
  · cases h

theorem reads_of_recover {c : Collection} (h : d.recover P cfg = some c) : d.Reads P := by
  rw [recover] at h
  split at h
  · assumption
  · cases h

theorem load_eq_some {ids : List SegmentId} {segs : List SealedSegment}
    (h : d.load ids = some segs) :
    segs.map SealedSegment.id = ids ∧ ∀ s ∈ segs, d.segments s.id = some s.rows := by
  induction ids generalizing segs with
  | nil =>
    cases h
    exact ⟨rfl, fun s hs => by cases hs⟩
  | cons id ids ih =>
    obtain ⟨rows, hrows, h⟩ := Option.bind_eq_some_iff.mp h
    obtain ⟨segs', hsegs, rfl⟩ := Option.map_eq_some_iff.mp h
    obtain ⟨hids, hall⟩ := ih hsegs
    refine ⟨by rw [List.map_cons, hids], fun s hs => ?_⟩
    rcases List.mem_cons.mp hs with rfl | hs
    · exact hrows
    · exact hall s hs

/-- **A load succeeds when every file is there.** -/
theorem isSome_load {ids : List SegmentId} :
    (d.load ids).isSome ↔ ∀ id ∈ ids, (d.segments id).isSome := by
  induction ids with
  | nil => simp [loadFiles]
  | cons id ids ih =>
    rw [load, loadFiles, List.forall_mem_cons, ← ih]
    cases d.segments id <;> simp

/-- Every segment file that `HEAD` or a manifest of the versions file names is there. -/
structure Complete (d : Disk) : Prop where
  /-- The files `HEAD` names. -/
  head : ∀ h, d.head = some h → ∀ id ∈ h.workingSegmentIds ++ h.allSegmentIds,
    (d.segments id).isSome
  /-- The files the manifests name. -/
  versions : ∀ s, d.versions = some s → ∀ m ∈ s.manifests, ∀ id ∈ m.segmentIds,
    (d.segments id).isSome

theorem complete_iff : d.Complete ↔
    (∀ id ∈ d.headNamed, (d.segments id).isSome) ∧ ∀ id ∈ d.referenced, (d.segments id).isSome := by
  rw [headNamed, referenced]
  refine ⟨fun h => ⟨fun id hid => ?_, fun id hid => ?_⟩, fun h => ⟨fun hd hh id hid => ?_,
    fun s hs m hm id hid => ?_⟩⟩
  · cases hh : d.head with
    | none => simp [hh] at hid
    | some hd => exact h.head hd hh id (by simpa [hh, or_comm] using hid)
  · cases hs : d.versions with
    | none => simp [hs] at hid
    | some s =>
      rw [hs] at hid
      obtain ⟨m, hm, hid⟩ := List.mem_flatMap.mp hid
      exact h.versions s hs m hm id hid
  · exact h.1 id (by simpa [hh, or_comm] using hid)
  · refine h.2 id ?_
    rw [hs]
    exact List.mem_flatMap.mpr ⟨m, hm, hid⟩

/-- **A directory can be recovered exactly when its files decode and it is complete.** -/
theorem isSome_recover : (d.recover P cfg).isSome ↔ d.Reads P ∧ d.Complete := by
  rw [recover]
  split
  · rw [Option.isSome_map, isSome_load, complete_iff, and_iff_right ‹_›]
    simp only [mem_named, or_imp, forall_and]
  · exact iff_of_false (by simp) fun h => absurd h.1 ‹_›

theorem Survives.named_eq {d' : Disk} (h : d.Survives d') :
    d'.headNamed = d.headNamed ∧ d'.referenced = d.referenced ∧ d'.segments = d.segments := by
  obtain ⟨-, hh, hv, hs, -⟩ := h
  exact ⟨by rw [headNamed, headNamed, hh], by rw [referenced, referenced, hv], hs⟩

theorem Reads.survives {d' : Disk} (hd : d.Reads P) (h : d.Survives d') : d'.Reads P := by
  obtain ⟨-, hh, hv, -⟩ := h
  rwa [Reads, hh, hv]

theorem Complete.survives {d' : Disk} (hd : d.Complete) (h : d.Survives d') : d'.Complete := by
  obtain ⟨hh, hv, hs⟩ := h.named_eq
  rw [complete_iff, hh, hv, hs]
  exact complete_iff.mp hd

end Disk

variable {P : Platform} {cfg : CollectionConfig} {t : ℕ} {w : World}

theorem performs_loadSegments {ids : List SegmentId} {segs : List SealedSegment}
    (hl : w.disk.load ids = some segs) :
    Performs (World.persistence P cfg) t (Durable.loadSegments ids) w [] (.ok segs)
      { w with persistedSegments := w.persistedSegments ∪ ids.toFinset } := by
  induction ids generalizing w segs with
  | nil =>
    cases hl
    simpa [Durable.loadSegments] using Performs.ret _ _
  | cons id ids ih =>
    obtain ⟨rows, hrows, hl⟩ := Option.bind_eq_some_iff.mp hl
    obtain ⟨segs', hsegs, rfl⟩ := Option.map_eq_some_iff.mp hl
    refine .perform_silent rfl rfl ?_
    rw [hrows]
    refine .perform_silent rfl rfl ?_
    have hrest := ih (w := { w with persistedSegments := insert id w.persistedSegments }) hsegs
    have hp : insert id w.persistedSegments ∪ ids.toFinset =
        w.persistedSegments ∪ (id :: ids).toFinset := by simp
    rw [hp] at hrest
    exact hrest.bind_ret rfl

theorem performs_loadSegments_error {ids : List SegmentId} (hl : w.disk.load ids = none) :
    ∃ e s, Performs (World.persistence P cfg) t (Durable.loadSegments ids) w [] (.error e)
      { w with persistedSegments := s } := by
  induction ids generalizing w with
  | nil => cases hl
  | cons id ids ih =>
    cases hrows : w.disk.segments id with
    | none =>
      refine ⟨.io s!"segments/{id}.seg", w.persistedSegments, .perform_silent rfl rfl ?_⟩
      rw [hrows]
      exact .ret _ _
    | some rows =>
      rw [Disk.load, Disk.loadFiles, hrows, Option.bind_some, Option.map_eq_none_iff] at hl
      obtain ⟨e, s, hrest⟩ := ih (w := { w with
        persistedSegments := insert id w.persistedSegments }) hl
      refine ⟨e, s, .perform_silent rfl rfl ?_⟩
      rw [hrows]
      exact .perform_silent rfl rfl (hrest.bind_ret rfl)

theorem performs_applyOp {op : WalOp} (hq : w.collection.Quiet) :
    Performs (World.persistence P cfg) t (Durable.applyOp cfg op) w [] PUnit.unit
      { w with collection := w.collection.replay P cfg op } := by
  cases op with
  | upsert id v p =>
    by_cases hv : v.length = cfg.dim
    · have hput : run (Collection.step P cfg) t (Collection.insertWithIdAndPayload cfg id v p)
          w.collection = some (.ok (), w.collection.put P cfg id v p) := by
        rw [Collection.run_insertWithIdAndPayload hq.payloadReaders hv]
        simp [hq.inserting, Collection.put]
      rw [Collection.replay, if_pos hv]
      exact (performs_inMemory hput).bind_ret rfl
    · rw [Collection.replay, if_neg hv]
      exact (performs_inMemory (Collection.run_insertWithIdAndPayload_error hv)).bind_ret rfl
  | delete id => exact (performs_inMemory Collection.run_delete).bind_ret rfl

theorem performs_forM_applyOp {ops : List WalOp} (hq : w.collection.Quiet) :
    Performs (World.persistence P cfg) t (ops.forM (Durable.applyOp cfg)) w [] PUnit.unit
      { w with collection := ops.foldl (Collection.replay P cfg) w.collection } := by
  induction ops generalizing w with
  | nil => exact .ret _ _
  | cons op ops ih => exact (performs_applyOp hq).bind_silent (ih (hq.replay op))

theorem performs_installRecovered {segs : List SealedSegment} {ids : List SegmentId} :
    Performs (World.persistence P cfg) t (Durable.installRecovered segs ids) w [] PUnit.unit
      { w with collection := { w.collection with
        allSegments := Collection.insertSegments w.collection.allSegments segs
        working := segs.filter fun s => s.id ∈ ids } } := by
  refine (performs_inMemory_perform (c := { w.collection with
    allSegments := Collection.insertSegments w.collection.allSegments segs }) rfl).bind_silent ?_
  exact performs_inMemory_perform (by rfl)

/-- The log opened and replayed. -/
theorem performs_replayLog {g : ℕ} (hq : w.collection.Quiet) :
    Performs (World.persistence P cfg) t (Durable.openCollection.replayLog cfg g) w [.openLog g]
      (.ok ())
      { w with
        disk := w.disk.perform P cfg (.openLog g)
        collection := (readRecords P (WalFile.opened P (w.disk.wals g)).bytes).1.foldl
          (Collection.replay P cfg) w.collection
        generation := g } := by
  refine .perform_effect rfl rfl (.perform_silent rfl rfl ?_)
  refine (performs_forM_applyOp (by exact hq)).bind_silent ?_
  have hw : ({ w with disk := w.disk.setWal g (some (WalFile.opened P (w.disk.wals g))) } :
      World).disk.wals g = some (WalFile.opened P (w.disk.wals g)) := Function.update_self ..
  rw [hw]
  exact .perform_silent rfl rfl (.ret _ _)

/-! ## Reading the files -/

theorem step_readHead (h : w.disk.head.all P.headReads) :
    World.step P cfg t .readHead w = some (.ok w.disk.head, w) :=
  congrArg (fun r => some (r, w)) (readBack_of_all h)

theorem step_readVersions (h : w.disk.versions.all P.versionsRead) :
    World.step P cfg t .readVersions w = some (.ok w.disk.versions, w) :=
  congrArg (fun r => some (r, w)) (readBack_of_all h)

variable {d : Disk} {fsync : FsyncMode} {clock : ℕ → ℕ}

/-- The process after a directory is opened. -/
def World.opened (P : Platform) (cfg : CollectionConfig) (d : Disk) (fsync : FsyncMode)
    (clock : ℕ → ℕ) (c : Collection) : World :=
  { World.boot (d.performAll P cfg [.writeConfig, .openLog d.generation]) cfg fsync clock with
    collection := c
    generation := d.generation
    persistedSegments := d.named.toFinset }

theorem quiet_base (segs : List SealedSegment) : (d.base segs).Quiet := ⟨rfl, rfl, rfl⟩

/-- The checkpoint and the log, once the versions file is loaded. -/
theorem performs_recoverCheckpoint {segs : List SealedSegment}
    (hw : w.collection = { Collection.create with
      versions := w.disk.versions.elim .new .fromSnapshot })
    (hhead : w.disk.head.all P.headReads) (hsegs : w.disk.load w.disk.named = some segs) :
    Performs (World.persistence P cfg) t
      (Durable.openCollection.recoverCheckpoint cfg w.disk.referenced) w
      [.openLog w.disk.generation] (.ok ())
      { w with
        disk := w.disk.perform P cfg (.openLog w.disk.generation)
        collection := (w.disk.records P).foldl (Collection.replay P cfg) (w.disk.base segs)
        generation := w.disk.generation
        persistedSegments := w.persistedSegments ∪ w.disk.named.toFinset } := by
  refine .perform_silent (step_readHead hhead) rfl ?_
  have hload := @performs_loadSegments P cfg t w _ segs hsegs
  cases hh : w.disk.head with
  | some h =>
    have hnamed : w.disk.named =
        sortedIds (h.allSegmentIds ++ h.workingSegmentIds ++ w.disk.referenced) := by
      rw [Disk.named, hh]
    have hbase : w.disk.base segs = { w.collection with
        allSegments := Collection.insertSegments w.collection.allSegments segs
        working := segs.filter fun s => s.id ∈ h.workingSegmentIds
        nextGlobalId := h.nextGlobalId
        nextSegmentId := h.nextSegmentId
        workingDeletions := h.deletions
        payloads := h.payloads } := by
      rw [hw, Disk.base, Disk.workingIds, hh]
      rfl
    have hgen : w.disk.generation = h.walGeneration := by rw [Disk.generation, hh]; rfl
    rw [Disk.records, hgen, hbase]
    rw [hnamed] at hload ⊢
    refine hload.bind_silent (performs_installRecovered.bind_silent ?_)
    refine (performs_inMemory_perform (by rfl)).bind_silent ?_
    refine (performs_inMemory_perform (by rfl)).bind_silent ?_
    refine (performs_inMemory_perform (by rfl)).bind_silent ?_
    exact performs_replayLog (by rw [hw]; exact ⟨rfl, rfl, rfl⟩)
  | none =>
    have hnamed : w.disk.named = sortedIds w.disk.referenced := by rw [Disk.named, hh]
    have hbase : w.disk.base segs = { w.collection with
        allSegments := Collection.insertSegments w.collection.allSegments segs
        working := segs.filter fun s => s.id ∈ ([] : List SegmentId) } := by
      rw [hw, Disk.base, Disk.workingIds, hh]
      rfl
    have hgen : w.disk.generation = 0 := by rw [Disk.generation, hh]; rfl
    rw [Disk.records, hgen, hbase]
    rw [hnamed] at hload ⊢
    refine hload.bind_silent (performs_installRecovered.bind_silent ?_)
    exact performs_replayLog (by rw [hw]; exact ⟨rfl, rfl, rfl⟩)

theorem performs_open {c : Collection} (hc : d.recover P cfg = some c) :
    Performs (World.persistence P cfg) t (Durable.openCollection cfg)
      (World.boot d cfg fsync clock) [.writeConfig, .openLog d.generation] (.ok ())
      (World.opened P cfg d fsync clock c) := by
  obtain ⟨hhead, hversions⟩ := Disk.reads_of_recover hc
  obtain ⟨segs, hsegs, rfl⟩ := Disk.of_recover hc
  refine .perform_effect rfl rfl ?_
  set w₀ : World := World.boot (d.perform P cfg .writeConfig) cfg fsync clock with hw₀
  have hreplay := @performs_recoverCheckpoint P cfg t { w₀ with
    collection.versions := d.versions.elim .new .fromSnapshot } segs rfl hhead hsegs
  have hres : World.opened P cfg d fsync clock
      ((d.records P).foldl (Collection.replay P cfg) (d.base segs)) = { w₀ with
        disk := w₀.disk.perform P cfg (.openLog w₀.disk.generation)
        collection := (w₀.disk.records P).foldl (Collection.replay P cfg) (w₀.disk.base segs)
        generation := w₀.disk.generation
        persistedSegments := w₀.persistedSegments ∪ w₀.disk.named.toFinset } := by
    have hp : w₀.persistedSegments ∪ w₀.disk.named.toFinset = d.named.toFinset :=
      Finset.empty_union _
    rw [hp]
    rfl
  rw [hres]
  have hread : World.step P cfg t .readVersions w₀ = some (.ok d.versions, w₀) :=
    step_readVersions hversions
  refine .perform_silent hread rfl ?_
  cases hv : d.versions with
  | some s =>
    have href : w₀.disk.referenced = s.referenced := by
      change d.versions.elim [] VersionStoreSnapshot.referenced = _
      rw [hv]
      rfl
    rw [hv] at hreplay
    refine (performs_inMemory_perform (by rfl)).bind_silent ?_
    rw [← href]
    exact hreplay
  | none =>
    have href : w₀.disk.referenced = [] := by
      change d.versions.elim [] VersionStoreSnapshot.referenced = _
      rw [hv]
      rfl
    rw [hv] at hreplay
    dsimp only
    rw [← href]
    exact hreplay

theorem performs_recoverCheckpoint_error
    (hw : w.disk.head.all P.headReads → w.disk.load w.disk.named = none) :
    ∃ e w', Performs (World.persistence P cfg) t
      (Durable.openCollection.recoverCheckpoint cfg w.disk.referenced) w [] (.error e) w' := by
  by_cases hhead : w.disk.head.all P.headReads
  · obtain ⟨e, s, hload⟩ := @performs_loadSegments_error P cfg t w _ (hw hhead)
    refine ⟨e, { w with persistedSegments := s }, .perform_silent (step_readHead hhead) rfl ?_⟩
    cases hh : w.disk.head with
    | some h =>
      rw [Disk.named, hh] at hload
      exact hload.bind_ret rfl
    | none =>
      rw [Disk.named, hh] at hload
      exact hload.bind_ret rfl
  · have hread : World.step P cfg t .readHead w = some (.error .serialization, w) :=
      congrArg (fun r => some (r, w)) (readBack_of_not hhead)
    exact ⟨_, w, .perform_silent hread rfl (.ret _ _)⟩

/-- **Opening fails exactly when `HEAD` or the versions file does not decode, or a named segment
file is missing.** -/
theorem performs_open_error (hd : d.recover P cfg = none) :
    ∃ e w', Performs (World.persistence P cfg) t (Durable.openCollection cfg)
      (World.boot d cfg fsync clock) [.writeConfig] (.error e) w' := by
  set w₀ : World := World.boot (d.perform P cfg .writeConfig) cfg fsync clock with hw₀
  by_cases hversions : d.versions.all P.versionsRead
  · have hl : d.head.all P.headReads → d.load d.named = none := fun hhead => by
      rw [Disk.recover, if_pos ⟨hhead, hversions⟩] at hd
      exact Option.map_eq_none_iff.mp hd
    have hread : World.step P cfg t .readVersions w₀ = some (.ok d.versions, w₀) :=
      step_readVersions hversions
    cases hv : d.versions with
    | some s =>
      have href : w₀.disk.referenced = s.referenced := by
        change d.versions.elim [] VersionStoreSnapshot.referenced = _
        rw [hv]
        rfl
      obtain ⟨e, w', hp⟩ := @performs_recoverCheckpoint_error P cfg t
        { w₀ with collection.versions := .fromSnapshot s } hl
      refine ⟨e, w', .perform_effect rfl rfl ?_⟩
      refine .perform_silent hread rfl ?_
      rw [hv]
      refine (performs_inMemory_perform (by rfl)).bind_silent ?_
      rw [← href]
      exact hp
    | none =>
      have href : w₀.disk.referenced = [] := by
        change d.versions.elim [] VersionStoreSnapshot.referenced = _
        rw [hv]
        rfl
      obtain ⟨e, w', hp⟩ := @performs_recoverCheckpoint_error P cfg t w₀ hl
      refine ⟨e, w', .perform_effect rfl rfl (.perform_silent hread rfl ?_)⟩
      rw [hv]
      dsimp only
      rw [← href]
      exact hp
  · have hread : World.step P cfg t .readVersions w₀ = some (.error .serialization, w₀) :=
      congrArg (fun r => some (r, w₀)) (readBack_of_not hversions)
    exact ⟨_, w₀, .perform_effect rfl rfl (.perform_silent hread rfl (.ret _ _))⟩

end Vecvec
