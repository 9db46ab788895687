import Vecvec.Durable.Reopen
import Vecvec.Durable.Standing
import Vecvec.Durable.Writes

/-!
# Durable/Ledger — a collection and its directory stand for known points

Between two requests the collection in memory and the directory on disk each stand for a ledger.  A
batch is entered in both, a checkpoint makes the directory's the collection's, a restore changes the
collection's only, and every other move leaves both alone — provided a collection pass spares the
files `HEAD` names, and a version that is restored has no segment id from the allocator on.
-/

namespace Vecvec

open Machinery

variable {P : Platform} {cfg : CollectionConfig}

/-! ## Files of the checkpointed working set -/

/-- The files of the checkpointed working set hold what is registered under their ids, which have
been given out. -/
def Disk.Anchors (d : Disk) (c : Collection) : Prop :=
  ∀ i ∈ d.workingIds, i < c.nextSegmentId ∧
    ∃ seg, c.allSegments i = some seg ∧ d.segments i = some seg.rows

namespace Disk.Anchors

variable {d : Disk} {c : Collection}

/-- The same `HEAD`, and its files. -/
theorem keep {d' : Disk} (h : d.Anchors c) (hh : d'.head = d.head)
    (hs : ∀ i ∈ d.workingIds, d'.segments i = d.segments i) : d'.Anchors c := by
  intro i hi
  have hi : i ∈ d.workingIds := by rwa [Disk.workingIds, hh] at hi
  obtain ⟨hlt, s, hmem, hf⟩ := h i hi
  exact ⟨hlt, s, hmem, (hs i hi).trans hf⟩

/-- A segment registered under the next id. -/
theorem insert (h : d.Anchors c) {seg : SealedSegment} (hid : seg.id = c.nextSegmentId)
    {i : SegmentId} (hi : i ∈ d.workingIds) : i < c.nextSegmentId + 1 ∧
      ∃ s, Collection.insertSegments c.allSegments [seg] i = some s ∧
        d.segments i = some s.rows := by
  obtain ⟨hlt, s, hs, hf⟩ := h i hi
  refine ⟨Nat.lt_succ_of_lt hlt, s, ?_, hf⟩
  rw [Collection.insertSegments_singleton, Function.update_of_ne (hid ▸ hlt.ne), hs]

theorem sealNow (h : d.Anchors c) : d.Anchors c.sealNow := by
  unfold Collection.sealNow
  split
  · exact h
  · exact fun i hi => h.insert rfl hi

theorem compactNow (h : d.Anchors c) : d.Anchors (c.compactNow P cfg) := fun _ hi => h.insert rfl hi

theorem gcNow (h : d.Anchors c) {rules : RetentionRules}
    (hspare : ∀ id ∈ c.dropped rules, id ∉ d.workingIds) : d.Anchors (c.gcNow rules) := by
  intro i hi
  obtain ⟨hlt, s, hs, hf⟩ := h i hi
  refine ⟨hlt, s, ?_, hf⟩
  change (if i ∈ c.dropped rules then none else c.allSegments i) = some s
  rw [if_neg fun hd => hspare i hd hi, hs]

end Disk.Anchors

/-! ## What a move spares -/

/-- A collection pass spares the files `HEAD` names. -/
def Move.SparesNamed (w : World) : Move → Prop
  | .gc rules => ∀ id ∈ w.collection.dropped rules, id ∉ w.disk.headNamed
  | _ => True

/-- A restored version has segment ids that have been given out. -/
def Move.Placed (w : World) : Move → Prop
  | .restore _ m => ∀ id ∈ m.segmentIds, id < w.collection.nextSegmentId
  | _ => True

variable {w w' : World} {m : Move} {d d₀ : Disk} {L : GlobalId → List F32} {n : GlobalId}
  {es : List DiskEffect} {l : List WalOp}

theorem Disk.workingIds_subset_headNamed {i : SegmentId} (hi : i ∈ d.workingIds) :
    i ∈ d.headNamed := by
  rw [Disk.workingIds] at hi
  rw [Disk.headNamed]
  cases hh : d.head with
  | none => simp [hh] at hi
  | some h => exact List.mem_append_right _ (by simpa [hh] using hi)

/-- Registered segments, written. -/
theorem World.spares_writeSegments (hk : w.collection.Keyed) (hc : w.collection.Known P cfg L n)
    (ha : d₀.Anchors w.collection) {ids : List SegmentId} :
    ∀ e ∈ (ids.filterMap w.collection.allSegments).map DiskEffect.writeSegment,
      e.Spares P cfg L n d₀ := by
  intro e he
  obtain ⟨s, hs, rfl⟩ := List.mem_map.mp he
  obtain ⟨id, -, hs⟩ := List.mem_filterMap.mp hs
  obtain rfl := hk id s hs
  refine ⟨hc.registered _ s hs, fun hi => ?_⟩
  obtain ⟨-, s', hs', hf⟩ := ha _ hi
  cases hs.symm.trans hs'
  exact hf

theorem World.spares_persistEffects (hk : w.collection.Keyed) (hc : w.collection.Known P cfg L n)
    (ha : d₀.Anchors w.collection) : ∀ e ∈ w.persistEffects, e.Spares P cfg L n d₀ := by
  intro e he
  rcases List.mem_append.mp he with he | he
  · exact World.spares_writeSegments hk hc ha e he
  · rw [List.mem_singleton.mp he]
    intro m hm
    obtain ⟨v, hv⟩ := VersionStore.mem_manifests.mp hm
    exact hc.versions v m hv

theorem World.spares_checkpointEffects (hk : w.collection.Keyed)
    (hc : w.collection.Known P cfg L n) (ha : d₀.Anchors w.collection) :
    ∀ e ∈ w.checkpointEffects, e.Spares P cfg L n d₀ := by
  intro e he
  rcases List.mem_append.mp he with he | he
  · exact World.spares_writeSegments hk hc ha e he
  · simp only [List.mem_cons, List.not_mem_nil, or_false] at he
    rcases he with rfl | rfl | rfl <;> trivial

/-- **What a move that logs nothing finds in memory** is known as before. -/
theorem Move.known_prepare (hk : w.collection.Keyed) (hc : w.collection.Known P cfg L n)
    (hp : w.collection.Placed) (ha : w.disk.Anchors w.collection) (hm : m.Enabled cfg w)
    (ht : m.SparesNamed w) :
    (m.prepare P cfg w).collection.Keyed ∧ (m.prepare P cfg w).collection.Known P cfg L n ∧
      w.disk.Anchors (m.prepare P cfg w).collection ∧
      (m.prepare P cfg w).collection.nextGlobalId = w.collection.nextGlobalId := by
  cases m with
  | log | tick => exact ⟨hk, hc, ha, rfl⟩
  | commit =>
    exact ⟨hk.commitNow, hc.commitNow fun _ => hp, ha.sealNow, Collection.sealNow_nextGlobalId⟩
  | restore v m =>
    exact ⟨hk.restoreNow, hc.restoreNow hk hm,
      Disk.Anchors.sealNow (c := w.collection.repoint m) ha,
      @Collection.sealNow_nextGlobalId (w.collection.repoint m)⟩
  | point vs =>
    obtain ⟨name, v, hv⟩ := hm
    have hcommits : vs.commits = w.collection.versions.commits := by
      rcases hv with hv | hv
      · exact (VersionStore.commits_of_setTag hv).1
      · exact (VersionStore.commits_of_setBranch hv).1
    exact ⟨hk, hc.withVersions hcommits, ha, rfl⟩
  | compact => exact ⟨hk.compactNow, hc.compactNow, ha.compactNow, rfl⟩
  | checkpoint =>
    exact ⟨hk.sealNow, hc.sealNow fun _ => hp, ha.sealNow, Collection.sealNow_nextGlobalId⟩
  | gc rules =>
    exact ⟨hk.gcNow, hc.gcNow,
      ha.gcNow fun id hd hi => ht id hd (Disk.workingIds_subset_headNamed hi), rfl⟩

/-- The ids of the working segments, after a move that logs nothing. -/
theorem Move.placed_prepare (hk : w.collection.Keyed) (hp : w.collection.Placed)
    (hm : m.Placed w) : (m.prepare P cfg w).collection.Placed := by
  cases m with
  | log | tick | point | gc => exact hp
  | commit | checkpoint => exact hp.sealNow
  | restore v m => exact Collection.Placed.restoreNow hk hm
  | compact => exact Collection.Placed.compactNow _

/-- **The effects of a move** spare the checkpointed working set. -/
theorem Move.spares_effects (hk : w.collection.Keyed) (hc : w.collection.Known P cfg L n)
    (hp : w.collection.Placed) (ha : w.disk.Anchors w.collection) (hm : m.Enabled cfg w)
    (ht : m.SparesNamed w) :
    ∀ e ∈ m.effects P cfg w, e.Spares P cfg L n w.disk := by
  obtain ⟨hk', hc', ha', -⟩ := Move.known_prepare hk hc hp ha hm ht
  cases m with
  | log ups dels =>
    intro e he
    rcases List.mem_append.mp he with he | he
    · obtain ⟨op, -, rfl⟩ := List.mem_map.mp he
      trivial
    · rw [List.mem_singleton.mp he]
      trivial
  | compact | tick => exact fun e he => by cases he
  | commit | restore | point => exact World.spares_persistEffects hk' hc' ha'
  | checkpoint => exact World.spares_checkpointEffects hk' hc' ha'
  | gc rules =>
    intro e he
    rcases List.mem_append.mp he with he | he
    · obtain ⟨id, hid, rfl⟩ := List.mem_map.mp he
      exact fun hi => ht id hid (Disk.workingIds_subset_headNamed hi)
    · exact World.spares_persistEffects hk' hc' ha' e he

/-! ## A process and its directory -/

variable (P cfg) in
/-- A process whose rows are known, and its directory's files, whatever is in the log. -/
structure World.Held (L : GlobalId → List F32) (w : World) : Prop where
  /-- No call is in progress. -/
  idle : w.Idle
  /-- What is in memory is known. -/
  memory : w.collection.Known P cfg L w.collection.nextGlobalId
  /-- The working segments' ids have been given out. -/
  placed : w.collection.Placed
  /-- The files are known. -/
  filed : w.disk.Filed P cfg L w.collection.nextGlobalId
  /-- The files of the checkpointed working set hold what is registered. -/
  anchored : w.disk.Anchors w.collection

variable (P cfg) in
/-- **A process and its directory, both standing for known points.** -/
structure World.Durable (L : GlobalId → List F32) (w : World) : Prop extends
    World.Held P cfg L w where
  /-- The process is in step with its log. -/
  synced : w.Synced P
  /-- What is on disk is known. -/
  disk : w.disk.Known P cfg L (w.disk.allocator P cfg)
  /-- The allocators agree. -/
  allocator : w.disk.allocator P cfg = w.collection.nextGlobalId

/-- The records of a move are numbered. -/
theorem Move.numbered_logs (hm : m.Enabled cfg w) :
    Numbered cfg w.collection.nextGlobalId (m.logs w) := by
  cases m with
  | log ups dels => exact numbered_batchRecords hm
  | _ => trivial

/-- What a move leaves in memory, if it logs nothing. -/
theorem Move.result_collection (hm : ¬ m.IsLog) :
    (m.result P cfg w).collection = (m.prepare P cfg w).collection := by
  cases m with
  | log => exact absurd trivial hm
  | _ => rfl

namespace World.Held

/-- **A move cut off anywhere** keeps the files of the checkpointed working set. -/
theorem keeps (h : w.Held P cfg L) (hm : m.Enabled cfg w) (ht : m.SparesNamed w)
    (hes : es <+: m.effects P cfg w) :
    Disk.Keeps P cfg L w.collection.nextGlobalId w.disk (w.disk.performAll P cfg es) :=
  (h.filed.along_keeps (Move.spares_effects h.idle.keyed h.memory h.placed h.anchored hm ht)).upto
    hes

theorem nextGlobalId_result (h : w.Held P cfg L) (hm : m.Enabled cfg w) (ht : m.SparesNamed w) :
    (m.result P cfg w).collection.nextGlobalId =
      (m.logs w).foldl (bump cfg) w.collection.nextGlobalId := by
  by_cases hlog : m.IsLog
  · cases m with
    | log ups dels => exact Collection.foldl_replay_nextGlobalId _ _
    | _ => exact hlog.elim
  · rw [Move.logs_of_not_isLog hlog, Move.result_collection hlog]
    exact (Move.known_prepare h.idle.keyed h.memory h.placed h.anchored hm ht).2.2.2

/-- What a move leaves in memory is known, the vectors of its records being learned. -/
theorem memory_result (h : w.Held P cfg L) (hm : m.Enabled cfg w) (ht : m.SparesNamed w) :
    (m.result P cfg w).collection.Known P cfg ((m.logs w).foldl learn L)
      (m.result P cfg w).collection.nextGlobalId := by
  by_cases hlog : m.IsLog
  · cases m with
    | log ups dels => exact h.memory.learn (numbered_batchRecords hm)
    | _ => exact hlog.elim
  · obtain ⟨-, hc, -, hn⟩ := Move.known_prepare h.idle.keyed h.memory h.placed h.anchored hm ht
    rw [Move.result_collection hlog, Move.logs_of_not_isLog hlog, hn]
    exact hc

theorem placed_result (h : w.Held P cfg L) (hm : m.Placed w) :
    (m.result P cfg w).collection.Placed := by
  by_cases hlog : m.IsLog
  · cases m with
    | log ups dels =>
      intro s hs
      have hs : s ∈ w.collection.working := by
        rw [← @Collection.foldl_replay_working P cfg]
        exact hs
      exact (h.placed s hs).trans_eq (Collection.foldl_replay_nextSegmentId _).symm
    | _ => exact hlog.elim
  · rw [Move.result_collection hlog]
    exact Move.placed_prepare h.idle.keyed h.placed hm

/-- The checkpointed working set's files, after a move that leaves `HEAD` alone. -/
theorem anchored_result (h : w.Held P cfg L) (hm : m.Enabled cfg w) (ht : m.SparesNamed w)
    (hh : (m.result P cfg w).disk.head = w.disk.head) :
    (m.result P cfg w).disk.Anchors (m.result P cfg w).collection := by
  have hk := h.keeps hm ht List.prefix_rfl
  rw [← Move.result_disk] at hk
  have hanchored : w.disk.Anchors (m.result P cfg w).collection := by
    by_cases hlog : m.IsLog
    · cases m with
      | log ups dels =>
        intro i hi
        obtain ⟨hlt, s, hs, hf⟩ := h.anchored i hi
        exact ⟨hlt.trans_eq (Collection.foldl_replay_nextSegmentId _).symm, s,
          (congrFun (Collection.foldl_replay_allSegments _) i).trans hs, hf⟩
      | _ => exact hlog.elim
    · rw [Move.result_collection hlog]
      exact (Move.known_prepare h.idle.keyed h.memory h.placed h.anchored hm ht).2.2.1
  exact hanchored.keep hh hk.working

/-- **A move that leaves `HEAD` alone** keeps a process and its files known. -/
theorem move (h : w.Held P cfg L) (hm : m.Enabled cfg w) (ht : m.SparesNamed w)
    (hpl : m.Placed w) (hh : (m.result P cfg w).disk.head = w.disk.head) :
    (m.result P cfg w).Held P cfg ((m.logs w).foldl learn L) := by
  have hk := h.keeps hm ht List.prefix_rfl
  rw [← Move.result_disk] at hk
  refine ⟨Move.idle h.idle m, h.memory_result hm ht, h.placed_result hpl, ?_,
    h.anchored_result hm ht hh⟩
  rw [h.nextGlobalId_result hm ht]
  exact hk.filed.mono (fun id hid => (Move.numbered_logs hm).learn_of_lt L hid)
    (le_foldl_bump _ _)

end World.Held

/-- **The old `HEAD`, with a prefix of a move's records in its log.** -/
theorem World.Durable.logged (h : w.Durable P cfg L) (hm : m.Enabled cfg w)
    (hk : Disk.Keeps P cfg L w.collection.nextGlobalId w.disk d) (hh : d.head = w.disk.head)
    (hl : l <+: m.logs w) (hr : d.records P = w.disk.records P ++ l) :
    d.Known P cfg (l.foldl learn L) (d.allocator P cfg) ∧
      d.standing P cfg = l.foldl (Standing.replay cfg) (w.disk.standing P cfg) := by
  refine h.disk.extend hh hk.working ?_ hr ?_ <;> rw [h.allocator]
  · exact hk.filed
  · exact (Move.numbered_logs hm).of_isPrefix hl

/-! ### A checkpoint -/

/-- The registered segments found under different ids have different ids. -/
theorem World.nodup_map_filterMap (hk : w.collection.Keyed) {ids : List SegmentId}
    (hids : ids.Nodup) :
    ((ids.filterMap w.collection.allSegments).map SealedSegment.id).Nodup := by
  induction ids with
  | nil => exact List.nodup_nil
  | cons id ids ih =>
    obtain ⟨hid, hids⟩ := List.nodup_cons.mp hids
    cases hs : w.collection.allSegments id with
    | none => simpa [hs] using ih hids
    | some s =>
      rw [List.filterMap_cons_some hs, List.map_cons, List.nodup_cons, hk id s hs]
      exact ⟨fun hmem => hid ((World.mem_map_filterMap_allSegments hk).mp hmem).1, ih hids⟩

/-- A checkpoint writes every working segment. -/
theorem World.segments_checkpointed (hk : w.collection.Keyed) (hc : w.collection.Known P cfg L n)
    {s : SealedSegment} (hs : s ∈ w.collection.working) :
    (w.disk.performAll P cfg (w.checkpointed.map .writeSegment)).segments s.id = some s.rows := by
  rw [Disk.performAll_writeSegments]
  refine fill_of_mem (w.nodup_map_filterMap hk (nodup_sortedIds _)) ?_
  exact List.mem_filterMap.mpr
    ⟨s.id, World.mem_toPersist.mpr (.inl (List.mem_map_of_mem hs)), hc.working s hs⟩

/-- The `HEAD` a checkpoint writes is not the old one. -/
theorem World.Synced.head_ne (h : w.Synced P) : w.disk.head ≠ some w.newHead := by
  intro hh
  have hg : w.disk.generation = w.generation + 1 := by
    rw [Disk.generation, hh]
    rfl
  rw [h.generation] at hg
  exact (Nat.lt_succ_self _).ne hg

/-- **Along a checkpoint**, once `HEAD` is swung the files of the working set are there. -/
theorem World.Synced.along_checkpointed (h : w.Synced P) (hk : w.collection.Keyed)
    (hc : w.collection.Known P cfg L n) : Along (Disk.perform P cfg)
      (fun d => d.head = some w.newHead →
        ∀ s ∈ w.collection.working, d.segments s.id = some s.rows) w.checkpointEffects w.disk := by
  refine Along.append (along_of_forall_cut fun es hes hh => absurd ?_ h.head_ne) ?_
  · rw [← hh]
    refine (Disk.performAll_offLog (fun e he => ?_) _).1.symm
    obtain ⟨s, -, rfl⟩ := List.mem_map.mp (hes.subset he)
    trivial
  · have hfiles := fun s (hs : s ∈ w.collection.working) =>
      World.segments_checkpointed (P := P) hk hc hs
    exact ⟨fun _ => hfiles, fun _ => hfiles, fun _ => hfiles, fun _ => hfiles⟩

/-- **The new `HEAD`, before anything is logged behind it**, stands for what it was written from. -/
theorem World.known_swung (hc : w.collection.Known P cfg L w.collection.nextGlobalId)
    (hp : w.collection.Placed) (happ : w.collection.appendable.rows = [])
      (hh : d.head = some w.newHead)
    (hr : d.records P = []) (hf : d.Filed P cfg L w.collection.nextGlobalId)
    (hw : ∀ s ∈ w.collection.working, d.segments s.id = some s.rows) :
    d.Known P cfg L (d.allocator P cfg) ∧ d.standing P cfg = w.collection.standing := by
  have halloc : d.allocator P cfg = w.collection.nextGlobalId := by
    rw [Disk.allocator, hr, hh]
    rfl
  have hstand : d.headStanding = w.collection.standing := by
    refine Standing.ext (funext fun id => ?_) ?_ ?_ ?_
    · change (d.workingIds.any fun i => _) = w.collection.holds id
      have hids : d.workingIds = w.collection.working.map SealedSegment.id := by
        rw [Disk.workingIds, hh]
        rfl
      rw [hids, List.any_map, Collection.holds, happ, containsId, List.any_nil, Bool.false_or]
      rw [Bool.eq_iff_iff, List.any_eq_true, List.any_eq_true]
      refine exists_congr fun s => and_congr_right fun hs => ?_
      rw [Function.comp_apply, hw s hs]
      rfl
    all_goals
      rw [Disk.headStanding, hh]
      rfl
  have hstanding : d.standing P cfg = w.collection.standing := by
    rw [Disk.standing, hr, List.foldl_nil, hstand]
  refine ⟨⟨halloc ▸ hf, le_rfl, by rw [hstand]; exact hc.bounded, by rw [hr]; trivial,
    by rw [hr]; exact fun _ _ _ hmem => (List.not_mem_nil hmem).elim, fun h hh' i hi => ?_⟩,
    hstanding⟩
  cases hh.symm.trans hh'
  obtain ⟨s, hs, rfl⟩ := List.mem_map.mp hi
  exact hp s hs

/-! ### Every move -/

namespace World.Durable

/-- The appendable sealed, before a checkpoint. -/
theorem known_sealed (h : w.Durable P cfg L) :
    (Move.checkpoint.prepare P cfg w).collection.Known P cfg L
      (Move.checkpoint.prepare P cfg w).collection.nextGlobalId := by
  have hn : (Move.checkpoint.prepare P cfg w).collection.nextGlobalId = w.collection.nextGlobalId :=
    Collection.sealNow_nextGlobalId
  rw [hn]
  exact h.memory.sealNow fun _ => h.placed

/-- **A checkpoint that has swung `HEAD`**: the directory stands for what is in memory. -/
theorem swung (h : w.Durable P cfg L)
    (hk : Disk.Keeps P cfg L w.collection.nextGlobalId w.disk d)
    (hw : d.head = some (Move.checkpoint.prepare P cfg w).newHead →
      ∀ s ∈ (Move.checkpoint.prepare P cfg w).collection.working, d.segments s.id = some s.rows)
    (hh : d.head = some (Move.checkpoint.prepare P cfg w).newHead) (hr : d.records P = []) :
    d.Known P cfg L (d.allocator P cfg) ∧ d.standing P cfg = w.collection.standing := by
  obtain ⟨hd, hs⟩ := World.known_swung h.known_sealed h.placed.sealNow
    Collection.sealNow_appendable_rows hh hr
    (by rw [show (Move.checkpoint.prepare P cfg w).collection.nextGlobalId = _ from
      Collection.sealNow_nextGlobalId]; exact hk.filed) (hw hh)
  exact ⟨hd, hs.trans Collection.standing_sealNow⟩

/-- The files of the working set, wherever a checkpoint is cut off. -/
theorem checkpointed (h : w.Durable P cfg L) (hes : es <+: Move.checkpoint.effects P cfg w) :
    (w.disk.performAll P cfg es).head = some (Move.checkpoint.prepare P cfg w).newHead →
      ∀ s ∈ (Move.checkpoint.prepare P cfg w).collection.working,
        (w.disk.performAll P cfg es).segments s.id = some s.rows := by
  have hp : (Move.checkpoint.prepare P cfg w).Synced P := h.synced.congr rfl rfl rfl
  exact (hp.along_checkpointed h.idle.keyed.sealNow h.known_sealed).upto hes

/-- The new `HEAD` names what is registered. -/
theorem anchors_swung (h : w.Durable P cfg L)
    (hh : d.head = some (Move.checkpoint.prepare P cfg w).newHead)
    (hw : ∀ s ∈ (Move.checkpoint.prepare P cfg w).collection.working,
      d.segments s.id = some s.rows) : d.Anchors (Move.checkpoint.prepare P cfg w).collection := by
  intro i hi
  have hi : i ∈ (Move.checkpoint.prepare P cfg w).collection.working.map SealedSegment.id := by
    rwa [Disk.workingIds, hh] at hi
  obtain ⟨s, hs, rfl⟩ := List.mem_map.mp hi
  exact ⟨h.placed.sealNow s hs, s, h.known_sealed.working s hs, hw s hs⟩

/-- **What a crash leaves of a move**: a prefix of its records on top of what the directory stood
for — or, of a checkpoint, what was in memory. -/
theorem survives (h : w.Durable P cfg L) (hm : m.Enabled cfg w) (ht : m.SparesNamed w)
    (hfit : ∀ op ∈ m.logs w, op.Fits P) (hes : es <+: m.effects P cfg w)
    (hd : (w.disk.performAll P cfg es).Survives d) :
    (∃ l, l <+: m.logs w ∧ d.Known P cfg (l.foldl learn L) (d.allocator P cfg) ∧
      d.standing P cfg = l.foldl (Standing.replay cfg) (w.disk.standing P cfg)) ∨
    (m = .checkpoint ∧ d.Known P cfg L (d.allocator P cfg) ∧
      d.standing P cfg = w.collection.standing) := by
  have hk := (h.keeps hm ht hes).survives hd
  obtain ⟨-, ⟨hh, l, hl, hr⟩ | ⟨rfl, hh, hr⟩⟩ := Move.survives h.synced hfit hes hd
  · exact .inl ⟨l, hl, h.logged hm hk hh hl hr⟩
  · refine .inr ⟨rfl, h.swung hk (fun _ => ?_) hh hr⟩
    obtain ⟨-, hh', -, hs, -⟩ := hd
    rw [hs]
    exact h.checkpointed hes (hh' ▸ hh)

/-- **Every move but a checkpoint** enters its records in the directory's ledger too. -/
theorem move (h : w.Durable P cfg L) (hm : m.Enabled cfg w) (ht : m.SparesNamed w)
    (hpl : m.Placed w) (hfit : ∀ op ∈ m.logs w, op.Fits P) (hck : m ≠ .checkpoint) :
    (m.result P cfg w).Durable P cfg ((m.logs w).foldl learn L) ∧
      (m.result P cfg w).disk.standing P cfg =
        (m.logs w).foldl (Standing.replay cfg) (w.disk.standing P cfg) := by
  obtain ⟨hh, hr⟩ := @Move.records_result P cfg w m h.synced hfit hck
  have hk := h.keeps hm ht List.prefix_rfl
  rw [← Move.result_disk] at hk
  obtain ⟨hd, hs⟩ := h.logged hm hk hh List.prefix_rfl hr
  refine ⟨⟨h.toHeld.move hm ht hpl hh, Move.synced h.synced hfit, hd, ?_⟩, hs⟩
  rw [h.nextGlobalId_result hm ht, Disk.allocator, hh, hr, List.foldl_append, ← h.allocator]
  rfl

/-- **After a checkpoint**, the directory stands for what is in memory. -/
theorem checkpoint (h : w.Durable P cfg L) :
    (Move.checkpoint.result P cfg w).Durable P cfg L ∧
      (Move.checkpoint.result P cfg w).disk.standing P cfg = w.collection.standing := by
  have hp : (Move.checkpoint.prepare P cfg w).Synced P := h.synced.congr rfl rfl rfl
  have hk := h.keeps (m := .checkpoint) trivial trivial List.prefix_rfl
  have hw := h.checkpointed List.prefix_rfl
  rw [← Move.result_disk] at hk hw
  obtain ⟨-, hh, -⟩ := @World.Synced.checkpoint_disk P cfg _ hp
  have hh : (Move.checkpoint.result P cfg w).disk.head =
    some (Move.checkpoint.prepare P cfg w).newHead := hh
  have hr : (Move.checkpoint.result P cfg w).disk.records P = [] :=
    @World.Synced.records_checkpoint P cfg _ hp
  obtain ⟨hd, hs⟩ := h.swung hk hw hh hr
  have halloc : (Move.checkpoint.result P cfg w).disk.allocator P cfg =
      (Move.checkpoint.result P cfg w).collection.nextGlobalId := by
    rw [Disk.allocator, hr, hh]
    rfl
  refine ⟨⟨⟨Move.idle h.idle _, h.known_sealed, h.placed.sealNow, ?_,
    h.anchors_swung hh (hw hh)⟩, Move.synced h.synced (fun op hop => by cases hop), hd, halloc⟩, hs⟩
  rw [← halloc]
  exact hd.filed

end World.Durable

end Vecvec
