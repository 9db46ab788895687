import Vecvec.Collection.Shown
import Vecvec.Durable.Torn

/-!
# Durable/Shown — what a directory shows, vector by vector

A directory shows the rows of the working set `HEAD` names, with its tombstones and payloads, and
the records of the active log on top (`Disk.liveMap`): that is the live map of the collection it is
opened to.  Moves that neither restore nor compact enter their records in it as they do in memory,
and a checkpoint makes it the live map in memory — the segment ids ascending in both
(`World.Lined`), so that nothing depends on the order in which segments are asked.
-/

namespace Vecvec

open Machinery

variable {P : Platform} {cfg : CollectionConfig} {w w' : World} {m : Move} {ms : List Move}
  {es : List DiskEffect} {d d' : Disk} {L : GlobalId → List F32} {n : GlobalId} {l : List WalOp}
  {evs : List Event} {M N : Ledger}

/-! ## Ascending ids -/

theorem pairwise_sortedIds (ids : List ℕ) : (sortedIds ids).Pairwise (· < ·) :=
  ((List.pairwise_insertionSort (· ≤ ·) ids.dedup).and (nodup_sortedIds ids)).imp
    fun h => lt_of_le_of_ne h.1 h.2

/-- Ascending ids are sorted as they are. -/
theorem sortedIds_of_pairwise {ids : List ℕ} (h : ids.Pairwise (· < ·)) : sortedIds ids = ids := by
  have hnodup : ids.Nodup := h.imp fun h => h.ne
  rw [sortedIds, hnodup.dedup]
  exact (h.imp fun h => h.le).insertionSort_eq

namespace Disk

/-- The working set's segments are loaded in the order of their ids. -/
theorem filter_named (d : Disk) :
    (d.named.filter fun i => i ∈ d.workingIds) = sortedIds d.workingIds := by
  have hnamed : d.named.Pairwise (· < ·) := by
    rw [named]
    split <;> exact pairwise_sortedIds _
  refine List.Perm.eq_of_pairwise' ((hnamed.sublist List.filter_sublist).imp fun h => h.le)
    ((pairwise_sortedIds _).imp fun h => h.le) ?_
  refine (List.perm_ext_iff_of_nodup (d.nodup_named.filter _) (nodup_sortedIds _)).mpr fun i => ?_
  rw [List.mem_filter, decide_eq_true_eq, mem_sortedIds, and_iff_right_iff_imp]
  exact fun hi => mem_named.mpr (.inl (workingIds_subset_headNamed hi))

/-! ## The live map of a directory -/

/-- What `HEAD` shows: the rows of the working set, but for its tombstones, with its payloads. -/
def headMap (d : Disk) : Ledger := fun id =>
  if id ∈ d.head.elim ∅ CheckpointHead.deletions then none
  else
    ((sortedIds d.workingIds).findSome? fun i =>
      (d.segments i).bind fun rows => vectorOf rows id).map
        fun v => (v, d.head.elim (fun _ => none) CheckpointHead.payloads id)

variable (P cfg) in
/-- **What a directory shows**: `HEAD`, and the records of the active log on top of it. -/
def liveMap (d : Disk) : Ledger := d.headMap.applyAll ((d.records P).map (WalOp.stored P cfg))

/-- Segments as they were loaded. -/
theorem findSome?_load {files : SegmentId → Option (List Row)} {segs : List SealedSegment}
    (h : ∀ s ∈ segs, files s.id = some s.rows) (p : SegmentId → Bool) (id : GlobalId) :
    ((segs.filter fun s => p s.id).findSome? fun s => vectorOf s.rows id) =
      ((segs.map SealedSegment.id).filter p).findSome? fun i =>
        (files i).bind fun rows => vectorOf rows id := by
  induction segs with
  | nil => rfl
  | cons s segs ih =>
    obtain ⟨hs, h⟩ := List.forall_mem_cons.mp h
    rw [List.map_cons, List.filter_cons, List.filter_cons]
    by_cases hp : p s.id
    · rw [if_pos hp, if_pos hp, List.findSome?_cons, List.findSome?_cons, hs, Option.bind_some,
        ih h]
    · rw [if_neg hp, if_neg hp, ih h]

theorem liveMap_base {segs : List SealedSegment} (h : d.load d.named = some segs) :
    (d.base segs).liveMap = d.headMap := by
  obtain ⟨hids, hfiles⟩ := load_eq_some h
  funext id
  have hfind := findSome?_load hfiles (fun i => decide (i ∈ d.workingIds)) id
  rw [hids, filter_named] at hfind
  rw [headMap, ← hfind]
  rfl

/-- **A directory is opened to what it shows**, if the ids in its log are its allocator's. -/
theorem liveMap_recover {c : Collection} (hb : d.headStanding.Bounded)
    (hn : Numbered cfg d.headStanding.next (d.records P)) (hc : d.recover P cfg = some c) :
    c.liveMap = d.liveMap P cfg := by
  obtain ⟨segs, hsegs, rfl⟩ := of_recover hc
  have hb : (d.base segs).standing.Bounded := standing_base hsegs ▸ hb
  have hn : Numbered cfg (d.base segs).nextGlobalId (d.records P) := hn
  rw [Collection.liveMap_foldl_replay hb hn, liveMap_base hsegs, liveMap]

theorem headMap_congr (hh : d'.head = d.head)
    (hs : ∀ i ∈ d.workingIds, d'.segments i = d.segments i) : d'.headMap = d.headMap := by
  have hfind {ids : List SegmentId} (hids : ∀ i ∈ ids, i ∈ d.workingIds) (id : GlobalId) :
      (ids.findSome? fun i => (d'.segments i).bind fun rows => vectorOf rows id) =
        ids.findSome? fun i => (d.segments i).bind fun rows => vectorOf rows id := by
    induction ids with
    | nil => rfl
    | cons i ids ih =>
      obtain ⟨hi, hids⟩ := List.forall_mem_cons.mp hids
      rw [List.findSome?_cons, List.findSome?_cons, hs i hi, ih hids]
  have hw : d'.workingIds = d.workingIds := by rw [workingIds, workingIds, hh]
  funext id
  rw [headMap, headMap, hh, hw, hfind (fun i hi => mem_sortedIds.mp hi)]

/-- **The same `HEAD` and working set, and some records more.** -/
theorem liveMap_extend (hh : d'.head = d.head)
    (hs : ∀ i ∈ d.workingIds, d'.segments i = d.segments i) (hr : d'.records P = d.records P ++ l) :
    d'.liveMap P cfg = Ledger.applyAll (d.liveMap P cfg) (l.map (WalOp.stored P cfg)) := by
  rw [liveMap, liveMap, headMap_congr hh hs, hr, List.map_append, Ledger.applyAll,
    List.foldl_append]

/-- **The new `HEAD`, before anything is logged behind it**, shows what it was written from. -/
theorem liveMap_swung (hh : d.head = some w.newHead) (hr : d.records P = [])
    (happ : w.collection.appendable.rows = []) (hl : w.collection.Lined)
    (hw : ∀ s ∈ w.collection.working, d.segments s.id = some s.rows) :
    d.liveMap P cfg = w.collection.liveMap := by
  have hids : d.workingIds = w.collection.working.map SealedSegment.id := by
    rw [workingIds, hh]
    rfl
  rw [liveMap, hr]
  funext id
  have hfind := findSome?_load hw (fun _ => true) id
  rw [List.filter_true, List.filter_true] at hfind
  rw [List.map_nil, Ledger.applyAll, List.foldl_nil, headMap, hids,
    sortedIds_of_pairwise hl.working,
    ← hfind, Collection.liveMap, happ, hh]
  rfl

/-- The segment ids of the versions in the versions file ascend. -/
def Lined (d : Disk) : Prop :=
  ∀ s, d.versions = some s → ∀ m ∈ s.manifests, m.segmentIds.Pairwise (· < ·)

theorem Lined.survives (h : d.Lined) (hd : d.Survives d') : d'.Lined := by
  rwa [Lined, hd.2.2.1]

end Disk

/-- The versions file written has versions whose segment ids ascend. -/
def DiskEffect.Lined : DiskEffect → Prop
  | .writeVersions s => ∀ m ∈ s.manifests, m.segmentIds.Pairwise (· < ·)
  | _ => True

theorem Disk.Lined.performAll (h : d.Lined) (hes : ∀ e ∈ es, e.Lined) :
    (d.performAll P cfg es).Lined := by
  induction es generalizing d with
  | nil => exact h
  | cons e es ih =>
    obtain ⟨he, hes⟩ := List.forall_mem_cons.mp hes
    refine ih ?_ hes
    cases e with
    | writeVersions s =>
      intro s' hs
      cases hs
      exact he
    | _ => exact h

/-! ## Moves -/

/-- The segment ids ascend, in memory and on disk. -/
structure World.Lined (w : World) : Prop where
  /-- In memory. -/
  memory : w.collection.Lined
  /-- On disk. -/
  disk : w.disk.Lined

/-- The state a move that logs nothing finds in memory. -/
theorem Move.lined_prepare (hl : w.collection.Lined) (hk : w.collection.Keyed)
    (hp : w.collection.Placed) (hm : m.Enabled cfg w) : (m.prepare P cfg w).collection.Lined := by
  cases m with
  | log | tick => exact hl
  | commit => exact hl.commitNow fun _ => hp
  | restore v m => exact hl.restoreNow hk hm
  | point vs =>
    obtain ⟨name, v, hv⟩ := hm
    refine hl.withVersions ?_
    rcases hv with hv | hv
    · exact (VersionStore.commits_of_setTag hv).1
    · exact (VersionStore.commits_of_setBranch hv).1
  | compact => exact hl.compactNow
  | checkpoint => exact hl.sealNow hp
  | gc rules => exact hl.gcNow

/-- **What a move writes** is lined. -/
theorem Move.lined_effects (hl : w.collection.Lined) (hk : w.collection.Keyed)
    (hp : w.collection.Placed) (hm : m.Enabled cfg w) : ∀ e ∈ m.effects P cfg w, e.Lined := by
  have hl' := Move.lined_prepare (P := P) hl hk hp hm
  have hpersist {w : World} (hl : w.collection.Lined) : ∀ e ∈ w.persistEffects, e.Lined := by
    intro e he
    rcases List.mem_append.mp he with he | he
    · obtain ⟨s, -, rfl⟩ := List.mem_map.mp he
      trivial
    · rw [List.mem_singleton.mp he]
      intro m hm
      obtain ⟨v, hv⟩ := VersionStore.mem_manifests.mp hm
      exact hl.versions v m hv
  cases m with
  | log ups dels =>
    intro e he
    rcases List.mem_append.mp he with he | he
    · obtain ⟨op, -, rfl⟩ := List.mem_map.mp he
      trivial
    · rw [List.mem_singleton.mp he]
      trivial
  | compact | tick => exact fun e he => by cases he
  | commit | restore | point => exact hpersist hl'
  | checkpoint =>
    intro e he
    rcases List.mem_append.mp he with he | he
    · obtain ⟨s, -, rfl⟩ := List.mem_map.mp he
      trivial
    · simp only [List.mem_cons, List.not_mem_nil, or_false] at he
      rcases he with rfl | rfl | rfl <;> trivial
  | gc rules =>
    intro e he
    rcases List.mem_append.mp he with he | he
    · obtain ⟨id, -, rfl⟩ := List.mem_map.mp he
      trivial
    · exact hpersist hl' e he

/-- **One move** keeps the ids ascending. -/
theorem World.Lined.move (hl : w.Lined) (hw : w.Durable P cfg L) (hm : m.Enabled cfg w) :
    (m.result P cfg w).Lined := by
  refine ⟨?_, ?_⟩
  · by_cases hlog : m.IsLog
    · cases m with
      | log ups dels => exact hl.memory.foldl_replay _
      | _ => exact hlog.elim
    · rw [Move.result_collection hlog]
      exact Move.lined_prepare hl.memory hw.idle.keyed hw.placed hm
  · rw [Move.result_disk]
    exact hl.disk.performAll (Move.lined_effects hl.memory hw.idle.keyed hw.placed hm)

theorem Moves.lined (h : Moves P cfg w ms es w') (hw : w.Durable P cfg L)
    (hs : Sparing P cfg w ms) (hl : w.Lined) : w'.Lined := by
  induction h generalizing L with
  | nil => exact hl
  | @cons w w' m ms es hm hrest ih =>
    obtain ⟨hspare, hplaced, hfit, hs⟩ := hs
    exact ih (hw.entered hm hspare hplaced hfit).1 hs (hl.move hw hm)

/-! ## Histories -/

/-- The segment ids ascend, running or not. -/
def Node.Lined : Node → Prop
  | .running w => w.Lined
  | .stopped d => d.Lined

theorem lined_recover {c : Collection} (hd : d.Lined) (hc : d.recover P cfg = some c) :
    c.Lined := by
  obtain ⟨segs, hsegs, rfl⟩ := Disk.of_recover hc
  refine Collection.Lined.foldl_replay (c := d.base segs) ⟨?_, fun v m hm => ?_⟩ _
  · have hids : (segs.map SealedSegment.id).Pairwise (· < ·) := by
      rw [(Disk.load_eq_some hsegs).1, Disk.named]
      split <;> exact pairwise_sortedIds _
    exact hids.sublist (List.filter_sublist.map _)
  · change (d.versions.elim VersionStore.new VersionStore.fromSnapshot).get v = some m at hm
    cases hv : d.versions with
    | none =>
      rw [hv] at hm
      simp [VersionStore.new, VersionStore.get] at hm
    | some s =>
      rw [hv] at hm
      exact hd s hv m (VersionStore.of_get_fromSnapshot hm).1

/-- **Every regular event** keeps the ids ascending. -/
theorem Node.Lined.step {n n' : Node} {e : Event} (hl : n.Lined) (h : n.Durable P cfg L)
    (he : e.Regular P cfg) (hs : Node.Step P cfg n e n') : n'.Lined := by
  cases hs with
  | @call w w' r resp hr =>
    obtain ⟨ms, es, _, hw, hms, hmk⟩ := (Node.Step.call hr).of_call h.idle
    cases hw
    exact hms.lined h (hmk.sparing hms he) hl
  | @crash w w' r os p d hst hsv =>
    obtain ⟨_, ms, es₁, w₁, m, es₂, hw, hms, hsp, -, hm, hspare, hfit, hes, hd, -⟩ :=
      (Node.Step.crash hst hsv).of_crash_regular h.idle he
    cases hw
    have hl₁ := hms.lined h hsp hl
    have hd₁ := (hms.entered h hsp).durable
    refine Disk.Lined.survives (hl₁.disk.performAll fun e he => ?_) hd
    exact Move.lined_effects hl₁.memory hd₁.idle.keyed hd₁.placed hm e (hes.subset he)
  | stop hsv => exact Disk.Lined.survives (World.Lined.disk hl) hsv
  | opened hr =>
    obtain ⟨c, clock, hrec, hw⟩ := (Node.Step.opened hr).of_opened
    cases hw
    exact ⟨lined_recover hl hrec, hl⟩
  | openCrash hst hsv =>
    obtain ⟨_, es, hw, hes, hd⟩ := (Node.Step.openCrash hst hsv).of_openCrash
    cases hw
    refine Disk.Lined.survives (Disk.Lined.performAll hl fun e he => ?_) hd
    have he := hes.subset he
    simp only [List.mem_cons, List.not_mem_nil, or_false] at he
    rcases he with rfl | rfl <;> trivial

/-- **In every regular history** the segment ids ascend. -/
theorem Runs.lined {n : Node} (h : Runs P cfg (.stopped .empty) evs n)
    (hreg : ∀ e ∈ evs, e.Regular P cfg) : n.Lined := by
  refine (@Runs.invariant P cfg (fun n => (∃ L, n.Durable P cfg L) ∧ n.Lined)
    (fun e => e.Regular P cfg) ?_ _ _ _ h
    ⟨⟨fun _ => [], Disk.settled_empty, Disk.known_empty⟩, fun _ h => by cases h⟩ hreg).2
  rintro n e n' ⟨⟨L, hn⟩, hl⟩ he hs
  obtain ⟨l, hf⟩ := hn.step he hs
  exact ⟨⟨_, hf.durable⟩, hl.step hn he hs⟩

/-! ## Moves that neither restore nor compact -/

/-- The move neither restores a version nor compacts. -/
def Move.Exact : Move → Prop
  | .restore .. | .compact => False
  | _ => True

/-- What some moves enter, vector by vector: their records in memory, and on disk unless a
checkpoint is made; and if the two agreed, they still do. -/
structure ShownBy (P : Platform) (cfg : CollectionConfig) (w : World) (ms : List Move)
    (w' : World) : Prop where
  /-- The ids ascend. -/
  lined : w'.Lined
  /-- The appendable segment has ids of its own. -/
  apart : w'.collection.Apart
  /-- In memory. -/
  memory : w'.collection.liveMap =
    Ledger.applyAll w.collection.liveMap ((logsOf P cfg w ms).map (WalOp.stored P cfg))
  /-- On disk. -/
  disk : .checkpoint ∉ ms → w'.disk.liveMap P cfg =
    Ledger.applyAll (w.disk.liveMap P cfg) ((logsOf P cfg w ms).map (WalOp.stored P cfg))
  /-- Agreement is kept. -/
  agrees : w.disk.liveMap P cfg = w.collection.liveMap →
    w'.disk.liveMap P cfg = w'.collection.liveMap

theorem Move.liveMap_result (hw : w.Durable P cfg L) (ha : w.collection.Apart)
    (hm : m.Enabled cfg w) (hx : m.Exact) : (m.result P cfg w).collection.Apart ∧
      (m.result P cfg w).collection.liveMap =
        Ledger.applyAll w.collection.liveMap ((m.logs w).map (WalOp.stored P cfg)) := by
  cases m with
  | log ups dels =>
    have hn : Numbered cfg w.collection.nextGlobalId
        (batchRecords w.collection.nextGlobalId ups dels) := numbered_batchRecords hm
    exact ⟨ha.foldl_replay hw.memory.bounded hn,
      Collection.liveMap_foldl_replay hw.memory.bounded hn⟩
  | commit => exact ⟨Collection.apart_of_empty Collection.sealNow_appendable_rows,
      Collection.liveMap_commitNow ha⟩
  | checkpoint => exact ⟨ha.sealNow, Collection.liveMap_sealNow ha⟩
  | restore | compact => exact hx.elim
  | point | gc | tick => exact ⟨ha, rfl⟩

/-- A move that is no checkpoint, on disk. -/
theorem World.Durable.liveMap_move (hw : w.Durable P cfg L) (hm : m.Enabled cfg w)
    (ht : m.SparesNamed w) (hfit : ∀ op ∈ m.logs w, op.Fits P) (hck : m ≠ .checkpoint) :
    (m.result P cfg w).disk.liveMap P cfg =
      Ledger.applyAll (w.disk.liveMap P cfg) ((m.logs w).map (WalOp.stored P cfg)) := by
  obtain ⟨hh, hr⟩ := @Move.records_result P cfg w m hw.synced hfit hck
  have hk := hw.keeps hm ht List.prefix_rfl
  rw [← Move.result_disk] at hk
  exact Disk.liveMap_extend hh hk.working hr

/-- **After a checkpoint**, the directory shows what is in memory. -/
theorem World.Durable.liveMap_checkpoint (hw : w.Durable P cfg L) (hl : w.Lined)
    (ha : w.collection.Apart) :
    (Move.checkpoint.result P cfg w).disk.liveMap P cfg = w.collection.liveMap := by
  have hp : (Move.checkpoint.prepare P cfg w).Synced P := hw.synced.congr rfl rfl rfl
  have hfiles := hw.checkpointed List.prefix_rfl
  rw [← Move.result_disk] at hfiles
  obtain ⟨-, hh, -⟩ := @World.Synced.checkpoint_disk P cfg _ hp
  have hr : (Move.checkpoint.result P cfg w).disk.records P = [] :=
    @World.Synced.records_checkpoint P cfg _ hp
  refine (Disk.liveMap_swung (w := Move.checkpoint.prepare P cfg w) hh hr
    Collection.sealNow_appendable_rows (hl.memory.sealNow hw.placed) (hfiles hh)).trans ?_
  exact Collection.liveMap_sealNow ha

/-- **Moves that make no checkpoint**, on disk: whatever happens in memory. -/
theorem Moves.liveMap_disk (h : Moves P cfg w ms es w') (hw : w.Durable P cfg L)
    (hs : Sparing P cfg w ms) (hck : .checkpoint ∉ ms) : w'.disk.liveMap P cfg =
      Ledger.applyAll (w.disk.liveMap P cfg) ((logsOf P cfg w ms).map (WalOp.stored P cfg)) := by
  induction h generalizing L with
  | nil w => rfl
  | @cons w w' m ms es hm hrest ih =>
    obtain ⟨hspare, hplaced, hfit, hs⟩ := hs
    obtain ⟨hne, hck⟩ := not_or.mp (mt List.mem_cons.mpr hck)
    rw [ih (hw.entered hm hspare hplaced hfit).1 hs hck,
      hw.liveMap_move hm hspare hfit (Ne.symm hne), logsOf, List.map_append, Ledger.applyAll,
      Ledger.applyAll, Ledger.applyAll, List.foldl_append]

/-- **The run lemma.** -/
theorem Moves.shown (h : Moves P cfg w ms es w') (hw : w.Durable P cfg L)
    (hs : Sparing P cfg w ms) (hl : w.Lined) (ha : w.collection.Apart)
    (hx : ∀ m ∈ ms, m.Exact) : ShownBy P cfg w ms w' := by
  induction h generalizing L with
  | nil w => exact ⟨hl, ha, rfl, fun _ => rfl, id⟩
  | @cons w w' m ms es hm hrest ih =>
    obtain ⟨hspare, hplaced, hfit, hs⟩ := hs
    obtain ⟨hxm, hx⟩ := List.forall_mem_cons.mp hx
    obtain ⟨ha₁, hmem⟩ := Move.liveMap_result hw ha hm hxm
    obtain ⟨hl', ha', hmem', -, hagree'⟩ :=
      ih (hw.entered hm hspare hplaced hfit).1 hs (hl.move hw hm) ha₁ hx
    refine ⟨hl', ha', ?_, fun hck => ?_, fun hag => hagree' ?_⟩
    · rw [hmem', hmem, logsOf, List.map_append, Ledger.applyAll, Ledger.applyAll, Ledger.applyAll,
        List.foldl_append]
    · exact (Moves.cons hm hrest).liveMap_disk hw ⟨hspare, hplaced, hfit, hs⟩ hck
    · rw [hmem]
      by_cases hck : m = .checkpoint
      · subst hck
        exact hw.liveMap_checkpoint hl ha
      · rw [hw.liveMap_move hm hspare hfit hck, hag]

/-! ## Opening -/

variable (P cfg) in
/-- Opening the directory gives a collection with this live map. -/
def Disk.Shows (M : Ledger) (d : Disk) : Prop :=
  ∀ clock, ∃ w, run (World.step P cfg) 0 (Durable.openCollection cfg) (.boot d cfg .sync clock) =
    some (.ok (), w) ∧ w.collection.liveMap = M

/-- A directory shows one live map. -/
theorem Disk.Shows.eq (h : d.Shows P cfg M) (h' : d.Shows P cfg N) : M = N := by
  obtain ⟨w, hw, rfl⟩ := h fun _ => 0
  obtain ⟨w', hw', rfl⟩ := h' fun _ => 0
  rw [hw] at hw'
  cases hw'
  rfl

/-- **A directory shows its live map**, if its files decode and are there. -/
theorem Disk.shows_liveMap (hb : d.headStanding.Bounded)
    (hn : Numbered cfg d.headStanding.next (d.records P)) (hr : d.Reads P) (hc : d.Complete) :
    d.Shows P cfg (d.liveMap P cfg) := by
  obtain ⟨c, hc⟩ := Option.isSome_iff_exists.mp ((@Disk.isSome_recover P cfg d).mpr ⟨hr, hc⟩)
  exact fun clock => ⟨_, (performs_open hc).run, Disk.liveMap_recover hb hn hc⟩

/-- **Another directory shows what a known one does**, if it has its `HEAD`, working set and
records. -/
theorem Disk.Known.shows_of_same (h : d.Known P cfg L n) (hh : d'.head = d.head)
    (hs : ∀ i ∈ d.workingIds, d'.segments i = d.segments i) (hr : d'.records P = d.records P)
    (hreads : d'.Reads P) (hc : d'.Complete) : d'.Shows P cfg (d.liveMap P cfg) := by
  have heq : d'.liveMap P cfg = d.liveMap P cfg :=
    Disk.liveMap_extend (l := []) hh hs (by rw [List.append_nil, hr])
  have hhead := Disk.headStanding_congr hh hs
  rw [← heq]
  exact Disk.shows_liveMap (hhead ▸ h.bounded) (hhead ▸ hr ▸ h.numbered) hreads hc

/-- **Stopped between two requests**, the directory shows what it did. -/
theorem Runs.shows_stop (h : Runs P cfg (.stopped .empty) evs (.running w))
    (hreg : ∀ e ∈ evs, e.Regular P cfg) (hw : w.Durable P cfg L) (hreads : d.Reads P)
    (hd : w.disk.Survives d) : d.Shows P cfg (w.disk.liveMap P cfg) := by
  obtain ⟨hh, hwals⟩ := hw.synced.settled.survives hd
  exact hw.disk.shows_of_same hh (fun i _ => congrFun hd.2.2.2.1 i)
    (Disk.records_congr hh (congrFun hwals _)) hreads
    ((h.snoc (.stop hd)).complete (List.forall_mem_append.mpr
      ⟨fun e he => (hreg e he).spares, List.forall_mem_singleton.mpr trivial⟩))

end Vecvec
