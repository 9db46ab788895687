import Vecvec.Durable.Script

/-!
# Durable/Reopen — a directory can be opened again

Three files refer to segment files: `HEAD`, the versions file, and — through the process — the next
versions file to be written.  A directory is `Complete` if the segment files the first two name are
there; a process is `Stocked` if it can still supply those the third will name.  Every move keeps
both but one: a collection pass deletes files by what the versions refer to, whatever `HEAD` names,
and deletes them before it rewrites the versions file.
-/

namespace Vecvec

open Machinery

variable {P : Platform} {cfg : CollectionConfig}

/-! ## Segments a process can supply -/

namespace Collection

variable {c : Collection}

/-- Every segment that the working set or a version refers to is registered. -/
structure Backed (c : Collection) : Prop where
  /-- Working segments are registered. -/
  working : ∀ s ∈ c.working, (c.allSegments s.id).isSome
  /-- So are those a version refers to. -/
  referenced : ∀ id ∈ c.versions.allReferencedSegments, (c.allSegments id).isSome

theorem Backed.foldl_replay (h : c.Backed) (ops : List WalOp) :
    (ops.foldl (Collection.replay P cfg) c).Backed :=
  ⟨by simpa using h.working, by simpa using h.referenced⟩

theorem Backed.sealNow (h : c.Backed) : c.sealNow.Backed := by
  unfold Collection.sealNow
  split
  · exact h
  · refine ⟨fun s hs => isSome_insertSegments.mpr ?_,
      fun id hid => isSome_insertSegments.mpr (.inl (h.referenced id hid))⟩
    rcases List.mem_append.mp hs with hs | hs
    · exact .inl (h.working s hs)
    · exact .inr (List.mem_map_of_mem hs)

theorem Backed.commitNow (h : c.Backed) {trigger : String} {message tag : Option String} :
    (c.commitNow trigger message tag).Backed := by
  refine ⟨h.sealNow.working, fun id hid => ?_⟩
  rcases of_mem_allReferencedSegments_commitNow hid with hid | ⟨s, hs, rfl⟩
  · exact h.sealNow.referenced id (by rwa [sealNow_versions])
  · exact h.sealNow.working s hs

theorem Backed.restoreNow (h : c.Backed) (hk : c.Keyed) {v : VersionId} {m : Manifest} :
    (c.restoreNow v m).Backed := by
  refine Backed.commitNow (c := c.repoint m) ⟨fun s hs => ?_, h.referenced⟩
  obtain ⟨id, -, hid⟩ := List.mem_filterMap.mp hs
  change (c.allSegments s.id).isSome
  rw [hk id s hid, hid]
  rfl

theorem Backed.compactNow (h : c.Backed) : (c.compactNow P cfg).Backed := by
  refine ⟨fun s hs => isSome_insertSegments.mpr (.inr (List.mem_map_of_mem hs)),
    fun id hid => isSome_insertSegments.mpr (.inl (h.referenced id hid))⟩

theorem Backed.versions (h : c.Backed) {vs : VersionStore}
    (hv : vs.commits = c.versions.commits) : ({ c with versions := vs } : Collection).Backed := by
  refine ⟨h.working, fun id hid => h.referenced id ?_⟩
  rwa [VersionStore.allReferencedSegments, VersionStore.manifests_congr hv] at hid

theorem Backed.gcNow (h : c.Backed) {rules : RetentionRules} : (c.gcNow rules).Backed := by
  refine ⟨fun s hs => ?_, fun id hid => ?_⟩
  · change (if _ then none else c.allSegments s.id).isSome
    rw [if_neg (notMem_dropped (c := c) (.inl (List.mem_map_of_mem hs)))]
    exact h.working s hs
  · change (if _ then none else c.allSegments id).isSome
    rw [if_neg (notMem_dropped (.inr hid))]
    exact h.referenced id (VersionStore.of_mem_allReferencedSegments_gc hid).1

end Collection

namespace World

variable {w : World}

/-- A process that has, or can write, every segment file it refers to. -/
structure Stocked (w : World) : Prop where
  /-- Segments referred to are registered. -/
  backed : w.collection.Backed
  /-- Segments marked as written are on disk. -/
  filed : ∀ id ∈ w.persistedSegments, (w.disk.segments id).isSome

theorem mem_toPersist {id : SegmentId} : id ∈ w.toPersist ↔
    id ∈ w.collection.working.map SealedSegment.id ∨
      id ∈ w.collection.versions.allReferencedSegments := by
  rw [toPersist, mem_sortedIds, List.mem_append]

theorem Stocked.isSome_of_mem_toPersist (h : w.Stocked) {id : SegmentId} (hid : id ∈ w.toPersist) :
    (w.collection.allSegments id).isSome := by
  rcases mem_toPersist.mp hid with hid | hid
  · obtain ⟨s, hs, rfl⟩ := List.mem_map.mp hid
    exact h.backed.working s hs
  · exact h.backed.referenced id hid

/-- The ids of registered segments found under some ids. -/
theorem mem_map_filterMap_allSegments (hk : w.collection.Keyed) {ids : List SegmentId}
    {id : SegmentId} : id ∈ (ids.filterMap w.collection.allSegments).map SealedSegment.id ↔
      id ∈ ids ∧ (w.collection.allSegments id).isSome := by
  rw [List.mem_map]
  constructor
  · rintro ⟨s, hs, rfl⟩
    obtain ⟨i, hi, hs⟩ := List.mem_filterMap.mp hs
    have := hk i s hs
    subst this
    exact ⟨hi, by rw [hs]; rfl⟩
  · rintro ⟨hid, hs⟩
    obtain ⟨s, hs⟩ := Option.isSome_iff_exists.mp hs
    exact ⟨s, List.mem_filterMap.mpr ⟨id, hid, hs⟩, hk id s hs⟩

/-- The disk after `persist_versions`. -/
theorem persist_disk (w : World) : (w.persist P cfg).disk =
    { w.disk with
      segments := fill SealedSegment.id (fun s => s.rows) w.disk.segments w.unpersisted
      versions := some w.collection.versions.snapshot } := by
  rw [persist, persistEffects, Disk.performAll_append, Disk.performAll_writeSegments]
  rfl

theorem Stocked.persist (h : w.Stocked) : (w.persist P cfg).Stocked := by
  refine ⟨h.backed, fun id hid => ?_⟩
  rw [persist_disk]
  refine isSome_fill.mpr ?_
  rcases Finset.mem_union.mp hid with hid | hid
  · exact .inl (h.filed id hid)
  · exact .inr (List.mem_toFinset.mp hid)

/-- **`persist_versions` writes whatever the process refers to.** -/
theorem Stocked.isSome_persist (h : w.Stocked) (hk : w.collection.Keyed) {id : SegmentId}
    (hid : id ∈ w.toPersist) : ((w.persist P cfg).disk.segments id).isSome := by
  rw [persist_disk]
  refine isSome_fill.mpr ?_
  by_cases hp : id ∈ w.persistedSegments
  · exact .inl (h.filed id hp)
  · refine .inr ((mem_map_filterMap_allSegments hk).mpr ⟨List.mem_filter.mpr ⟨hid, ?_⟩,
      h.isSome_of_mem_toPersist hid⟩)
    exact decide_eq_true hp

/-- After `persist_versions`, only what `HEAD` names may be missing. -/
theorem Stocked.complete_persist (h : w.Stocked) (hk : w.collection.Keyed)
    (hd : ∀ id ∈ w.disk.headNamed, (w.disk.segments id).isSome) :
    (w.persist P cfg).disk.Complete := by
  refine Disk.complete_iff.mpr ⟨fun id hid => ?_, fun id hid => ?_⟩
  · rw [persist_disk] at hid ⊢
    exact isSome_fill.mpr (.inl (hd id hid))
  · refine h.isSome_persist hk (mem_toPersist.mpr (.inr ?_))
    rwa [persist_disk] at hid

end World

/-! ## What keeps a directory complete -/

namespace Disk

variable {d : Disk}

/-- Writing a segment file keeps a directory complete. -/
theorem Complete.writeSegment (h : d.Complete) (s : SealedSegment) :
    (d.perform P cfg (.writeSegment s)).Complete := by
  have hle : ∀ id, (d.segments id).isSome →
    ((d.setSegment s.id (some s.rows)).segments id).isSome := by
    intro id hid
    by_cases hs : id = s.id
    · subst hs
      simp [setSegment]
    · simpa [setSegment, Function.update_of_ne hs] using hid
  exact ⟨fun hd hh id hid => hle id (h.head hd hh id hid),
    fun vs hv m hm id hid => hle id (h.versions vs hv m hm id hid)⟩

theorem Complete.along_writeSegments (h : d.Complete) (segs : List SealedSegment) :
    Along (Disk.perform P cfg) Disk.Complete (segs.map .writeSegment) d := by
  refine along_of_invariant h fun e he d hd => ?_
  obtain ⟨s, -, rfl⟩ := List.mem_map.mp he
  exact hd.writeSegment s

theorem Complete.along_log (h : d.Complete) (g : ℕ) (ops : List WalOp) :
    Along (Disk.perform P cfg) Disk.Complete (ops.map (.append g) ++ [.flush g]) d := by
  refine along_of_invariant h fun e he d hd => ?_
  rcases List.mem_append.mp he with he | he
  · obtain ⟨op, -, rfl⟩ := List.mem_map.mp he
    exact ⟨hd.head, hd.versions⟩
  · rw [List.mem_singleton.mp he]
    exact ⟨hd.head, hd.versions⟩

theorem Complete.along_open (h : d.Complete) : Along (Disk.perform P cfg) Disk.Complete
    [.writeConfig, .openLog d.generation] d :=
  ⟨h, ⟨h.head, h.versions⟩, h.head, h.versions⟩

end Disk

namespace World.Stocked

variable {w : World}

theorem along_persist (h : w.Stocked) (hk : w.collection.Keyed) (hd : w.disk.Complete) :
    Along (Disk.perform P cfg) Disk.Complete w.persistEffects w.disk :=
  (hd.along_writeSegments _).snoc (h.complete_persist hk (Disk.complete_iff.mp hd).1)

/-- The disk after a checkpoint's segments are written. -/
theorem isSome_checkpointed (h : w.Stocked) (hk : w.collection.Keyed) {id : SegmentId}
    (hid : id ∈ w.toPersist) :
    ((w.disk.performAll P cfg (w.checkpointed.map .writeSegment)).segments id).isSome := by
  rw [Disk.performAll_writeSegments]
  exact isSome_fill.mpr (.inr ((mem_map_filterMap_allSegments hk).mpr
    ⟨hid, h.isSome_of_mem_toPersist hid⟩))

/-- **Along a checkpoint** the directory stays complete: what the new `HEAD` names has been written
before it is swung into place. -/
theorem along_checkpoint (h : w.Stocked) (hk : w.collection.Keyed) (hd : w.disk.Complete) :
    Along (Disk.perform P cfg) Disk.Complete w.checkpointEffects w.disk := by
  have hwritten := @Disk.Complete.along_writeSegments P cfg _ hd w.checkpointed
  have hend := hwritten.end
  refine hwritten.append ⟨hend, ⟨hend.head, hend.versions⟩, ?_⟩
  have hswung : (((w.disk.performAll P cfg (w.checkpointed.map .writeSegment)).perform P cfg
      (.openLog (w.generation + 1))).perform P cfg (.writeHead w.newHead)).Complete := by
    refine ⟨fun hd' hh id hid => h.isSome_checkpointed hk ?_, hend.versions⟩
    obtain rfl : w.newHead = hd' := Option.some.inj hh
    rcases List.mem_append.mp hid with hid | hid
    · exact mem_toPersist.mpr (.inl hid)
    · exact ((mem_map_filterMap_allSegments hk).mp hid).1
  exact ⟨hswung, hswung.head, hswung.versions⟩

theorem checkpoint (h : w.Stocked) : (w.checkpoint P cfg).Stocked := by
  refine ⟨h.backed, fun id hid => ?_⟩
  have hd : (w.checkpoint P cfg).disk.segments =
      fill SealedSegment.id (fun s => s.rows) w.disk.segments w.checkpointed := by
    rw [World.checkpoint, checkpointEffects, Disk.performAll_append,
      Disk.performAll_writeSegments]
    rfl
  rw [hd]
  refine isSome_fill.mpr ?_
  rcases Finset.mem_union.mp hid with hid | hid
  · exact .inl (h.filed id hid)
  · exact .inr (List.mem_toFinset.mp hid)

/-- Deleting the files of dropped segments takes nothing a stocked process needs. -/
theorem removeSegments (h : w.Stocked) {ids : List SegmentId} :
    (w.removeSegments P cfg ids).Stocked := by
  refine ⟨h.backed, fun id hid => ?_⟩
  obtain ⟨hid, hn⟩ := Finset.mem_sdiff.mp hid
  rw [World.removeSegments, Disk.performAll_removeSegments]
  exact (congrArg Option.isSome (if_neg (by simpa using hn))).trans (h.filed id hid)

/-- A collection pass, before it rewrites the versions file. -/
theorem prepare_gc (h : w.Stocked) (rules : RetentionRules) :
    ((Move.gc rules).prepare P cfg w).Stocked :=
  removeSegments (w := { w with collection := w.collection.gcNow rules }) ⟨h.backed.gcNow, h.filed⟩

/-- The state the effects of a move find. -/
theorem prepare (h : w.Stocked) (hk : w.collection.Keyed) {m : Move} (hm : m.Enabled cfg w) :
    (m.prepare P cfg w).Stocked := by
  cases m with
  | log | tick => exact ⟨h.backed, h.filed⟩
  | commit => exact ⟨h.backed.commitNow, h.filed⟩
  | restore => exact ⟨h.backed.restoreNow hk, h.filed⟩
  | point vs =>
    obtain ⟨name, v, hv⟩ := hm
    have hc : vs.commits = w.collection.versions.commits := by
      rcases hv with hv | hv
      · exact (VersionStore.commits_of_setTag hv).1
      · exact (VersionStore.commits_of_setBranch hv).1
    exact ⟨h.backed.versions hc, h.filed⟩
  | compact => exact ⟨h.backed.compactNow, h.filed⟩
  | checkpoint => exact ⟨h.backed.sealNow, h.filed⟩
  | gc rules => exact h.prepare_gc rules

/-- **Every move keeps a process stocked.** -/
theorem move (h : w.Stocked) (hk : w.collection.Keyed) {m : Move} (hm : m.Enabled cfg w) :
    (m.result P cfg w).Stocked := by
  have hp := h.prepare (P := P) hk hm
  cases m with
  | log ups dels =>
    refine ⟨h.backed.foldl_replay _, fun id hid => ?_⟩
    have hs : ((Move.log ups dels).result P cfg w).disk.segments = w.disk.segments :=
      Disk.performAll_log_segments ..
    rw [hs]
    exact h.filed id hid
  | commit | restore | point | gc => exact hp.persist
  | checkpoint => exact World.Stocked.checkpoint hp
  | compact | tick => exact hp

/-- Every move but a collection pass keeps the directory complete throughout. -/
theorem along_move (h : w.Stocked) (hk : w.collection.Keyed) (hd : w.disk.Complete) {m : Move}
    (hm : m.Enabled cfg w) (hgc : ∀ rules, m ≠ .gc rules) :
    Along (Disk.perform P cfg) Disk.Complete (m.effects P cfg w) w.disk := by
  have hp := h.prepare (P := P) hk hm
  cases m with
  | log ups dels => exact hd.along_log ..
  | commit trigger message tag => exact hp.along_persist hk.commitNow hd
  | restore v m => exact hp.along_persist hk.restoreNow hd
  | point vs => exact hp.along_persist hk hd
  | compact | tick => exact hd
  | checkpoint => exact hp.along_checkpoint hk.sealNow hd
  | gc rules => exact absurd rfl (hgc rules)

/-- A collection pass that drops nothing `HEAD` names leaves the directory complete. -/
theorem complete_gc (h : w.Stocked) (hk : w.collection.Keyed) (hd : w.disk.Complete)
    {rules : RetentionRules}
    (hspare : ∀ id ∈ w.collection.dropped rules, id ∉ w.disk.headNamed) :
    ((Move.gc rules).result P cfg w).disk.Complete := by
  refine (h.prepare_gc rules).complete_persist hk.gcNow fun id hid => ?_
  rw [Move.prepare, World.removeSegments, Disk.performAll_removeSegments] at hid ⊢
  exact (congrArg Option.isSome (if_neg fun hn => hspare id hn hid)).trans
    ((Disk.complete_iff.mp hd).1 id hid)

end World.Stocked

/-! ## Whole requests -/

section

variable {w w' : World}

/-- Only a collection pass makes one. -/
theorem Request.Makes.of_gc_mem {r : Request} {resp : Response} {ms : List Move}
    (h : r.Makes w resp ms) {rules : RetentionRules} (hm : .gc rules ∈ ms) :
    r = .gc rules ∧ ms = [.gc rules] := by
  cases h with
  | gc rules' ids =>
    cases List.mem_singleton.mp hm
    exact ⟨rfl, rfl⟩
  | batch ht =>
    obtain ⟨trigger, ticks, rfl | ⟨tr, message, tag, rfl⟩⟩ := ht.eq_or <;> simp at hm
  | upsert ht =>
    obtain ⟨trigger, ticks, rfl | ⟨tr, message, tag, rfl⟩⟩ := ht.eq_or <;> simp at hm
  | _ => simp at hm

theorem Moves.stocked {ms : List Move} {es : List DiskEffect} (h : Moves P cfg w ms es w')
    (hi : w.Idle) (hs : w.Stocked) : w'.Stocked := by
  induction h with
  | nil => exact hs
  | cons hm _ ih => exact ih (Move.idle hi _) (hs.move hi.keyed hm)

theorem Moves.along_complete {ms : List Move} {es : List DiskEffect} (h : Moves P cfg w ms es w')
    (hi : w.Idle) (hs : w.Stocked) (hd : w.disk.Complete) (hgc : ∀ rules, .gc rules ∉ ms) :
    Along (Disk.perform P cfg) Disk.Complete es w.disk := by
  induction h with
  | nil => exact hd
  | @cons w₀ _ m ms es hm _ ih =>
    have hmove := hs.along_move (P := P) hi.keyed hd hm fun rules he =>
      hgc rules (he ▸ List.mem_cons_self)
    refine hmove.append ?_
    change Along (Disk.perform P cfg) Disk.Complete es (w₀.disk.performAll P cfg _)
    have hdisk : (w₀.disk.performAll P cfg (m.effects P cfg w₀)).Complete := hmove.end
    rw [← Move.result_disk] at hdisk ⊢
    exact ih (Move.idle hi _) (hs.move hi.keyed hm) hdisk
      fun rules hr => hgc rules (List.mem_cons_of_mem _ hr)

/-- The moves of a collection pass. -/
theorem Moves.of_gc {rules : RetentionRules} {es : List DiskEffect}
    (h : Moves P cfg w [.gc rules] es w') :
    es = (Move.gc rules).effects P cfg w ∧ w' = (Move.gc rules).result P cfg w := by
  cases h with
  | cons _ rest =>
    cases rest
    exact ⟨List.append_nil _, rfl⟩

/-- **A collection pass, cut off**: it has not removed a file yet, or it is through. -/
theorem Moves.complete_gc_cut {rules : RetentionRules} {es es' : List DiskEffect}
    (h : Moves P cfg w [.gc rules] (es ++ es') w') (hi : w.Idle) (hs : w.Stocked)
    (hd : w.disk.Complete)
    (hspare : (∃ id, .removeSegment id ∈ es) →
      (∀ id ∈ w.collection.dropped rules, id ∉ w.disk.headNamed) ∧ ∃ s, .writeVersions s ∈ es) :
    (w.disk.performAll P cfg es).Complete := by
  obtain ⟨hes, -⟩ := h.of_gc
  set removals : List DiskEffect := (w.collection.dropped rules).map .removeSegment with hr
  set writes : List DiskEffect :=
    ((Move.gc rules).prepare P cfg w).unpersisted.map .writeSegment with hw
  have hpre : es <+: (removals ++ writes) ++
      [.writeVersions ((Move.gc rules).prepare P cfg w).collection.versions.snapshot] :=
    ⟨es', hes.trans (List.append_assoc ..).symm⟩
  rcases List.prefix_concat_iff.mp hpre with rfl | hpre
  · have hdisk := @World.Stocked.complete_gc P cfg w hs hi.keyed hd rules fun id hid =>
      (hspare ⟨id, List.mem_append_left _
        (List.mem_append_left _ (List.mem_map_of_mem hid))⟩).1 id hid
    rw [Move.result_disk] at hdisk
    rwa [List.append_assoc]
  -- No versions file is among the effects performed, so no file was removed either.
  have hno : ∀ id, .removeSegment id ∉ es := by
    intro id hid
    obtain ⟨-, s, hs⟩ := hspare ⟨id, hid⟩
    have := hpre.subset hs
    simp [hr, hw] at this
  cases es with
  | nil => exact hd
  | cons e es =>
    have hdrop : w.collection.dropped rules = [] := by
      cases hd' : w.collection.dropped rules with
      | nil => rfl
      | cons id ids =>
        rw [hr, hd', List.map_cons, List.cons_append, List.cons_prefix_cons] at hpre
        exact absurd (hpre.1 ▸ List.mem_cons_self) (hno id)
    rw [hr, hdrop] at hpre
    exact (hd.along_writeSegments _).upto hpre

end

/-! ## Histories -/

/-- The segments a request deletes the files of. -/
def Request.drops (w : World) : Request → List SegmentId
  | .gc rules => w.collection.dropped rules
  | _ => []

/-- The action deletes a segment file. -/
def DurableOp.isRemoveSegment : DurableOp → Bool
  | .removeSegment _ => true
  | _ => false

/-- The action rewrites the versions file. -/
def DurableOp.isWriteVersions : DurableOp → Bool
  | .writeVersions _ => true
  | _ => false

/-- The event does not delete a segment file that is still named: a collection pass drops nothing
`HEAD` names, and is not cut off between its first deletion and the rewriting of the versions
file. -/
def Event.SparesNamed : Event → Prop
  | .call w r _ => ∀ id ∈ r.drops w, id ∉ w.disk.headNamed
  | .crash w r os => os.any DurableOp.isRemoveSegment →
      (∀ id ∈ r.drops w, id ∉ w.disk.headNamed) ∧ os.any DurableOp.isWriteVersions
  | _ => True

instance : DecidablePred Event.SparesNamed
  | .call _ _ _ => inferInstanceAs (Decidable (∀ _ ∈ _, _))
  | .crash _ _ _ => inferInstanceAs (Decidable (_ → _ ∧ _))
  | .stop => .isTrue trivial
  | .opened _ => .isTrue trivial
  | .openCrash _ => .isTrue trivial

/-- A node whose directory can be opened, now and after every move. -/
def Node.Supplied : Node → Prop
  | .running w => w.Idle ∧ w.Stocked ∧ w.disk.Complete
  | .stopped d => d.Complete

theorem backed_recover {d : Disk} {c : Collection} (hc : d.recover P cfg = some c) : c.Backed := by
  obtain ⟨segs, hsegs, rfl⟩ := Disk.of_recover hc
  refine Collection.Backed.foldl_replay (c := d.base segs) ⟨fun s hs => ?_, fun id hid => ?_⟩ _
  · exact Collection.isSome_insertSegments.mpr
      (.inr (List.mem_map_of_mem (List.mem_filter.mp hs).1))
  · refine Collection.isSome_insertSegments.mpr (.inr ?_)
    rw [(Disk.load_eq_some hsegs).1, Disk.mem_named]
    obtain ⟨v, m, hm, hid⟩ := VersionStore.mem_allReferencedSegments.mp hid
    change (d.versions.elim VersionStore.new VersionStore.fromSnapshot).get v = some m at hm
    refine .inr ?_
    rw [Disk.referenced]
    cases hs : d.versions with
    | none =>
      rw [hs] at hm
      simp [VersionStore.new, VersionStore.get] at hm
    | some s =>
      rw [hs] at hm
      exact List.mem_flatMap.mpr ⟨m, (VersionStore.of_get_fromSnapshot hm).1, hid⟩

theorem supplied_opened {d : Disk} {c : Collection} {clock : ℕ → ℕ}
    (hc : d.recover P cfg = some c) (hd : d.Complete) :
    (Node.running (World.opened P cfg d .sync clock c)).Supplied := by
  refine ⟨idle_opened hc, ⟨backed_recover hc, fun id hid => ?_⟩, hd.head, hd.versions⟩
  rcases Disk.mem_named.mp (List.mem_toFinset.mp hid) with hid | hid
  · exact (Disk.complete_iff.mp hd).1 id hid
  · exact (Disk.complete_iff.mp hd).2 id hid

theorem supplied_step {n n' : Node} {e : Event} (hn : n.Supplied) (he : e.SparesNamed)
    (hs : Node.Step P cfg n e n') : n'.Supplied := by
  cases hs with
  | @call w w' r resp hr =>
    obtain ⟨hi, hst, hd⟩ := hn
    obtain ⟨ms, es, _, hw, hm, hmk⟩ := (Node.Step.call hr).of_call hi
    cases hw
    refine ⟨hm.idle hi, hm.stocked hi hst, ?_⟩
    by_cases hgc : ∃ rules, .gc rules ∈ ms
    · obtain ⟨rules, hgc⟩ := hgc
      obtain ⟨rfl, rfl⟩ := hmk.of_gc_mem hgc
      rw [hm.of_gc.2]
      exact hst.complete_gc hi.keyed hd he
    · rw [hm.disk_eq]
      exact (hm.along_complete hi hst hd (not_exists.mp hgc)).end
  | @crash w w' r os p d hst hsurv =>
    obtain ⟨hi, hstock, hd⟩ := hn
    obtain ⟨_, resp, ms, es, es', w₁, hw, hm, hmk, hsv, hes, hos⟩ :=
      (Node.Step.crash hst hsurv).of_crash hi
    cases hw
    refine Disk.Complete.survives ?_ hsv
    by_cases hgc : ∃ rules, .gc rules ∈ ms
    · obtain ⟨rules, hgc⟩ := hgc
      obtain ⟨rfl, rfl⟩ := hmk.of_gc_mem hgc
      refine hm.complete_gc_cut hi hstock hd fun ⟨id, hid⟩ => ?_
      obtain ⟨o, ho, s, hos'⟩ := hes _ hid
      obtain ⟨hspare, hvs⟩ := he (List.any_eq_true.mpr
        ⟨o, ho, (DurableOp.eq_of_removeSegment_mem hos') ▸ rfl⟩)
      obtain ⟨ov, hov, hvs⟩ := List.any_eq_true.mp hvs
      obtain ⟨s, hs⟩ := hos _ hov
      cases ov with
      | writeVersions vs => exact ⟨hspare, vs, hs _ List.mem_cons_self⟩
      | _ => cases hvs
    · exact (hm.along_complete hi hstock hd (not_exists.mp hgc)).upto
        (List.prefix_append _ _)
  | stop hsurv => exact hn.2.2.survives hsurv
  | opened hr =>
    obtain ⟨c, clock, hc, hw⟩ := (Node.Step.opened hr).of_opened
    cases hw
    exact supplied_opened hc hn
  | openCrash hst hsurv =>
    obtain ⟨_, es, hw, hes, hsv⟩ := (Node.Step.openCrash hst hsurv).of_openCrash
    cases hw
    exact ((Disk.Complete.along_open hn).upto hes).survives hsv

theorem complete_empty : Disk.empty.Complete := ⟨fun _ h => (by cases h), fun _ h => (by cases h)⟩

/-- Opening the directory succeeds. -/
def Disk.Opens (P : Platform) (cfg : CollectionConfig) (d : Disk) : Prop :=
  ∀ clock, ∃ w, run (World.step P cfg) 0 (Durable.openCollection cfg) (.boot d cfg .sync clock) =
    some (.ok (), w)

theorem Disk.opens_iff {d : Disk} : d.Opens P cfg ↔ d.Reads P ∧ d.Complete := by
  rw [← @Disk.isSome_recover P cfg]
  refine ⟨fun h => ?_, fun h clock => ?_⟩
  · obtain ⟨w, hw⟩ := h fun _ => 0
    obtain ⟨c, -, hc, -⟩ := (Node.Step.opened hw).of_opened
    rw [hc]
    rfl
  · obtain ⟨c, hc⟩ := Option.isSome_iff_exists.mp h
    exact ⟨_, (performs_open hc).run⟩

/-- After any history of requests, crashes and restarts in which no collection pass deletes a
segment file that is still named, the directory is complete. -/
theorem Runs.complete {evs : List Event} {d : Disk}
    (h : Runs P cfg (.stopped .empty) evs (.stopped d)) (hspare : ∀ e ∈ evs, e.SparesNamed) :
    d.Complete :=
  @Runs.invariant P cfg Node.Supplied Event.SparesNamed (fun _ _ _ => supplied_step) _ _ _ h
    complete_empty hspare

/-- **A collection can reopen what it wrote.**  After any history of requests, crashes and restarts
in which no collection pass deletes a segment file that is still named, every segment file that
`HEAD` or a manifest names is there, and opening succeeds, exactly if the `HEAD` and the versions
file that are there decode. -/
theorem Runs.reopens {evs : List Event} {d : Disk}
    (h : Runs P cfg (.stopped .empty) evs (.stopped d)) (hspare : ∀ e ∈ evs, e.SparesNamed) :
    d.Complete ∧ (d.Opens P cfg ↔ d.Reads P) := by
  have hd := h.complete hspare
  rw [Disk.opens_iff]
  exact ⟨hd, fun h => h.1, fun h => ⟨h, hd⟩⟩

/-- On the sample platform, files decode. -/
theorem Sample.reads (d : Disk) : d.Reads Sample.platform := by
  refine ⟨?_, ?_⟩
  · cases d.head <;> rfl
  · cases d.versions <;> rfl

/-- A segment only a restored-over version refers to is collected, no checkpoint having named it. -/
theorem reopens_after_gc : ∃ evs d,
    (Runs Sample.platform (Sample.config none) (.stopped .empty) evs (.stopped d) ∧
      ∀ e ∈ evs, e.SparesNamed) ∧ d.Complete ∧ d.Opens Sample.platform (Sample.config none) := by
  obtain ⟨evs, d, h, hspare⟩ : ∃ evs d,
      Runs Sample.platform (Sample.config none) (.stopped .empty) evs (.stopped d) ∧
        ∀ e ∈ evs, e.SparesNamed := by
    refine @Ends.exists_runs _ _ [.open, .call (.upsert [([0], none)]), .call (.commit none none),
      .call (.upsert [([0], none)]), .call (.commit none none), .call (.restore 0),
      .call (.gc ⟨some 1, false, false⟩), .stop] _ ?_
    decide +kernel
  obtain ⟨hcomplete, hopens⟩ := h.reopens hspare
  exact ⟨evs, d, ⟨h, hspare⟩, hcomplete, hopens.mpr (Sample.reads d)⟩

/-- Two commits are compacted and a third made; a collection pass that keeps the last version only
deletes the first two segments, which `HEAD` names. -/
theorem reopen_fails_after_gc : ∃ evs d,
    Runs Sample.platform (Sample.config none) (.stopped .empty) evs (.stopped d) ∧
      ¬ d.Complete ∧ ¬ d.Opens Sample.platform (Sample.config none) := by
  obtain ⟨evs, d, h, id, hid, hs⟩ : ∃ evs d,
      Runs Sample.platform (Sample.config none) (.stopped .empty) evs (.stopped d) ∧
        ∃ id ∈ d.headNamed, d.segments id = none := by
    refine @Ends.exists_runs _ _ [.open, .call (.upsert [([0], none)]), .call (.commit none none),
      .call (.upsert [([0], none)]), .call (.commit none none), .call .compact,
      .call (.upsert [([0], none)]), .call (.commit none none),
      .call (.gc ⟨some 1, false, false⟩), .stop] _ ?_
    decide +kernel
  have hd : ¬ d.Complete := fun hd => by
    have := (Disk.complete_iff.mp hd).1 id hid
    rw [hs] at this
    cases this
  exact ⟨evs, d, h, hd, fun ho => hd (Disk.opens_iff.mp ho).2⟩

end Vecvec
