import Vecvec.Collection.Difference
import Vecvec.Collection.Restores
import Vecvec.Machinery.Stable

/-!
# Collection/Compacts — sealing and compaction do not change the live data

A seal moves the appendable's rows behind the working ones.  A compaction sorts the working rows by
id and pushes them through the ingest path once more: every stored vector has been through it
(`Ingested`), so a normalisation that is idempotent leaves it alone, and the sort is stable, so a
scroll — which sorts again — cannot tell (`insertionSort_append`).
-/

namespace Vecvec

open Machinery

variable {P : Platform} {cfg : CollectionConfig} {c c' : Collection} {t : ℕ}

namespace Collection

/-! ## Stored vectors have been ingested -/

/-- The rows' vectors have been through the ingest path. -/
def IngestedRows (P : Platform) (cfg : CollectionConfig) (rows : List Row) : Prop :=
  ∀ r ∈ rows, ∃ v, r.2 = cfg.metric.stored P v

/-- Every vector of the collection has been through the ingest path. -/
structure Ingested (P : Platform) (cfg : CollectionConfig) (c : Collection) : Prop where
  /-- The appendable's. -/
  appendable : IngestedRows P cfg c.appendable.rows
  /-- Those of the registered segments. -/
  segments : ∀ id s, c.allSegments id = some s → IngestedRows P cfg s.rows

theorem ingested_create : create.Ingested P cfg := ⟨nofun, nofun⟩

/-- Rows appended through the ingest path. -/
theorem ingestedRows_map (rows : List (GlobalId × List F32)) :
    IngestedRows P cfg (rows.map fun r => (r.1, cfg.metric.stored P r.2)) := by
  intro r hr
  obtain ⟨x, -, rfl⟩ := List.mem_map.mp hr
  exact ⟨x.2, rfl⟩

theorem IngestedRows.append {rows rows' : List Row} (h : IngestedRows P cfg rows)
    (h' : IngestedRows P cfg rows') : IngestedRows P cfg (rows ++ rows') :=
  fun r hr => (List.mem_append.mp hr).elim (h r) (h' r)

namespace Ingested

/-- A segment of ingested rows is registered. -/
theorem register (h : c.Ingested P cfg) {s : SealedSegment} (hs : IngestedRows P cfg s.rows)
    (ha : IngestedRows P cfg c'.appendable.rows)
    (hseg : c'.allSegments = insertSegments c.allSegments [s]) : c'.Ingested P cfg := by
  refine ⟨ha, fun id x hx => ?_⟩
  rw [hseg, insertSegments_singleton, Function.update_apply] at hx
  split at hx
  · cases hx
    exact hs
  · exact h.segments id x hx

theorem sealNow (h : c.Ingested P cfg) : c.sealNow.Ingested P cfg := by
  unfold Collection.sealNow
  split
  · exact h
  · exact h.register h.appendable nofun rfl

theorem mergedRows (working : SegmentSet) :
    IngestedRows P cfg (Collection.mergedRows P cfg working).rows := by
  rw [Collection.mergedRows, foldl_append_rows]
  exact ingestedRows_map _

/-- **Every call stores what has been ingested.** -/
theorem after (h : c.Ingested P cfg) (k : Call) : (c.after P cfg k).Ingested P cfg := by
  cases k with
  | insert v =>
    rw [Collection.after]
    split
    · exact ⟨h.appendable.append (ingestedRows_map [(_, v)]), h.segments⟩
    · exact ⟨h.appendable, h.segments⟩
  | insertWithIdAndPayload id v p =>
    rw [Collection.after]
    split
    · exact ⟨h.appendable.append (ingestedRows_map [(id, v)]), h.segments⟩
    · exact h
  | insertBatch vs =>
    rw [Collection.after]
    split
    · refine ⟨h.appendable.append ?_, h.segments⟩
      rw [List.zip_map_right]
      exact ingestedRows_map _
    · exact h
  | delete id =>
    rw [Collection.after]
    exact ⟨remove_appendable (c := c) ▸ h.appendable, remove_allSegments (c := c) ▸ h.segments⟩
  | sealAppendable => exact h.sealNow
  | commit => exact ⟨h.sealNow.appendable, h.sealNow.segments⟩
  | restore v =>
    rw [Collection.after]
    cases c.versions.get v with
    | none => exact h
    | some m =>
      have : (c.repoint m).sealNow.Ingested P cfg :=
        sealNow ⟨fun _ hr => absurd hr List.not_mem_nil, h.segments⟩
      exact ⟨this.appendable, this.segments⟩
  | compact =>
    rw [Collection.after]
    split
    · exact h.register (mergedRows c.working) h.appendable rfl
    · exact h
  | createTag name v => exact ⟨h.appendable, h.segments⟩
  | createBranch name v => exact ⟨h.appendable, h.segments⟩
  | gc rules =>
    refine ⟨h.appendable, fun id s hs => ?_⟩
    change (if _ then none else c.allSegments id) = some s at hs
    split at hs
    · cases hs
    · exact h.segments id s hs

end Ingested

end Collection

theorem History.ingested {tr : List (Collection × Call)} (hist : History P cfg .create tr c) :
    c.Ingested P cfg :=
  hist.invariant Collection.sound_create Collection.ingested_create fun e _ _ hI _ =>
    have := hI.after e.2
    ⟨this.appendable, this.segments⟩

/-! ## The merged segment -/

namespace Collection

/-- **A compaction rebuilds the working rows**, by ascending id. -/
theorem merged_rows (hidem : ∀ v, P.l2Normalize (P.l2Normalize v) = P.l2Normalize v)
    (hs : c.Sound) (h : c.Ingested P cfg) :
    (c.merged P cfg).rows = sortById c.working.rows := by
  rw [merged, AppendableSegment.sealAs_rows, mergedRows, foldl_append_rows]
  refine (List.map_congr_left fun r hr => ?_).trans (List.map_id _)
  obtain ⟨s, hsw, hrs⟩ := SegmentSet.mem_rows.mp (mem_sortById.mp hr)
  obtain ⟨v, hv⟩ := h.segments s.id s (hs.working s hsw) r hrs
  exact Prod.ext rfl (by rw [hv, Metric.stored_stored hidem, id_eq, hv])

/-! ## What a reader cannot tell apart -/

/-- The rows of the live view. -/
def rows (c : Collection) : List Row := c.working.rows ++ c.appendable.rows

/-- The two collections answer alike: scrolls and the length, the tombstones, the versions and
their scrolls, and every delete. -/
structure SameData (P : Platform) (cfg : CollectionConfig) (c c' : Collection) : Prop where
  /-- Scrolls of the live view: page and total. -/
  live : ∀ t offset limit, ∃ x,
    run (step P cfg) t (scroll none offset limit) c = some (.ok x, c) ∧
    run (step P cfg) t (scroll none offset limit) c' = some (.ok x, c')
  /-- The length. -/
  len : ∀ t, ∃ n, run (step P cfg) t len c = some (n, c) ∧ run (step P cfg) t len c' = some (n, c')
  /-- The tombstones. -/
  tombstones : c'.workingDeletions = c.workingDeletions
  /-- The versions. -/
  versions : c'.versions = c.versions
  /-- Scrolls of versions. -/
  scrolls : ∀ t selector offset limit, ∃ x,
    run (step P cfg) t (scroll (some selector) offset limit) c = some (x, c) ∧
    run (step P cfg) t (scroll (some selector) offset limit) c' = some (x, c')
  /-- Deletes. -/
  deletes : ∀ t id, ∃ r c₁ c₂, run (step P cfg) t (delete id) c = some (r, c₁) ∧
    run (step P cfg) t (delete id) c' = some (r, c₂)

/-- **Collections whose rows sort alike** answer alike. -/
theorem sameData_of_sortById (hs : c.Sound) (hs' : c'.Sound)
    (hrows : ∀ d, sortById (liveRows c'.rows d) = sortById (liveRows c.rows d))
    (hd : c'.workingDeletions = c.workingDeletions) (hv : c'.versions = c.versions)
    (hp : c'.payloads = c.payloads)
    (hseg : ∀ id, id < c.nextSegmentId → c'.allSegments id = c.allSegments id) :
    c.SameData P cfg c' := by
  have hlen (d : DeletionVector) : (liveRows c'.rows d).length = (liveRows c.rows d).length := by
    rw [← (sortById_perm _).length_eq, hrows, (sortById_perm _).length_eq]
  have hperm : c'.rows.Perm c.rows := by
    have hall (l : List Row) : liveRows l ∅ = l := List.filter_eq_self.mpr fun _ _ => by simp
    rw [← hall c'.rows, ← hall c.rows]
    exact (sortById_perm _).symm.trans ((hrows ∅) ▸ sortById_perm _)
  have hholds (id : GlobalId) : c'.holds id = c.holds id := by
    rw [Bool.eq_iff_iff, ← mem_ids, ← mem_ids]
    exact (hperm.map Prod.fst).mem_iff
  refine ⟨fun t offset limit => ⟨_, run_scroll_none hs.payloadReaders offset limit, ?_⟩,
    fun t => ⟨_, run_len, ?_⟩, hd, hv, fun t sel offset limit => ?_,
    fun t id => ⟨_, c.remove id, c'.remove id, run_delete, ?_⟩⟩
  · have hpage : page (liveRows c'.rows c.workingDeletions) c.payloads offset limit =
        page (liveRows c.rows c.workingDeletions) c.payloads offset limit := by
      rw [page, page, hrows, hlen]
    rw [run_scroll_none hs'.payloadReaders, hd, hp]
    exact congrArg (fun x => some (Except.ok x, c')) hpage
  · have hn := hperm.length_eq
    rw [rows, rows, List.length_append, List.length_append] at hn
    rw [run_len, hn, hd]
  · refine exists_run_scroll_selector hs.payloadReaders hs'.payloadReaders (by rw [hv]) ?_ hp _ _
    intro v m hm
    rw [versionRows, versionRows, List.filterMap_congr fun id hid =>
      hseg id (hs.below id (hs.isSome_of_mem_segmentIds hm hid))]
  · rw [run_delete, hholds, hd]

theorem Sound.sameData_sealNow (hs : c.Sound) : c.SameData P cfg c.sealNow := by
  refine sameData_of_sortById hs hs.sealNow (fun d => ?_) sealNow_workingDeletions sealNow_versions
    sealNow_payloads fun id hid => sealNow_allSegments_of_lt hid
  rw [rows, rows, rows_sealNow]

/-- A scroll sorts what a compaction has sorted already. -/
theorem Sound.sameData_compactNow
    (hidem : ∀ v, P.l2Normalize (P.l2Normalize v) = P.l2Normalize v) (hs : c.Sound)
    (h : c.Ingested P cfg) : c.SameData P cfg (c.compactNow P cfg) := by
  refine sameData_of_sortById hs hs.compactNow (fun d => ?_) rfl rfl rfl
    fun id hid => Function.update_of_ne hid.ne _ _
  have hrows : (c.compactNow P cfg).rows = sortById c.working.rows ++ c.appendable.rows := by
    rw [← merged_rows hidem hs h]
    exact congrArg (· ++ c.appendable.rows) (List.append_nil _)
  have hsort : sortById (sortById c.working.rows ++ c.appendable.rows) = sortById c.rows :=
    insertionSort_append Prod.fst _ _
  have hfilter (l : List Row) : sortById (liveRows l d) = liveRows (sortById l) d :=
    (filter_insertionSort Prod.fst _ l).symm
  rw [hrows, hfilter, hfilter, hsort]

end Collection

/-- **Sealing and compaction do not change the live data**, in a collection reached by calls one
after another, if normalisation is idempotent on its own output.  After a seal the appendable is
empty; after a compaction of several working segments there is one, with the same rows by ascending
id. -/
theorem seal_compact_sameData (hidem : ∀ v, P.l2Normalize (P.l2Normalize v) = P.l2Normalize v)
    {tr : List (Collection × Call)} (hist : History P cfg .create tr c) (t : ℕ) :
    (∃ r c', run (Collection.step P cfg) t Collection.sealAppendable c = some (r, c') ∧
      c.SameData P cfg c' ∧ c'.appendable.rows = []) ∧
    ∃ r c', run (Collection.step P cfg) t (Collection.compact P cfg) c = some (r, c') ∧
      c.SameData P cfg c' ∧
      (2 ≤ c.working.length → ∃ s, c'.working = [s] ∧ s.rows.Perm c.working.rows ∧
        Ascending s.rows) := by
  have hs := hist.sound Collection.sound_create
  constructor
  · obtain ⟨r, hrun⟩ := @Collection.run_sealAppendable P cfg c t (by rw [hs.sealing])
    exact ⟨r, _, hrun, hs.sameData_sealNow, Collection.sealNow_appendable_rows⟩
  · rcases lt_or_ge 1 c.working.length with hmany | hfew
    · refine ⟨_, _, Collection.run_compact hmany, hs.sameData_compactNow hidem hist.ingested,
        fun _ => ⟨_, rfl, ?_⟩⟩
      rw [Collection.merged_rows hidem hs hist.ingested]
      exact ⟨sortById_perm _, ascending_sortById _⟩
    · exact ⟨_, _, Collection.run_compact_none hfew,
        Collection.sameData_of_sortById hs hs (fun _ => rfl) rfl rfl rfl fun _ _ => rfl,
        fun h => absurd hfew (by lia)⟩

/-- Segments of interleaved ids, one of them tombstoned, merged after a restore. -/
theorem seal_compact_sameData_sample : ∃ tr c r c',
    History Sample.platform (Sample.config none) .create tr c ∧
    run (Collection.step Sample.platform (Sample.config none)) 0
      (Collection.compact Sample.platform (Sample.config none)) c = some (r, c') ∧
    c.SameData Sample.platform (Sample.config none) c' ∧
    ∃ s, c'.working = [s] ∧ s.rows.Perm c.working.rows := by
  have h : Collection.create.Leads Sample.platform (Sample.config none)
      [.insertWithIdAndPayload 4 [1] none, .insertWithIdAndPayload 1 [2] (some (.bool true)),
        .delete 4, .commit "manual" none none, .insert [3], .sealAppendable, .compact, .restore 0,
        .insertWithIdAndPayload 2 [4] none, .sealAppendable, .insert [5]]
      fun _ c => c.working.length = 2 := by
    decide +kernel
  obtain ⟨tr, c, hist, hlen⟩ := h.exists_history
  obtain ⟨-, r, c', hrun, hsame, hone⟩ := seal_compact_sameData (fun _ => rfl) hist 0
  obtain ⟨s, hs, hperm, -⟩ := hone hlen.ge
  exact ⟨tr, c, r, c', hist, hrun, hsame, s, hs, hperm⟩

end Vecvec
