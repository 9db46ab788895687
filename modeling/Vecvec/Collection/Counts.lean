import Vecvec.Collection.Isolation
import Mathlib.Data.Set.Card

/-!
# Collection/Counts — every view counts the same live points

`len` and `live_count` subtract the number of tombstones from a number of rows.  That is the number
of live rows if no id is on two rows and every tombstone is on one — which calls that take their
ids from the allocator keep, of the working state and of every version at once, so that a restore
finds it again.
-/

namespace Vecvec

open Machinery

variable {P : Platform} {cfg : CollectionConfig} {c c' : Collection} {t : ℕ}

/-! ## Rows and tombstones -/

/-- The ids of some rows, and the tombstones kept with them: no id is there twice, every tombstone
is on one of them, and all have been given out. -/
structure Tallied (ids : List GlobalId) (d : DeletionVector) (n : GlobalId) : Prop where
  /-- No id is there twice. -/
  nodup : ids.Nodup
  /-- A tombstone is on a row. -/
  tombs : ∀ id ∈ d, id ∈ ids
  /-- The ids have been given out. -/
  below : ∀ id ∈ ids, id < n

namespace Tallied

variable {ids ids' : List GlobalId} {d : DeletionVector} {n n' : GlobalId}

theorem nil : Tallied [] ∅ n := ⟨.nil, by simp, by simp⟩

theorem perm (h : Tallied ids d n) (hp : ids'.Perm ids) : Tallied ids' d n :=
  ⟨hp.nodup_iff.mpr h.nodup, fun id hid => hp.mem_iff.mpr (h.tombs id hid),
    fun id hid => h.below id (hp.mem_iff.mp hid)⟩

theorem mono (h : Tallied ids d n) (hn : n ≤ n') : Tallied ids d n' :=
  ⟨h.nodup, h.tombs, fun id hid => (h.below id hid).trans_le hn⟩

theorem insert (h : Tallied ids d n) {id : GlobalId} (hid : id ∈ ids) :
    Tallied ids (insert id d) n :=
  ⟨h.nodup, fun i hi => (Finset.mem_insert.mp hi).elim (fun hi => hi ▸ hid) (h.tombs i), h.below⟩

/-- Fresh ids come behind. -/
theorem append (h : Tallied ids d n) (k : ℕ) :
    Tallied (ids ++ List.range' n k) d (n + k) := by
  refine ⟨List.nodup_append.mpr ⟨h.nodup, List.nodup_range', fun a ha b hb => ?_⟩,
    fun id hid => List.mem_append_left _ (h.tombs id hid), fun id hid => ?_⟩
  · exact ((h.below a ha).trans_le (List.mem_range'_1.mp hb).1).ne
  · rcases List.mem_append.mp hid with hid | hid
    · exact (h.below id hid).trans_le (Nat.le_add_right _ _)
    · exact (List.mem_range'_1.mp hid).2

/-- **What is live is what the subtraction says.** -/
theorem length_filter (h : Tallied ids d n) :
    (ids.filter fun id => id ∉ d).length = ids.length - d.card := by
  have hsub : d ⊆ ids.toFinset := fun id hid => List.mem_toFinset.mpr (h.tombs id hid)
  have hlive : (ids.filter fun id => id ∉ d).toFinset = ids.toFinset \ d := by
    ext id
    simp
  rw [← List.toFinset_card_of_nodup (h.nodup.filter _), hlive, Finset.card_sdiff_of_subset hsub,
    List.toFinset_card_of_nodup h.nodup]

end Tallied

/-- The ids on some rows. -/
abbrev rowIds (rows : List Row) : List GlobalId := rows.map Prod.fst

theorem mem_rowIds {rows : List Row} {id : GlobalId} :
    id ∈ rowIds rows ↔ containsId rows id = true := by
  simp [rowIds, containsId_iff]

theorem rowIds_liveRows {rows : List Row} {d : DeletionVector} :
    rowIds (Collection.liveRows rows d) = (rowIds rows).filter fun id => id ∉ d := by
  rw [rowIds, rowIds, List.filter_map]
  rfl

/-- The live rows of a tallied set of rows. -/
theorem Tallied.length_liveRows {rows : List Row} {d : DeletionVector} {n : GlobalId}
    (h : Tallied (rowIds rows) d n) :
    (Collection.liveRows rows d).length = rows.length - d.card := by
  have := h.length_filter
  rwa [← rowIds_liveRows, List.length_map, List.length_map] at this

namespace Collection

/-! ## The tallies of a collection -/

/-- The ids on the working rows and the appendable's. -/
def ids (c : Collection) : List GlobalId := rowIds (c.working.rows ++ c.appendable.rows)

/-- The ids on the rows of a version. -/
def versionIds (c : Collection) (m : Manifest) : List GlobalId :=
  rowIds (SegmentSet.rows (m.segmentIds.filterMap c.allSegments))

/-- The working state and every version are tallied. -/
structure Counted (c : Collection) : Prop where
  /-- The working state. -/
  working : Tallied c.ids c.workingDeletions c.nextGlobalId
  /-- Every version. -/
  versions : ∀ v m, c.versions.get v = some m →
    Tallied (c.versionIds m) m.deletions c.nextGlobalId

theorem mem_ids {id : GlobalId} : id ∈ c.ids ↔ c.holds id = true := by
  rw [ids, mem_rowIds, holds, Bool.or_eq_true, List.any_eq_true]
  simp only [containsId_iff, List.mem_append, SegmentSet.mem_rows]
  constructor
  · rintro ⟨v, ⟨s, hs, hv⟩ | hv⟩
    · exact .inr ⟨s, hs, v, hv⟩
    · exact .inl ⟨v, hv⟩
  · rintro (⟨v, hv⟩ | ⟨s, hs, v, hv⟩)
    · exact ⟨v, .inr hv⟩
    · exact ⟨v, .inl ⟨s, hs, hv⟩⟩

/-- A seal moves the appendable's rows behind the working ones. -/
theorem rows_sealNow : c.sealNow.working.rows ++ c.sealNow.appendable.rows =
    c.working.rows ++ c.appendable.rows := by
  rw [sealNow_appendable_rows, List.append_nil]
  unfold sealNow
  split
  next h => rw [h, List.append_nil]
  next => simp

theorem ids_sealNow : c.sealNow.ids = c.ids := congrArg rowIds rows_sealNow

/-- A compaction re-orders the working rows. -/
theorem ids_compactNow_perm : (c.compactNow P cfg).ids.Perm c.ids := by
  have hmerged : rowIds (mergedRows P cfg c.working).rows = rowIds (sortById c.working.rows) := by
    rw [mergedRows, foldl_append_rows]
    simp [rowIds, Function.comp_def]
  change (rowIds (SegmentSet.rows [c.merged P cfg] ++ c.appendable.rows)).Perm _
  rw [SegmentSet.rows_cons, SegmentSet.rows_nil, List.append_nil, ids, rowIds, rowIds,
    List.map_append, List.map_append]
  exact ((List.Perm.of_eq hmerged).trans ((sortById_perm _).map _)).append_right _

theorem counted_create : create.Counted :=
  ⟨.nil, fun _ _ h => by simp [create, VersionStore.new, VersionStore.get] at h⟩

namespace Counted

/-- What a call keeps of the registry and the versions, it keeps of their tallies. -/
theorem frame (h : c.Counted) (hc : c'.versions.commits = c.versions.commits)
    (hseg : c'.allSegments = c.allSegments) (hn : c.nextGlobalId ≤ c'.nextGlobalId)
    (hw : Tallied c'.ids c'.workingDeletions c'.nextGlobalId) : c'.Counted := by
  refine ⟨hw, fun v m hm => ?_⟩
  rw [versionIds, hseg]
  exact (h.versions v m (VersionStore.get_congr hc ▸ hm)).mono hn

theorem put (h : c.Counted) {v : List F32} {p : Option Payload} :
    (c.put P cfg c.nextGlobalId v p).Counted := by
  refine h.frame rfl rfl (le_max_left _ _) ?_
  have := h.working.append 1
  simpa [ids, rowIds, List.map_append] using this

theorem putMany (h : c.Counted) (vs : List (List F32)) : (c.putMany P cfg vs).Counted := by
  refine h.frame rfl rfl (Nat.le_add_right _ _) ?_
  have hz : ((List.range' c.nextGlobalId vs.length).zip
      (vs.map (cfg.metric.stored P))).map Prod.fst = List.range' c.nextGlobalId vs.length :=
    List.map_fst_zip (by simp)
  have := h.working.append vs.length
  rwa [← hz, ids, rowIds, ← List.map_append, List.append_assoc] at this

theorem remove (h : c.Counted) (id : GlobalId) : (c.remove id).Counted := by
  unfold Collection.remove
  split
  · exact h.frame rfl rfl le_rfl (h.working.insert (mem_ids.mpr ‹_›))
  · exact h

/-- A sealed segment takes the next id, which no version refers to. -/
theorem register (hs : c.Sound) (h : c.Counted) {s : SealedSegment} (hid : s.id = c.nextSegmentId)
    (hseg : c'.allSegments = insertSegments c.allSegments [s])
    (hv : c'.versions = c.versions) (hn : c'.nextGlobalId = c.nextGlobalId)
    (hw : Tallied c'.ids c'.workingDeletions c'.nextGlobalId) : c'.Counted := by
  refine ⟨hw, fun v m hm => ?_⟩
  rw [hv] at hm
  have hold : m.segmentIds.filterMap c'.allSegments = m.segmentIds.filterMap c.allSegments := by
    refine List.filterMap_congr fun i hi => ?_
    have hlt := hs.below i (hs.isSome_of_mem_segmentIds hm hi)
    rw [hseg, insertSegments_singleton, Function.update_of_ne (by lia)]
  rw [versionIds, hold, hn]
  exact h.versions v m hm

theorem sealNow (hs : c.Sound) (h : c.Counted) : c.sealNow.Counted := by
  have hw := h.working.perm (.of_eq (ids_sealNow (c := c)))
  by_cases he : c.appendable.rows = []
  · rwa [Collection.sealNow, if_pos he]
  · rw [Collection.sealNow, if_neg he] at hw ⊢
    exact h.register hs rfl rfl rfl rfl hw

/-- The rows a commit records are the working ones: empty segments have none. -/
theorem rows_recorded (hs : c.Sound) (segs : SegmentSet) (hsub : ∀ s ∈ segs, s ∈ c.working) :
    SegmentSet.rows (((segs.filterMap segmentRef).map SegmentRef.id).filterMap c.allSegments) =
      SegmentSet.rows segs := by
  induction segs with
  | nil => rfl
  | cons s segs ih =>
    obtain ⟨hmem, hsub⟩ := List.forall_mem_cons.mp hsub
    cases href : segmentRef s with
    | some r =>
      rw [List.filterMap_cons_some href, List.map_cons, segmentRef_id href,
        List.filterMap_cons_some (hs.working s hmem), SegmentSet.rows_cons, SegmentSet.rows_cons,
        ih hsub]
    | none =>
      have hempty : s.rows = [] := by
        cases hr : s.rows with
        | nil => rfl
        | cons r rs => simp [segmentRef, globalIdRange, hr, List.getLast?_cons] at href
      rw [List.filterMap_cons_none href, ih hsub, SegmentSet.rows_cons, hempty, List.nil_append]

theorem commitNow (hs : c.Sound) (h : c.Counted) {trigger : String} {message tag : Option String} :
    (c.commitNow trigger message tag).Counted := by
  have hseal := h.sealNow hs
  refine ⟨hseal.working, fun v m hm => ?_⟩
  rw [get_commitNow] at hm
  split at hm
  · cases hm
    have hrows := rows_recorded hs.sealNow c.sealNow.working fun _ hx => hx
    have hw := hseal.working
    rw [ids, sealNow_appendable_rows, List.append_nil, sealNow_workingDeletions] at hw
    change Tallied (rowIds (SegmentSet.rows (((c.sealNow.working.filterMap segmentRef).map
      SegmentRef.id).filterMap c.sealNow.allSegments))) _ _
    rwa [hrows]
  · rw [← sealNow_versions] at hm
    exact hseal.versions v m hm

theorem repoint (h : c.Counted) {v : VersionId} {m : Manifest} (hm : c.versions.get v = some m) :
    (c.repoint m).Counted := by
  refine h.frame rfl rfl le_rfl ?_
  have := h.versions v m hm
  simpa [ids, Collection.repoint, versionIds] using this

theorem compactNow (hs : c.Sound) (h : c.Counted) : (c.compactNow P cfg).Counted :=
  h.register hs rfl rfl rfl rfl (h.working.perm ids_compactNow_perm)

theorem gcNow (h : c.Counted) {rules : RetentionRules} : (c.gcNow rules).Counted := by
  refine ⟨h.working, fun v m hm => ?_⟩
  have hkeep : m.segmentIds.filterMap (c.gcNow rules).allSegments =
      m.segmentIds.filterMap c.allSegments := by
    refine List.filterMap_congr fun i hi => if_neg (notMem_dropped (.inr ?_))
    exact VersionStore.mem_allReferencedSegments.mpr ⟨v, m, hm, hi⟩
  rw [versionIds, hkeep]
  exact h.versions v m (VersionStore.get_of_get_gc hm).2

/-- **One call**, its ids taken from the allocator, keeps the tallies. -/
theorem after (hs : c.Sound) (h : c.Counted) {k : Call} (hk : k.Allocates) :
    (c.after P cfg k).Counted := by
  cases k with
  | insert v =>
    rw [Collection.after]
    split
    · exact h.put
    · exact h.frame rfl rfl (Nat.le_succ _) (h.working.mono (Nat.le_succ _))
  | insertWithIdAndPayload => exact hk.elim
  | insertBatch vs =>
    rw [Collection.after]
    split
    exacts [h.putMany vs, h]
  | delete id => exact h.remove id
  | sealAppendable => exact h.sealNow hs
  | commit => exact h.commitNow hs
  | restore v =>
    rw [Collection.after]
    cases hm : c.versions.get v with
    | none => exact h
    | some m => exact (h.repoint hm).commitNow hs.repoint
  | compact =>
    rw [Collection.after]
    split
    exacts [h.compactNow hs, h]
  | createTag name v =>
    rw [Collection.after]
    cases hset : c.versions.setTag name v with
    | ok vs => exact h.frame (VersionStore.commits_of_setTag hset).1 rfl le_rfl h.working
    | error => exact h
  | createBranch name v =>
    rw [Collection.after]
    cases hset : c.versions.setBranch name v with
    | ok vs => exact h.frame (VersionStore.commits_of_setBranch hset).1 rfl le_rfl h.working
    | error => exact h
  | gc rules => exact h.gcNow

end Counted

end Collection

/-- Any number of calls keep the tallies. -/
theorem History.counted {tr : List (Collection × Call)} (hist : History P cfg c tr c')
    (hs : c.Sound) (h : c.Counted) (halloc : ∀ e ∈ tr, e.2.Allocates) : c'.Counted :=
  hist.invariant hs h fun e he hse hI _ =>
    have := hI.after hse (halloc e he)
    ⟨this.working, this.versions⟩

/-! ## The views -/

namespace Collection

/-- `len`, run alone. -/
theorem run_len : run (step P cfg) t len c =
    some ((c.working.rows.length + c.appendable.rows.length) - c.workingDeletions.card, c) :=
  (run_perform_bind rfl).trans ((run_perform_bind rfl).trans (run_perform_bind rfl))

/-- A scroll of the working state, run alone. -/
theorem run_scroll_working (offset limit : ℕ) : run (step P cfg) t (scroll none offset limit) c =
    some (.ok (page (liveRows (c.working.rows ++ c.appendable.rows) c.workingDeletions)
      c.payloads offset limit), { c with payloadReaders := (insert t c.payloadReaders).erase t }) :=
  (run_perform_bind rfl).trans ((run_perform_bind rfl).trans ((run_perform_bind rfl).trans
    ((run_perform_bind rfl).trans (run_perform_bind rfl))))

theorem run_scroll_none (hr : c.payloadReaders = ∅) (offset limit : ℕ) :
    run (step P cfg) t (scroll none offset limit) c =
      some (.ok (page (liveRows (c.working.rows ++ c.appendable.rows) c.workingDeletions)
        c.payloads offset limit), c) := by
  have hl : (insert t c.payloadReaders).erase t = c.payloadReaders := by rw [hr]; simp
  rw [run_scroll_working, hl]

theorem exists_page {rows : List Row} {n : ℕ} (payloads : PayloadMap) (offset limit : ℕ)
    (h : rows.length = n) : ∃ points, page rows payloads offset limit = (points, n) :=
  ⟨_, Prod.ext rfl h⟩

theorem exists_run_getPoint {id : GlobalId} :
    (∃ p, run (step P cfg) t (getPoint id) c = some (some p, c)) ↔ (c.liveMap id).isSome := by
  rw [run_getPoint]
  cases c.liveMap id with
  | none => simp
  | some r => simp

/-- The ids that can be read, one for each live row. -/
theorem Counted.encard_live (h : c.Counted) : {id | (c.liveMap id).isSome}.encard =
    (liveRows (c.working.rows ++ c.appendable.rows) c.workingDeletions).length := by
  have hset : {id | (c.liveMap id).isSome} =
      (↑(c.ids.filter fun id => id ∉ c.workingDeletions).toFinset : Set GlobalId) := by
    ext id
    simp [isSome_liveMap, mem_ids]
  rw [hset, Set.encard_coe_eq_coe_finsetCard,
    List.toFinset_card_of_nodup (h.working.nodup.filter _), ids, ← rowIds_liveRows, List.length_map]

/-- A version's segments have as many rows as its manifest counts. -/
theorem Sound.sum_count (h : c.Sound) {v : VersionId} {m : Manifest}
    (hm : c.versions.get v = some m) :
    (m.segments.map SegmentRef.count).sum =
      (SegmentSet.rows (m.segmentIds.filterMap c.allSegments)).length := by
  have hrefs := h.refs v m hm
  rw [Manifest.segmentIds]
  generalize m.segments = refs at hrefs ⊢
  induction refs with
  | nil => rfl
  | cons r refs ih =>
    obtain ⟨⟨s, hs, hsr⟩, hrest⟩ := List.forall_mem_cons.mp hrefs
    obtain ⟨_, -, rfl⟩ := Option.map_eq_some_iff.mp hsr
    rw [List.map_cons, List.sum_cons, ih hrest, List.map_cons, List.filterMap_cons_some hs,
      SegmentSet.rows_cons, List.length_append]

end Collection

/-- **All views count the same live points.**  After any calls that take their ids from the
allocator: no id is on two rows; every tombstone is on a row; `len`, the total of a scroll and the
number of points that can be read agree; a delete answers whether the point could be read; and a
version's live count is the total of a scroll of it. -/
theorem counts_agree {tr : List (Collection × Call)} (hist : History P cfg .create tr c)
    (halloc : ∀ e ∈ tr, e.2.Allocates) (t : ℕ) :
    c.ids.Nodup ∧
    (∀ id ∈ c.workingDeletions, id ∈ c.ids) ∧
    (∃ n, run (Collection.step P cfg) t Collection.len c = some (n, c) ∧
      (∀ offset limit, ∃ points, run (Collection.step P cfg) t
        (Collection.scroll none offset limit) c = some (.ok (points, n), c)) ∧
      {id | ∃ p, run (Collection.step P cfg) t (Collection.getPoint id) c =
        some (some p, c)}.encard = n) ∧
    (∀ id, (∃ c', run (Collection.step P cfg) t (Collection.delete id) c = some (true, c')) ↔
      ∃ p, run (Collection.step P cfg) t (Collection.getPoint id) c = some (some p, c)) ∧
    ∀ v m, c.versions.get v = some m → ∀ offset limit, ∃ points,
      run (Collection.step P cfg) t (Collection.scroll (some (.version v)) offset limit) c =
        some (.ok (points, m.liveCount), c) := by
  have hs := hist.sound Collection.sound_create
  have h := hist.counted Collection.sound_create Collection.counted_create halloc
  refine ⟨h.working.nodup, h.working.tombs, ⟨_, Collection.run_len, fun offset limit => ?_, ?_⟩,
    fun id => ?_, fun v m hm offset limit => ?_⟩
  · obtain ⟨points, hpage⟩ := Collection.exists_page c.payloads offset limit
      (h.working.length_liveRows.trans (by rw [List.length_append]))
    refine ⟨points, (Collection.run_scroll_none hs.payloadReaders offset limit).trans ?_⟩
    rw [hpage]
  · simp only [Collection.exists_run_getPoint]
    rw [h.encard_live, h.working.length_liveRows, List.length_append]
  · rw [Collection.exists_run_getPoint, Collection.isSome_liveMap, Collection.run_delete]
    simp
  · have hlen : (c.versionRows m).length = m.liveCount := by
      rw [Collection.versionRows, (h.versions v m hm).length_liveRows, Manifest.liveCount,
        hs.sum_count hm]
    obtain ⟨points, hpage⟩ := Collection.exists_page c.payloads offset limit hlen
    refine ⟨points, (Collection.run_scroll_version hm hs.payloadReaders offset limit).trans ?_⟩
    rw [hpage]

/-- A batch sealed, deleted from, merged, and taken back by a restore: one of two points is left. -/
theorem counts_agree_sample : ∃ tr c, History Sample.platform (Sample.config none) .create tr c ∧
    c.workingDeletions = {0} ∧ c.ids.Nodup ∧
    (∀ id ∈ c.workingDeletions, id ∈ c.ids) ∧
    (∃ n, run (Collection.step Sample.platform (Sample.config none)) 0 Collection.len c =
        some (n, c) ∧
      (∀ offset limit, ∃ points, run (Collection.step Sample.platform (Sample.config none)) 0
        (Collection.scroll none offset limit) c = some (.ok (points, n), c)) ∧
      {id | ∃ p, run (Collection.step Sample.platform (Sample.config none)) 0
        (Collection.getPoint id) c = some (some p, c)}.encard = n) ∧
    (∀ id, (∃ c', run (Collection.step Sample.platform (Sample.config none)) 0
        (Collection.delete id) c = some (true, c')) ↔
      ∃ p, run (Collection.step Sample.platform (Sample.config none)) 0
        (Collection.getPoint id) c = some (some p, c)) ∧
    ∀ v m, c.versions.get v = some m → ∀ offset limit, ∃ points,
      run (Collection.step Sample.platform (Sample.config none)) 0
        (Collection.scroll (some (.version v)) offset limit) c =
          some (.ok (points, m.liveCount), c) := by
  have h : Collection.create.Leads Sample.platform (Sample.config none)
      [.insertBatch [[1], [2]], .delete 0, .delete 9, .commit "manual" none none, .insert [3],
        .sealAppendable, .compact, .delete 1, .restore 0, .gc ⟨some 1, true, true⟩]
      fun tr c => c.workingDeletions = {0} ∧ ∀ e ∈ tr, e.2.Allocates := by
    decide +kernel
  obtain ⟨tr, c, hist, hd, halloc⟩ := h.exists_history
  exact ⟨tr, c, hist, hd, counts_agree hist halloc 0⟩

end Vecvec
