import Vecvec.Collection.Histories
import Vecvec.Persist.Sample

/-!
# Collection/Difference — what a diff says of the rows of two versions

A diff takes the whole range between a segment's first and last id for its rows.  That is too much
by the **holes** of the segment: ids in the range that no row carries — of an insert refused after
it took its id, or between segments merged across a gap.  Rows ascend, so it is never too little
(`mem_liveIds_of_mem_versionRows`), and a diff of two versions is right exactly if their holes are
the same.
-/

namespace Vecvec

open Machinery

variable {P : Platform} {cfg : CollectionConfig} {c c' : Collection} {t : ℕ}

/-! ## Ascending rows -/

/-- The ids of the rows ascend. -/
def Ascending (rows : List Row) : Prop := rows.Pairwise fun a b => a.1 ≤ b.1

theorem ascending_sortById (rows : List Row) : Ascending (sortById rows) :=
  List.pairwise_insertionSort _ _

theorem Ascending.append {rows rows' : List Row} (h : Ascending rows) (h' : Ascending rows')
    (hlt : ∀ a ∈ rows, ∀ b ∈ rows', a.1 ≤ b.1) : Ascending (rows ++ rows') :=
  List.pairwise_append.mpr ⟨h, h', hlt⟩

/-- **Ascending rows lie between the first and the last.** -/
theorem Ascending.mem_range {rows : List Row} (h : Ascending rows) {lo hi : GlobalId}
    (hr : globalIdRange rows = some (lo, hi)) {r : Row} (hmem : r ∈ rows) :
    lo ≤ r.1 ∧ r.1 ≤ hi := by
  unfold globalIdRange at hr
  split at hr
  · rename_i a b hhead hlast
    obtain ⟨rfl, rfl⟩ := Prod.mk.inj (Option.some.inj hr)
    have ha : a.1 ≤ r.1 := by
      obtain ⟨l, rfl⟩ := List.head?_eq_some_iff.mp hhead
      rcases List.mem_cons.mp hmem with rfl | hmem
      · exact le_rfl
      · exact (List.pairwise_cons.mp h).1 r hmem
    have hb : r.1 ≤ b.1 := by
      obtain ⟨l, rfl⟩ := List.getLast?_eq_some_iff.mp hlast
      rcases List.mem_append.mp hmem with hmem | hmem
      · exact (List.pairwise_append.mp h).2.2 r hmem b (List.mem_singleton_self b)
      · rw [List.mem_singleton.mp hmem]
    exact ⟨(min_le_left _ _).trans ha, hb.trans (le_max_right _ _)⟩
  · cases hr

theorem lt_pairwise_sortedIds (ids : List ℕ) : (sortedIds ids).Pairwise (· < ·) :=
  ((List.pairwise_insertionSort _ _).and (nodup_sortedIds ids)).imp fun h => lt_of_le_of_ne h.1 h.2

namespace Collection

/-- The rows of every segment ascend, those not yet sealed among the ids given out. -/
structure Ranged (c : Collection) : Prop where
  /-- The appendable's rows ascend. -/
  appendable : Ascending c.appendable.rows
  /-- Their ids have been given out. -/
  below : ∀ r ∈ c.appendable.rows, r.1 < c.nextGlobalId
  /-- A registered segment's rows ascend. -/
  segments : ∀ id s, c.allSegments id = some s → Ascending s.rows

namespace Ranged

theorem register (h : c.Ranged) {s : SealedSegment} (hs : Ascending s.rows) :
    ∀ id s', insertSegments c.allSegments [s] id = some s' → Ascending s'.rows := by
  intro id s' hid
  rw [insertSegments_singleton, Function.update_apply] at hid
  split at hid
  · cases hid
    exact hs
  · exact h.segments id s' hid

theorem sealNow (h : c.Ranged) : c.sealNow.Ranged := by
  unfold Collection.sealNow
  split
  · exact h
  · exact ⟨.nil, fun _ hr => (List.not_mem_nil hr).elim, h.register h.appendable⟩

theorem commitNow (h : c.Ranged) {trigger : String} {message tag : Option String} :
    (c.commitNow trigger message tag).Ranged :=
  ⟨h.sealNow.1, h.sealNow.2, h.sealNow.3⟩

theorem repoint (h : c.Ranged) {m : Manifest} : (c.repoint m).Ranged :=
  ⟨.nil, fun _ hr => (List.not_mem_nil hr).elim, h.segments⟩

theorem ascending_mergedRows (segs : SegmentSet) : Ascending (mergedRows P cfg segs).rows := by
  rw [mergedRows, foldl_append_rows]
  exact List.pairwise_map.mpr (ascending_sortById _)

/-- Points under fresh ids go behind those that are there. -/
theorem putMany (h : c.Ranged) (vs : List (List F32)) : (c.putMany P cfg vs).Ranged := by
  have hmem {r : Row} (hr : r ∈ (List.range' c.nextGlobalId vs.length).zip
      (vs.map (cfg.metric.stored P))) :
      c.nextGlobalId ≤ r.1 ∧ r.1 < c.nextGlobalId + vs.length :=
    List.mem_range'_1.mp (List.of_mem_zip hr).1
  refine ⟨h.appendable.append ?_ fun a ha b hb => ((h.below a ha).trans_le (hmem hb).1).le,
    fun r hr => ?_, h.segments⟩
  · have hlen : (List.range' c.nextGlobalId vs.length).length =
        (vs.map (cfg.metric.stored P)).length := by simp
    have hlt : ((List.range' c.nextGlobalId vs.length).zip
        (vs.map (cfg.metric.stored P))).map Prod.fst = List.range' c.nextGlobalId vs.length :=
      List.map_fst_zip hlen.le
    have hasc := List.pairwise_lt_range' (s := c.nextGlobalId) (n := vs.length) 1
    rw [← hlt, List.pairwise_map] at hasc
    exact hasc.imp le_of_lt
  · rcases List.mem_append.mp hr with hr | hr
    · exact (h.below r hr).trans_le (Nat.le_add_right _ _)
    · exact (hmem hr).2

theorem put (h : c.Ranged) {v : List F32} {p : Option Payload} :
    (c.put P cfg c.nextGlobalId v p).Ranged := by
  refine ⟨h.appendable.append (List.pairwise_singleton _ _) fun a ha b hb => ?_, fun r hr => ?_,
    h.segments⟩
  · rw [List.mem_singleton.mp hb]
    exact (h.below a ha).le
  · rw [put_nextGlobalId]
    rcases List.mem_append.mp hr with hr | hr
    · exact lt_max_of_lt_left (h.below r hr)
    · rw [List.mem_singleton.mp hr]
      exact lt_max_of_lt_right (Nat.lt_succ_self _)

/-- The step lemma. -/
theorem after (h : c.Ranged) {k : Call} (hk : k.Allocates) : (c.after P cfg k).Ranged := by
  cases k with
  | insert v =>
    rw [Collection.after]
    split
    · exact h.put
    · exact ⟨h.appendable, fun r hr => (h.below r hr).trans (Nat.lt_succ_self _), h.segments⟩
  | insertWithIdAndPayload => exact hk.elim
  | insertBatch vs =>
    rw [Collection.after]
    split
    · exact h.putMany vs
    · exact h
  | delete id =>
    rw [Collection.after, remove]
    split
    · exact ⟨h.1, h.2, h.3⟩
    · exact h
  | sealAppendable => exact h.sealNow
  | commit => exact h.commitNow
  | restore v =>
    rw [Collection.after]
    cases c.versions.get v with
    | none => exact h
    | some m => exact h.repoint.commitNow
  | compact =>
    rw [Collection.after]
    split
    · exact ⟨h.1, h.2, h.register (ascending_mergedRows _)⟩
    · exact h
  | createTag name v => exact ⟨h.1, h.2, h.3⟩
  | createBranch name v => exact ⟨h.1, h.2, h.3⟩
  | gc rules =>
    refine ⟨h.1, h.2, fun id s hid => h.segments id s ?_⟩
    change (if _ then none else c.allSegments id) = some s at hid
    split at hid
    · cases hid
    · exact hid

end Ranged

theorem ranged_create : create.Ranged :=
  ⟨.nil, fun _ hr => (List.not_mem_nil hr).elim, fun _ _ h => by cases h⟩

/-! ## Holes -/

/-- An id in the range of one of a version's segments that is not tombstoned, and that no row of its
segments carries. -/
def Hole (c : Collection) (m : Manifest) (g : GlobalId) : Prop :=
  (∃ r ∈ m.segments, r.idLo ≤ g ∧ g ≤ r.idHi) ∧ g ∉ m.deletions ∧
    ∀ id ∈ m.segmentIds, ∀ s, c.allSegments id = some s → containsId s.rows g = false

theorem mem_versionRows {m : Manifest} {r : Row} : r ∈ c.versionRows m ↔
    r.1 ∉ m.deletions ∧ ∃ id ∈ m.segmentIds, ∃ s, c.allSegments id = some s ∧ r ∈ s.rows := by
  rw [versionRows, liveRows, List.mem_filter, SegmentSet.mem_rows, decide_eq_true_eq, and_comm]
  refine and_congr_right fun _ => ⟨?_, ?_⟩
  · rintro ⟨s, hs, hr⟩
    obtain ⟨id, hid, hs⟩ := List.mem_filterMap.mp hs
    exact ⟨id, hid, s, hs, hr⟩
  · rintro ⟨id, hid, s, hs, hr⟩
    exact ⟨s, List.mem_filterMap.mpr ⟨id, hid, hs⟩, hr⟩

/-- **The ranges cover the rows.** -/
theorem mem_liveIds_of_mem_versionRows (h : c.Sound) (hr : c.Ranged) {v : VersionId} {m : Manifest}
    (hm : c.versions.get v = some m) {r : Row} (hmem : r ∈ c.versionRows m) : r.1 ∈ m.liveIds := by
  obtain ⟨hdel, id, hid, s, hs, hrow⟩ := mem_versionRows.mp hmem
  obtain ⟨ref, href, rfl⟩ := List.mem_map.mp hid
  obtain ⟨s', hs', hsr⟩ := h.refs v m hm ref href
  obtain rfl : s = s' := Option.some.inj (hs.symm.trans hs')
  refine Manifest.mem_liveIds.mpr ⟨⟨ref, href, ?_⟩, hdel⟩
  obtain ⟨x, hx, rfl⟩ := Option.map_eq_some_iff.mp hsr
  exact (hr.segments _ s hs).mem_range hx hrow

theorem hole_iff {m : Manifest} {g : GlobalId} :
    c.Hole m g ↔ g ∈ m.liveIds ∧ g ∉ (c.versionRows m).map Prod.fst := by
  rw [Hole, Manifest.mem_liveIds, and_assoc]
  refine and_congr_right fun _ => and_congr_right fun hdel => ?_
  constructor
  · intro hno hg
    obtain ⟨⟨_, v⟩, hr, rfl⟩ := List.mem_map.mp hg
    obtain ⟨-, id, hid, s, hs, hrow⟩ := mem_versionRows.mp hr
    exact containsId_eq_false_iff.mp (hno id hid s hs) v hrow
  · intro hno id hid s hs
    refine containsId_eq_false_iff.mpr fun v hv => hno (List.mem_map.mpr ⟨(g, v), ?_, rfl⟩)
    exact mem_versionRows.mpr ⟨hdel, id, hid, s, hs, hv⟩

/-- A page long enough lists every id. -/
theorem mem_ids_page {rows : List Row} {p : PayloadMap} {limit : ℕ} (hl : rows.length ≤ limit)
    {g : GlobalId} : g ∈ (page rows p 0 limit).1.map PointRecord.id ↔ g ∈ rows.map Prod.fst := by
  have hlen : (sortById rows).length ≤ limit := (sortById_perm rows).length_eq ▸ hl
  rw [page, List.drop_zero, List.take_of_length_le hlen, List.map_map]
  exact ((sortById_perm rows).map _).mem_iff

theorem run_diff {a b : VersionId} {ma mb : Manifest} (ha : c.versions.get a = some ma)
    (hb : c.versions.get b = some mb) :
    run (step P cfg) t (diff a b) c = some (.ok ⟨a, b,
      mb.liveIds.filter fun g => g ∉ ma.liveIds,
      ma.liveIds.filter fun g => g ∉ mb.liveIds⟩, c) := by
  have hdiff : c.versions.diff a b = .ok ⟨a, b, mb.liveIds.filter fun g => g ∉ ma.liveIds,
      ma.liveIds.filter fun g => g ∉ mb.liveIds⟩ := by
    rw [VersionStore.diff, ha]
    dsimp only
    rw [hb]
  refine (run_perform_bind (congrArg (fun d => some (d, c)) hdiff)).trans rfl

end Collection

/-- Any number of calls keep the rows ascending. -/
theorem History.ranged {tr : List (Collection × Call)} (hist : History P cfg .create tr c)
    (halloc : ∀ e ∈ tr, e.2.Allocates) : c.Ranged :=
  hist.invariant Collection.sound_create Collection.ranged_create fun e he _ hI _ =>
    have : (e.1.after P cfg e.2).Ranged := hI.after (halloc e he)
    ⟨this.1, this.2, this.3⟩

/-- **A diff tells the rows of two versions apart** exactly if the two have the same holes. -/
theorem diff_eq_iff_holes {tr : List (Collection × Call)} (hist : History P cfg .create tr c)
    (halloc : ∀ e ∈ tr, e.2.Allocates) {a b : VersionId} {ma mb : Manifest}
    (ha : c.versions.get a = some ma) (hb : c.versions.get b = some mb)
    {xa xb : List Collection.PointRecord × ℕ} {limit : ℕ}
    (hxa : run (Collection.step P cfg) t (Collection.scroll (some (.version a)) 0 limit) c =
      some (.ok xa, c))
    (hxb : run (Collection.step P cfg) t (Collection.scroll (some (.version b)) 0 limit) c =
      some (.ok xb, c))
    (hla : xa.2 ≤ limit) (hlb : xb.2 ≤ limit) :
    ∃ d, run (Collection.step P cfg) t (Collection.diff a b) c = some (.ok d, c) ∧
      d.fromVersion = a ∧ d.toVersion = b ∧
      d.added.Pairwise (· < ·) ∧ d.removed.Pairwise (· < ·) ∧
      (((∀ g, g ∈ d.added ↔ g ∈ xb.1.map Collection.PointRecord.id ∧
            g ∉ xa.1.map Collection.PointRecord.id) ∧
          ∀ g, g ∈ d.removed ↔ g ∈ xa.1.map Collection.PointRecord.id ∧
            g ∉ xb.1.map Collection.PointRecord.id) ↔
        ∀ g, c.Hole ma g ↔ c.Hole mb g) := by
  have hs := hist.sound Collection.sound_create
  have hr := hist.ranged halloc
  refine ⟨_, Collection.run_diff ha hb, rfl, rfl, (lt_pairwise_sortedIds _).filter _,
    (lt_pairwise_sortedIds _).filter _, ?_⟩
  rw [Collection.run_scroll_version ha hs.payloadReaders] at hxa
  rw [Collection.run_scroll_version hb hs.payloadReaders] at hxb
  cases hxa
  cases hxb
  have hsub {v : VersionId} {m : Manifest} (hm : c.versions.get v = some m) :
      {g | g ∈ (c.versionRows m).map Prod.fst} ⊆ {g | g ∈ m.liveIds} := by
    rintro g hg
    obtain ⟨r, hr', rfl⟩ := List.mem_map.mp hg
    exact Collection.mem_liveIds_of_mem_versionRows hs hr hm hr'
  have hmain := sdiff_eq_iff (hsub ha) (hsub hb)
  simp only [Set.ext_iff, Set.mem_sdiff, Set.mem_ofPred_eq] at hmain
  simp only [Collection.mem_ids_page hla, Collection.mem_ids_page hlb, Collection.hole_iff,
    List.mem_filter, decide_eq_true_eq]
  exact hmain

/-- Two versions with one hole, the same: the diff is that of their rows. -/
theorem diff_eq_iff_holes_sample : ∃ tr c ma mb xa xb d,
    History Sample.platform (Sample.config none) .create tr c ∧
      c.versions.get 0 = some ma ∧ c.versions.get 1 = some mb ∧
      run (Collection.step Sample.platform (Sample.config none)) 0
        (Collection.scroll (some (.version 0)) 0 10) c = some (.ok xa, c) ∧
      run (Collection.step Sample.platform (Sample.config none)) 0
        (Collection.scroll (some (.version 1)) 0 10) c = some (.ok xb, c) ∧
      run (Collection.step Sample.platform (Sample.config none)) 0 (Collection.diff 0 1) c =
        some (.ok d, c) ∧ d.fromVersion = 0 ∧ d.toVersion = 1 ∧
      d.added.Pairwise (· < ·) ∧ d.removed.Pairwise (· < ·) ∧
      (((∀ g, g ∈ d.added ↔ g ∈ xb.1.map Collection.PointRecord.id ∧
            g ∉ xa.1.map Collection.PointRecord.id) ∧
          ∀ g, g ∈ d.removed ↔ g ∈ xa.1.map Collection.PointRecord.id ∧
            g ∉ xb.1.map Collection.PointRecord.id) ↔
        ∀ g, c.Hole ma g ↔ c.Hole mb g) := by
  have h : Collection.create.Leads Sample.platform (Sample.config none)
      [.insert [0], .insert [0, 0], .insert [1], .commit "manual" none none,
        .insertBatch [[1], [2]], .delete 0, .commit "manual" none none]
      fun tr c => (∀ e ∈ tr, e.2.Allocates) ∧
        ((c.versions.get 0).isSome ∧ (c.versions.get 1).isSome) ∧
        (∀ m ∈ c.versions.get 0, (c.versionRows m).length ≤ 10) ∧
        ∀ m ∈ c.versions.get 1, (c.versionRows m).length ≤ 10 := by
    decide +kernel
  obtain ⟨tr, c, hist, halloc, ⟨ha, hb⟩, hla, hlb⟩ := h.exists_history
  obtain ⟨ma, ha⟩ := Option.isSome_iff_exists.mp ha
  obtain ⟨mb, hb⟩ := Option.isSome_iff_exists.mp hb
  have hr := (hist.sound Collection.sound_create).payloadReaders
  have hxa :=
    @Collection.run_scroll_version Sample.platform (Sample.config none) c 0 0 ma ha hr 0 10
  have hxb :=
    @Collection.run_scroll_version Sample.platform (Sample.config none) c 0 1 mb hb hr 0 10
  obtain ⟨d, hd, hfrom, hto, hadd, hrem, hholes⟩ :=
    diff_eq_iff_holes (t := 0) hist halloc ha hb hxa hxb (hla ma ha) (hlb mb hb)
  exact ⟨tr, c, ma, mb, _, _, d, hist, ha, hb, hxa, hxb, hd, hfrom, hto, hadd, hrem, hholes⟩

/-- An insert that is refused leaves a hole, and the diff lists it. -/
theorem diff_lists_refused_insert : ∃ tr c d xa xb,
    History Sample.platform (Sample.config none) .create tr c ∧ (∀ e ∈ tr, e.2.Allocates) ∧
      run (Collection.step Sample.platform (Sample.config none)) 0 (Collection.diff 0 1) c =
        some (.ok d, c) ∧
      run (Collection.step Sample.platform (Sample.config none)) 0
        (Collection.scroll (some (.version 0)) 0 10) c = some (.ok xa, c) ∧
      run (Collection.step Sample.platform (Sample.config none)) 0
        (Collection.scroll (some (.version 1)) 0 10) c = some (.ok xb, c) ∧
      xa.2 ≤ 10 ∧ xb.2 ≤ 10 ∧
      2 ∈ d.added ∧ 2 ∉ xb.1.map Collection.PointRecord.id := by
  have h : Collection.create.Leads Sample.platform (Sample.config none)
      [.insert [0], .commit "manual" none none, .insert [1], .insert [0, 0], .insert [2],
        .commit "manual" none none]
      fun tr c => (∀ e ∈ tr, e.2.Allocates) ∧
        ((c.versions.get 0).isSome ∧ (c.versions.get 1).isSome) ∧
        (∀ m ∈ c.versions.get 0, (c.versionRows m).length ≤ 10 ∧ 2 ∉ m.liveIds) ∧
        ∀ m ∈ c.versions.get 1, (c.versionRows m).length ≤ 10 ∧ 2 ∈ m.liveIds ∧
          2 ∉ (c.versionRows m).map Prod.fst := by
    decide +kernel
  obtain ⟨tr, c, hist, halloc, ⟨ha, hb⟩, hqa, hqb⟩ := h.exists_history
  obtain ⟨ma, ha⟩ := Option.isSome_iff_exists.mp ha
  obtain ⟨mb, hb⟩ := Option.isSome_iff_exists.mp hb
  obtain ⟨hla, hna⟩ := hqa ma ha
  obtain ⟨hlb, hmb, hnb⟩ := hqb mb hb
  have hr := (hist.sound Collection.sound_create).payloadReaders
  refine ⟨tr, c, _, _, _, hist, halloc, Collection.run_diff ha hb,
    Collection.run_scroll_version ha hr 0 10, Collection.run_scroll_version hb hr 0 10, hla, hlb,
    List.mem_filter.mpr ⟨hmb, decide_eq_true hna⟩, ?_⟩
  rwa [Collection.mem_ids_page hlb]

end Vecvec
