import Vecvec.Collection.Counts
import Vecvec.Collection.Difference
import Vecvec.Collection.TimeTravel
import Vecvec.Index.Exact

/-!
# Collection/Exact — a search is the exact global top-k

Segments cut their results off before the merge, ties by local id.  After calls that take their ids
from the allocator the rows of every segment ascend (`Ranged`) and no id is on two rows
(`Counted`), so nothing is lost at a cut-off and nothing is found twice: where each sealed segment
returns its own best `k` (`SegmentSearch.IsExact`), a search, now or at a version, finds the first
`k` of all live rows that pass the filter (`search_exact`).
-/

namespace Vecvec

open Machinery

variable {S : SegmentSearch} {P : Platform} {cfg : CollectionConfig} {c : Collection} {t : ℕ}

/-- In ascending rows that carry no id twice, ids strictly ascend. -/
theorem Ascending.strict {rows : List Row} (h : Ascending rows) (hn : (rowIds rows).Nodup) :
    rows.Pairwise fun a b => a.1 < b.1 :=
  (h.and (List.pairwise_map.mp hn)).imp fun h => lt_of_le_of_ne h.1 h.2

theorem nodup_rowIds_of_mem {segs : SegmentSet} (h : (rowIds segs.rows).Nodup) {s : SealedSegment}
    (hs : s ∈ segs) : (rowIds s.rows).Nodup := by
  rw [rowIds, SegmentSet.rows, List.map_flatMap] at h
  exact (List.nodup_flatMap.mp h).1 s hs

namespace Collection

/-- The rows that pass a filter, scored against a query, the best first: by badness, then by id. -/
def ranking (P : Platform) (cfg : CollectionConfig) (payloads : PayloadMap) (query : List F32)
    (filter : Option (Option Payload → Bool)) (rows : List Row) : List (GlobalId × F32) :=
  bestFirst cfg.metric.higherIsBetter
    ((rows.filter fun r => filter.all fun f => f (payloads r.1)).map fun r =>
      (r.1, P.scoreF32 cfg.metric query r.2))

theorem nodup_rowIds_liveRows {rows : List Row} (hn : (rowIds rows).Nodup) (d : DeletionVector) :
    (rowIds (liveRows rows d)).Nodup := hn.sublist ((List.filter_sublist ..).map Prod.fst)

variable {query : List F32} {k : ℕ} {filter : Option (Option Payload → Bool)}

theorem scored_live (rows : List Row) (d : DeletionVector) (payloads : PayloadMap) :
    scored (P.scoreF32 cfg.metric query) rows
        (segmentLiveFilter d (filterQuery filter payloads)) =
      ((liveRows rows d).filter fun r => filter.all fun f => f (payloads r.1)).map
        fun r => (r.1, P.scoreF32 cfg.metric query r.2) := by
  rw [scored, liveRows, List.filter_filter]
  congr 2
  funext r
  rw [segmentLiveFilter, filterQuery, Option.all_map]
  exact Bool.and_comm _ _

/-- Each id is ranked once. -/
theorem nodup_ranking {rows : List Row} (h : (rowIds rows).Nodup) (payloads : PayloadMap) :
    ((ranking P cfg payloads query filter rows).map Prod.fst).Nodup := by
  refine ((List.perm_insertionSort _ _).map Prod.fst).nodup_iff.mpr ?_
  rw [List.map_map]
  exact h.sublist ((List.filter_sublist ..).map Prod.fst)

/-- Rows left out of a ranking are left out of the rows. -/
theorem filter_ranking (p : GlobalId → Bool) (payloads : PayloadMap) (rows : List Row) :
    (ranking P cfg payloads query filter rows).filter (fun r => p r.1) =
      ranking P cfg payloads query filter (rows.filter fun r => p r.1) := by
  rw [ranking, filter_bestFirst, List.filter_map, List.filter_filter, ranking, List.filter_filter]
  congr 3
  funext r
  exact Bool.and_comm _ _

variable (P cfg) in
/-- A flat search of the rows is exact: of those a filter admits it finds the first `k`, by badness
and then by global id. -/
def SearchedExactly (rows : List Row) : Prop :=
  ∀ query k keep, searchLocal (P.scoreF32 cfg.metric query) cfg.metric.higherIsBetter rows k keep =
    (bestFirst cfg.metric.higherIsBetter (scored (P.scoreF32 cfg.metric query) rows keep)).take k

/-- Ascending rows that carry no id twice are searched exactly. -/
theorem searchedExactly {rows : List Row} (h : Ascending rows) (hn : (rowIds rows).Nodup) :
    SearchedExactly P cfg rows := fun _ _ _ => searchLocal_eq (h.strict hn)

variable (S P cfg) in
/-- The search of a sealed segment is exact in the same sense. -/
def FoundExactly (s : SealedSegment) : Prop :=
  ∀ query k d filter, S.find s query k d filter = (bestFirst cfg.metric.higherIsBetter
    (scored (P.scoreF32 cfg.metric query) s.rows (segmentLiveFilter d filter))).take k

/-- A segment that returns its own exact top-k is searched exactly if a scan of it would be. -/
theorem foundExactly {s : SealedSegment} (h : S.IsExact P cfg s)
    (hs : SearchedExactly P cfg s.rows) : FoundExactly S P cfg s :=
  fun query k d filter => (h query k d filter).trans (hs query k _)

/-- Segments that are searched exactly, merged. -/
theorem holds_searches {segs : SegmentSet} (hexact : ∀ s ∈ segs, FoundExactly S P cfg s)
    (query : List F32) (k : ℕ) (d : DeletionVector) (fq : Option (GlobalId → Bool)) :
    (segs.foldl (fun (b : BoundedTopK GlobalId) s => b.offerAll (S.find s query k d fq))
      (.new GlobalId k cfg.metric.higherIsBetter)).Holds k cfg.metric.higherIsBetter
      (scored (P.scoreF32 cfg.metric query) segs.rows (segmentLiveFilter d fq)) := by
  have h := BoundedTopK.holds_new.foldl_offerAll fun s hs => hexact s hs query k d fq
  rwa [List.nil_append] at h

/-- …drain to the exact top-k of their rows. -/
theorem mergeFinalize_of_holds {b : BoundedTopK GlobalId} {rows : List Row} {d : DeletionVector}
    {payloads : PayloadMap} (h : b.Holds k cfg.metric.higherIsBetter (scored
      (P.scoreF32 cfg.metric query) rows (segmentLiveFilter d (filterQuery filter payloads))))
    (hn : (rowIds (liveRows rows d)).Nodup) :
    mergeFinalize b = (ranking P cfg payloads query filter (liveRows rows d)).take k := by
  rw [scored_live] at h
  refine h.mergeFinalize ?_
  rw [List.map_map]
  exact hn.sublist ((List.filter_sublist ..).map Prod.fst)

/-- A search of the working state, run alone. -/
theorem run_search_exact (hr : c.payloadReaders = ∅) (hdim : query.length = cfg.dim)
    (hexact : ∀ s ∈ c.working, FoundExactly S P cfg s)
    (happ : SearchedExactly P cfg c.appendable.rows)
    (hn : (rowIds (liveRows (c.working.rows ++ c.appendable.rows) c.workingDeletions)).Nodup) :
    run (step P cfg) t (search S P cfg query k filter) c =
      some (.ok ((ranking P cfg c.payloads query filter
        (liveRows (c.working.rows ++ c.appendable.rows) c.workingDeletions)).take k), c) := by
  have hl : (insert t c.payloadReaders).erase t = c.payloadReaders := by rw [hr]; simp
  -- the working set is merged, and the appendable after it
  have hmerge := (holds_searches hexact query k c.workingDeletions
    (filterQuery filter c.payloads)).offerAll_best
      (happ query k (segmentLiveFilter c.workingDeletions (filterQuery filter c.payloads)))
  rw [← scored_append] at hmerge
  unfold search
  rw [if_neg (not_not_intro hdim)]
  refine (run_perform_bind rfl).trans ((run_perform_bind rfl).trans ((run_perform_bind rfl).trans
    ((run_perform_bind rfl).trans ((run_perform_bind rfl).trans ?_))))
  change some (_, { c with payloadReaders := (insert t c.payloadReaders).erase t }) = _
  rw [hl]
  exact congrArg (fun l => some (Except.ok l, c)) (mergeFinalize_of_holds hmerge hn)

/-- A search of a version, run alone. -/
theorem run_searchAt_exact (hr : c.payloadReaders = ∅) (hdim : query.length = cfg.dim)
    {sel : VersionSelector} {m : Manifest}
    (hsel : (c.versions.resolve sel).map c.versions.get = some (some m))
    (hexact : ∀ id s, c.allSegments id = some s → S.IsExact P cfg s)
    (hasc : ∀ id s, c.allSegments id = some s → Ascending s.rows) (hn : (c.versionIds m).Nodup) :
    run (step P cfg) t (searchAt S cfg sel query k filter) c =
      some (.ok ((ranking P cfg c.payloads query filter (c.versionRows m)).take k), c) := by
  have hl : (insert t c.payloadReaders).erase t = c.payloadReaders := by rw [hr]; simp
  have hfound : ∀ s ∈ m.segmentIds.filterMap c.allSegments, FoundExactly S P cfg s := by
    intro s hs
    obtain ⟨id, -, hid⟩ := List.mem_filterMap.mp hs
    exact foundExactly (hexact id s hid)
      (searchedExactly (hasc id s hid) (nodup_rowIds_of_mem hn hs))
  have hmerge := mergeFinalize_of_holds (holds_searches hfound query k m.deletions
    (filterQuery filter c.payloads)) (nodup_rowIds_liveRows hn _)
  rw [run_searchAt hsel hdim, hl]
  exact congrArg (fun l => some (Except.ok l, c)) hmerge

theorem run_search_error (hdim : query.length ≠ cfg.dim) :
    run (step P cfg) t (search S P cfg query k filter) c =
      some (.error (.dimensionMismatch cfg.dim query.length), c) := by
  unfold search
  rw [if_pos hdim]
  rfl

theorem run_searchAt_error (hdim : query.length ≠ cfg.dim) {sel : VersionSelector} :
    run (step P cfg) t (searchAt S cfg sel query k filter) c =
      some (.error (.dimensionMismatch cfg.dim query.length), c) := by
  unfold searchAt
  rw [if_pos hdim]
  rfl

end Collection

/-- **Where every id is the allocator's, segments are searched exactly**, and so is the
appendable. -/
theorem History.searchedExactly {tr : List (Collection × Call)} (hist : History P cfg .create tr c)
    (halloc : ∀ e ∈ tr, e.2.Allocates) :
    (∀ s ∈ c.working, Collection.SearchedExactly P cfg s.rows) ∧
      Collection.SearchedExactly P cfg c.appendable.rows := by
  have hs := hist.sound Collection.sound_create
  have hranged := hist.ranged halloc
  have hn : (rowIds (c.working.rows ++ c.appendable.rows)).Nodup :=
    (hist.counted Collection.sound_create Collection.counted_create halloc).working.nodup
  rw [rowIds, List.map_append, List.nodup_append] at hn
  exact ⟨fun s hw => Collection.searchedExactly (hranged.segments _ s (hs.working s hw))
    (nodup_rowIds_of_mem hn.1 hw), Collection.searchedExactly hranged.appendable hn.2.1⟩

/-- **A search is the exact global top-k.**  After any calls that take their ids from the allocator,
run one at a time, where each sealed segment returns its own exact top-k of admitted rows: a search
finds the first `k` of all live rows that pass the filter, by badness and then by id, each once and
with its score; and a search of a version does so for the rows of the version's segments — none of
which is missing — under its tombstones. -/
theorem search_exact {tr : List (Collection × Call)} (hist : History P cfg .create tr c)
    (halloc : ∀ e ∈ tr, e.2.Allocates)
    (hexact : ∀ id s, c.allSegments id = some s → S.IsExact P cfg s) (t : ℕ) (query : List F32)
    (k : ℕ) (filter : Option (Option Payload → Bool)) :
    run (Collection.step P cfg) t (Collection.search S P cfg query k filter) c =
        some (if query.length = cfg.dim then .ok ((Collection.ranking P cfg c.payloads query filter
            (Collection.liveRows (c.working.rows ++ c.appendable.rows) c.workingDeletions)).take k)
          else .error (.dimensionMismatch cfg.dim query.length), c) ∧
      ((Collection.ranking P cfg c.payloads query filter (Collection.liveRows
        (c.working.rows ++ c.appendable.rows) c.workingDeletions)).map Prod.fst).Nodup ∧
      ∀ sel v m, c.versions.resolve sel = some v → c.versions.get v = some m →
        run (Collection.step P cfg) t (Collection.searchAt S cfg sel query k filter) c =
            some (if query.length = cfg.dim then
                .ok ((Collection.ranking P cfg c.payloads query filter (c.versionRows m)).take k)
              else .error (.dimensionMismatch cfg.dim query.length), c) ∧
          ((Collection.ranking P cfg c.payloads query filter (c.versionRows m)).map
            Prod.fst).Nodup ∧
          ∀ id ∈ m.segmentIds, (c.allSegments id).isSome := by
  have hs := hist.sound Collection.sound_create
  have hcounted := hist.counted Collection.sound_create Collection.counted_create halloc
  have hranged := hist.ranged halloc
  have hsearched := hist.searchedExactly halloc
  refine ⟨?_, Collection.nodup_ranking
      (Collection.nodup_rowIds_liveRows hcounted.working.nodup _) _, fun sel v m hsel hm => ⟨?_,
    Collection.nodup_ranking
      (Collection.nodup_rowIds_liveRows (hcounted.versions v m hm).nodup _) _,
    fun id hid => hs.isSome_of_mem_segmentIds hm hid⟩⟩
  · split
    · have hn : (rowIds (c.working.rows ++ c.appendable.rows)).Nodup := hcounted.working.nodup
      exact Collection.run_search_exact hs.payloadReaders ‹_› (fun s hw =>
        Collection.foundExactly (hexact _ s (hs.working s hw)) (hsearched.1 s hw)) hsearched.2
        (Collection.nodup_rowIds_liveRows hn _)
    · exact Collection.run_search_error ‹_›
  · split
    · refine Collection.run_searchAt_exact hs.payloadReaders ‹_› ?_ hexact hranged.segments
        (hcounted.versions v m hm).nodup
      rw [hsel, Option.map_some, hm]
    · exact Collection.run_searchAt_error ‹_›

/-- The sample platform, scoring a vector by its first component. -/
noncomputable def Sample.scoring : Platform :=
  { Sample.platform with scoreF32 := fun _ _ v => v.headD 0 }

/-- Equal scores in two segments and the appendable, and a version from before a delete. -/
theorem search_exact_sample : ∃ tr c, History Sample.scoring (Sample.config none) .create tr c ∧
    run (Collection.step Sample.scoring (Sample.config none)) 0
      (Collection.search (.flat Sample.scoring (Sample.config none)) Sample.scoring
        (Sample.config none) [0] 3 none) c =
        some (.ok [(4, 2), (1, 1), (2, 1)], c) ∧
    run (Collection.step Sample.scoring (Sample.config none)) 0
      (Collection.searchAt (.flat Sample.scoring (Sample.config none)) (Sample.config none)
        (.version 0) [0] 2 none) c =
        some (.ok [(0, 1), (1, 1)], c) := by
  have h : Collection.create.Leads Sample.scoring (Sample.config none)
      [.insertBatch [[1], [1]], .commit "manual" none none, .insert [1], .sealAppendable,
        .delete 0, .compact, .insertBatch [[1], [2]]]
      fun tr c => (∀ e ∈ tr, e.2.Allocates) ∧ c.versions.resolve (.version 0) = some 0 ∧
        (c.versions.get 0).isSome ∧
        (Collection.ranking Sample.scoring (Sample.config none) c.payloads [0] none
          (Collection.liveRows (c.working.rows ++ c.appendable.rows) c.workingDeletions)).take 3 =
            [(4, 2), (1, 1), (2, 1)] ∧
        ∀ m ∈ c.versions.get 0, (Collection.ranking Sample.scoring (Sample.config none) c.payloads
          [0] none (c.versionRows m)).take 2 = [(0, 1), (1, 1)] := by
    decide +kernel
  obtain ⟨tr, c, hist, halloc, hres, hsome, hnow, hthen⟩ := h.exists_history
  obtain ⟨m, hm⟩ := Option.isSome_iff_exists.mp hsome
  have hexact := fun (id : SegmentId) (s : SealedSegment) (_ : c.allSegments id = some s) =>
    SegmentSearch.isExact_flat Sample.scoring (Sample.config none) s
  obtain ⟨hsearch, -, -⟩ := search_exact hist halloc hexact 0 [0] 3 none
  obtain ⟨-, -, hat⟩ := search_exact hist halloc hexact 0 [0] 2 none
  have hdim : ([0] : List F32).length = (Sample.config none).dim := rfl
  refine ⟨tr, c, hist, hsearch.trans ?_, (hat _ 0 m hres hm).1.trans ?_⟩
  · rw [if_pos hdim, hnow]
  · rw [if_pos hdim, hthen m hm]

end Vecvec
