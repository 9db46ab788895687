import Vecvec.Index.TopK
import Vecvec.Version.Policy

/-!
# Segment/Search — the search of one segment, with or without its index

Tombstones and payload filters live at the collection; a segment is told of both, and admits a row
by its global id.  The appendable segment is scanned (`searchLocal`).  A sealed one answers through
its index, which no operation of a collection looks into: how sealed segments are searched is a
parameter of the collection's calls, with what they rely on as its laws.

Two searches are at hand: the flat scan (`SegmentSearch.flat`), and the graph search of `Hnsw/Index`
for any choice of graphs (`Hnsw.Indexing.search`).
-/

namespace Vecvec

/-- A row is admitted if it is not tombstoned and passes the filter (`SegmentLiveFilter`). -/
def segmentLiveFilter (deletions : DeletionVector) (filter : Option (GlobalId → Bool))
    (g : GlobalId) : Bool :=
  decide (g ∉ deletions) && filter.all fun f => f g

/-- The search of a sealed segment (`SealedSegment::search`): from the query, the number of results,
the tombstones and the filter to ids and scores. -/
structure SegmentSearch where
  /-- What is found. -/
  find : SealedSegment → List F32 → ℕ → DeletionVector → Option (GlobalId → Bool) →
    List (GlobalId × F32)
  /-- It is on rows that are admitted. -/
  admitted : ∀ s query k deletions filter, ∀ r ∈ find s query k deletions filter,
    segmentLiveFilter deletions filter r.1 ∧ r.1 ∈ s.rows.map Prod.fst
  /-- Tombstones and filter are read at the rows of the segment only. -/
  congr : ∀ s query k deletions deletions' filter filter', filter.isSome = filter'.isSome →
    (∀ r ∈ s.rows, segmentLiveFilter deletions filter r.1 =
      segmentLiveFilter deletions' filter' r.1) →
    find s query k deletions filter = find s query k deletions' filter'

/-- **A flat search reads its filter** at the rows it is over. -/
theorem searchLocal_congr {score : List F32 → F32} {higher : Bool} {rows : List Row} {k : ℕ}
    {keep keep' : GlobalId → Bool} (h : ∀ r ∈ rows, keep r.1 = keep' r.1) :
    searchLocal score higher rows k keep = searchLocal score higher rows k keep' := by
  rw [searchLocal, searchLocal, scanTopk, scanTopk]
  have hfilter : (rows.zipIdx.filter fun r => keep r.1.1) =
      rows.zipIdx.filter fun r => keep' r.1.1 :=
    List.filter_congr fun r hr => h _ (List.fst_mem_of_mem_zipIdx hr)
  rw [hfilter]

namespace SegmentSearch

variable (P : Platform) (cfg : CollectionConfig)

/-- Sealed segments scanned as the appendable one is. -/
def flat : SegmentSearch where
  find s query k deletions filter := searchLocal (P.scoreF32 cfg.metric query)
    cfg.metric.higherIsBetter s.rows k (segmentLiveFilter deletions filter)
  admitted _ _ _ _ _ _ hr := of_mem_searchLocal hr
  congr _ _ _ _ _ _ _ _ h := searchLocal_congr h

/-- **The search of the segment is exact**: it returns the best `k` of the admitted rows, ties
broken by local id, as the flat scan does. -/
def IsExact (S : SegmentSearch) (s : SealedSegment) : Prop :=
  ∀ query k deletions filter, S.find s query k deletions filter =
    searchLocal (P.scoreF32 cfg.metric query) cfg.metric.higherIsBetter s.rows k
      (segmentLiveFilter deletions filter)

theorem isExact_flat (s : SealedSegment) : (flat P cfg).IsExact P cfg s := fun _ _ _ _ => rfl

end SegmentSearch

end Vecvec
