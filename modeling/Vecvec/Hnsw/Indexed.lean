import Vecvec.Hnsw.Fetch
import Vecvec.Segment.Search

/-!
# Hnsw/Indexed — the search of a sealed segment through its index

A collection leaves it to a sealed segment how it is searched (`SegmentSearch`).  **The graph search
is one such search** (`Indexing.search`), whatever graphs the segments were given, as long as they
can be searched: it does not panic, it finds rows that are admitted, and it asks whether a row is
admitted at the rows of the segment only (`SealedSegment.search_congr`).
-/

namespace Vecvec.Hnsw

/-! ## What a graph search asks -/

section Asked

variable {φ : ℕ → Prop} {neighbors : ℕ → List ℕ} {ef n : ℕ} {dist : ℕ → F32}
  {admits admits' : ℕ → Bool} {b : Beam}

theorem Beam.push_congr {x : ℕ} (h : admits x = admits' x) :
    b.push ef dist admits x = b.push ef dist admits' x := by
  rw [push, push, h]

theorem Beam.foldl_visit_congr {l : List ℕ} (h : ∀ x ∈ l, admits x = admits' x) :
    l.foldl (Beam.visit ef dist admits) b = l.foldl (Beam.visit ef dist admits') b := by
  refine List.foldl_ext _ _ _ fun b x hx => ?_
  rw [visit, visit, push_congr (h x hx)]

theorem Beam.foldl_enter_congr {l : List ℕ} (h : ∀ x ∈ l, admits x = admits' x) :
    l.foldl (Beam.enter ef dist admits) b = l.foldl (Beam.enter ef dist admits') b := by
  refine List.foldl_ext _ _ _ fun b x hx => ?_
  rw [enter, enter, push_congr (h x hx)]

/-- **The loop asks** for the points it comes across. -/
theorem searchLoop_congr (hclosed : ∀ c, φ c → ∀ x ∈ neighbors c, φ x)
    (h : ∀ x, φ x → admits x = admits' x) (fuel : ℕ) (hb : b.Ok φ ef) :
    searchLoop neighbors ef dist admits fuel b = searchLoop neighbors ef dist admits' fuel b := by
  induction fuel generalizing b with
  | zero => rfl
  | succ fuel ih =>
    rw [searchLoop, searchLoop]
    cases hpop : b.pop ef with
    | none => rfl
    | some cb =>
      obtain ⟨hc, hb'⟩ := hb.pop hpop
      dsimp only
      rw [← Beam.foldl_visit_congr fun x hx => h x (hclosed _ hc x hx)]
      exact ih (hb'.foldl_visit (hclosed _ hc))

theorem searchLayer_congr {eps : List ℕ} (hclosed : ∀ c, φ c → ∀ x ∈ neighbors c, φ x)
    (heps : ∀ e ∈ eps, φ e) (h : ∀ x, φ x → admits x = admits' x) :
    searchLayer neighbors ef dist admits n eps = searchLayer neighbors ef dist admits' n eps := by
  rw [searchLayer, searchLayer, ← Beam.foldl_enter_congr fun e he => h e (heps e he),
    searchLoop_congr hclosed h n (Beam.ok_empty.foldl_enter heps)]

theorem GraphLayers.InRange.searchIds_congr {g : GraphLayers} (hg : g.InRange) {k : ℕ}
    (h : ∀ x < g.levels.length, admits x = admits' x) :
    g.searchIds dist k ef admits = g.searchIds dist k ef admits' := by
  obtain hnone | ⟨f, ep, hclosed, hep, heq⟩ := hg.searchIds_eq dist
  · rw [hnone, hnone]
  · rw [heq, heq, searchLayer_congr (φ := (· < g.levels.length)) hclosed hep h]

end Asked

variable {K : Kernels} {query : List F32} {k paramsEf : ℕ}

/-- **An index asks its filter** at its rows only. -/
theorem HnswIndex.Searchable.search_congr {ix : HnswIndex K} (hix : ix.Searchable)
    {filter filter' : ℕ → Bool} (h : ∀ row < ix.vectors.count, filter row = filter' row) :
    ix.search query k paramsEf (some filter) = ix.search query k paramsEf (some filter') := by
  have hcands : ix.candidates query k paramsEf (some filter) =
      ix.candidates query k paramsEf (some filter') := by
    have hadmits : ∀ row < ix.graph.levels.length,
        (decide (row ∉ ix.deleted) && (some filter).all fun f => f row) =
          (decide (row ∉ ix.deleted) && (some filter').all fun f => f row) := fun row hrow =>
      congrArg (decide (row ∉ ix.deleted) && ·) (h row (hix.size ▸ hrow))
    rw [candidates, candidates]
    cases ix.quantized with
    | some block => exact hix.inRange.searchIds_congr hadmits
    | none => exact hix.inRange.searchIds_congr hadmits
  obtain ⟨candidates, heq, -, hall⟩ := HnswIndex.candidates_spec hix.inRange
  have hlt : ∀ c ∈ candidates, c.2 < ix.graph.levels.length := fun c hc => (hall c hc).1
  rw [HnswIndex.search_eq_some heq hlt, HnswIndex.search_eq_some (hcands ▸ heq) hlt]

/-! ## Segments -/

variable {seg : SealedSegment K} {deletions deletions' : DeletionVector}
  {filter filter' : Option (GlobalId → Bool)}

/-- A segment admits a row by its global id. -/
theorem SealedSegment.live_eq (row : ℕ) :
    seg.live deletions filter row = segmentLiveFilter deletions filter (seg.globalAt row) := rfl

/-- **A search of a segment finds** rows that are admitted; it does not panic. -/
theorem SealedSegment.search_admitted (hseg : seg.index.Searchable) :
    ∃ results, seg.search query k deletions filter = some results ∧ ∀ r ∈ results,
      ∃ row < seg.index.vectors.count, seg.globalAt row = r.1 ∧
        segmentLiveFilter deletions filter r.1 := by
  obtain ⟨-, found, -, hfound, -, -, hall, -⟩ := search_sound seg.index hseg.inRange hseg.size query
    k 0 (some (seg.live deletions filter))
  rw [SealedSegment.search, hfound]
  refine ⟨_, rfl, fun r hr => ?_⟩
  obtain ⟨x, hx, rfl⟩ := List.mem_map.mp hr
  suffices h : x.1 < seg.index.vectors.count ∧ seg.live deletions filter x.1 from
    ⟨x.1, h.1, rfl, h.2⟩
  split at hx
  · exact ⟨(of_mem_scan hx).1, (of_mem_scan hx).2.1⟩
  · exact ⟨(hall x hx).1, (hall x hx).2.2.1⟩

/-- **A search of a segment asks** what is admitted at its rows only. -/
theorem SealedSegment.search_congr (hseg : seg.index.Searchable)
    (hfilter : filter.isSome = filter'.isSome)
    (h : ∀ row < seg.index.vectors.count, seg.live deletions filter row =
      seg.live deletions' filter' row) :
    seg.search query k deletions filter = seg.search query k deletions' filter' := by
  have hscan : seg.scan query k (seg.live deletions filter) =
      seg.scan query k (seg.live deletions' filter') := by
    rw [scan, scan, List.filter_congr fun row hrow => h row (List.mem_range.mp hrow)]
  rw [search, search, hseg.search_congr h, hfilter, hscan]

/-- The segments of a collection with their indexes: each holds the rows of its segment, under their
global ids, and can be searched. -/
structure Indexing (K : Kernels) where
  /-- The segment with its index. -/
  indexed : Vecvec.SealedSegment → SealedSegment K
  /-- Its graph can be searched. -/
  searchable : ∀ s, (indexed s).index.Searchable
  /-- Its rows have the ids of the segment's. -/
  ids : ∀ s, (indexed s).ids.localToGlobal = s.rows.map Prod.fst
  /-- It has no others. -/
  count : ∀ s, (indexed s).index.vectors.count = s.rows.length
  /-- Their vectors are the segment's. -/
  vectors : ∀ s row r, s.rows[row]? = some r → r.2.length = (indexed s).index.vectors.dim →
    (indexed s).index.vectors.get row = r.2

namespace Indexing

variable (I : Indexing K)

theorem globalAt_mem {s : Vecvec.SealedSegment} {row : ℕ}
    (hrow : row < (I.indexed s).index.vectors.count) :
    (I.indexed s).globalAt row ∈ s.rows.map Prod.fst := by
  have hlt : row < (s.rows.map Prod.fst).length := by rwa [List.length_map, ← I.count]
  rw [SealedSegment.globalAt, I.ids, List.getD_eq_getElem?_getD, List.getElem?_eq_getElem hlt]
  exact List.getElem_mem hlt

/-- **The search through the index.** -/
def search : SegmentSearch where
  find s query k deletions filter := ((I.indexed s).search query k deletions filter).getD []
  admitted s query k deletions filter r hr := by
    obtain ⟨results, hsome, hall⟩ := SealedSegment.search_admitted (I.searchable s)
    rw [hsome] at hr
    obtain ⟨row, hrow, hid, hlive⟩ := hall r hr
    exact ⟨hlive, hid ▸ I.globalAt_mem hrow⟩
  congr s query k deletions deletions' filter filter' hfilter h := by
    refine congrArg (Option.getD · []) (SealedSegment.search_congr (I.searchable s) hfilter ?_)
    intro row hrow
    obtain ⟨r, hr, hid⟩ := List.mem_map.mp (I.globalAt_mem hrow)
    rw [SealedSegment.live_eq, SealedSegment.live_eq, ← hid]
    exact h r hr

end Indexing

/-! ## A few rows -/

/-- Row 0 leads to the next eight, and nothing leads back. -/
def starLinks (n : ℕ) : Links := fun p layer =>
  if p = 0 ∧ layer = 0 then (List.range (min n 9)).tail else []

theorem baseLinks_starLinks (n i : ℕ) : baseLinks (starLinks n) i ≤ 8 := by
  induction i with
  | zero => exact Nat.zero_le _
  | succ i ih =>
    rw [baseLinks_succ]
    by_cases hi : i = 0
    · subst hi
      rw [baseLinks_zero, starLinks, if_pos ⟨rfl, rfl⟩, List.length_tail, List.length_range]
      omega
    · rwa [starLinks, if_neg fun h => hi h.1, List.length_nil, Nat.add_zero]

/-- The graph of `n` rows, all on layer 0. -/
def starGraph (n : ℕ) : GraphLayers :=
  intoGraphLayers (List.replicate n 0) (starLinks n) (if n = 0 then none else some 0) 0

theorem inRange_starGraph (n : ℕ) : (starGraph n).InRange where
  entry e he := by
    change (if n = 0 then none else some 0) = some e at he
    change e < (List.replicate n 0).length
    split at he
    · cases he
    · cases he
      rw [List.length_replicate]
      omega
  links layer hlayer p hp := by
    obtain rfl : layer = 0 := Nat.le_zero.mp hlayer
    change p < (List.replicate n 0).length at hp
    rw [List.length_replicate] at hp
    have hupper : (List.replicate n 0).countP (0 < ·) < 2 ^ 32 := by
      rw [List.countP_replicate, if_neg (by decide)]
      decide
    have hbase : baseLinks (starLinks n) (List.replicate n 0).length < 2 ^ 32 :=
      (baseLinks_starLinks n _).trans_lt (by decide)
    refine ⟨_, neighbors_intoGraphLayers hupper hbase (List.getElem?_replicate_of_lt hp) 0,
      fun q hq => ?_⟩
    change q < (List.replicate n 0).length
    rw [if_pos le_rfl, starLinks] at hq
    rw [List.length_replicate]
    split at hq
    · have := List.mem_range.mp (List.mem_of_mem_tail hq)
      omega
    · cases hq

/-- Segments of one-component vectors, indexed by such graphs. -/
noncomputable def fewRows : Indexing Sample.kernels where
  indexed s :=
    { id := s.id
      index := .ofGraph ⟨s.rows.map fun r => r.2.headD 0, 1, .dot, s.rows.length, Nat.one_pos,
        by rw [List.length_map, Nat.mul_one]⟩ pairConfig (starGraph s.rows.length)
      ids := .fromGlobalIds (s.rows.map Prod.fst) }
  searchable s := ⟨inRange_starGraph _, List.length_replicate⟩
  ids _ := rfl
  count _ := rfl
  vectors s row r hr hdim := by
    obtain ⟨x, hx⟩ := List.length_eq_one_iff.mp hdim
    change ((s.rows.map fun r => r.2.headD 0).drop (row * 1)).take 1 = r.2
    rw [Nat.mul_one, List.take_one, List.head?_drop, List.getElem?_map, hr, Option.map_some, hx]
    rfl

end Vecvec.Hnsw
