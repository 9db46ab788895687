import Vecvec.Hnsw.Reach
import Vecvec.Index.Flat

/-!
# Hnsw/Sound — what a search returns, on any graph

The graph only has to stay in range (`GraphLayers.InRange`); how its points are linked, and how the
search ranks them on its way, do not matter.  Whatever candidates the search comes up with are
scored again, so **the results are sound** (`search_sound`).  How many there are is up to the graph,
but not for a filtered search of a segment: one that finds too few is answered by a scan, so it
**never under-fills** (`search_filtered`).
-/

namespace Vecvec.Hnsw

/-- A graph whose entry and neighbours are points of it, on every layer a search goes through. -/
structure GraphLayers.InRange (g : GraphLayers) : Prop where
  /-- The entry is a point. -/
  entry : ∀ e, g.entry = some e → e < g.levels.length
  /-- The links of a point can be read, and lead to points. -/
  links : ∀ layer ≤ g.maxLevel, ∀ p < g.levels.length, ∃ l, g.neighbors p layer = some l ∧
    ∀ q ∈ l, q < g.levels.length

namespace GraphLayers.InRange

variable {g : GraphLayers} {layer ef k : ℕ} {dist : ℕ → F32} {admits : ℕ → Bool} {ep : List ℕ}

/-- **A layer can be searched**: the search is that of the links read, however wide its beam and
whatever it admits. -/
theorem searchLayer_eq (h : g.InRange) (hlayer : layer ≤ g.maxLevel)
    (hep : ∀ e ∈ ep, e < g.levels.length) (dist : ℕ → F32) :
    ∃ f : ℕ → List ℕ, (∀ c < g.levels.length, ∀ x ∈ f c, x < g.levels.length) ∧
      ∀ admits ef, g.searchLayer layer ef dist admits ep =
        some (Hnsw.searchLayer f ef dist admits g.levels.length ep) := by
  let f (c : ℕ) : List ℕ := (g.neighbors c layer).getD []
  have hf : ∀ c < g.levels.length, g.neighbors c layer = some (f c) ∧
      ∀ x ∈ f c, x < g.levels.length := by
    intro c hc
    obtain ⟨l, hl, hlt⟩ := h.links layer hlayer c hc
    have hfc : f c = l := by
      change (g.neighbors c layer).getD [] = l
      rw [hl]
      rfl
    exact ⟨hl.trans (congrArg some hfc.symm), hfc ▸ hlt⟩
  exact ⟨f, fun c hc => (hf c hc).2, fun admits ef => GraphLayers.searchLayer_eq
    (φ := (· < g.levels.length)) (fun c hc => (hf c hc).1) (fun c hc => (hf c hc).2) hep⟩

/-- **The descent stays in range.** -/
theorem descend (h : g.InRange) {layers : List ℕ} (hlayers : ∀ layer ∈ layers, layer ≤ g.maxLevel)
    (hep : ∀ e ∈ ep, e < g.levels.length) :
    ∃ ep', g.descend dist layers ep = some ep' ∧ ∀ e ∈ ep', e < g.levels.length := by
  induction layers generalizing ep with
  | nil => exact ⟨ep, rfl, hep⟩
  | cons layer rest ih =>
    obtain ⟨hlayer, hrest⟩ := List.forall_mem_cons.mp hlayers
    obtain ⟨f, hclosed, heq⟩ := h.searchLayer_eq hlayer hep dist
    rw [GraphLayers.descend, heq, Option.bind_eq_bind, Option.bind_some]
    split
    · rename_i best _ hbest
      refine ih hrest fun e he => ?_
      rw [List.mem_singleton.mp he]
      exact of_mem_searchLayer (φ := (· < g.levels.length)) hclosed hep
        (hbest ▸ List.mem_cons_self)
    · exact ih hrest hep

/-- **The search of a graph** is that of layer 0, from where the descent ends: the same links and
the same entry points, however many are asked for, however wide the beam and whatever it admits. -/
theorem searchIds_eq (h : g.InRange) (dist : ℕ → F32) :
    (∀ admits k ef, g.searchIds dist k ef admits = some []) ∨ ∃ (f : ℕ → List ℕ) (ep : List ℕ),
      (∀ c < g.levels.length, ∀ x ∈ f c, x < g.levels.length) ∧ (∀ e ∈ ep, e < g.levels.length) ∧
      ∀ admits k ef, g.searchIds dist k ef admits =
        some ((Hnsw.searchLayer f ef dist admits g.levels.length ep).take k) := by
  cases hentry : g.entry with
  | none => exact .inl fun admits k ef => by rw [GraphLayers.searchIds, hentry]
  | some entry =>
    obtain ⟨ep, hdescend, hep⟩ := @descend g dist [entry] h (layersAbove 0 g.maxLevel)
      (fun layer hlayer => by
        have := List.mem_range'_1.mp (List.mem_reverse.mp hlayer)
        omega)
      fun e he => List.mem_singleton.mp he ▸ h.entry entry hentry
    obtain ⟨f, hclosed, heq⟩ := h.searchLayer_eq (Nat.zero_le _) hep dist
    refine .inr ⟨f, ep, hclosed, hep, fun admits k ef => ?_⟩
    rw [GraphLayers.searchIds, hentry]
    dsimp only
    rw [hdescend, Option.bind_eq_bind, Option.bind_some, heq]
    rfl

/-- **The candidates of a search** are distinct admitted points. -/
theorem searchIds (h : g.InRange) (k ef dist admits) : ∃ candidates,
    g.searchIds dist k ef admits = some candidates ∧ (candidates.map Prod.snd).Nodup ∧
    ∀ c ∈ candidates, c.2 < g.levels.length ∧ admits c.2 = true := by
  obtain hnone | ⟨f, ep, hclosed, hep, heq⟩ := h.searchIds_eq dist
  · exact ⟨[], hnone admits k ef, List.nodup_nil, fun c hc => absurd hc List.not_mem_nil⟩
  · refine ⟨_, heq admits k ef, ?_, fun c hc => ?_⟩
    · rw [List.map_take]
      exact nodup_searchLayer.sublist (List.take_sublist _ _)
    · have hc := List.mem_of_mem_take hc
      exact ⟨of_mem_searchLayer (φ := (· < g.levels.length)) hclosed hep hc,
        (keyed_of_mem_searchLayer hc).2⟩

end GraphLayers.InRange

/-! ## The index -/

section Index

variable {K : Kernels}

/-- The candidates the graph search of a query produces, before they are scored again. -/
def HnswIndex.candidates (ix : HnswIndex K) (query : List F32) (k paramsEf : ℕ)
    (filter : Option (ℕ → Bool)) : Option (List (F32 × ℕ)) :=
  let ef := max (max paramsEf ix.config.efSearch) k
  let admits := fun id => decide (id ∉ ix.deleted) && filter.all fun f => f id
  match ix.quantized with
  | some block =>
    let fetch := max (k * rescoreOversample % 2 ^ 64) k
    ix.graph.searchIds (K.badness block query) fetch (max ef fetch) admits
  | none =>
    ix.graph.searchIds (fun id => ix.vectors.badnessOf (ix.vectors.score K query id)) k ef admits

/-- Candidates with their exact scores. -/
def HnswIndex.rescored (ix : HnswIndex K) (query : List F32) (candidates : List (F32 × ℕ)) :
    List (ℕ × F32) := candidates.map fun c => (c.2, ix.vectors.score K query c.2)

variable {ix : HnswIndex K} {query : List F32} {k paramsEf : ℕ} {filter : Option (ℕ → Bool)}

/-- A rescored candidate carries its exact score. -/
theorem HnswIndex.of_mem_rescored {candidates : List (F32 × ℕ)} {p : ℕ × F32}
    (h : p ∈ ix.rescored query candidates) :
    p.2 = ix.vectors.score K query p.1 ∧ ∃ c ∈ candidates, c.2 = p.1 := by
  obtain ⟨c, hc, rfl⟩ := List.mem_map.mp h
  exact ⟨rfl, c, hc, rfl⟩

/-- A search takes the best of its candidates. -/
theorem HnswIndex.search_eq (hk : k ≠ 0) (hlen : ix.graph.levels.length ≠ 0) :
    ix.search query k paramsEf filter =
      (ix.candidates query k paramsEf filter).map fun candidates =>
        (bestFirst ix.vectors.metric.higherIsBetter (ix.rescored query candidates)).take k := by
  let badness := fun id => ix.vectors.badnessOf (ix.vectors.score K query id)
  have hbest (candidates : List (F32 × ℕ)) :
      (((candidates.map fun c => (badness c.2, c.2)).insertionSort keyLe).take k).map
        (fun key => (key.2, ix.vectors.score K query key.2)) =
      (bestFirst ix.vectors.metric.higherIsBetter (ix.rescored query candidates)).take k := by
    have hkeys : (candidates.map fun c => (badness c.2, c.2)) =
        (ix.rescored query candidates).map (keyOf ix.vectors.metric.higherIsBetter) := by
      rw [rescored, List.map_map]
      rfl
    rw [hkeys, ← map_keyOf_bestFirst, ← List.map_take, List.map_map]
    refine (List.map_congr_left fun p hp => ?_).trans (List.map_id _)
    exact Prod.ext rfl (of_mem_rescored (mem_of_mem_take_bestFirst hp)).1.symm
  rw [search, if_neg (not_or.mpr ⟨hk, hlen⟩), candidates]
  cases ix.quantized with
  | some block =>
    dsimp only
    generalize ix.graph.searchIds _ _ _ _ = found
    cases found with
    | none => rfl
    | some candidates => exact congrArg some (hbest candidates)
  | none =>
    dsimp only
    generalize ix.graph.searchIds _ _ _ _ = found
    cases found with
    | none => rfl
    | some candidates => exact congrArg some (hbest candidates)

/-- **The candidates** are distinct rows that are live and pass the filter. -/
theorem HnswIndex.candidates_spec (h : ix.graph.InRange) :
    ∃ candidates, ix.candidates query k paramsEf filter = some candidates ∧
      (candidates.map Prod.snd).Nodup ∧ ∀ c ∈ candidates, c.2 < ix.graph.levels.length ∧
        c.2 ∉ ix.deleted ∧ filter.all (fun f => f c.2) = true := by
  let admits : ℕ → Bool := fun id => decide (id ∉ ix.deleted) && filter.all fun f => f id
  have hids {dist : ℕ → F32} {fetch ef : ℕ} : ∃ candidates,
      ix.graph.searchIds dist fetch ef admits = some candidates ∧
      (candidates.map Prod.snd).Nodup ∧ ∀ c ∈ candidates, c.2 < ix.graph.levels.length ∧
        c.2 ∉ ix.deleted ∧ filter.all (fun f => f c.2) = true := by
    obtain ⟨candidates, heq, hnodup, hall⟩ := h.searchIds fetch ef dist admits
    refine ⟨candidates, heq, hnodup, fun c hc => ⟨(hall c hc).1, ?_⟩⟩
    have := (hall c hc).2
    rwa [Bool.and_eq_true, decide_eq_true_eq] at this
  rw [candidates]
  cases ix.quantized with
  | some block => exact hids
  | none => exact hids

/-- **A search returns the best of its candidates**, also when it does not start. -/
theorem HnswIndex.search_eq_some {candidates : List (F32 × ℕ)}
    (hcands : ix.candidates query k paramsEf filter = some candidates)
    (hall : ∀ c ∈ candidates, c.2 < ix.graph.levels.length) :
    ix.search query k paramsEf filter =
      some
        ((bestFirst ix.vectors.metric.higherIsBetter (ix.rescored query candidates)).take k) := by
  by_cases hnone : k = 0 ∨ ix.graph.levels.length = 0
  · rw [search, if_pos hnone]
    refine congrArg some ?_
    rcases hnone with rfl | hlen
    · rfl
    · have hempty : candidates = [] := List.eq_nil_iff_forall_not_mem.mpr fun c hc =>
        Nat.not_lt_zero _ (hlen ▸ hall c hc)
      rw [hempty]
      exact List.take_nil.symm
  · obtain ⟨hk, hlen⟩ := not_or.mp hnone
    rw [search_eq hk hlen, hcands]
    rfl

theorem HnswIndex.nodup_rescored {candidates : List (F32 × ℕ)}
    (h : (candidates.map Prod.snd).Nodup) :
      ((ix.rescored query candidates).map Prod.fst).Nodup := by
  rw [rescored, List.map_map]
  exact h

/-- **HNSW search is sound on any graph that stays in range**: at most `k` distinct live rows that
pass the filter, each with its exact score, the best first — the best `k` of the candidates. -/
theorem search_sound (ix : HnswIndex K) (hgraph : ix.graph.InRange)
    (hsize : ix.graph.levels.length = ix.vectors.count) (query : List F32) (k paramsEf : ℕ)
    (filter : Option (ℕ → Bool)) :
    ∃ candidates results, ix.candidates query k paramsEf filter = some candidates ∧
      ix.search query k paramsEf filter = some results ∧
      results.length ≤ k ∧ (results.map Prod.fst).Nodup ∧
      (∀ r ∈ results, r.1 < ix.vectors.count ∧ r.1 ∉ ix.deleted ∧
        filter.all (fun f => f r.1) = true ∧ r.2 = ix.vectors.score K query r.1) ∧
      results.Pairwise (fun a b => keyLe (keyOf ix.vectors.metric.higherIsBetter a)
        (keyOf ix.vectors.metric.higherIsBetter b)) ∧
      results =
        (bestFirst ix.vectors.metric.higherIsBetter (ix.rescored query candidates)).take k := by
  obtain ⟨candidates, hcands, hnodup, hall⟩ := @HnswIndex.candidates_spec K ix query k paramsEf
    filter hgraph
  refine ⟨candidates, _, hcands, HnswIndex.search_eq_some hcands fun c hc => (hall c hc).1,
    List.length_take_le _ _, nodup_take_bestFirst (HnswIndex.nodup_rescored hnodup), fun r hr => ?_,
    (pairwise_bestFirst _ _).sublist (List.take_sublist _ _), rfl⟩
  obtain ⟨hscore, c, hc, hrow⟩ := HnswIndex.of_mem_rescored (mem_of_mem_take_bestFirst hr)
  obtain ⟨hlt, hlive, hfilter⟩ := hrow ▸ hall c hc
  exact ⟨hsize ▸ hlt, hlive, hfilter, hscore⟩

/-- Two rows that no links join. -/
def isolatedGraph : GraphLayers := ⟨some 0, 0, [0, 0], [0, 0, 0], [], [], [noSlot, noSlot]⟩

theorem inRange_isolatedGraph : isolatedGraph.InRange where
  entry e he := by
    cases he
    decide
  links layer hlayer p hp := by
    obtain rfl := Nat.le_zero.mp hlayer
    refine ⟨[], ?_, fun q hq => absurd hq List.not_mem_nil⟩
    match p, hp with
    | 0, _ => rfl
    | 1, _ => rfl

/-- An index over two equal vectors. -/
noncomputable def isolatedIndex : HnswIndex Sample.kernels :=
  .ofGraph twoEqual.vectors pairConfig isolatedGraph

/-- A search of the two rows, the first of them alone in reach. -/
theorem search_sound_isolated : ∃ results, isolatedIndex.search [0] 2 0 none = some results ∧
    results.length ≤ 2 ∧ (results.map Prod.fst).Nodup := by
  obtain ⟨-, results, -, hsearch, hlen, hnodup, -⟩ := search_sound isolatedIndex
    inRange_isolatedGraph rfl [0] 2 0 none
  exact ⟨results, hsearch, hlen, hnodup⟩

end Index

/-! ## A filtered segment -/

section Segment

variable {K : Kernels} (seg : SealedSegment K)

/-- The global id of a row. -/
def SealedSegment.globalAt (row : ℕ) : GlobalId := seg.ids.localToGlobal.getD row 0

variable {seg} {deletions : DeletionVector} {filter : GlobalId → Bool} {query : List F32} {k : ℕ}

theorem SealedSegment.live_iff {row : ℕ} : seg.live deletions (some filter) row = true ↔
    seg.globalAt row ∉ deletions ∧ filter (seg.globalAt row) = true := by
  rw [live, Bool.and_eq_true, decide_eq_true_eq]
  rfl

/-- A segment's scan is the scan of its vectors. -/
theorem SealedSegment.scan_eq (live : ℕ → Bool) : seg.scan query k live =
    seg.index.vectors.scanTopk K seg.index.vectors.metric query k none (some live) := by
  rw [scan, intoSorted_offerAll, VectorStorage.scanTopk_eq]
  have hscans : VectorStorage.scans none (some live) = live := by
    funext row
    rw [VectorStorage.scans]
    simp
  rw [VectorStorage.scored, hscans]
  rfl

/-- **A scan** finds the best of the rows that are live. -/
theorem SealedSegment.scan_eq_take (live : ℕ → Bool) : seg.scan query k live =
    (bestFirst seg.index.vectors.metric.higherIsBetter
      (((List.range seg.index.vectors.count).filter live).map fun row =>
        (row, seg.index.vectors.score K query row))).take k :=
  intoSorted_offerAll _ _ _

theorem SealedSegment.nodup_scan (live : ℕ → Bool) :
    ((seg.scan query k live).map Prod.fst).Nodup := by
  rw [scan_eq_take]
  refine nodup_take_bestFirst ?_
  rw [List.map_map]
  exact (List.nodup_range.filter live).map fun _ _ h => h

theorem SealedSegment.length_scan (live : ℕ → Bool) : (seg.scan query k live).length =
    min k ((List.range seg.index.vectors.count).countP live) := by
  rw [scan_eq_take, List.length_take, (perm_bestFirst _ _).length_eq, List.length_map,
    List.countP_eq_length_filter]

theorem SealedSegment.of_mem_scan {live : ℕ → Bool} {r : ℕ × F32}
    (hr : r ∈ seg.scan query k live) : r.1 < seg.index.vectors.count ∧ live r.1 = true ∧
      r.2 = seg.index.vectors.score K query r.1 := by
  rw [scan_eq_take] at hr
  obtain ⟨row, hrow, rfl⟩ := List.mem_map.mp (mem_of_mem_take_bestFirst hr)
  obtain ⟨hrange, hlive⟩ := List.mem_filter.mp hrow
  exact ⟨List.mem_range.mp hrange, hlive, rfl⟩

/-- **As many live rows as were asked for** are as many as there are, if there are no more. -/
theorem SealedSegment.length_full {live : ℕ → Bool} {rows : List (ℕ × F32)}
    (hids : (rows.map Prod.fst).Nodup) (hfull : rows.length = k)
    (hrows : ∀ r ∈ rows, r.1 < seg.index.vectors.count ∧ live r.1 = true) :
    rows.length = min k ((List.range seg.index.vectors.count).countP live) := by
  rw [hfull, eq_comm, min_eq_left_iff, List.countP_eq_length_filter, ← hfull,
    ← List.length_map (f := Prod.fst)]
  refine (hids.subperm fun row hrow => ?_).length_le
  obtain ⟨r, hr, rfl⟩ := List.mem_map.mp hrow
  obtain ⟨hlt, hlive⟩ := hrows r hr
  exact List.mem_filter.mpr ⟨List.mem_range.mpr hlt, hlive⟩

/-- **A filtered search never under-fills**: it returns as many distinct live rows that pass the
filter as there are, or `k`, the best first; and where the graph search found fewer than `k`, the
exact best of them. -/
theorem SealedSegment.search_filtered (seg : SealedSegment K) (hgraph : seg.index.graph.InRange)
    (hsize : seg.index.graph.levels.length = seg.index.vectors.count) (query : List F32) (k : ℕ)
    (deletions : DeletionVector) (filter : GlobalId → Bool) :
    ∃ rows : List (ℕ × F32), seg.search query k deletions (some filter) =
        some (rows.map fun r => (seg.globalAt r.1, r.2)) ∧
      (rows.map Prod.fst).Nodup ∧
      rows.length =
        min k ((List.range seg.index.vectors.count).countP (seg.live deletions (some filter))) ∧
      (∀ r ∈ rows, r.1 < seg.index.vectors.count ∧ seg.globalAt r.1 ∉ deletions ∧
        filter (seg.globalAt r.1) = true ∧ r.2 = seg.index.vectors.score K query r.1) ∧
      rows.Pairwise (fun a b => keyLe (keyOf seg.index.vectors.metric.higherIsBetter a)
        (keyOf seg.index.vectors.metric.higherIsBetter b)) ∧
      ∀ found, seg.index.search query k 0 (some (seg.live deletions (some filter))) = some found →
        found.length < k → rows = seg.index.vectors.bruteForceTopk K
          seg.index.vectors.metric query k
          none (some (seg.live deletions (some filter))) := by
  set live := seg.live deletions (some filter) with hlive
  set vectors := seg.index.vectors
  obtain ⟨candidates, hcands, hnodup, hall⟩ := @HnswIndex.candidates_spec K seg.index query k 0
    (some live) hgraph
  set found :=
    (bestFirst vectors.metric.higherIsBetter (seg.index.rescored query candidates)).take k
  have hfound : seg.index.search query k 0 (some live) = some found :=
    HnswIndex.search_eq_some hcands fun c hc => (hall c hc).1
  have hsearch : seg.search query k deletions (some filter) =
      some ((if found.length < k then seg.scan query k live else found).map fun r =>
        (seg.globalAt r.1, r.2)) := by
    rw [search, ← hlive, hfound]
    simp [globalAt]
  have hpair {l : List (ℕ × F32)} : ((bestFirst vectors.metric.higherIsBetter l).take k).Pairwise
      fun a b => keyLe (keyOf vectors.metric.higherIsBetter a)
        (keyOf vectors.metric.higherIsBetter b) :=
    (pairwise_bestFirst _ _).sublist (List.take_sublist _ _)
  have hsound {rows : List (ℕ × F32)} (hrows : ∀ r ∈ rows, r.1 < vectors.count ∧
      live r.1 = true ∧ r.2 = vectors.score K query r.1) (r : ℕ × F32) (hr : r ∈ rows) :
      r.1 < vectors.count ∧ seg.globalAt r.1 ∉ deletions ∧ filter (seg.globalAt r.1) = true ∧
        r.2 = vectors.score K query r.1 := by
    obtain ⟨hlt, hrow, hscore⟩ := hrows r hr
    obtain ⟨hdel, hfilter⟩ := live_iff.mp hrow
    exact ⟨hlt, hdel, hfilter, hscore⟩
  by_cases hshort : found.length < k
  · -- the scan answers
    refine ⟨seg.scan query k live, by rw [hsearch, if_pos hshort], nodup_scan live,
      length_scan live, hsound fun r => of_mem_scan, (scan_eq_take live).symm ▸ hpair,
      fun found' hfound' _ => ?_⟩
    rw [scan_eq, VectorStorage.scanTopk_eq, VectorStorage.bruteForceTopk_eq]
  · -- the graph has found enough
    have hfull : found.length = k := (List.length_take_le _ _).antisymm (not_lt.mp hshort)
    have hids : (found.map Prod.fst).Nodup := nodup_take_bestFirst (HnswIndex.nodup_rescored hnodup)
    have hrows : ∀ r ∈ found, r.1 < vectors.count ∧ live r.1 = true ∧
        r.2 = vectors.score K query r.1 := by
      intro r hr
      obtain ⟨hscore, c, hc, hrow⟩ := HnswIndex.of_mem_rescored (mem_of_mem_take_bestFirst hr)
      obtain ⟨hlt, -, hfilter⟩ := hrow ▸ hall c hc
      exact ⟨hsize ▸ hlt, hfilter, hscore⟩
    refine ⟨found, by rw [hsearch, if_neg hshort], hids,
      length_full hids hfull fun r hr => ⟨(hrows r hr).1, (hrows r hr).2.1⟩, hsound hrows, hpair,
      fun found' hfound' hlt => ?_⟩
    obtain rfl := Option.some.inj (hfound'.symm.trans hfound)
    exact absurd hlt hshort

/-- A filter that only the row out of reach passes finds it. -/
theorem search_filtered_isolated :
    ∃ rows : List (ℕ × F32), rows.length = 1 ∧
      (⟨1, isolatedIndex, twoEqual.ids⟩ : SealedSegment _).search [0] 2 ∅ (some (· == 1)) =
        some (rows.map fun r => (twoEqual.ids.localToGlobal.getD r.1 0, r.2)) := by
  obtain ⟨rows, hsearch, -, hlen, -⟩ := SealedSegment.search_filtered
    ⟨1, isolatedIndex, twoEqual.ids⟩
    inRange_isolatedGraph rfl [0] 2 ∅ (· == 1)
  exact ⟨rows, hlen, hsearch⟩

end Segment

end Vecvec.Hnsw
