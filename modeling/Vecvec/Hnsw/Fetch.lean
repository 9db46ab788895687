import Vecvec.Hnsw.Complete
import Vecvec.Hnsw.Interleaved
import Vecvec.Hnsw.Sound
import Vecvec.Machinery.Usize

/-!
# Hnsw/Fetch — how many results are asked for

A quantised search fetches a multiple of what it is asked for, and the product is one of `usize`s:
it is a panic or wraps around from some number of results on.  Otherwise **to ask for more than
there are rows is to ask for all of them** (`HnswIndex.search_eq_of_le`,
`SealedSegment.search_eq_of_le`).
-/

namespace Vecvec.Hnsw

open Machinery

variable {K : Kernels} {checked : Bool} {query : List F32} {k k' paramsEf : ℕ}

/-! ## Searches in words -/

/-- `HnswIndex::search`; `checked` builds panic on overflow. -/
def HnswIndex.searchIn (checked : Bool) (ix : HnswIndex K) (query : List F32) (k paramsEf : ℕ)
    (filter : Option (ℕ → Bool)) : Option (List (ℕ × F32)) :=
  if k = 0 ∨ ix.graph.levels.length = 0 then some []
  else do
    let ef := max (max paramsEf ix.config.efSearch) k
    let admits := fun id => decide (id ∉ ix.deleted) && filter.all fun f => f id
    let badness := fun id => ix.vectors.badnessOf (ix.vectors.score K query id)
    let candidates ← match ix.quantized with
      | some block => do
        let product ← mulUsize checked k rescoreOversample
        let fetch := max product k
        ix.graph.searchIds (K.badness block query) fetch (max ef fetch) admits
      | none => ix.graph.searchIds badness k ef admits
    let scored := (candidates.map fun c => (badness c.2, c.2)).insertionSort keyLe
    return (scored.take k).map fun key => (key.2, ix.vectors.score K query key.2)

/-- `SealedSegment::search`, of an index searched in words. -/
def SealedSegment.searchIn (checked : Bool) (seg : SealedSegment K) (query : List F32) (k : ℕ)
    (deletions : DeletionVector) (filter : Option (GlobalId → Bool)) :
    Option (List (GlobalId × F32)) := do
  let live := seg.live deletions filter
  let graphResults ← seg.index.searchIn checked query k 0 (some live)
  let results := if filter.isSome ∧ graphResults.length < k then seg.scan query k live
    else graphResults
  return results.map fun r => (seg.ids.localToGlobal.getD r.1 0, r.2)

/-- The product that a search fetches is a `usize`, or not computed. -/
def HnswIndex.Fits (ix : HnswIndex K) (k : ℕ) : Prop :=
  ix.quantized = none ∨ ix.graph.levels.length = 0 ∨ k * rescoreOversample < 2 ^ 64

variable {ix : HnswIndex K} {filter : Option (ℕ → Bool)}

theorem HnswIndex.Fits.of_le (h : ix.Fits k) (hle : k' ≤ k) : ix.Fits k' :=
  h.imp_right (Or.imp_right (Nat.mul_le_mul_right _ hle).trans_lt)

/-- **Without overflow** the searches are one. -/
theorem HnswIndex.searchIn_of_fits (h : ix.Fits k) :
    ix.searchIn checked query k paramsEf filter = ix.search query k paramsEf filter := by
  rw [searchIn, search]
  split
  · rfl
  · rename_i hnone
    cases hq : ix.quantized with
    | none => rfl
    | some block =>
      have hlt : k * rescoreOversample < 2 ^ 64 := by
        rcases h with h | h | h
        · rw [hq] at h
          cases h
        · exact absurd (.inr h) hnone
        · exact h
      rw [mulUsize_of_lt hlt, Nat.mod_eq_of_lt hlt]
      rfl

/-- **An overflow** is a panic where it is checked. -/
theorem HnswIndex.searchIn_true (h : ¬ ix.Fits k) :
    ix.searchIn true query k paramsEf filter = none := by
  rw [Fits, not_or, not_or, not_lt] at h
  obtain ⟨hq, hlen, hover⟩ := h
  obtain ⟨block, hq⟩ := Option.ne_none_iff_exists'.mp hq
  have hk : k ≠ 0 := by
    rintro rfl
    rw [Nat.zero_mul] at hover
    exact absurd hover (by decide)
  rw [searchIn, if_neg (not_or.mpr ⟨hk, hlen⟩), hq]
  dsimp only
  rw [mulUsize_true_eq_none_iff.mpr hover]
  rfl

/-- **Where overflow wraps around** the search is that of `Hnsw/Index`. -/
theorem HnswIndex.searchIn_false :
    ix.searchIn false query k paramsEf filter = ix.search query k paramsEf filter := by
  rw [searchIn, search]
  split
  · rfl
  · cases ix.quantized with
    | none => rfl
    | some block =>
      dsimp only
      rw [mulUsize_false]
      rfl

variable {seg : SealedSegment K} {deletions : DeletionVector}
  {filter : Option (GlobalId → Bool)}

theorem SealedSegment.searchIn_of_fits (h : seg.index.Fits k) :
    seg.searchIn checked query k deletions filter = seg.search query k deletions filter := by
  rw [searchIn, search, HnswIndex.searchIn_of_fits h]

theorem SealedSegment.searchIn_true (h : ¬ seg.index.Fits k) :
    seg.searchIn true query k deletions filter = none := by
  rw [searchIn, HnswIndex.searchIn_true h]
  rfl

/-! ## More than there are -/

section

variable {neighbors : ℕ → List ℕ} {ef ef' n : ℕ} {dist : ℕ → F32} {admits : ℕ → Bool} {eps : List ℕ}

/-- What a search with a beam as wide as the graph finds. -/
theorem mem_searchLayer_iff (hclosed : ∀ c < n, ∀ x ∈ neighbors c, x < n) (heps : ∀ e ∈ eps, e < n)
    (hn : n ≤ ef) {key : F32 × ℕ} : key ∈ searchLayer neighbors ef dist admits n eps ↔
      key.1 = dist key.2 ∧ admits key.2 = true ∧ Reaches neighbors eps key.2 := by
  refine ⟨fun h => ?_, fun ⟨hdist, hadmits, e, he, hreach⟩ => ?_⟩
  · obtain ⟨hdist, hadmits⟩ := keyed_of_mem_searchLayer h
    exact ⟨hdist, hadmits, reaches_of_mem_searchLayer h⟩
  · have hmem : key.2 ∈ (searchLayer neighbors ef dist admits n eps).map Prod.snd :=
      mem_searchLayer_of_reachable (φ := (· < n)) (fun _ h => h) hn hclosed heps he hreach hadmits
    obtain ⟨key', hkey', hid⟩ := List.mem_map.mp hmem
    have hkey : key' = key :=
      Prod.ext ((keyed_of_mem_searchLayer hkey').1.trans (by rw [hid, hdist])) hid
    exact hkey ▸ hkey'

/-- **All beams as wide as the graph** find the same. -/
theorem searchLayer_eq_of_le (hclosed : ∀ c < n, ∀ x ∈ neighbors c, x < n) (heps : ∀ e ∈ eps, e < n)
    (hn : n ≤ ef) (hn' : n ≤ ef') : searchLayer neighbors ef dist admits n eps =
      searchLayer neighbors ef' dist admits n eps := by
  refine List.Perm.eq_of_pairwise' pairwise_searchLayer pairwise_searchLayer ?_
  refine (List.perm_ext_iff_of_nodup (.of_map _ nodup_searchLayer)
    (.of_map _ nodup_searchLayer)).mpr fun key => ?_
  rw [mem_searchLayer_iff hclosed heps hn, mem_searchLayer_iff hclosed heps hn']

theorem length_searchLayer_le (hclosed : ∀ c < n, ∀ x ∈ neighbors c, x < n)
    (heps : ∀ e ∈ eps, e < n) : (searchLayer neighbors ef dist admits n eps).length ≤ n := by
  rw [← List.length_map (f := Prod.snd)]
  refine length_le_of_nodup nodup_searchLayer fun x hx => ?_
  obtain ⟨key, hkey, rfl⟩ := List.mem_map.mp hx
  exact of_mem_searchLayer (φ := (· < n)) hclosed heps hkey

end

/-- **A graph is searched** for more than its points as for all of them. -/
theorem GraphLayers.InRange.searchIds_eq_of_le {g : GraphLayers} (h : g.InRange) {ef ef' : ℕ}
    (dist : ℕ → F32) (admits : ℕ → Bool) (hk : g.levels.length ≤ k) (hk' : g.levels.length ≤ k')
    (hef : g.levels.length ≤ ef) (hef' : g.levels.length ≤ ef') :
    g.searchIds dist k ef admits = g.searchIds dist k' ef' admits := by
  obtain hnone | ⟨f, ep, hclosed, hep, heq⟩ := h.searchIds_eq dist
  · rw [hnone, hnone]
  · rw [heq, heq, List.take_of_length_le ((length_searchLayer_le hclosed hep).trans hk),
      List.take_of_length_le ((length_searchLayer_le hclosed hep).trans hk'),
      searchLayer_eq_of_le hclosed hep hef hef']

/-- An index whose graph can be searched, of a point for each row. -/
structure HnswIndex.Searchable (ix : HnswIndex K) : Prop where
  /-- The graph stays in range. -/
  inRange : ix.graph.InRange
  /-- Every row is a point of it. -/
  size : ix.graph.levels.length = ix.vectors.count

section Index

variable {filter : Option (ℕ → Bool)}

/-- The candidates are the same, -/
theorem HnswIndex.Searchable.candidates_eq_of_le (h : ix.Searchable) (hk : ix.vectors.count ≤ k)
    (hk' : ix.vectors.count ≤ k') : ix.candidates query k paramsEf filter =
      ix.candidates query k' paramsEf filter := by
  rw [← h.size] at hk hk'
  rw [candidates, candidates]
  cases ix.quantized with
  | none =>
    exact h.inRange.searchIds_eq_of_le _ _ hk hk' (le_max_of_le_right hk) (le_max_of_le_right hk')
  | some block =>
    have hfetch {k : ℕ} (hk : ix.graph.levels.length ≤ k) :
        ix.graph.levels.length ≤ max (k * rescoreOversample % 2 ^ 64) k := le_max_of_le_right hk
    exact h.inRange.searchIds_eq_of_le _ _ (hfetch hk) (hfetch hk') (le_max_of_le_right (hfetch hk))
      (le_max_of_le_right (hfetch hk'))

/-- and no more than the rows. -/
theorem HnswIndex.Searchable.exists_candidates (h : ix.Searchable) (query : List F32)
    (k paramsEf : ℕ) (filter : Option (ℕ → Bool)) : ∃ candidates,
      ix.candidates query k paramsEf filter = some candidates ∧
      ix.search query k paramsEf filter = some ((bestFirst ix.vectors.metric.higherIsBetter
        (ix.rescored query candidates)).take k) ∧
      (bestFirst ix.vectors.metric.higherIsBetter (ix.rescored query candidates)).length ≤
        ix.vectors.count := by
  obtain ⟨candidates, hcands, hnodup, hall⟩ :=
    @candidates_spec K ix query k paramsEf filter h.inRange
  refine ⟨candidates, hcands, search_eq_some hcands fun c hc => (hall c hc).1, ?_⟩
  rw [(perm_bestFirst _ _).length_eq, rescored, List.length_map, ← List.length_map (f := Prod.snd),
    ← h.size]
  refine length_le_of_nodup hnodup fun x hx => ?_
  obtain ⟨c, hc, rfl⟩ := List.mem_map.mp hx
  exact (hall c hc).1

/-- **An index is searched** for more results than it has rows as for all of them. -/
theorem HnswIndex.Searchable.search_eq_of_le (h : ix.Searchable) (hk : ix.vectors.count ≤ k)
    (hk' : ix.vectors.count ≤ k') : ix.search query k paramsEf filter =
      ix.search query k' paramsEf filter := by
  obtain ⟨candidates, hcands, hsearch, hlen⟩ := h.exists_candidates query k paramsEf filter
  obtain ⟨candidates', hcands', hsearch', -⟩ := h.exists_candidates query k' paramsEf filter
  obtain rfl : candidates = candidates' :=
    Option.some.inj (hcands.symm.trans ((h.candidates_eq_of_le hk hk').trans hcands'))
  rw [hsearch, hsearch', List.take_of_length_le (hlen.trans hk),
    List.take_of_length_le (hlen.trans hk')]

/-- **An index handles a limit** exactly if the product it computes fits. -/
theorem HnswIndex.Searchable.handlesLimit_iff (h : ix.Searchable) :
    HandlesLimit List.length ix.vectors.count k (fun checked k =>
      ix.searchIn checked query k paramsEf filter) ↔ ix.Fits k := by
  refine ⟨fun hcall => ?_, fun hfits => .of_eq (fun checked => ?_) fun hle checked r hr => ?_⟩
  · by_contra hover
    refine not_handlesLimit ?_ hcall
    exact searchIn_true hover
  · obtain ⟨_, -, hsearch, -⟩ := h.exists_candidates query k paramsEf filter
    exact ⟨_, (searchIn_of_fits hfits).trans hsearch⟩
  · refine ⟨r, ?_, rfl⟩
    rw [searchIn_of_fits (hfits.of_le hle), ← h.search_eq_of_le hle le_rfl, ← hr,
      searchIn_of_fits hfits]

end Index

namespace SealedSegment

/-- Rows that are live, as many as there are, the best first, are all of them so. -/
theorem eq_bestFirst_of_length {live : ℕ → Bool} {rows : List (ℕ × F32)}
    (hids : (rows.map Prod.fst).Nodup)
    (hlen : rows.length = (List.range seg.index.vectors.count).countP live)
    (hrows : ∀ r ∈ rows, r.1 < seg.index.vectors.count ∧ live r.1 = true ∧
      r.2 = seg.index.vectors.score K query r.1)
    (hsort : rows.Pairwise fun a b => keyLe (keyOf seg.index.vectors.metric.higherIsBetter a)
      (keyOf seg.index.vectors.metric.higherIsBetter b)) :
    rows = bestFirst seg.index.vectors.metric.higherIsBetter
      (((List.range seg.index.vectors.count).filter live).map fun row =>
        (row, seg.index.vectors.score K query row)) := by
  have hperm : (rows.map Prod.fst).Perm ((List.range seg.index.vectors.count).filter live) := by
    refine (hids.subperm fun row hrow => ?_).perm_of_length_le ?_
    · obtain ⟨r, hr, rfl⟩ := List.mem_map.mp hrow
      obtain ⟨hlt, hlive, -⟩ := hrows r hr
      exact List.mem_filter.mpr ⟨List.mem_range.mpr hlt, hlive⟩
    · rw [List.length_map, hlen, List.countP_eq_length_filter]
  have hscored : (rows.map Prod.fst).map (fun row => (row, seg.index.vectors.score K query row)) =
      rows := by
    rw [List.map_map]
    refine (List.map_congr_left (g := fun r => r) fun r hr => ?_).trans (List.map_id' _)
    rw [Function.comp_apply, ← (hrows r hr).2.2]
  have hall := hperm.map fun row => (row, seg.index.vectors.score K query row)
  rw [hscored] at hall
  exact eq_of_perm_of_pairwise (hall.trans (perm_bestFirst _ _).symm) hsort (pairwise_bestFirst _ _)

/-- **A segment is searched** for more results than it has rows as for all of them. -/
theorem search_eq_of_le (h : seg.index.Searchable) (hk : seg.index.vectors.count ≤ k)
    (hk' : seg.index.vectors.count ≤ k') :
    seg.search query k deletions filter = seg.search query k' deletions filter := by
  cases filter with
  | none => rw [search, search, h.search_eq_of_le hk hk']; rfl
  | some filter =>
    have hlive : (List.range seg.index.vectors.count).countP (seg.live deletions (some filter)) ≤
        seg.index.vectors.count := List.countP_le_length.trans_eq List.length_range
    have hall {k : ℕ} (hk : seg.index.vectors.count ≤ k) :
        seg.search query k deletions (some filter) =
          some ((bestFirst seg.index.vectors.metric.higherIsBetter
            (((List.range seg.index.vectors.count).filter (seg.live deletions (some filter))).map
              fun row => (row, seg.index.vectors.score K query row))).map fun r =>
                (seg.globalAt r.1, r.2)) := by
      obtain ⟨rows, hsearch, hids, hlen, hrows, hsort, -⟩ :=
        seg.search_filtered h.inRange h.size query k deletions filter
      rw [min_eq_right (hlive.trans hk)] at hlen
      rw [hsearch, ← eq_bestFirst_of_length hids hlen (fun r hr => ?_) hsort]
      obtain ⟨hlt, hdel, hpass, hscore⟩ := hrows r hr
      exact ⟨hlt, live_iff.mpr ⟨hdel, hpass⟩, hscore⟩
    rw [hall hk, hall hk']

/-- A segment finds no more than its rows. -/
theorem exists_search (h : seg.index.Searchable) (query : List F32) (k : ℕ)
    (deletions : DeletionVector) (filter : Option (GlobalId → Bool)) :
    ∃ found, seg.search query k deletions filter = some found ∧
      found.length ≤ seg.index.vectors.count := by
  obtain ⟨candidates, -, hsearch, hlen⟩ :=
    h.exists_candidates query k 0 (some (seg.live deletions filter))
  refine ⟨_, by rw [search, hsearch]; rfl, ?_⟩
  rw [List.length_map]
  split
  · rw [length_scan]
    exact (min_le_right _ _).trans (List.countP_le_length.trans_eq List.length_range)
  · exact (List.length_take_le' _ _).trans hlen

end SealedSegment

/-! ## Built indexes -/

section Built

variable {config : HnswConfig} {pts : Points} {links : Links}

/-- **A sealed graph stays in range**, if its links can be numbered. -/
theorem inRange_intoGraphLayers (hw : Wired config pts (· < pts.size) links)
    (hnumbered : baseLinks links pts.size < 2 ^ 32) {entry : Option ℕ} {maxLevel : ℕ}
    (hentry : ∀ e, entry = some e → e < pts.size) :
    (intoGraphLayers pts.levels links entry maxLevel).InRange where
  entry := hentry
  links layer _ p hp := by
    refine ⟨_, neighbors_intoGraphLayers pts.countP_levels_lt hnumbered
      (pts.getElem?_levels hp) layer,
      fun q hq => ?_⟩
    split at hq
    · exact (hw.present p layer q hq).1
    · exact absurd hq List.not_mem_nil

variable {vectors : VectorStorage} {lv : Levels vectors.count} {ix : HnswIndex K}

/-- **A built index can be searched**, if its links can be numbered: by the sequential builder, -/
theorem searchable_of_inserts (hm : 1 ≤ config.m) (hm0 : 1 ≤ config.mMax0)
    (hef : 1 ≤ config.efConstruction) {dist : ℕ → ℕ → F32} {b : GraphLayersBuilder}
    (hrun : GraphLayersBuilder.inserts config (lv.points dist) (lv.points dist).size = some b)
    (hnumbered : baseLinks b.links (lv.points dist).size < 2 ^ 32) :
    (HnswIndex.ofGraph (K := K) vectors config
      (b.intoGraphLayers (lv.points dist))).Searchable where
  inRange := by
    obtain ⟨b', hrun', hb⟩ := GraphLayersBuilder.inserts_spec (config.one_le_maxConn hm hm0) hef
      (le_refl (lv.points dist).size)
    obtain rfl : b = b' := Option.some.inj (hrun.symm.trans hrun')
    refine inRange_intoGraphLayers hb.wired hnumbered fun e he => ?_
    rcases Nat.eq_zero_or_pos (lv.points dist).size with hzero | hpos
    · rw [hb.start hzero] at he
      cases he
    · obtain ⟨e', hentry, -, hfirst⟩ := hb.top hpos
      obtain rfl : e = e' := Option.some.inj (he.symm.trans hentry)
      exact hfirst.1
  size := lv.length_levels

/-- or by the concurrent one, under any schedule. -/
theorem searchable_of_builds (hn : 1 ≤ vectors.count) (hm : 1 ≤ config.m) (hm0 : 1 ≤ config.mMax0)
    (hef : 2 ≤ config.efConstruction) {dist : ℕ → ℕ → F32} {s : ConcurrentBuilder}
    (hbuilds : ConcurrentBuilder.Builds config (lv.points dist)
      (Config.anyOrder (S := BuildOps)) s)
    (hnumbered : baseLinks s.links (lv.points dist).size < 2 ^ 32) :
    (HnswIndex.ofGraph (K := K) vectors config
      (s.intoGraphLayers (lv.points dist))).Searchable where
  inRange := by
    have hpos : 1 ≤ (lv.points dist).size := hn.trans_eq lv.length_levels.symm
    obtain ⟨hs, -⟩ := hbuilds.sound hpos (config.one_le_maxConn hm hm0) hef
    refine inRange_intoGraphLayers hs.wired hnumbered fun e he => ?_
    obtain ⟨e', hlt, hentry, -⟩ := hs.entry
    obtain rfl : e = e' := Option.some.inj (he.symm.trans hentry)
    exact hlt
  size := lv.length_levels

end Built

end Vecvec.Hnsw
