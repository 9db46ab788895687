import Vecvec.Hnsw.Parallel
import Vecvec.Index.TopK
import Vecvec.Persist.Sample
import Mathlib.Data.Finset.Sort

/-!
# Hnsw/Index — a segment with its index, and all the data they carry

The vectors are stored flat; the id map is kept in both directions; the index holds the graph, the
int8 copy if it is wanted, and tombstones of its own.  A search of the graph is a greedy descent and
a beam search of layer 0; its candidates are scored again with the exact kernel.
-/

namespace Vecvec

/-! ## Vectors and ids -/

/-- The vectors of a segment, flat and row-major. -/
structure VectorStorage where
  /-- The components, row by row. -/
  data : List F32
  /-- The dimensionality. -/
  dim : ℕ
  /-- The metric they are stored for. -/
  metric : Metric
  /-- The number of rows. -/
  count : ℕ
  /-- Vectors have components. -/
  dim_pos : 0 < dim
  /-- Rows are whole. -/
  length_data : data.length = count * dim

/-- The floating-point kernels of an index: those of the platform, and the int8 copy of the vectors
with the distances it ranks by. -/
structure Kernels extends Platform where
  /-- Normalising is done in place. -/
  length_l2Normalize : ∀ v, (toPlatform.l2Normalize v).length = v.length
  /-- `QuantizedVectorBlock` -/
  Block : Type
  /-- `QuantizedVectorBlock::build` -/
  buildBlock : VectorStorage → Block
  /-- `badness`, of a query encoded by the block's quantizer. -/
  badness : Block → List F32 → ℕ → F32
  /-- `badness_between` -/
  badnessBetween : Block → ℕ → ℕ → F32

theorem Kernels.length_stored (K : Kernels) (m : Metric) (v : List F32) :
    (m.stored K.toPlatform v).length = v.length := by
  rw [Metric.stored]
  split
  · exact K.length_l2Normalize v
  · rfl

namespace VectorStorage

/-- No rows. -/
def new (dim : ℕ) (metric : Metric) (h : 0 < dim) : VectorStorage :=
  ⟨[], dim, metric, 0, h, (Nat.zero_mul dim).symm⟩

/-- `from_flat`; `none` is a failed assertion. -/
def fromFlat (dim : ℕ) (metric : Metric) (data : List F32) : Option VectorStorage :=
  if h : 0 < dim ∧ data.length % dim = 0 then
    some ⟨data, dim, metric, data.length / dim, h.1,
      (Nat.div_mul_cancel (Nat.dvd_of_mod_eq_zero h.2)).symm⟩
  else none

/-- Appends a vector in its stored form; `none` is a failed assertion. -/
def push (K : Kernels) (s : VectorStorage) (vector : List F32) : Option VectorStorage :=
  if h : vector.length = s.dim then
    some { s with
      data := s.data ++ s.metric.stored K.toPlatform vector
      count := s.count + 1
      length_data := by
        rw [List.length_append, s.length_data, K.length_stored, h, Nat.succ_mul] }
  else none

/-- The stored vector of a row. -/
def get (s : VectorStorage) (id : ℕ) : List F32 := (s.data.drop (id * s.dim)).take s.dim

/-- How bad a score is: smaller is closer. -/
def badnessOf (s : VectorStorage) (score : F32) : F32 :=
  if s.metric.higherIsBetter then F32.neg score else score

/-- The exact score of a row. -/
def score (K : Kernels) (s : VectorStorage) (query : List F32) (id : ℕ) : F32 :=
  K.scoreF32 s.metric query (s.get id)

/-- The construction distance between two rows. -/
def distance (K : Kernels) (s : VectorStorage) (a b : ℕ) : F32 :=
  s.badnessOf (s.score K (s.get a) b)

end VectorStorage

/-- A segment's local ids and global ids. -/
structure IdMap where
  /-- The global id of each row. -/
  localToGlobal : List GlobalId
  /-- The row of a global id: a hash map. -/
  globalToLocal : GlobalId → Option ℕ

namespace IdMap

/-- Maps the next row; a row's number is a `u32`. -/
def push (m : IdMap) (g : GlobalId) : IdMap :=
  ⟨m.localToGlobal ++ [g],
    Function.update m.globalToLocal g (some (m.localToGlobal.length % 2 ^ 32))⟩

/-- `new` -/
def empty : IdMap := ⟨[], fun _ => none⟩

/-- `from_global_ids`: the map collected from the ids in their order. -/
def fromGlobalIds (ids : List GlobalId) : IdMap :=
  ⟨ids, ids.zipIdx.foldl (fun m gi => Function.update m gi.1 (some (gi.2 % 2 ^ 32)))
    fun _ => none⟩

/-- A map rebuilt from its ids is the map the ids were pushed to. -/
theorem fromGlobalIds_push (ids : List GlobalId) (g : GlobalId) :
    (fromGlobalIds ids).push g = fromGlobalIds (ids ++ [g]) := by
  rw [fromGlobalIds, fromGlobalIds, push, List.zipIdx_append, List.foldl_append]
  rw [List.zipIdx_singleton, List.foldl_cons, List.foldl_nil, Nat.zero_add]

theorem foldl_push (ids ids' : List GlobalId) :
    ids'.foldl push (fromGlobalIds ids) = fromGlobalIds (ids ++ ids') := by
  induction ids' generalizing ids with
  | nil => rw [List.append_nil, List.foldl_nil]
  | cons g ids' ih => rw [List.foldl_cons, fromGlobalIds_push, ih, List.append_assoc]; rfl

end IdMap

/-- The kernels of the concrete platform, without an int8 copy. -/
noncomputable def Sample.kernels : Kernels where
  toPlatform := platform
  length_l2Normalize := length_l2Normalize
  Block := Unit
  buildBlock _ := ()
  badness _ _ _ := 0
  badnessBetween _ _ _ := 0

namespace Hnsw

/-! ## The graph, searched -/

namespace GraphLayers

section

variable (g : GraphLayers) (layer ef : ℕ) (dist : ℕ → F32) (admits : ℕ → Bool)

/-- The loop of `search_layer` over a sealed graph; `none` is a panic. -/
def searchLoop : ℕ → Beam → Option Beam
  | 0, b => some b
  | fuel + 1, b =>
    match b.pop ef with
    | none => some b
    | some (c, b) => do
      let nbuf ← g.neighbors c layer
      searchLoop fuel (nbuf.foldl (Beam.visit ef dist admits) b)

/-- `search_layer` over a sealed graph. -/
def searchLayer (entryPoints : List ℕ) : Option (List (F32 × ℕ)) :=
  (searchLoop g layer ef dist admits g.levels.length
    (entryPoints.foldl (Beam.enter ef dist admits) Beam.empty)).map Beam.results

end

/-- The greedy descent through the upper layers. -/
def descend (g : GraphLayers) (dist : ℕ → F32) : List ℕ → List ℕ → Option (List ℕ)
  | [], ep => some ep
  | layer :: rest, ep => do
    let w ← g.searchLayer layer 1 dist (fun _ => true) ep
    match w with
    | best :: _ => descend g dist rest [best.2]
    | [] => descend g dist rest ep

/-- `search_ids`: the best `k` admitted points. -/
def searchIds (g : GraphLayers) (dist : ℕ → F32) (k ef : ℕ) (admits : ℕ → Bool) :
    Option (List (F32 × ℕ)) :=
  match g.entry with
  | none => some []
  | some entry => do
    let ep ← g.descend dist (layersAbove 0 g.maxLevel) [entry]
    let w ← g.searchLayer 0 ef dist admits ep
    return w.take k

end GraphLayers

/-! ## The index -/

/-- `RESCORE_OVERSAMPLE`: how many more candidates a quantised search fetches. -/
def rescoreOversample : ℕ := 4

/-- `PARALLEL_MIN`: below this many rows the sequential builder is used. -/
def parallelMin : ℕ := 4096

/-- The levels assigned to `n` rows. -/
structure Levels (n : ℕ) where
  /-- The level of each row. -/
  levels : List ℕ
  /-- Every row has one. -/
  length_levels : levels.length = n
  /-- Rows are numbered by `u32`s. -/
  fits : n < 2 ^ 32
  /-- Levels are clamped. -/
  clamped : ∀ level ∈ levels, level ≤ maxAssignedLevel

/-- The points of a build: the rows, with a distance. -/
def Levels.points {n : ℕ} (lv : Levels n) (dist : ℕ → ℕ → F32) : Points :=
  ⟨lv.levels, dist, lv.length_levels.trans_lt lv.fits, lv.clamped⟩

/-- An HNSW index. -/
structure HnswIndex (K : Kernels) where
  /-- The vectors. -/
  vectors : VectorStorage
  /-- The graph over them. -/
  graph : GraphLayers
  /-- The int8 copy. -/
  quantized : Option K.Block
  /-- Tombstoned rows. -/
  deleted : Finset ℕ
  /-- The configuration it was built with. -/
  config : HnswConfig

namespace HnswIndex

variable {K : Kernels}

/-- An index over a graph, without tombstones. -/
def ofGraph (vectors : VectorStorage) (config : HnswConfig) (graph : GraphLayers) :
    HnswIndex K where
  vectors := vectors
  graph := graph
  quantized := if config.quantization then some (K.buildBlock vectors) else none
  deleted := ∅
  config := config

/-- `build`; `none` is a panic. -/
def build (vectors : VectorStorage) (config : HnswConfig) (lv : Levels vectors.count) :
    Option (HnswIndex K) :=
  (buildGraph config (lv.points (vectors.distance K))).map (ofGraph vectors config)

/-- The construction distance of a concurrent build: that of the int8 copy, if there is one. -/
def distIds (vectors : VectorStorage) (config : HnswConfig) : ℕ → ℕ → F32 :=
  if config.quantization then K.badnessBetween (K.buildBlock vectors) else vectors.distance K

/-- `build_concurrent` may give this index. -/
def BuiltConcurrently (vectors : VectorStorage) (config : HnswConfig) (lv : Levels vectors.count)
    (ix : HnswIndex K) : Prop :=
  ∃ s, ConcurrentBuilder.Builds config (lv.points (distIds (K := K) vectors config))
      (Machinery.Config.anyOrder (S := BuildOps)) s ∧ s.panicked = false ∧
    ix = ofGraph vectors config (s.intoGraphLayers (lv.points (distIds (K := K) vectors config)))

/-- `build_parallel` may give this index. -/
def BuiltParallel (vectors : VectorStorage) (config : HnswConfig) (lv : Levels vectors.count)
    (ix : HnswIndex K) : Prop :=
  if vectors.count < parallelMin then build vectors config lv = some ix
  else BuiltConcurrently vectors config lv ix

/-- `from_parts`: an index over a graph built earlier, its tombstones put back. -/
def fromParts (vectors : VectorStorage) (config : HnswConfig) (graph : GraphLayers)
    (deletedLocals : List ℕ) : HnswIndex K :=
  { ofGraph vectors config graph with
    deleted := deletedLocals.foldl (fun deleted id => insert id deleted) ∅ }

/-- `search`: the best `k` live rows the filter admits, scored exactly; `none` is a panic.
`paramsEf` is the beam width asked for, 0 leaving it to the index. -/
def search (ix : HnswIndex K) (query : List F32) (k paramsEf : ℕ) (filter : Option (ℕ → Bool)) :
    Option (List (ℕ × F32)) :=
  if k = 0 ∨ ix.graph.levels.length = 0 then some []
  else do
    let ef := max (max paramsEf ix.config.efSearch) k
    let admits := fun id => decide (id ∉ ix.deleted) && filter.all fun f => f id
    let badness := fun id => ix.vectors.badnessOf (ix.vectors.score K query id)
    let candidates ← match ix.quantized with
      | some block =>
        let fetch := max (k * rescoreOversample % 2 ^ 64) k
        ix.graph.searchIds (K.badness block query) fetch (max ef fetch) admits
      | none => ix.graph.searchIds badness k ef admits
    let scored := (candidates.map fun c => (badness c.2, c.2)).insertionSort keyLe
    return (scored.take k).map fun key => (key.2, ix.vectors.score K query key.2)

end HnswIndex

/-! ## Segments -/

/-- The mutable segment. -/
structure AppendableSegment where
  /-- The vectors. -/
  vectors : VectorStorage
  /-- The ids. -/
  ids : IdMap

/-- An immutable segment with its index. -/
structure SealedSegment (K : Kernels) where
  /-- The segment's id. -/
  id : SegmentId
  /-- The index. -/
  index : HnswIndex K
  /-- The ids. -/
  ids : IdMap

namespace AppendableSegment

/-- An empty segment. -/
def new (dim : ℕ) (metric : Metric) (h : 0 < dim) : AppendableSegment :=
  ⟨.new dim metric h, .empty⟩

/-- Appends a row. -/
def append (K : Kernels) (s : AppendableSegment) (row : Row) : Option AppendableSegment :=
  (s.vectors.push K row.2).map fun vectors => ⟨vectors, s.ids.push row.1⟩

/-- Appends rows one after another. -/
def appendAll (K : Kernels) (s : AppendableSegment) (rows : List Row) : Option AppendableSegment :=
  rows.foldlM (append K) s

/-- `seal` may give this segment. -/
def Seals {K : Kernels} (s : AppendableSegment) (id : SegmentId) (config : HnswConfig)
    (lv : Levels s.vectors.count) (seg : SealedSegment K) : Prop :=
  HnswIndex.BuiltParallel s.vectors config lv seg.index ∧ seg.id = id ∧ seg.ids = s.ids

end AppendableSegment

namespace SealedSegment

variable {K : Kernels} (seg : SealedSegment K)

/-- Whether a row is live and passes the filter (`SegmentLiveFilter`). -/
def live (deletions : DeletionVector) (filter : Option (GlobalId → Bool)) (row : ℕ) : Bool :=
  let g := seg.ids.localToGlobal.getD row 0
  decide (g ∉ deletions) && filter.all fun f => f g

/-- Whether a global id is mapped. -/
def contains (g : GlobalId) : Bool := (seg.ids.globalToLocal g).isSome

/-- The vector of a global id. -/
def vectorOf (g : GlobalId) : Option (List F32) :=
  (seg.ids.globalToLocal g).map seg.index.vectors.get

/-- Every row, with its global id. -/
def iterPoints : List Row :=
  (List.range seg.index.vectors.count).map fun row =>
    (seg.ids.localToGlobal.getD row 0, seg.index.vectors.get row)

/-- The inclusive range between the first and the last global id. -/
def globalIdRange : Option (GlobalId × GlobalId) :=
  match seg.ids.localToGlobal.head?, seg.ids.localToGlobal.getLast? with
  | some lo, some hi => some (min lo hi, max lo hi)
  | _, _ => none

/-- The exact scan of the rows that are live and pass the filter (`scan_topk`). -/
def scan (query : List F32) (k : ℕ) (live : ℕ → Bool) : List (ℕ × F32) :=
  let vectors := seg.index.vectors
  ((BoundedTopK.new ℕ k vectors.metric.higherIsBetter).offerAll
    (((List.range vectors.count).filter live).map fun row =>
      (row, vectors.score K query row))).intoSorted

/-- `search`: the best live rows by global id; a filter that leaves too few of them in the graph's
reach is answered by a scan. -/
def search (query : List F32) (k : ℕ) (deletions : DeletionVector)
    (filter : Option (GlobalId → Bool)) : Option (List (GlobalId × F32)) := do
  let live := seg.live deletions filter
  let graphResults ← seg.index.search query k 0 (some live)
  let results := if filter.isSome ∧ graphResults.length < k then seg.scan query k live
    else graphResults
  return results.map fun r => (seg.ids.localToGlobal.getD r.1 0, r.2)

end SealedSegment

end Hnsw

end Vecvec
