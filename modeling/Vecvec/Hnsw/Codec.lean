import Mathlib.Data.Countable.Basic
import Mathlib.Logic.Equiv.List
import Vecvec.Hnsw.Index

/-!
# Hnsw/Codec — a sealed segment on disk

A sealed segment is written as a flat record of its parts, sizes cut to 32 bits; the id map, the
tombstone set and the int8 copy are not written but rebuilt.  Decoding what was encoded gives the
segment back, with nothing lost to the casts: the sizes of the configuration fit by assumption, and
the top layer because levels are clamped (`maxLevel_le`).
-/

namespace Vecvec.Hnsw

open Machinery

/-- The serializable mirror of a sealed segment. -/
structure SegmentData where
  dim : ℕ
  metric : ℕ
  m : ℕ
  mMax0 : ℕ
  efConstruction : ℕ
  efSearch : ℕ
  seed : UInt64
  keepPruned : Bool
  quantization : Bool
  vectors : List F32
  globalIds : List ℕ
  deleted : List ℕ
  entry : Option ℕ
  maxLevel : ℕ
  levels : List ℕ
  l0Offsets : List ℕ
  l0Links : List ℕ
  upper : List (List (List ℕ))
  upperIndex : List ℕ

/-- Why a payload is not decoded. -/
inductive DecodeError
  /-- `CoreError::Serialization` -/
  | serialization (detail : String)
  /-- Not an error value of the source: an assertion that fails. -/
  | aborted

/-- MessagePack, at `SegmentData`. -/
structure SegmentCodec where
  /-- `rmp_serde::to_vec` -/
  toVec : SegmentData → List UInt8
  /-- `rmp_serde::from_slice` -/
  fromSlice : List UInt8 → Except String SegmentData
  /-- Decoding undoes encoding. -/
  fromSlice_toVec : ∀ data, fromSlice (toVec data) = .ok data

/-- `metric_to_u8` -/
def metricToU8 : Metric → ℕ
  | .cosine => 0
  | .dot => 1
  | .euclidean => 2

/-- `metric_from_u8` -/
def metricFromU8 : ℕ → Except DecodeError Metric
  | 0 => .ok .cosine
  | 1 => .ok .dot
  | 2 => .ok .euclidean
  | other => .error (.serialization s!"unknown metric tag {other}")

theorem metricFromU8_metricToU8 (m : Metric) : metricFromU8 (metricToU8 m) = .ok m := by
  cases m <;> rfl

section

variable {K : Kernels} (C : SegmentCodec)

/-- The mirror of a segment. -/
def SealedSegment.data (seg : SealedSegment K) : SegmentData :=
  let vectors := seg.index.vectors
  let graph := seg.index.graph
  let cfg := seg.index.config
  { dim := vectors.dim % 2 ^ 32
    metric := metricToU8 vectors.metric
    m := cfg.m % 2 ^ 32
    mMax0 := cfg.mMax0 % 2 ^ 32
    efConstruction := cfg.efConstruction % 2 ^ 32
    efSearch := cfg.efSearch % 2 ^ 32
    seed := cfg.seed
    keepPruned := cfg.keepPruned
    quantization := cfg.quantization
    vectors := vectors.data
    globalIds := seg.ids.localToGlobal
    deleted := seg.index.deleted.sort (· ≤ ·)
    entry := graph.entry
    maxLevel := graph.maxLevel % 2 ^ 32
    levels := graph.levels
    l0Offsets := graph.l0Offsets
    l0Links := graph.l0Links
    upper := graph.upper
    upperIndex := graph.upperIndex }

/-- `encode_segment` -/
def encodeSegment (seg : SealedSegment K) : List UInt8 := C.toVec seg.data

/-- `decode_segment` -/
def decodeSegment (K : Kernels) (id : SegmentId) (bytes : List UInt8) :
    Except DecodeError (SealedSegment K) := do
  let data ← (C.fromSlice bytes).mapError .serialization
  let metric ← metricFromU8 data.metric
  match VectorStorage.fromFlat data.dim metric data.vectors with
  | none => .error .aborted
  | some vectors =>
    let config : HnswConfig :=
      { m := data.m
        mMax0 := data.mMax0
        efConstruction := data.efConstruction
        efSearch := data.efSearch
        seed := data.seed
        keepPruned := data.keepPruned
        quantization := data.quantization }
    let graph : GraphLayers :=
      { entry := data.entry
        maxLevel := data.maxLevel
        levels := data.levels
        l0Offsets := data.l0Offsets
        l0Links := data.l0Links
        upper := data.upper
        upperIndex := data.upperIndex }
    .ok ⟨id, HnswIndex.fromParts vectors config graph data.deleted, .fromGlobalIds data.globalIds⟩

end

/-! ## Decoding undoes encoding -/

/-- The sizes of a configuration fit in 32 bits. -/
structure HnswConfig.Fits (config : HnswConfig) : Prop where
  m : config.m < 2 ^ 32
  mMax0 : config.mMax0 < 2 ^ 32
  efConstruction : config.efConstruction < 2 ^ 32
  efSearch : config.efSearch < 2 ^ 32

variable {K : Kernels}

/-- **What is rebuilt on decoding** is what a sealed segment holds. -/
structure SealedSegment.Intact (seg : SealedSegment K) : Prop where
  /-- The id map is the one its global ids make. -/
  ids : seg.ids = .fromGlobalIds seg.ids.localToGlobal
  /-- The int8 copy is there if it is wanted, made from the vectors. -/
  quantized : seg.index.quantized =
    if seg.index.config.quantization then some (K.buildBlock seg.index.vectors) else none
  /-- The top layer fits. -/
  maxLevel : seg.index.graph.maxLevel < 2 ^ 32

/-- A storage is rebuilt from its components. -/
theorem fromFlat_data (s : VectorStorage) :
    VectorStorage.fromFlat s.dim s.metric s.data = some s := by
  obtain ⟨data, dim, metric, count, hdim, hlen⟩ := s
  have hmod : data.length % dim = 0 := by rw [hlen]; exact Nat.mul_mod_left count dim
  rw [VectorStorage.fromFlat, dif_pos ⟨hdim, hmod⟩]
  congr
  rw [hlen]
  exact Nat.mul_div_cancel count hdim

/-- Tombstones put back one by one. -/
theorem foldl_insert_sort (deleted : Finset ℕ) :
    (deleted.sort (· ≤ ·)).foldl (fun deleted id => insert id deleted) ∅ = deleted := by
  have hfold (l : List ℕ) (d : Finset ℕ) :
      l.foldl (fun deleted id => insert id deleted) d = d ∪ l.toFinset := by
    induction l generalizing d with
    | nil => rw [List.foldl_nil, List.toFinset_nil, Finset.union_empty]
    | cons x l ih =>
      rw [List.foldl_cons, ih, List.toFinset_cons, Finset.insert_union, Finset.union_insert]
  rw [hfold, Finset.sort_toFinset, Finset.empty_union]

/-- **Decoding an intact segment** gives it back, under the id it is decoded for. -/
theorem SealedSegment.Intact.decode {seg : SealedSegment K} (h : seg.Intact) (C : SegmentCodec)
    (hdim : seg.index.vectors.dim < 2 ^ 32) (hconfig : seg.index.config.Fits) (id : SegmentId) :
    decodeSegment C K id (encodeSegment C seg) = .ok { seg with id := id } := by
  obtain ⟨segId, ⟨vectors, graph, quantized, deleted, config⟩, ids⟩ := seg
  obtain ⟨hids, hquantized, hlevel⟩ := h
  dsimp only at hids hquantized hlevel hdim hconfig
  rw [decodeSegment, encodeSegment, C.fromSlice_toVec]
  change (metricFromU8 (metricToU8 vectors.metric) >>= _) = _
  rw [metricFromU8_metricToU8]
  change (match VectorStorage.fromFlat (vectors.dim % 2 ^ 32) vectors.metric vectors.data with
    | none => _ | some vectors => _) = _
  rw [Nat.mod_eq_of_lt hdim, fromFlat_data]
  simp only [SealedSegment.data, HnswIndex.fromParts, HnswIndex.ofGraph, foldl_insert_sort,
    Nat.mod_eq_of_lt hconfig.m, Nat.mod_eq_of_lt hconfig.mMax0,
    Nat.mod_eq_of_lt hconfig.efConstruction, Nat.mod_eq_of_lt hconfig.efSearch,
    Nat.mod_eq_of_lt hlevel]
  rw [← hids, ← hquantized]

/-! ## The top layer fits

Whatever the configuration, a builder's top layer is 0 or the level of some point. -/

theorem Points.level_le (pts : Points) (p : ℕ) : pts.level p ≤ maxAssignedLevel := by
  rw [Points.level, List.getD_eq_getElem?_getD]
  cases h : pts.levels[p]? with
  | none => exact Nat.zero_le _
  | some level => exact pts.clamped level (List.mem_of_getElem? h)

/-- What every step keeps holds at the end of a fold that succeeds. -/
theorem foldlM_inv {α β : Type} {f : β → α → Option β} {J : β → Prop}
    (hJ : ∀ b a b', J b → f b a = some b' → J b') {l : List α} {b b' : β} (hb : J b)
    (h : l.foldlM f b = some b') : J b' := by
  induction l generalizing b with
  | nil =>
    cases h
    exact hb
  | cons a l ih =>
    rw [List.foldlM_cons, Option.bind_eq_bind, Option.bind_eq_some_iff] at h
    obtain ⟨b₁, hstep, h⟩ := h
    exact ih (hJ b a b₁ hb hstep) h

namespace GraphLayersBuilder

variable {config : HnswConfig} {pts : Points} {i : ℕ} {b b' : GraphLayersBuilder}

theorem maxLevel_linkBack {layer nb : ℕ} (h : linkBack config pts i layer b nb = some b') :
    b'.maxLevel = b.maxLevel := by
  rw [linkBack] at h
  split at h <;> cases h
  rfl

theorem maxLevel_connect {s s' : GraphLayersBuilder × List ℕ} {layer : ℕ}
    (h : connect config pts i s layer = some s') : s'.1.maxLevel = s.1.maxLevel := by
  obtain ⟨b₁, hback, hret⟩ := Option.bind_eq_some_iff.mp h
  cases hret
  exact foldlM_inv (J := fun b => b.maxLevel = s.1.maxLevel)
    (fun _ _ _ hb hstep => (maxLevel_linkBack hstep).trans hb) rfl hback

theorem maxLevel_insert_le (hb : b.maxLevel ≤ maxAssignedLevel)
    (h : insert config pts i b = some b') : b'.maxLevel ≤ maxAssignedLevel := by
  rw [insert] at h
  split at h
  · cases h
    exact pts.level_le i
  · obtain ⟨⟨b₁, ep⟩, hconnect, h⟩ := Option.bind_eq_some_iff.mp h
    have hb₁ : b₁.maxLevel = b.maxLevel := foldlM_inv (J := fun s => s.1.maxLevel = b.maxLevel)
      (fun _ _ _ hb hstep => (maxLevel_connect hstep).trans hb) rfl hconnect
    dsimp only at h
    split at h <;> cases h
    · exact pts.level_le i
    · exact hb₁.trans_le hb

theorem maxLevel_inserts_le {k : ℕ} (h : inserts config pts k = some b) :
    b.maxLevel ≤ maxAssignedLevel :=
  foldlM_inv (J := fun b => b.maxLevel ≤ maxAssignedLevel)
    (fun _ _ _ hb hstep => maxLevel_insert_le hb hstep) (Nat.zero_le _) h

end GraphLayersBuilder

namespace ConcurrentBuilder

variable {config : HnswConfig} {pts : Points} {s : ConcurrentBuilder}

/-- Raising the entry to a level no point exceeds. -/
def Low : BuildOp → Prop
  | .raiseEntry _ level => level ≤ maxAssignedLevel
  | _ => True

theorem low_searchLayer (point layer ef : ℕ) (ep : List ℕ) :
    (searchLayer pts point layer ef ep).Only Low := by
  have hloop (fuel : ℕ) (b : Beam) : (searchLoop layer ef (pts.dist point) fuel b).Only Low := by
    induction fuel generalizing b with
    | zero => trivial
    | succ fuel ih =>
      rw [searchLoop]
      split
      · trivial
      · exact ⟨trivial, fun nbuf => ih _⟩
  exact (hloop _ _).bind fun _ => trivial

theorem low_descend (point : ℕ) (layers ep : List ℕ) : (descend pts point layers ep).Only Low := by
  induction layers generalizing ep with
  | nil => trivial
  | cons layer rest ih =>
    refine (low_searchLayer point layer 1 ep).bind fun w => ?_
    split
    · exact ih _
    · exact ih _

theorem low_connect (point layer : ℕ) (ep : List ℕ) :
    (connect config pts point layer ep).Only Low := by
  have hpush (l : List ℕ) : Prog.Only (S := BuildOps) Low
      (l.forM fun nb => Prog.perform (S := BuildOps) (.pushBack nb layer point)) := by
    induction l with
    | nil => trivial
    | cons nb l ih => exact ⟨trivial, fun _ => ih⟩
  refine (low_searchLayer point layer _ ep).bind fun w => ⟨trivial, fun _ => ?_⟩
  exact (hpush _).bind fun _ => trivial

theorem low_connectAll (point : ℕ) (layers ep : List ℕ) :
    (connectAll config pts point layers ep).Only Low := by
  induction layers generalizing ep with
  | nil => trivial
  | cons layer rest ih => exact (low_connect point layer ep).bind fun ep => ih ep

theorem low_insert (point : ℕ) : (insert config pts point).Only Low := by
  refine ⟨trivial, fun (e : Option (ℕ × ℕ)) => ?_⟩
  cases e with
  | none => trivial
  | some e =>
    obtain ⟨entry, startLevel⟩ := e
    refine (low_descend point _ _).bind fun ep => (low_connectAll point _ ep).bind fun _ => ?_
    by_cases hlt : startLevel < pts.level point
    · simp only [hlt]
      exact ⟨pts.level_le point, fun _ => trivial⟩
    · simp only [hlt]
      trivial

/-- **The top layer of a concurrent build** is never above the levels. -/
theorem Builds.maxLevel_le {allow : ℕ → BuildOp → ConcurrentBuilder → Prop}
    (h : Builds config pts allow s) : s.maxLevel ≤ maxAssignedLevel := by
  obtain ⟨pool, hsteps, -⟩ := h
  have hstart : (seeded pts).maxLevel ≤ maxAssignedLevel := by
    rw [seeded]
    split
    · exact Nat.zero_le _
    · exact pts.level_le 0
  have howes (t : ℕ) (o : BuildOp) (ho : Low o) :
      Owes (step config pts) allow (fun s => s.maxLevel ≤ maxAssignedLevel) (fun _ _ _ => True) t
        (fun _ => True) o fun _ _ => True := by
    rintro s r s' hI - - hst
    refine ⟨?_, fun _ _ => trivial, trivial⟩
    cases o with
    | readEntry =>
      cases hst
      exact hI
    | readLinks c layer =>
      change (if c < pts.size then some _ else some _) = some (r, s') at hst
      split at hst <;> cases hst <;> exact hI
    | mergeOwn point layer selected =>
      cases hst
      rw [ConcurrentBuilder.write]
      split <;> exact hI
    | pushBack nb layer point =>
      cases hst
      rw [ConcurrentBuilder.write]
      split <;> exact hI
    | raiseEntry point level =>
      cases hst
      split
      · exact ho
      · exact hI
  have hsafe : Config.Safe (step config pts) allow (fun s => s.maxLevel ≤ maxAssignedLevel)
      (fun _ _ _ => True) (fun _ (_ : Unit) _ => True) ⟨seeded pts, calls config pts⟩ := by
    refine ⟨hstart, fun t => ?_⟩
    have honly : (calls config pts t).Only Low := by
      rw [calls]
      split
      · exact low_insert t
      · trivial
    exact Triple.only honly (howes t) _ hstart trivial
  exact (Config.safe_of_steps (fun _ _ => trivial) (fun _ _ _ _ _ _ => trivial) hsafe hsteps).inv

end ConcurrentBuilder

/-! ## Sealing -/

/-- Appending keeps the id map in step with its ids. -/
theorem AppendableSegment.ids_appendAll {rows : List Row} {s s' : AppendableSegment}
    (hs : s.ids = .fromGlobalIds s.ids.localToGlobal) (h : s.appendAll K rows = some s') :
    s'.ids = .fromGlobalIds s'.ids.localToGlobal := by
  refine foldlM_inv (J := fun s => s.ids = .fromGlobalIds s.ids.localToGlobal) ?_ hs h
  intro s row s' hs hstep
  obtain ⟨vectors, -, rfl⟩ := Option.map_eq_some_iff.mp hstep
  change s.ids.push row.1 = .fromGlobalIds (s.ids.localToGlobal ++ [row.1])
  rw [← IdMap.fromGlobalIds_push, ← hs]

/-- Appending keeps the dimensionality. -/
theorem AppendableSegment.dim_appendAll {rows : List Row} {s s' : AppendableSegment}
    (h : s.appendAll K rows = some s') : s'.vectors.dim = s.vectors.dim := by
  refine foldlM_inv (J := fun s' => s'.vectors.dim = s.vectors.dim) ?_ rfl h
  intro s₁ row s₂ hs hstep
  obtain ⟨vectors, hpush, rfl⟩ := Option.map_eq_some_iff.mp hstep
  rw [VectorStorage.push] at hpush
  split at hpush <;> cases hpush
  exact hs

/-- **A sealed segment is intact**, whatever its tombstones. -/
theorem AppendableSegment.Seals.intact {s : AppendableSegment} {id : SegmentId}
    {config : HnswConfig} {lv : Levels s.vectors.count} {seg : SealedSegment K}
    (h : s.Seals id config lv seg) (hs : s.ids = .fromGlobalIds s.ids.localToGlobal)
    (deleted : Finset ℕ) :
    seg.index.config = config ∧ seg.index.vectors = s.vectors ∧
      SealedSegment.Intact { seg with index := { seg.index with deleted := deleted } } := by
  obtain ⟨hbuilt, -, hids⟩ := h
  obtain ⟨graph, hgraph, hindex⟩ : ∃ graph : GraphLayers, graph.maxLevel ≤ maxAssignedLevel ∧
      seg.index = HnswIndex.ofGraph s.vectors config graph := by
    rw [HnswIndex.BuiltParallel] at hbuilt
    split at hbuilt
    · obtain ⟨graph, hbuild, hindex⟩ := Option.map_eq_some_iff.mp hbuilt
      obtain ⟨b, hb, rfl⟩ := Option.map_eq_some_iff.mp hbuild
      exact ⟨_, GraphLayersBuilder.maxLevel_inserts_le hb, hindex.symm⟩
    · obtain ⟨b, hb, -, hindex⟩ := hbuilt
      exact ⟨_, hb.maxLevel_le, hindex⟩
  rw [hindex]
  refine ⟨rfl, rfl, ?_, rfl, hgraph.trans_lt (by decide)⟩
  change seg.ids = .fromGlobalIds seg.ids.localToGlobal
  rw [hids]
  exact hs

/-- Two segments that answer every question alike. -/
structure SealedSegment.Alike (seg seg' : SealedSegment K) : Prop where
  search : ∀ query k deletions filter,
    seg'.search query k deletions filter = seg.search query k deletions filter
  vectorOf : ∀ g, seg'.vectorOf g = seg.vectorOf g
  contains : ∀ g, seg'.contains g = seg.contains g
  globalIdRange : seg'.globalIdRange = seg.globalIdRange
  iterPoints : seg'.iterPoints = seg.iterPoints

/-- **Decoding a persisted segment gives the segment back**: the same rows, ids, graph,
configuration and tombstones, and with them the same answers. -/
theorem decodeSegment_encodeSegment (K : Kernels) (C : SegmentCodec) (dim : ℕ) (hdim : 0 < dim)
    (hdim32 : dim < 2 ^ 32) (metric : Metric) (rows : List Row) (s : AppendableSegment)
    (hrows : (AppendableSegment.new dim metric hdim).appendAll K rows = some s)
    (config : HnswConfig) (hconfig : config.Fits) (lv : Levels s.vectors.count) (id : SegmentId)
    (seg : SealedSegment K) (hseals : s.Seals id config lv seg) (deleted : Finset ℕ)
    (id' : SegmentId) :
    let persisted : SealedSegment K := { seg with index := { seg.index with deleted := deleted } }
    ∃ seg', decodeSegment C K id' (encodeSegment C persisted) = .ok seg' ∧ seg'.id = id' ∧
      seg'.index = persisted.index ∧ seg'.ids = persisted.ids ∧ persisted.Alike seg' := by
  intro persisted
  have hids := AppendableSegment.ids_appendAll (K := K) (IdMap.foldl_push [] []).symm hrows
  obtain ⟨rfl, hvectors, hintact⟩ := hseals.intact hids deleted
  have hdim' : persisted.index.vectors.dim = dim := by
    change seg.index.vectors.dim = dim
    rw [hvectors]
    exact AppendableSegment.dim_appendAll hrows
  exact ⟨_, hintact.decode C (hdim' ▸ hdim32) hconfig id', rfl, rfl, rfl,
    ⟨fun _ _ _ _ => rfl, fun _ => rfl, fun _ => rfl, rfl, rfl⟩⟩

/-! ## A codec

It writes the MessagePack bytes of one segment, of a single row, and gives every other record some
code of its own. -/

/-- A segment of one row, the vector 0 under the id 7. -/
def oneRow : SegmentData where
  dim := 1
  metric := 1
  m := 2
  mMax0 := 2
  efConstruction := 4
  efSearch := 64
  seed := 0
  keepPruned := true
  quantization := false
  vectors := [0]
  globalIds := [7]
  deleted := []
  entry := some 0
  maxLevel := 0
  levels := [0]
  l0Offsets := [0, 0]
  l0Links := []
  upper := []
  upperIndex := [noSlot]

/-- Its bytes: an array of nineteen fields. -/
def oneRowBytes : List UInt8 :=
  [0xdc, 0x00, 0x13, 0x01, 0x01, 0x02, 0x02, 0x04, 0x40, 0x00, 0xc3, 0xc2, 0x91, 0xca, 0x00, 0x00,
    0x00, 0x00, 0x91, 0x07, 0x90, 0x00, 0x00, 0x91, 0x00, 0x92, 0x00, 0x00, 0x90, 0x90, 0x91, 0xce,
    0xff, 0xff, 0xff, 0xff]

instance : Countable F32 :=
  Function.Injective.countable (f := BitVec.toNat) fun _ _ => BitVec.eq_of_toNat_eq

instance : Countable SegmentData := by
  refine Function.Injective.countable (β := (ℕ × ℕ × ℕ × ℕ × ℕ × ℕ × ℕ × Bool × Bool) ×
    (List F32 × List ℕ × List ℕ × Option ℕ × ℕ) ×
    List ℕ × List ℕ × List ℕ × List (List (List ℕ)) × List ℕ) (f := fun d =>
    ((d.dim, d.metric, d.m, d.mMax0, d.efConstruction, d.efSearch, d.seed.toNat, d.keepPruned,
      d.quantization), (d.vectors, d.globalIds, d.deleted, d.entry, d.maxLevel),
      d.levels, d.l0Offsets, d.l0Links, d.upper, d.upperIndex)) fun a b h => ?_
  cases a
  cases b
  simp_all [UInt64.toNat_inj]

open Classical in
/-- The encoder: `0xc1`, which MessagePack never uses, begins the codes of the other records. -/
noncomputable def toVecSample (data : SegmentData) : List UInt8 :=
  if data = oneRow then oneRowBytes
  else 0xc1 :: List.replicate ((exists_injective_nat SegmentData).choose data) 0

theorem toVecSample_injective : Function.Injective toVecSample := by
  intro a b h
  rw [toVecSample, toVecSample] at h
  split at h <;> split at h
  · exact ‹a = oneRow›.trans ‹b = oneRow›.symm
  · exact absurd (List.cons.inj h).1 (by decide)
  · exact absurd (List.cons.inj h).1 (by decide)
  · have hlen := congrArg List.length (List.cons.inj h).2
    rw [List.length_replicate, List.length_replicate] at hlen
    exact (exists_injective_nat SegmentData).choose_spec hlen

open Classical in
/-- The codec. -/
noncomputable def codecSample : SegmentCodec where
  toVec := toVecSample
  fromSlice bytes := if h : ∃ data, toVecSample data = bytes then .ok h.choose
    else .error "invalid payload"
  fromSlice_toVec data := by
    have h : ∃ data', toVecSample data' = toVecSample data := ⟨data, rfl⟩
    rw [dif_pos h, toVecSample_injective h.choose_spec]

/-- The configuration of the segment of one row. -/
def oneRowConfig : HnswConfig := ⟨2, 2, 4, 64, 0, true, false⟩

/-- Four rows: 1, 7, 3 and 2. -/
def fourRows : AppendableSegment :=
  ⟨⟨[0x3f800000, 0x40e00000, 0x40400000, 0x40000000], 1, .euclidean, 4, Nat.one_pos, rfl⟩,
    .fromGlobalIds [7, 9, 8, 3]⟩

/-- One of them is on two layers. -/
def fourLevels : Levels fourRows.vectors.count := ⟨[0, 1, 0, 0], rfl, by decide, by decide⟩

/-- The four rows sealed, one of them tombstoned, persisted and decoded under another id. -/
theorem decodeSegment_fourRows :
    ∃ seg : SealedSegment Sample.kernels, seg.data.globalIds = [7, 9, 8, 3] ∧
      seg.data.levels = [0, 1, 0, 0] ∧ seg.data.l0Links = [3, 2, 0, 2, 3, 1, 0, 2] ∧
      ∃ seg', decodeSegment codecSample Sample.kernels 5 (encodeSegment codecSample
          { seg with index := { seg.index with deleted := {1} } }) = .ok seg' ∧
        seg'.id = 5 ∧ seg'.index = { seg.index with deleted := {1} } ∧ seg'.ids = seg.ids ∧
        SealedSegment.Alike { seg with index := { seg.index with deleted := {1} } } seg' := by
  obtain ⟨ix, hix, hlevels, hlinks⟩ :
      ∃ ix ∈ HnswIndex.build (K := Sample.kernels) fourRows.vectors oneRowConfig fourLevels,
        ix.graph.levels = [0, 1, 0, 0] ∧ ix.graph.l0Links = [3, 2, 0, 2, 3, 1, 0, 2] := by
    decide +kernel
  have hrows : (AppendableSegment.new 1 .euclidean Nat.one_pos).appendAll Sample.kernels
      [(7, [0x3f800000]), (9, [0x40e00000]), (8, [0x40400000]), (3, [0x40000000])] =
        some fourRows := rfl
  have hseals : fourRows.Seals 3 oneRowConfig fourLevels
      (⟨3, ix, fourRows.ids⟩ : SealedSegment Sample.kernels) :=
    ⟨by rw [HnswIndex.BuiltParallel, if_pos (by decide)]; exact hix, rfl, rfl⟩
  exact ⟨⟨3, ix, fourRows.ids⟩, rfl, hlevels, hlinks, decodeSegment_encodeSegment _ codecSample 1
    Nat.one_pos (by decide) .euclidean _ fourRows hrows oneRowConfig
    ⟨by decide, by decide, by decide, by decide⟩ fourLevels 3 _ hseals {1} 5⟩

end Vecvec.Hnsw
