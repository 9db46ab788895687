import Mathlib.Algebra.Order.BigOperators.Group.List
import Vecvec.Collection.Recommend
import Vecvec.Hnsw.Fetch
import Vecvec.Quantization.Rescore

/-!
# Collection/Limits — how many results a request may ask for

The limit of a request is not checked.  A search passes it to each index; a recommendation adds the
number of the positive examples first.  So **a limit is handled exactly up to where a product or the
sum leaves the range of a `usize`** (`limits_handled_iff`): beyond it a checked build panics, and
another may fetch too little (`recommend_wraps`).
-/

namespace Vecvec

open Machinery Hnsw Quantization

/-- The kernels of an index, with the arithmetic of a recommendation. -/
structure Numerics extends Kernels, Arithmetic

/-- A collection with the indexes of its segments. -/
structure IndexedCollection (N : Numerics) where
  /-- The working sealed segments. -/
  working : List (Hnsw.SealedSegment N.toKernels)
  /-- The mutable segment. -/
  appendable : Hnsw.AppendableSegment
  /-- The live deletion vector. -/
  workingDeletions : DeletionVector
  /-- The payloads. -/
  payloads : PayloadMap
  /-- Every index can be searched. -/
  searchable : ∀ seg ∈ working, seg.index.Searchable

/-- `AppendableSegment::search`: an exact scan, by global id (`search_local`). -/
def Hnsw.AppendableSegment.search (K : Kernels) (seg : AppendableSegment) (query : List F32) (k : ℕ)
    (deletions : DeletionVector) (filter : Option (GlobalId → Bool)) : List (GlobalId × F32) :=
  let live := fun row =>
    let g := seg.ids.localToGlobal.getD row 0
    decide (g ∉ deletions) && filter.all fun f => f g
  (seg.vectors.scanTopk K seg.vectors.metric query k none (some live)).map fun r =>
    (seg.ids.localToGlobal.getD r.1 0, r.2)

namespace IndexedCollection

variable {N : Numerics} (cfg : CollectionConfig) (checked : Bool) (c : IndexedCollection N)

/-! ## The calls -/

/-- `search`; `none` is a panic. -/
def search (query : List F32) (k : ℕ) (filter : Option (Option Payload → Bool)) :
    Option (Except CoreError (List (GlobalId × F32))) :=
  if query.length ≠ cfg.dim then some (.error (.dimensionMismatch cfg.dim query.length))
  else do
    let fq := filter.map fun f g => f (c.payloads g)
    let merger ← c.working.foldlM (fun (merger : BoundedTopK GlobalId) seg => do
      let found ← seg.searchIn checked query k c.workingDeletions fq
      return merger.offerAll found) (.new GlobalId k cfg.metric.higherIsBetter)
    return .ok (mergeFinalize
      (merger.offerAll (c.appendable.search N.toKernels query k c.workingDeletions fq)))

/-- `get_vector` -/
def getVector (id : GlobalId) : Option (List F32) :=
  match (c.appendable.ids.globalToLocal id).map c.appendable.vectors.get with
  | some v => some v
  | none => c.working.findSome? fun seg => seg.vectorOf id

/-- The vectors found under some ids added up, and their number. -/
def sumExamples (ids : List GlobalId) : List F32 × ℕ :=
  ids.foldl (fun sum id =>
    match c.getVector id with
    | some v => (zipInto N.add sum.1 v, sum.2 + 1)
    | none => sum) (List.replicate cfg.dim 0, 0)

/-- `recommend`; `none` is a panic. -/
def recommend (positive negative : List GlobalId) (k : ℕ)
    (filter : Option (Option Payload → Bool)) :
    Option (Except CoreError (List (GlobalId × F32))) :=
  let (query, np) := c.sumExamples cfg positive
  let (neg, nn) := c.sumExamples cfg negative
  if np + nn = 0 then
    some (.error (.version "recommend: no resolvable example points"))
  else do
    let exclude := positive.toFinset
    let limit ← addUsize checked k exclude.card
    let results ← c.search cfg checked (Collection.exampleQuery N.toArithmetic cfg query np neg nn)
      limit filter
    return results.map fun results => (results.filter fun r => r.1 ∉ exclude).take k

/-- The number of rows. -/
def totalRows : ℕ :=
  (c.working.map fun seg => seg.index.vectors.count).sum + c.appendable.vectors.count

/-- Every index can be asked for that many. -/
def Fits (k : ℕ) : Prop := ∀ seg ∈ c.working, seg.index.Fits k

/-! ## The merge -/

/-- What the segments offer the merge. -/
def offers (query : List F32) (k : ℕ) (filter : Option (Option Payload → Bool)) :
    List (GlobalId × F32) :=
  let fq := filter.map fun f g => f (c.payloads g)
  (c.working.flatMap fun seg => (seg.search query k c.workingDeletions fq).getD []) ++
    c.appendable.search N.toKernels query k c.workingDeletions fq

variable {cfg checked c} {query : List F32} {k k' : ℕ} {filter : Option (Option Payload → Bool)}
  {positive negative : List GlobalId}

theorem Fits.of_le (h : c.Fits k) (hle : k' ≤ k) : c.Fits k' := fun seg hseg =>
    (h seg hseg).of_le hle

theorem foldlM_offerAll {α : Type} {l : List α} {f : α → Option (List (GlobalId × F32))}
    {found : α → List (GlobalId × F32)} (h : ∀ a ∈ l, f a = some (found a))
    (merger : BoundedTopK GlobalId) :
    l.foldlM (fun (merger : BoundedTopK GlobalId) a => do
      let found ← f a
      return merger.offerAll found) merger = some (merger.offerAll (l.flatMap found)) := by
  induction l generalizing merger with
  | nil => rfl
  | cons a l ih =>
    obtain ⟨ha, hl⟩ := List.forall_mem_cons.mp h
    rw [List.foldlM_cons, ha, List.flatMap_cons, BoundedTopK.offerAll, List.foldl_append]
    exact ih hl _

theorem foldlM_eq_none {α β : Type} {l : List α} {f : β → α → Option β} {a : α} (ha : a ∈ l)
    (h : ∀ b, f b a = none) (b : β) : l.foldlM f b = none := by
  induction l generalizing b with
  | nil => exact absurd ha List.not_mem_nil
  | cons a' l ih =>
    rw [List.foldlM_cons]
    rcases List.mem_cons.mp ha with rfl | ha
    · rw [h]
      rfl
    · cases f b a' with
      | none => rfl
      | some b' => exact ih ha b'

/-- **Without overflow**, a search merges what its segments offer. -/
theorem search_of_fits (hdim : query.length = cfg.dim) (h : c.Fits k) :
    c.search cfg checked query k filter = some (.ok (keepFirst []
      ((bestFirst cfg.metric.higherIsBetter (c.offers query k filter)).take k))) := by
  have hfound : ∀ seg ∈ c.working, seg.searchIn checked query k c.workingDeletions
      (filter.map fun f g => f (c.payloads g)) = some ((seg.search query k c.workingDeletions
        (filter.map fun f g => f (c.payloads g))).getD []) := by
    intro seg hseg
    obtain ⟨found, hsearch, -⟩ := SealedSegment.exists_search (c.searchable seg hseg) query k
      c.workingDeletions (filter.map fun f g => f (c.payloads g))
    rw [SealedSegment.searchIn_of_fits (h seg hseg), hsearch]
    rfl
  rw [search, if_neg (not_not_intro hdim)]
  dsimp only
  rw [foldlM_offerAll hfound, Option.bind_eq_bind, Option.bind_some]
  refine congrArg (fun l => some (Except.ok (keepFirst [] l))) ?_
  rw [← intoSorted_offerAll, offers, BoundedTopK.offerAll, BoundedTopK.offerAll,
    BoundedTopK.offerAll,
    List.foldl_append]

/-- **An overflow in one segment** is a panic of the search, where it is checked. -/
theorem search_true (hdim : query.length = cfg.dim) (h : ¬ c.Fits k) :
    c.search cfg true query k filter = none := by
  obtain ⟨seg, hseg, hover⟩ := not_forall₂.mp h
  rw [search, if_neg (not_not_intro hdim)]
  dsimp only
  rw [foldlM_eq_none hseg fun merger => by rw [SealedSegment.searchIn_true hover]; rfl]
  rfl

/-! ## More than there are -/

theorem length_search_appendable_le : (c.appendable.search N.toKernels query k c.workingDeletions
    (filter.map fun f g => f (c.payloads g))).length ≤ c.appendable.vectors.count := by
  rw [AppendableSegment.search, List.length_map, VectorStorage.scanTopk_eq]
  refine (List.length_take_le' _ _).trans ?_
  rw [(perm_bestFirst _ _).length_eq, VectorStorage.scored, List.length_map]
  exact (List.length_filter_le _ _).trans_eq List.length_range

/-- The segments offer no more than their rows. -/
theorem length_offers_le : (c.offers query k filter).length ≤ c.totalRows := by
  rw [offers, List.length_append, totalRows, List.length_flatMap]
  refine Nat.add_le_add (List.sum_le_sum fun seg hseg => ?_) length_search_appendable_le
  obtain ⟨found, hsearch, hlen⟩ := SealedSegment.exists_search (c.searchable seg hseg) query k
    c.workingDeletions (filter.map fun f g => f (c.payloads g))
  rw [hsearch]
  exact hlen

theorem count_le_totalRows {seg : Hnsw.SealedSegment N.toKernels} (h : seg ∈ c.working) :
    seg.index.vectors.count ≤ c.totalRows :=
  (List.le_sum_of_mem (List.mem_map_of_mem (f := fun seg => seg.index.vectors.count) h)).trans
    (Nat.le_add_right _ _)

/-- Asked for more than there are rows, they offer what they offer asked for all of them. -/
theorem offers_eq_of_le (hk : c.totalRows ≤ k) (hk' : c.totalRows ≤ k') :
    c.offers query k filter = c.offers query k' filter := by
  have happ {k : ℕ} (hk : c.totalRows ≤ k) : c.appendable.search N.toKernels query k
      c.workingDeletions (filter.map fun f g => f (c.payloads g)) =
      c.appendable.search N.toKernels query c.totalRows c.workingDeletions
        (filter.map fun f g => f (c.payloads g)) := by
    have hlen (live : Option (ℕ → Bool)) : (bestFirst c.appendable.vectors.metric.higherIsBetter
        (c.appendable.vectors.scored N.toKernels c.appendable.vectors.metric query none
          live)).length ≤ c.totalRows := by
      rw [(perm_bestFirst _ _).length_eq, VectorStorage.scored, List.length_map]
      exact (List.length_filter_le _ _).trans (List.length_range.le.trans (Nat.le_add_left _ _))
    rw [AppendableSegment.search, AppendableSegment.search, VectorStorage.scanTopk_eq,
      VectorStorage.scanTopk_eq, List.take_of_length_le ((hlen _).trans hk),
      List.take_of_length_le (hlen _)]
  rw [offers, offers, happ hk, happ hk']
  refine congrArg (· ++ _) (List.flatMap_congr fun seg hseg => ?_)
  rw [SealedSegment.search_eq_of_le (c.searchable seg hseg) ((count_le_totalRows hseg).trans hk)
    ((count_le_totalRows hseg).trans hk')]

theorem length_keepFirst_le (seen : List GlobalId) (l : List (GlobalId × F32)) :
    (keepFirst seen l).length ≤ l.length := by
  induction l generalizing seen with
  | nil => exact le_rfl
  | cons r l ih =>
    rw [keepFirst]
    split
    · exact (ih seen).trans (Nat.le_succ _)
    · exact Nat.succ_le_succ (ih _)

/-- **A collection is searched** for more results than it has rows as for all of them. -/
theorem exists_search (hdim : query.length = cfg.dim) (hk : c.totalRows ≤ k) :
    ∃ results, results.length ≤ c.totalRows ∧ ∀ checked k', c.totalRows ≤ k' → c.Fits k' →
      c.search cfg checked query k' filter = some (.ok results) := by
  have hlen {k : ℕ} : (bestFirst cfg.metric.higherIsBetter (c.offers query k filter)).length ≤
      c.totalRows := (perm_bestFirst _ _).length_eq.le.trans length_offers_le
  refine ⟨keepFirst [] (bestFirst cfg.metric.higherIsBetter (c.offers query k filter)),
    (length_keepFirst_le _ _).trans hlen, fun checked k' hk' hfits => ?_⟩
  rw [search_of_fits hdim hfits, offers_eq_of_le hk' hk, List.take_of_length_le (hlen.trans hk')]

/-- **A search handles a limit** exactly if every index does. -/
theorem handlesLimit_search_iff :
    HandlesLimit (Except.map List.length) c.totalRows k (fun checked k =>
      c.search cfg checked query k filter) ↔ query.length ≠ cfg.dim ∨ c.Fits k := by
  by_cases hdim : query.length = cfg.dim
  · rw [or_iff_right (not_not_intro hdim)]
    refine ⟨fun h => ?_, fun h => .of_eq (fun checked => ⟨_, search_of_fits hdim h⟩)
      fun hle checked r hr => ?_⟩
    · by_contra hover
      refine not_handlesLimit ?_ h
      exact search_true hdim hover
    · obtain ⟨results, -, hall⟩ := @exists_search N cfg c query k filter hdim hle
      exact ⟨_, hall checked _ le_rfl (h.of_le hle),
        congrArg _ (Option.some.inj (hr.symm.trans (hall checked k hle h)))⟩
  · have hsearch (checked : Bool) (k : ℕ) : c.search cfg checked query k filter =
        some (.error (.dimensionMismatch cfg.dim query.length)) := if_pos hdim
    exact iff_of_true (fun checked => ⟨_, _, hsearch checked k, hsearch checked _, rfl⟩) (.inl hdim)

/-! ## Recommendations -/

theorem length_sumExamples (ids : List GlobalId) : (c.sumExamples cfg ids).1.length = cfg.dim := by
  have h (sum : List F32 × ℕ) : (ids.foldl (fun sum id =>
      match c.getVector id with
      | some v => (zipInto N.add sum.1 v, sum.2 + 1)
      | none => sum) sum).1.length = sum.1.length := by
    induction ids generalizing sum with
    | nil => rfl
    | cons id ids ih =>
      rw [List.foldl_cons, ih]
      cases c.getVector id with
      | none => rfl
      | some v => exact length_zipInto _ _ _
  rw [sumExamples, h, List.length_replicate]

theorem sumExamples_eq_zero_iff {ids : List GlobalId} :
    (c.sumExamples cfg ids).2 = 0 ↔ ∀ id ∈ ids, c.getVector id = none := by
  have h (sum : List F32 × ℕ) : (ids.foldl (fun sum id =>
      match c.getVector id with
      | some v => (zipInto N.add sum.1 v, sum.2 + 1)
      | none => sum) sum).2 = 0 ↔ sum.2 = 0 ∧ ∀ id ∈ ids, c.getVector id = none := by
    induction ids generalizing sum with
    | nil => simp
    | cons id ids ih =>
      rw [List.foldl_cons, ih, List.forall_mem_cons]
      cases c.getVector id <;> simp
  exact (h _).trans (and_iff_right rfl)

/-- **A recommendation handles a limit** exactly if it is refused for want of an example, or the sum
of the limit and the number of positive examples fits, and every index handles it. -/
theorem handlesLimit_recommend_iff :
    HandlesLimit (Except.map List.length) c.totalRows k (fun checked k =>
      c.recommend cfg checked positive negative k filter) ↔
        (∀ id ∈ positive ++ negative, c.getVector id = none) ∨
          k + positive.toFinset.card < 2 ^ 64 ∧ c.Fits (k + positive.toFinset.card) := by
  set e := positive.toFinset.card
  have hnone : (c.sumExamples cfg positive).2 + (c.sumExamples cfg negative).2 = 0 ↔
      ∀ id ∈ positive ++ negative, c.getVector id = none := by
    rw [Nat.add_eq_zero_iff, sumExamples_eq_zero_iff, sumExamples_eq_zero_iff,
      List.forall_mem_append]
  rw [← hnone]
  by_cases hzero : (c.sumExamples cfg positive).2 + (c.sumExamples cfg negative).2 = 0
  · have hrecommend (checked : Bool) (k : ℕ) : c.recommend cfg checked positive negative k filter =
        some (.error (.version "recommend: no resolvable example points")) := if_pos hzero
    exact iff_of_true (fun checked => ⟨_, _, hrecommend checked k, hrecommend checked _, rfl⟩)
      (.inl hzero)
  · set query := Collection.exampleQuery N.toArithmetic cfg (c.sumExamples cfg positive).1
      (c.sumExamples cfg positive).2 (c.sumExamples cfg negative).1 (c.sumExamples cfg negative).2
    have hdim : query.length = cfg.dim :=
      (Collection.length_exampleQuery _ _ _ _).trans (length_sumExamples positive)
    have hrecommend (checked : Bool) (k : ℕ) : c.recommend cfg checked positive negative k filter =
        (addUsize checked k e).bind fun limit =>
          (c.search cfg checked query limit filter).bind fun results => some (results.map
            fun results => (results.filter fun r => r.1 ∉ positive.toFinset).take k) := if_neg hzero
    rw [or_iff_right hzero]
    refine ⟨fun h => ?_, fun ⟨hlt, hfits⟩ => .of_eq (fun checked => ?_) fun hle checked r hr => ?_⟩
    · by_contra hover
      refine not_handlesLimit ?_ h
      rw [hrecommend]
      rcases le_or_gt (2 ^ 64) (k + e) with hge | hlt
      · rw [addUsize_true_eq_none_iff.mpr hge]
        rfl
      · rw [addUsize_of_lt hlt, Option.bind_some, search_true hdim fun hfits => hover ⟨hlt, hfits⟩]
        rfl
    · exact ⟨_, by rw [hrecommend, addUsize_of_lt hlt, Option.bind_some,
        search_of_fits hdim hfits]; rfl⟩
    · have hadd : c.totalRows ≤ k + e := hle.trans (Nat.le_add_right _ _)
      have hle' : c.totalRows + e ≤ k + e := Nat.add_le_add_right hle e
      obtain ⟨results, hlen, hall⟩ := @exists_search N cfg c query (k + e) filter hdim hadd
      rw [hrecommend, addUsize_of_lt hlt, Option.bind_some, hall checked _ hadd hfits] at hr
      refine ⟨_, by rw [hrecommend, addUsize_of_lt (hle'.trans_lt hlt), Option.bind_some,
        hall checked _ (Nat.le_add_right _ _) (hfits.of_le hle')]; rfl, ?_⟩
      have hfilter : (results.filter fun r => r.1 ∉ positive.toFinset).length ≤ c.totalRows :=
        (List.length_filter_le _ _).trans hlen
      obtain rfl := Option.some.inj hr
      exact congrArg Except.ok (congrArg List.length
        ((List.take_of_length_le (hfilter.trans hle)).trans (List.take_of_length_le hfilter).symm))

end IndexedCollection

/-! ## Limits -/

/-- **A limit is handled exactly where the arithmetic fits**: by an index up to a quarter of the
range, if it is quantised and not empty; by the reference search up to the range over its
oversampling factor, if some row has a number; by a search if all its indexes handle it; and by a
recommendation if they handle the sum of it and the number of positive examples, which must fit. -/
theorem limits_handled_iff (N : Numerics) (cfg : CollectionConfig) :
    (∀ ix : HnswIndex N.toKernels, ix.Searchable → ∀ query k paramsEf filter,
      HandlesLimit List.length ix.vectors.count k (fun checked k =>
        ix.searchIn checked query k paramsEf filter) ↔ ix.Fits k) ∧
    (∀ (storage : VectorStorage) metric query k oversample,
      HandlesLimit List.length storage.count k (fun checked k =>
        quantizedRescoreSearch N.toKernels checked storage metric query k oversample) ↔
          Fetches storage.count k oversample) ∧
    ∀ c : IndexedCollection N,
      (∀ query k filter, HandlesLimit (Except.map List.length) c.totalRows k (fun checked k =>
        c.search cfg checked query k filter) ↔ query.length ≠ cfg.dim ∨ c.Fits k) ∧
      ∀ positive negative k filter,
        HandlesLimit (Except.map List.length) c.totalRows k (fun checked k =>
          c.recommend cfg checked positive negative k filter) ↔
            (∀ id ∈ positive ++ negative, c.getVector id = none) ∨
              k + positive.toFinset.card < 2 ^ 64 ∧ c.Fits (k + positive.toFinset.card) :=
  ⟨fun _ h _ _ _ _ => h.handlesLimit_iff,
    fun _ _ _ _ _ => handlesLimit_quantizedRescoreSearch_iff,
    fun _ => ⟨fun _ _ _ => IndexedCollection.handlesLimit_search_iff,
      fun _ _ _ _ => IndexedCollection.handlesLimit_recommend_iff⟩⟩

/-- The sample kernels, with the arithmetic of zeros. -/
noncomputable def Sample.numerics : Numerics :=
  { Sample.kernels, Sample.arithmetic with }

/-- A quarter of the range, asked of an index that is not quantised. -/
theorem limits_handled_isolated :
    HandlesLimit List.length 2 (2 ^ 62) (fun checked k =>
      isolatedIndex.searchIn checked [0] k 0 none) :=
  ((limits_handled_iff Sample.numerics (Sample.config none)).1 isolatedIndex
    ⟨inRange_isolatedGraph, rfl⟩ [0] (2 ^ 62) 0 none).mpr (.inl rfl)

theorem Sample.length_twoRows : ([0, 0] : List F32).length = 2 * 1 := rfl

/-- Two points, not yet sealed. -/
noncomputable def Sample.twoPoints : IndexedCollection Sample.numerics where
  working := []
  appendable := ⟨⟨[0, 0], 1, .dot, 2, Nat.one_pos, Sample.length_twoRows⟩, .fromGlobalIds [0, 1]⟩
  workingDeletions := ∅
  payloads _ := none
  searchable _ h := absurd h List.not_mem_nil

/-- **A sum that wraps around**: of the two points one is an example and the other is not
recommended, for the limit is too large. -/
theorem recommend_wraps :
    Sample.twoPoints.recommend (Sample.config none) true [0] [] (2 ^ 64 - 1) none = none ∧
    Sample.twoPoints.recommend (Sample.config none) false [0] [] (2 ^ 64 - 1) none = some (.ok []) ∧
    Sample.twoPoints.recommend (Sample.config none) false [0] [] 2 none = some (.ok [(1, 0)]) ∧
    ¬ HandlesLimit (Except.map List.length) Sample.twoPoints.totalRows (2 ^ 64 - 1)
      (fun checked k =>
      Sample.twoPoints.recommend (Sample.config none) checked [0] [] k none) := by
  have hchecked :
      Sample.twoPoints.recommend (Sample.config none) true [0] [] (2 ^ 64 - 1) none = none := by
    decide +kernel
  refine ⟨hchecked, by decide +kernel, by decide +kernel, not_handlesLimit ?_⟩
  exact hchecked

end Vecvec
