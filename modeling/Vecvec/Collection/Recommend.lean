import Vecvec.Collection.Exact

/-!
# Collection/Recommend — recommendations by example

The query is the mean of the positive examples less the mean of the negative ones.  The positive
examples are dropped from what a search finds, so it is asked for as many more as there are:
**that is enough** (`recommend_exact`), where no live id is on two rows.

An example is looked up by `get_vector`, which does not ask for tombstones as `get_point` does: a
deleted point steers a recommendation for as long as a row carries it (`recommend_live`).
-/

namespace Vecvec

open Machinery

/-- The arithmetic of `f32` that a recommendation builds its query with. -/
structure Arithmetic extends Platform where
  /-- Normalising is done in place. -/
  length_l2Normalize : ∀ v, (toPlatform.l2Normalize v).length = v.length
  /-- `+` -/
  add : F32 → F32 → F32
  /-- `-` -/
  sub : F32 → F32 → F32
  /-- `/` -/
  div : F32 → F32 → F32
  /-- `n as f32` -/
  ofNat : ℕ → F32

/-- `for (q, x) in query.iter_mut().zip(v)`: the components of `query` that `v` has too are
replaced. -/
def zipInto (f : F32 → F32 → F32) : List F32 → List F32 → List F32
  | q :: query, x :: v => f q x :: zipInto f query v
  | query, _ => query

@[simp] theorem length_zipInto (f : F32 → F32 → F32) (query v : List F32) :
    (zipInto f query v).length = query.length := by
  induction query generalizing v with
  | nil => rfl
  | cons q query ih =>
    cases v with
    | nil => rfl
    | cons x v => exact congrArg Nat.succ (ih v)

@[simp] theorem length_foldl_zipInto (f : F32 → F32 → F32) (vs : List (List F32)) (sum : List F32) :
    (vs.foldl (zipInto f) sum).length = sum.length := by
  induction vs generalizing sum with
  | nil => rfl
  | cons v vs ih => rw [List.foldl_cons, ih, length_zipInto]

namespace Collection

variable (S : SegmentSearch) (A : Arithmetic) (cfg : CollectionConfig)

/-! ## The call -/

/-- The vectors found under some ids added to a sum, and their number. -/
def sumExamples : List GlobalId → List F32 → ℕ → CollectionProg (List F32 × ℕ)
  | [], sum, n => return (sum, n)
  | id :: ids, sum, n => do
    match ← getVector id with
    | some v => sumExamples ids (zipInto A.add sum v) (n + 1)
    | none => sumExamples ids sum n

/-- The query of a recommendation, from the sums of the positive and of the negative examples. -/
def exampleQuery (query : List F32) (np : ℕ) (neg : List F32) (nn : ℕ) : List F32 :=
  let query := if 0 < np then query.map fun q => A.div q (A.ofNat np) else query
  let query :=
    if 0 < nn then zipInto (fun q n => A.sub q (A.div n (A.ofNat nn))) query neg else query
  if cfg.metric.requiresNormalization then A.l2Normalize query else query

/-- `recommend`: the search over-fetches, so that the positive examples can be dropped. -/
def recommend (positive negative : List GlobalId) (k : ℕ)
    (filter : Option (Option Payload → Bool)) :
    CollectionProg (Except CoreError (List (GlobalId × F32))) := do
  let (query, np) ← sumExamples A positive (List.replicate cfg.dim 0) 0
  let (neg, nn) ← sumExamples A negative (List.replicate cfg.dim 0) 0
  if np + nn = 0 then
    return .error (.version "recommend: no resolvable example points")
  else
    let exclude := positive.toFinset
    match ← search S A.toPlatform cfg (exampleQuery A cfg query np neg nn)
      ((k + exclude.card) % 2 ^ 64) filter with
    | .ok results => return .ok ((results.filter fun r => r.1 ∉ exclude).take k)
    | .error e => return .error e

/-! ## What it computes -/

/-- The query built from the vectors of the examples. -/
def builtQuery (positive negative : List (List F32)) : List F32 :=
  exampleQuery A cfg (positive.foldl (zipInto A.add) (List.replicate cfg.dim 0)) positive.length
    (negative.foldl (zipInto A.add) (List.replicate cfg.dim 0)) negative.length

/-- The vectors of the ids that resolve. -/
def exampleVectors (c : Collection) (ids : List GlobalId) : List (List F32) :=
  ids.filterMap c.vectorAt

variable {S A cfg} {c : Collection} {t k : ℕ} {positive negative : List GlobalId}
  {filter : Option (Option Payload → Bool)}

theorem length_exampleQuery (query neg : List F32) (np nn : ℕ) :
    (exampleQuery A cfg query np neg nn).length = query.length := by
  have hmean : (if 0 < np then query.map fun q => A.div q (A.ofNat np) else query).length =
      query.length := by split <;> simp
  unfold exampleQuery
  dsimp only
  split
  · rw [A.length_l2Normalize]
    split
    exacts [(length_zipInto _ _ _).trans hmean, hmean]
  · split
    exacts [(length_zipInto _ _ _).trans hmean, hmean]

theorem length_builtQuery (vs ws : List (List F32)) :
    (builtQuery A cfg vs ws).length = cfg.dim := by
  rw [builtQuery, length_exampleQuery, length_foldl_zipInto, List.length_replicate]

theorem run_sumExamples (ids : List GlobalId) (sum : List F32) (n : ℕ) :
    run (step A.toPlatform cfg) t (sumExamples A ids sum n) c =
      some (((c.exampleVectors ids).foldl (zipInto A.add) sum,
        n + (c.exampleVectors ids).length), c) := by
  induction ids generalizing sum n with
  | nil => rfl
  | cons id ids ih =>
    rw [sumExamples, run_bind_of_eq run_getVector, exampleVectors, List.filterMap_cons]
    cases c.vectorAt id with
    | none => exact ih sum n
    | some v =>
      refine (ih _ _).trans ?_
      rw [List.foldl_cons, List.length_cons, Nat.add_assoc, Nat.add_comm 1]
      rfl

/-- Without an example that resolves, there is no recommendation. -/
theorem run_recommend_error (hp : c.exampleVectors positive = [])
    (hn : c.exampleVectors negative = []) :
    run (step A.toPlatform cfg) t (recommend S A cfg positive negative k filter) c =
      some (.error (.version "recommend: no resolvable example points"), c) := by
  rw [recommend, run_bind_of_eq (run_sumExamples ..), run_bind_of_eq (run_sumExamples ..), hp, hn]
  rfl

/-- **A recommendation is a search**, with what it finds less the positive examples. -/
theorem run_recommend
    (h : 0 < (c.exampleVectors positive).length + (c.exampleVectors negative).length) :
    run (step A.toPlatform cfg) t (recommend S A cfg positive negative k filter) c =
      run (step A.toPlatform cfg) t (search S A.toPlatform cfg
        (builtQuery A cfg (c.exampleVectors positive) (c.exampleVectors negative))
        ((k + positive.toFinset.card) % 2 ^ 64) filter >>= fun x => pure (x.map fun results =>
          (results.filter fun r => r.1 ∉ positive.toFinset).take k)) c := by
  rw [recommend, run_bind_of_eq (run_sumExamples ..), run_bind_of_eq (run_sumExamples ..)]
  dsimp only
  rw [Nat.zero_add, Nat.zero_add, if_neg h.ne', ← builtQuery]
  congr 2
  funext x
  cases x <;> rfl

/-- **The over-fetch suffices**: no more is dropped than was asked for besides. -/
theorem take_drop_positive {rows : List Row} (hn : (rowIds rows).Nodup) (payloads : PayloadMap)
    (query : List F32) :
    (((ranking A.toPlatform cfg payloads query filter rows).take
        (k + positive.toFinset.card)).filter fun r => r.1 ∉ positive.toFinset).take k =
      (ranking A.toPlatform cfg payloads query filter (rows.filter fun r => r.1 ∉ positive)).take
        k := by
  set ranked := ranking A.toPlatform cfg payloads query filter rows
  have hranked : (ranked.map Prod.fst).Nodup := nodup_ranking hn payloads
  have hdropped : (ranked.filter fun r => !decide (r.1 ∉ positive.toFinset)).length ≤
      positive.toFinset.card := by
    rw [← List.length_map Prod.fst,
      ← List.toFinset_card_of_nodup (hranked.sublist (List.filter_sublist.map Prod.fst))]
    refine Finset.card_le_card fun id hid => ?_
    obtain ⟨r, hr, rfl⟩ := List.mem_map.mp (List.mem_toFinset.mp hid)
    simpa using (List.mem_filter.mp hr).2
  have hpositive : (fun r : GlobalId × F32 => decide (r.1 ∉ positive.toFinset)) =
      fun r => decide (r.1 ∉ positive) := by simp only [List.mem_toFinset]
  rw [take_filter_take_add hdropped, hpositive, filter_ranking fun id => id ∉ positive]

end Collection

/-! ## The best that are not examples -/

section Exact

variable {S : SegmentSearch} {A : Arithmetic} {cfg : CollectionConfig} {c : Collection}

/-- **A recommendation is the exact top-k of the rest.**  After any calls, run one at a time, if
each segment is searched exactly and no live id is on two rows: the first `k` of all live rows that
pass the filter and are not among the positive examples, by badness against the built query and then
by id. -/
theorem recommend_exact {tr : List (Collection × Call)}
    (hist : History A.toPlatform cfg .create tr c)
    (hexact : ∀ s ∈ c.working, Collection.FoundExactly S A.toPlatform cfg s)
    (happ : Collection.SearchedExactly A.toPlatform cfg c.appendable.rows)
    (hn : (rowIds
      (Collection.liveRows (c.working.rows ++ c.appendable.rows) c.workingDeletions)).Nodup)
    {positive negative : List GlobalId} (hres : ∃ id ∈ positive ++ negative, (c.vectorAt id).isSome)
    {k : ℕ} (hk : k + positive.length < 2 ^ 64) (filter : Option (Option Payload → Bool)) (t : ℕ) :
    run (Collection.step A.toPlatform cfg) t
        (Collection.recommend S A cfg positive negative k filter) c =
      some (.ok ((Collection.ranking A.toPlatform cfg c.payloads
        (Collection.builtQuery A cfg (c.exampleVectors positive) (c.exampleVectors negative)) filter
        ((Collection.liveRows (c.working.rows ++ c.appendable.rows) c.workingDeletions).filter
          fun r => r.1 ∉ positive)).take k), c) := by
  have hsome : 0 < (c.exampleVectors positive).length + (c.exampleVectors negative).length := by
    obtain ⟨id, hid, hv⟩ := hres
    obtain ⟨v, hv⟩ := Option.isSome_iff_exists.mp hv
    rw [← List.length_append, Collection.exampleVectors, Collection.exampleVectors,
      ← List.filterMap_append]
    exact List.length_pos_of_mem (List.mem_filterMap.mpr ⟨id, hid, hv⟩)
  have hmod : (k + positive.toFinset.card) % 2 ^ 64 = k + positive.toFinset.card :=
    Nat.mod_eq_of_lt ((Nat.add_le_add_left (List.toFinset_card_le positive) k).trans_lt hk)
  rw [Collection.run_recommend hsome, hmod, run_bind_of_eq (Collection.run_search_exact
    (hist.sound Collection.sound_create).payloadReaders (Collection.length_builtQuery _ _) hexact
    happ hn), ← Collection.take_drop_positive hn]
  rfl

end Exact

/-- The sample platform, with the arithmetic of small natural numbers. -/
def Sample.arithmetic : Arithmetic :=
  { Sample.platform with
    length_l2Normalize := Sample.length_l2Normalize
    add := fun x y => Sample.ofNat (Sample.toNat x + Sample.toNat y)
    sub := fun x y => Sample.ofNat (Sample.toNat x - Sample.toNat y)
    div := fun x y => Sample.ofNat (Sample.toNat x / Sample.toNat y)
    ofNat := Sample.ofNat }

/-- Segments scanned with it. -/
def Sample.flatSearch : SegmentSearch := .flat Sample.arithmetic.toPlatform (Sample.config none)

/-- Of the positive examples one is listed twice, one is deleted and one is unknown. -/
theorem recommend_exact_sample : ∃ tr c,
    History Sample.arithmetic.toPlatform (Sample.config none) .create tr c ∧
    run (Collection.step Sample.arithmetic.toPlatform (Sample.config none)) 0
      (Collection.recommend Sample.flatSearch Sample.arithmetic (Sample.config none)
        [1, 0, 1, 9] [3] 2 none) c = some (.ok [(2, 0), (3, 0)], c) := by
  have h : Collection.create.Leads Sample.arithmetic.toPlatform (Sample.config none)
      [.insertBatch [[0], [0], [0]], .sealAppendable, .delete 0, .insertBatch [[0], [0]]]
      fun tr c => (∀ e ∈ tr, e.2.Allocates) ∧
        (rowIds (Collection.liveRows (c.working.rows ++ c.appendable.rows)
          c.workingDeletions)).Nodup ∧
        (∃ id ∈ [1, 0, 1, 9] ++ [3], (c.vectorAt id).isSome) ∧
        (Collection.ranking Sample.arithmetic.toPlatform (Sample.config none) c.payloads
          (Collection.builtQuery Sample.arithmetic (Sample.config none)
            (c.exampleVectors [1, 0, 1, 9]) (c.exampleVectors [3])) none
          ((Collection.liveRows (c.working.rows ++ c.appendable.rows) c.workingDeletions).filter
            fun r => r.1 ∉ [1, 0, 1, 9])).take 2 = [(2, 0), (3, 0)] := by
    decide +kernel
  obtain ⟨tr, c, hist, halloc, hn, hres, hrank⟩ := h.exists_history
  obtain ⟨hexact, happ⟩ := hist.searchedExactly halloc
  have hfound : ∀ s ∈ c.working, Collection.FoundExactly Sample.flatSearch
      Sample.arithmetic.toPlatform (Sample.config none) s := fun s hs =>
    Collection.foundExactly (SegmentSearch.isExact_flat _ _ s) (hexact s hs)
  refine ⟨tr, c, hist, (recommend_exact hist hfound happ hn hres (by decide) none 0).trans ?_⟩
  rw [hrank]

set_option synthInstance.maxSize 400 in
/-- An id on two rows: the search keeps both within its cut-off, and then drops one. -/
theorem recommend_repeated_id : ∃ tr c,
    History Sample.arithmetic.toPlatform (Sample.config none) .create tr c ∧
    (∀ s ∈ c.working, Collection.FoundExactly Sample.flatSearch Sample.arithmetic.toPlatform
      (Sample.config none) s) ∧
    Collection.SearchedExactly Sample.arithmetic.toPlatform (Sample.config none)
      c.appendable.rows ∧
    (c.vectorAt 1).isSome ∧
    (run (Collection.step Sample.arithmetic.toPlatform (Sample.config none)) 0
      (Collection.recommend Sample.flatSearch Sample.arithmetic (Sample.config none)
        [] [1] 2 none) c).map Prod.fst = some (.ok [(0, 0)]) ∧
    Collection.ranking Sample.arithmetic.toPlatform (Sample.config none) c.payloads
      (Collection.builtQuery Sample.arithmetic (Sample.config none) (c.exampleVectors [])
        (c.exampleVectors [1])) none
      ((Collection.liveRows (c.working.rows ++ c.appendable.rows) c.workingDeletions).filter
        fun r => r.1 ∉ ([] : List GlobalId)) = [(0, 0), (0, 0), (1, 0)] := by
  have h : Collection.create.Leads Sample.arithmetic.toPlatform (Sample.config none)
      [.insertWithIdAndPayload 0 [0] none, .sealAppendable, .insertWithIdAndPayload 0 [0] none,
        .sealAppendable, .insert [0]]
      fun _ c => c.appendable.rows :: c.working.map SealedSegment.rows =
          [[(1, [0])], [(0, [0])], [(0, [0])]] ∧
        (run (Collection.step Sample.arithmetic.toPlatform (Sample.config none)) 0
          (Collection.recommend Sample.flatSearch Sample.arithmetic (Sample.config none)
            [] [1] 2 none) c).map Prod.fst = some (.ok [(0, 0)]) ∧
        Collection.ranking Sample.arithmetic.toPlatform (Sample.config none) c.payloads
          (Collection.builtQuery Sample.arithmetic (Sample.config none) (c.exampleVectors [])
            (c.exampleVectors [1])) none
          ((Collection.liveRows (c.working.rows ++ c.appendable.rows) c.workingDeletions).filter
            fun r => r.1 ∉ ([] : List GlobalId)) = [(0, 0), (0, 0), (1, 0)] := by
    decide +kernel
  obtain ⟨tr, c, hist, hrows, h⟩ := h.exists_history
  obtain ⟨happ, hworking⟩ := List.cons.inj hrows
  have hone (r : Row) : Collection.SearchedExactly Sample.arithmetic.toPlatform (Sample.config none)
      [r] := fun _ _ _ => searchLocal_eq (List.pairwise_singleton _ r)
  refine ⟨tr, c, hist, fun s hs => ?_, happ ▸ hone _, by rw [Collection.vectorAt, happ]; rfl, h⟩
  have hs : s.rows ∈ [[(0, [0])], [(0, [0])]] := hworking ▸ List.mem_map_of_mem hs
  refine Collection.foundExactly (SegmentSearch.isExact_flat _ _ s) ?_
  rcases List.mem_pair.mp hs with hs | hs <;> exact hs ▸ hone _

/-! ## Deleted examples -/

namespace Collection

/-- The ids of a list that `get_point` finds. -/
def liveOf (c : Collection) (ids : List GlobalId) : List GlobalId :=
  ids.filter fun id => (c.liveMap id).isSome

/-- **Deleted points do not steer a recommendation.** -/
structure SteeredByLive (A : Arithmetic) (cfg : CollectionConfig) (c : Collection)
    (positive negative : List GlobalId) : Prop where
  /-- The vectors it sums up are those of live points. -/
  summed : c.exampleVectors positive = c.exampleVectors (c.liveOf positive)
  /-- So are those it subtracts. -/
  subtracted : c.exampleVectors negative = c.exampleVectors (c.liveOf negative)
  /-- Its query is what the live points of the lists alone give. -/
  query : builtQuery A cfg (c.exampleVectors positive) (c.exampleVectors negative) =
    builtQuery A cfg (c.exampleVectors (c.liveOf positive)) (c.exampleVectors (c.liveOf negative))
  /-- It is refused where no listed id is live. -/
  refused : (∀ id ∈ positive ++ negative, c.liveMap id = none) → ∀ S k filter t, ∃ e,
    run (step A.toPlatform cfg) t (recommend S A cfg positive negative k filter) c =
      some (.error e, c)

variable {c : Collection} {ids : List GlobalId}

/-- The vectors of some ids are those of the live ones exactly if no row carries a deleted one. -/
theorem exampleVectors_liveOf_iff : c.exampleVectors ids = c.exampleVectors (c.liveOf ids) ↔
    ∀ id ∈ ids, id ∈ c.workingDeletions → c.holds id = false := by
  let found := ids.filter fun id => (c.vectorAt id).isSome
  have hlive : (c.exampleVectors (c.liveOf ids)).length =
      (found.filter fun id => (c.liveMap id).isSome).length := by
    rw [exampleVectors, liveOf, List.length_filterMap_eq_countP, List.countP_eq_length_filter,
      List.filter_filter, List.filter_filter]
    simp only [Bool.and_comm]
  constructor
  · intro h id hid hd
    have hlen : (found.filter fun id => (c.liveMap id).isSome).length = found.length := by
      rw [← hlive, ← h, exampleVectors, List.length_filterMap_eq_countP,
        List.countP_eq_length_filter]
    refine Bool.eq_false_iff.mpr fun hh => ?_
    have hfound : id ∈ found := List.mem_filter.mpr ⟨hid, (isSome_vectorAt id).trans hh⟩
    exact (isSome_liveMap.mp (List.length_filter_eq_length_iff.mp hlen id hfound)).2 hd
  · intro h
    rw [exampleVectors, exampleVectors, liveOf, List.filterMap_filter]
    refine List.filterMap_congr fun id hid => ?_
    split
    · rfl
    · rename_i hnot
      refine Option.not_isSome_iff_eq_none.mp fun hv => hnot ?_
      have hh : c.holds id = true := (isSome_vectorAt id).symm.trans hv
      exact isSome_liveMap.mpr ⟨hh, fun hd => Bool.false_ne_true ((h id hid hd).symm.trans hh)⟩

end Collection

/-- **What steers a recommendation** is live points only exactly if each listed id with a tombstone
is gone from the rows. -/
theorem recommend_live (A : Arithmetic) (cfg : CollectionConfig) (c : Collection)
    (positive negative : List GlobalId) : c.SteeredByLive A cfg positive negative ↔
      ∀ id ∈ positive ++ negative, id ∈ c.workingDeletions → c.holds id = false := by
  rw [List.forall_mem_append, ← Collection.exampleVectors_liveOf_iff,
    ← Collection.exampleVectors_liveOf_iff]
  refine ⟨fun h => ⟨h.summed, h.subtracted⟩, fun ⟨hp, hn⟩ => ⟨hp, hn, by rw [← hp, ← hn], ?_⟩⟩
  intro hnone S k filter t
  have hempty {ids : List GlobalId} (hids : ∀ id ∈ ids, c.liveMap id = none) :
      c.exampleVectors (c.liveOf ids) = [] := by
    have hliveOf : c.liveOf ids = [] :=
      List.filter_eq_nil_iff.mpr fun id hid => by simp [hids id hid]
    rw [hliveOf]
    rfl
  obtain ⟨hpnone, hnnone⟩ := List.forall_mem_append.mp hnone
  exact ⟨_, Collection.run_recommend_error (hp.trans (hempty hpnone)) (hn.trans (hempty hnnone))⟩

/-- A point is deleted, and recommends another. -/
theorem recommend_deleted : ∃ tr c,
    History Sample.arithmetic.toPlatform (Sample.config none) .create tr c ∧
    run (Collection.step Sample.arithmetic.toPlatform (Sample.config none)) 0
      (Collection.getPoint 0) c = some (none, c) ∧
    (run (Collection.step Sample.arithmetic.toPlatform (Sample.config none)) 0
      (Collection.recommend Sample.flatSearch Sample.arithmetic (Sample.config none)
        [0] [] 1 none) c).map Prod.fst = some (.ok [(1, 0)]) ∧
    ¬ c.SteeredByLive Sample.arithmetic (Sample.config none) [0] [] := by
  have h : Collection.create.Leads Sample.arithmetic.toPlatform (Sample.config none)
      [.insertBatch [[0], [0]], .delete 0]
      fun _ c => (run (Collection.step Sample.arithmetic.toPlatform (Sample.config none)) 0
        (Collection.recommend Sample.flatSearch Sample.arithmetic (Sample.config none)
          [0] [] 1 none) c).map Prod.fst = some (.ok [(1, 0)]) ∧ 0 ∈ c.workingDeletions := by
    decide +kernel
  obtain ⟨tr, c, hist, hrun, hd⟩ := h.exists_history
  have hdead : c.liveMap 0 = none := if_pos hd
  refine ⟨tr, c, hist, ?_, hrun, fun h => ?_⟩
  · rw [Collection.run_getPoint, hdead]
    rfl
  · obtain ⟨e, he⟩ := h.refused (List.forall_mem_singleton.mpr hdead) Sample.flatSearch 1 none 0
    rw [he] at hrun
    cases hrun

end Vecvec
