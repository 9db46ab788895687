import Vecvec.Hnsw.Index
import Vecvec.Index.Exact
import Vecvec.Machinery.Usize

/-!
# Quantization/Rescore — rank by codes, rescore, and keep the best

The reference search ranks all rows by their codes, keeps some more than it is asked for, and scores
those exactly.  How many it keeps is a product of `usize`s; the rows are numbered by `u32`s.  **It
answers exactly when the product fits and some row has a number** (`exists_rescoreKeys_iff`), and
then with the best of the best (`rescoreKeys_eq`).
-/

namespace Vecvec.Quantization

open Machinery

/-! ## The search -/

/-- What is computed of an oversampled search fits. -/
def Fetches (rows k oversample : ℕ) : Prop :=
  k = 0 ∨ rows = 0 ∨ k * max oversample 1 < 2 ^ 64 ∧ rows % 2 ^ 32 ≠ 0

section

variable {B : Type} (le : B × ℕ → B × ℕ → Prop) [DecidableRel le]

/-- `quantized_rescore_search`, for any order of keys: `coarse` and `exact` tell how bad a row is,
by its codes and by its vector; `none` is a panic. -/
def rescoreKeys (checked : Bool) (rows : ℕ) (coarse exact : ℕ → B) (k oversample : ℕ) :
    Option (List (B × ℕ)) :=
  if k = 0 ∨ rows = 0 then some []
  else do
    let product ← mulUsize checked k (max oversample 1)
    let fetch := max product k
    let ranked := (List.range (rows % 2 ^ 32)).map fun id => (coarse id, id)
    let cut := min fetch ranked.length
    let last ← subUsize checked cut 1
    -- the position to select must be there
    if last < ranked.length then
      let kept := (ranked.insertionSort le).take cut
      let rescored := kept.map fun key => (exact key.2, key.2)
      return (rescored.insertionSort le).take k
    else none

/-- The rows that are ranked, by some badness. -/
def keyed (badness : ℕ → B) (rows : ℕ) : List (B × ℕ) :=
  (List.range (rows % 2 ^ 32)).map fun id => (badness id, id)

/-- The rows kept by their codes. -/
def keptRows (coarse : ℕ → B) (rows k oversample : ℕ) : List ℕ :=
  (best le (k * max oversample 1) (keyed coarse rows)).map Prod.snd

variable {le} {checked : Bool} {rows k oversample : ℕ} {coarse exact : ℕ → B}

@[simp] theorem length_keyed (badness : ℕ → B) : (keyed badness rows).length = rows % 2 ^ 32 := by
  rw [keyed, List.length_map, List.length_range]

/-- A cut at the number of rows is none. -/
theorem take_min_of_length {l : List (B × ℕ)} {n fetch : ℕ} (hl : l.length = n) :
    l.take (min fetch n) = l.take fetch := by
  rw [← hl, List.take_eq_take_iff, min_assoc, min_self]

/-- No fewer are fetched than are asked for. -/
theorem le_mul_max (k oversample : ℕ) : k ≤ k * max oversample 1 :=
  Nat.le_mul_of_pos_right k (Nat.lt_of_lt_of_le Nat.one_pos (le_max_right _ _))

/-- How many rows are fetched; `none` is a panic. -/
def cutOf (checked : Bool) (rows k oversample : ℕ) : Option ℕ :=
  if k = 0 ∨ rows = 0 then some 0
  else (mulUsize checked k (max oversample 1)).bind fun product =>
    if min (max product k) (rows % 2 ^ 32) = 0 then none
    else some (min (max product k) (rows % 2 ^ 32))

/-- **The search finds the best of the rows it fetches.** -/
theorem rescoreKeys_eq_map : rescoreKeys le checked rows coarse exact k oversample =
    (cutOf checked rows k oversample).map fun cut =>
      best le k ((best le cut (keyed coarse rows)).map fun key => (exact key.2, key.2)) := by
  rw [rescoreKeys, cutOf]
  split
  · exact congrArg some best_nil.symm
  · rw [Option.bind_eq_bind, Option.map_bind]
    refine congrArg _ (funext fun product => ?_)
    have hlt : rows % 2 ^ 32 < 2 ^ 32 := Nat.mod_lt _ (by decide)
    dsimp only [Function.comp]
    rw [List.length_map, List.length_range]
    generalize hcut : min (max product k) (rows % 2 ^ 32) = cut
    split
    · rename_i hzero
      rw [hzero]
      cases checked with
      | true => rw [subUsize_true_of_lt (by decide)]; rfl
      | false =>
        rw [subUsize_false_of_lt Nat.one_pos (by decide), Option.bind_some, if_neg (by omega)]
        rfl
    · rename_i hpos
      have hlast : cut - 1 < rows % 2 ^ 32 := by omega
      rw [subUsize_of_le (by omega) (by omega), Option.bind_some, if_pos hlast]
      rfl

theorem cutOf_eq (h : Fetches rows k oversample) :
    cutOf checked rows k oversample = some (min (k * max oversample 1) (rows % 2 ^ 32)) := by
  rw [cutOf]
  split
  · rename_i hnone
    rcases hnone with rfl | rfl
    · rw [Nat.zero_mul, Nat.zero_min]
    · rw [Nat.zero_mod, Nat.min_zero]
  · rename_i hsome
    obtain ⟨hk, hrows⟩ := not_or.mp hsome
    obtain ⟨hfetch, hmod⟩ := (h.resolve_left hk).resolve_left hrows
    have hle := le_mul_max k oversample
    rw [mulUsize_of_lt hfetch, Option.bind_some, max_eq_left hle, if_neg (by omega)]

theorem cutOf_true (h : ¬ Fetches rows k oversample) : cutOf true rows k oversample = none := by
  rw [Fetches, not_or, not_or, not_and_or, not_lt, not_ne_iff] at h
  obtain ⟨hk, hrows, hover⟩ := h
  rw [cutOf, if_neg (not_or.mpr ⟨hk, hrows⟩)]
  rcases le_or_gt (2 ^ 64) (k * max oversample 1) with hfetch | hfetch
  · rw [mulUsize_true_eq_none_iff.mpr hfetch, Option.bind_none]
  · rw [mulUsize_of_lt hfetch, Option.bind_some, hover.resolve_left hfetch.not_ge, Nat.min_zero,
      if_pos rfl]

/-- **Without overflow** the search finds the best of the rows kept. -/
theorem rescoreKeys_eq (h : Fetches rows k oversample) :
    rescoreKeys le checked rows coarse exact k oversample =
      some (best le k ((keptRows le coarse rows k oversample).map fun id => (exact id, id))) := by
  rw [rescoreKeys_eq_map, cutOf_eq h, Option.map_some, keptRows, List.map_map, best, best, best,
    take_min_of_length (by simp)]
  rfl

/-- **An overflow** is a panic where it is checked. -/
theorem rescoreKeys_true (h : ¬ Fetches rows k oversample) :
    rescoreKeys le true rows coarse exact k oversample = none := by
  rw [rescoreKeys_eq_map, cutOf_true h, Option.map_none]

theorem length_keptRows : (keptRows le coarse rows k oversample).length =
    min (k * max oversample 1) (rows % 2 ^ 32) := by
  rw [keptRows, List.length_map, best, List.length_take, List.length_insertionSort, length_keyed]

/-- **The reference search handles a limit** exactly if what it computes fits. -/
theorem handlesLimit_rescoreKeys_iff :
    HandlesLimit List.length rows k (fun checked k =>
      rescoreKeys le checked rows coarse exact k oversample) ↔ Fetches rows k oversample := by
  refine ⟨fun h => ?_, fun h => .of_eq (fun checked => ⟨_, rescoreKeys_eq h⟩) fun hle
    checked r hr => ?_⟩
  · by_contra hover
    refine not_handlesLimit ?_ h
    exact rescoreKeys_true hover
  · have hrows : Fetches rows rows oversample := by
      rcases h with rfl | h | ⟨hfetch, hmod⟩
      · exact .inl (Nat.le_zero.mp hle)
      · exact .inr (.inl h)
      · exact .inr (.inr ⟨(Nat.mul_le_mul_right _ hle).trans_lt hfetch, hmod⟩)
    obtain rfl := Option.some.inj (hr.symm.trans (rescoreKeys_eq h))
    refine ⟨_, rescoreKeys_eq hrows, ?_⟩
    have hk := le_mul_max k oversample
    have hn := le_mul_max rows oversample
    have hmod := Nat.mod_le rows (2 ^ 32)
    simp only [best, List.length_take, List.length_insertionSort, List.length_map, length_keptRows]
    omega

end

/-! ## Over floats -/

/-- `quantized_rescore_search`, of the block of a storage: the ids of the best rows, with their
scores. -/
def quantizedRescoreSearch (K : Kernels) (checked : Bool) (storage : VectorStorage)
    (metric : Metric)
    (query : List F32) (k oversample : ℕ) : Option (List (ℕ × F32)) :=
  let score := fun id => K.scoreF32 metric query (storage.get id)
  (rescoreKeys keyLe checked storage.count (K.badness (K.buildBlock storage) query)
    (fun id => if metric.higherIsBetter then F32.neg (score id) else score id) k oversample).map
      fun keys => keys.map fun key => (key.2, score key.2)

theorem handlesLimit_quantizedRescoreSearch_iff {K : Kernels} {storage : VectorStorage}
    {metric : Metric} {query : List F32} {k oversample : ℕ} :
    HandlesLimit List.length storage.count k (fun checked k =>
      quantizedRescoreSearch K checked storage metric query k oversample) ↔
        Fetches storage.count k oversample := by
  refine (HandlesLimit.map_iff fun keys => ?_).trans handlesLimit_rescoreKeys_iff
  rw [List.length_map]

end Vecvec.Quantization
