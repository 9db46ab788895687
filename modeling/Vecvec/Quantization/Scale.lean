import Mathlib.Data.Rat.Floor
import Vecvec.Machinery.Ranking
import Vecvec.Quantization.Int8
import Vecvec.Quantization.Rescore

/-!
# Quantization/Scale — the length of a query

A cosine store normalises its rows and fits its scale to them.  A query is encoded with that scale
as it comes: a long one is clamped, a short one rounds to zero, and the rows that are fetched for it
are not those of the same query at another length.  **Its length does not matter exactly where its
codes rank the rows alike**, and it never does only where all rows have the same codes
(`scaled_query_iff`).

All numbers are rationals here.
-/

namespace Vecvec.Quantization

open Machinery

/-! ## Codes -/

/-- `round`, half away from zero. -/
def roundAway (x : ℚ) : ℤ := if 0 ≤ x then ⌊x + 1 / 2⌋ else -⌊-x + 1 / 2⌋

/-- A fitted quantizer. -/
structure ScalarQuantizer where
  /-- The quantization scale. -/
  scale : ℚ
  /-- Scales are positive. -/
  pos : 0 < scale

namespace ScalarQuantizer

/-- The code of a component. -/
def code (quantizer : ScalarQuantizer) (x : ℚ) : ℤ :=
  max (-127) (min (roundAway (x * (1 / quantizer.scale))) 127)

/-- `encode` -/
def encode (quantizer : ScalarQuantizer) (vector : List ℚ) : List ℤ := vector.map quantizer.code

theorem isCode_code (quantizer : ScalarQuantizer) (x : ℚ) : IsCode (quantizer.code x) :=
  ⟨le_max_left _ _, max_le (by decide) (min_le_right _ _)⟩

theorem isCode_of_mem_encode {quantizer : ScalarQuantizer} {vector : List ℚ} {c : ℤ}
    (h : c ∈ quantizer.encode vector) : IsCode c := by
  obtain ⟨x, -, rfl⟩ := List.mem_map.mp h
  exact quantizer.isCode_code x

end ScalarQuantizer

/-- A cosine store. -/
structure CosineStorage where
  /-- The rows, one after another. -/
  data : List ℚ
  /-- The dimensionality. -/
  dim : ℕ
  /-- The number of rows. -/
  count : ℕ
  /-- A dimensionality is not zero. -/
  dim_pos : 0 < dim
  /-- Rows are whole. -/
  length_data : data.length = count * dim

/-- A scale that is fitted to components is positive. -/
theorem fitted_pos (maxAbs : ℚ) : 0 < if 0 < maxAbs then maxAbs / 127 else 1 := by
  split
  · exact div_pos ‹_› (by norm_num)
  · exact one_pos

namespace CosineStorage

/-- `get` -/
def get (storage : CosineStorage) (id : ℕ) : List ℚ :=
  (storage.data.drop (id * storage.dim)).take storage.dim

/-- `ScalarQuantizer::fit` -/
def fit (storage : CosineStorage) : ScalarQuantizer :=
  let maxAbs := storage.data.foldl (fun m x => max m |x|) 0
  ⟨if 0 < maxAbs then maxAbs / 127 else 1, fitted_pos maxAbs⟩

/-- `QuantizedVectorBlock::build` -/
def block (storage : CosineStorage) : QuantizedVectorBlock :=
  ⟨storage.fit.encode storage.data, storage.dim, .cosine, fun _ =>
    ScalarQuantizer.isCode_of_mem_encode⟩

end CosineStorage

namespace QuantizedVectorBlock

/-- `len` -/
def len (block : QuantizedVectorBlock) : ℕ := block.data.length / block.dim

/-- The codes of a row. -/
def row (block : QuantizedVectorBlock) (id : ℕ) : List ℤ :=
  (block.data.drop (id * block.dim)).take block.dim

/-- `badness`, a rational. -/
def rationalBadness (block : QuantizedVectorBlock) (quantizedQuery : List ℤ) (id : ℕ) : ℚ :=
  match block.metric with
  | .cosine | .dot => -((products quantizedQuery (block.row id)).sum : ℤ)
  | .euclidean => ((squares quantizedQuery (block.row id)).sum : ℤ)

end QuantizedVectorBlock

/-! ## Searches -/

/-- The vector of another length. -/
def scaled (c : ℚ) (vector : List ℚ) : List ℚ := vector.map fun x => c * x

/-- The score of two vectors. -/
def dot (a b : List ℚ) : ℚ := (List.zipWith (fun x y => x * y) a b).sum

namespace CosineStorage

/-- How bad a row is by its codes. -/
def codeBadness (storage : CosineStorage) (query : List ℚ) : ℕ → ℚ :=
  storage.block.rationalBadness (storage.fit.encode query)

/-- How bad a row is by its vector. -/
def badness (storage : CosineStorage) (query : List ℚ) (id : ℕ) : ℚ := -dot query (storage.get id)

/-- `quantized_rescore_search`: the ids of the best rows. -/
def quantizedRescoreSearch (checked : Bool) (storage : CosineStorage) (query : List ℚ)
    (k oversample : ℕ) : Option (List ℕ) :=
  (rescoreKeys closer checked storage.block.len (storage.codeBadness query)
    (storage.badness query) k
    oversample).map fun keys => keys.map Prod.snd

/-- The rows, as `HnswIndex::search` ranks them before it rescores. -/
def candidateRanking (storage : CosineStorage) (query : List ℚ) : List ℕ :=
  ((keyed (storage.codeBadness query) storage.block.len).insertionSort closer).map Prod.snd

variable {storage : CosineStorage} {query query' : List ℚ} {c : ℚ} {i j : ℕ}

@[simp] theorem len_block : storage.block.len = storage.count := by
  rw [QuantizedVectorBlock.len]
  change (storage.fit.encode storage.data).length / storage.dim = _
  rw [ScalarQuantizer.encode, List.length_map, storage.length_data,
    Nat.mul_div_cancel _ storage.dim_pos]

theorem row_block : storage.block.row i = storage.fit.encode (storage.get i) := by
  rw [ScalarQuantizer.encode, get, List.map_take, List.map_drop]
  rfl

theorem codeBadness_eq : storage.codeBadness query i =
    -((products (storage.fit.encode query) (storage.block.row i)).sum : ℤ) := rfl

/-- The number a row has in the code is its place among the rows. -/
theorem get_block (h : i < storage.count) : storage.block.get i = some (storage.block.row i) := by
  refine if_pos ?_
  change i * storage.dim + storage.dim ≤ (storage.fit.encode storage.data).length
  rw [ScalarQuantizer.encode, List.length_map, storage.length_data, ← Nat.succ_mul]
  exact Nat.mul_le_mul_right _ h

/-- **Where sums fit**, the accumulator computes the badness of the codes. -/
theorem badness_block {cast : ℤ → F32} {checked : Bool} (hdim : storage.dim ≤ maxDim .cosine)
    (hquery : query.length = storage.dim) (h : i < storage.count) :
    ∃ s : ℤ, storage.block.badness cast checked (storage.fit.encode query) i =
      some (F32.neg (cast s)) ∧ storage.codeBadness query i = -s := by
  have hcodes : IsCodeVector storage.dim (storage.fit.encode query) :=
    ⟨by rw [ScalarQuantizer.encode, List.length_map, hquery],
      fun _ => ScalarQuantizer.isCode_of_mem_encode⟩
  refine ⟨_, ((accumulates_iff storage.dim .cosine).mpr hdim).badness cast checked
    storage.block rfl rfl
    _ hcodes i _ (get_block h), ?_⟩
  rw [codeBadness_eq]
  exact Int.cast_neg _

/-! ## What is found -/

/-- A key holds the number it is the key of. -/
theorem map_snd_keys (f : ℕ → ℚ) (l : List ℕ) : (l.map fun i => (f i, i)).map Prod.snd = l := by
  rw [List.map_map]
  exact List.map_id l

/-- The rows that have a number of their own. -/
def rows (storage : CosineStorage) : List ℕ := List.range (storage.count % 2 ^ 32)

/-- **The ids are those of the best of the best by the codes.** -/
theorem quantizedRescoreSearch_eq {checked : Bool} {k oversample : ℕ} :
    storage.quantizedRescoreSearch checked query k oversample =
      (cutOf checked storage.count k oversample).map fun cut =>
        best (rankBy (storage.badness query)) k
          (best (rankBy (storage.codeBadness query)) cut storage.rows) := by
  rw [quantizedRescoreSearch, rescoreKeys_eq_map, Option.map_map, len_block]
  refine Option.map_congr fun cut _ => ?_
  dsimp only [Function.comp]
  rw [keyed, best_keys, List.map_map]
  dsimp only [Function.comp_def]
  rw [best_keys, map_snd_keys, rows]

theorem candidateRanking_eq : storage.candidateRanking query =
    storage.rows.insertionSort (rankBy (storage.codeBadness query)) := by
  rw [candidateRanking, len_block, keyed, insertionSort_keys, map_snd_keys, rows]

/-! ## Another length -/

theorem dot_scaled (c : ℚ) (a b : List ℚ) : dot (scaled c a) b = c * dot a b := by
  induction a generalizing b with
  | nil => exact (mul_zero c).symm
  | cons x a ih =>
    cases b with
    | nil => exact (mul_zero c).symm
    | cons y b =>
      have ih := ih b
      rw [dot, scaled] at ih ⊢
      rw [dot, List.map_cons, List.zipWith_cons_cons, List.zipWith_cons_cons, List.sum_cons,
        List.sum_cons, ih, dot, mul_add, mul_assoc]

/-- **The exact scores rank alike** at any length. -/
theorem rankBy_badness_scaled (hc : 0 < c) :
    rankBy (storage.badness (scaled c query)) i j ↔ rankBy (storage.badness query) i j := by
  have hbadness (id : ℕ) : storage.badness (scaled c query) id = c * storage.badness query id := by
    rw [badness, dot_scaled, badness, mul_neg]
  rw [rankBy, closer, hbadness, hbadness, mul_lt_mul_iff_right₀ hc, mul_right_inj' hc.ne']
  rfl

/-- **The codes rank the rows alike** for two queries. -/
def RankAlike (storage : CosineStorage) (query query' : List ℚ) : Prop :=
  ∀ i j, i < j → j < storage.count % 2 ^ 32 →
    (storage.codeBadness query i ≤ storage.codeBadness query j ↔
      storage.codeBadness query' i ≤ storage.codeBadness query' j)

/-- A row is fetched if fewer than `cut` others are better by their codes. -/
def Fetched (storage : CosineStorage) (query : List ℚ) (cut id : ℕ) : Prop :=
  id ∈ storage.rows ∧
    storage.rows.countP (fun j => j ≠ id ∧ rankBy (storage.codeBadness query) j id) < cut

instance {cut : ℕ} : DecidablePred (storage.Fetched query cut) := fun _ => instDecidableAnd

/-- **The rescore makes up for the codes**: `k` rows that are fetched for both queries are better
than any that is fetched for one of them only. -/
def Recovers (storage : CosineStorage) (query query' : List ℚ) (cut k : ℕ) : Prop :=
  ∀ id, ¬ (storage.Fetched query cut id ↔ storage.Fetched query' cut id) →
    k ≤ storage.rows.countP fun j =>
      (storage.Fetched query cut j ∧ storage.Fetched query' cut j) ∧
        rankBy (storage.badness query) j id

theorem nodup_rows : storage.rows.Nodup := List.nodup_range

theorem rankAlike_iff : storage.RankAlike query query' ↔ ∀ i ∈ storage.rows, ∀ j ∈ storage.rows,
    rankBy (storage.codeBadness query) i j ↔ rankBy (storage.codeBadness query') i j :=
  rankBy_congr_iff.symm

theorem candidateRanking_eq_iff : storage.candidateRanking query' = storage.candidateRanking query ↔
    storage.RankAlike query query' := by
  rw [candidateRanking_eq, candidateRanking_eq, eq_comm, rankAlike_iff]
  exact insertionSort_eq_iff

theorem mem_fetched {cut : ℕ} :
    i ∈ best (rankBy (storage.codeBadness query)) cut storage.rows ↔ storage.Fetched query cut i :=
  mem_best_iff nodup_rows

/-- **A cut does no harm** exactly if the rescore makes up for it. -/
theorem recovers_iff {cut k : ℕ} (hc : 0 < c) :
    best (rankBy (storage.badness (scaled c query))) k
        (best (rankBy (storage.codeBadness (scaled c query))) cut storage.rows) =
      best (rankBy (storage.badness query)) k
        (best (rankBy (storage.codeBadness query)) cut storage.rows) ↔
      storage.Recovers query (scaled c query) cut k := by
  have hnodup (query : List ℚ) :
      (best (rankBy (storage.codeBadness query)) cut storage.rows).Nodup :=
    ((List.perm_insertionSort _ _).nodup_iff.mpr nodup_rows).sublist (List.take_sublist _ _)
  rw [best_rankBy_congr fun _ _ _ _ => rankBy_badness_scaled hc, eq_comm,
    best_eq_best_iff (hnodup _) (hnodup _)]
  refine forall_congr' fun id => imp_congr ?_ ?_
  · rw [mem_fetched, mem_fetched]
    tauto
  · rw [countP_best nodup_rows]
    simp only [mem_fetched, and_assoc]

theorem quantizedRescoreSearch_eq_iff {checked : Bool} {k oversample : ℕ} (hc : 0 < c) :
    storage.quantizedRescoreSearch checked (scaled c query) k oversample =
        storage.quantizedRescoreSearch checked query k oversample ↔
      ∀ cut, cutOf checked storage.count k oversample = some cut →
        storage.Recovers query (scaled c query) cut k := by
  rw [quantizedRescoreSearch_eq, quantizedRescoreSearch_eq]
  cases cutOf checked storage.count k oversample with
  | none => exact iff_of_true rfl fun _ h => nomatch h
  | some cut =>
    rw [Option.map_some, Option.map_some, Option.some.injEq, recovers_iff hc]
    exact ⟨fun h _ hcut => Option.some.inj hcut ▸ h, fun h => h cut rfl⟩

/-- **Ranked alike**, the same rows are fetched. -/
theorem RankAlike.recovers (h : storage.RankAlike query query') (cut k : ℕ) :
    storage.Recovers query query' cut k := by
  intro id hne
  refine absurd ?_ hne
  rw [← mem_fetched, ← mem_fetched, best_rankBy_congr (rankAlike_iff.mp h)]

end CosineStorage

/-! ## Queries that round to any codes -/

theorem roundAway_intCast (z : ℤ) : roundAway z = z := by
  have hhalf (z : ℤ) : ⌊(z : ℚ) + 1 / 2⌋ = z := by
    rw [Int.floor_eq_iff]
    constructor <;> linarith
  rw [roundAway]
  split
  · exact hhalf z
  · rw [← Int.cast_neg, hhalf, neg_neg]

theorem roundAway_of_abs_lt {x : ℚ} (h : |x| < 1 / 2) : roundAway x = 0 := by
  obtain ⟨hlower, hupper⟩ := abs_lt.mp h
  rw [roundAway]
  split
  · rw [Int.floor_eq_iff]
    constructor <;> push_cast <;> linarith
  · rw [neg_eq_zero, Int.floor_eq_iff]
    constructor <;> push_cast <;> linarith

namespace ScalarQuantizer

variable (quantizer : ScalarQuantizer)

/-- The vector that some codes stand for. -/
def decode (codes : List ℤ) : List ℚ := codes.map fun x : ℤ => quantizer.scale * x

/-- What is a multiple of the scale is rounded as the multiple. -/
theorem code_scale_mul (x : ℚ) :
    quantizer.code (quantizer.scale * x) = max (-127) (min (roundAway x) 127) := by
  rw [code, mul_one_div, mul_div_cancel_left₀ x quantizer.pos.ne']

theorem encode_decode {codes : List ℤ} (h : ∀ x ∈ codes, IsCode x) :
    quantizer.encode (quantizer.decode codes) = codes := by
  rw [encode, decode, List.map_map]
  refine (List.map_congr_left fun x hx => ?_).trans (List.map_id codes)
  obtain ⟨hlower, hupper⟩ := h x hx
  dsimp only [Function.comp, id]
  rw [code_scale_mul, roundAway_intCast, min_eq_left hupper, max_eq_right hlower]

/-- **A short query** rounds to zero. -/
theorem encode_scaled_decode {codes : List ℤ} (h : ∀ x ∈ codes, IsCode x) :
    quantizer.encode (scaled (1 / 255) (quantizer.decode codes)) =
      List.replicate codes.length 0 := by
  rw [encode, scaled, decode, List.map_map, List.map_map, List.map_eq_replicate_iff]
  intro x hx
  obtain ⟨hlower, hupper⟩ := h x hx
  have hx₁ : (-127 : ℚ) ≤ x := by exact_mod_cast hlower
  have hx₂ : (x : ℚ) ≤ 127 := by exact_mod_cast hupper
  have hsmall : |(1 / 255 : ℚ) * x| < 1 / 2 := by
    rw [abs_lt]
    constructor <;> linarith
  dsimp only [Function.comp]
  rw [mul_left_comm, code_scale_mul, roundAway_of_abs_lt hsmall]
  rfl

end ScalarQuantizer

/-! ## Products of codes -/

theorem products_replicate_zero (n : ℕ) (a : List ℤ) :
    (products (List.replicate n 0) a).sum = 0 := by
  refine List.sum_eq_zero fun t ht => ?_
  obtain ⟨x, hx, y, -, rfl⟩ := of_mem_zipWith ht
  rw [List.eq_of_mem_replicate hx, zero_mul]

theorem products_neg (a b : List ℤ) : (products (a.map Neg.neg) b).sum = -(products a b).sum := by
  induction a generalizing b with
  | nil => rfl
  | cons x a ih =>
    cases b with
    | nil => rfl
    | cons y b =>
      change -x * y + (products (a.map Neg.neg) b).sum = -(x * y + (products a b).sum)
      rw [ih, neg_add, neg_mul]

theorem products_comm (a b : List ℤ) : products a b = products b a :=
  List.zipWith_comm_of_comm fun x y => mul_comm x y

/-- The products of two vectors with themselves are no less than those with each other. -/
theorem two_mul_products_le {a b : List ℤ} (h : a.length = b.length) :
    2 * (products a b).sum ≤ (products a a).sum + (products b b).sum := by
  induction a generalizing b with
  | nil =>
    obtain rfl := List.length_eq_zero_iff.mp h.symm
    exact le_rfl
  | cons x a ih =>
    obtain ⟨y, b, rfl⟩ := List.exists_cons_of_length_eq_add_one h.symm
    have htail := ih (Nat.succ.inj h)
    change 2 * (x * y + (products a b).sum) ≤
      x * x + (products a a).sum + (y * y + (products b b).sum)
    nlinarith [sq_nonneg (x - y)]

/-- **Only the same vectors** attain that. -/
theorem eq_of_products_le {a b : List ℤ} (h : a.length = b.length)
    (hle : (products a a).sum + (products b b).sum ≤ 2 * (products a b).sum) : a = b := by
  induction a generalizing b with
  | nil => exact (List.length_eq_zero_iff.mp h.symm).symm
  | cons x a ih =>
    obtain ⟨y, b, rfl⟩ := List.exists_cons_of_length_eq_add_one h.symm
    have htail := two_mul_products_le (Nat.succ.inj h)
    change x * x + (products a a).sum + (y * y + (products b b).sum) ≤
      2 * (x * y + (products a b).sum) at hle
    have hhead : (x - y) ^ 2 = 0 := le_antisymm (by nlinarith) (sq_nonneg _)
    obtain rfl := sub_eq_zero.mp ((pow_eq_zero_iff two_ne_zero).mp hhead)
    rw [ih (Nat.succ.inj h) (by linarith)]

/-! ## Stores that are blind to lengths -/

namespace CosineStorage

variable {storage : CosineStorage} {query : List ℚ} {i : ℕ}

/-- **All rows have the same codes.** -/
def SameCodes (storage : CosineStorage) : Prop :=
  ∀ i ∈ storage.rows, ∀ j ∈ storage.rows, storage.block.row i = storage.block.row j

theorem mem_rows_zero (h : i ∈ storage.rows) : 0 ∈ storage.rows :=
  List.mem_range.mpr ((Nat.zero_le _).trans_lt (List.mem_range.mp h))

theorem length_row (h : i ∈ storage.rows) : (storage.block.row i).length = storage.dim :=
  (QuantizedVectorBlock.of_get
    (get_block ((List.mem_range.mp h).trans_le (Nat.mod_le _ _)))).1

theorem isCode_row {x : ℤ} (h : x ∈ storage.block.row i) : IsCode x :=
  storage.block.codes x (List.mem_of_mem_drop (List.mem_of_mem_take h))

theorem codeBadness_decode {codes : List ℤ} (h : ∀ x ∈ codes, IsCode x) :
    storage.codeBadness (storage.fit.decode codes) i =
      -((products codes (storage.block.row i)).sum : ℤ) := by
  rw [codeBadness_eq, ScalarQuantizer.encode_decode _ h]

theorem codeBadness_scaled_decode {codes : List ℤ} (h : ∀ x ∈ codes, IsCode x) :
    storage.codeBadness (scaled (1 / 255) (storage.fit.decode codes)) i = 0 := by
  rw [codeBadness_eq, ScalarQuantizer.encode_scaled_decode _ h, products_replicate_zero]
  rfl

/-- Equal codes are ranked by their number, for any query. -/
theorem SameCodes.rankAlike (h : storage.SameCodes) (query query' : List ℚ) :
    storage.RankAlike query query' := by
  intro i j hij hj
  have hrow := h i (List.mem_range.mpr (hij.trans hj)) j (List.mem_range.mpr hj)
  rw [codeBadness_eq, codeBadness_eq, codeBadness_eq, codeBadness_eq, hrow]
  exact iff_of_true le_rfl le_rfl

/-- **If the first row is always the best by its codes**, all rows have its codes. -/
theorem sameCodes_of_le (h : ∀ codes : List ℤ, (∀ x ∈ codes, IsCode x) → ∀ id ∈ storage.rows,
    storage.codeBadness (storage.fit.decode codes) 0 ≤
      storage.codeBadness (storage.fit.decode codes) id) : storage.SameCodes := by
  have hfirst (id : ℕ) (hid : id ∈ storage.rows) : storage.block.row id = storage.block.row 0 := by
    have hneg : ∀ x ∈ (storage.block.row 0).map Neg.neg, IsCode x := by
      intro x hx
      obtain ⟨y, hy, rfl⟩ := List.mem_map.mp hx
      obtain ⟨hlower, hupper⟩ := isCode_row hy
      exact ⟨neg_le_neg hupper, by linarith⟩
    have hle := h (storage.block.row id) (fun _ => isCode_row) id hid
    have hle' := h _ hneg id hid
    rw [codeBadness_decode fun _ => isCode_row, codeBadness_decode fun _ => isCode_row] at hle
    rw [codeBadness_decode hneg, codeBadness_decode hneg, products_neg, products_neg,
      products_comm _ (storage.block.row id)] at hle'
    norm_cast at hle hle'
    exact eq_of_products_le ((length_row hid).trans (length_row (mem_rows_zero hid)).symm)
      (by linarith)
  intro i hi j hj
  rw [hfirst i hi, hfirst j hj]

/-- **One row is fetched**: the best by its codes. -/
theorem fetched_one_iff : storage.Fetched query 1 i ↔
    i ∈ storage.rows ∧ ∀ j ∈ storage.rows, j ≠ i → ¬ rankBy (storage.codeBadness query) j i := by
  rw [Fetched, Nat.lt_one_iff, List.countP_eq_zero]
  simp only [decide_eq_true_eq, not_and]

/-- Codes of zero rank the rows by their numbers. -/
theorem fetched_one_of_zero {query : List ℚ} (h : ∀ id, storage.codeBadness query id = 0) :
    storage.Fetched query 1 i ↔ 0 ∈ storage.rows ∧ i = 0 := by
  rw [fetched_one_iff]
  constructor
  · rintro ⟨hi, hbest⟩
    refine ⟨mem_rows_zero hi, Nat.eq_zero_of_not_pos fun hpos => ?_⟩
    refine hbest 0 (mem_rows_zero hi) hpos.ne ((rankBy_of_lt hpos).mpr ?_)
    rw [h, h]
  · rintro ⟨hzero, rfl⟩
    refine ⟨hzero, fun j _ hj hrank => ?_⟩
    rw [rankBy_of_gt (Nat.pos_of_ne_zero hj), h, h] at hrank
    exact lt_irrefl _ hrank

/-- **The ranking is blind to lengths** exactly where all rows have the same codes. -/
theorem sameCodes_iff_ranking : storage.SameCodes ↔ ∀ query c, 0 < c →
    storage.candidateRanking (scaled c query) = storage.candidateRanking query := by
  refine ⟨fun h query c _ => candidateRanking_eq_iff.mpr (h.rankAlike _ _), fun h => ?_⟩
  refine sameCodes_of_le fun codes hcodes id hid => ?_
  rcases Nat.eq_zero_or_pos id with rfl | hpos
  · exact le_rfl
  · have halike := candidateRanking_eq_iff.mp
      (h (storage.fit.decode codes) (1 / 255) (by norm_num))
    refine (halike 0 id hpos (List.mem_range.mp hid)).mpr ?_
    rw [codeBadness_scaled_decode hcodes, codeBadness_scaled_decode hcodes]

/-- Asked for one row and fetching one, the search finds what it fetches. -/
theorem cutOf_one (h : i ∈ storage.rows) : cutOf true storage.count 1 1 = some 1 := by
  have hmod := List.mem_range.mp h
  rw [cutOf_eq (.inr (.inr ⟨by decide, by omega⟩))]
  exact congrArg some (min_eq_left (by omega))

/-- **The results are blind to lengths** exactly where all rows have the same codes. -/
theorem sameCodes_iff_results : storage.SameCodes ↔ ∀ query c, 0 < c → ∀ checked k oversample,
    storage.quantizedRescoreSearch checked (scaled c query) k oversample =
      storage.quantizedRescoreSearch checked query k oversample := by
  refine ⟨fun h query c hc checked k oversample => (quantizedRescoreSearch_eq_iff hc).mpr
    fun cut _ => (h.rankAlike _ _).recovers cut k, fun h => ?_⟩
  refine sameCodes_of_le fun codes hcodes id hid => ?_
  have hrecovers := (quantizedRescoreSearch_eq_iff (by norm_num)).mp
    (h (storage.fit.decode codes) (1 / 255) (by norm_num) true 1 1) 1 (cutOf_one hid)
  have hzero (id : ℕ) : storage.Fetched (scaled (1 / 255) (storage.fit.decode codes)) 1 id ↔
      0 ∈ storage.rows ∧ id = 0 := fetched_one_of_zero fun _ => codeBadness_scaled_decode hcodes
  -- the row fetched for the short query is the first; no other could make up for it
  have hfirst : storage.Fetched (storage.fit.decode codes) 1 0 := by
    by_contra hnot
    have hcount := hrecovers 0 fun hiff => hnot (hiff.mpr ((hzero 0).mpr ⟨mem_rows_zero hid, rfl⟩))
    obtain ⟨j, -, hj⟩ := List.countP_pos_iff.mp hcount
    obtain ⟨⟨hfetched, hfetched'⟩, -⟩ := of_decide_eq_true hj
    obtain ⟨-, rfl⟩ := (hzero j).mp hfetched'
    exact hnot hfetched
  rcases Nat.eq_zero_or_pos id with rfl | hpos
  · exact le_rfl
  · have hbest := (fetched_one_iff.mp hfirst).2 id hid hpos.ne'
    rw [rankBy_of_gt hpos] at hbest
    exact not_lt.mp hbest

/-- **When the length of a query does not matter**: to the results, exactly if the rescore makes up
for the codes; to the candidates, exactly if the codes rank the rows alike; and never, to either,
exactly if all rows have the same codes. -/
theorem scaled_query_iff (storage : CosineStorage) :
    (∀ query c, 0 < c → ∀ checked k oversample,
      (storage.quantizedRescoreSearch checked (scaled c query) k oversample =
          storage.quantizedRescoreSearch checked query k oversample ↔
        ∀ cut, cutOf checked storage.count k oversample = some cut →
          storage.Recovers query (scaled c query) cut k)) ∧
    (∀ query c, 0 < c →
      (storage.candidateRanking (scaled c query) = storage.candidateRanking query ↔
        storage.RankAlike query (scaled c query))) ∧
    ((∀ query c, 0 < c → ∀ checked k oversample,
      storage.quantizedRescoreSearch checked (scaled c query) k oversample =
        storage.quantizedRescoreSearch checked query k oversample) ↔ storage.SameCodes) ∧
    ((∀ query c, 0 < c →
      storage.candidateRanking (scaled c query) = storage.candidateRanking query) ↔
        storage.SameCodes) :=
  ⟨fun _ _ hc _ _ _ => quantizedRescoreSearch_eq_iff hc, fun _ _ _ => candidateRanking_eq_iff,
    sameCodes_iff_results.symm, sameCodes_iff_ranking.symm⟩

/-- Two rows of unit length. -/
def twoRows : CosineStorage := ⟨[1, 0, 3 / 5, 4 / 5], 2, 2, Nat.two_pos, rfl⟩

theorem scaled_query_twoRows : ¬ twoRows.RankAlike [1, 1 / 10] (scaled 1000 [1, 1 / 10]) := fun h =>
  absurd (((scaled_query_iff twoRows).2.1 _ _ (by norm_num)).mpr h) (by decide +kernel)

/-- A thousand times as long, a query is clamped, and another row is found. -/
theorem not_scaled_query : ¬ ∀ (storage : CosineStorage) (query : List ℚ) (c : ℚ), 0 < c →
    (∀ checked k oversample,
      storage.quantizedRescoreSearch checked (scaled c query) k oversample =
        storage.quantizedRescoreSearch checked query k oversample) ∧
    storage.candidateRanking (scaled c query) = storage.candidateRanking query := fun h =>
  absurd ((h twoRows [1, 1 / 10] 1000 (by norm_num)).1 true 1 1) (by decide +kernel)

end CosineStorage

end Vecvec.Quantization
