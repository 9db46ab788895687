import Mathlib.Algebra.Order.BigOperators.Group.List
import Mathlib.Tactic.Linarith
import Vecvec.Index.TopK

/-!
# Quantization/Int8 — distances between code vectors

The components of a code vector are from -127 to 127.  Dot products and squared distances of code
vectors are summed up in an `i32`; a sum that leaves its range is a panic where overflow is checked,
and wraps around where it is not.  Nothing but the dimension bounds a sum, so **the sums stay in
range exactly up to a dimension** that depends on the metric (`accumulates_iff`).
-/

namespace Vecvec.Quantization

/-! ## The accumulator -/

/-- The numbers of an `i32`. -/
def InI32 (x : ℤ) : Prop := -2 ^ 31 ≤ x ∧ x < 2 ^ 31

instance : DecidablePred InI32 := fun _ => instDecidableAnd

/-- `+` on `i32`s; `none` is a panic, where overflow is checked. -/
def addI32 (checked : Bool) (x y : ℤ) : Option ℤ :=
  if InI32 (x + y) then some (x + y)
  else if checked then none else some ((x + y).bmod (2 ^ 32))

/-- `sum` on `i32`s. -/
def sumI32 (checked : Bool) (terms : List ℤ) : Option ℤ := terms.foldlM (addI32 checked) 0

/-- The partial sums are numbers of an `i32`. -/
def StaysInI32 (terms : List ℤ) : Prop := ∀ n, InI32 (terms.take n).sum

variable {checked : Bool} {terms : List ℤ}

theorem foldlM_addI32 {acc : ℤ} (h : ∀ n, InI32 (acc + (terms.take n).sum)) :
    terms.foldlM (addI32 checked) acc = some (acc + terms.sum) := by
  induction terms generalizing acc with
  | nil => rw [List.sum_nil, add_zero]; rfl
  | cons t terms ih =>
    have hfirst : InI32 (acc + t) := by simpa using h 1
    have hrest (n : ℕ) : InI32 (acc + t + (terms.take n).sum) := by
      rw [add_assoc, ← List.sum_cons]
      exact h (n + 1)
    rw [List.foldlM_cons, addI32, if_pos hfirst]
    change terms.foldlM (addI32 checked) (acc + t) = _
    rw [ih hrest, List.sum_cons, add_assoc]

/-- **A sum that stays in range** is the sum. -/
theorem sumI32_eq (h : StaysInI32 terms) : sumI32 checked terms = some terms.sum := by
  rw [sumI32, foldlM_addI32 fun n => (zero_add (terms.take n).sum).symm ▸ h n, zero_add]

/-- Terms that are small enough for their number. -/
theorem staysInI32_of_le {bound : ℤ} (hterms : ∀ t ∈ terms, -bound ≤ t ∧ t ≤ bound)
    (hbound : terms.length * bound < 2 ^ 31) : StaysInI32 terms := by
  intro n
  have htake : ∀ t ∈ terms.take n, -bound ≤ t ∧ t ≤ bound := fun t ht =>
    hterms t (List.mem_of_mem_take ht)
  have hupper := List.sum_le_card_nsmul (terms.take n) bound fun t ht => (htake t ht).2
  have hlower := List.card_nsmul_le_sum (terms.take n) (-bound) fun t ht => (htake t ht).1
  rw [nsmul_eq_mul] at hupper hlower
  cases terms with
  | nil => rw [List.take_nil]; decide
  | cons t terms =>
    have hpos : 0 ≤ bound := by linarith [hterms t List.mem_cons_self]
    have hlen : (((t :: terms).take n).length : ℤ) * bound ≤ ((t :: terms).length : ℤ) * bound :=
      mul_le_mul_of_nonneg_right (by exact_mod_cast (List.take_sublist _ _).length_le) hpos
    exact ⟨by linarith, by linarith⟩

/-! ## The kernels -/

/-- A component of a code vector. -/
def IsCode (c : ℤ) : Prop := -127 ≤ c ∧ c ≤ 127

instance : DecidablePred IsCode := fun _ => instDecidableAnd

/-- The terms of a dot product. -/
def products (a b : List ℤ) : List ℤ := List.zipWith (fun x y => x * y) a b

/-- The terms of a squared distance. -/
def squares (a b : List ℤ) : List ℤ := List.zipWith (fun x y => (x - y) * (x - y)) a b

/-- `dot_i8` -/
def dotI8 (checked : Bool) (a b : List ℤ) : Option ℤ := sumI32 checked (products a b)

/-- `sq_l2_i8` -/
def sqL2I8 (checked : Bool) (a b : List ℤ) : Option ℤ := sumI32 checked (squares a b)

/-- What a metric sums up. -/
def summands (metric : Metric) (a b : List ℤ) : List ℤ :=
  match metric with
  | .cosine | .dot => products a b
  | .euclidean => squares a b

/-- A contiguous block of code vectors. -/
structure QuantizedVectorBlock where
  /-- The codes, row by row. -/
  data : List ℤ
  /-- The dimensionality. -/
  dim : ℕ
  /-- The metric of the vectors encoded. -/
  metric : Metric
  /-- Codes are clamped. -/
  codes : ∀ c ∈ data, IsCode c

namespace QuantizedVectorBlock

/-- The row `id`; `none` is a range out of bounds. -/
def get (block : QuantizedVectorBlock) (id : ℕ) : Option (List ℤ) :=
  if id * block.dim + block.dim ≤ block.data.length then
    some ((block.data.drop (id * block.dim)).take block.dim)
  else none

/-- Smaller is closer. -/
def toBadness (cast : ℤ → F32) (metric : Metric) (x : ℤ) : F32 :=
  match metric with
  | .cosine | .dot => F32.neg (cast x)
  | .euclidean => cast x

/-- The distance between two rows of codes, under the block's metric; `cast` is `as f32`. -/
def distance (cast : ℤ → F32) (checked : Bool) (block : QuantizedVectorBlock) (a b : List ℤ) :
    Option F32 :=
  match block.metric with
  | .cosine | .dot => (dotI8 checked a b).map fun x => F32.neg (cast x)
  | .euclidean => (sqL2I8 checked a b).map cast

/-- `badness`, of an encoded query and a row. -/
def badness (cast : ℤ → F32) (checked : Bool) (block : QuantizedVectorBlock)
    (quantizedQuery : List ℤ) (id : ℕ) : Option F32 := do
  let stored ← block.get id
  block.distance cast checked quantizedQuery stored

/-- `badness_between`, of two rows. -/
def badnessBetween (cast : ℤ → F32) (checked : Bool) (block : QuantizedVectorBlock) (a b : ℕ) :
    Option F32 := do
  let va ← block.get a
  let vb ← block.get b
  block.distance cast checked va vb

variable {block : QuantizedVectorBlock} {id : ℕ} {row : List ℤ}

theorem of_get (h : block.get id = some row) :
    row.length = block.dim ∧ ∀ c ∈ row, IsCode c := by
  rw [get] at h
  split at h
  · cases h
    refine ⟨?_, fun c hc => block.codes c (List.mem_of_mem_drop (List.mem_of_mem_take hc))⟩
    rw [List.length_take, List.length_drop]
    omega
  · cases h

/-- Sums that stay in range give the distance of the exact sum. -/
theorem distance_eq {cast : ℤ → F32} {a b : List ℤ} (h : StaysInI32 (summands block.metric a b)) :
    block.distance cast checked a b =
      some (toBadness cast block.metric (summands block.metric a b).sum) := by
  rw [distance]
  cases hmetric : block.metric with
  | euclidean =>
    rw [hmetric] at h
    exact congrArg (Option.map cast) (sumI32_eq h)
  | cosine | dot =>
    rw [hmetric] at h
    exact congrArg (Option.map fun x => F32.neg (cast x)) (sumI32_eq h)

end QuantizedVectorBlock

/-! ## The dimension -/

/-- Code vectors of the dimension. -/
def IsCodeVector (dim : ℕ) (a : List ℤ) : Prop := a.length = dim ∧ ∀ c ∈ a, IsCode c

/-- **Quantised distances do not overflow**: no sum leaves the range of an `i32`, and the distances
between a query and a row and between two rows are those of the exact sums. -/
structure Accumulates (dim : ℕ) (metric : Metric) : Prop where
  stays : ∀ a b, IsCodeVector dim a → IsCodeVector dim b → StaysInI32 (summands metric a b)
  badness : ∀ cast checked (block : QuantizedVectorBlock), block.dim = dim → block.metric = metric →
    ∀ query, IsCodeVector dim query → ∀ id row, block.get id = some row →
      block.badness cast checked query id =
        some (QuantizedVectorBlock.toBadness cast metric (summands metric query row).sum)
  between : ∀ cast checked (block : QuantizedVectorBlock), block.dim = dim → block.metric = metric →
    ∀ a b va vb, block.get a = some va → block.get b = some vb →
      block.badnessBetween cast checked a b =
        some (QuantizedVectorBlock.toBadness cast metric (summands metric va vb).sum)

/-- The largest term of a metric. -/
def termBound : Metric → ℤ
  | .cosine | .dot => 127 * 127
  | .euclidean => 254 * 254

/-- The largest dimension whose sums fit. -/
def maxDim : Metric → ℕ
  | .cosine | .dot => 133144
  | .euclidean => 33286

theorem mul_termBound_lt_iff {dim : ℕ} {metric : Metric} :
    dim * termBound metric < 2 ^ 31 ↔ dim ≤ maxDim metric := by
  cases metric <;> simp only [termBound, maxDim] <;> omega

theorem of_mem_zipWith {f : ℤ → ℤ → ℤ} {a b : List ℤ} {t : ℤ} (h : t ∈ List.zipWith f a b) :
    ∃ x ∈ a, ∃ y ∈ b, t = f x y := by
  obtain ⟨i, hi, rfl⟩ := List.getElem_of_mem h
  rw [List.length_zipWith, lt_min_iff] at hi
  rw [List.getElem_zipWith]
  exact ⟨a[i], List.getElem_mem hi.1, b[i], List.getElem_mem hi.2, rfl⟩

/-- **A term is bounded** by that of two opposite extremes. -/
theorem bounded_summands {metric : Metric} {a b : List ℤ} (ha : ∀ c ∈ a, IsCode c)
    (hb : ∀ c ∈ b, IsCode c) : ∀ t ∈ summands metric a b, -termBound metric ≤ t ∧
      t ≤ termBound metric := by
  intro t ht
  cases metric with
  | euclidean =>
    obtain ⟨x, hx, y, hy, rfl⟩ := of_mem_zipWith ht
    obtain ⟨hx₁, hx₂⟩ := ha x hx
    obtain ⟨hy₁, hy₂⟩ := hb y hy
    constructor <;> simp only [termBound] <;> nlinarith
  | cosine | dot =>
    obtain ⟨x, hx, y, hy, rfl⟩ := of_mem_zipWith ht
    obtain ⟨hx₁, hx₂⟩ := ha x hx
    obtain ⟨hy₁, hy₂⟩ := hb y hy
    constructor <;> simp only [termBound] <;> nlinarith

theorem length_summands {dim : ℕ} {metric : Metric} {a b : List ℤ} (ha : a.length = dim)
    (hb : b.length = dim) : (summands metric a b).length = dim := by
  cases metric <;> exact List.length_zipWith.trans (by rw [ha, hb, min_self])

/-- Two opposite extremes have the largest terms. -/
theorem summands_replicate (dim : ℕ) (metric : Metric) :
    ∃ y, IsCode y ∧ summands metric (List.replicate dim 127) (List.replicate dim y) =
      List.replicate dim (termBound metric) := by
  cases metric with
  | euclidean => exact ⟨-127, by decide, List.zipWith_replicate'.trans rfl⟩
  | cosine | dot => exact ⟨127, by decide, List.zipWith_replicate'.trans rfl⟩

theorem isCodeVector_replicate {dim : ℕ} {y : ℤ} (hy : IsCode y) :
    IsCodeVector dim (List.replicate dim y) :=
  ⟨List.length_replicate, fun _ hc => List.eq_of_mem_replicate hc ▸ hy⟩

/-- In a larger dimension the extremes leave the range. -/
theorem Accumulates.le_maxDim {dim : ℕ} {metric : Metric} (h : Accumulates dim metric) :
    dim ≤ maxDim metric := by
  obtain ⟨y, hy, hsummands⟩ := summands_replicate dim metric
  have hextreme : IsCodeVector dim (List.replicate dim 127) := isCodeVector_replicate (by decide)
  have hsum := h.stays _ _ hextreme (isCodeVector_replicate hy) dim
  rw [hsummands, List.take_of_length_le List.length_replicate.le, List.sum_replicate,
    nsmul_eq_mul] at hsum
  exact mul_termBound_lt_iff.mp hsum.2

/-- **Sums fit exactly up to a dimension**: 133144 for dot products, 33286 for squared distances. -/
theorem accumulates_iff (dim : ℕ) (metric : Metric) :
    Accumulates dim metric ↔ dim ≤ maxDim metric := by
  refine ⟨Accumulates.le_maxDim, fun hdim => ?_⟩
  rw [← mul_termBound_lt_iff] at hdim
  have hstays (a b : List ℤ) (ha : IsCodeVector dim a) (hb : IsCodeVector dim b) :
      StaysInI32 (summands metric a b) :=
    staysInI32_of_le (bounded_summands ha.2 hb.2) ((length_summands ha.1 hb.1).symm ▸ hdim)
  refine ⟨hstays, ?_, ?_⟩
  · rintro cast checked block rfl rfl query hquery id row hrow
    rw [QuantizedVectorBlock.badness, hrow]
    exact QuantizedVectorBlock.distance_eq (hstays _ _ hquery (QuantizedVectorBlock.of_get hrow))
  · rintro cast checked block rfl rfl a b va vb hva hvb
    rw [QuantizedVectorBlock.badnessBetween, hva, hvb]
    exact QuantizedVectorBlock.distance_eq (hstays _ _ (QuantizedVectorBlock.of_get hva)
      (QuantizedVectorBlock.of_get hvb))

/-- Two opposite vectors of 33287 components: a collection of that dimension can be created. -/
theorem not_accumulates : ¬ ∀ dim, dim ≠ 0 → ∀ metric, Accumulates dim metric := fun h =>
  absurd (h 33287 (by decide) .euclidean).le_maxDim (by decide)

end Vecvec.Quantization
