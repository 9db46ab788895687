import Mathlib.Algebra.Order.Field.Rat
import Mathlib.Tactic.NormNum
import Vecvec.Basic
import Vecvec.Machinery.Rounding

/-!
# Distance/Kernels — the distance kernels, and the machines they are selected for

There are three kernels for each distance: a portable one, one of eight lanes for x86-64 with AVX2
and FMA, and one of four for aarch64 with NEON.  All take their vectors in chunks of four
accumulators; they differ in the number of lanes, in whether a product is fused with its addition
and in how the lanes become one.

**In exact arithmetic all compute the plain distance**, whatever the length (`scoreF32_exact`).
**In floating point each stays within its own error of it** (`scoreF32_close`), so that two machines
agree up to both.
-/

namespace Vecvec

open Machinery

/-! ## The code -/

section

variable {F : Type} (A : Arith F)

/-- `sum += x * y` -/
def mulAdd (s x y : F) : F := A.add s (A.mul x y)

/-- `let d = x - y; sum += d * d` -/
def mulAddSub (s x y : F) : F :=
  let d := A.sub x y
  A.add s (A.mul d d)

/-- `vaddvq_f32`: the four lanes of a register, added in pairs. -/
def vaddvq : List F → F
  | [x0, x1, x2, x3] => A.add (A.add x0 x1) (A.add x2 x3)
  | _ => A.zero

namespace Scalar

/-- `dot_f32`; an accumulator is one number. -/
def dotF32 : List F → List F → F :=
  laneSum A.zero A.add (mulAdd A) (mulAdd A) 1 fun acc => acc.headD A.zero

/-- `sq_l2_f32` -/
def sqL2F32 : List F → List F → F :=
  laneSum A.zero A.add (mulAddSub A) (mulAddSub A) 1 fun acc => acc.headD A.zero

end Scalar

namespace X86

/-- The accumulators as one, and its lanes summed one after the other. -/
def across (s : List F) : F := s.foldl A.add A.zero

/-- `dot_f32` -/
def dotF32 : List F → List F → F :=
  laneSum A.zero A.add (fun acc va vb => A.fma va vb acc) (mulAdd A) 8 (across A)

/-- `sq_l2_f32` -/
def sqL2F32 : List F → List F → F :=
  laneSum A.zero A.add (fun acc va vb => let d := A.sub va vb; A.fma d d acc) (mulAddSub A) 8
    (across A)

end X86

namespace Aarch64

/-- `dot_f32` -/
def dotF32 : List F → List F → F :=
  laneSum A.zero A.add (fun acc va vb => A.fma va vb acc) (mulAdd A) 4 (vaddvq A)

/-- `sq_l2_f32` -/
def sqL2F32 : List F → List F → F :=
  laneSum A.zero A.add (fun acc va vb => let d := A.sub va vb; A.fma d d acc) (mulAddSub A) 4
    (vaddvq A)

end Aarch64

/-- A machine, as far as kernels are selected by it. -/
inductive Machine
  | x86 (avx2 fma : Bool)
  | aarch64 (neon : Bool)
  | other
  deriving DecidableEq

/-- `best_dot_f32` -/
def bestDotF32 : Machine → List F → List F → F
  | .x86 avx2 fma => if avx2 && fma then X86.dotF32 A else Scalar.dotF32 A
  | .aarch64 neon => if neon then Aarch64.dotF32 A else Scalar.dotF32 A
  | .other => Scalar.dotF32 A

/-- `best_sq_l2_f32` -/
def bestSqL2F32 : Machine → List F → List F → F
  | .x86 avx2 fma => if avx2 && fma then X86.sqL2F32 A else Scalar.sqL2F32 A
  | .aarch64 neon => if neon then Aarch64.sqL2F32 A else Scalar.sqL2F32 A
  | .other => Scalar.sqL2F32 A

/-- `DistanceKernel::score_f32`, of the kernel `select` chose on a machine. -/
def scoreF32 (m : Machine) : Metric → List F → List F → F
  | .cosine | .dot => bestDotF32 A m
  | .euclidean => bestSqL2F32 A m

end

/-! ## What they estimate -/

/-- The lanes of a machine's registers, as its kernels use them. -/
def Machine.lanes : Machine → ℕ
  | x86 avx2 fma => if avx2 && fma then 8 else 1
  | aarch64 neon => if neon then 4 else 1
  | other => 1

/-- How deep a machine nests the additions that make one number of its lanes. -/
def Machine.acrossDepth : Machine → ℕ
  | x86 avx2 fma => if avx2 && fma then 8 else 0
  | aarch64 neon => if neon then 2 else 0
  | other => 0

/-- How deep the sum over vectors of a length is nested, from terms of some depth. -/
def Machine.depth (m : Machine) (leaf n : ℕ) : ℕ :=
  leaf + n / (4 * m.lanes) + 2 + m.acrossDepth + n % (4 * m.lanes)

section

variable {F T : Type} [AddCommMonoid T] {A : Arith F} {E : Estimate A.zero A.add T}
  {term : F → F → T} {leaf : ℕ} {a b : List F}

theorem sums_vaddvq : E.Sums (vaddvq A) 4 2 := by
  rintro k l t ⟨ts, hl, hlen, rfl⟩
  obtain ⟨x0, l, rfl⟩ := List.exists_cons_of_length_eq_add_one hlen
  obtain ⟨x1, l, rfl⟩ := List.exists_cons_of_length_eq_add_one (Nat.succ.inj hlen)
  obtain ⟨x2, l, rfl⟩ := List.exists_cons_of_length_eq_add_one (Nat.succ.inj (Nat.succ.inj hlen))
  obtain ⟨x3, rfl⟩ :=
    List.length_eq_one_iff.mp (Nat.succ.inj (Nat.succ.inj (Nat.succ.inj hlen)))
  obtain ⟨t0, ts, h0, hl1, rfl⟩ := List.forall₂_cons_left_iff.mp hl
  obtain ⟨t1, ts, h1, hl2, rfl⟩ := List.forall₂_cons_left_iff.mp hl1
  obtain ⟨t2, ts, h2, hl3, rfl⟩ := List.forall₂_cons_left_iff.mp hl2
  obtain ⟨t3, ts, h3, hl4, rfl⟩ := List.forall₂_cons_left_iff.mp hl3
  cases hl4
  have hsum : [t0, t1, t2, t3].sum = t0 + t1 + (t2 + t3) := by simp [add_assoc]
  rw [hsum]
  exact E.add (E.add h0 h1) (E.add h2 h3)

/-- A kernel that is selected estimates what the two it is selected from do. -/
theorem holds_ite {c : Bool} {lanes depth n : ℕ} {k k' : List F → List F → F} {t : T}
    (hk : E.Holds (leaf + n / (4 * lanes) + 2 + depth + n % (4 * lanes)) (k a b) t)
    (hk' : E.Holds (leaf + n / (4 * 1) + 2 + 0 + n % (4 * 1)) (k' a b) t) :
    E.Holds (leaf + n / (4 * if c then lanes else 1) + 2 + (if c then depth else 0) +
      n % (4 * if c then lanes else 1)) ((if c then k else k') a b) t := by
  cases c with
  | true => exact hk
  | false => exact hk'

/-- **The dot product of any machine** estimates the sum of products. -/
theorem holds_bestDotF32 (E : Estimate A.zero A.add T) (hmul : E.Adds (mulAdd A) term leaf)
    (hfma : E.Adds (fun acc va vb => A.fma va vb acc) term leaf) (h : a.length = b.length)
    (m : Machine) : E.Holds (m.depth leaf a.length) (bestDotF32 A m a b) (termSum term a b) := by
  have hscalar := E.laneSum hmul hmul Estimate.sums_headD h
  cases m with
  | x86 avx2 fma => exact holds_ite (E.laneSum hfma hmul Estimate.sums_foldl h) hscalar
  | aarch64 neon => exact holds_ite (E.laneSum hfma hmul sums_vaddvq h) hscalar
  | other => exact hscalar

/-- **The squared distance of any machine** estimates the sum of squares. -/
theorem holds_bestSqL2F32 (E : Estimate A.zero A.add T) (hmul : E.Adds (mulAddSub A) term leaf)
    (hfma : E.Adds (fun acc va vb => let d := A.sub va vb; A.fma d d acc) term leaf)
    (h : a.length = b.length) (m : Machine) :
    E.Holds (m.depth leaf a.length) (bestSqL2F32 A m a b) (termSum term a b) := by
  have hscalar := E.laneSum hmul hmul Estimate.sums_headD h
  cases m with
  | x86 avx2 fma => exact holds_ite (E.laneSum hfma hmul Estimate.sums_foldl h) hscalar
  | aarch64 neon => exact holds_ite (E.laneSum hfma hmul sums_vaddvq h) hscalar
  | other => exact hscalar

end

/-! ## Exact arithmetic -/

/-- The plain distance. -/
def plainScore {K : Type} [CommRing K] : Metric → List K → List K → K
  | .cosine | .dot => termSum fun x y => x * y
  | .euclidean => termSum fun x y => (x - y) ^ 2

/-- **All kernels compute the plain distance** in exact arithmetic, on every machine and for vectors
of every length: each component is taken once. -/
theorem scoreF32_exact {K : Type} [CommRing K] (m : Machine) (metric : Metric) {a b : List K}
    (h : a.length = b.length) : scoreF32 (Arith.exact K) m metric a b = plainScore metric a b := by
  have hmul : (Estimate.exact K).Adds (mulAdd (Arith.exact K)) (fun x y => x * y) 0 :=
    fun x y _ hs => congrArg (· + x * y) hs
  have hfma : (Estimate.exact K).Adds (fun acc va vb => (Arith.exact K).fma va vb acc)
      (fun x y => x * y) 0 := fun x y _ hs => (congrArg (x * y + ·) hs).trans (add_comm ..)
  have hmulSub : (Estimate.exact K).Adds (mulAddSub (Arith.exact K)) (fun x y => (x - y) ^ 2) 0 :=
    fun x y _ hs => congrArg₂ (· + ·) hs (sq _).symm
  have hfmaSub : (Estimate.exact K).Adds
      (fun acc va vb => let d := (Arith.exact K).sub va vb; (Arith.exact K).fma d d acc)
      (fun x y => (x - y) ^ 2) 0 :=
    fun x y _ hs => (congrArg₂ (· + ·) (sq _).symm hs).trans (add_comm ..)
  cases metric with
  | cosine => exact holds_bestDotF32 _ hmul hfma h m
  | dot => exact holds_bestDotF32 _ hmul hfma h m
  | euclidean => exact holds_bestSqL2F32 _ hmulSub hfmaSub h m

/-- Numbers from `0` on. -/
def Sample.ascending (n : ℕ) : List ℤ := (List.range n).map (↑)

/-- Two chunks of eight lanes, and five components more. -/
theorem scoreF32_exact_chunks : scoreF32 (Arith.exact ℤ) (.x86 true true) .dot
    (Sample.ascending 69) (Sample.ascending 69) = 107134 := by
  have hplain : plainScore .dot (Sample.ascending 69) (Sample.ascending 69) = 107134 := by decide
  exact (scoreF32_exact _ _ rfl).trans hplain

/-! ## Floating point -/

section

variable {F K : Type} [Field K] [LinearOrder K] [IsStrictOrderedRing K] {A : Arith F} {u η : K}

/-- How deep the operations of one term are nested. -/
def termDepth : Metric → ℕ
  | .cosine | .dot => 1
  | .euclidean => 3

/-- The magnitude of the terms of a distance. -/
def scoreMass : Metric → List K → List K → K
  | .cosine | .dot => termSum fun x y => |x * y|
  | .euclidean => termSum fun x y => |(x - y) ^ 2|

/-- **How far from the distance a machine's score may be**: in proportion to the magnitude of the
terms, and to their number where they underflow. -/
def scoreError (u η : K) (m : Machine) (metric : Metric) (a b : List K) : K :=
  ((1 + u) ^ m.depth (termDepth metric) a.length - 1) * scoreMass metric a b +
    (1 + u) ^ m.depth (termDepth metric) a.length * (a.length * η)

omit [IsStrictOrderedRing K] in
/-- A sum of terms, by its parts. -/
theorem termSum_term (R : Rounded A u η) (p : K → K → K) {a b : List F} (h : a.length = b.length) :
    termSum (fun x y => Rounded.Total.term (p (R.value x) (R.value y)) η) a b =
      (termSum p (a.map R.value) (b.map R.value),
        termSum (fun x y => |p x y|) (a.map R.value) (b.map R.value), (a.length : K) * η) := by
  induction a generalizing b with
  | nil =>
    simp only [termSum, List.map_nil, List.zipWith_nil_left, List.sum_nil, List.length_nil,
      Nat.cast_zero, zero_mul]
    rfl
  | cons x xs ih =>
    obtain ⟨y, ys, rfl⟩ := List.exists_cons_of_length_eq_add_one h.symm
    have hrest := ih (Nat.succ.inj h)
    simp only [termSum, List.map_cons, List.zipWith_cons_cons, List.sum_cons] at hrest ⊢
    rw [hrest, List.length_cons, Nat.cast_succ, add_one_mul, add_comm (_ * η)]
    rfl

/-- **A machine's score is within its error of the distance**, if it is finite. -/
theorem scoreF32_close (R : Rounded A u η) (m : Machine) (metric : Metric) {a b : List F}
    (h : a.length = b.length) (hfin : R.Finite (scoreF32 A m metric a b)) :
    |R.value (scoreF32 A m metric a b) - plainScore metric (a.map R.value) (b.map R.value)| ≤
      scoreError u η m metric (a.map R.value) (b.map R.value) := by
  rw [scoreError, List.length_map]
  have hdot : R.Near (m.depth 1 a.length) (bestDotF32 A m a b) (termSum R.product a b) :=
    holds_bestDotF32 R.near Rounded.adds_mul Rounded.adds_fma h m
  have hsq : R.Near (m.depth 3 a.length) (bestSqL2F32 A m a b) (termSum R.squared a b) :=
    holds_bestSqL2F32 R.near Rounded.adds_mul_sub Rounded.adds_fma_sub h m
  have hproduct : termSum R.product a b = _ := termSum_term R (fun x y => x * y) h
  have hsquared : termSum R.squared a b = _ := termSum_term R (fun x y => (x - y) ^ 2) h
  rw [hproduct] at hdot
  rw [hsquared] at hsq
  cases metric with
  | cosine => exact hdot.close hfin
  | dot => exact hdot.close hfin
  | euclidean => exact hsq.close hfin

/-- **Two machines agree up to the errors of both.** -/
theorem scoreF32_agree (R : Rounded A u η) (m m' : Machine) (metric : Metric) {a b : List F}
    (h : a.length = b.length) (hfin : R.Finite (scoreF32 A m metric a b))
    (hfin' : R.Finite (scoreF32 A m' metric a b)) :
    |R.value (scoreF32 A m metric a b) - R.value (scoreF32 A m' metric a b)| ≤
      scoreError u η m metric (a.map R.value) (b.map R.value) +
        scoreError u η m' metric (a.map R.value) (b.map R.value) := by
  have hm := scoreF32_close R m metric h hfin
  have hm' := scoreF32_close R m' metric h hfin'
  rw [abs_sub_comm] at hm'
  exact (abs_sub_le _ _ _).trans (add_le_add hm hm')

end

/-! ### An arithmetic that rounds -/

namespace Sample

/-- Rounded down to an even number, from `16` on. -/
def coarse (n : ℤ) : ℤ := if |n| < 16 then n else n - n % 2

/-- The arithmetic of whole numbers, rounded so. -/
def coarseArith : Arith ℤ where
  zero := 0
  add x y := coarse (x + y)
  sub x y := coarse (x - y)
  mul x y := coarse (x * y)
  fma x y z := coarse (x * y + z)

theorem coarse_close (n : ℤ) : |((coarse n : ℤ) : ℚ) - n| ≤ 1 / 16 * |(n : ℚ)| := by
  have h : 16 * |coarse n - n| ≤ |n| := by
    unfold coarse
    split
    · simp
    · have hmod : |n - n % 2 - n| ≤ 1 := by
        rw [abs_le]
        omega
      omega
  have h : (16 : ℚ) * |((coarse n : ℤ) : ℚ) - n| ≤ |(n : ℚ)| := by exact_mod_cast h
  linarith

/-- It is off by a sixteenth at most. -/
def coarseRounded : Rounded coarseArith (1 / 16 : ℚ) 0 where
  Finite _ := True
  value n := n
  u_nonneg := by norm_num
  η_nonneg := le_rfl
  zero := Int.cast_zero
  add {x y} _ := ⟨trivial, trivial, by
    have h := coarse_close (x + y)
    rw [Int.cast_add] at h
    exact h⟩
  sub {x y} _ := ⟨trivial, trivial, by
    have h := coarse_close (x - y)
    rw [Int.cast_sub] at h
    exact h⟩
  mul {x y} _ := ⟨trivial, trivial, by
    have h := coarse_close (x * y)
    rw [Int.cast_mul] at h
    rw [add_zero]
    exact h⟩
  fma {x y z} _ := ⟨trivial, trivial, trivial, by
    have h := coarse_close (x * y + z)
    rw [Int.cast_add, Int.cast_mul] at h
    rw [add_zero]
    exact h⟩

end Sample

/-- Two chunks of four lanes, and six components more: the sum is rounded on the way. -/
theorem scoreF32_close_chunks :
    scoreF32 Sample.coarseArith (.aarch64 true) .euclidean (Sample.ascending 38)
      (Sample.ascending 38).reverse ≠
        plainScore .euclidean (Sample.ascending 38) (Sample.ascending 38).reverse ∧
    |Sample.coarseRounded.value (scoreF32 Sample.coarseArith (.aarch64 true) .euclidean
        (Sample.ascending 38) (Sample.ascending 38).reverse) -
      plainScore .euclidean ((Sample.ascending 38).map Sample.coarseRounded.value)
        ((Sample.ascending 38).reverse.map Sample.coarseRounded.value)| ≤
      scoreError (1 / 16) 0 (.aarch64 true) .euclidean
        ((Sample.ascending 38).map Sample.coarseRounded.value)
        ((Sample.ascending 38).reverse.map Sample.coarseRounded.value) :=
  ⟨by decide +kernel, scoreF32_close Sample.coarseRounded _ _ rfl trivial⟩

end Vecvec
