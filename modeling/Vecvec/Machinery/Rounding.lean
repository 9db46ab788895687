import Mathlib.Algebra.Order.Ring.Abs
import Mathlib.Tactic.Linarith
import Mathlib.Tactic.Positivity
import Mathlib.Tactic.Ring
import Vecvec.Machinery.Lanes

/-!
# Machinery/Rounding — sums of products that are rounded

Each operation of a floating-point arithmetic is within a relative error `u` of the exact one, and a
product may be off by `η` more, where it underflows; that is so as long as results are finite, and a
finite result has finite operands (`Rounded`).  A number may then be **near** a sum (`near`): the
deeper the additions are nested the farther, in proportion to the magnitude of the terms.
-/

namespace Machinery

/-- The operations of an arithmetic. -/
structure Arith (F : Type) where
  zero : F
  add : F → F → F
  sub : F → F → F
  mul : F → F → F
  /-- `x * y + z` -/
  fma : F → F → F → F

/-- The arithmetic of a ring. -/
def Arith.exact (R : Type) [CommRing R] : Arith R :=
  ⟨0, (· + ·), (· - ·), (· * ·), fun x y z => x * y + z⟩

/-- **In a ring, numbers estimate what they are.** -/
def Estimate.exact (R : Type) [CommRing R] :
    Estimate (Arith.exact R).zero (Arith.exact R).add R where
  Holds _ s t := s = t
  mono _ h := h
  zero := rfl
  add h h' := congrArg₂ _ h h'

variable {F K : Type} [Field K] [LinearOrder K] [IsStrictOrderedRing K]

/-- A floating-point arithmetic: its finite numbers have values, and its operations round.  Of
`f32`, rounding to nearest, `u` is `2⁻²⁴` and `η` is `2⁻¹⁵⁰`. -/
structure Rounded (A : Arith F) (u η : K) where
  Finite : F → Prop
  value : F → K
  u_nonneg : 0 ≤ u
  η_nonneg : 0 ≤ η
  zero : value A.zero = 0
  add : ∀ {x y}, Finite (A.add x y) → Finite x ∧ Finite y ∧
    |value (A.add x y) - (value x + value y)| ≤ u * |value x + value y|
  sub : ∀ {x y}, Finite (A.sub x y) → Finite x ∧ Finite y ∧
    |value (A.sub x y) - (value x - value y)| ≤ u * |value x - value y|
  mul : ∀ {x y}, Finite (A.mul x y) → Finite x ∧ Finite y ∧
    |value (A.mul x y) - value x * value y| ≤ u * |value x * value y| + η
  fma : ∀ {x y z}, Finite (A.fma x y z) → Finite x ∧ Finite y ∧ Finite z ∧
    |value (A.fma x y z) - (value x * value y + value z)| ≤ u * |value x * value y + value z| + η

namespace Rounded

variable {A : Arith F} {u η : K} (R : Rounded A u η)

/-- A sum, the magnitude of its terms, and what may underflow in them. -/
abbrev Total (K : Type) := K × K × K

/-- How far a number at a depth may be from a sum. -/
def error (u : K) (k : ℕ) (t : Total K) : K := ((1 + u) ^ k - 1) * t.2.1 + (1 + u) ^ k * t.2.2

/-- **A number is near a sum.** -/
structure Near (k : ℕ) (s : F) (t : Total K) : Prop where
  abs_le : |t.1| ≤ t.2.1
  nonneg : 0 ≤ t.2.2
  close : R.Finite s → |R.value s - t.1| ≤ error u k t

variable {R} {k k' : ℕ} {s s' : F} {t t' : Total K}

theorem one_le_pow (R : Rounded A u η) (k : ℕ) : 1 ≤ (1 + u) ^ k :=
  one_le_pow₀ (le_add_of_nonneg_right R.u_nonneg)

theorem error_mono (R : Rounded A u η) (hk : k ≤ k') (ht : 0 ≤ t.2.1) (ht' : 0 ≤ t.2.2) :
    error u k t ≤ error u k' t := by
  have hpow : (1 + u) ^ k ≤ (1 + u) ^ k' :=
    pow_le_pow_right₀ (le_add_of_nonneg_right R.u_nonneg) hk
  exact add_le_add (mul_le_mul_of_nonneg_right (sub_le_sub_right hpow 1) ht)
    (mul_le_mul_of_nonneg_right hpow ht')

theorem Near.mono (h : R.Near k s t) (hk : k ≤ k') : R.Near k' s t :=
  ⟨h.abs_le, h.nonneg, fun hs => (h.close hs).trans
    (R.error_mono hk ((abs_nonneg _).trans h.abs_le) h.nonneg)⟩

omit [LinearOrder K] [IsStrictOrderedRing K] in
/-- Errors of the parts of a sum. -/
theorem error_add (u : K) (k : ℕ) (t t' : Total K) :
    error u k (t + t') = error u k t + error u k t' := by
  simp only [error, Prod.fst_add, Prod.snd_add]
  ring

/-- **One more rounding**: a number within the error of a sum, rounded once, is within the next. -/
theorem abs_sub_le_of_round {x y e : K} (hu : 0 ≤ u) (hclose : |y - t.1| ≤ error u k t)
    (habs : |t.1| ≤ t.2.1) (hround : |x - y| ≤ u * |y| + e) :
    |x - t.1| ≤ error u (k + 1) t + e := by
  have hy : |y| ≤ error u k t + t.2.1 := by
    calc |y| = |(y - t.1) + t.1| := by rw [sub_add_cancel]
      _ ≤ |y - t.1| + |t.1| := abs_add_le _ _
      _ ≤ error u k t + t.2.1 := add_le_add hclose habs
  have hnext : error u (k + 1) t = error u k t + u * (error u k t + t.2.1) := by
    rw [error, error, pow_succ]
    ring
  calc |x - t.1| = |(x - y) + (y - t.1)| := by rw [sub_add_sub_cancel]
    _ ≤ |x - y| + |y - t.1| := abs_add_le _ _
    _ ≤ (u * |y| + e) + error u k t := add_le_add hround hclose
    _ ≤ (u * (error u k t + t.2.1) + e) + error u k t :=
        add_le_add (add_le_add (mul_le_mul_of_nonneg_left hy hu) le_rfl) le_rfl
    _ = error u (k + 1) t + e := by rw [hnext]; ring

/-- **Adding two numbers** near two sums gives one near both. -/
theorem Near.add (h : R.Near k s t) (h' : R.Near k s' t') :
    R.Near (k + 1) (A.add s s') (t + t') where
  abs_le := (abs_add_le _ _).trans (add_le_add h.abs_le h'.abs_le)
  nonneg := add_nonneg h.nonneg h'.nonneg
  close hfin := by
    obtain ⟨hs, hs', hround⟩ := R.add hfin
    have hclose : |R.value s + R.value s' - (t + t').1| ≤ error u k (t + t') := by
      rw [error_add, Prod.fst_add, add_sub_add_comm]
      exact (abs_add_le _ _).trans (add_le_add (h.close hs) (h'.close hs'))
    have habs : |(t + t').1| ≤ (t + t').2.1 :=
      (abs_add_le _ _).trans (add_le_add h.abs_le h'.abs_le)
    simpa using abs_sub_le_of_round (e := 0) R.u_nonneg hclose habs (by simpa using hround)

theorem near_zero : R.Near 0 A.zero 0 where
  abs_le := by simp
  nonneg := le_rfl
  close _ := by simp [R.zero, error]

variable (R) in
/-- **Being near** is an estimate. -/
def near : Estimate A.zero A.add (Total K) where
  Holds := R.Near
  mono hk h := h.mono hk
  zero := near_zero
  add h h' := h.add h'

/-! ## Products -/

/-- A term and its magnitude. -/
def Total.term (p e : K) : Total K := (p, |p|, e)

theorem error_nonneg (R : Rounded A u η) (k : ℕ) (p : K) {e : K} (he : 0 ≤ e) :
    0 ≤ error u k (Total.term p e) :=
  add_nonneg (mul_nonneg (sub_nonneg.mpr (R.one_le_pow k)) (abs_nonneg p))
    (mul_nonneg (zero_le_one.trans (R.one_le_pow k)) he)

/-- What underflows in a term counts in its error. -/
theorem error_term_add_le (R : Rounded A u η) (k : ℕ) (p : K) :
    error u k (Total.term p 0) + η ≤ error u k (Total.term p η) := by
  have hη : η ≤ (1 + u) ^ k * η := le_mul_of_one_le_left R.η_nonneg (R.one_le_pow k)
  simp only [error, Total.term, mul_zero, add_zero]
  exact add_le_add le_rfl hη

variable (R) in
/-- The product of two numbers is near a term, but for its rounding. -/
def NearProduct (k : ℕ) (x y : F) (p : K) : Prop :=
  R.Finite x → R.Finite y → |R.value x * R.value y - p| ≤ error u k (Total.term p 0)

/-- A product is near its term. -/
theorem near_mul {x y : F} {p : K} (h : R.NearProduct k x y p) :
    R.Near (k + 1) (A.mul x y) (Total.term p η) where
  abs_le := le_rfl
  nonneg := R.η_nonneg
  close hfin := by
    obtain ⟨hx, hy, hround⟩ := R.mul hfin
    exact (abs_sub_le_of_round (t := Total.term p 0) R.u_nonneg (h hx hy) le_rfl hround).trans
      (R.error_term_add_le (k + 1) p)

/-- A product fused with a number near a sum is near the sum and the term. -/
theorem near_fma {x y : F} {p : K} (h : R.NearProduct k x y p) (hs : R.Near k s t) :
    R.Near (k + 1) (A.fma x y s) (t + Total.term p η) where
  abs_le := (abs_add_le _ _).trans (add_le_add hs.abs_le le_rfl)
  nonneg := add_nonneg hs.nonneg R.η_nonneg
  close hfin := by
    obtain ⟨hx, hy, hfins, hround⟩ := R.fma hfin
    have hclose : |R.value x * R.value y + R.value s - (t + Total.term p 0).1| ≤
        error u k (t + Total.term p 0) := by
      rw [error_add, add_comm (error u k t), add_comm t, Prod.fst_add, add_sub_add_comm]
      exact (abs_add_le _ _).trans (add_le_add (h hx hy) (hs.close hfins))
    have habs : |(t + Total.term p 0).1| ≤ (t + Total.term p 0).2.1 :=
      (abs_add_le _ _).trans (add_le_add hs.abs_le le_rfl)
    refine (abs_sub_le_of_round R.u_nonneg hclose habs hround).trans ?_
    rw [error_add, error_add, add_assoc]
    exact add_le_add le_rfl (R.error_term_add_le (k + 1) p)

variable (R) in
/-- A product, as a term. -/
def product (x y : F) : Total K := Total.term (R.value x * R.value y) η

variable (R) in
/-- The square of a difference, as a term. -/
def squared (x y : F) : Total K := Total.term ((R.value x - R.value y) ^ 2) η

theorem nearProduct_self (x y : F) : R.NearProduct k x y (R.value x * R.value y) := fun _ _ => by
  rw [sub_self, abs_zero]
  exact R.error_nonneg k _ le_rfl

/-- **The square of a rounded difference** is near that of the difference. -/
theorem nearProduct_sub (hk : 2 ≤ k) (x y : F) :
    R.NearProduct k (A.sub x y) (A.sub x y) ((R.value x - R.value y) ^ 2) := by
  intro hfin _
  obtain ⟨-, -, hround⟩ := R.sub hfin
  set d := R.value x - R.value y
  set e := R.value (A.sub x y) - d
  have hu := R.u_nonneg
  have hval : R.value (A.sub x y) = d + e := by simp [e]
  have habs : |2 * d * e + e ^ 2| ≤ ((1 + u) ^ 2 - 1) * |d ^ 2| := by
    calc |2 * d * e + e ^ 2| ≤ |2 * d * e| + |e ^ 2| := abs_add_le _ _
      _ = 2 * |d| * |e| + |e| * |e| := by rw [abs_mul, abs_mul, abs_two, abs_pow, sq]
      _ ≤ 2 * |d| * (u * |d|) + (u * |d|) * (u * |d|) :=
          add_le_add (mul_le_mul_of_nonneg_left hround (by positivity))
            (mul_le_mul hround hround (abs_nonneg e) (by positivity))
      _ = ((1 + u) ^ 2 - 1) * |d ^ 2| := by rw [abs_pow]; ring
  have hsq : R.value (A.sub x y) * R.value (A.sub x y) - d ^ 2 = 2 * d * e + e ^ 2 := by
    rw [hval]
    ring
  rw [hsq]
  refine habs.trans ((le_of_eq ?_).trans
    (R.error_mono (t := Total.term (d ^ 2) 0) hk (abs_nonneg _) le_rfl))
  simp [error, Total.term]

/-! ## Terms added -/

/-- A product multiplied and added. -/
theorem adds_mul : R.near.Adds (fun s x y => A.add s (A.mul x y)) R.product 1 := fun x y hk hs =>
  hs.add ((near_mul (nearProduct_self (k := 0) x y)).mono hk)

/-- A product fused. -/
theorem adds_fma : R.near.Adds (fun s x y => A.fma x y s) R.product 1 := fun x y _ hs =>
  near_fma (nearProduct_self x y) hs

/-- A square multiplied and added. -/
theorem adds_mul_sub :
    R.near.Adds (fun s x y => A.add s (A.mul (A.sub x y) (A.sub x y))) R.squared 3 :=
  fun x y hk hs => hs.add ((near_mul (nearProduct_sub (k := 2) le_rfl x y)).mono hk)

/-- A square fused. -/
theorem adds_fma_sub : R.near.Adds (fun s x y => A.fma (A.sub x y) (A.sub x y) s) R.squared 3 :=
  fun x y hk hs => near_fma (nearProduct_sub (Nat.le_of_succ_le hk) x y) hs

end Rounded

end Machinery
