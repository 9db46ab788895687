import Mathlib.Data.BitVec
import Mathlib.Data.Set.Card
import Mathlib.Algebra.BigOperators.Intervals

/-!
# Machinery/Mixing — mixing the bits of a word

A word is mixed by steps that lose nothing: a number added, another word xored, the word's own upper
bits xored onto its lower ones (`xorShift_injective`), an odd number multiplied (`mul_injective`).
So is what is made of such steps, and **a mixer that loses nothing spreads evenly** (`ncard_mix`):
of all words, exactly `2 ^ k` come to have given upper bits, whichever, if `k` bits are dropped.
-/

namespace Machinery

variable {w : ℕ}

/-! ## Steps -/

/-- `x ^ (x >> k)` -/
def xorShift (k : ℕ) (x : BitVec w) : BitVec w := x ^^^ x >>> k

/-- **Upper bits xored onto lower ones**: a difference of two words keeps its topmost bit. -/
theorem xorShift_injective {k : ℕ} (hk : 0 < k) : Function.Injective (xorShift (w := w) k) := by
  intro x y h
  have hfix : x ^^^ y = (x ^^^ y) >>> k := by
    have h : x ^^^ x >>> k ^^^ (y ^^^ y >>> k) = 0#w := by
      rw [show x ^^^ x >>> k = y ^^^ y >>> k from h, BitVec.xor_self]
    rw [BitVec.ushiftRight_xor_distrib, ← BitVec.xor_right_inj ((x ^^^ y) : BitVec w),
      BitVec.xor_self, ← h]
    ac_rfl
  have hdiv : (x ^^^ y).toNat = (x ^^^ y).toNat / 2 ^ k := by
    conv_lhs => rw [hfix]
    rw [BitVec.toNat_ushiftRight, Nat.shiftRight_eq_div_pow]
  have hzero : (x ^^^ y).toNat = 0 := by
    by_contra hne
    exact (Nat.div_lt_self (Nat.pos_of_ne_zero hne) (Nat.one_lt_two_pow hk.ne')).ne' hdiv
  exact BitVec.xor_eq_zero_iff.mp (BitVec.eq_of_toNat_eq hzero)

/-- **A multiplication** by a number that has an inverse. -/
theorem mul_injective {c d : BitVec w} (h : c * d = 1) :
    Function.Injective fun x : BitVec w => x * c := fun x y hxy => by
  have hxy := congrArg (· * d) hxy
  dsimp only at hxy
  rwa [mul_assoc, mul_assoc, h, mul_one, mul_one] at hxy

/-! ## Spread -/

instance finite_bitVec : Finite (BitVec w) := Finite.of_equiv _ BitVec.equivFin.symm.toEquiv

/-- A sum over blocks of one length, of which each counts as often as it is long. -/
theorem sum_range_mul_div (f : ℕ → ℕ) (m : ℕ) {k : ℕ} (hk : 0 < k) :
    ∑ i ∈ Finset.range (m * k), f (i / k) = k * ∑ j ∈ Finset.range m, f j := by
  induction m with
  | zero => rw [zero_mul, Finset.sum_range_zero, Finset.sum_range_zero, mul_zero]
  | succ m ih =>
    have hblock : ∀ b ∈ Finset.range k, f ((m * k + b) / k) = f m := fun b hb => by
      rw [mul_comm m, Nat.mul_add_div hk, Nat.div_eq_of_lt (Finset.mem_range.mp hb), add_zero]
    rw [Nat.succ_mul, Finset.sum_range_add, ih, Finset.sum_congr rfl hblock, Finset.sum_const,
      Finset.card_range, Finset.sum_range_succ, mul_add]
    rfl

/-- **Words with given upper bits**: as many for each of them. -/
theorem ncard_ushiftRight {k : ℕ} (hk : k ≤ w) (p : ℕ → Prop) :
    {x : BitVec w | p (x >>> k).toNat}.ncard = 2 ^ k * {j | j < 2 ^ (w - k) ∧ p j}.ncard := by
  classical
  have himage : BitVec.toNat '' {x : BitVec w | p (x >>> k).toNat} =
      ((Finset.range (2 ^ w)).filter fun n => p (n / 2 ^ k) : Finset ℕ) := by
    ext n
    rw [Finset.coe_filter]
    constructor
    · rintro ⟨x, hx, rfl⟩
      rw [Set.mem_ofPred, BitVec.toNat_ushiftRight, Nat.shiftRight_eq_div_pow] at hx
      exact ⟨Finset.mem_range.mpr x.isLt, hx⟩
    · rintro ⟨hn, hp⟩
      have hval : (BitVec.ofNat w n).toNat = n := by
        rw [BitVec.toNat_ofNat, Nat.mod_eq_of_lt (Finset.mem_range.mp hn)]
      refine ⟨BitVec.ofNat w n, ?_, hval⟩
      rwa [Set.mem_ofPred, BitVec.toNat_ushiftRight, Nat.shiftRight_eq_div_pow, hval]
  have hset : {j | j < 2 ^ (w - k) ∧ p j} = ((Finset.range (2 ^ (w - k))).filter p : Finset ℕ) := by
    ext j
    rw [Finset.coe_filter, Set.mem_ofPred, Set.mem_ofPred, Finset.mem_range]
  rw [← Set.ncard_image_of_injective _ (BitVec.toNat_injective), himage, hset, Set.ncard_coe_finset,
    Set.ncard_coe_finset, Finset.card_filter, Finset.card_filter,
    ← sum_range_mul_div _ _ (Nat.two_pow_pos k), ← pow_add, Nat.sub_add_cancel hk]

/-- **A mixer that loses nothing spreads evenly**: of all words it takes as many to each of the
upper bits. -/
theorem ncard_mix {f : BitVec w → BitVec w} (hf : Function.Injective f) {k : ℕ} (hk : k ≤ w)
    (p : ℕ → Prop) :
    {x | p (f x >>> k).toNat}.ncard = 2 ^ k * {j | j < 2 ^ (w - k) ∧ p j}.ncard := by
  have hrange : Set.range f = Set.univ := (Finite.surjective_of_injective hf).range_eq
  rw [← ncard_ushiftRight hk]
  exact Set.ncard_preimage_of_injective_subset_range (s := {x : BitVec w | p (x >>> k).toNat}) hf
    (hrange ▸ Set.subset_univ _)

end Machinery
