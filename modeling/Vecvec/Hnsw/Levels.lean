import Mathlib.Analysis.SpecialFunctions.Log.Basic
import Vecvec.Hnsw.Index
import Vecvec.Machinery.Mixing

/-!
# Hnsw/Levels — the levels of points, drawn from their ids

A point's level is a function of its id and the index's seed: both are hashed to a word, whose upper
bits are read as a number `u` below one, and the level is `⌊-ln u / ln M⌋`, clamped.

**The hash loses nothing**: under one seed no two ids share a word (`draw_injective`), and over all
seeds each id comes to each `u` equally often (`ncard_levelFor`).  So, but for the rounding of the
logarithm, **a point reaches layer `l` with probability `M ^ -l`**, to the last of the 53 bits
(`ncard_le_levelFor`).
-/

namespace Vecvec.Hnsw

open Machinery

/-! ## The code -/

/-- `splitmix64` -/
def splitmix64 (x : BitVec 64) : BitVec 64 :=
  let x := x + 0x9E3779B97F4A7C15#64
  let z := x
  let z := (z ^^^ (z >>> 30)) * 0xBF58476D1CE4E5B9#64
  let z := (z ^^^ (z >>> 27)) * 0x94D049BB133111EB#64
  z ^^^ (z >>> 31)

/-- The word `level_for` draws for an id under a seed. -/
def draw (id : BitVec 32) (seed : BitVec 64) : BitVec 64 :=
  splitmix64 (seed ^^^ (id.setWidth 64 + 1#64) * 0x9E3779B97F4A7C15#64)

/-- `f64::MIN_POSITIVE` -/
def minPositive : ℚ := 1 / 2 ^ 1022

/-- The double `u` of a word's upper bits: each of its operations is exact. -/
def uniform (top : ℕ) : ℚ :=
  let u : ℚ := top * (1 / 9007199254740992)
  if u ≤ 0 then minPositive else u

section

-- `(-u.ln() * ml).floor() as usize`, of a double `u`
variable (floorLn : ℚ → ℕ)

/-- The level of a word's upper bits. -/
def levelOf (top : ℕ) : ℕ := min (floorLn (uniform top)) maxAssignedLevel

/-- `level_for` -/
def levelFor (id : BitVec 32) (seed : BitVec 64) : ℕ := levelOf floorLn (draw id seed >>> 11).toNat

end

/-! ## The hash -/

theorem splitmix64_injective : Function.Injective splitmix64 := by
  have hadd : Function.Injective fun x : BitVec 64 => x + 0x9E3779B97F4A7C15#64 :=
    add_left_injective _
  have hmul : Function.Injective fun x : BitVec 64 => x * 0xBF58476D1CE4E5B9#64 :=
    mul_injective (d := 0x96DE1B173F119089#64) (by decide)
  have hmul' : Function.Injective fun x : BitVec 64 => x * 0x94D049BB133111EB#64 :=
    mul_injective (d := 0x319642B2D24D8EC3#64) (by decide)
  exact (xorShift_injective (k := 31) (by decide)).comp (hmul'.comp
    ((xorShift_injective (k := 27) (by decide)).comp (hmul.comp
      ((xorShift_injective (k := 30) (by decide)).comp hadd))))

/-- Over the seeds, no id draws a word twice. -/
theorem draw_right_injective (id : BitVec 32) : Function.Injective (draw id) := fun _ _ h =>
  (BitVec.xor_left_inj _).mp (splitmix64_injective h)

/-! ## The distribution -/

/-- **Over the seeds, an id's level is that of an even draw**, whatever the logarithm. -/
theorem ncard_levelFor (floorLn : ℚ → ℕ) (id : BitVec 32) (p : ℕ → Prop) :
    {seed | p (levelFor floorLn id seed)}.ncard =
      2 ^ 11 * {top | top < 2 ^ 53 ∧ p (levelOf floorLn top)}.ncard :=
  ncard_mix (draw_right_injective id) (by decide) fun top => p (levelOf floorLn top)

/-- The logarithm, if nothing is rounded: `mL = 1/ln(M)`. -/
noncomputable def exactFloorLn (m : ℕ) (u : ℚ) : ℕ := ⌊-Real.log u * (1 / Real.log m)⌋₊

/-- Where a double lies that reaches a layer. -/
theorem le_exactFloorLn_iff {m l : ℕ} (hm : 2 ≤ m) (hl : l ≠ 0) {u : ℚ} (hu : 0 < u) :
    l ≤ exactFloorLn m u ↔ u * m ^ l ≤ 1 := by
  have hlog : 0 < Real.log m := Real.log_pos (by exact_mod_cast hm)
  have hu' : (0 : ℝ) < u := by exact_mod_cast hu
  have hpow : (0 : ℝ) < (m : ℝ) ^ l := pow_pos (by exact_mod_cast Nat.zero_lt_of_lt hm) l
  rw [exactFloorLn, Nat.le_floor_iff' hl, mul_one_div, le_div_iff₀ hlog, ← Real.log_pow, le_neg,
    ← Real.log_inv, Real.log_le_log_iff hu' (inv_pos.mpr hpow), ← one_div, le_div_iff₀ hpow]
  exact_mod_cast Iff.rfl

theorem uniform_pos (top : ℕ) : 0 < uniform top := by
  rw [uniform]
  split
  · exact div_pos one_pos (pow_pos two_pos _)
  · exact lt_of_not_ge ‹_›

/-- Which draws reach a layer. -/
theorem uniform_mul_pow_le_one_iff {m l : ℕ} (hm : 2 ≤ m) (hm' : m ≤ 2 ^ 63) (hl : l ≤ 16)
    (top : ℕ) : uniform top * m ^ l ≤ 1 ↔ top ≤ 2 ^ 53 / m ^ l := by
  have hpos : 0 < m ^ l := Nat.pow_pos (Nat.zero_lt_of_lt hm)
  rw [Nat.le_div_iff_mul_le hpos, uniform]
  rcases Nat.eq_zero_or_pos top with rfl | htop
  · have hpow {e : ℕ} (he : 63 * l ≤ e) : m ^ l ≤ 2 ^ e := calc
      m ^ l ≤ (2 ^ 63) ^ l := Nat.pow_le_pow_left hm' l
      _ = 2 ^ (63 * l) := (pow_mul ..).symm
      _ ≤ 2 ^ e := Nat.pow_le_pow_right two_pos he
    rw [if_pos (by simp), minPositive, one_div, inv_mul_le_one₀ (pow_pos two_pos _)]
    exact iff_of_true (by exact_mod_cast hpow (by omega)) (by simp)
  · have hnot : ¬ (top : ℚ) * (1 / 9007199254740992) ≤ 0 := by
      rw [not_le]
      exact mul_pos (by exact_mod_cast htop) (by norm_num)
    rw [if_neg hnot, mul_one_div, div_mul_eq_mul_div, div_le_one (by norm_num)]
    exact_mod_cast Iff.rfl

/-- **A point draws every word under one seed, and reaches layer `l` with probability `M ^ -l`**:
under this many of the `2 ^ 64` seeds, if the logarithm is not rounded. -/
theorem ncard_le_levelFor {m l : ℕ} (hm : 2 ≤ m) (hm' : m ≤ 2 ^ 63) (hl : 1 ≤ l) (hl' : l ≤ 16)
    (id : BitVec 32) : Function.Bijective (draw id) ∧
      {seed | l ≤ levelFor (exactFloorLn m) id seed}.ncard = 2 ^ 11 * (2 ^ 53 / m ^ l + 1) := by
  refine ⟨Finite.injective_iff_bijective.mp (draw_right_injective id), ?_⟩
  have hset : {top | top < 2 ^ 53 ∧ l ≤ levelOf (exactFloorLn m) top} =
      Set.Iic (2 ^ 53 / m ^ l) := by
    ext top
    rw [Set.mem_ofPred, levelOf, le_min_iff, le_exactFloorLn_iff hm (Nat.ne_of_gt hl)
      (uniform_pos top), uniform_mul_pow_le_one_iff hm hm' hl', Set.mem_Iic]
    refine ⟨fun h => h.2.1, fun h => ⟨h.trans_lt ?_, h, hl'⟩⟩
    exact Nat.div_lt_self (by decide) (Nat.one_lt_pow (Nat.ne_of_gt hl) hm)
  rw [ncard_levelFor _ id (l ≤ ·), hset, Set.ncard_eq_toFinset_card', Set.toFinset_Iic,
    Nat.card_Iic]

/-- The first layer, with the default `m`. -/
theorem ncard_le_levelFor_default : Function.Bijective (draw 7) ∧
    {seed | 1 ≤ levelFor (exactFloorLn 16) 7 seed}.ncard = 2 ^ 11 * (2 ^ 49 + 1) :=
  ncard_le_levelFor (m := 16) (l := 1) (by decide) (by decide) le_rfl (by decide) 7

end Vecvec.Hnsw
