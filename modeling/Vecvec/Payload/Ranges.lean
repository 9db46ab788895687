import Vecvec.Machinery.Binade
import Vecvec.Payload

/-!
# Payload/Ranges — integers against a range of doubles

A payload keeps its integers as integers, and a range keeps its bounds as doubles; to compare the
two, a filter converts the integer (`as_f64`), and from `2 ^ 53` on integers are rounded.  Two
things hold all the same.  **Whatever its bounds, a range selects an interval** of the integers
(`eval_of_between`): rounding keeps the order, so no integer between two that pass is refused.
**With integer bounds below `2 ^ 53`, it selects exactly the integers within** (`eval_iff_within`),
however large these are: a rounded integer does not cross a bound that is exact and whose neighbours
are.
-/

namespace Vecvec

open Machinery

namespace F64

/-! ## The code of an integer -/

/-- The bits of a natural number as a double. -/
def bits (n : ℕ) : ℕ := if n = 0 then 0 else code 52 n + 1022 * 2 ^ 52

theorem ofNat_eq (n : ℕ) : ofNat n = BitVec.ofNat 64 (bits n) := by
  rw [ofNat, bits]
  split
  · rfl
  · refine congrArg (BitVec.ofNat 64) ?_
    change (n.log2 + 1022) * 2 ^ 52 + significand 52 n = n.log2 * 2 ^ 52 + significand 52 n + _
    rw [Nat.add_mul, Nat.add_right_comm]

theorem bits_mono {m n : ℕ} (h : m ≤ n) : bits m ≤ bits n := by
  rw [bits, bits]
  split
  · exact Nat.zero_le _
  · rename_i hm
    rw [if_neg (by omega : n ≠ 0)]
    exact Nat.add_le_add_right (code_mono hm h) _

theorem bits_lt_bits {m n : ℕ} (h : m < n) (hn : n ≤ 2 ^ 53) : bits m < bits n := by
  rw [bits, bits, if_neg (by omega : n ≠ 0)]
  split
  · exact Nat.lt_of_lt_of_le (by norm_num) (Nat.le_add_left _ _)
  · exact Nat.add_lt_add_right (code_lt_code h hn) _

/-- Integers of 64 bits are far from the infinities. -/
theorem bits_le {n : ℕ} (hn : n < 2 ^ 64) : bits n ≤ 1087 * 2 ^ 52 := by
  rw [bits]
  split
  · exact Nat.zero_le _
  · calc code 52 n + 1022 * 2 ^ 52 ≤ (63 + 2) * 2 ^ 52 + 1022 * 2 ^ 52 :=
        Nat.add_le_add_right (code_le (by exact hn)) _
      _ = 1087 * 2 ^ 52 := by norm_num

/-! ## Sign and magnitude -/

/-- A bit pattern without its sign. -/
def magnitude (x : F64) : ℕ := (x &&& 0x7FFFFFFFFFFFFFFF#64).toNat

theorem ord_eq (x : F64) : x.ord = if x.msb then -(x.magnitude : ℤ) else x.magnitude := rfl

theorem isNaN_eq (x : F64) : x.isNaN = decide (0x7FF0000000000000 < x.magnitude) := rfl

theorem magnitude_ofNat {k : ℕ} (hk : k < 2 ^ 63) : magnitude (BitVec.ofNat 64 k) = k := by
  have hmask : (0x7FFFFFFFFFFFFFFF : ℕ) = 2 ^ 63 - 1 := by norm_num
  rw [magnitude, BitVec.toNat_and, BitVec.toNat_ofNat, BitVec.toNat_ofNat,
    Nat.mod_eq_of_lt (by omega : k < 2 ^ 64), Nat.mod_eq_of_lt (by norm_num), hmask,
    Nat.and_two_pow_sub_one_eq_mod, Nat.mod_eq_of_lt hk]

theorem msb_ofNat {k : ℕ} (hk : k < 2 ^ 63) : (BitVec.ofNat 64 k).msb = false := by
  rw [BitVec.msb_eq_decide, BitVec.toNat_ofNat, Nat.mod_eq_of_lt (by omega : k < 2 ^ 64)]
  exact decide_eq_false (by omega)

theorem magnitude_signed (x : F64) : magnitude (x ||| 0x8000000000000000#64) = x.magnitude := by
  have hsign : (0x8000000000000000#64 : F64) &&& 0x7FFFFFFFFFFFFFFF#64 = 0#64 := by decide
  rw [magnitude, magnitude, BitVec.and_or_distrib_right, hsign, BitVec.or_zero]

theorem msb_signed (x : F64) : (x ||| 0x8000000000000000#64).msb = true := by
  rw [BitVec.msb_or]
  exact Bool.or_true _

/-- **The place of an integer in the order of the doubles.** -/
theorem ord_ofInt {n : ℤ} (hn : n.natAbs < 2 ^ 64) :
    (ofInt n).ord = if n < 0 then -(bits n.natAbs : ℤ) else bits n.natAbs := by
  have hk : bits n.natAbs < 2 ^ 63 := (bits_le hn).trans_lt (by norm_num)
  rw [ofInt, ord_eq]
  split
  · rw [msb_signed, if_pos rfl, magnitude_signed, ofNat_eq, magnitude_ofNat hk]
  · rw [ofNat_eq, msb_ofNat hk, if_neg Bool.false_ne_true, magnitude_ofNat hk]

theorem isNaN_ofInt {n : ℤ} (hn : n.natAbs < 2 ^ 64) : (ofInt n).isNaN = false := by
  have hle := bits_le hn
  have hk : bits n.natAbs < 2 ^ 63 := hle.trans_lt (by norm_num)
  have hmag : (ofInt n).magnitude = bits n.natAbs := by
    rw [ofInt]
    split
    · rw [magnitude_signed, ofNat_eq, magnitude_ofNat hk]
    · rw [ofNat_eq, magnitude_ofNat hk]
  rw [isNaN_eq, hmag]
  exact decide_eq_false (by omega)

/-- **Rounding keeps the order** of integers. -/
theorem ord_ofInt_mono {m n : ℤ} (hm : m.natAbs < 2 ^ 64) (hn : n.natAbs < 2 ^ 64) (h : m ≤ n) :
    (ofInt m).ord ≤ (ofInt n).ord := by
  rw [ord_ofInt hm, ord_ofInt hn]
  split
  · split
    · have := bits_mono (m := n.natAbs) (n := m.natAbs) (by omega)
      omega
    · omega
  · rw [if_neg (by omega : ¬ n < 0)]
    have := bits_mono (m := m.natAbs) (n := n.natAbs) (by omega)
    omega

/-- Integers up to `2 ^ 53` are told apart. -/
theorem ord_ofInt_lt {m n : ℤ} (hm : m.natAbs ≤ 2 ^ 53) (hn : n.natAbs ≤ 2 ^ 53) (h : m < n) :
    (ofInt m).ord < (ofInt n).ord := by
  rw [ord_ofInt (by omega), ord_ofInt (by omega)]
  split
  · split
    · have := bits_lt_bits (m := n.natAbs) (n := m.natAbs) (by omega) hm
      omega
    · have := bits_lt_bits (m := 0) (n := m.natAbs) (by omega) hm
      omega
  · rw [if_neg (by omega : ¬ n < 0)]
    have := bits_lt_bits (m := m.natAbs) (n := n.natAbs) (by omega) hn
    omega

end F64

/-! ## Integer fields -/

/-- The integer a number is, if it is one. -/
def Number.toInt : Number → Option ℤ
  | posInt n => some n
  | negInt n => some n
  | float _ => none

/-- The number is one of its type: a `u64`, a negative `i64`, or a double. -/
def Number.Fits : Number → Prop
  | posInt n => n < 2 ^ 64
  | negInt n => -2 ^ 63 ≤ n ∧ n < 0
  | float _ => True

instance : DecidablePred Number.Fits := fun m => by
  unfold Number.Fits
  split <;> infer_instance

/-- The field of the payload is an integer. -/
def Payload.HasInt (p : Payload) (key : String) (n : ℤ) : Prop :=
  ∃ m : Number, p.get key = some (.number m) ∧ m.Fits ∧ m.toInt = some n

/-- Both kinds of integer are converted alike. -/
theorem Number.asF64_eq {m : Number} (hm : m.Fits) {n : ℤ} (h : m.toInt = some n) :
    m.asF64 = F64.ofInt n ∧ n.natAbs < 2 ^ 64 := by
  cases m with
  | posInt k =>
    cases h
    refine ⟨?_, hm⟩
    rw [asF64, F64.ofInt, if_neg (by omega : ¬ (k : ℤ) < 0)]
    rfl
  | negInt k =>
    cases h
    obtain ⟨hlo, hneg⟩ := hm
    exact ⟨rfl, by omega⟩
  | float x => cases h

/-- **A range condition on an integer field** compares the converted integer. -/
theorem Condition.eval_of_hasInt {key : String} {r : Range} {p : Payload} {n : ℤ}
    (hp : p.HasInt key n) :
    Condition.eval ⟨key, none, some r⟩ (some p) = r.contains (F64.ofInt n) ∧
      n.natAbs < 2 ^ 64 := by
  obtain ⟨m, hget, hfits, hint⟩ := hp
  obtain ⟨has, hlt⟩ := Number.asF64_eq hfits hint
  refine ⟨?_, hlt⟩
  rw [← has]
  simp [Condition.eval, hget, Payload.asF64]

/-! ## Intervals -/

/-- A number between two that a range contains is contained, whatever the bounds. -/
theorem Range.contains_of_between {r : Range} {x y z : F64} (hy : y.isNaN = false)
    (hxy : x.ord ≤ y.ord) (hyz : y.ord ≤ z.ord) (hx : r.contains x) (hz : r.contains z) :
    r.contains y := by
  have hlow {b : F64} : (b.lt x → b.lt y) ∧ (b.le x → b.le y) := by
    simp only [F64.lt, F64.le, hy, Bool.and_eq_true, decide_eq_true_eq]
    exact ⟨fun h => ⟨⟨h.1.1, rfl⟩, h.2.trans_le hxy⟩, fun h => ⟨⟨h.1.1, rfl⟩, h.2.trans hxy⟩⟩
  have hhigh {b : F64} : (z.lt b → y.lt b) ∧ (z.le b → y.le b) := by
    simp only [F64.lt, F64.le, hy, Bool.and_eq_true, decide_eq_true_eq]
    exact ⟨fun h => ⟨⟨rfl, h.1.2⟩, hyz.trans_lt h.2⟩, fun h => ⟨⟨rfl, h.1.2⟩, hyz.trans h.2⟩⟩
  simp only [Range.contains, Bool.and_eq_true, Option.all_eq_true] at hx hz ⊢
  exact ⟨⟨⟨fun b hb => hlow.1 (hx.1.1.1 b hb), fun b hb => hlow.2 (hx.1.1.2 b hb)⟩,
    fun b hb => hhigh.1 (hz.1.2 b hb)⟩, fun b hb => hhigh.2 (hz.2 b hb)⟩

/-- **A range selects an interval of the integers**: a payload whose field lies between those of two
payloads that pass passes, whatever doubles the bounds are, and however the three are rounded. -/
theorem eval_of_between {key : String} {r : Range} {p q s : Payload} {i j k : ℤ}
    (hp : p.HasInt key i) (hq : q.HasInt key j) (hs : s.HasInt key k) (hij : i ≤ j) (hjk : j ≤ k)
    (hpass : Condition.eval ⟨key, none, some r⟩ (some p))
    (hpass' : Condition.eval ⟨key, none, some r⟩ (some s)) :
    Condition.eval ⟨key, none, some r⟩ (some q) := by
  obtain ⟨hep, hi⟩ := Condition.eval_of_hasInt (r := r) hp
  obtain ⟨heq, hj⟩ := Condition.eval_of_hasInt (r := r) hq
  obtain ⟨hes, hk⟩ := Condition.eval_of_hasInt (r := r) hs
  rw [hep] at hpass
  rw [hes] at hpass'
  rw [heq]
  exact Range.contains_of_between (F64.isNaN_ofInt hj) (F64.ord_ofInt_mono hi hj hij)
    (F64.ord_ofInt_mono hj hk hjk) hpass hpass'

/-- Three large integers, of which the filter's double tells no two apart. -/
theorem eval_of_between_large :
    Condition.eval ⟨"n", none, some { gte := some (F64.ofNat (2 ^ 63)) }⟩
      (some (.object [("n", .number (.posInt (2 ^ 63 - 1)))])) = true := by
  have hint (n : ℕ) (hn : n < 2 ^ 64) :
      (Payload.object [("n", .number (.posInt n))]).HasInt "n" n := ⟨.posInt n, rfl, hn, rfl⟩
  refine eval_of_between (hint (2 ^ 63 - 2) (by decide)) (hint (2 ^ 63 - 1) (by decide))
    (hint (2 ^ 63) (by decide)) (by decide) (by decide) ?_ ?_
  · decide
  · decide

/-! ## Integer bounds -/

/-- A range whose bounds are integers. -/
structure IntRange where
  /-- Strictly greater than. -/
  gt : Option ℤ := none
  /-- Greater than or equal. -/
  gte : Option ℤ := none
  /-- Strictly less than. -/
  lt : Option ℤ := none
  /-- Less than or equal. -/
  lte : Option ℤ := none

namespace IntRange

/-- The range as a filter has it. -/
def toRange (r : IntRange) : Range :=
  ⟨r.gt.map F64.ofInt, r.gte.map F64.ofInt, r.lt.map F64.ofInt, r.lte.map F64.ofInt⟩

/-- The integer lies within. -/
def Within (r : IntRange) (n : ℤ) : Prop :=
  (∀ b ∈ r.gt, b < n) ∧ (∀ b ∈ r.gte, b ≤ n) ∧ (∀ b ∈ r.lt, n < b) ∧ ∀ b ∈ r.lte, n ≤ b

/-- Every bound is a double with both its neighbours. -/
def Exact (r : IntRange) : Prop :=
  ∀ b, b ∈ r.gt ∨ b ∈ r.gte ∨ b ∈ r.lt ∨ b ∈ r.lte → b.natAbs < 2 ^ 53

end IntRange

namespace F64

variable {b n : ℤ}

/-- **A rounded integer does not cross an exact bound.** -/
theorem ofInt_lt_ofInt_iff (hb : b.natAbs < 2 ^ 53) (hn : n.natAbs < 2 ^ 64) :
    ((ofInt b).ord < (ofInt n).ord ↔ b < n) ∧ ((ofInt n).ord < (ofInt b).ord ↔ n < b) := by
  have hb' : b.natAbs < 2 ^ 64 := by omega
  refine ⟨⟨fun h => ?_, fun h => ?_⟩, ⟨fun h => ?_, fun h => ?_⟩⟩
  · by_contra hle
    exact absurd (ord_ofInt_mono hn hb' (by omega)) (not_le.mpr h)
  · exact (ord_ofInt_lt (by omega) (by omega) (by omega : b < b + 1)).trans_le
      (ord_ofInt_mono (by omega) hn (by omega))
  · by_contra hle
    exact absurd (ord_ofInt_mono hb' hn (by omega)) (not_le.mpr h)
  · exact (ord_ofInt_mono hn (by omega) (by omega : n ≤ b - 1)).trans_lt
      (ord_ofInt_lt (by omega) (by omega) (by omega))

theorem lt_ofInt (hb : b.natAbs < 2 ^ 53) (hn : n.natAbs < 2 ^ 64) :
    ((ofInt b).lt (ofInt n) = true ↔ b < n) ∧ ((ofInt n).lt (ofInt b) = true ↔ n < b) := by
  have hiff := ofInt_lt_ofInt_iff hb hn
  have hb' := isNaN_ofInt (n := b) (by omega)
  simp only [lt, hb', isNaN_ofInt hn, Bool.and_eq_true, decide_eq_true_eq, Bool.not_false, true_and]
  exact hiff

theorem le_ofInt (hb : b.natAbs < 2 ^ 53) (hn : n.natAbs < 2 ^ 64) :
    ((ofInt b).le (ofInt n) = true ↔ b ≤ n) ∧ ((ofInt n).le (ofInt b) = true ↔ n ≤ b) := by
  have hiff := ofInt_lt_ofInt_iff hb hn
  have hb' := isNaN_ofInt (n := b) (by omega)
  simp only [le, hb', isNaN_ofInt hn, Bool.and_eq_true, decide_eq_true_eq, Bool.not_false, true_and]
  exact ⟨by rw [← not_lt, hiff.2, not_lt], by rw [← not_lt, hiff.1, not_lt]⟩

end F64

/-- **Integer bounds below `2 ^ 53` are exact**: of the payloads whose field is an integer of any
size, the condition passes those within its bounds, and no other. -/
theorem eval_iff_within {key : String} {r : IntRange} (hr : r.Exact) {p : Payload} {n : ℤ}
    (hp : p.HasInt key n) :
    Condition.eval ⟨key, none, some r.toRange⟩ (some p) = true ↔ r.Within n := by
  obtain ⟨he, hn⟩ := Condition.eval_of_hasInt (r := r.toRange) hp
  rw [he]
  simp only [Range.contains, IntRange.toRange, IntRange.Within, Bool.and_eq_true,
    Option.all_eq_true, Option.mem_def, Option.map_eq_some_iff, forall_exists_index, and_imp,
    forall_apply_eq_imp_iff₂, and_assoc]
  refine and_congr (forall₂_congr fun b hb => (F64.lt_ofInt (hr b (.inl hb)) hn).1)
    (and_congr (forall₂_congr fun b hb => (F64.le_ofInt (hr b (.inr (.inl hb))) hn).1)
    (and_congr (forall₂_congr fun b hb => (F64.lt_ofInt (hr b (.inr (.inr (.inl hb)))) hn).2)
    (forall₂_congr fun b hb => (F64.le_ofInt (hr b (.inr (.inr (.inr hb)))) hn).2)))

/-- A bound of ten and an integer that is rounded. -/
theorem eval_iff_within_large :
    Condition.eval ⟨"n", none, some (IntRange.toRange { gt := some 10 })⟩
      (some (.object [("n", .number (.posInt (2 ^ 53 + 1)))])) = true ∧
    ¬ Condition.eval ⟨"n", none, some (IntRange.toRange { gt := some 10 })⟩
      (some (.object [("n", .number (.negInt (-2 ^ 53 - 1)))])) = true := by
  have hr : IntRange.Exact { gt := some 10 } := by
    rintro b (h | h | h | h) <;> cases h
    decide
  have hwithin (n : ℤ) : IntRange.Within { gt := some 10 } n ↔ 10 < n := by
    simp [IntRange.Within]
  constructor
  · refine (eval_iff_within hr (n := 2 ^ 53 + 1) ⟨.posInt (2 ^ 53 + 1), rfl, ?_, rfl⟩).mpr ?_
    · decide
    · exact (hwithin _).mpr (by norm_num)
  · refine (eval_iff_within hr (n := -2 ^ 53 - 1) ⟨.negInt (-2 ^ 53 - 1), rfl, ?_, rfl⟩).not.mpr ?_
    · decide
    · exact (hwithin _).not.mpr (by norm_num)

/-- At `2 ^ 53` a bound is crossed: the next integer is rounded to it. -/
example : Condition.eval ⟨"n", none, some (IntRange.toRange { gt := some (2 ^ 53) })⟩
    (some (.object [("n", .number (.posInt (2 ^ 53 + 1)))])) = false := by decide

end Vecvec
