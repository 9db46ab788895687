import Mathlib.Algebra.Order.Ring.Int

/-!
# Machinery/Usize — arithmetic on machine words

An operation whose result does not fit is a panic in a build that checks for overflow, and wraps
around in one that does not.  **A result that fits is the same in both** (`toUsize_of_lt`), and only
the checks tell that one did not.

A call has a limit — how many results it may return at most — and **handles any limit** if neither
build panics and a limit beyond what there is makes no difference (`HandlesLimit`).
-/

namespace Machinery

/-! ## Operations -/

/-- The numbers of a `usize`. -/
def InUsize (x : ℤ) : Prop := 0 ≤ x ∧ x < 2 ^ 64

instance : DecidablePred InUsize := fun _ => instDecidableAnd

/-- The result of an operation; `none` is a panic. -/
def toUsize (checked : Bool) (x : ℤ) : Option ℕ :=
  if InUsize x then some x.toNat else if checked then none else some (x % 2 ^ 64).toNat

/-- `+` -/
def addUsize (checked : Bool) (a b : ℕ) : Option ℕ := toUsize checked (a + b)

/-- `-` -/
def subUsize (checked : Bool) (a b : ℕ) : Option ℕ := toUsize checked (a - b)

/-- `*` -/
def mulUsize (checked : Bool) (a b : ℕ) : Option ℕ := toUsize checked (a * b)

variable {checked : Bool} {a b n : ℕ}

/-- **A result that fits** is the result. -/
theorem toUsize_of_lt (h : n < 2 ^ 64) : toUsize checked n = some n :=
  if_pos ⟨Int.natCast_nonneg n, by exact_mod_cast h⟩

/-- **Elsewhere** a build that checks panics, -/
theorem toUsize_true_eq_none_iff : toUsize true n = none ↔ 2 ^ 64 ≤ n := by
  rw [← not_lt]
  refine ⟨fun h hlt => ?_, fun h => ?_⟩
  · rw [toUsize_of_lt hlt] at h
    cases h
  · rw [toUsize, if_neg fun hin => h (by exact_mod_cast hin.2)]
    rfl

/-- and one that does not wraps around. -/
theorem toUsize_false : toUsize false n = some (n % 2 ^ 64) := by
  rcases lt_or_ge n (2 ^ 64) with h | h
  · rw [toUsize_of_lt h, Nat.mod_eq_of_lt h]
  · have hout : ¬ InUsize n := fun hin => h.not_gt (by exact_mod_cast hin.2)
    rw [toUsize, if_neg hout]
    refine congrArg some ?_
    exact_mod_cast Int.toNat_natCast (n % 2 ^ 64)

theorem addUsize_of_lt (h : a + b < 2 ^ 64) : addUsize checked a b = some (a + b) := by
  rw [addUsize, ← Nat.cast_add, toUsize_of_lt h]

theorem addUsize_true_eq_none_iff : addUsize true a b = none ↔ 2 ^ 64 ≤ a + b := by
  rw [addUsize, ← Nat.cast_add, toUsize_true_eq_none_iff]

theorem mulUsize_of_lt (h : a * b < 2 ^ 64) : mulUsize checked a b = some (a * b) := by
  rw [mulUsize, ← Nat.cast_mul, toUsize_of_lt h]

theorem mulUsize_true_eq_none_iff : mulUsize true a b = none ↔ 2 ^ 64 ≤ a * b := by
  rw [mulUsize, ← Nat.cast_mul, toUsize_true_eq_none_iff]

theorem mulUsize_false : mulUsize false a b = some (a * b % 2 ^ 64) := by
  rw [mulUsize, ← Nat.cast_mul, toUsize_false]

theorem subUsize_of_le (h : b ≤ a) (ha : a < 2 ^ 64) : subUsize checked a b = some (a - b) := by
  rw [subUsize, ← Nat.cast_sub h, toUsize_of_lt ((Nat.sub_le a b).trans_lt ha)]

/-- Below zero is out of range. -/
theorem subUsize_true_of_lt (h : a < b) : subUsize true a b = none :=
  if_neg fun hin => by have := hin.1; omega

theorem subUsize_false_of_lt (h : a < b) (hb : b ≤ 2 ^ 64) :
    subUsize false a b = some (a + 2 ^ 64 - b) := by
  have hout : ¬ InUsize (a - b : ℤ) := fun hin => by have := hin.1; omega
  have hmod : ((a : ℤ) - b) % 2 ^ 64 = a - b + 2 ^ 64 := by omega
  rw [subUsize, toUsize, if_neg hout, hmod]
  refine congrArg some ?_
  omega

/-! ## Limits -/

/-- **A call handles a limit**: whether overflow is checked or not it does not panic, and it returns
as many results as with the limit cut down to the number there is. -/
def HandlesLimit {ρ σ : Type*} (size : ρ → σ) (total limit : ℕ)
    (call : Bool → ℕ → Option ρ) : Prop :=
  ∀ checked, ∃ r r', call checked limit = some r ∧ call checked (min limit total) = some r' ∧
    size r = size r'

variable {ρ σ : Type*} {size : ρ → σ} {total limit : ℕ} {call : Bool → ℕ → Option ρ}

/-- It is enough that a limit beyond what there is makes no difference. -/
theorem HandlesLimit.of_eq (hsome : ∀ checked, ∃ r, call checked limit = some r)
    (heq : total ≤ limit → ∀ checked r, call checked limit = some r →
      ∃ r', call checked total = some r' ∧ size r = size r') : HandlesLimit size total
        limit call := by
  intro checked
  obtain ⟨r, hr⟩ := hsome checked
  rcases le_total total limit with hle | hle
  · obtain ⟨r', hr', hsize⟩ := heq hle checked r hr
    exact ⟨r, r', hr, (min_eq_right hle).symm ▸ hr', hsize⟩
  · exact ⟨r, r, hr, (min_eq_left hle).symm ▸ hr, rfl⟩

/-- A call that panics does not handle the limit. -/
theorem not_handlesLimit (h : call true limit = none) : ¬ HandlesLimit size total limit call := by
  intro hcall
  obtain ⟨r, -, hr, -⟩ := hcall true
  rw [h] at hr
  cases hr

/-- What is done with the results does not matter, if it keeps their size. -/
theorem HandlesLimit.map_iff {τ : Type*} {size' : τ → σ} {f : ρ → τ}
    (h : ∀ r, size' (f r) = size r) :
    HandlesLimit size' total limit (fun checked k => (call checked k).map f) ↔
      HandlesLimit size total limit call := by
  refine forall_congr' fun checked => ?_
  simp only [Option.map_eq_some_iff]
  constructor
  · rintro ⟨-, -, ⟨r, hr, rfl⟩, ⟨r', hr', rfl⟩, hsize⟩
    exact ⟨r, r', hr, hr', (h r).symm.trans (hsize.trans (h r'))⟩
  · rintro ⟨r, r', hr, hr', hsize⟩
    exact ⟨_, _, ⟨r, hr, rfl⟩, ⟨r', hr', rfl⟩, (h r).trans (hsize.trans (h r').symm)⟩

end Machinery
