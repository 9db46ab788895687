import Mathlib.Data.Nat.Log
import Mathlib.Data.Nat.Notation
import Mathlib.Tactic.Linarith
import Mathlib.Tactic.Ring

/-!
# Machinery/Binade — natural numbers in a binary floating-point format

A format of `p` fraction bits writes `n` as its exponent `log2 n` and a significand of `p + 1` bits,
rounded to nearest, ties to even.  Put one behind the other they are one number, the **code** of
`n`; a significand that rounds up to the next power of two carries into the exponent.  Codes are in
the order of the numbers (`code_mono`), and up to `2 ^ (p + 1)` no two numbers share one
(`code_lt_code`).
-/

namespace Machinery

/-! ## Rounding to nearest, ties to even -/

/-- `n / u`, rounded to nearest, the even one of two. -/
def halfEven (n u : ℕ) : ℕ :=
  if u < 2 * (n % u) ∨ u = 2 * (n % u) ∧ n / u % 2 = 1 then n / u + 1 else n / u

theorem div_le_halfEven (n u : ℕ) : n / u ≤ halfEven n u := by
  rw [halfEven]
  split
  · exact Nat.le_succ _
  · exact le_rfl

theorem halfEven_le (n u : ℕ) : halfEven n u ≤ n / u + 1 := by
  rw [halfEven]
  split
  · exact le_rfl
  · exact Nat.le_succ _

/-- **Rounding is monotone.** -/
theorem halfEven_mono {m n u : ℕ} (h : m ≤ n) : halfEven m u ≤ halfEven n u := by
  rcases (Nat.div_le_div_right (c := u) h).lt_or_eq with hq | hq
  · exact (halfEven_le m u).trans ((Nat.succ_le_of_lt hq).trans (div_le_halfEven n u))
  -- The quotients agree, so the remainders are in order.
  have hr : m % u ≤ n % u := by
    have hm := Nat.div_add_mod m u
    have hn := Nat.div_add_mod n u
    rw [hq] at hm
    omega
  rw [halfEven, halfEven, hq]
  split
  · rename_i hup
    have hup' : u < 2 * (n % u) ∨ u = 2 * (n % u) ∧ n / u % 2 = 1 := by
      rcases hup with hlt | ⟨heq, hodd⟩
      · exact .inl (by omega)
      · rcases hr.lt_or_eq with hlt | he
        · exact .inl (by omega)
        · exact .inr ⟨he ▸ heq, hodd⟩
    rw [if_pos hup']
  · split
    · exact Nat.le_succ _
    · exact le_rfl

/-! ## Codes -/

/-- The significand of `n`, leading bit included. -/
def significand (p n : ℕ) : ℕ :=
  if n.log2 ≤ p then n * 2 ^ (p - n.log2) else halfEven n (2 ^ (n.log2 - p))

/-- The exponent before the fraction; the leading bit of the significand adds one to it. -/
def code (p n : ℕ) : ℕ := n.log2 * 2 ^ p + significand p n

section

variable {p m n : ℕ}

/-- A significand is at least the leading bit. -/
theorem two_pow_le_significand (hn : n ≠ 0) : 2 ^ p ≤ significand p n := by
  have hlog := Nat.log2_self_le hn
  rw [significand]
  split
  · rename_i he
    calc 2 ^ p = 2 ^ n.log2 * 2 ^ (p - n.log2) := by rw [← pow_add, Nat.add_sub_cancel' he]
      _ ≤ n * 2 ^ (p - n.log2) := Nat.mul_le_mul_right _ hlog
  · rename_i he
    refine le_trans ?_ (div_le_halfEven _ _)
    rw [Nat.le_div_iff_mul_le (Nat.two_pow_pos _), ← pow_add, Nat.add_sub_cancel' (by omega)]
    exact hlog

/-- A significand that is not rounded is below the next power of two. -/
theorem significand_lt (he : n.log2 ≤ p) : significand p n < 2 ^ (p + 1) := by
  rw [significand, if_pos he]
  calc n * 2 ^ (p - n.log2) < 2 ^ (n.log2 + 1) * 2 ^ (p - n.log2) :=
        Nat.mul_lt_mul_of_pos_right Nat.lt_log2_self (Nat.two_pow_pos _)
    _ = 2 ^ (p + 1) := by rw [← pow_add]; congr 1; omega

/-- A rounded one may reach it. -/
theorem significand_le : significand p n ≤ 2 ^ (p + 1) := by
  by_cases he : n.log2 ≤ p
  · exact (significand_lt he).le
  · rw [significand, if_neg he]
    refine (halfEven_le _ _).trans (Nat.succ_le_of_lt ?_)
    rw [Nat.div_lt_iff_lt_mul (Nat.two_pow_pos _), ← pow_add]
    have hexp : p + 1 + (n.log2 - p) = n.log2 + 1 := by omega
    rw [hexp]
    exact Nat.lt_log2_self

theorem significand_mono (h : m ≤ n) (he : m.log2 = n.log2) :
    significand p m ≤ significand p n := by
  rw [significand, significand, he]
  split
  · exact Nat.mul_le_mul_right _ h
  · exact halfEven_mono h

/-- Codes of a lower exponent end where those of the next begin. -/
theorem code_le_of_log2_lt (hn : n ≠ 0) (h : m.log2 < n.log2) : code p m ≤ code p n := by
  calc code p m ≤ m.log2 * 2 ^ p + 2 ^ (p + 1) := Nat.add_le_add_left significand_le _
    _ = (m.log2 + 1) * 2 ^ p + 2 ^ p := by ring
    _ ≤ n.log2 * 2 ^ p + 2 ^ p := Nat.add_le_add_right (Nat.mul_le_mul_right _ h) _
    _ ≤ code p n := Nat.add_le_add_left (two_pow_le_significand hn) _

/-- **Codes are in the order of the numbers.** -/
theorem code_mono (hm : m ≠ 0) (h : m ≤ n) : code p m ≤ code p n := by
  have hn : n ≠ 0 := by omega
  have hlog : m.log2 ≤ n.log2 := by
    rw [Nat.log2_eq_log_two, Nat.log2_eq_log_two]
    exact Nat.log_mono_right h
  rcases hlog.lt_or_eq with hlt | he
  · exact code_le_of_log2_lt hn hlt
  · rw [code, code, he]
    exact Nat.add_le_add_left (significand_mono h he) _

/-- **Numbers up to `2 ^ (p + 1)` are exact.** -/
theorem code_lt_code (h : m < n) (hn : n ≤ 2 ^ (p + 1)) : code p m < code p n := by
  have hn0 : n ≠ 0 := by omega
  have hlog : m.log2 ≤ n.log2 := by
    rw [Nat.log2_eq_log_two, Nat.log2_eq_log_two]
    exact Nat.log_mono_right h.le
  have hmp : m.log2 ≤ p := by
    by_cases hm : m = 0
    · subst hm
      exact Nat.zero_le _
    · exact Nat.le_of_lt_succ ((Nat.log2_lt hm).mpr (by omega))
  rcases hlog.lt_or_eq with hlt | he
  · calc code p m < m.log2 * 2 ^ p + 2 ^ (p + 1) := Nat.add_lt_add_left (significand_lt hmp) _
      _ = (m.log2 + 1) * 2 ^ p + 2 ^ p := by ring
      _ ≤ n.log2 * 2 ^ p + 2 ^ p := Nat.add_le_add_right (Nat.mul_le_mul_right _ hlt) _
      _ ≤ code p n := Nat.add_le_add_left (two_pow_le_significand hn0) _
  · rw [code, code, significand, significand, ← he, if_pos hmp, if_pos hmp]
    exact Nat.add_lt_add_left (Nat.mul_lt_mul_of_pos_right h (Nat.two_pow_pos _)) _

/-- How far codes reach. -/
theorem code_le {e : ℕ} (h : n < 2 ^ (e + 1)) : code p n ≤ (e + 2) * 2 ^ p := by
  have hlog : n.log2 ≤ e := by
    by_cases hn : n = 0
    · subst hn
      exact Nat.zero_le _
    · exact Nat.le_of_lt_succ ((Nat.log2_lt hn).mpr h)
  calc code p n ≤ n.log2 * 2 ^ p + 2 ^ (p + 1) := Nat.add_le_add_left significand_le _
    _ ≤ e * 2 ^ p + 2 ^ (p + 1) := Nat.add_le_add_right (Nat.mul_le_mul_right _ hlog) _
    _ = (e + 2) * 2 ^ p := by ring

end

end Machinery
