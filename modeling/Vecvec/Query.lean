import Mathlib.Algebra.Order.Field.Basic
import Mathlib.Algebra.Order.Field.Rat
import Mathlib.Data.Rat.Floor
import Mathlib.Tactic.NormNum
import Vecvec.Basic
import Vecvec.Machinery.Ranking

/-!
# Query — result lists, fused by rank

Reciprocal rank fusion makes one list of several: an id scores `1 / (k + rank)` in each list that
has it, and the scores are added in a hash map, which is then read in an order of its own and
sorted.

**That order does not show** in the result, and **rounding does not spoil the ranks**
(`fusion_fair`): an id that is ahead of another in every list that has the other scores no less,
however the shares and the sums are rounded, and is cut off before it only if their scores come to
the same.
-/

namespace Vecvec

open Machinery

/-- A rounding to some numbers: a larger number is not rounded to a smaller one, and what is rounded
stays as it is. -/
structure Rounds where
  /-- The number nearest to a number. -/
  round : ℚ → ℚ
  mono : Monotone round
  idem : ∀ x, round (round x) = round x
  zero : round 0 = 0
  one : round 1 = 1

/-! ## The code -/

/-- A ranked result list. -/
abbrev Ranked := List (GlobalId × F32)

/-- The hash map of scores. -/
abbrev Scores := GlobalId → Option ℚ

section

/-! `f64` and `f32`, as far as they are finite and not negative -/
variable (f64 f32 : Rounds)

/-- `1.0 / (k + (rank + 1) as f64)`, of a `k` that is not negative -/
def share (k : ℚ) (rank : ℕ) : ℚ := f64.round (1 / f64.round (k + f64.round (rank + 1)))

/-- `*scores.entry(id).or_default() += x` -/
def addScore (m : Scores) (id : GlobalId) (x : ℚ) : Scores :=
  Function.update m id (some (f64.round ((m id).getD 0 + x)))

/-- Adds the shares of a list, from a rank on. -/
def addList (k : ℚ) : ℕ → Ranked → Scores → Scores
  | _, [], m => m
  | rank, (id, _) :: list, m => addList k (rank + 1) list (addScore f64 m id (share f64 k rank))

/-- The scores of all lists. -/
def fusedScores (lists : List Ranked) (k : ℚ) : Scores :=
  lists.foldl (fun m list => addList f64 k 0 list m) fun _ => none

/-- The larger score first, and of equals the smaller id. -/
def ahead (a b : GlobalId × ℚ) : Prop := closer (-a.2, a.1) (-b.2, b.1)

instance : DecidableRel ahead := fun _ _ => inferInstanceAs (Decidable (closer _ _))

/-- `reciprocal_rank_fusion`, where `scores.into_iter()` yields these entries. -/
def reciprocalRankFusion (entries : List (GlobalId × ℚ)) (top : ℕ) : List (GlobalId × ℚ) :=
  best ahead top (entries.map fun e => (e.1, f32.round e.2))

end

/-- What iterating over a hash map may yield: each entry once, in any order. -/
structure Scores.Yields (m : Scores) (entries : List (GlobalId × ℚ)) : Prop where
  nodup : (entries.map Prod.fst).Nodup
  mem : ∀ id s, (id, s) ∈ entries ↔ m id = some s

/-! ## The order -/

instance : Std.Total ahead where
  total _ _ := Std.Total.total (r := closer) _ _

instance : IsTrans (GlobalId × ℚ) ahead where
  trans _ _ _ := IsTrans.trans (r := closer) _ _ _

instance : Std.Antisymm ahead where
  antisymm _ _ hab hba := by
    obtain ⟨hs, hid⟩ := Prod.mk.inj (Std.Antisymm.antisymm (r := closer) _ _ hab hba)
    exact Prod.ext hid (neg_injective hs)

theorem ahead_of_le {a b : GlobalId × ℚ} (h : b.2 ≤ a.2) (htie : a.2 = b.2 → a.1 ≤ b.1) :
    ahead a b := by
  rcases h.lt_or_eq with h | h
  · exact .inl (neg_lt_neg h)
  · exact .inr ⟨congrArg Neg.neg h.symm, htie h.symm⟩

/-! ## One list -/

variable {f64 f32 : Rounds} {k : ℚ} {m : Scores} {a b : GlobalId} {list : Ranked} {rank : ℕ}

theorem one_le_round_add (hk : 0 ≤ k) (rank : ℕ) : 1 ≤ f64.round (k + f64.round (rank + 1)) := by
  have hrank : 1 ≤ f64.round (rank + 1) := by
    have h := f64.mono (show (1 : ℚ) ≤ rank + 1 from le_add_of_nonneg_left rank.cast_nonneg)
    rwa [f64.one] at h
  have h := f64.mono (hrank.trans (le_add_of_nonneg_left hk))
  rwa [f64.one] at h

/-- **A lower rank earns no larger share.** -/
theorem share_antitone (hk : 0 ≤ k) : Antitone (share f64 k) := by
  intro i j h
  have hij : (i : ℚ) + 1 ≤ j + 1 := by exact_mod_cast Nat.succ_le_succ h
  have hpos : 0 < f64.round (k + f64.round (i + 1)) :=
    one_pos.trans_le (one_le_round_add hk i)
  exact f64.mono (one_div_le_one_div_of_le hpos (f64.mono (add_le_add_right (f64.mono hij) k)))

theorem share_nonneg (hk : 0 ≤ k) (rank : ℕ) : 0 ≤ share f64 k rank := by
  have hpos := zero_le_one.trans (@one_le_round_add f64 k hk rank)
  have h := f64.mono (one_div_nonneg.mpr hpos)
  rwa [f64.zero] at h

/-- An id that a list does not have keeps its score. -/
theorem addList_of_notMem (ha : a ∉ list.map Prod.fst) : addList f64 k rank list m a = m a := by
  induction list generalizing rank m with
  | nil => rfl
  | cons e list ih =>
    obtain ⟨he, ha⟩ := not_or.mp (mt List.mem_cons.mpr ha)
    rw [addList, ih ha, addScore, Function.update_of_ne he]

/-- An id that it has earns the share of its rank. -/
theorem addList_of_mem (hlist : (list.map Prod.fst).Nodup) (ha : a ∈ list.map Prod.fst) :
    addList f64 k rank list m a = some (f64.round ((m a).getD 0 +
      share f64 k (rank + (list.map Prod.fst).idxOf a))) := by
  induction list generalizing rank m with
  | nil => cases ha
  | cons e list ih =>
    obtain ⟨he, hlist⟩ := List.nodup_cons.mp hlist
    rw [addList, List.map_cons]
    rcases eq_or_ne a e.1 with rfl | hne
    · rw [addList_of_notMem he, addScore, Function.update_self, List.idxOf_cons_self, Nat.add_zero]
    · have ha := (List.mem_cons.mp ha).resolve_left hne
      rw [ih hlist ha, addScore, Function.update_of_ne hne, List.idxOf_cons_ne _ hne.symm,
        Nat.add_succ, Nat.succ_add]
      rfl

/-! ## All lists -/

/-- One id is ahead of another in every list that has the other. -/
def Beats (lists : List Ranked) (a b : GlobalId) : Prop :=
  ∀ list ∈ lists, b ∈ list.map Prod.fst →
    a ∈ list.map Prod.fst ∧ (list.map Prod.fst).idxOf a < (list.map Prod.fst).idxOf b

instance {lists : List Ranked} : Decidable (Beats lists a b) :=
  inferInstanceAs (Decidable (∀ list ∈ lists, b ∈ list.map Prod.fst →
    a ∈ list.map Prod.fst ∧ (list.map Prod.fst).idxOf a < (list.map Prod.fst).idxOf b))

/-- The one id scores no less than the other, and what it scores is rounded. -/
structure Scores.Above (f64 : Rounds) (m : Scores) (a b : GlobalId) : Prop where
  le : (m b).getD 0 ≤ (m a).getD 0
  rounded : f64.round ((m a).getD 0) = (m a).getD 0
  scored : (m b).isSome → (m a).isSome

/-- **No score sinks**, and all stay rounded. -/
theorem addList_grows (hk : 0 ≤ k) (hlist : (list.map Prod.fst).Nodup)
    (hround : f64.round ((m a).getD 0) = (m a).getD 0) :
    (m a).getD 0 ≤ (addList f64 k 0 list m a).getD 0 ∧
      f64.round ((addList f64 k 0 list m a).getD 0) = (addList f64 k 0 list m a).getD 0 ∧
        ((m a).isSome → (addList f64 k 0 list m a).isSome) := by
  by_cases ha : a ∈ list.map Prod.fst
  · rw [addList_of_mem hlist ha]
    refine ⟨?_, f64.idem _, fun _ => rfl⟩
    conv_lhs => rw [← hround]
    exact f64.mono (le_add_of_nonneg_right (share_nonneg hk _))
  · rw [addList_of_notMem ha]
    exact ⟨le_rfl, hround, id⟩

/-- **One list** leaves the one id above the other. -/
theorem Scores.Above.addList (hk : 0 ≤ k) (h : m.Above f64 a b)
    (hlist : (list.map Prod.fst).Nodup) (hbeats : b ∈ list.map Prod.fst →
      a ∈ list.map Prod.fst ∧ (list.map Prod.fst).idxOf a < (list.map Prod.fst).idxOf b) :
    (Vecvec.addList f64 k 0 list m).Above f64 a b := by
  obtain ⟨hle, hround, hsome⟩ := addList_grows hk hlist h.rounded
  by_cases hb : b ∈ list.map Prod.fst
  · obtain ⟨ha, hlt⟩ := hbeats hb
    refine ⟨?_, hround, fun _ => by rw [addList_of_mem hlist ha]; rfl⟩
    rw [addList_of_mem hlist ha, addList_of_mem hlist hb]
    exact f64.mono (add_le_add h.le (share_antitone hk (Nat.add_le_add_left hlt.le 0)))
  · refine ⟨?_, hround, ?_⟩
    · rw [addList_of_notMem hb]
      exact h.le.trans hle
    · rw [addList_of_notMem hb]
      exact fun hscored => hsome (h.scored hscored)

/-- **All lists** do. -/
theorem above_fusedScores (hk : 0 ≤ k) {lists : List Ranked}
    (hlists : ∀ list ∈ lists, (list.map Prod.fst).Nodup) (h : Beats lists a b) :
    (fusedScores f64 lists k).Above f64 a b := by
  rw [fusedScores]
  have hstart : Scores.Above f64 (fun _ => none) a b := ⟨le_rfl, f64.zero, id⟩
  revert hstart
  generalize (fun _ => none : Scores) = m
  intro hm
  induction lists generalizing m with
  | nil => exact hm
  | cons list lists ih =>
    refine ih (fun l hl => hlists l (List.mem_cons_of_mem _ hl))
      (fun l hl => h l (List.mem_cons_of_mem _ hl)) _ (hm.addList hk ?_ ?_)
    · exact hlists list List.mem_cons_self
    · exact h list List.mem_cons_self

/-! ## The result -/

namespace Scores.Yields

variable {entries entries' : List (GlobalId × ℚ)} {s : ℚ} {top : ℕ}

theorem perm (h : m.Yields entries) (h' : m.Yields entries') : entries.Perm entries' :=
  (List.perm_ext_iff_of_nodup h.nodup.of_map h'.nodup.of_map).mpr fun e =>
    (h.mem e.1 e.2).trans (h'.mem e.1 e.2).symm

/-- The rounded entries, each once. -/
theorem nodup_round (h : m.Yields entries) :
    (entries.map fun e => (e.1, f32.round e.2)).Nodup := by
  refine List.Nodup.of_map Prod.fst ?_
  rw [List.map_map]
  exact h.nodup

/-- **The order of the hash map does not show.** -/
theorem fusion_eq (h : m.Yields entries) (h' : m.Yields entries') :
    reciprocalRankFusion f32 entries top = reciprocalRankFusion f32 entries' top :=
  best_perm ((h.perm h').map _)

/-- What is returned was scored. -/
theorem of_mem_fusion (h : m.Yields entries) (hb : (b, s) ∈ reciprocalRankFusion f32 entries top) :
    ∃ s', m b = some s' ∧ f32.round s' = s := by
  obtain ⟨hmem, -⟩ := (mem_best_iff h.nodup_round).mp hb
  obtain ⟨e, he, hes⟩ := List.mem_map.mp hmem
  cases hes
  exact ⟨e.2, (h.mem _ _).mp he, rfl⟩

end Scores.Yields

/-- **Fusion is fair.**  The result does not depend on the order of the hash map; and an id that is
ahead of another in every list that has the other scores no less, and is returned if the other is,
unless their scores are rounded to the same and the other id is the smaller. -/
theorem fusion_fair (f64 f32 : Rounds) {lists : List Ranked} {k : ℚ} (hk : 0 ≤ k)
    (hlists : ∀ list ∈ lists, (list.map Prod.fst).Nodup) {entries entries' : List (GlobalId × ℚ)}
    (h : (fusedScores f64 lists k).Yields entries) (h' : (fusedScores f64 lists k).Yields entries')
    (top : ℕ) :
    reciprocalRankFusion f32 entries top = reciprocalRankFusion f32 entries' top ∧
      ∀ a b, Beats lists a b → ∀ s, (b, s) ∈ reciprocalRankFusion f32 entries top →
        ∃ x, fusedScores f64 lists k a = some x ∧ s ≤ f32.round x ∧
          ((a, f32.round x) ∈ reciprocalRankFusion f32 entries top ∨
            s = f32.round x ∧ b < a) := by
  refine ⟨h.fusion_eq h', fun a b hbeats s hb => ?_⟩
  obtain ⟨sb, hsb, rfl⟩ := h.of_mem_fusion hb
  obtain ⟨hle, -, hscored⟩ := @above_fusedScores f64 k a b hk lists hlists hbeats
  obtain ⟨sa, hsa⟩ := Option.isSome_iff_exists.mp (hscored (by rw [hsb]; rfl))
  rw [hsa, hsb] at hle
  have hmem : (a, f32.round sa) ∈ entries.map fun e => (e.1, f32.round e.2) :=
    List.mem_map.mpr ⟨(a, sa), (h.mem a sa).mpr hsa, rfl⟩
  refine ⟨sa, hsa, f32.mono hle, ?_⟩
  by_cases htie : f32.round sb = f32.round sa ∧ b < a
  · exact .inr htie
  · refine .inl (mem_best_of_rel h.nodup_round hb hmem (ahead_of_le (f32.mono hle) fun heq => ?_))
    exact not_lt.mp fun hlt => htie ⟨heq.symm, hlt⟩

/-- Rounding down, to a number of `n`-ths. -/
def Rounds.down (n : ℕ) [NeZero n] : Rounds where
  round x := ⌊x * n⌋ / n
  mono x y h := by
    refine div_le_div_of_nonneg_right ?_ n.cast_nonneg
    exact_mod_cast Int.floor_mono (mul_le_mul_of_nonneg_right h n.cast_nonneg)
  idem x := by
    have hn : (n : ℚ) ≠ 0 := NeZero.ne _
    rw [div_mul_cancel₀ _ hn, Int.floor_intCast]
  zero := by simp
  one := by
    have hn : (n : ℚ) ≠ 0 := NeZero.ne _
    rw [one_mul, Int.floor_natCast, Int.cast_natCast, div_self hn]

/-- Id 1 is ahead of id 2 in both lists.  Their sums differ, but are rounded to the same score, and
there is room for both. -/
theorem fusion_fair_sample : ∃ x,
    fusedScores (.down 4096) [[(1, 0), (2, 0), (3, 0)], [(1, 0), (2, 0)]] 60 1 = some x ∧
      1 / 32 ≤ (Rounds.down 32).round x ∧
        ((1, (Rounds.down 32).round x) ∈ reciprocalRankFusion (.down 32)
            [(3, 65 / 4096), (2, 132 / 4096), (1, 134 / 4096)] 2 ∨
          1 / 32 = (Rounds.down 32).round x ∧ 2 < 1) := by
  have hyields :
      (fusedScores (.down 4096) [[(1, 0), (2, 0), (3, 0)], [(1, 0), (2, 0)]] 60).Yields
        [(3, 65 / 4096), (2, 132 / 4096), (1, 134 / 4096)] := by
    refine ⟨by decide, fun id s => ?_⟩
    have h₁ : fusedScores (.down 4096) [[(1, 0), (2, 0), (3, 0)], [(1, 0), (2, 0)]] 60 1 =
        some (134 / 4096) := by decide +kernel
    have h₂ : fusedScores (.down 4096) [[(1, 0), (2, 0), (3, 0)], [(1, 0), (2, 0)]] 60 2 =
        some (132 / 4096) := by decide +kernel
    have h₃ : fusedScores (.down 4096) [[(1, 0), (2, 0), (3, 0)], [(1, 0), (2, 0)]] 60 3 =
        some (65 / 4096) := by decide +kernel
    by_cases h : id = 1 ∨ id = 2 ∨ id = 3
    · rcases h with rfl | rfl | rfl
      · rw [h₁]
        simp [eq_comm]
      · rw [h₂]
        simp [eq_comm]
      · rw [h₃]
        simp [eq_comm]
    · simp only [not_or] at h
      simp [fusedScores, addList, addScore, h]
  refine (fusion_fair (.down 4096) (.down 32) (by decide) (by decide) hyields hyields 2).2 1 2 ?_
    _ ?_
  · decide
  · decide +kernel

end Vecvec
