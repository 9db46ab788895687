import Mathlib.Data.List.Pairwise
import Vecvec.Machinery.Best

/-!
# Machinery/Ranking — numbered things, ranked by a score

Of numbered things the one with the smaller score ranks first, and of equals the one with the
smaller number.  Two scores **rank alike exactly if they compare any two alike, in the order of
their numbers** (`rankBy_congr_iff`), and sorting sees nothing else of them
(`insertionSort_eq_iff`).
-/

namespace Machinery

/-- **Two orders sort a list alike** exactly if they agree on what is in it. -/
theorem insertionSort_eq_iff {α : Type*} {r r' : α → α → Prop} [DecidableRel r] [DecidableRel r']
    [Std.Total r] [Std.Total r'] [IsTrans α r] [IsTrans α r'] [Std.Antisymm r] [Std.Antisymm r']
      {l : List α} :
    l.insertionSort r = l.insertionSort r' ↔ ∀ a ∈ l, ∀ b ∈ l, r a b ↔ r' a b := by
  refine ⟨fun h a ha b hb => ?_, fun h => ?_⟩
  · rcases eq_or_ne a b with rfl | hne
    · exact iff_of_true (refl_of r a) (refl_of r' a)
    · -- sorted in both orders, any two of the list are compared alike
      have hsymm : Std.Symm fun a b => r a b ∧ r' a b ∨ r b a ∧ r' b a := ⟨fun _ _ => Or.symm⟩
      have hboth : (l.insertionSort r).Pairwise fun a b => r a b ∧ r' a b ∨ r b a ∧ r' b a :=
        ((List.pairwise_insertionSort r l).and (h ▸ List.pairwise_insertionSort r' l)).imp .inl
      have hperm := List.perm_insertionSort r l
      rcases hboth.forall (hperm.mem_iff.mpr ha) (hperm.mem_iff.mpr hb) hne
        with ⟨hr, hr'⟩ | ⟨hr, hr'⟩
      · exact iff_of_true hr hr'
      · exact iff_of_false (fun hab => hne (Std.Antisymm.antisymm _ _ hab hr))
          fun hab => hne (Std.Antisymm.antisymm _ _ hab hr')
  · have hmap := List.map_insertionSort r r' id l h
    rwa [List.map_id, List.map_id] at hmap

variable {B : Type*} [LinearOrder B]

/-! ## Keys -/

/-- A score and a number: the smaller score first, and of equals the smaller number. -/
def closer (a b : B × ℕ) : Prop := a.1 < b.1 ∨ a.1 = b.1 ∧ a.2 ≤ b.2

instance : DecidableRel (closer (B := B)) := fun _ _ => instDecidableOr

instance : Std.Total (closer (B := B)) where
  total a b := by
    rcases lt_trichotomy a.1 b.1 with h | h | h
    · exact .inl (.inl h)
    · exact (le_total a.2 b.2).imp (fun hle => .inr ⟨h, hle⟩) fun hle => .inr ⟨h.symm, hle⟩
    · exact .inr (.inl h)

instance : IsTrans (B × ℕ) closer where
  trans a b c hab hbc := by
    rcases hab with hab | ⟨hab, hab'⟩
    · rcases hbc with hbc | ⟨hbc, -⟩
      · exact .inl (hab.trans hbc)
      · exact .inl (hbc ▸ hab)
    · rcases hbc with hbc | ⟨hbc, hbc'⟩
      · exact .inl (hab ▸ hbc)
      · exact .inr ⟨hab.trans hbc, hab'.trans hbc'⟩

instance : Std.Antisymm (closer (B := B)) where
  antisymm a b hab hba := by
    rcases hab with hab | ⟨hab, hab'⟩
    · rcases hba with hba | ⟨hba, -⟩
      · exact absurd hba hab.asymm
      · exact absurd hba hab.ne'
    · rcases hba with hba | ⟨-, hba'⟩
      · exact absurd hab hba.ne'
      · exact Prod.ext hab (le_antisymm hab' hba')

/-! ## Ranks -/

/-- The order of numbers by their scores. -/
def rankBy (f : ℕ → B) (i j : ℕ) : Prop := closer (f i, i) (f j, j)

variable {f g : ℕ → B} {i j n : ℕ}

instance : DecidableRel (rankBy f) := fun i j =>
    inferInstanceAs (Decidable (closer (f i, i) (f j, j)))

instance : Std.Total (rankBy f) where
  total i j := Std.Total.total (r := closer) (f i, i) (f j, j)

instance : IsTrans ℕ (rankBy f) where
  trans i j k := IsTrans.trans (r := closer) (f i, i) (f j, j) (f k, k)

instance : Std.Antisymm (rankBy f) where
  antisymm _ _ hij hji := congrArg Prod.snd (Std.Antisymm.antisymm (r := closer) _ _ hij hji)

/-- The smaller number needs no smaller score. -/
theorem rankBy_of_lt (h : i < j) : rankBy f i j ↔ f i ≤ f j := by
  rw [rankBy, closer, and_iff_left h.le, le_iff_lt_or_eq]

/-- The larger number does. -/
theorem rankBy_of_gt (h : i < j) : rankBy f j i ↔ f j < f i := by
  rw [rankBy, closer, or_iff_left fun hle => h.not_ge hle.2]

/-- **Two scores rank alike** exactly if they compare alike what comes first with what comes
later. -/
theorem rankBy_congr_iff : (∀ i ∈ List.range n, ∀ j ∈ List.range n, rankBy f i j ↔ rankBy g i j) ↔
    ∀ i j, i < j → j < n → (f i ≤ f j ↔ g i ≤ g j) := by
  refine ⟨fun h i j hij hj => ?_, fun h i hi j hj => ?_⟩
  · rw [← rankBy_of_lt hij, ← rankBy_of_lt hij]
    exact h i (List.mem_range.mpr (hij.trans hj)) j (List.mem_range.mpr hj)
  · rw [List.mem_range] at hi hj
    rcases lt_trichotomy i j with hij | rfl | hij
    · rw [rankBy_of_lt hij, rankBy_of_lt hij]
      exact h i j hij hj
    · exact iff_of_true (refl_of _ i) (refl_of _ i)
    · rw [rankBy_of_gt hij, rankBy_of_gt hij, ← not_le, ← not_le, h j i hij hi]

/-- Numbers sorted by their scores are their keys sorted. -/
theorem insertionSort_keys (f : ℕ → B) (l : List ℕ) :
    (l.map fun i => (f i, i)).insertionSort closer =
      (l.insertionSort (rankBy f)).map fun i => (f i, i) :=
  (List.map_insertionSort (rankBy f) closer _ l fun _ _ _ _ => Iff.rfl).symm

theorem best_keys (f : ℕ → B) (l : List ℕ) (k : ℕ) :
    best closer k (l.map fun i => (f i, i)) = (best (rankBy f) k l).map fun i => (f i, i) := by
  rw [best, best, insertionSort_keys, List.map_take]

/-- Scores that rank alike have the same best. -/
theorem best_rankBy_congr {l : List ℕ} {k : ℕ}
    (h : ∀ i ∈ l, ∀ j ∈ l, rankBy f i j ↔ rankBy g i j) :
    best (rankBy f) k l = best (rankBy g) k l := by
  rw [best, best, insertionSort_eq_iff.mpr h]

end Machinery
