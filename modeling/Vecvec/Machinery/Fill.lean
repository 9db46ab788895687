import Mathlib.Data.List.Nodup
import Mathlib.Logic.Function.Basic

/-!
# Machinery/Fill — a partial map filled from a list

`fill key val m l` inserts the items of `l` into `m`, in order, each under its key.
-/

namespace Machinery

variable {κ α β : Type} [DecidableEq κ] {key : α → κ} {val : α → β} {m : κ → Option β}
  {l l' : List α} {k : κ} {a : α}

/-- The map with the items of a list inserted, later ones over earlier ones. -/
def fill (key : α → κ) (val : α → β) (m : κ → Option β) (l : List α) : κ → Option β :=
  l.foldl (fun m a => Function.update m (key a) (some (val a))) m

@[simp] theorem fill_nil : fill key val m [] = m := rfl

@[simp] theorem fill_cons :
    fill key val m (a :: l) = fill key val (Function.update m (key a) (some (val a))) l := rfl

/-- A key of no item keeps its value. -/
theorem fill_of_notMem (hk : k ∉ l.map key) : fill key val m l k = m k := by
  induction l generalizing m with
  | nil => rfl
  | cons a l ih =>
    obtain ⟨hka, hk⟩ := not_or.mp (mt List.mem_cons.mpr hk)
    rw [fill_cons, ih hk, Function.update_of_ne hka]

/-- A key holds its old value, or that of an item under it. -/
theorem fill_eq_or (k : κ) :
    fill key val m l k = m k ∨ ∃ a ∈ l, key a = k ∧ fill key val m l k = some (val a) := by
  induction l generalizing m with
  | nil => exact .inl rfl
  | cons a l ih =>
    rw [fill_cons]
    rcases ih with h | ⟨b, hb, hk, h⟩
    · by_cases hk : k = key a
      · subst hk
        rw [h, Function.update_self]
        exact .inr ⟨a, List.mem_cons_self, rfl, rfl⟩
      · rw [h, Function.update_of_ne hk]
        exact .inl rfl
    · exact .inr ⟨b, List.mem_cons_of_mem _ hb, hk, h⟩

/-- Under different keys, every item is found under its own. -/
theorem fill_of_mem (hl : (l.map key).Nodup) (ha : a ∈ l) :
    fill key val m l (key a) = some (val a) := by
  induction l generalizing m with
  | nil => cases ha
  | cons b l ih =>
    obtain ⟨hb, hl⟩ := List.nodup_cons.mp hl
    rw [fill_cons]
    rcases List.mem_cons.mp ha with rfl | ha
    · rw [fill_of_notMem hb, Function.update_self]
    · exact ih hl ha

/-- Filling removes nothing. -/
theorem isSome_fill : (fill key val m l k).isSome ↔ (m k).isSome ∨ k ∈ l.map key := by
  induction l generalizing m with
  | nil => simp
  | cons a l ih =>
    rw [fill_cons, ih, List.map_cons, List.mem_cons, ← or_assoc]
    refine or_congr_left ?_
    by_cases hk : k = key a
    · subst hk
      simp
    · simp [hk]

end Machinery
