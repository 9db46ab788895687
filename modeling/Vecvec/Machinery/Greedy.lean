import Mathlib.Data.List.Induction
import Mathlib.Data.List.Nodup

/-!
# Machinery/Greedy — keeping what clashes with nothing kept so far

A greedy choice goes through a list once, and keeps an element unless it **clashes** with one kept
before.  What is kept is decided by the elements before it (`mem_greedy_iff`), so stopping early is
cutting the choice off (`greedy_prefix_append`, `take_foldl_keep`).
-/

namespace Machinery

variable {α : Type*} (clash : α → α → Bool)

/-- One element, kept unless it clashes. -/
def keep (kept : List α) (x : α) : List α := if kept.any (clash x) then kept else kept ++ [x]

/-- The greedy choice out of a list. -/
def greedy (l : List α) : List α := l.foldl (keep clash) []

variable {clash} {l l' before after kept : List α} {x : α}

theorem prefix_keep : kept <+: keep clash kept x := by
  rw [keep]
  split
  exacts [List.prefix_rfl, List.prefix_append _ _]

/-- What is kept stays. -/
theorem prefix_foldl_keep : kept <+: l.foldl (keep clash) kept := by
  induction l generalizing kept with
  | nil => exact List.prefix_rfl
  | cons x l ih => exact prefix_keep.trans ih

/-- **A quota that is used up** is not touched by the rest. -/
theorem take_foldl_keep {m : ℕ} (h : kept.length = m) :
    (l.foldl (keep clash) kept).take m = kept := by
  obtain ⟨more, hmore⟩ : kept <+: l.foldl (keep clash) kept := prefix_foldl_keep
  rw [← hmore, List.take_left' h]

theorem greedy_concat : greedy clash (l ++ [x]) = keep clash (greedy clash l) x := by
  rw [greedy, List.foldl_append]
  rfl

theorem greedy_prefix_append : greedy clash l <+: greedy clash (l ++ l') := by
  rw [greedy, greedy, List.foldl_append]
  exact prefix_foldl_keep

theorem greedy_sublist : (greedy clash l).Sublist l := by
  induction l using List.reverseRecOn with
  | nil => exact List.Sublist.slnil
  | append_singleton l x ih =>
    rw [greedy_concat, keep]
    split
    · exact ih.trans (List.sublist_append_left _ _)
    · exact ih.append_right _

/-- What comes later is kept beside what is kept. -/
theorem mem_of_mem_foldl_keep (h : x ∈ l.foldl (keep clash) kept) : x ∈ kept ∨ x ∈ l := by
  induction l generalizing kept with
  | nil => exact .inl h
  | cons y l ih =>
    rcases ih h with h | h
    · rw [keep] at h
      split at h
      · exact .inl h
      · refine (List.mem_append.mp h).imp_right fun h => ?_
        rw [List.mem_singleton.mp h]
        exact List.mem_cons_self
    · exact .inr (List.mem_cons_of_mem _ h)

theorem mem_greedy_append (h : x ∈ greedy clash (l ++ l')) : x ∈ greedy clash l ∨ x ∈ l' := by
  rw [greedy, List.foldl_append] at h
  exact mem_of_mem_foldl_keep h

/-- **Kept is what clashes with nothing kept before it.** -/
theorem mem_greedy_iff (hnodup : (before ++ x :: after).Nodup) :
    x ∈ greedy clash (before ++ x :: after) ↔
      ∀ r ∈ greedy clash (before ++ x :: after), r ∈ before → clash x r = false := by
  have hdisjoint := List.disjoint_of_nodup_append hnodup
  have hx : x ∉ greedy clash before := fun h =>
    hdisjoint (greedy_sublist.subset h) List.mem_cons_self
  have hafter : x ∉ after := (List.nodup_cons.mp hnodup.of_append_right).1
  -- whether `x` is kept is decided where its turn comes
  have hturn : x ∈ greedy clash (before ++ x :: after) ↔ ¬ (greedy clash before).any (clash x) := by
    rw [List.append_cons]
    constructor
    · intro h hany
      have := (mem_greedy_append h).resolve_right hafter
      rw [greedy_concat, keep, if_pos hany] at this
      exact hx this
    · intro hany
      refine greedy_prefix_append.subset ?_
      rw [greedy_concat, keep, if_neg hany]
      exact List.mem_append_right _ (List.mem_singleton_self x)
  rw [hturn, List.any_eq_true]
  constructor
  · intro hany r hr hbefore
    refine Bool.eq_false_iff.mpr fun hc => hany ⟨r, ?_, hc⟩
    exact (mem_greedy_append hr).resolve_right fun h => hdisjoint hbefore h
  · rintro hall ⟨r, hr, hc⟩
    have := hall r (greedy_prefix_append.subset hr) (greedy_sublist.subset hr)
    exact Bool.false_ne_true (this.symm.trans hc)

end Machinery
