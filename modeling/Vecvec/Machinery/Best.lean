import Mathlib.Data.List.Sort

/-!
# Machinery/Best — the best `k` of a list

The best `k` of a list are the first `k` of it sorted.  They are the **same whatever the list's
order** (`best_perm`), a bounded collector keeps them by one insertion for each element
(`best_cons`, `take_orderedInsert_concat`), and **a part may be cut off at its own best `k`** before
it is merged with the rest (`best_append_best`).  Where some of a list are to be dropped, the best
of those that stay are among the best `k` of all, and as many more as are dropped
(`take_filter_take_add`).
-/

namespace Machinery

variable {α : Type*} (r : α → α → Prop) [DecidableRel r]

/-- The best `k` of a list. -/
def best (k : ℕ) (l : List α) : List α := (l.insertionSort r).take k

variable {r} {k : ℕ} {l l' : List α}

theorem best_nil : best r k [] = [] := List.take_nil

theorem length_best_le : (best r k l).length ≤ k := List.length_take_le _ _

/-- **An over-fetch by the number of those dropped suffices**, whatever the order. -/
theorem take_filter_take_add {p : α → Bool} {l : List α} {e : ℕ}
    (h : (l.filter fun a => !p a).length ≤ e) :
    ((l.take (k + e)).filter p).take k = (l.filter p).take k := by
  rcases le_total l.length (k + e) with hl | hl
  · rw [List.take_of_length_le hl]
  · have hdropped : ((l.take (k + e)).filter fun a => !p a).length ≤ e :=
      ((List.take_sublist _ _).filter _).length_le.trans h
    have hcount := (l.take (k + e)).length_eq_length_filter_add p
    rw [List.length_take_of_le hl] at hcount
    have hsplit : l.filter p = (l.take (k + e)).filter p ++ (l.drop (k + e)).filter p := by
      rw [← List.filter_append, List.take_append_drop]
    rw [hsplit, List.take_append_of_le_length (by omega)]

/-! ## One element more -/

/-- An insertion sees the first `k` only, if no more are kept. -/
theorem take_orderedInsert_take (a : α) (l : List α) (k : ℕ) :
    ((l.take k).orderedInsert r a).take k = (l.orderedInsert r a).take k := by
  induction l generalizing k with
  | nil => rw [List.take_nil]
  | cons b l ih =>
    cases k with
    | zero => rfl
    | succ k =>
      rw [List.take_succ_cons, List.orderedInsert_cons, List.orderedInsert_cons]
      split
      · rw [List.take_succ_cons, List.take_succ_cons]
        cases k with
        | zero => rfl
        | succ k => rw [List.take_succ_cons, List.take_succ_cons, List.take_take,
            min_eq_left (Nat.le_succ k)]
      · rw [List.take_succ_cons, List.take_succ_cons, ih]

theorem best_cons (a : α) : best r k (a :: l) = ((best r k l).orderedInsert r a).take k :=
  (take_orderedInsert_take a _ k).symm

section Sorted

variable [Std.Total r] [IsTrans α r]

theorem pairwise_best : (best r k l).Pairwise r :=
  (List.pairwise_insertionSort r l).sublist (List.take_sublist _ _)

@[simp] theorem best_best : best r k (best r k l) = best r k l := by
  rw [best, pairwise_best.insertionSort_eq]
  exact List.take_of_length_le length_best_le

/-- **A part may be cut off**: the best of the whole are those of the part's best and the rest. -/
theorem best_append_best : best r k (l' ++ best r k l) = best r k (l' ++ l) := by
  induction l' with
  | nil => exact best_best
  | cons a l' ih => rw [List.cons_append, List.cons_append, best_cons, best_cons, ih]

variable [Std.Antisymm r]

theorem best_perm (h : l.Perm l') : best r k l = best r k l' := by
  have hperm : (l.insertionSort r).Perm (l'.insertionSort r) :=
    (List.perm_insertionSort r l).trans (h.trans (List.perm_insertionSort r l').symm)
  have hsort : l.insertionSort r = l'.insertionSort r :=
    hperm.eq_of_pairwise' (List.pairwise_insertionSort r l) (List.pairwise_insertionSort r l')
  rw [best, best, hsort]

/-- **A full collector**: what is not better than the worst kept is turned away, anything else
takes the place of the worst. -/
theorem take_orderedInsert_concat {w : α} (h : (l ++ [w]).Pairwise r) (a : α) :
    ((l ++ [w]).orderedInsert r a).take (l.length + 1) =
      if r w a then l ++ [w] else l.orderedInsert r a := by
  obtain ⟨hl, -, hlw⟩ := List.pairwise_append.mp h
  have hw (x : α) (hx : x ∈ l) : r x w := hlw x hx w (List.mem_singleton_self w)
  have hsort := h.orderedInsert a
  split
  · rename_i hwa
    have hperm : ((l ++ [w]).orderedInsert r a).Perm (l ++ [w] ++ [a]) :=
      (List.perm_orderedInsert r a _).trans (List.perm_append_singleton a _).symm
    have hlast : (l ++ [w] ++ [a]).Pairwise r := by
      refine List.pairwise_append.mpr ⟨h, List.pairwise_singleton _ _, fun x hx y hy => ?_⟩
      rw [List.mem_singleton.mp hy]
      rcases List.mem_append.mp hx with hx | hx
      · exact trans_of r (hw x hx) hwa
      · rwa [List.mem_singleton.mp hx]
    rw [hperm.eq_of_pairwise' hsort hlast, List.take_left' (by simp)]
  · rename_i hwa
    have haw : r a w := (Std.Total.total a w).resolve_right hwa
    have hperm : ((l ++ [w]).orderedInsert r a).Perm (l.orderedInsert r a ++ [w]) :=
      (List.perm_orderedInsert r a _).trans
        ((List.perm_orderedInsert r a l).append_right [w]).symm
    have hlast : (l.orderedInsert r a ++ [w]).Pairwise r := by
      refine List.pairwise_append.mpr
        ⟨hl.orderedInsert a _, List.pairwise_singleton _ _, fun x hx y hy => ?_⟩
      rw [List.mem_singleton.mp hy]
      rcases (List.mem_orderedInsert r).mp hx with rfl | hx
      exacts [haw, hw x hx]
    rw [hperm.eq_of_pairwise' hsort hlast, List.take_left' (List.orderedInsert_length r l a)]

/-! ## Who is among the best -/

variable [DecidableEq α]

omit [Std.Total r] [IsTrans α r] in
/-- In a sorted list, those that are better than an element stand before it. -/
theorem countP_better {before after : List α} {a : α} (hnodup : (before ++ a :: after).Nodup)
    (hsort : (before ++ a :: after).Pairwise r) :
    (before ++ a :: after).countP (fun b => b ≠ a ∧ r b a) = before.length := by
  obtain ⟨-, hafter, hbetween⟩ := List.pairwise_append.mp hsort
  obtain ⟨-, hnodup', hne⟩ := List.nodup_append.mp hnodup
  have hbefore : before.countP (fun b => b ≠ a ∧ r b a) = before.length :=
    List.countP_eq_length.mpr fun b hb => decide_eq_true
      ⟨hne b hb a List.mem_cons_self, hbetween b hb a List.mem_cons_self⟩
  have hrest : (a :: after).countP (fun b => b ≠ a ∧ r b a) = 0 := by
    refine List.countP_eq_zero.mpr fun b hb => ?_
    rw [decide_eq_true_eq]
    rintro ⟨hba, hr⟩
    have hmem := (List.mem_cons.mp hb).resolve_left hba
    exact hba (Std.Antisymm.antisymm _ _ hr ((List.pairwise_cons.mp hafter).1 b hmem))
  rw [List.countP_append, hbefore, hrest, Nat.add_zero]

omit [DecidableEq α] in
theorem mem_take_append_cons {before after : List α} {a : α}
    (hnodup : (before ++ a :: after).Nodup) :
    a ∈ (before ++ a :: after).take k ↔ before.length < k := by
  rw [List.take_append, List.mem_append]
  refine ⟨fun h => ?_, fun h => ?_⟩
  · by_contra hle
    rw [Nat.sub_eq_zero_of_le (not_lt.mp hle), List.take_zero] at h
    have hmem := List.mem_of_mem_take (h.resolve_right List.not_mem_nil)
    exact (List.nodup_append.mp hnodup).2.2 a hmem a List.mem_cons_self rfl
  · obtain ⟨m, hm⟩ := Nat.exists_eq_add_of_lt h
    rw [show k - before.length = m + 1 by omega]
    exact .inr List.mem_cons_self

/-- **An element is among the best** if fewer than `k` others are better. -/
theorem mem_best_iff (hl : l.Nodup) {a : α} :
    a ∈ best r k l ↔ a ∈ l ∧ l.countP (fun b => b ≠ a ∧ r b a) < k := by
  have hperm := List.perm_insertionSort r l
  have hnodup := hperm.nodup_iff.mpr hl
  have hsort := List.pairwise_insertionSort r l
  rw [best, ← hperm.mem_iff, ← hperm.countP_eq]
  generalize l.insertionSort r = s at hnodup hsort
  by_cases ha : a ∈ s
  · obtain ⟨before, after, rfl⟩ := List.append_of_mem ha
    rw [mem_take_append_cons hnodup, countP_better hnodup hsort, and_iff_right ha]
  · exact iff_of_false (fun h => ha (List.mem_of_mem_take h)) fun h => ha h.1

/-- What is better than one of the best is among them. -/
theorem mem_best_of_rel (hl : l.Nodup) {a b : α} (hb : b ∈ best r k l) (ha : a ∈ l) (hab : r a b) :
    a ∈ best r k l := by
  rcases eq_or_ne a b with rfl | hne
  · exact hb
  · refine (mem_best_iff hl).mpr ⟨ha, lt_of_le_of_lt (List.countP_mono_left fun c _ hc => ?_)
      ((mem_best_iff hl).mp hb).2⟩
    rw [decide_eq_true_eq] at hc ⊢
    refine ⟨fun hcb => hne ?_, trans_of r hc.2 hab⟩
    exact Std.Antisymm.antisymm _ _ hab (hcb ▸ hc.2)

/-- What is counted among the best is counted among all. -/
theorem countP_best (hl : l.Nodup) (p : α → Prop) [DecidablePred p] :
    (best r k l).countP (fun a => p a) = l.countP fun a => a ∈ best r k l ∧ p a := by
  have hnodup : (best r k l).Nodup :=
    ((List.perm_insertionSort r l).nodup_iff.mpr hl).sublist (List.take_sublist _ _)
  have hperm : (best r k l).Perm (l.filter (· ∈ best r k l)) := by
    refine (List.perm_ext_iff_of_nodup hnodup (hl.filter _)).mpr fun a => ?_
    rw [List.mem_filter, decide_eq_true_eq]
    exact (and_iff_right_of_imp fun h => ((mem_best_iff hl).mp h).1).symm
  rw [hperm.countP_eq, List.countP_filter]
  simp [and_comm]

/-- **Those that are not among the best** of some elements may be left out, if `k` better ones
stay. -/
theorem best_filter (hl : l.Nodup) {p : α → Bool}
    (h : ∀ a ∈ l, p a = false → k ≤ l.countP fun b => p b ∧ r b a) :
    best r k (l.filter p) = best r k l := by
  have hall : ∀ a ∈ best r k l, p a = true := by
    intro a ha
    obtain ⟨hmem, hlt⟩ := (mem_best_iff hl).mp ha
    by_contra hpa
    have hpa := Bool.eq_false_iff.mpr hpa
    refine absurd (h a hmem hpa) (Nat.not_le_of_lt
      (lt_of_le_of_lt (List.countP_mono_left fun b _ hb => ?_) hlt))
    rw [decide_eq_true_eq] at hb ⊢
    refine ⟨?_, hb.2⟩
    rintro rfl
    rw [hpa] at hb
    exact Bool.false_ne_true hb.1
  have hsort : (l.filter p).insertionSort r = (l.insertionSort r).filter p :=
    (((List.perm_insertionSort r _).trans
      ((List.perm_insertionSort r l).symm.filter p))).eq_of_pairwise'
      (List.pairwise_insertionSort r _) ((List.pairwise_insertionSort r l).filter p)
  rw [best, hsort]
  rw [best] at hall ⊢
  generalize l.insertionSort r = s at hall
  have hsplit : s.filter p = s.take k ++ (s.drop k).filter p := by
    conv_lhs => rw [← List.take_append_drop k s, List.filter_append, List.filter_eq_self.mpr hall]
  rw [hsplit]
  rcases le_total k s.length with hk | hk
  · exact List.take_left' (List.length_take_of_le hk)
  · rw [List.drop_eq_nil_of_le hk, List.filter_nil, List.append_nil, List.take_take, min_self]

omit [Std.Antisymm r] [DecidableEq α] in
/-- What is not among the best is worse than `k` elements. -/
theorem of_notMem_best {a : α} (ha : a ∈ l) (hout : a ∉ best r k l) :
    (best r k l).length = k ∧ ∀ b ∈ best r k l, r b a := by
  have hsort := List.pairwise_insertionSort r l
  rw [← (List.perm_insertionSort r l).mem_iff] at ha
  rw [best] at hout ⊢
  generalize l.insertionSort r = s at hsort ha hout
  rw [← List.take_append_drop k s] at ha hsort
  have hdrop := (List.mem_append.mp ha).resolve_left hout
  have hlen := List.length_pos_of_mem hdrop
  rw [List.length_drop] at hlen
  exact ⟨List.length_take_of_le (by omega), fun b hb =>
    (List.pairwise_append.mp hsort).2.2 b hb a hdrop⟩

/-- **When two lists have the same best**: those that only one of them has are worse than `k` of
those that both have. -/
theorem best_eq_best_iff {l' : List α} (hl : l.Nodup) (hl' : l'.Nodup) :
    best r k l = best r k l' ↔ ∀ a, (a ∈ l ∧ a ∉ l' ∨ a ∈ l' ∧ a ∉ l) →
      k ≤ l.countP fun b => b ∈ l' ∧ r b a := by
  have hcommon : (l.filter (· ∈ l')).Perm (l'.filter (· ∈ l)) := by
    refine (List.perm_ext_iff_of_nodup (hl.filter _) (hl'.filter _)).mpr fun a => ?_
    simp [and_comm]
  have hcount (a : α) : l.countP (fun b => b ∈ l' ∧ r b a) = l'.countP fun b => b ∈ l ∧ r b a := by
    have := hcommon.countP_eq fun b => decide (r b a)
    rw [List.countP_filter, List.countP_filter] at this
    simpa [Bool.and_comm] using this
  constructor
  · -- what is best in both is in both, and is `k` elements if anything is missing
    have hmiss {l l' : List α} (hl : l.Nodup) (h : best r k l = best r k l') {a : α} (ha : a ∈ l)
        (ha' : a ∉ l') : k ≤ l.countP fun b => b ∈ l' ∧ r b a := by
      have hsub {l : List α} {b : α} (hb : b ∈ best r k l) : b ∈ l :=
        (List.perm_insertionSort r l).subset (List.mem_of_mem_take hb)
      obtain ⟨hlen, hbetter⟩ := of_notMem_best ha fun hbest => ha' (hsub (h ▸ hbest))
      have hcount : (best r k l).countP (fun b => b ∈ l' ∧ r b a) = (best r k l).length :=
        List.countP_eq_length.mpr fun b hb => decide_eq_true ⟨hsub (h ▸ hb), hbetter b hb⟩
      calc k = (best r k l).countP fun b => b ∈ l' ∧ r b a := hlen.symm.trans hcount.symm
        _ ≤ (l.insertionSort r).countP fun b => b ∈ l' ∧ r b a :=
          (List.take_sublist _ _).countP_le
        _ = l.countP fun b => b ∈ l' ∧ r b a := (List.perm_insertionSort r l).countP_eq _
    rintro h a (⟨ha, ha'⟩ | ⟨ha', ha⟩)
    · exact hmiss hl h ha ha'
    · rw [hcount]
      exact hmiss hl' h.symm ha' ha
  · intro h
    have hleft : best r k (l.filter (· ∈ l')) = best r k l := by
      refine best_filter hl fun a ha ha' => ?_
      simpa using h a (.inl ⟨ha, of_decide_eq_false ha'⟩)
    have hright : best r k (l'.filter (· ∈ l)) = best r k l' := by
      refine best_filter hl' fun a ha ha' => ?_
      have := h a (.inr ⟨ha, of_decide_eq_false ha'⟩)
      rw [hcount] at this
      simpa using this
    rw [← hleft, ← hright, best_perm hcommon]

end Sorted

end Machinery
