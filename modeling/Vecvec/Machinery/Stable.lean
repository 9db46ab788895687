import Mathlib.Data.List.Sort

/-!
# Machinery/Stable — sorting by a key keeps the order of equal keys

The insertion sort by a key is stable.  Two consequences do not mention the order: what is filtered
out may be filtered out before or after (`filter_insertionSort`), and a part may be sorted ahead of
the whole (`insertionSort_append`).
-/

namespace Machinery

variable {α κ : Type*} [LinearOrder κ] (key : α → κ)

/-- The order by a key. -/
abbrev byKey (a b : α) : Prop := key a ≤ key b

theorem orderedInsert_of_le {a b : α} (h : key a ≤ key b) (l : List α) :
    (b :: l).orderedInsert (byKey key) a = a :: b :: l :=
  List.orderedInsert_cons_of_le (byKey key) l h

theorem orderedInsert_of_lt {a b : α} (h : key b < key a) (l : List α) :
    (b :: l).orderedInsert (byKey key) a = b :: l.orderedInsert (byKey key) a :=
  List.orderedInsert_of_not_le (byKey key) l (not_le.mpr h)

theorem orderedInsert_eq_cons {a : α} {l : List α} (h : ∀ b ∈ l, key a ≤ key b) :
    l.orderedInsert (byKey key) a = a :: l := by
  cases l with
  | nil => rfl
  | cons b l => exact orderedInsert_of_le key (h b List.mem_cons_self) l

/-- An element filtered out is inserted for nothing. -/
theorem filter_orderedInsert_of_neg {p : α → Bool} {a : α} (ha : ¬ p a) (l : List α) :
    (l.orderedInsert (byKey key) a).filter p = l.filter p := by
  induction l with
  | nil => exact List.filter_cons_of_neg ha
  | cons b l ih =>
    rw [List.orderedInsert_cons]
    split
    · exact List.filter_cons_of_neg ha
    · rw [List.filter_cons, List.filter_cons, ih]

theorem filter_orderedInsert_of_pos {p : α → Bool} {a : α} (ha : p a) {l : List α}
    (hl : l.Pairwise (byKey key)) :
    (l.orderedInsert (byKey key) a).filter p = (l.filter p).orderedInsert (byKey key) a := by
  induction l with
  | nil => exact List.filter_cons_of_pos ha
  | cons b l ih =>
    obtain ⟨hb, hl⟩ := List.pairwise_cons.mp hl
    rw [List.orderedInsert_cons]
    split
    next hab =>
      have hall : ∀ c ∈ (b :: l).filter p, key a ≤ key c := fun c hc => by
        rcases List.mem_cons.mp (List.mem_of_mem_filter hc) with rfl | hc
        exacts [hab, hab.trans (hb c hc)]
      rw [List.filter_cons_of_pos ha, orderedInsert_eq_cons key hall]
    next hab =>
      by_cases hp : p b
      · rw [List.filter_cons_of_pos hp, List.filter_cons_of_pos hp, ih hl,
          orderedInsert_of_lt key (not_le.mp hab)]
      · rw [List.filter_cons_of_neg hp, List.filter_cons_of_neg hp, ih hl]

/-- **Filter, then sort**, or the other way round. -/
theorem filter_insertionSort (p : α → Bool) (l : List α) :
    (l.insertionSort (byKey key)).filter p = (l.filter p).insertionSort (byKey key) := by
  induction l with
  | nil => rfl
  | cons a l ih =>
    rw [List.insertionSort_cons]
    by_cases ha : p a
    · rw [filter_orderedInsert_of_pos key ha (List.pairwise_insertionSort _ l), ih,
        List.filter_cons_of_pos ha, List.insertionSort_cons]
    · rw [filter_orderedInsert_of_neg key ha, ih, List.filter_cons_of_neg ha]

/-- Elements of different keys may be inserted in either order. -/
theorem orderedInsert_comm {a b : α} (hab : key a < key b) (l : List α) :
    (l.orderedInsert (byKey key) b).orderedInsert (byKey key) a =
      (l.orderedInsert (byKey key) a).orderedInsert (byKey key) b := by
  induction l with
  | nil =>
    rw [List.orderedInsert_nil, List.orderedInsert_nil, orderedInsert_of_le key hab.le,
      orderedInsert_of_lt key hab, List.orderedInsert_nil]
  | cons c l ih =>
    rcases le_or_gt (key b) (key c) with hbc | hbc
    · rw [orderedInsert_of_le key hbc, orderedInsert_of_le key hab.le,
        orderedInsert_of_le key (hab.le.trans hbc), orderedInsert_of_lt key hab,
        orderedInsert_of_le key hbc]
    · rw [orderedInsert_of_lt key hbc]
      rcases le_or_gt (key a) (key c) with hac | hac
      · rw [orderedInsert_of_le key hac, orderedInsert_of_le key hac, orderedInsert_of_lt key hab,
          orderedInsert_of_lt key hbc]
      · rw [orderedInsert_of_lt key hac, orderedInsert_of_lt key hac, orderedInsert_of_lt key hbc,
          ih]

theorem insertionSort_orderedInsert_append (a : α) (l l' : List α) :
    (l.orderedInsert (byKey key) a ++ l').insertionSort (byKey key) =
      ((l ++ l').insertionSort (byKey key)).orderedInsert (byKey key) a := by
  induction l with
  | nil => rfl
  | cons b l ih =>
    rcases le_or_gt (key a) (key b) with hab | hab
    · rw [orderedInsert_of_le key hab]
      rfl
    · rw [orderedInsert_of_lt key hab, List.cons_append, List.insertionSort_cons, ih,
        orderedInsert_comm key hab]
      rfl

/-- **A part may be sorted ahead.** -/
theorem insertionSort_append (l l' : List α) :
    (l.insertionSort (byKey key) ++ l').insertionSort (byKey key) =
      (l ++ l').insertionSort (byKey key) := by
  induction l with
  | nil => rfl
  | cons a l ih =>
    rw [List.insertionSort_cons, insertionSort_orderedInsert_append, ih]
    rfl

end Machinery
