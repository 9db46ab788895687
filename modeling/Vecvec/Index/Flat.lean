import Vecvec.Hnsw.Index
import Vecvec.Index.Exact

/-!
# Index/Flat — the exact scan, its oracle, and scores that are not numbers

The scan of a storage offers every row it admits to a bounded collector; the oracle sorts them all.
**A collector is a full sort cut off** (`topk_sorts`), so the two agree, ties and repeated offers
included.

A NaN is ordered by its sign: below every number if it is negative, above every number if not.  The
ranking negates the scores of the metrics whose larger scores are better, so each polarity puts one
kind of NaN first: **a NaN wins exactly when one of that kind is offered with a number**
(`topk_nansLose_iff`).
-/

namespace Vecvec

/-! ## The code -/

namespace VectorStorage

variable (K : Kernels) (s : VectorStorage) (metric : Metric) (query : List F32) (k : ℕ)
  (tombstones : Option (Finset ℕ)) (filter : Option (ℕ → Bool))

/-- `scan_topk`, with a kernel of the given metric. -/
def scanTopk : List (ℕ × F32) :=
  ((List.range s.count).foldl (fun topk id =>
    if tombstones.any fun t => decide (id ∈ t) then topk
    else if filter.any fun f => !f id then topk
    else topk.offer id (K.scoreF32 metric query (s.get id)))
    (BoundedTopK.new ℕ k metric.higherIsBetter)).intoSorted

/-- `brute_force_topk`: every admitted row scored, sorted, and cut off. -/
def bruteForceTopk : List (ℕ × F32) :=
  let scored := (List.range s.count).foldl (fun scored id =>
    if tombstones.any fun t => decide (id ∈ t) then scored
    else if filter.any fun f => !f id then scored
    else scored ++ [rankKey (K.scoreF32 metric query (s.get id)) id metric.higherIsBetter]) []
  ((scored.insertionSort keyLe).take k).map fun key =>
    (key.2, scoreFromBadness key.1 metric.higherIsBetter)

/-- Whether a row is scanned. -/
def scans (id : ℕ) : Bool :=
  !(tombstones.any fun t => decide (id ∈ t)) && !(filter.any fun f => !f id)

/-- The rows scanned, with their scores. -/
def scored : List (ℕ × F32) :=
  ((List.range s.count).filter (scans tombstones filter)).map fun id =>
    (id, K.scoreF32 metric query (s.get id))

end VectorStorage

/-! ## A collector is a sort -/

section Offers

variable {I : Type} [LinearOrder I] {k : ℕ} {higher : Bool} {offers : List (I × F32)}

/-- **A collector drains to the best of its offers.** -/
theorem intoSorted_offerAll (k : ℕ) (higher : Bool) (offers : List (I × F32)) :
    ((BoundedTopK.new I k higher).offerAll offers).intoSorted = (bestFirst higher offers).take k :=
  (BoundedTopK.holds_new.offerAll offers).intoSorted

namespace VectorStorage

variable {K : Kernels} {s : VectorStorage} {metric : Metric} {query : List F32}
  {tombstones : Option (Finset ℕ)} {filter : Option (ℕ → Bool)}

theorem scanTopk_eq : s.scanTopk K metric query k tombstones filter =
    (bestFirst metric.higherIsBetter (s.scored K metric query tombstones filter)).take k := by
  have hfold (ids : List ℕ) (b : BoundedTopK ℕ) : ids.foldl (fun topk id =>
      if tombstones.any fun t => decide (id ∈ t) then topk
      else if filter.any fun f => !f id then topk
      else topk.offer id (K.scoreF32 metric query (s.get id))) b =
      b.offerAll ((ids.filter (scans tombstones filter)).map fun id =>
        (id, K.scoreF32 metric query (s.get id))) := by
    induction ids generalizing b with
    | nil => rfl
    | cons id ids ih =>
      rw [List.foldl_cons, ih, List.filter_cons, scans]
      cases tombstones.any fun t => decide (id ∈ t) <;> cases filter.any fun f => !f id <;> rfl
  rw [scanTopk, hfold]
  exact intoSorted_offerAll _ _ _

theorem bruteForceTopk_eq : s.bruteForceTopk K metric query k tombstones filter =
    (bestFirst metric.higherIsBetter (s.scored K metric query tombstones filter)).take k := by
  have hfold (ids : List ℕ) (keys : List (F32 × ℕ)) : ids.foldl (fun scored id =>
      if tombstones.any fun t => decide (id ∈ t) then scored
      else if filter.any fun f => !f id then scored
      else scored ++ [rankKey (K.scoreF32 metric query (s.get id)) id metric.higherIsBetter]) keys =
      keys ++ ((ids.filter (scans tombstones filter)).map fun id =>
        (id, K.scoreF32 metric query (s.get id))).map (keyOf metric.higherIsBetter) := by
    induction ids generalizing keys with
    | nil => exact (List.append_nil _).symm
    | cons id ids ih =>
      rw [List.foldl_cons, ih, List.filter_cons, scans]
      cases tombstones.any fun t => decide (id ∈ t) <;> cases filter.any fun f => !f id <;>
        simp [keyOf]
  rw [bruteForceTopk, hfold, List.nil_append]
  change (((s.scored K metric query tombstones filter).map _).insertionSort keyLe |>.take k).map _ =
    _
  rw [← map_keyOf_bestFirst, ← List.map_take, List.map_map]
  exact (List.map_congr_left fun p _ => score_keyOf _ p).trans (List.map_id _)

end VectorStorage

/-- **The bounded heap is a full sort**: it drains to its offers sorted and cut off, whatever their
order, and a scan with it finds what the oracle finds. -/
theorem topk_sorts :
    (∀ (I : Type) [LinearOrder I] (k : ℕ) (higher : Bool) (offers : List (I × F32)),
      ((BoundedTopK.new I k higher).offerAll offers).intoSorted = (bestFirst higher offers).take k ∧
      ∀ offers', offers.Perm offers' → ((BoundedTopK.new I k higher).offerAll offers').intoSorted =
        ((BoundedTopK.new I k higher).offerAll offers).intoSorted) ∧
    ∀ (K : Kernels) (s : VectorStorage) (metric : Metric) (query : List F32) (k : ℕ)
      (tombstones : Option (Finset ℕ)) (filter : Option (ℕ → Bool)),
      s.scanTopk K metric query k tombstones filter =
        s.bruteForceTopk K metric query k tombstones filter := by
  refine ⟨fun I _ k higher offers => ⟨intoSorted_offerAll k higher offers, fun offers' h => ?_⟩,
    fun K s metric query k tombstones filter => ?_⟩
  · have hholds : ((BoundedTopK.new I k higher).offerAll offers').Holds k higher offers' :=
      BoundedTopK.holds_new.offerAll offers'
    exact (hholds.perm h.symm).intoSorted.trans (intoSorted_offerAll k higher offers).symm
  · rw [VectorStorage.scanTopk_eq, VectorStorage.bruteForceTopk_eq]

end Offers

/-! ## Scores that are not numbers -/

namespace F32

/-- What is left of a float without its sign. -/
def magnitude (x : F32) : ℕ := (x &&& 0x7FFFFFFF#32).toNat

theorem magnitude_lt (x : F32) : x.magnitude < 2 ^ 31 := by
  rw [magnitude, BitVec.toNat_and]
  exact Nat.lt_of_le_of_lt Nat.and_le_right (by decide)

theorem isNaN_iff {x : F32} : x.isNaN = true ↔ 0x7F800000 < x.magnitude := decide_eq_true_iff

theorem xor_of_msb {x : F32} (h : x.msb = true) : x ^^^ 0x7FFFFFFF#32 =
    ~~~(x &&& 0x7FFFFFFF#32) := by
  have hconst : ∀ i < 32, (0x7FFFFFFF#32).getLsbD i = decide (i < 31) := by decide
  refine BitVec.eq_of_getLsbD_eq fun i hi => ?_
  rw [BitVec.getLsbD_xor, BitVec.getLsbD_not, BitVec.getLsbD_and, hconst i hi]
  rcases Nat.lt_or_eq_of_le (Nat.le_of_lt_succ hi) with h31 | rfl
  · simp [h31, hi]
  · rw [BitVec.msb_eq_getLsbD_last] at h
    simp at h
    simp [h]

theorem and_of_not_msb {x : F32} (h : x.msb = false) : x &&& 0x7FFFFFFF#32 = x := by
  have hconst : ∀ i < 32, (0x7FFFFFFF#32).getLsbD i = decide (i < 31) := by decide
  refine BitVec.eq_of_getLsbD_eq fun i hi => ?_
  rw [BitVec.getLsbD_and, hconst i hi]
  rcases Nat.lt_or_eq_of_le (Nat.le_of_lt_succ hi) with h31 | rfl
  · simp [h31]
  · rw [BitVec.msb_eq_getLsbD_last] at h
    simp at h
    simp [h]

/-- The total order on signs and magnitudes. -/
theorem ord_eq (x : F32) : x.ord = if x.msb then -(1 + (x.magnitude : ℤ)) else x.magnitude := by
  have hlt := x.magnitude_lt
  rw [ord]
  cases h : x.msb with
  | true =>
    rw [if_pos rfl, if_pos rfl, xor_of_msb h, BitVec.toInt_not, Int.bmod_def]
    rw [show (x &&& 0x7FFFFFFF#32).toNat = x.magnitude from rfl]
    omega
  | false =>
    rw [if_neg Bool.false_ne_true, if_neg Bool.false_ne_true, magnitude, and_of_not_msb h]
    exact BitVec.toInt_eq_toNat_of_msb h

@[simp] theorem magnitude_neg (x : F32) : (neg x).magnitude = x.magnitude := by
  have hbits : (x ^^^ 0x80000000#32) &&& 0x7FFFFFFF#32 = x &&& 0x7FFFFFFF#32 := by
    have hsign : ∀ i < 32, (0x7FFFFFFF#32).getLsbD i = !(0x80000000#32).getLsbD i := by decide
    refine BitVec.eq_of_getLsbD_eq fun i hi => ?_
    rw [BitVec.getLsbD_and, BitVec.getLsbD_and, BitVec.getLsbD_xor, hsign i hi]
    cases x.getLsbD i <;> cases (0x80000000#32).getLsbD i <;> rfl
  rw [magnitude, neg, hbits, magnitude]

@[simp] theorem msb_neg (x : F32) : (neg x).msb = !x.msb := by
  rw [neg, BitVec.msb_xor, show (0x80000000#32).msb = true by decide, Bool.xor_true]

@[simp] theorem isNaN_neg (x : F32) : (neg x).isNaN = x.isNaN := by
  rw [Bool.eq_iff_iff, isNaN_iff, isNaN_iff, magnitude_neg]

/-- **A negative NaN** is below every number. -/
theorem ord_lt_of_isNaN {x y : F32} (hx : x.isNaN = true) (hneg : x.msb = true)
    (hy : y.isNaN = false) : x.ord < y.ord := by
  have hx := isNaN_iff.mp hx
  have hy := mt isNaN_iff.mpr (Bool.eq_false_iff.mp hy)
  rw [ord_eq, ord_eq, if_pos hneg]
  split <;> omega

/-- **A positive NaN** is above every number. -/
theorem lt_ord_of_isNaN {x y : F32} (hx : x.isNaN = true) (hpos : x.msb = false)
    (hy : y.isNaN = false) : y.ord < x.ord := by
  have hx := isNaN_iff.mp hx
  have hy := mt isNaN_iff.mpr (Bool.eq_false_iff.mp hy)
  rw [ord_eq, ord_eq, if_neg (Bool.eq_false_iff.mp hpos)]
  split <;> omega

end F32

section NaNs

variable {I : Type} [LinearOrder I] {k : ℕ} {higher : Bool} {offers : List (I × F32)}

/-- A score that the polarity ranks first though it is not a number. -/
def F32.ranksFirst (higherIsBetter : Bool) (score : F32) : Bool :=
  score.isNaN && score.msb != higherIsBetter

/-- **NaN scores never win**: a result that has one has every number offered, ahead of them all. -/
def NaNsLose (offers result : List (I × F32)) : Prop :=
  (∃ r ∈ result, r.2.isNaN = true) → ∃ numbers nans, result = numbers ++ nans ∧
    (∀ r ∈ nans, r.2.isNaN = true) ∧ numbers.Perm (offers.filter fun p => !p.2.isNaN)

/-- What keeps NaNs from winning: nothing is kept, or no NaN is offered that its polarity ranks
first, or no number is offered. -/
def NaNsRankLast (k : ℕ) (higher : Bool) (offers : List (I × F32)) : Prop :=
  k = 0 ∨ (∀ p ∈ offers, p.2.ranksFirst higher = false) ∨ ∀ p ∈ offers, p.2.isNaN = true

omit [LinearOrder I] in
@[simp] theorem isNaN_keyOf (p : I × F32) : (keyOf higher p).1.isNaN = p.2.isNaN := by
  cases higher
  exacts [rfl, F32.isNaN_neg p.2]

omit [LinearOrder I] in
@[simp] theorem msb_keyOf (p : I × F32) : (keyOf higher p).1.msb = (p.2.msb != higher) := by
  cases higher
  exacts [(Bool.bne_false _).symm, (F32.msb_neg p.2).trans (Bool.bne_true _).symm]

omit [LinearOrder I] in
theorem ord_keyOf_lt_of_ranksFirst {p q : I × F32} (hp : p.2.ranksFirst higher = true)
    (hq : q.2.isNaN = false) : (keyOf higher p).1.ord < (keyOf higher q).1.ord := by
  obtain ⟨hnan, hsign⟩ := (Bool.and_eq_true _ _).mp hp
  exact F32.ord_lt_of_isNaN ((isNaN_keyOf p).trans hnan) ((msb_keyOf p).trans hsign)
    ((isNaN_keyOf q).trans hq)

omit [LinearOrder I] in
theorem lt_ord_keyOf_of_isNaN {p q : I × F32} (hnan : p.2.isNaN = true)
    (hp : p.2.ranksFirst higher = false) (hq : q.2.isNaN = false) :
    (keyOf higher q).1.ord < (keyOf higher p).1.ord := by
  rw [F32.ranksFirst, hnan, Bool.true_and] at hp
  exact F32.lt_ord_of_isNaN ((isNaN_keyOf p).trans hnan) ((msb_keyOf p).trans hp)
    ((isNaN_keyOf q).trans hq)

/-- **Without a NaN that ranks first** the numbers come first. -/
theorem bestFirst_eq_append (h : ∀ p ∈ offers, p.2.ranksFirst higher = false) :
    ∃ numbers nans, bestFirst higher offers = numbers ++ nans ∧
      (∀ r ∈ nans, r.2.isNaN = true) ∧ numbers.Perm (offers.filter fun p => !p.2.isNaN) := by
  let number : I × F32 → Bool := fun p => !p.2.isNaN
  have hperm : (bestFirst higher offers).Perm offers := perm_bestFirst _ _
  set sorted := bestFirst higher offers with hsorted
  have hnans : ∀ r ∈ sorted.dropWhile number, r.2.isNaN = true := by
    intro r hr
    cases hdrop : sorted.dropWhile number with
    | nil => exact absurd (hdrop ▸ hr) List.not_mem_nil
    | cons q rest =>
      have hsort : (q :: rest).Pairwise fun a b => keyLe (keyOf higher a) (keyOf higher b) :=
        hdrop ▸ (pairwise_bestFirst higher offers).sublist (List.dropWhile_sublist _)
      have hq : q.2.isNaN = true := by
        have := List.head?_dropWhile_not number sorted
        rw [hdrop] at this
        simpa [number] using this
      rw [hdrop] at hr
      rcases List.mem_cons.mp hr with rfl | hrest
      · exact hq
      · by_contra hr'
        have hmem : q ∈ sorted := List.dropWhile_subset number (hdrop ▸ List.mem_cons_self)
        have hlt := lt_ord_keyOf_of_isNaN hq (h q (hperm.subset hmem)) (Bool.eq_false_iff.mpr hr')
        rcases List.rel_of_pairwise_cons hsort hrest with hle | ⟨heq, -⟩
        exacts [hlt.not_gt hle, hlt.ne' heq]
  refine ⟨sorted.takeWhile number, sorted.dropWhile number, List.takeWhile_append_dropWhile.symm,
    hnans, ?_⟩
  have hfilter : sorted.filter number = sorted.takeWhile number := by
    conv_lhs => rw [← List.takeWhile_append_dropWhile (p := number) (l := sorted)]
    rw [List.filter_append, List.filter_eq_self.mpr fun p hp =>
      List.all_eq_true.mp List.all_takeWhile p hp,
      List.filter_eq_nil_iff.mpr fun p hp => by simp [number, hnans p hp], List.append_nil]
  exact hfilter ▸ hperm.filter number

/-- **When NaNs lose**: exactly when nothing is kept, or no NaN is offered that its polarity ranks
first, or no number is offered. -/
theorem nansLose_take_iff :
    NaNsLose offers ((bestFirst higher offers).take k) ↔ NaNsRankLast k higher offers := by
  constructor
  · intro hlose
    by_contra hnot
    rw [NaNsRankLast] at hnot
    push Not at hnot
    obtain ⟨hk, ⟨p, hp, hfirst⟩, q, hq, hnumber⟩ := hnot
    have hperm : (bestFirst higher offers).Perm offers := perm_bestFirst _ _
    have hsort := pairwise_bestFirst higher offers
    obtain ⟨head, rest, hcons⟩ : ∃ head rest, bestFirst higher offers = head :: rest :=
      List.exists_cons_of_ne_nil (List.ne_nil_of_mem (hperm.mem_iff.mpr hp))
    have hhead : head.2.isNaN = true := by
      by_contra hne
      have hlt := ord_keyOf_lt_of_ranksFirst (Bool.of_not_eq_false hfirst)
        (Bool.eq_false_iff.mpr hne)
      rcases List.mem_cons.mp (hcons ▸ hperm.mem_iff.mpr hp) with rfl | hmem
      · exact lt_irrefl _ hlt
      · rcases List.rel_of_pairwise_cons (hcons ▸ hsort) hmem with hle | ⟨heq, -⟩
        exacts [hlt.not_gt hle, hlt.ne' heq]
    obtain ⟨k, rfl⟩ := Nat.exists_eq_succ_of_ne_zero hk
    rw [hcons, List.take_succ_cons] at hlose
    obtain ⟨numbers, nans, heq, -, hnumbers⟩ := hlose ⟨head, List.mem_cons_self, hhead⟩
    have hqn : q ∈ numbers := hnumbers.mem_iff.mpr
      (List.mem_filter.mpr ⟨hq, by simpa using hnumber⟩)
    obtain ⟨first, numbers', rfl⟩ := List.exists_cons_of_ne_nil (List.ne_nil_of_mem hqn)
    obtain ⟨rfl, -⟩ := List.cons.inj heq
    have := (List.mem_filter.mp (hnumbers.mem_iff.mp List.mem_cons_self)).2
    rw [hhead] at this
    cases this
  · rintro (rfl | h | h) ⟨r, hr, hnan⟩
    · exact absurd hr List.not_mem_nil
    · obtain ⟨numbers, nans, heq, hnans, hnumbers⟩ := bestFirst_eq_append h
      rw [heq, List.take_append] at hr ⊢
      rcases List.mem_append.mp hr with hr | hr
      · have := (List.mem_filter.mp (hnumbers.mem_iff.mp (List.mem_of_mem_take hr))).2
        rw [hnan] at this
        cases this
      · have hle : numbers.length ≤ k := by
          by_contra hlt
          rw [Nat.sub_eq_zero_of_le (Nat.le_of_not_le hlt), List.take_zero] at hr
          cases hr
        exact ⟨numbers, _, by rw [List.take_of_length_le hle],
          fun r hr => hnans r (List.mem_of_mem_take hr), hnumbers⟩
    · refine ⟨[], _, rfl, fun r hr => h r ?_, ?_⟩
      · exact mem_of_mem_take_bestFirst hr
      · rw [List.filter_eq_nil_iff.mpr fun p hp => by simp [h p hp]]

end NaNs

/-- **A NaN wins exactly when** one is offered that the polarity ranks first, beside a number: a
negative NaN where smaller scores are better, a positive one where larger are. -/
theorem topk_nansLose_iff {I : Type} [LinearOrder I] (k : ℕ) (higher : Bool)
    (offers : List (I × F32)) (K : Kernels) (s : VectorStorage) (metric : Metric) (query : List F32)
    (tombstones : Option (Finset ℕ)) (filter : Option (ℕ → Bool)) :
    (NaNsLose offers ((BoundedTopK.new I k higher).offerAll offers).intoSorted ↔
        NaNsRankLast k higher offers) ∧
      (NaNsLose (s.scored K metric query tombstones filter)
          (s.scanTopk K metric query k tombstones filter) ↔
        NaNsRankLast k metric.higherIsBetter (s.scored K metric query tombstones filter)) ∧
      (NaNsLose (s.scored K metric query tombstones filter)
          (s.bruteForceTopk K metric query k tombstones filter) ↔
        NaNsRankLast k metric.higherIsBetter (s.scored K metric query tombstones filter)) := by
  refine ⟨?_, ?_, ?_⟩
  · rw [intoSorted_offerAll]
    exact nansLose_take_iff
  · rw [VectorStorage.scanTopk_eq]
    exact nansLose_take_iff
  · rw [VectorStorage.bruteForceTopk_eq]
    exact nansLose_take_iff

/-- **A NaN wins** over the number 1, where larger scores are better. -/
theorem nan_wins : ¬ ∀ (k : ℕ) (higher : Bool) (offers : List (ℕ × F32)),
    NaNsLose offers ((BoundedTopK.new ℕ k higher).offerAll offers).intoSorted := by
  intro h
  have hresult : ((BoundedTopK.new ℕ 1 true).offerAll
    [(0, 0x7FC00000#32), (1, 0x3F800000#32)]).intoSorted =
      [(0, 0x7FC00000#32)] := by decide
  obtain ⟨numbers, nans, heq, -, hperm⟩ :=
    hresult ▸ h 1 true _ ⟨_, hresult ▸ List.mem_cons_self, by decide⟩
  have hnumbers : numbers = [(1, 0x3F800000#32)] := List.perm_singleton.mp hperm
  rw [hnumbers] at heq
  cases heq

end Vecvec
