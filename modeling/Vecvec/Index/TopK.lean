import Vecvec.Segment.Basic

/-!
# Index/TopK — the bounded top-k collector and the flat scan

Results are ranked by `(badness, id)`, smallest first, where the badness of a score is its negation
for the metrics whose larger scores are better.
-/

namespace Vecvec

namespace F32

/-- `f32::total_cmp`, as an embedding of the bit patterns into the integers. -/
def ord (x : F32) : ℤ := (if x.msb then x ^^^ 0x7FFFFFFF#32 else x).toInt

/-- Negation flips the sign bit. -/
def neg (x : F32) : F32 := x ^^^ 0x80000000#32

@[simp] theorem neg_neg (x : F32) : neg (neg x) = x := by
  rw [neg, neg, BitVec.xor_assoc, BitVec.xor_self, BitVec.xor_zero]

end F32

section

variable {I : Type} [LinearOrder I]

/-- The ranking key of a scored id. -/
def rankKey (score : F32) (id : I) (higherIsBetter : Bool) : F32 × I :=
  (if higherIsBetter then F32.neg score else score, id)

/-- The score a badness came from. -/
def scoreFromBadness (badness : F32) (higherIsBetter : Bool) : F32 :=
  if higherIsBetter then F32.neg badness else badness

/-- Keys by badness under the total order, then by id. -/
def keyLe (a b : F32 × I) : Prop :=
  F32.ord a.1 < F32.ord b.1 ∨ F32.ord a.1 = F32.ord b.1 ∧ a.2 ≤ b.2

instance : DecidableRel (keyLe (I := I)) := fun a b => by unfold keyLe; infer_instance

/-- A bounded top-k collector.  The heap is kept as an ascending list: its last key is the root of
the max-heap, the worst result kept. -/
structure BoundedTopK (I : Type) where
  /-- How many results to keep. -/
  k : ℕ
  /-- The metric's polarity. -/
  higherIsBetter : Bool
  /-- The keys kept, ascending. -/
  heap : List (F32 × I)

namespace BoundedTopK

/-- An empty collector. -/
def new (I : Type) (k : ℕ) (higherIsBetter : Bool) : BoundedTopK I := ⟨k, higherIsBetter, []⟩

/-- Offers a scored id: kept while there is room, or in place of a strictly worse one. -/
def offer (b : BoundedTopK I) (id : I) (score : F32) : BoundedTopK I :=
  if b.k = 0 then b
  else
    let key := rankKey score id b.higherIsBetter
    if b.heap.length < b.k then { b with heap := b.heap.orderedInsert keyLe key }
    else
      match b.heap.getLast? with
      | some worst =>
        if keyLe worst key then b else { b with heap := b.heap.dropLast.orderedInsert keyLe key }
      | none => b

/-- Drains into a best-first list. -/
def intoSorted (b : BoundedTopK I) : List (I × F32) :=
  b.heap.map fun key => (key.2, scoreFromBadness key.1 b.higherIsBetter)

/-- Offers every scored id of a list, in order. -/
def offerAll (b : BoundedTopK I) (l : List (I × F32)) : BoundedTopK I :=
  l.foldl (fun b p => b.offer p.1 p.2) b

end BoundedTopK

end

/-- The exact top-k of the rows a filter admits, by local id (`scan_topk`). -/
def scanTopk (score : List F32 → F32) (higherIsBetter : Bool) (rows : List Row) (k : ℕ)
    (keep : GlobalId → Bool) : List (ℕ × F32) :=
  ((BoundedTopK.new ℕ k higherIsBetter).offerAll
    ((rows.zipIdx.filter fun r => keep r.1.1).map fun r => (r.2, score r.1.2))).intoSorted

/-- The flat search of a segment, mapped to global ids (`search_local`). -/
def searchLocal (score : List F32 → F32) (higherIsBetter : Bool) (rows : List Row) (k : ℕ)
    (keep : GlobalId → Bool) : List (GlobalId × F32) :=
  (scanTopk score higherIsBetter rows k keep).filterMap fun r =>
    (rows[r.1]?).map fun row => (row.1, r.2)

/-- Keeps the first of the results carried under one id. -/
def keepFirst : List GlobalId → List (GlobalId × F32) → List (GlobalId × F32)
  | _, [] => []
  | seen, r :: rs => if r.1 ∈ seen then keepFirst seen rs else r :: keepFirst (r.1 :: seen) rs

/-- `merge_finalize`: the merged results, each id once. -/
def mergeFinalize (merger : BoundedTopK GlobalId) : List (GlobalId × F32) :=
  keepFirst [] merger.intoSorted

/-! ## What is found -/

section Found

variable {I : Type} [LinearOrder I] {b : BoundedTopK I}

namespace BoundedTopK

/-- A key kept was kept before, or is the one offered. -/
theorem mem_heap_offer {id : I} {score : F32} {key : F32 × I}
    (h : key ∈ (b.offer id score).heap) : key ∈ b.heap ∨ key.2 = id := by
  have hins {l : List (F32 × I)} {b' : Bool} (hl : ∀ k ∈ l, k ∈ b.heap)
      (hk : key ∈ l.orderedInsert keyLe (rankKey score id b')) : key ∈ b.heap ∨ key.2 = id :=
    (List.mem_orderedInsert keyLe).mp hk |>.elim (fun hk => .inr (hk ▸ rfl)) fun hk =>
      .inl (hl key hk)
  rw [offer] at h
  split at h
  · exact .inl h
  · dsimp only at h
    split at h
    · exact hins (fun _ hk => hk) h
    · split at h
      · split at h
        · exact .inl h
        · exact hins (fun _ hk => List.dropLast_subset _ hk) h
      · exact .inl h

theorem mem_heap_offerAll {l : List (I × F32)} {key : F32 × I}
    (h : key ∈ (b.offerAll l).heap) : key ∈ b.heap ∨ ∃ p ∈ l, p.1 = key.2 := by
  induction l generalizing b with
  | nil => exact .inl h
  | cons p l ih =>
    rcases ih h with h | ⟨q, hq, hk⟩
    · exact (mem_heap_offer h).imp_right fun hk => ⟨p, List.mem_cons_self, hk.symm⟩
    · exact .inr ⟨q, List.mem_cons_of_mem _ hq, hk⟩

omit [LinearOrder I] in
/-- What a collector drains to, it kept. -/
theorem exists_of_mem_intoSorted {r : I × F32} (h : r ∈ b.intoSorted) :
    ∃ key ∈ b.heap, key.2 = r.1 := by
  obtain ⟨key, hkey, rfl⟩ := List.mem_map.mp h
  exact ⟨key, hkey, rfl⟩

end BoundedTopK

end Found

/-- **A flat search finds** ids of rows that the filter admits. -/
theorem of_mem_searchLocal {score : List F32 → F32} {higher : Bool} {rows : List Row} {k : ℕ}
    {keep : GlobalId → Bool} {r : GlobalId × F32} (h : r ∈ searchLocal score higher rows k keep) :
    keep r.1 ∧ r.1 ∈ rows.map Prod.fst := by
  obtain ⟨x, hx, hr⟩ := List.mem_filterMap.mp h
  obtain ⟨row, hrow, rfl⟩ := Option.map_eq_some_iff.mp hr
  refine ⟨?_, List.mem_map_of_mem (List.mem_of_getElem? hrow)⟩
  obtain ⟨key, hkey, hid⟩ := BoundedTopK.exists_of_mem_intoSorted hx
  rcases BoundedTopK.mem_heap_offerAll hkey with hkey | ⟨p, hp, hpk⟩
  · exact absurd hkey List.not_mem_nil
  · obtain ⟨y, hy, rfl⟩ := List.mem_map.mp hp
    obtain ⟨hy, hkeep⟩ := List.mem_filter.mp hy
    have hget : rows[y.2]? = some y.1 := List.mem_zipIdx_iff_getElem?.mp hy
    rw [show y.2 = x.1 from hpk.trans hid, hrow] at hget
    cases hget
    exact hkeep

theorem mem_of_mem_keepFirst {r : GlobalId × F32} {seen : List GlobalId}
    {l : List (GlobalId × F32)} (h : r ∈ keepFirst seen l) : r ∈ l := by
  induction l generalizing seen with
  | nil => exact h
  | cons x l ih =>
    rw [keepFirst] at h
    split at h
    · exact List.mem_cons_of_mem _ (ih h)
    · rcases List.mem_cons.mp h with rfl | h
      · exact List.mem_cons_self
      · exact List.mem_cons_of_mem _ (ih h)

end Vecvec
