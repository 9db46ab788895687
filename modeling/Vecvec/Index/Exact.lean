import Vecvec.Index.TopK
import Vecvec.Machinery.Best

/-!
# Index/Exact — the collector and the flat scan are exact

A collector holds the best `k` of all keys it was offered (`heap_offerAll`).  A segment's scan cuts
ties off by local id, and the merge by global id; **where the rows ascend these are one order**
(`searchLocal_eq`), so what the scan cuts off the merge would have cut off too.
-/

namespace Vecvec

open Machinery

/-! ## The order of keys -/

namespace F32

/-- `total_cmp` calls only equal bit patterns equal. -/
theorem ord_injective : Function.Injective ord := by
  have hmsb : (0x7FFFFFFF#32).msb = false := by decide
  let flip : F32 → F32 := fun x => if x.msb then x ^^^ 0x7FFFFFFF#32 else x
  have hflip : Function.LeftInverse flip flip := fun x => by
    cases hx : x.msb with
    | false => simp [flip, hx]
    | true =>
      have hfst : flip x = x ^^^ 0x7FFFFFFF#32 := if_pos hx
      have hmsb' : (x ^^^ 0x7FFFFFFF#32).msb := by rw [BitVec.msb_xor, hx, hmsb]; rfl
      rw [hfst]
      refine (if_pos hmsb').trans ?_
      rw [BitVec.xor_assoc, BitVec.xor_self, BitVec.xor_zero]
  intro x y h
  exact hflip.injective (BitVec.toInt_inj.mp h)

end F32

section Keys

variable {I : Type} [LinearOrder I]

instance : Std.Total (keyLe (I := I)) where
  total a b := by
    rcases lt_trichotomy (F32.ord a.1) (F32.ord b.1) with h | h | h
    · exact .inl (.inl h)
    · exact (le_total a.2 b.2).imp (.inr ⟨h, ·⟩) (.inr ⟨h.symm, ·⟩)
    · exact .inr (.inl h)

instance : IsTrans (F32 × I) keyLe where
  trans a b c hab hbc := by
    rcases hab with hab | ⟨hab, hab'⟩
    · exact .inl (hbc.elim hab.trans fun h => h.1 ▸ hab)
    · rcases hbc with hbc | ⟨hbc, hbc'⟩
      · exact .inl (hab ▸ hbc)
      · exact .inr ⟨hab.trans hbc, hab'.trans hbc'⟩

instance : Std.Antisymm (keyLe (I := I)) where
  antisymm a b hab hba := by
    rcases hab with hab | ⟨hab, hab'⟩
    · rcases hba with hba | ⟨hba, -⟩
      · exact absurd hba hab.not_gt
      · exact absurd hab hba.not_gt
    · rcases hba with hba | ⟨-, hba'⟩
      · exact absurd hba hab.not_gt
      · exact Prod.ext (F32.ord_injective hab) (le_antisymm hab' hba')

/-! ## What a collector keeps -/

/-- The key of a scored id. -/
def keyOf (higherIsBetter : Bool) (p : I × F32) : F32 × I := rankKey p.2 p.1 higherIsBetter

/-- Scored ids, the best first: by badness, then by id. -/
def bestFirst (higherIsBetter : Bool) (l : List (I × F32)) : List (I × F32) :=
  l.insertionSort fun a b => keyLe (keyOf higherIsBetter a) (keyOf higherIsBetter b)

omit [LinearOrder I] in
/-- A key tells the score. -/
@[simp] theorem score_keyOf (higher : Bool) (p : I × F32) :
    ((keyOf higher p).2, scoreFromBadness (keyOf higher p).1 higher) = p := by
  cases higher <;> simp [keyOf, rankKey, scoreFromBadness]

theorem map_keyOf_bestFirst (higher : Bool) (l : List (I × F32)) :
    (bestFirst higher l).map (keyOf higher) = (l.map (keyOf higher)).insertionSort keyLe :=
  List.map_insertionSort _ _ _ _ fun _ _ _ _ => Iff.rfl

theorem perm_bestFirst (higher : Bool) (l : List (I × F32)) : (bestFirst higher l).Perm l :=
  List.perm_insertionSort _ _

/-- The best first are sorted. -/
theorem pairwise_bestFirst (higher : Bool) (l : List (I × F32)) :
    (bestFirst higher l).Pairwise fun a b => keyLe (keyOf higher a) (keyOf higher b) := by
  have h := List.pairwise_insertionSort keyLe (l.map (keyOf higher))
  rwa [← map_keyOf_bestFirst, List.pairwise_map] at h

theorem mem_of_mem_take_bestFirst {higher : Bool} {k : ℕ} {l : List (I × F32)} {p : I × F32}
    (h : p ∈ (bestFirst higher l).take k) : p ∈ l :=
  (perm_bestFirst higher l).subset (List.mem_of_mem_take h)

omit [LinearOrder I] in
theorem keyOf_injective (higher : Bool) : Function.Injective (keyOf (I := I) higher) := by
  intro p q h
  rw [← score_keyOf higher p, h, score_keyOf]

/-- **The order of scored ids is one**: lists of the same ids, the best first, are equal. -/
theorem eq_of_perm_of_pairwise {higher : Bool} {l l' : List (I × F32)} (h : l.Perm l')
    (hl : l.Pairwise fun a b => keyLe (keyOf higher a) (keyOf higher b))
    (hl' : l'.Pairwise fun a b => keyLe (keyOf higher a) (keyOf higher b)) : l = l' := by
  have : Std.Antisymm fun a b : I × F32 => keyLe (keyOf higher a) (keyOf higher b) :=
    ⟨fun a b hab hba => keyOf_injective higher (Std.Antisymm.antisymm _ _ hab hba)⟩
  exact h.eq_of_pairwise' hl hl'

/-- Some of the scored ids, in the order all of them are in. -/
theorem filter_bestFirst (higher : Bool) (p : I × F32 → Bool) (l : List (I × F32)) :
    (bestFirst higher l).filter p = bestFirst higher (l.filter p) :=
  eq_of_perm_of_pairwise (((perm_bestFirst higher l).filter p).trans (perm_bestFirst higher _).symm)
    ((pairwise_bestFirst higher l).filter p) (pairwise_bestFirst higher _)

/-- The best of distinct ids are distinct. -/
theorem nodup_take_bestFirst {higher : Bool} {k : ℕ} {l : List (I × F32)}
    (h : (l.map Prod.fst).Nodup) : (((bestFirst higher l).take k).map Prod.fst).Nodup := by
  rw [List.map_take]
  exact (((perm_bestFirst higher l).map Prod.fst).nodup_iff.mpr h).sublist (List.take_sublist _ _)

/-- A collector that holds the best of some scored ids. -/
structure BoundedTopK.Holds (b : BoundedTopK I) (k : ℕ) (higher : Bool) (l : List (I × F32)) :
    Prop where
  k_eq : b.k = k
  higher_eq : b.higherIsBetter = higher
  heap : b.heap = best keyLe k (l.map (keyOf higher))

namespace BoundedTopK

variable {b : BoundedTopK I} {k : ℕ} {higher : Bool} {l l' : List (I × F32)}

/-- **An offer keeps the best of one key more.** -/
theorem heap_offer (hsort : b.heap.Pairwise keyLe) (hlen : b.heap.length ≤ b.k) (id : I)
    (score : F32) : (b.offer id score).heap =
      (b.heap.orderedInsert keyLe (rankKey score id b.higherIsBetter)).take b.k := by
  rw [offer]
  split
  · rename_i hk
    rw [hk, List.take_zero]
    exact List.length_eq_zero_iff.mp (Nat.le_zero.mp (hk ▸ hlen))
  · rename_i hk
    dsimp only
    split
    · rename_i hroom
      exact (List.take_of_length_le (by rw [List.orderedInsert_length]; exact hroom)).symm
    · rename_i hfull
      have hlen' : b.heap.length = b.k := hlen.antisymm (not_lt.mp hfull)
      cases hlast : b.heap.getLast? with
      | none =>
        rw [List.getLast?_eq_none_iff.mp hlast] at hlen'
        exact absurd hlen'.symm hk
      | some worst =>
        obtain ⟨init, hinit⟩ := List.getLast?_eq_some_iff.mp hlast
        rw [hinit, List.length_append, List.length_singleton] at hlen'
        have := take_orderedInsert_concat (hinit ▸ hsort) (rankKey score id b.higherIsBetter)
        rw [hlen', ← hinit] at this
        rw [this]
        dsimp only
        split
        · rfl
        · rw [hinit, List.dropLast_concat]

@[simp] theorem offer_k (id : I) (score : F32) : (b.offer id score).k = b.k := by
  simp only [offer]
  repeat' split
  all_goals rfl

@[simp] theorem offer_higherIsBetter (id : I) (score : F32) :
    (b.offer id score).higherIsBetter = b.higherIsBetter := by
  simp only [offer]
  repeat' split
  all_goals rfl

theorem holds_new : (new I k higher).Holds k higher [] := ⟨rfl, rfl, best_nil.symm⟩

namespace Holds

theorem perm (h : b.Holds k higher l) (hl : l.Perm l') : b.Holds k higher l' :=
  ⟨h.k_eq, h.higher_eq, h.heap.trans (best_perm (hl.map _))⟩

theorem offer (h : b.Holds k higher l) (p : I × F32) :
    (b.offer p.1 p.2).Holds k higher (p :: l) := by
  refine ⟨(offer_k _ _).trans h.k_eq, (offer_higherIsBetter _ _).trans h.higher_eq, ?_⟩
  rw [heap_offer (h.heap ▸ pairwise_best) (by rw [h.heap, h.k_eq]; exact length_best_le), h.heap,
    h.k_eq, h.higher_eq, List.map_cons, best_cons]
  rfl

theorem offerAll (h : b.Holds k higher l) (l' : List (I × F32)) :
    (b.offerAll l').Holds k higher (l ++ l') := by
  induction l' generalizing b l with
  | nil => rwa [List.append_nil]
  | cons p l' ih => exact (ih (h.offer p)).perm List.perm_middle.symm

/-- **The part of a list past its best `k` is not missed.** -/
theorem of_take (h : b.Holds k higher (l ++ (bestFirst higher l').take k)) :
    b.Holds k higher (l ++ l') := by
  refine ⟨h.k_eq, h.higher_eq, h.heap.trans ?_⟩
  rw [List.map_append, List.map_take, map_keyOf_bestFirst, List.map_append]
  exact best_append_best

/-- Offering the best `k` of a list is as good as offering all of it. -/
theorem offerAll_best (h : b.Holds k higher l) {found : List (I × F32)}
    (hfound : found = (bestFirst higher l').take k) :
    (b.offerAll found).Holds k higher (l ++ l') := by
  subst hfound
  exact (h.offerAll _).of_take

/-- A collector drains to the best, each with its score. -/
theorem intoSorted (h : b.Holds k higher l) : b.intoSorted = (bestFirst higher l).take k := by
  rw [BoundedTopK.intoSorted, h.heap, best, ← map_keyOf_bestFirst, ← List.map_take, List.map_map,
    h.higher_eq]
  exact (List.map_congr_left fun p _ => score_keyOf higher p).trans (List.map_id _)

end Holds

end BoundedTopK

end Keys

/-! ## A segment, and many -/

section Scan

variable {score : List F32 → F32} {higher : Bool} {rows : List Row} {k : ℕ} {keep : GlobalId → Bool}

/-- The rows a filter admits, scored. -/
def scored (score : List F32 → F32) (rows : List Row) (keep : GlobalId → Bool) :
    List (GlobalId × F32) := (rows.filter fun r => keep r.1).map fun r => (r.1, score r.2)

theorem scored_append (rows rows' : List Row) :
    scored score (rows ++ rows') keep = scored score rows keep ++ scored score rows' keep := by
  rw [scored, List.filter_append, List.map_append]
  rfl

theorem map_fst_zipIdx_filter : (rows.zipIdx.filter fun z => keep z.1.1).map Prod.fst =
    rows.filter fun r => keep r.1 := by
  have h := List.filter_map (f := Prod.fst) (p := fun r : Row => keep r.1) (l := rows.zipIdx)
  rw [List.zipIdx_map_fst] at h
  exact h.symm

/-- In ascending rows, positions compare as ids do. -/
theorem le_iff_id_le (hasc : rows.Pairwise fun a b => a.1 < b.1) {i j : ℕ} {a b : Row}
    (ha : rows[i]? = some a) (hb : rows[j]? = some b) : i ≤ j ↔ a.1 ≤ b.1 := by
  have hlt {i j : ℕ} {a b : Row} (ha : rows[i]? = some a) (hb : rows[j]? = some b) (hij : i < j) :
      a.1 < b.1 := by
    obtain ⟨hi, rfl⟩ := List.getElem?_eq_some_iff.mp ha
    obtain ⟨hj, rfl⟩ := List.getElem?_eq_some_iff.mp hb
    exact List.pairwise_iff_getElem.mp hasc i j hi hj hij
  refine ⟨fun hij => ?_, fun hab => le_of_not_gt fun hji => (hlt hb ha hji).not_ge hab⟩
  rcases hij.eq_or_lt with rfl | hij
  · rw [Option.some.inj (ha.symm.trans hb)]
  · exact (hlt ha hb hij).le

/-- **The flat search of ascending rows is exact**: local ids break ties as global ids do. -/
theorem searchLocal_eq (hasc : rows.Pairwise fun a b => a.1 < b.1) :
    searchLocal score higher rows k keep = (bestFirst higher (scored score rows keep)).take k := by
  set admitted := rows.zipIdx.filter fun z => keep z.1.1
  let byLocal : Row × ℕ → ℕ × F32 := fun z => (z.2, score z.1.2)
  let byGlobal : Row × ℕ → GlobalId × F32 := fun z => (z.1.1, score z.1.2)
  have hrow {z : Row × ℕ} (hz : z ∈ admitted) : rows[z.2]? = some z.1 :=
    List.mem_zipIdx_iff_getElem?.mp (List.mem_filter.mp hz).1
  have horder : ∀ z ∈ admitted, ∀ z' ∈ admitted,
      keyLe (keyOf higher (byLocal z)) (keyOf higher (byLocal z')) ↔
        keyLe (keyOf higher (byGlobal z)) (keyOf higher (byGlobal z')) := fun z hz z' hz' =>
    or_congr_right (and_congr_right fun _ => le_iff_id_le hasc (hrow hz) (hrow hz'))
  let sorted := admitted.insertionSort fun z z' =>
    keyLe (keyOf higher (byLocal z)) (keyOf higher (byLocal z'))
  have hscan : scanTopk score higher rows k keep = (sorted.take k).map byLocal := by
    refine (BoundedTopK.holds_new.offerAll _).intoSorted.trans ?_
    rw [List.nil_append, List.map_take]
    exact congrArg (List.take k)
      (List.map_insertionSort _ _ byLocal admitted fun _ _ _ _ => Iff.rfl).symm
  have hscored : scored score rows keep = admitted.map byGlobal := by
    rw [scored, ← map_fst_zipIdx_filter, List.map_map]
    rfl
  have hsorted : bestFirst higher (scored score rows keep) = sorted.map byGlobal :=
    hscored ▸ (List.map_insertionSort _ _ byGlobal admitted horder).symm
  rw [searchLocal, hscan, hsorted, List.filterMap_map, ← List.map_take]
  rw [← List.filterMap_eq_map]
  refine List.filterMap_congr fun z hz => ?_
  have hz := hrow ((List.mem_insertionSort _).mp (List.mem_of_mem_take hz))
  simp [byLocal, byGlobal, hz]

/-- Exact searches of segments, merged. -/
theorem BoundedTopK.Holds.foldl_offerAll {segs : SegmentSet} {b : BoundedTopK GlobalId}
    {l : List (GlobalId × F32)} {find : SealedSegment → List (GlobalId × F32)}
    (h : b.Holds k higher l)
    (hexact : ∀ s ∈ segs, find s = (bestFirst higher (scored score s.rows keep)).take k) :
    (segs.foldl (fun (b : BoundedTopK GlobalId) s => b.offerAll (find s)) b).Holds k higher
      (l ++ scored score segs.rows keep) := by
  induction segs generalizing b l with
  | nil => simpa [scored] using h
  | cons s segs ih =>
    obtain ⟨hs, hexact⟩ := List.forall_mem_cons.mp hexact
    have := ih (h.offerAll_best hs) hexact
    rwa [List.append_assoc, ← scored_append, ← SegmentSet.rows_cons] at this

/-- Ids that are distinct are all kept. -/
theorem keepFirst_eq {seen : List GlobalId} {l : List (GlobalId × F32)}
    (hl : (l.map Prod.fst).Nodup) (hseen : ∀ p ∈ l, p.1 ∉ seen) : keepFirst seen l = l := by
  induction l generalizing seen with
  | nil => rfl
  | cons p l ih =>
    obtain ⟨hp, hseen⟩ := List.forall_mem_cons.mp hseen
    obtain ⟨hpl, hl⟩ := List.nodup_cons.mp hl
    rw [keepFirst, if_neg hp, ih hl fun q hq => ?_]
    rintro hmem
    rcases List.mem_cons.mp hmem with hqp | hmem
    · exact hpl (hqp ▸ List.mem_map_of_mem hq)
    · exact hseen q hq hmem

/-- A merge of distinct ids drops none of them. -/
theorem BoundedTopK.Holds.mergeFinalize {b : BoundedTopK GlobalId} {l : List (GlobalId × F32)}
    (h : b.Holds k higher l) (hl : (l.map Prod.fst).Nodup) :
    mergeFinalize b = (bestFirst higher l).take k := by
  rw [Vecvec.mergeFinalize, h.intoSorted]
  exact keepFirst_eq (nodup_take_bestFirst hl) fun _ _ => List.not_mem_nil

end Scan

end Vecvec
