import Vecvec.Hnsw.Parallel
import Vecvec.Index.Exact
import Vecvec.Machinery.Greedy

/-!
# Hnsw/Diverse — what the selection of neighbours achieves

Nearest first, a candidate is kept unless a kept one is nearer to it than the base is: a greedy
choice.  **The selection loop is that choice cut off at its quota** (`pick_fst`), and the candidates
passed over fill the quota up where there are enough of them (`length_pick`).  Both selections of
the repository are the one selection (`algorithm4_selectNeighbors`).
-/

namespace Vecvec.Hnsw

open Machinery

variable (dist : ℕ → ℕ → F32) (base : ℕ) (candidates : List (F32 × ℕ))

/-- The candidates other than the base. -/
def others : List (F32 × ℕ) := candidates.filter fun c => c.2 ≠ base

/-- …nearest first. -/
def nearestFirst : List (F32 × ℕ) := (others base candidates).insertionSort keyLe

/-- A candidate is strictly nearer to another point than to the base. -/
def nearerTo (c r : F32 × ℕ) : Bool := (dist c.2 r.2).lt c.1

/-- The diverse set: a candidate is kept unless it is nearer to one kept before. -/
def diverse : List (F32 × ℕ) := greedy (nearerTo dist) (nearestFirst base candidates)

/-- What a selection of at most `m` neighbours is for. -/
structure Algorithm4 (m : ℕ) (keepPruned : Bool) (selected : List ℕ) : Prop where
  nodup : selected.Nodup
  /-- The base is not its own neighbour. -/
  mem : ∀ e ∈ selected, e ≠ base ∧ e ∈ candidates.map Prod.snd
  length_le : selected.length ≤ m
  /-- The nearest candidate comes first. -/
  nearest : 1 ≤ m → others base candidates ≠ [] → ∃ c ∈ others base candidates,
    (∀ c' ∈ others base candidates, keyLe c c') ∧ selected.head? = some c.2
  /-- The quota is filled up. -/
  filled : keepPruned = true → selected.length = min m (others base candidates).length
  /-- The quota cuts the diverse set off. -/
  diverse : keepPruned = false → selected = ((diverse dist base candidates).take m).map Prod.snd
  /-- Which candidates the diverse set has. -/
  kept : ∀ before c after, nearestFirst base candidates = before ++ c :: after →
    (c ∈ Hnsw.diverse dist base candidates ↔
      ∀ r ∈ Hnsw.diverse dist base candidates, r ∈ before → nearerTo dist c r = false)

variable {dist base candidates} {m : ℕ} {keepPruned : Bool}

/-! ## The loop -/

theorem any_map_snd {c : F32 × ℕ} {kept : List (F32 × ℕ)} :
    ((kept.map Prod.snd).any fun r => (dist c.2 r).lt c.1) = kept.any (nearerTo dist c) := by
  rw [List.any_map]
  rfl

/-- **The loop chooses greedily**, up to its quota. -/
theorem pick_fst {cands kept : List (F32 × ℕ)} {discarded : List ℕ} (h : kept.length ≤ m) :
    (pick dist m keepPruned cands (kept.map Prod.snd) discarded).1 =
      ((cands.foldl (keep (nearerTo dist)) kept).take m).map Prod.snd := by
  induction cands generalizing kept discarded with
  | nil => rw [List.foldl_nil, List.take_of_length_le h, pick]
  | cons c rest ih =>
    rw [pick, List.length_map, any_map_snd, List.foldl_cons]
    split
    · have hkeep : (rest.foldl (keep (nearerTo dist)) (keep (nearerTo dist) kept c)).take m =
        kept := take_foldl_keep (l := c :: rest) (by omega)
      rw [hkeep]
    · rw [keep]
      split
      · exact ih h
      · rw [← ih (by rw [List.length_append, List.length_singleton]; omega), List.map_append]
        rfl

/-- **Nobody is lost** before the quota is used up. -/
theorem length_pick {cands : List (F32 × ℕ)} {result discarded : List ℕ} :
    m ≤ (pick dist m true cands result discarded).1.length ∨
      (pick dist m true cands result discarded).1.length +
        (pick dist m true cands result discarded).2.length =
      result.length + discarded.length + cands.length := by
  induction cands generalizing result discarded with
  | nil => exact .inr rfl
  | cons c rest ih =>
    rw [pick]
    split
    · exact .inl ‹_›
    · split
      · refine ih.imp_right fun h => h.trans ?_
        rw [if_pos rfl, List.length_append, List.length_singleton, List.length_cons]
        omega
      · refine ih.imp_right fun h => h.trans ?_
        rw [List.length_append, List.length_singleton, List.length_cons]
        omega

/-! ## The selection -/

theorem length_nearestFirst :
    (nearestFirst base candidates).length = (others base candidates).length :=
  List.length_insertionSort ..

theorem nodup_nearestFirst (h : (candidates.map Prod.snd).Nodup) :
    (nearestFirst base candidates).Nodup :=
  (List.perm_insertionSort _ _).nodup_iff.mpr ((List.Nodup.of_map _ h).filter _)

theorem selectNeighbors_true : selectNeighbors dist base candidates m true =
    (pick dist m true (nearestFirst base candidates) [] []).1 ++
      (pick dist m true (nearestFirst base candidates) [] []).2.take
        (m - (pick dist m true (nearestFirst base candidates) [] []).1.length) := rfl

/-- **The quota is filled** from the candidates passed over. -/
theorem length_selectNeighbors : (selectNeighbors dist base candidates m true).length =
    min m (others base candidates).length := by
  have hle := @length_pick_le dist m true (nearestFirst base candidates) [] [] (Nat.zero_le m)
  have hsub := (@pick_subperm dist m true (nearestFirst base candidates) [] []).length_le
  have hpick := @length_pick dist m (nearestFirst base candidates) [] []
  rw [List.length_append, List.append_nil, List.nil_append, List.length_map,
    length_nearestFirst] at hsub
  rw [length_nearestFirst, List.length_nil] at hpick
  rw [selectNeighbors_true, List.length_append, List.length_take]
  omega

theorem pick_nearestFirst : (pick dist m keepPruned (nearestFirst base candidates) [] []).1 =
    ((diverse dist base candidates).take m).map Prod.snd :=
  @pick_fst dist m keepPruned (nearestFirst base candidates) [] [] (Nat.zero_le m)

/-- **Without them** the selection is the diverse set, cut off. -/
theorem selectNeighbors_false : selectNeighbors dist base candidates m false =
    ((diverse dist base candidates).take m).map Prod.snd :=
  pick_nearestFirst

/-- With or without them it begins alike. -/
theorem prefix_selectNeighbors :
    ((diverse dist base candidates).take m).map Prod.snd <+:
      selectNeighbors dist base candidates m keepPruned := by
  cases keepPruned with
  | false => exact selectNeighbors_false ▸ List.prefix_rfl
  | true =>
    rw [← @pick_nearestFirst dist base candidates m true, selectNeighbors_true]
    exact List.prefix_append _ _

/-- The nearest candidate is the first to be kept. -/
theorem head_diverse (h : others base candidates ≠ []) : ∃ c ∈ others base candidates,
    (∀ c' ∈ others base candidates, keyLe c c') ∧
      (diverse dist base candidates).head? = some c := by
  have hsorted : (nearestFirst base candidates).Pairwise keyLe := List.pairwise_insertionSort _ _
  have hmem {c : F32 × ℕ} : c ∈ nearestFirst base candidates ↔ c ∈ others base candidates :=
    List.mem_insertionSort keyLe
  rw [diverse]
  match hnear : nearestFirst base candidates with
  | [] => exact absurd (List.length_eq_zero_iff.mp (length_nearestFirst.symm.trans
      (congrArg List.length hnear))) h
  | c :: rest =>
    rw [hnear] at hsorted
    refine ⟨c, hmem.mp (hnear ▸ List.mem_cons_self), fun c' hc' => ?_, ?_⟩
    · rcases List.mem_cons.mp (hnear ▸ hmem.mpr hc') with rfl | hc'
      exacts [(Std.Total.total c' c').elim id id, (List.pairwise_cons.mp hsorted).1 c' hc']
    · obtain ⟨more, hmore⟩ : greedy (nearerTo dist) [c] <+: greedy (nearerTo dist) ([c] ++ rest) :=
        greedy_prefix_append
      rw [← List.singleton_append, ← hmore]
      rfl

/-- **Both selections do what they are for**: the one of the sequential builder, for any distances
to the base and between the candidates, and the one of the concurrent builder. -/
theorem algorithm4_selectNeighbors (dist : ℕ → ℕ → F32) (base : ℕ) (candidates : List (F32 × ℕ))
    (hids : (candidates.map Prod.snd).Nodup) (m : ℕ) :
    (∀ keepPruned, Algorithm4 dist base candidates m keepPruned
      (selectNeighbors dist base candidates m keepPruned)) ∧
    ∀ (config : HnswConfig) (pts : Points), Algorithm4 pts.dist base candidates m config.keepPruned
      (ConcurrentBuilder.selectIds config pts base candidates m) := by
  have hall (dist) (keepPruned) : Algorithm4 dist base candidates m keepPruned
      (selectNeighbors dist base candidates m keepPruned) := by
    refine ⟨nodup_selectNeighbors hids, fun e he => mem_selectNeighbors he,
      length_selectNeighbors_le, fun hm h => ?_, ?_, ?_, fun before c after heq => ?_⟩
    · obtain ⟨c, hc, hleast, hhead⟩ := @head_diverse dist base candidates h
      refine ⟨c, hc, hleast, ?_⟩
      obtain ⟨more, hmore⟩ := @prefix_selectNeighbors dist base candidates m keepPruned
      have hne : m ≠ 0 := Nat.one_le_iff_ne_zero.mp hm
      rw [← hmore, List.head?_append, List.head?_map, List.head?_take, if_neg hne, hhead]
      rfl
    · rintro rfl
      exact length_selectNeighbors
    · rintro rfl
      exact selectNeighbors_false
    · have hnodup : (nearestFirst base candidates).Nodup := nodup_nearestFirst hids
      rw [heq] at hnodup
      rw [diverse, heq]
      exact mem_greedy_iff hnodup
  exact ⟨hall dist, fun config pts => hall pts.dist config.keepPruned⟩

/-- Points at the distances 1, 2 and 3 of the base, the first two of them in one place: of two
places, the last point gets the second. -/
theorem algorithm4_cluster :
    let dist : ℕ → ℕ → F32 := fun e r => if e + r = 3 then 0 else 0x40400000#32
    let candidates : List (F32 × ℕ) := [(0x40400000#32, 3), (0x40000000#32, 2), (0x3F800000#32, 1)]
    (candidates.map Prod.snd).Nodup ∧ Algorithm4 dist 0 candidates 2 false [1, 3] := by
  intro dist candidates
  have hids : (candidates.map Prod.snd).Nodup := by decide
  have hselected : selectNeighbors dist 0 candidates 2 false = [1, 3] := by decide +kernel
  exact ⟨hids, hselected ▸ (algorithm4_selectNeighbors dist 0 candidates hids 2).1 false⟩

end Vecvec.Hnsw
