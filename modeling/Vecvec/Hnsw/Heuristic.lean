import Vecvec.Index.TopK

/-!
# Hnsw/Heuristic — choosing the neighbours of a point

Out of the candidates for a point's links a **diverse** set is chosen: nearest first, one is passed
over when it is nearer to a chosen neighbour than to the point itself, and those passed over may
fill the places left.  The distances are `f32`s, any at all: they are sorted by their total order
and compared by IEEE's.
-/

namespace Vecvec

namespace F32

/-- The exponent is all ones and the fraction is not zero. -/
def isNaN (x : F32) : Bool := 0x7F800000#32 < x &&& 0x7FFFFFFF#32

/-- The order of the floats that are numbers, as a map to the integers; the two zeros are one. -/
def value (x : F32) : ℤ :=
  let magnitude : ℤ := (x &&& 0x7FFFFFFF#32).toNat
  if x.msb then -magnitude else magnitude

/-- `x < y` -/
def lt (x y : F32) : Bool := !x.isNaN && !y.isNaN && x.value < y.value

end F32

namespace Hnsw

/-- Construction and search parameters. -/
structure HnswConfig where
  /-- Out-degree on the upper layers. -/
  m : ℕ
  /-- Out-degree on layer 0. -/
  mMax0 : ℕ
  /-- Beam width while building. -/
  efConstruction : ℕ
  /-- Default beam width of a search. -/
  efSearch : ℕ
  /-- Seed of the level assignment. -/
  seed : UInt64
  /-- Whether candidates passed over fill the places left. -/
  keepPruned : Bool
  /-- Whether an int8 copy is kept, and searched first. -/
  quantization : Bool
  deriving DecidableEq

/-- The degree bound of a layer. -/
def HnswConfig.maxConn (config : HnswConfig) (layer : ℕ) : ℕ :=
  if layer = 0 then config.mMax0 else config.m

theorem HnswConfig.one_le_maxConn (config : HnswConfig) (hm : 1 ≤ config.m)
    (hm0 : 1 ≤ config.mMax0) (layer : ℕ) : 1 ≤ config.maxConn layer := by
  rw [maxConn]
  split <;> assumption

section

variable (dist : ℕ → ℕ → F32)

/-- `candidates_to`: the ids with their distances to a base point. -/
def candidatesTo (base : ℕ) (ids : List ℕ) : List (F32 × ℕ) := ids.map fun id => (dist base id, id)

/-- The selection loop: the ids chosen and those passed over, nearest first. -/
def pick (m : ℕ) (keepPruned : Bool) :
    List (F32 × ℕ) → List ℕ → List ℕ → List ℕ × List ℕ
  | [], result, discarded => (result, discarded)
  | (distToBase, e) :: rest, result, discarded =>
    if m ≤ result.length then (result, discarded)
    else if result.any fun r => (dist e r).lt distToBase then
      pick m keepPruned rest result (if keepPruned then discarded ++ [e] else discarded)
    else pick m keepPruned rest (result ++ [e]) discarded

/-- `select_neighbors`: at most `m` of the candidates, other than the base itself. -/
def selectNeighbors (base : ℕ) (candidates : List (F32 × ℕ)) (m : ℕ) (keepPruned : Bool) :
    List ℕ :=
  let sorted := (candidates.filter fun c => c.2 ≠ base).insertionSort keyLe
  let (result, discarded) := pick dist m keepPruned sorted [] []
  if keepPruned then result ++ discarded.take (m - result.length) else result

end

/-! ## What is chosen -/

variable {dist : ℕ → ℕ → F32} {m base : ℕ} {keepPruned : Bool} {candidates : List (F32 × ℕ)}

@[simp] theorem map_snd_candidatesTo (base : ℕ) (ids : List ℕ) :
    (candidatesTo dist base ids).map Prod.snd = ids := by
  rw [candidatesTo, List.map_map]
  exact List.map_id' _

/-- **What the loop keeps** — chosen or passed over — are its candidates, each once. -/
theorem pick_subperm (cands : List (F32 × ℕ)) (result discarded : List ℕ) :
    ((pick dist m keepPruned cands result discarded).1 ++
      (pick dist m keepPruned cands result discarded).2).Subperm
      (result ++ discarded ++ cands.map Prod.snd) := by
  induction cands generalizing result discarded with
  | nil => exact (List.sublist_append_left _ _).subperm
  | cons c rest ih =>
    rw [pick, List.map_cons]
    split
    · exact (List.sublist_append_left _ _).subperm
    · split
      · refine (ih _ _).trans ?_
        cases keepPruned with
        | true => exact (List.Perm.of_eq (by simp)).subperm
        | false => exact ((List.sublist_cons_self _ _).append_left _).subperm
      · refine (ih _ _).trans (List.Perm.subperm ?_)
        simp only [List.append_assoc, List.singleton_append]
        exact List.Perm.append_left _ List.perm_middle.symm

/-- The loop never takes more than there is room for. -/
theorem length_pick_le {cands : List (F32 × ℕ)} {result discarded : List ℕ}
    (h : result.length ≤ m) : (pick dist m keepPruned cands result discarded).1.length ≤ m := by
  induction cands generalizing result discarded with
  | nil => exact h
  | cons c rest ih =>
    rw [pick]
    split
    · exact h
    · split
      · exact ih h
      · exact ih (by rw [List.length_append, List.length_singleton]; omega)

/-- What is chosen stays chosen. -/
theorem prefix_pick (cands : List (F32 × ℕ)) (result discarded : List ℕ) :
    result <+: (pick dist m keepPruned cands result discarded).1 := by
  induction cands generalizing result discarded with
  | nil => exact List.prefix_rfl
  | cons c rest ih =>
    rw [pick]
    split
    · exact List.prefix_rfl
    · split
      · exact ih _ _
      · exact (List.prefix_append _ _).trans (ih _ _)

/-- **The chosen**: candidates other than the base, each once. -/
theorem selectNeighbors_subperm :
    (selectNeighbors dist base candidates m keepPruned).Subperm
      ((candidates.filter fun c => c.2 ≠ base).map Prod.snd) := by
  have hpick := @pick_subperm dist m keepPruned
    ((candidates.filter fun c => c.2 ≠ base).insertionSort keyLe) [] []
  rw [List.nil_append, List.nil_append] at hpick
  have hsort := ((List.perm_insertionSort keyLe
    (candidates.filter fun c => c.2 ≠ base)).map Prod.snd).subperm
  rw [selectNeighbors]
  dsimp only
  split
  · exact ((List.take_sublist _ _).append_left _).subperm.trans (hpick.trans hsort)
  · exact (List.sublist_append_left _ _).subperm.trans (hpick.trans hsort)

theorem mem_selectNeighbors {e : ℕ} (h : e ∈ selectNeighbors dist base candidates m keepPruned) :
    e ≠ base ∧ e ∈ candidates.map Prod.snd := by
  obtain ⟨c, hc, rfl⟩ := List.mem_map.mp (selectNeighbors_subperm.subset h)
  obtain ⟨hmem, hne⟩ := List.mem_filter.mp hc
  exact ⟨of_decide_eq_true hne, List.mem_map_of_mem hmem⟩

theorem nodup_selectNeighbors (h : (candidates.map Prod.snd).Nodup) :
    (selectNeighbors dist base candidates m keepPruned).Nodup := by
  have hfilter : ((candidates.filter fun c => c.2 ≠ base).map Prod.snd).Nodup :=
    h.sublist (List.filter_sublist.map _)
  obtain ⟨l, hperm, hsub⟩ := @selectNeighbors_subperm dist m base keepPruned candidates
  exact hperm.nodup_iff.mp (hfilter.sublist hsub)

/-- **The degree bound.** -/
theorem length_selectNeighbors_le :
    (selectNeighbors dist base candidates m keepPruned).length ≤ m := by
  have hpick := @length_pick_le dist m keepPruned
    ((candidates.filter fun c => c.2 ≠ base).insertionSort keyLe) [] [] (Nat.zero_le m)
  rw [selectNeighbors]
  dsimp only
  split
  · rw [List.length_append, List.length_take]
    omega
  · exact hpick

/-- **Somebody is chosen** out of candidates that are not all the base: the nearest of them. -/
theorem selectNeighbors_ne_nil (hm : 1 ≤ m) (h : ∃ c ∈ candidates, c.2 ≠ base) :
    selectNeighbors dist base candidates m keepPruned ≠ [] := by
  obtain ⟨c, hc, hne⟩ := h
  have hmem : c ∈ (candidates.filter fun c => c.2 ≠ base).insertionSort keyLe :=
    (List.mem_insertionSort keyLe).mpr (List.mem_filter.mpr ⟨hc, decide_eq_true hne⟩)
  rw [selectNeighbors]
  dsimp only
  generalize (candidates.filter fun c => c.2 ≠ base).insertionSort keyLe = sorted at hmem
  cases sorted with
  | nil => exact absurd hmem List.not_mem_nil
  | cons x rest =>
    have hfirst : [x.2] <+: (pick dist m keepPruned (x :: rest) [] []).1 := by
      rw [pick, if_neg (show ¬ m ≤ ([] : List ℕ).length from Nat.not_le.mpr hm),
        if_neg (by simp)]
      exact prefix_pick _ _ _
    have hne : (pick dist m keepPruned (x :: rest) [] []).1 ≠ [] := fun h0 => by
      rw [h0] at hfirst
      exact absurd (List.prefix_nil.mp hfirst) (List.cons_ne_nil _ _)
    split
    · exact fun h0 => hne (List.append_eq_nil_iff.mp h0).1
    · exact hne

/-! ## Where there is room for all -/

/-- With room for everybody the loop passes nobody up for good. -/
theorem pick_perm {cands : List (F32 × ℕ)} {result discarded : List ℕ}
    (hroom : result.length + cands.length ≤ m) :
    ((pick dist m true cands result discarded).1 ++
      (pick dist m true cands result discarded).2).Perm
      (result ++ discarded ++ cands.map Prod.snd) := by
  induction cands generalizing result discarded with
  | nil => exact List.Perm.of_eq (List.append_nil _).symm
  | cons c rest ih =>
    rw [List.length_cons] at hroom
    rw [pick, if_neg (by omega), List.map_cons]
    split
    · exact (ih (by omega)).trans (List.Perm.of_eq (by simp))
    · refine (ih (by rw [List.length_append, List.length_singleton]; omega)).trans ?_
      simp only [List.append_assoc, List.singleton_append]
      exact List.Perm.append_left _ List.perm_middle.symm

/-- **With room for everybody** all candidates but the base are chosen. -/
theorem mem_selectNeighbors_of_room (hroom : candidates.length ≤ m) {c : F32 × ℕ}
    (hc : c ∈ candidates) (hne : c.2 ≠ base) :
    c.2 ∈ selectNeighbors dist base candidates m true := by
  have hsorted : c ∈ (candidates.filter fun c => c.2 ≠ base).insertionSort keyLe :=
    (List.mem_insertionSort keyLe).mpr (List.mem_filter.mpr ⟨hc, decide_eq_true hne⟩)
  have hlength : ((candidates.filter fun c => c.2 ≠ base).insertionSort keyLe).length ≤ m := by
    rw [List.length_insertionSort]
    exact (List.length_filter_le _ _).trans hroom
  rw [selectNeighbors]
  generalize (candidates.filter fun c => c.2 ≠ base).insertionSort keyLe = sorted at *
  have hperm := @pick_perm dist m sorted [] [] (by rwa [List.length_nil, Nat.zero_add])
  have hlen := hperm.length_eq
  rw [List.nil_append, List.length_append, List.nil_append, List.length_map] at hlen
  change c.2 ∈ (pick dist m true sorted [] []).1 ++ (pick dist m true sorted [] []).2.take _
  rw [List.take_of_length_le (by omega)]
  exact hperm.symm.subset (List.mem_map_of_mem hsorted)

end Hnsw

end Vecvec
