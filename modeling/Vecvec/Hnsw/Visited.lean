import Vecvec.Hnsw.Complete

/-!
# Hnsw/Visited — visited lists, and the layer search as it uses them

A visited list stamps a point with the current generation, and forgets all marks by going on to the
next one.  Its stamps are never ahead of its generation, also when the generation wraps around at
`2 ^ 32`, so **a cleared list has no marks** (`not_marked_clear`) and a search may start with a list
that any number of searches have used.  Such a search is the one of `Hnsw/Search`
(`searchLayerWith_eq`), and it finds as much as its beam is wide (`searchLayerWith_complete`).
-/

namespace Vecvec.Hnsw

/-! ## Visited lists -/

/-- A reusable visited set.  The generation is a `u32`. -/
structure VisitedList where
  /-- The current generation. -/
  generation : ℕ
  /-- The generation each point was visited in last. -/
  stamps : List ℕ
  /-- Generation 0 is that of points never visited. -/
  generation_pos : 0 < generation
  /-- Generations are numbered by `u32`s. -/
  generation_lt : generation < 2 ^ 32
  /-- No stamp is ahead of its time. -/
  stamped : ∀ s ∈ stamps, s ≤ generation

namespace VisitedList

/-- A visited set for `n` points. -/
def new (n : ℕ) : VisitedList where
  generation := 1
  stamps := List.replicate n 0
  generation_pos := Nat.one_pos
  generation_lt := by decide
  stamped s hs := (List.eq_of_mem_replicate hs).trans_le (Nat.zero_le 1)

/-- Resets all marks: the next generation, and a real reset when it wraps around. -/
def clear (v : VisitedList) : VisitedList :=
  if h : (v.generation + 1) % 2 ^ 32 = 0 then
    { generation := 1
      stamps := v.stamps.map fun _ => 0
      generation_pos := Nat.one_pos
      generation_lt := by decide
      stamped := fun s hs => by
        obtain ⟨_, -, rfl⟩ := List.mem_map.mp hs
        exact Nat.zero_le 1 }
  else
    { generation := (v.generation + 1) % 2 ^ 32
      stamps := v.stamps
      generation_pos := Nat.pos_of_ne_zero h
      generation_lt := Nat.mod_lt _ (by decide)
      stamped := fun s hs => by
        have := v.stamped s hs
        have := v.generation_lt
        omega }

/-- Marks a point visited, and tells whether it was not; `none` is a panic. -/
def visit (v : VisitedList) (i : ℕ) : Option (Bool × VisitedList) :=
  match v.stamps[i]? with
  | none => none
  | some s =>
    if s = v.generation then some (false, v)
    else some (true, { v with
      stamps := v.stamps.set i v.generation
      stamped := fun s hs => (List.mem_or_eq_of_mem_set hs).elim (v.stamped s) fun h => h.le })

/-- A point visited in this generation. -/
def Marked (v : VisitedList) (i : ℕ) : Prop := v.stamps[i]? = some v.generation

variable {v : VisitedList} {i j : ℕ}

/-- **A cleared list has no marks.** -/
theorem not_marked_clear : ¬ v.clear.Marked i := by
  intro h
  rw [Marked, clear] at h
  split at h
  · obtain ⟨s, -, hs⟩ := List.mem_map.mp (List.mem_of_getElem? h)
    cases hs
  · have := v.stamped _ (List.mem_of_getElem? h)
    have := v.generation_lt
    dsimp only at *
    omega

@[simp] theorem length_clear : v.clear.stamps.length = v.stamps.length := by
  rw [clear]
  split
  exacts [List.length_map _, rfl]

/-- **A visit marks the point**, and tells whether it was marked. -/
theorem visit_eq (h : i < v.stamps.length) : ∃ first v', v.visit i = some (first, v') ∧
    (first = true ↔ ¬ v.Marked i) ∧ v'.stamps.length = v.stamps.length ∧
    ∀ j, v'.Marked j ↔ j = i ∨ v.Marked j := by
  have hget : v.stamps[i]? = some v.stamps[i] := List.getElem?_eq_getElem h
  rw [visit, hget]
  dsimp only
  split
  · rename_i heq
    have hmarked : v.Marked i := hget.trans (congrArg some heq)
    refine ⟨false, v, rfl, by simp [hmarked], rfl, fun j => ⟨.inr, ?_⟩⟩
    rintro (rfl | hj)
    exacts [hmarked, hj]
  · rename_i hne
    refine ⟨true, _, rfl, ?_, List.length_set, fun j => ?_⟩
    · simp [Marked, hget, hne]
    · rw [Marked, Marked]
      dsimp only
      by_cases hj : j = i
      · simp [hj, h]
      · simp [List.getElem?_set_ne (Ne.symm hj), hj]

end VisitedList

/-! ## The search -/

section

variable (neighbors : ℕ → List ℕ) (ef : ℕ) (dist : ℕ → F32) (admits : ℕ → Bool)

/-- An entry point.  The beam's heaps are used, its own list of points visited is not. -/
def enterWith (s : VisitedList × Beam) (e : ℕ) : Option (VisitedList × Beam) := do
  let (first, visited) ← s.1.visit e
  return (visited, if first then s.2.push ef dist admits e else s.2)

/-- A neighbour of the point being expanded. -/
def visitWith (s : VisitedList × Beam) (x : ℕ) : Option (VisitedList × Beam) := do
  let (first, visited) ← s.1.visit x
  return (visited, if first && s.2.explores ef dist x then s.2.push ef dist admits x else s.2)

/-- The loop of `search_layer`; `none` is a panic, or a loop that has not ended after `fuel`
rounds. -/
def searchLoopWith : ℕ → VisitedList × Beam → Option (VisitedList × Beam)
  | 0, _ => none
  | fuel + 1, (visited, b) =>
    match b.pop ef with
    | none => some (visited, b)
    | some (c, b) => do
      let s ← (neighbors c).foldlM (visitWith ef dist admits) (visited, b)
      searchLoopWith fuel s

/-- `search_layer` with a visited list, on a graph of `n` points. -/
def searchLayerWith (n : ℕ) (entryPoints : List ℕ) (visited : VisitedList) :
    Option (List (F32 × ℕ) × VisitedList) := do
  let s ← entryPoints.foldlM (enterWith ef dist admits) (visited.clear, Beam.empty)
  let (visited, b) ← searchLoopWith neighbors ef dist admits (n + 1) s
  return (b.results, visited)

end

/-! ## The list is the set -/

variable {neighbors : ℕ → List ℕ} {ef : ℕ} {dist : ℕ → F32} {admits : ℕ → Bool} {n : ℕ}
  {b : Beam} {v : VisitedList}

/-- The heaps of a beam. -/
def Beam.heaps (b : Beam) : Beam := { b with visited := [] }

/-- A visited list that has a place for every point, and marks those a beam has visited. -/
structure Beam.Tracked (n : ℕ) (b : Beam) (v : VisitedList) : Prop where
  marked : ∀ i, v.Marked i ↔ i ∈ b.visited
  room : n ≤ v.stamps.length

namespace Beam.Tracked

theorem clear (hv : n ≤ v.stamps.length) : Beam.empty.Tracked n v.clear where
  marked _ := iff_of_false VisitedList.not_marked_clear List.not_mem_nil
  room := by rwa [VisitedList.length_clear]

/-- A first visit, and one that is not. -/
theorem visit (h : b.Tracked n v) {x : ℕ} (hx : x < n) : ∃ first v', v.visit x = some (first, v') ∧
    (first = true ↔ x ∉ b.visited) ∧ (x ∈ b.visited → b.Tracked n v') ∧
    ∀ b' : Beam, b'.visited = x :: b.visited → b'.Tracked n v' := by
  obtain ⟨first, v', hvisit, hfirst, hlen, hmarked⟩ := VisitedList.visit_eq (hx.trans_le h.room)
  have hroom := h.room.trans_eq hlen.symm
  refine ⟨first, v', hvisit, hfirst.trans (not_congr (h.marked x)), fun hmem =>
    ⟨fun i => ?_, hroom⟩,
    fun b' hb' => ⟨fun i => ?_, hroom⟩⟩
  · rw [hmarked, h.marked, or_iff_right_iff_imp]
    rintro rfl
    exact hmem
  · rw [hmarked, h.marked, hb', List.mem_cons]

theorem enter (ef) (dist) (admits) (h : b.Tracked n v) {x : ℕ} (hx : x < n) :
    ∃ v', enterWith ef dist admits (v, b.heaps) x = some (v', (b.enter ef dist admits x).heaps) ∧
      (b.enter ef dist admits x).Tracked n v' := by
  obtain ⟨first, v', hvisit, hfirst, hold, hnew⟩ := h.visit hx
  refine ⟨v', ?_, ?_⟩
  · rw [enterWith, hvisit, Beam.enter]
    by_cases hmem : x ∈ b.visited
    · rw [if_pos hmem, Bool.eq_false_iff.mpr fun hf => hfirst.mp hf hmem]
      rfl
    · rw [if_neg hmem, hfirst.mpr hmem]
      rfl
  · rw [Beam.enter]
    split
    exacts [hold ‹_›, hnew _ rfl]

theorem visitWith (ef) (dist) (admits) (h : b.Tracked n v) {x : ℕ} (hx : x < n) :
    ∃ v', visitWith ef dist admits (v, b.heaps) x = some (v', (b.visit ef dist admits x).heaps) ∧
      (b.visit ef dist admits x).Tracked n v' := by
  obtain ⟨first, v', hvisit, hfirst, hold, hnew⟩ := h.visit hx
  have hexplores : b.heaps.explores ef dist x = b.explores ef dist x := rfl
  refine ⟨v', ?_, ?_⟩
  · rw [Hnsw.visitWith, hvisit, Beam.visit]
    by_cases hmem : x ∈ b.visited
    · rw [if_pos hmem, Bool.eq_false_iff.mpr fun hf => hfirst.mp hf hmem]
      rfl
    · rw [if_neg hmem, hfirst.mpr hmem]
      dsimp only [Option.bind_eq_bind, Option.bind_some]
      rw [hexplores]
      cases b.explores ef dist x <;> rfl
  · rw [Beam.visit]
    split
    · exact hold ‹_›
    · split <;> exact hnew _ rfl

theorem foldlM_enterWith (ef) (dist) (admits) {l : List ℕ} (h : b.Tracked n v)
    (hl : ∀ x ∈ l, x < n) :
    ∃ v', l.foldlM (enterWith ef dist admits) (v, b.heaps) =
        some (v', (l.foldl (Beam.enter ef dist admits) b).heaps) ∧
      (l.foldl (Beam.enter ef dist admits) b).Tracked n v' := by
  induction l generalizing b v with
  | nil => exact ⟨v, rfl, h⟩
  | cons x l ih =>
    obtain ⟨hx, hl⟩ := List.forall_mem_cons.mp hl
    obtain ⟨v₁, henter, h₁⟩ := h.enter ef dist admits hx
    rw [List.foldlM_cons, henter]
    exact ih h₁ hl

theorem foldlM_visitWith (ef) (dist) (admits) {l : List ℕ} (h : b.Tracked n v)
    (hl : ∀ x ∈ l, x < n) :
    ∃ v', l.foldlM (Hnsw.visitWith ef dist admits) (v, b.heaps) =
        some (v', (l.foldl (Beam.visit ef dist admits) b).heaps) ∧
      (l.foldl (Beam.visit ef dist admits) b).Tracked n v' := by
  induction l generalizing b v with
  | nil => exact ⟨v, rfl, h⟩
  | cons x l ih =>
    obtain ⟨hx, hl⟩ := List.forall_mem_cons.mp hl
    obtain ⟨v₁, hvisit, h₁⟩ := h.visitWith ef dist admits hx
    rw [List.foldlM_cons, hvisit]
    exact ih h₁ hl

/-- The heaps alone decide what is popped. -/
theorem pop_heaps : b.heaps.pop ef = (b.pop ef).map fun cb => (cb.1, cb.2.heaps) := by
  rw [Beam.pop, Beam.pop, Beam.heaps]
  dsimp only
  split
  · rfl
  · split
    · split <;> rfl
    · rfl

/-- **The loop ends**, and with the heaps of the search over a set. -/
theorem searchLoopWith (hclosed : ∀ c < n, ∀ x ∈ neighbors c, x < n) {fuel : ℕ}
    (h : b.Tracked n v) (hb : b.Ok (· < n) ef) (hroom : b.room n ≤ fuel) :
    ∃ v', searchLoopWith neighbors ef dist admits (fuel + 1) (v, b.heaps) =
        some (v', (searchLoop neighbors ef dist admits fuel b).heaps) ∧
      n ≤ v'.stamps.length := by
  induction fuel generalizing b v with
  | zero =>
    have hpop : b.pop ef = none :=
      @pop_searchLoop neighbors ef dist admits n (· < n) b (fun _ h => h) hclosed 0 hb hroom
    rw [Hnsw.searchLoopWith, pop_heaps, hpop]
    exact ⟨v, rfl, h.room⟩
  | succ fuel ih =>
    rw [Hnsw.searchLoopWith, pop_heaps, searchLoop]
    cases hpop : b.pop ef with
    | none => exact ⟨v, rfl, h.room⟩
    | some popped =>
      obtain ⟨c, b'⟩ := popped
      obtain ⟨hc, -⟩ := hb.pop hpop
      obtain ⟨d, -, hvisited, -⟩ := Beam.of_pop hpop
      have h' : b'.Tracked n v := ⟨fun i => (h.marked i).trans (by rw [hvisited]), h.room⟩
      obtain ⟨v₁, hfold, h₁⟩ := h'.foldlM_visitWith ef dist admits (hclosed c hc)
      obtain ⟨v₂, hloop, h₂⟩ := ih h₁ (hb.expand hclosed hpop)
        (Nat.le_of_lt_succ ((hb.room_expand_lt (fun _ h => h) hclosed hpop).trans_le hroom))
      refine ⟨v₂, ?_, h₂⟩
      dsimp only [Option.map_some]
      rw [hfold]
      exact hloop

end Beam.Tracked

/-- **A search with a visited list** is the search over a set, whatever the list was used for. -/
theorem searchLayerWith_eq (hclosed : ∀ c < n, ∀ x ∈ neighbors c, x < n) {eps : List ℕ}
    (heps : ∀ e ∈ eps, e < n) (hv : n ≤ v.stamps.length) :
    ∃ v', searchLayerWith neighbors ef dist admits n eps v =
      some (searchLayer neighbors ef dist admits n eps, v') ∧ n ≤ v'.stamps.length := by
  obtain ⟨v₁, henter, h₁⟩ := (Beam.Tracked.clear hv).foldlM_enterWith ef dist admits heps
  have hroom : (eps.foldl (Beam.enter ef dist admits) Beam.empty).room n ≤ n :=
    (Beam.ok_empty.room_foldl_enter_le (φ := (· < n)) (fun _ h => h) heps).trans_eq
      (by rw [Beam.room, Beam.empty, List.length_nil]; rfl)
  obtain ⟨v₂, hloop, h₂⟩ := h₁.searchLoopWith hclosed (Beam.ok_empty.foldl_enter heps) hroom
  refine ⟨v₂, ?_, h₂⟩
  rw [searchLayerWith, show (v.clear, Beam.empty) = (v.clear, Beam.empty.heaps) from rfl, henter]
  dsimp only [Option.bind_eq_bind, Option.bind_some]
  rw [hloop]
  rfl

/-- **The layer search is complete up to `ef`**: on every graph whose lists stay in range, it
returns distinct admitted points that the links of the layer lead to, the best first, and as many of
them as there are — or `ef`. -/
theorem searchLayerWith_complete (n : ℕ) (neighbors : ℕ → ℕ → List ℕ) (layer : ℕ)
    (hclosed : ∀ c < n, ∀ x ∈ neighbors c layer, x < n) (eps : List ℕ) (heps : ∀ e ∈ eps, e < n)
    (ef : ℕ) (dist : ℕ → F32) (admits : ℕ → Bool) (visited : VisitedList)
    (hvisited : n ≤ visited.stamps.length) :
    ∃ found visited', searchLayerWith (neighbors · layer) ef dist admits n eps visited =
        some (found, visited') ∧
      (found.map Prod.snd).Nodup ∧ found.Pairwise keyLe ∧
      (∀ key ∈ found, key.1 = dist key.2 ∧ admits key.2 = true ∧
        Reaches (neighbors · layer) eps key.2) ∧
      found.length = min ef {x | admits x = true ∧ Reaches (neighbors · layer) eps x}.ncard ∧
      ({x | admits x = true ∧ Reaches (neighbors · layer) eps x}.ncard ≤ ef →
        ∀ x, admits x = true → Reaches (neighbors · layer) eps x → (dist x, x) ∈ found) := by
  obtain ⟨visited', heq, -⟩ := searchLayerWith_eq (v := visited) hclosed heps hvisited
  refine ⟨_, visited', heq, nodup_searchLayer, pairwise_searchLayer, fun key hkey => ?_,
    length_searchLayer (fun _ h => h) hclosed heps, fun hle x hx hreach => ?_⟩
  · obtain ⟨hdist, hadmits⟩ := keyed_of_mem_searchLayer hkey
    exact ⟨hdist, hadmits, reaches_of_mem_searchLayer hkey⟩
  · exact mem_searchLayer_of_ncard_le (fun _ h => h) hclosed heps hle hx hreach

/-- A path of three points, the last of them admitted: the search passes through the others. -/
def pathNeighbors (c _layer : ℕ) : List ℕ := if c < 2 then [c + 1] else []

/-- A beam of one finds the end of the path. -/
theorem searchLayerWith_complete_path : ∃ found visited',
    searchLayerWith (pathNeighbors · 0) 1 (fun _ => 0) (· == 2) 3 [0] (.new 3) =
      some (found, visited') ∧ (0, 2) ∈ found := by
  obtain ⟨found, visited', heq, -, -, -, -, hall⟩ := searchLayerWith_complete 3 pathNeighbors 0
    (by decide) [0] (by decide) 1 (fun _ => 0) (· == 2) (.new 3) (by decide)
  have hreach : Reaches (pathNeighbors · 0) [0] 2 :=
    ⟨0, List.mem_singleton_self 0, .tail (.single List.mem_cons_self) List.mem_cons_self⟩
  have hone : {x | (x == 2) = true ∧ Reaches (pathNeighbors · 0) [0] x}.ncard ≤ 1 :=
    (Set.ncard_le_ncard (t := {2}) (fun x hx => beq_iff_eq.mp hx.1)
      (Set.finite_singleton 2)).trans_eq (Set.ncard_singleton 2)
  exact ⟨found, visited', heq, hall hone 2 rfl hreach⟩

end Vecvec.Hnsw
