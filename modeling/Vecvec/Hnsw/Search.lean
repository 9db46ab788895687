import Vecvec.Hnsw.Heuristic
import Mathlib.Data.List.Basic

/-!
# Hnsw/Search — the beam search of one layer

A best-first search over a graph's layer, shared by construction and query.  It keeps the points it
has come across (`visited`), those still to be expanded, nearest first, and the `ef` best admitted
ones; it stops when nothing is left to expand, or the nearest of it is worse than the worst result
of a full beam.

A visited list has a place for each point of the graph, so no point is expanded twice and the loop
ends (`pop_searchLoop`).
-/

namespace Vecvec.Hnsw

/-! ## The code -/

/-- A search in progress.  Both heaps are kept as ascending lists: the head of `candidates` is what
`pop` takes next, the last of `results` is what `peek` sees and `pop` evicts. -/
structure Beam where
  /-- The points marked visited. -/
  visited : List ℕ
  /-- The frontier: distance and id. -/
  candidates : List (F32 × ℕ)
  /-- The best admitted so far: distance and id. -/
  results : List (F32 × ℕ)

/-- Pushes a result, and evicts the worst one if there are now more than `ef`. -/
def pushResult (ef : ℕ) (results : List (F32 × ℕ)) (key : F32 × ℕ) : List (F32 × ℕ) :=
  let pushed := results.orderedInsert keyLe key
  if ef < pushed.length then pushed.dropLast else pushed

namespace Beam

/-- Nothing visited yet. -/
def empty : Beam := ⟨[], [], []⟩

section

variable (ef : ℕ) (dist : ℕ → F32) (admits : ℕ → Bool)

/-- Puts a point on the frontier, and among the results if it is admitted. -/
def push (b : Beam) (id : ℕ) : Beam :=
  { b with
    candidates := b.candidates.orderedInsert keyLe (dist id, id)
    results := if admits id then pushResult ef b.results (dist id, id) else b.results }

/-- Marks a point visited. -/
def mark (b : Beam) (id : ℕ) : Beam := { b with visited := id :: b.visited }

/-- An entry point. -/
def enter (b : Beam) (e : ℕ) : Beam :=
  if e ∈ b.visited then b else (b.mark e).push ef dist admits e

/-- Whether a point is worth exploring. -/
def explores (b : Beam) (id : ℕ) : Bool :=
  match b.results.getLast? with
  | some worst => b.results.length < ef || F32.ord (dist id) < F32.ord worst.1
  | none => true

/-- A neighbour of the point being expanded. -/
def visit (b : Beam) (n : ℕ) : Beam :=
  if n ∈ b.visited then b
  else if b.explores ef dist n then (b.mark n).push ef dist admits n
  else b.mark n

/-- The next point to expand, if the search goes on. -/
def pop (b : Beam) : Option (ℕ × Beam) :=
  match b.candidates with
  | [] => none
  | cand :: rest =>
    match b.results.getLast? with
    | some worst =>
      if ef ≤ b.results.length ∧ F32.ord worst.1 < F32.ord cand.1 then none
      else some (cand.2, { b with candidates := rest })
    | none => some (cand.2, { b with candidates := rest })

end

end Beam

section

variable (neighbors : ℕ → List ℕ) (ef : ℕ) (dist : ℕ → F32) (admits : ℕ → Bool)

/-- The loop of `search_layer`, over the neighbours on one layer.  `fuel` bounds the number of
points expanded; the number of points of the graph always suffices. -/
def searchLoop : ℕ → Beam → Beam
  | 0, b => b
  | fuel + 1, b =>
    match b.pop ef with
    | none => b
    | some (c, b) => searchLoop fuel ((neighbors c).foldl (Beam.visit ef dist admits) b)

/-- `search_layer`, on a graph of `n` points: the results, best first. -/
def searchLayer (n : ℕ) (entryPoints : List ℕ) : List (F32 × ℕ) :=
  (searchLoop neighbors ef dist admits n
    (entryPoints.foldl (Beam.enter ef dist admits) Beam.empty)).results

end

/-! ## The beam's invariants -/

variable {neighbors : ℕ → List ℕ} {ef : ℕ} {dist : ℕ → F32} {admits : ℕ → Bool} {n : ℕ}

/-- What a pushed result list holds: nothing but the key and what was there. -/
theorem pushResult_subperm {results : List (F32 × ℕ)} {key : F32 × ℕ} :
    (pushResult ef results key).Subperm (key :: results) := by
  have hperm := (List.perm_orderedInsert keyLe key results).subperm
  rw [pushResult]
  split
  · exact (List.dropLast_sublist _).subperm.trans hperm
  · exact hperm

theorem ids_pushResult_subperm {results : List (F32 × ℕ)} {key : F32 × ℕ} :
    ((pushResult ef results key).map Prod.snd).Subperm (key.2 :: results.map Prod.snd) := by
  obtain ⟨l, hperm, hsub⟩ := @pushResult_subperm ef results key
  exact ⟨l.map Prod.snd, hperm.map _, hsub.map _⟩

theorem length_pushResult {results : List (F32 × ℕ)} {key : F32 × ℕ} (h : results.length ≤ ef) :
    (pushResult ef results key).length = min ef (results.length + 1) := by
  rw [pushResult]
  split <;> rename_i hlen <;> rw [List.orderedInsert_length] at hlen <;>
    simp only [List.length_dropLast, List.orderedInsert_length] <;> omega

namespace Beam

/-- **The invariant of a beam** over points with the property `φ`: what is on the frontier or among
the results has been visited, once, and the results are at most `ef`. -/
structure Ok (φ : ℕ → Prop) (ef : ℕ) (b : Beam) : Prop where
  /-- Every point visited has the property. -/
  good : ∀ x ∈ b.visited, φ x
  /-- No point is visited twice. -/
  nodup : b.visited.Nodup
  /-- The frontier has been visited. -/
  frontier : ∀ key ∈ b.candidates, key.2 ∈ b.visited
  /-- The results are points visited, each once. -/
  results : (b.results.map Prod.snd).Subperm b.visited
  /-- The beam is not overfull. -/
  width : b.results.length ≤ ef

variable {φ : ℕ → Prop} {b : Beam}

theorem ok_empty : Ok φ ef empty :=
  ⟨fun _ h => absurd h List.not_mem_nil, List.nodup_nil, fun _ h => absurd h List.not_mem_nil,
    List.Subperm.refl _, Nat.zero_le _⟩

theorem Ok.mark (hb : b.Ok φ ef) {x : ℕ} (hx : φ x) (hnew : x ∉ b.visited) :
    (b.mark x).Ok φ ef where
  good := List.forall_mem_cons.mpr ⟨hx, hb.good⟩
  nodup := List.nodup_cons.mpr ⟨hnew, hb.nodup⟩
  frontier key hkey := List.mem_cons_of_mem _ (hb.frontier key hkey)
  results := hb.results.trans (List.sublist_cons_self _ _).subperm
  width := hb.width

theorem Ok.markPush (hb : b.Ok φ ef) {x : ℕ} (hx : φ x) (hnew : x ∉ b.visited) :
    ((b.mark x).push ef dist admits x).Ok φ ef where
  good := List.forall_mem_cons.mpr ⟨hx, hb.good⟩
  nodup := List.nodup_cons.mpr ⟨hnew, hb.nodup⟩
  frontier key hkey := by
    rcases (List.mem_orderedInsert keyLe).mp hkey with rfl | hkey
    · exact List.mem_cons_self
    · exact List.mem_cons_of_mem _ (hb.frontier key hkey)
  results := by
    change (((if admits x then _ else _) : List (F32 × ℕ)).map Prod.snd).Subperm (x :: b.visited)
    split
    · exact ids_pushResult_subperm.trans ((List.subperm_cons x).mpr hb.results)
    · exact hb.results.trans (List.sublist_cons_self _ _).subperm
  width := by
    change ((if admits x then _ else _) : List (F32 × ℕ)).length ≤ ef
    split
    · exact (length_pushResult hb.width).trans_le (Nat.min_le_left _ _)
    · exact hb.width

theorem Ok.enter (hb : b.Ok φ ef) {e : ℕ} (he : φ e) : (b.enter ef dist admits e).Ok φ ef := by
  rw [Beam.enter]
  split
  · exact hb
  · exact hb.markPush he ‹_›

theorem Ok.visit (hb : b.Ok φ ef) {x : ℕ} (hx : φ x) : (b.visit ef dist admits x).Ok φ ef := by
  rw [Beam.visit]
  split
  · exact hb
  · split
    · exact hb.markPush hx ‹_›
    · exact hb.mark hx ‹_›

/-- The point popped was next on the frontier; nothing else changes. -/
theorem of_pop {b' : Beam} {c : ℕ} (h : b.pop ef = some (c, b')) :
    ∃ d, b.candidates = (d, c) :: b'.candidates ∧ b'.visited = b.visited ∧
      b'.results = b.results := by
  rw [pop] at h
  split at h
  · cases h
  · rename_i cand rest hcands
    split at h
    · split at h
      · cases h
      · cases h
        exact ⟨cand.1, hcands, rfl, rfl⟩
    · cases h
      exact ⟨cand.1, hcands, rfl, rfl⟩

theorem Ok.pop (hb : b.Ok φ ef) {b' : Beam} {c : ℕ} (h : b.pop ef = some (c, b')) :
    φ c ∧ b'.Ok φ ef := by
  obtain ⟨d, hcands, hvisited, hresults⟩ := of_pop h
  refine ⟨hb.good _ (hb.frontier (d, c) (hcands ▸ List.mem_cons_self)), ?_⟩
  constructor
  · exact hvisited ▸ hb.good
  · exact hvisited ▸ hb.nodup
  · exact fun key hkey => hvisited ▸ hb.frontier key (hcands ▸ List.mem_cons_of_mem _ hkey)
  · exact hvisited ▸ hresults ▸ hb.results
  · exact hresults ▸ hb.width

theorem Ok.foldl_enter {eps : List ℕ} (hb : b.Ok φ ef) (heps : ∀ e ∈ eps, φ e) :
    (eps.foldl (Beam.enter ef dist admits) b).Ok φ ef := by
  induction eps generalizing b with
  | nil => exact hb
  | cons e eps ih =>
    exact ih (hb.enter (heps e List.mem_cons_self)) fun x hx => heps x (List.mem_cons_of_mem _ hx)

theorem Ok.foldl_visit {l : List ℕ} (hb : b.Ok φ ef) (hl : ∀ x ∈ l, φ x) :
    (l.foldl (Beam.visit ef dist admits) b).Ok φ ef := by
  induction l generalizing b with
  | nil => exact hb
  | cons x l ih =>
    exact ih (hb.visit (hl x List.mem_cons_self)) fun y hy => hl y (List.mem_cons_of_mem _ hy)

/-- The ids of the results are distinct. -/
theorem Ok.nodup_results (hb : b.Ok φ ef) : (b.results.map Prod.snd).Nodup := by
  obtain ⟨l, hperm, hsub⟩ := hb.results
  exact hperm.nodup_iff.mp (hb.nodup.sublist hsub)

theorem Ok.of_mem_results (hb : b.Ok φ ef) {key : F32 × ℕ} (h : key ∈ b.results) : φ key.2 :=
  hb.good _ (hb.results.subset (List.mem_map_of_mem h))

theorem mem_visited_visit {x y : ℕ} (h : y ∈ b.visited) :
    y ∈ (b.visit ef dist admits x).visited := by
  rw [Beam.visit]
  split
  · exact h
  · split <;> exact List.mem_cons_of_mem _ h

/-- A point visited stays visited. -/
theorem mem_visited_foldl_visit {l : List ℕ} {y : ℕ} (h : y ∈ b.visited) :
    y ∈ (l.foldl (Beam.visit ef dist admits) b).visited := by
  induction l generalizing b with
  | nil => exact h
  | cons x l ih => exact ih (mem_visited_visit h)

/-! ## A result that is not the point itself

A point under construction may come across itself, if others have linked to it already.  A beam of
two keeps somebody else. -/

/-- Some result is another point than `p`. -/
def Other (p : ℕ) (b : Beam) : Prop := ∃ key ∈ b.results, key.2 ≠ p

variable {p : ℕ}

theorem exists_ne_of_two_le {l : List ℕ} (hl : l.Nodup) (h2 : 2 ≤ l.length) : ∃ x ∈ l, x ≠ p := by
  obtain ⟨x, y, rest, rfl⟩ : ∃ x y rest, l = x :: y :: rest := by
    match l, h2 with
    | x :: y :: rest, _ => exact ⟨x, y, rest, rfl⟩
  by_cases hx : x = p
  · refine ⟨y, by simp, fun hy => ?_⟩
    exact (List.nodup_cons.mp hl).1 (hx.trans hy.symm ▸ List.mem_cons_self)
  · exact ⟨x, List.mem_cons_self, hx⟩

theorem Ok.other_of_two_le (hb : b.Ok φ ef) (h2 : 2 ≤ b.results.length) : b.Other p := by
  obtain ⟨x, hx, hne⟩ := exists_ne_of_two_le hb.nodup_results (p := p) (by rwa [List.length_map])
  obtain ⟨key, hkey, rfl⟩ := List.mem_map.mp hx
  exact ⟨key, hkey, hne⟩

/-- **A push keeps another point** among the results of a beam of two, and adds one. -/
theorem Ok.other_push (hb : b.Ok φ ef) (hef : 2 ≤ ef) {x : ℕ} (hx : φ x) (hnew : x ∉ b.visited)
    (h : b.Other p ∨ x ≠ p) : ((b.mark x).push ef dist (fun _ => true) x).Other p := by
  by_cases hfull : ef < b.results.length + 1
  · refine (hb.markPush hx hnew).other_of_two_le ?_
    refine hef.trans_eq (.trans ?_ (length_pushResult hb.width).symm)
    exact (Nat.min_eq_left hfull.le).symm
  · have hpush : ((b.mark x).push ef dist (fun _ => true) x).results =
        b.results.orderedInsert keyLe (dist x, x) := by
      change pushResult ef b.results (dist x, x) = _
      rw [pushResult, if_neg (by rwa [List.orderedInsert_length])]
    rcases h with ⟨key, hkey, hne⟩ | hne
    · exact ⟨key, hpush ▸ (List.mem_orderedInsert keyLe).mpr (.inr hkey), hne⟩
    · exact ⟨_, hpush ▸ (List.mem_orderedInsert keyLe).mpr (.inl rfl), hne⟩

theorem Ok.other_visit (hb : b.Ok φ ef) (hef : 2 ≤ ef) {x : ℕ} (hx : φ x) (h : b.Other p) :
    (b.visit ef dist (fun _ => true) x).Other p := by
  rw [Beam.visit]
  split
  · exact h
  · split
    · exact hb.other_push hef hx ‹_› (.inl h)
    · exact h

theorem Ok.other_foldl_visit {l : List ℕ} (hb : b.Ok φ ef) (hef : 2 ≤ ef) (hl : ∀ x ∈ l, φ x)
    (h : b.Other p) : (l.foldl (Beam.visit ef dist fun _ => true) b).Other p := by
  induction l generalizing b with
  | nil => exact h
  | cons x l ih =>
    have hx := hl x List.mem_cons_self
    exact ih (hb.visit hx) (fun y hy => hl y (List.mem_cons_of_mem _ hy)) (hb.other_visit hef hx h)

/-- **Entry points that are not all `p`** put another point among the results. -/
theorem Ok.other_foldl_enter {eps : List ℕ} (hb : b.Ok φ ef) (hef : 2 ≤ ef)
    (heps : ∀ e ∈ eps, φ e) (h : b.Other p ∨ (∀ x ∈ b.visited, x = p) ∧ ∃ e ∈ eps, e ≠ p) :
    (eps.foldl (Beam.enter ef dist fun _ => true) b).Other p := by
  induction eps generalizing b with
  | nil => exact h.resolve_right fun h => by obtain ⟨-, e, he, -⟩ := h; exact List.not_mem_nil he
  | cons e eps ih =>
    have he := heps e List.mem_cons_self
    refine ih (hb.enter he) (fun x hx => heps x (List.mem_cons_of_mem _ hx)) ?_
    rw [Beam.enter]
    split
    · rename_i hmem
      refine h.imp_right fun ⟨hall, x, hx, hne⟩ => ⟨hall, x, ?_, hne⟩
      exact (List.mem_cons.mp hx).resolve_left fun hxe => hne (hxe.trans (hall e hmem))
    · rename_i hnew
      by_cases hep : e = p
      · rcases h with h | ⟨hall, x, hx, hne⟩
        · exact .inl (hb.other_push hef he hnew (.inl h))
        · refine .inr ⟨List.forall_mem_cons.mpr ⟨hep, hall⟩, x, ?_, hne⟩
          exact (List.mem_cons.mp hx).resolve_left fun hxe => hne (hxe.trans hep)
      · exact .inl (hb.other_push hef he hnew (.inr hep))

/-! ## Somebody is found -/

theorem Ok.ne_nil_markPush (hb : b.Ok φ ef) (hef : 1 ≤ ef) (x : ℕ) :
    ((b.mark x).push ef dist (fun _ => true) x).results ≠ [] := by
  rw [← List.length_pos_iff]
  refine Nat.lt_of_lt_of_eq ?_ (length_pushResult hb.width).symm
  exact Nat.lt_min.mpr ⟨hef, Nat.succ_pos _⟩

theorem Ok.ne_nil_visit (hb : b.Ok φ ef) (hef : 1 ≤ ef) {x : ℕ} (h : b.results ≠ []) :
    (b.visit ef dist (fun _ => true) x).results ≠ [] := by
  rw [Beam.visit]
  split
  · exact h
  · split
    · exact hb.ne_nil_markPush hef x
    · exact h

theorem Ok.ne_nil_foldl_visit {l : List ℕ} (hb : b.Ok φ ef) (hef : 1 ≤ ef) (hl : ∀ x ∈ l, φ x)
    (h : b.results ≠ []) : (l.foldl (Beam.visit ef dist fun _ => true) b).results ≠ [] := by
  induction l generalizing b with
  | nil => exact h
  | cons x l ih =>
    exact ih (hb.visit (hl x List.mem_cons_self)) (fun y hy => hl y (List.mem_cons_of_mem _ hy))
      (hb.ne_nil_visit hef h)

theorem Ok.ne_nil_foldl_enter {eps : List ℕ} (hb : b.Ok φ ef) (hef : 1 ≤ ef)
    (heps : ∀ e ∈ eps, φ e) (h : b.results ≠ [] ∨ b.visited = [] ∧ eps ≠ []) :
    (eps.foldl (Beam.enter ef dist fun _ => true) b).results ≠ [] := by
  induction eps generalizing b with
  | nil => exact h.resolve_right fun h => h.2 rfl
  | cons e eps ih =>
    have he := heps e List.mem_cons_self
    refine ih (hb.enter he) (fun x hx => heps x (List.mem_cons_of_mem _ hx)) (.inl ?_)
    rw [Beam.enter]
    split
    · rename_i hmem
      exact h.resolve_right fun h => by rw [h.1] at hmem; exact List.not_mem_nil hmem
    · exact hb.ne_nil_markPush hef e

end Beam

/-! ## The loop -/

/-- **The rule of the loop**: what an expansion keeps, the search ends with. -/
theorem searchLoop_inv {J : Beam → Prop}
    (hJ : ∀ b c b', J b → b.pop ef = some (c, b') →
      J ((neighbors c).foldl (Beam.visit ef dist admits) b')) (fuel : ℕ) {b : Beam} (hb : J b) :
    J (searchLoop neighbors ef dist admits fuel b) := by
  induction fuel generalizing b with
  | zero => exact hb
  | succ fuel ih =>
    rw [searchLoop]
    split
    · exact hb
    · exact ih (hJ _ _ _ hb ‹_›)

/-- What is left to do at most: the frontier, and the points not visited yet. -/
def Beam.room (n : ℕ) (b : Beam) : ℕ := n - b.visited.length + b.candidates.length

section Room

variable {φ : ℕ → Prop} {b : Beam}

/-- Distinct points of a graph of `n` points are at most `n`. -/
theorem length_le_of_nodup {l : List ℕ} (hl : l.Nodup) (hlt : ∀ x ∈ l, x < n) : l.length ≤ n := by
  have hsub : l ⊆ List.range n := fun x hx => List.mem_range.mpr (hlt x hx)
  exact ((hl.subperm hsub).length_le).trans_eq List.length_range

theorem Beam.Ok.length_visited_lt (hb : b.Ok φ ef) (hφ : ∀ x, φ x → x < n) {x : ℕ} (hx : φ x)
    (hnew : x ∉ b.visited) : b.visited.length < n :=
  length_le_of_nodup (l := x :: b.visited) (List.nodup_cons.mpr ⟨hnew, hb.nodup⟩)
    (List.forall_mem_cons.mpr ⟨hφ x hx, fun y hy => hφ y (hb.good y hy)⟩)

theorem Beam.Ok.room_visit_le (hb : b.Ok φ ef) (hφ : ∀ x, φ x → x < n) {x : ℕ} (hx : φ x) :
    (b.visit ef dist admits x).room n ≤ b.room n := by
  rw [Beam.visit]
  split
  · exact le_rfl
  · rename_i hnew
    have hlt := hb.length_visited_lt hφ hx hnew
    split
    · change n - (b.visited.length + 1) + (b.candidates.orderedInsert keyLe (dist x, x)).length ≤ _
      rw [List.orderedInsert_length, Beam.room]
      omega
    · change n - (b.visited.length + 1) + b.candidates.length ≤ _
      rw [Beam.room]
      omega

theorem Beam.Ok.room_enter_le (hb : b.Ok φ ef) (hφ : ∀ x, φ x → x < n) {x : ℕ} (hx : φ x) :
    (b.enter ef dist admits x).room n ≤ b.room n := by
  rw [Beam.enter]
  split
  · exact le_rfl
  · rename_i hnew
    have hlt := hb.length_visited_lt hφ hx hnew
    change n - (b.visited.length + 1) + (b.candidates.orderedInsert keyLe (dist x, x)).length ≤ _
    rw [List.orderedInsert_length, Beam.room]
    omega

theorem Beam.Ok.room_foldl_visit_le {l : List ℕ} (hb : b.Ok φ ef) (hφ : ∀ x, φ x → x < n)
    (hl : ∀ x ∈ l, φ x) : (l.foldl (Beam.visit ef dist admits) b).room n ≤ b.room n := by
  induction l generalizing b with
  | nil => exact le_rfl
  | cons x l ih =>
    have hx := hl x List.mem_cons_self
    exact (ih (hb.visit hx) fun y hy => hl y (List.mem_cons_of_mem _ hy)).trans
      (hb.room_visit_le hφ hx)

theorem Beam.Ok.room_foldl_enter_le {l : List ℕ} (hb : b.Ok φ ef) (hφ : ∀ x, φ x → x < n)
    (hl : ∀ x ∈ l, φ x) : (l.foldl (Beam.enter ef dist admits) b).room n ≤ b.room n := by
  induction l generalizing b with
  | nil => exact le_rfl
  | cons x l ih =>
    have hx := hl x List.mem_cons_self
    exact (ih (hb.enter hx) fun y hy => hl y (List.mem_cons_of_mem _ hy)).trans
      (hb.room_enter_le hφ hx)

/-- An expansion takes one place of what is left to do. -/
theorem Beam.Ok.room_expand_lt (hb : b.Ok φ ef) (hφ : ∀ x, φ x → x < n)
    (hclosed : ∀ c, φ c → ∀ x ∈ neighbors c, φ x) {b' : Beam} {c : ℕ}
    (h : b.pop ef = some (c, b')) :
    ((neighbors c).foldl (Beam.visit ef dist admits) b').room n < b.room n := by
  obtain ⟨hc, hb'⟩ := hb.pop h
  obtain ⟨d, hcands, hvisited, -⟩ := Beam.of_pop h
  refine (hb'.room_foldl_visit_le hφ (hclosed c hc)).trans_lt ?_
  rw [Beam.room, Beam.room, hvisited, hcands, List.length_cons]
  omega

theorem Beam.Ok.expand (hb : b.Ok φ ef) (hclosed : ∀ c, φ c → ∀ x ∈ neighbors c, φ x) {b' : Beam}
    {c : ℕ} (h : b.pop ef = some (c, b')) :
    ((neighbors c).foldl (Beam.visit ef dist admits) b').Ok φ ef :=
  (hb.pop h).2.foldl_visit (hclosed c (hb.pop h).1)

/-- **The loop comes to its end** within as many expansions as there are points. -/
theorem pop_searchLoop (hφ : ∀ x, φ x → x < n) (hclosed : ∀ c, φ c → ∀ x ∈ neighbors c, φ x)
    {fuel : ℕ} (hb : b.Ok φ ef) (hroom : b.room n ≤ fuel) :
    (searchLoop neighbors ef dist admits fuel b).pop ef = none := by
  induction fuel generalizing b with
  | zero =>
    have hcands : b.candidates = [] :=
      List.length_eq_zero_iff.mp (by rw [Beam.room] at hroom; omega)
    rw [searchLoop, Beam.pop, hcands]
  | succ fuel ih =>
    rw [searchLoop]
    split
    · assumption
    · rename_i c b' hpop
      refine ih (hb.expand hclosed hpop) (Nat.le_of_lt_succ ?_)
      exact (hb.room_expand_lt hφ hclosed hpop).trans_le hroom

end Room

/-! ## What a search of a layer finds -/

section Found

variable {φ : ℕ → Prop} {eps : List ℕ}

/-- The beam a search ends with. -/
def finalBeam (neighbors : ℕ → List ℕ) (ef : ℕ) (dist : ℕ → F32) (admits : ℕ → Bool) (n : ℕ)
    (eps : List ℕ) : Beam :=
  searchLoop neighbors ef dist admits n (eps.foldl (Beam.enter ef dist admits) Beam.empty)

theorem searchLayer_eq :
    searchLayer neighbors ef dist admits n eps =
      (finalBeam neighbors ef dist admits n eps).results :=
  rfl

theorem ok_finalBeam (hclosed : ∀ c, φ c → ∀ x ∈ neighbors c, φ x) (heps : ∀ e ∈ eps, φ e) :
    (finalBeam neighbors ef dist admits n eps).Ok φ ef :=
  searchLoop_inv (fun _ _ _ hb hpop => hb.expand hclosed hpop) n (Beam.ok_empty.foldl_enter heps)

/-- **A search stays** within a set of points that its entry points are in and the links do not
leave. -/
theorem of_mem_searchLayer (hclosed : ∀ c, φ c → ∀ x ∈ neighbors c, φ x) (heps : ∀ e ∈ eps, φ e)
    {key : F32 × ℕ} (h : key ∈ searchLayer neighbors ef dist admits n eps) : φ key.2 :=
  (ok_finalBeam hclosed heps).of_mem_results h

theorem nodup_searchLayer :
    ((searchLayer neighbors ef dist admits n eps).map Prod.snd).Nodup :=
  (@ok_finalBeam neighbors ef dist admits n (fun _ => True) eps (fun _ _ _ _ => trivial)
    fun _ _ => trivial).nodup_results

/-- **A search that admits everything finds something.** -/
theorem searchLayer_ne_nil (hef : 1 ≤ ef) (heps : eps ≠ []) :
    searchLayer neighbors ef dist (fun _ => true) n eps ≠ [] := by
  refine (searchLoop_inv (J := fun b => b.Ok (fun _ => True) ef ∧ b.results ≠ []) ?_ n
    ⟨Beam.ok_empty.foldl_enter fun _ _ => trivial,
      Beam.ok_empty.ne_nil_foldl_enter hef (fun _ _ => trivial) (.inr ⟨rfl, heps⟩)⟩).2
  rintro b c b' ⟨hb, hne⟩ hpop
  refine ⟨hb.expand (fun _ _ _ _ => trivial) hpop, ?_⟩
  obtain ⟨-, -, -, hresults⟩ := Beam.of_pop hpop
  exact (hb.pop hpop).2.ne_nil_foldl_visit hef (fun _ _ => trivial) (hresults ▸ hne)

/-- **An invariant of the whole search** that marks, pushes and pops keep. -/
theorem finalBeam_inv {J : Beam → Prop} (hempty : J Beam.empty)
    (hmark : ∀ b x, J b → J (b.mark x))
    (hpush : ∀ b x, J b → J ((b.mark x).push ef dist admits x))
    (hpop : ∀ b c b', J b → b.pop ef = some (c, b') → J b') :
    J (finalBeam neighbors ef dist admits n eps) := by
  refine searchLoop_inv (J := J) (fun b c b' hb h => ?_) n ?_
  · refine List.foldlRecOn (motive := J) (neighbors c) _ (hpop b c b' hb h) fun b hb x _ => ?_
    rw [Beam.visit]
    split
    · exact hb
    · split
      exacts [hpush b x hb, hmark b x hb]
  · refine List.foldlRecOn (motive := J) eps _ hempty fun b hb x _ => ?_
    rw [Beam.enter]
    split
    exacts [hb, hpush b x hb]

/-- Every result of a search was admitted, and carries its distance. -/
theorem keyed_of_mem_searchLayer {key : F32 × ℕ}
    (h : key ∈ searchLayer neighbors ef dist admits n eps) :
    key.1 = dist key.2 ∧ admits key.2 = true := by
  let J (b : Beam) : Prop := ∀ key ∈ b.results, key.1 = dist key.2 ∧ admits key.2 = true
  refine finalBeam_inv (J := J) (fun _ h => absurd h List.not_mem_nil)
    (fun b x hb => hb) ?_ ?_ key h
  · intro b x hb key hkey
    change key ∈ (if admits x then pushResult ef b.results (dist x, x) else b.results) at hkey
    split at hkey
    · rcases List.mem_cons.mp (pushResult_subperm.subset hkey) with rfl | hkey
      exacts [⟨rfl, ‹_›⟩, hb key hkey]
    · exact hb key hkey
  · intro b c b' hb hpop
    obtain ⟨-, -, -, hresults⟩ := Beam.of_pop hpop
    exact fun key hkey => hb key (hresults ▸ hkey)

end Found

end Vecvec.Hnsw
