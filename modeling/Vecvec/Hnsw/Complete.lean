import Vecvec.Hnsw.Search
import Vecvec.Index.Exact
import Mathlib.Data.Set.Card

/-!
# Hnsw/Complete — what a layer search does not miss

A beam turns a neighbour away, and the search stops early, only when the beam is full.  **Until then
every link is followed and every admitted point kept** (`Beam.Wide`).  So a search that ends with a
beam that is not full has found all there is; one that ends with a full beam has found `ef`
(`length_searchLayer`).
-/

namespace Vecvec.Hnsw

variable {neighbors : ℕ → List ℕ} {ef : ℕ} {dist : ℕ → F32} {admits : ℕ → Bool} {n : ℕ}
  {φ ψ : ℕ → Prop} {b : Beam}

/-! ## Results are not lost to the count -/

theorem Beam.Ok.length_results_markPush_le (hb : b.Ok φ ef) (x : ℕ) :
    b.results.length ≤ ((b.mark x).push ef dist admits x).results.length := by
  change b.results.length ≤
    (if admits x then pushResult ef b.results (dist x, x) else b.results : List _).length
  split
  · rw [length_pushResult hb.width]
    exact le_min hb.width (Nat.le_succ _)
  · exact le_rfl

theorem Beam.Ok.length_results_visit_le (hb : b.Ok φ ef) (x : ℕ) :
    b.results.length ≤ (b.visit ef dist admits x).results.length := by
  rw [Beam.visit]
  split
  · exact le_rfl
  · split
    exacts [hb.length_results_markPush_le x, le_rfl]

theorem Beam.Ok.length_results_enter_le (hb : b.Ok φ ef) (x : ℕ) :
    b.results.length ≤ (b.enter ef dist admits x).results.length := by
  rw [Beam.enter]
  split
  exacts [le_rfl, hb.length_results_markPush_le x]

theorem Beam.Ok.length_results_foldl_visit_le {l : List ℕ} (hb : b.Ok φ ef) (hl : ∀ x ∈ l, φ x) :
    b.results.length ≤ (l.foldl (Beam.visit ef dist admits) b).results.length := by
  induction l generalizing b with
  | nil => exact le_rfl
  | cons x l ih =>
    obtain ⟨hx, hl⟩ := List.forall_mem_cons.mp hl
    exact (hb.length_results_visit_le x).trans (ih (hb.visit hx) hl)

theorem Beam.Ok.length_results_foldl_enter_le {l : List ℕ} (hb : b.Ok φ ef) (hl : ∀ x ∈ l, φ x) :
    b.results.length ≤ (l.foldl (Beam.enter ef dist admits) b).results.length := by
  induction l generalizing b with
  | nil => exact le_rfl
  | cons x l ih =>
    obtain ⟨hx, hl⟩ := List.forall_mem_cons.mp hl
    exact (hb.length_results_enter_le x).trans (ih (hb.enter hx) hl)

/-! ## A beam that is not full -/

/-- Every admitted point visited is a result, and every point visited but those of `ψ` is on the
frontier or has all its neighbours visited. -/
structure Beam.Wide (neighbors : ℕ → List ℕ) (admits : ℕ → Bool) (ψ : ℕ → Prop) (b : Beam) :
    Prop where
  /-- No admitted point is lost. -/
  kept : ∀ x ∈ b.visited, admits x = true → x ∈ b.results.map Prod.snd
  /-- The links of a point have been followed, or will be. -/
  followed : ∀ x ∈ b.visited, ψ x ∨ x ∈ b.candidates.map Prod.snd ∨
    ∀ y ∈ neighbors x, y ∈ b.visited

/-- A push with room for one more loses nothing. -/
theorem Beam.Wide.markPush (hw : b.Wide neighbors admits ψ) {x : ℕ} (hlt : b.results.length < ef) :
    ((b.mark x).push ef dist admits x).Wide neighbors admits ψ := by
  have hkeep : pushResult ef b.results (dist x, x) = b.results.orderedInsert keyLe (dist x, x) := by
    rw [pushResult, if_neg]
    rw [List.orderedInsert_length]
    exact Nat.not_lt.mpr hlt
  have hcands : ∀ y, y ∈ b.candidates.map Prod.snd ∨ y = x →
      y ∈ ((b.mark x).push ef dist admits x).candidates.map Prod.snd := by
    rintro y (hy | rfl)
    · obtain ⟨key, hkey, rfl⟩ := List.mem_map.mp hy
      exact List.mem_map_of_mem ((List.mem_orderedInsert keyLe).mpr (.inr hkey))
    · exact List.mem_map_of_mem (a := (dist y, y)) ((List.mem_orderedInsert keyLe).mpr (.inl rfl))
  constructor
  · intro y hy hadm
    change y ∈ ((if admits x then pushResult ef b.results (dist x, x) else b.results) :
      List (F32 × ℕ)).map Prod.snd
    rcases List.mem_cons.mp hy with rfl | hy
    · rw [if_pos hadm, hkeep]
      exact List.mem_map_of_mem (a := (dist y, y)) ((List.mem_orderedInsert keyLe).mpr (.inl rfl))
    · obtain ⟨key, hkey, rfl⟩ := List.mem_map.mp (hw.kept y hy hadm)
      split
      · rw [hkeep]
        exact List.mem_map_of_mem ((List.mem_orderedInsert keyLe).mpr (.inr hkey))
      · exact List.mem_map_of_mem hkey
  · intro y hy
    rcases List.mem_cons.mp hy with rfl | hy
    · exact .inr (.inl (hcands y (.inr rfl)))
    · rcases hw.followed y hy with h | h | h
      · exact .inl h
      · exact .inr (.inl (hcands y (.inl h)))
      · exact .inr (.inr fun z hz => List.mem_cons_of_mem _ (h z hz))

theorem Beam.Wide.visit (hw : b.Wide neighbors admits ψ) (hlt : b.results.length < ef) (x : ℕ) :
    (b.visit ef dist admits x).Wide neighbors admits ψ ∧
      x ∈ (b.visit ef dist admits x).visited := by
  rw [Beam.visit]
  split
  · exact ⟨hw, ‹_›⟩
  · rw [if_pos]
    · exact ⟨hw.markPush hlt, List.mem_cons_self⟩
    · rw [Beam.explores]
      split
      · rw [decide_eq_true hlt, Bool.true_or]
      · rfl

theorem Beam.Wide.enter (hw : b.Wide neighbors admits ψ) (hlt : b.results.length < ef) (x : ℕ) :
    (b.enter ef dist admits x).Wide neighbors admits ψ ∧
      x ∈ (b.enter ef dist admits x).visited := by
  rw [Beam.enter]
  split
  exacts [⟨hw, ‹_›⟩, ⟨hw.markPush hlt, List.mem_cons_self⟩]

theorem Beam.mem_visited_enter {x y : ℕ} (h : y ∈ b.visited) :
    y ∈ (b.enter ef dist admits x).visited := by
  rw [Beam.enter]
  split
  exacts [h, List.mem_cons_of_mem _ h]

theorem Beam.mem_visited_foldl_enter {l : List ℕ} {y : ℕ} (h : y ∈ b.visited) :
    y ∈ (l.foldl (Beam.enter ef dist admits) b).visited := by
  induction l generalizing b with
  | nil => exact h
  | cons x l ih => exact ih (mem_visited_enter h)

/-- **All neighbours of a point are visited**, if the beam is not full afterwards. -/
theorem Beam.Ok.wide_foldl_visit {l : List ℕ} (hb : b.Ok φ ef) (hl : ∀ x ∈ l, φ x)
    (hw : b.Wide neighbors admits ψ)
    (hlt : (l.foldl (Beam.visit ef dist admits) b).results.length < ef) :
    (l.foldl (Beam.visit ef dist admits) b).Wide neighbors admits ψ ∧
      ∀ y ∈ l, y ∈ (l.foldl (Beam.visit ef dist admits) b).visited := by
  induction l generalizing b with
  | nil => exact ⟨hw, fun y hy => absurd hy List.not_mem_nil⟩
  | cons x l ih =>
    obtain ⟨hx, hl'⟩ := List.forall_mem_cons.mp hl
    have hroom := (hb.length_results_foldl_visit_le hl).trans_lt hlt
    obtain ⟨hw', hmem⟩ := @Beam.Wide.visit neighbors ef dist admits ψ b hw hroom x
    obtain ⟨hw'', hall⟩ := ih (hb.visit hx) hl' hw' hlt
    exact ⟨hw'', List.forall_mem_cons.mpr ⟨mem_visited_foldl_visit (l := l) hmem, hall⟩⟩

theorem Beam.Ok.wide_foldl_enter {l : List ℕ} (hb : b.Ok φ ef) (hl : ∀ x ∈ l, φ x)
    (hw : b.Wide neighbors admits ψ)
    (hlt : (l.foldl (Beam.enter ef dist admits) b).results.length < ef) :
    (l.foldl (Beam.enter ef dist admits) b).Wide neighbors admits ψ ∧
      ∀ y ∈ l, y ∈ (l.foldl (Beam.enter ef dist admits) b).visited := by
  induction l generalizing b with
  | nil => exact ⟨hw, fun y hy => absurd hy List.not_mem_nil⟩
  | cons x l ih =>
    obtain ⟨hx, hl'⟩ := List.forall_mem_cons.mp hl
    have hroom := (hb.length_results_foldl_enter_le hl).trans_lt hlt
    obtain ⟨hw', hmem⟩ := @Beam.Wide.enter neighbors ef dist admits ψ b hw hroom x
    obtain ⟨hw'', hall⟩ := ih (hb.enter hx) hl' hw' hlt
    exact ⟨hw'', List.forall_mem_cons.mpr ⟨mem_visited_foldl_enter (l := l) hmem, hall⟩⟩

/-- **An expansion follows all links** of the point popped, if the beam is not full afterwards. -/
theorem Beam.Ok.wide_expand (hb : b.Ok φ ef) (hclosed : ∀ c, φ c → ∀ x ∈ neighbors c, φ x)
    {b' : Beam} {c : ℕ} (h : b.pop ef = some (c, b'))
    (hlt : ((neighbors c).foldl (Beam.visit ef dist admits) b').results.length < ef)
    (hw : b.Wide neighbors admits fun _ => False) :
    ((neighbors c).foldl (Beam.visit ef dist admits) b').Wide neighbors admits fun _ => False := by
  obtain ⟨hc, hb'⟩ := hb.pop h
  obtain ⟨d, hcands, hvisited, hresults⟩ := Beam.of_pop h
  have hw' : b'.Wide neighbors admits (· = c) := by
    constructor
    · exact hvisited ▸ hresults ▸ hw.kept
    · intro x hx
      rcases hw.followed x (hvisited ▸ hx) with h | h | h
      · exact h.elim
      · rw [hcands, List.map_cons, List.mem_cons] at h
        exact h.imp_right .inl
      · exact .inr (.inr (hvisited.symm ▸ h))
  obtain ⟨hfold, hall⟩ := hb'.wide_foldl_visit (hclosed c hc) hw' hlt
  refine ⟨hfold.kept, fun x hx => ?_⟩
  rcases hfold.followed x hx with rfl | h
  exacts [.inr (.inr hall), .inr h]

/-! ## The whole search -/

section Whole

variable {eps : List ℕ}

/-- A push keeps the results ascending. -/
theorem pairwise_pushResult {results : List (F32 × ℕ)} (h : results.Pairwise keyLe)
    (key : F32 × ℕ) : (pushResult ef results key).Pairwise keyLe := by
  rw [pushResult]
  split
  exacts [(h.orderedInsert key).sublist (List.dropLast_sublist _), h.orderedInsert key]

/-- **The results are sorted**, the best first. -/
theorem pairwise_searchLayer : (searchLayer neighbors ef dist admits n eps).Pairwise keyLe := by
  refine finalBeam_inv (J := fun b => b.results.Pairwise keyLe) List.Pairwise.nil
    (fun b x hb => hb) (fun b x hb => ?_) fun b c b' hb hpop => ?_
  · change (if admits x then pushResult ef b.results (dist x, x) else b.results).Pairwise keyLe
    split
    exacts [pairwise_pushResult hb _, hb]
  · obtain ⟨-, -, -, hresults⟩ := Beam.of_pop hpop
    exact (congrArg (List.Pairwise keyLe) hresults).mpr hb

/-- The search ends because nothing is left to do. -/
theorem pop_finalBeam (hφ : ∀ x, φ x → x < n) (hclosed : ∀ c, φ c → ∀ x ∈ neighbors c, φ x)
    (heps : ∀ e ∈ eps, φ e) : (finalBeam neighbors ef dist admits n eps).pop ef = none :=
  pop_searchLoop hφ hclosed (Beam.ok_empty.foldl_enter heps)
    ((Beam.ok_empty.room_foldl_enter_le hφ heps).trans_eq
      (by rw [Beam.room, Beam.empty, List.length_nil]; rfl))

/-- **A search whose beam is not full** at the end has lost nothing. -/
theorem wide_finalBeam (hclosed : ∀ c, φ c → ∀ x ∈ neighbors c, φ x) (heps : ∀ e ∈ eps, φ e)
    (hlt : (searchLayer neighbors ef dist admits n eps).length < ef) :
    (finalBeam neighbors ef dist admits n eps).Wide neighbors admits (fun _ => False) ∧
      ∀ e ∈ eps, e ∈ (finalBeam neighbors ef dist admits n eps).visited := by
  let J (b : Beam) : Prop := b.Ok φ ef ∧ (b.results.length < ef →
    b.Wide neighbors admits (fun _ => False) ∧ ∀ e ∈ eps, e ∈ b.visited)
  have hempty : Beam.empty.Wide neighbors admits fun _ => False :=
    ⟨fun _ h => absurd h List.not_mem_nil, fun _ h => absurd h List.not_mem_nil⟩
  have hJ : J (finalBeam neighbors ef dist admits n eps) := by
    refine searchLoop_inv (J := J) ?_ n ⟨Beam.ok_empty.foldl_enter heps,
      Beam.ok_empty.wide_foldl_enter heps hempty⟩
    rintro b c b' ⟨hok, hw⟩ hpop
    obtain ⟨hc, hok'⟩ := hok.pop hpop
    obtain ⟨-, -, hvisited, hresults⟩ := Beam.of_pop hpop
    refine ⟨hok.expand hclosed hpop, fun hlt => ?_⟩
    have hroom := (hok'.length_results_foldl_visit_le (hclosed c hc)).trans_lt hlt
    obtain ⟨hwide, hmem⟩ := hw (hresults ▸ hroom)
    exact ⟨hok.wide_expand hclosed hpop hlt hwide, fun e he =>
      Beam.mem_visited_foldl_visit (hvisited ▸ hmem e he)⟩
  exact hJ.2 hlt

/-- The points that the links lead to from some entry point. -/
def Reaches (neighbors : ℕ → List ℕ) (eps : List ℕ) (x : ℕ) : Prop :=
  ∃ e ∈ eps, Relation.ReflTransGen (fun a b => b ∈ neighbors a) e x

theorem Reaches.ok (hclosed : ∀ c, φ c → ∀ x ∈ neighbors c, φ x) (heps : ∀ e ∈ eps, φ e) {x : ℕ}
    (h : Reaches neighbors eps x) : φ x := by
  obtain ⟨e, he, hreach⟩ := h
  induction hreach with
  | refl => exact heps e he
  | tail _ hstep ih => exact hclosed _ ih _ hstep

/-- **A search stays** among the points its links lead to. -/
theorem reaches_of_mem_searchLayer {key : F32 × ℕ}
    (h : key ∈ searchLayer neighbors ef dist admits n eps) : Reaches neighbors eps key.2 :=
  of_mem_searchLayer (φ := Reaches neighbors eps) (fun _ ⟨e, he, hc⟩ _ hx => ⟨e, he, hc.tail hx⟩)
    (fun e he => ⟨e, he, .refl⟩) h

/-- **A beam that is not full at the end** holds every admitted point that can be reached. -/
theorem mem_searchLayer_of_lt (hφ : ∀ x, φ x → x < n)
    (hclosed : ∀ c, φ c → ∀ x ∈ neighbors c, φ x) (heps : ∀ e ∈ eps, φ e)
    (hlt : (searchLayer neighbors ef dist admits n eps).length < ef) {x : ℕ}
    (hreach : Reaches neighbors eps x) (hx : admits x = true) :
    x ∈ (searchLayer neighbors ef dist admits n eps).map Prod.snd := by
  obtain ⟨hwide, hmem⟩ := wide_finalBeam hclosed heps hlt
  have hend := @pop_finalBeam neighbors ef dist admits n φ eps hφ hclosed heps
  rw [searchLayer_eq] at hlt ⊢
  refine hwide.kept x ?_ hx
  generalize finalBeam neighbors ef dist admits n eps = b at *
  -- nothing is left on the frontier, so the points visited are closed under the links
  have hcands : b.candidates = [] := by
    rw [Beam.pop] at hend
    split at hend
    · assumption
    · split at hend
      · rw [if_neg fun h => hlt.not_ge h.1] at hend
        cases hend
      · cases hend
  obtain ⟨e, he, hreach⟩ := hreach
  clear hx
  induction hreach with
  | refl => exact hmem e he
  | tail _ hstep ih =>
    rcases hwide.followed _ ih with h | h | h
    · exact h.elim
    · rw [hcands] at h
      exact absurd h List.not_mem_nil
    · exact h _ hstep

/-- The points found are as many as the results, -/
theorem ncard_found :
    {x | x ∈ (searchLayer neighbors ef dist admits n eps).map Prod.snd}.ncard =
      (searchLayer neighbors ef dist admits n eps).length := by
  have hcoe : {x | x ∈ (searchLayer neighbors ef dist admits n eps).map Prod.snd} =
      (((searchLayer neighbors ef dist admits n eps).map Prod.snd).toFinset : Set ℕ) :=
    (List.coe_toFinset _).symm
  rw [hcoe, Set.ncard_coe_finset, List.toFinset_card_of_nodup nodup_searchLayer, List.length_map]

/-- and are admitted points that the search can reach, -/
theorem found_subset : {x | x ∈ (searchLayer neighbors ef dist admits n eps).map Prod.snd} ⊆
    {x | admits x = true ∧ Reaches neighbors eps x} := by
  intro x hx
  obtain ⟨key, hkey, rfl⟩ := List.mem_map.mp hx
  exact ⟨(keyed_of_mem_searchLayer hkey).2, reaches_of_mem_searchLayer hkey⟩

/-- of which there are finitely many. -/
theorem finite_reached (hφ : ∀ x, φ x → x < n) (hclosed : ∀ c, φ c → ∀ x ∈ neighbors c, φ x)
    (heps : ∀ e ∈ eps, φ e) : {x | admits x = true ∧ Reaches neighbors eps x}.Finite :=
  (Set.finite_lt_nat n).subset fun x hx => hφ x (hx.2.ok hclosed heps)

/-- **How many a search finds**: all the admitted points it can reach, or as many as the beam is
wide. -/
theorem length_searchLayer (hφ : ∀ x, φ x → x < n) (hclosed : ∀ c, φ c → ∀ x ∈ neighbors c, φ x)
    (heps : ∀ e ∈ eps, φ e) : (searchLayer neighbors ef dist admits n eps).length =
      min ef {x | admits x = true ∧ Reaches neighbors eps x}.ncard := by
  have hwidth : (searchLayer neighbors ef dist admits n eps).length ≤ ef :=
    (ok_finalBeam hclosed heps).width
  have hle : {x | x ∈ (searchLayer neighbors ef dist admits n eps).map Prod.snd}.ncard ≤
      {x | admits x = true ∧ Reaches neighbors eps x}.ncard :=
    Set.ncard_le_ncard found_subset (finite_reached hφ hclosed heps)
  rw [ncard_found] at hle
  rcases hwidth.lt_or_eq with hlt | heq
  · have hall : {x | admits x = true ∧ Reaches neighbors eps x} ⊆
        {x | x ∈ (searchLayer neighbors ef dist admits n eps).map Prod.snd} :=
      fun x hx => mem_searchLayer_of_lt hφ hclosed heps hlt hx.2 hx.1
    have hge := Set.ncard_le_ncard hall (List.finite_toSet _)
    rw [ncard_found] at hge
    omega
  · omega

/-- **A beam with room for all** that a search can reach ends up with all of it. -/
theorem mem_searchLayer_of_ncard_le (hφ : ∀ x, φ x → x < n)
    (hclosed : ∀ c, φ c → ∀ x ∈ neighbors c, φ x) (heps : ∀ e ∈ eps, φ e)
    (hle : {x | admits x = true ∧ Reaches neighbors eps x}.ncard ≤ ef) {x : ℕ}
    (hx : admits x = true) (hreach : Reaches neighbors eps x) :
    (dist x, x) ∈ searchLayer neighbors ef dist admits n eps := by
  have hlen : (searchLayer neighbors ef dist admits n eps).length =
      {x | admits x = true ∧ Reaches neighbors eps x}.ncard :=
    (length_searchLayer hφ hclosed heps).trans (min_eq_right hle)
  have hall := Set.eq_of_subset_of_ncard_le found_subset (ncard_found.trans hlen).ge
    (finite_reached hφ hclosed heps)
  have hmem : x ∈ (searchLayer neighbors ef dist admits n eps).map Prod.snd :=
    hall.ge ⟨hx, hreach⟩
  obtain ⟨key, hkey, rfl⟩ := List.mem_map.mp hmem
  rwa [← (keyed_of_mem_searchLayer hkey).1]

/-- **A search with a beam as wide as the graph finds everything** it admits that the links lead to
from its entry points. -/
theorem mem_searchLayer_of_reachable (hφ : ∀ x, φ x → x < n) (hn : n ≤ ef)
    (hclosed : ∀ c, φ c → ∀ x ∈ neighbors c, φ x) (heps : ∀ e ∈ eps, φ e) {e x : ℕ}
    (he : e ∈ eps) (hreach : Relation.ReflTransGen (fun a b => b ∈ neighbors a) e x)
    (hx : admits x = true) : x ∈ (searchLayer neighbors ef dist admits n eps).map Prod.snd := by
  have hle : {x | admits x = true ∧ Reaches neighbors eps x}.ncard ≤ n := by
    have hsub : {x | admits x = true ∧ Reaches neighbors eps x} ⊆ (Finset.range n : Set ℕ) :=
      fun x hx => Finset.mem_coe.mpr (Finset.mem_range.mpr (hφ x (hx.2.ok hclosed heps)))
    refine (Set.ncard_le_ncard hsub (Finset.range n).finite_toSet).trans_eq ?_
    rw [Set.ncard_coe_finset, Finset.card_range]
  exact List.mem_map_of_mem (f := Prod.snd)
    (mem_searchLayer_of_ncard_le hφ hclosed heps (hle.trans hn) hx ⟨e, he, hreach⟩)

end Whole

end Vecvec.Hnsw
