import Vecvec.Hnsw.Search
import Mathlib.Logic.Function.Basic

/-!
# Hnsw/Wired — the points of a build, and well-formed links between them

What both builders work on: the points, each with its level, and a distance between any two of them.
A builder only ever replaces one point's links on one layer, by links cut down to the layer's degree
bound, and such a step keeps the links well formed (`Wired.setLinks`).
-/

namespace Vecvec.Hnsw

/-- `MAX_LEVEL`: the clamp on the levels assigned. -/
def maxAssignedLevel : ℕ := 16

/-- The adjacency a builder holds: a list for each point and layer. -/
abbrev Links := ℕ → ℕ → List ℕ

/-- The points of a build: a row number is a `u32`. -/
structure Points where
  /-- The level assigned to each point. -/
  levels : List ℕ
  /-- Construction distance between two points: smaller is closer. -/
  dist : ℕ → ℕ → F32
  /-- Every point has an id. -/
  fits : levels.length < 2 ^ 32
  /-- Levels are clamped. -/
  clamped : ∀ level ∈ levels, level ≤ maxAssignedLevel

namespace Points

/-- The number of points. -/
def size (pts : Points) : ℕ := pts.levels.length

/-- The level of a point. -/
def level (pts : Points) (p : ℕ) : ℕ := pts.levels.getD p 0

theorem getElem?_levels (pts : Points) {p : ℕ} (hp : p < pts.size) :
    pts.levels[p]? = some (pts.level p) := by
  rw [level, List.getD_eq_getElem?_getD, List.getElem?_eq_getElem hp, Option.getD_some]

/-- There are slots for the points that have upper layers. -/
theorem countP_levels_lt (pts : Points) : pts.levels.countP (0 < ·) < 2 ^ 32 :=
  List.countP_le_length.trans_lt pts.fits

end Points

/-- Replaces one point's links on one layer. -/
def setLinks (links : Links) (p layer : ℕ) (l : List ℕ) : Links :=
  Function.update links p (Function.update (links p) layer l)

@[simp] theorem setLinks_self (links : Links) (p layer : ℕ) (l : List ℕ) :
    setLinks links p layer l p layer = l := by
  rw [setLinks, Function.update_self, Function.update_self]

theorem setLinks_of_ne {links : Links} {p layer : ℕ} {l : List ℕ} {q layer' : ℕ}
    (h : ¬ (q = p ∧ layer' = layer)) : setLinks links p layer l q layer' = links q layer' := by
  rw [setLinks]
  by_cases hq : q = p
  · subst hq
    rw [Function.update_self, Function.update_of_ne fun hl => h ⟨rfl, hl⟩]
  · rw [Function.update_of_ne hq]

section

variable (config : HnswConfig) (pts : Points)

/-- A list cut down to the degree bound, by selecting again among its members. -/
def shrink (base layer : ℕ) (list : List ℕ) : List ℕ :=
  if config.maxConn layer < list.length then
    selectNeighbors pts.dist base (candidatesTo pts.dist base list) (config.maxConn layer)
      config.keepPruned
  else list

/-- **Well-formed links** between the points of `S`: within the degree bounds, without loops or
repetitions, and on a layer only between points that reach it. -/
structure Wired (S : ℕ → Prop) (links : Links) : Prop where
  /-- The degree bounds. -/
  degree : ∀ p layer, (links p layer).length ≤ config.maxConn layer
  /-- No point is linked to twice. -/
  nodup : ∀ p layer, (links p layer).Nodup
  /-- No point is linked to itself. -/
  loopless : ∀ p layer, p ∉ links p layer
  /-- A neighbour is there, and on the layer. -/
  present : ∀ p layer, ∀ q ∈ links p layer, S q ∧ layer ≤ pts.level q
  /-- So is a point with neighbours. -/
  owner : ∀ p layer, links p layer ≠ [] → S p ∧ layer ≤ pts.level p

end

variable {config : HnswConfig} {pts : Points} {S T : ℕ → Prop} {links : Links}

/-! ## Cutting a list down -/

section Shrink

variable {base layer : ℕ} {list : List ℕ}

theorem length_shrink_le :
    (shrink config pts base layer list).length ≤ config.maxConn layer := by
  rw [shrink]
  split
  · exact length_selectNeighbors_le
  · exact Nat.not_lt.mp ‹_›

theorem nodup_shrink (h : list.Nodup) : (shrink config pts base layer list).Nodup := by
  rw [shrink]
  split
  · exact nodup_selectNeighbors (by rwa [map_snd_candidatesTo])
  · exact h

theorem mem_of_mem_shrink {q : ℕ} (h : q ∈ shrink config pts base layer list) : q ∈ list := by
  rw [shrink] at h
  split at h
  · have := (mem_selectNeighbors h).2
    rwa [map_snd_candidatesTo] at this
  · exact h

/-- What is left of links to other points is not empty. -/
theorem shrink_ne_nil (hm : 1 ≤ config.maxConn layer) (hne : list ≠ []) (hbase : base ∉ list) :
    shrink config pts base layer list ≠ [] := by
  rw [shrink]
  split
  · obtain ⟨q, hq⟩ := List.exists_mem_of_ne_nil list hne
    refine selectNeighbors_ne_nil hm ⟨(pts.dist base q, q), ?_, fun h => hbase (h ▸ hq)⟩
    exact List.mem_map.mpr ⟨q, hq, rfl⟩
  · exact hne

/-- Within the bound nothing is cut. -/
theorem shrink_eq_self (h : list.length ≤ config.maxConn layer) :
    shrink config pts base layer list = list := if_neg (Nat.not_lt.mpr h)

end Shrink

/-! ## Steps that keep links well formed -/

theorem wired_empty : Wired config pts S fun _ _ => [] where
  degree _ _ := Nat.zero_le _
  nodup _ _ := List.nodup_nil
  loopless _ _ := List.not_mem_nil
  present _ _ _ h := absurd h List.not_mem_nil
  owner _ _ h := absurd rfl h

theorem Wired.mono (h : Wired config pts S links) (hST : ∀ p, S p → T p) :
    Wired config pts T links where
  degree := h.degree
  nodup := h.nodup
  loopless := h.loopless
  present p layer q hq := (h.present p layer q hq).imp_left (hST q)
  owner p layer hne := (h.owner p layer hne).imp_left (hST p)

/-- **Replacing one point's links** on one layer, by links cut down to the bound. -/
theorem Wired.setLinks (h : Wired config pts S links) {p layer : ℕ} {list : List ℕ}
    (hnodup : list.Nodup) (hself : p ∉ list) (hlist : ∀ q ∈ list, S q ∧ layer ≤ pts.level q)
    (hp : S p ∧ layer ≤ pts.level p) :
    Wired config pts S (Hnsw.setLinks links p layer (shrink config pts p layer list)) := by
  have hcases (φ : ℕ → ℕ → List ℕ → Prop) (hset : φ p layer (shrink config pts p layer list))
      (hold : ∀ q l, φ q l (links q l)) (q l : ℕ) :
      φ q l (Hnsw.setLinks links p layer (shrink config pts p layer list) q l) := by
    by_cases hq : q = p ∧ l = layer
    · obtain ⟨rfl, rfl⟩ := hq
      rwa [setLinks_self]
    · rw [setLinks_of_ne hq]
      exact hold q l
  constructor
  · exact hcases (fun _ l list => list.length ≤ config.maxConn l) length_shrink_le h.degree
  · exact hcases (fun _ _ list => list.Nodup) (nodup_shrink hnodup) h.nodup
  · exact hcases (fun q _ list => q ∉ list) (fun hmem => hself (mem_of_mem_shrink hmem)) h.loopless
  · exact hcases (fun _ l list => ∀ x ∈ list, S x ∧ l ≤ pts.level x)
      (fun x hx => hlist x (mem_of_mem_shrink hx)) h.present
  · exact hcases (fun q l list => list ≠ [] → S q ∧ l ≤ pts.level q) (fun _ => hp) h.owner

/-- The links on a layer do not leave the points that reach it. -/
theorem Wired.closed (h : Wired config pts S links) (layer : ℕ) :
    ∀ c, S c ∧ layer ≤ pts.level c → ∀ x ∈ links c layer, S x ∧ layer ≤ pts.level x :=
  fun c _ x hx => h.present c layer x hx

end Vecvec.Hnsw
