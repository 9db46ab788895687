import Vecvec.Hnsw.Parallel

/-!
# Hnsw/Sealed — a sealed graph against the builder it came from

Both builders keep a point's lists in a vector, one list for each of its layers, and read them with
`get`: a layer above the point's own has no links.  **Sealing keeps what is read**
(`neighbors_sealed`), on every layer of every point.
-/

namespace Vecvec.Hnsw

/-- `self.links[point].get(layer)`: the links in the nested vectors of a builder; `none` is an index
out of range. -/
def nestedNeighbors (levels : List ℕ) (links : Links) (point layer : ℕ) : Option (List ℕ) :=
  (nested levels links)[point]?.map fun pointLinks => pointLinks.getD layer []

/-- The neighbours of a point, as the builder reads them. -/
def GraphLayersBuilder.neighbors (pts : Points) (b : GraphLayersBuilder) :
    ℕ → ℕ → Option (List ℕ) := nestedNeighbors pts.levels b.links

/-- …and with the locks of the concurrent builder taken off. -/
def ConcurrentBuilder.neighbors (pts : Points) (s : ConcurrentBuilder) :
    ℕ → ℕ → Option (List ℕ) := nestedNeighbors pts.levels s.links

/-- Links that can be numbered: those of layer 0, and the points that have others. -/
structure Numbered (levels : List ℕ) (links : Links) : Prop where
  base : baseLinks links levels.length < 2 ^ 32
  upper : levels.countP (0 < ·) < 2 ^ 32 - 1

/-- A graph that reads as the nested vectors do, on every layer of every point. -/
def ReadsAs (g : GraphLayers) (levels : List ℕ) (links : Links) : Prop :=
  ∀ p level, levels[p]? = some level → ∀ layer,
    g.neighbors p layer = nestedNeighbors levels links p layer ∧
      nestedNeighbors levels links p layer = some (if layer ≤ level then links p layer else [])

variable {levels : List ℕ} {links : Links} {entry : Option ℕ} {maxLevel : ℕ}

/-- A builder's own reading. -/
theorem nestedNeighbors_eq {p level : ℕ} (hp : levels[p]? = some level) (layer : ℕ) :
    nestedNeighbors levels links p layer =
      some (if layer ≤ level then links p layer else []) := by
  rw [nestedNeighbors, nested, List.getElem?_map, List.getElem?_zipIdx, hp, Option.map_some,
    Option.map_some, Option.map_some, List.getD_eq_getElem?_getD, List.getElem?_map, Nat.zero_add]
  by_cases hle : layer ≤ level
  · rw [List.getElem?_range (Nat.lt_succ_of_le hle), if_pos hle]
    rfl
  · rw [List.getElem?_eq_none (by rw [List.length_range]; omega), if_neg hle]
    rfl

theorem readsAs_intoGraphLayers (h : Numbered levels links) :
    ReadsAs (intoGraphLayers levels links entry maxLevel) levels links := by
  intro p level hp layer
  have hupper : levels.countP (0 < ·) < 2 ^ 32 := h.upper.trans (Nat.sub_lt (by decide) Nat.one_pos)
  rw [nestedNeighbors_eq hp, neighbors_intoGraphLayers hupper h.base hp]
  exact ⟨rfl, rfl⟩

/-- **Sealing keeps every neighbour list**, whichever builder is sealed and in whatever state: no
index is out of range, and a point has no links on the layers above its own. -/
theorem neighbors_sealed :
    (∀ levels links entry maxLevel, Numbered levels links →
      ReadsAs (intoGraphLayers levels links entry maxLevel) levels links) ∧
    (∀ (pts : Points) (b : GraphLayersBuilder), Numbered pts.levels b.links →
      ∀ p < pts.size, ∀ layer, (b.intoGraphLayers pts).neighbors p layer = b.neighbors pts p layer ∧
        b.neighbors pts p layer = some (if layer ≤ pts.level p then b.links p layer else [])) ∧
    ∀ (pts : Points) (s : ConcurrentBuilder), Numbered pts.levels s.links →
      ∀ p < pts.size, ∀ layer, (s.intoGraphLayers pts).neighbors p layer = s.neighbors pts p layer ∧
        s.neighbors pts p layer = some (if layer ≤ pts.level p then s.links p layer else []) :=
  ⟨fun _ _ _ _ h => readsAs_intoGraphLayers h,
    fun pts _ h _ hp => readsAs_intoGraphLayers h _ _ (pts.getElem?_levels hp),
    fun pts _ h _ hp => readsAs_intoGraphLayers h _ _ (pts.getElem?_levels hp)⟩

/-- Points with no upper layers among points that have some. -/
theorem neighbors_sealed_ladder :
    let links : Links := fun p layer => if p = 2 ∧
      layer = 1 then [1] else if layer = 0 then [p] else []
    Numbered [0, 2, 1, 0] links ∧
      (intoGraphLayers [0, 2, 1, 0] links none 2).neighbors 2 1 = some [1] := by
  intro links
  have h : Numbered [0, 2, 1, 0] links := ⟨by decide, by decide⟩
  exact ⟨h, (neighbors_sealed.1 _ links none 2 h 2 1 rfl 1).1.trans rfl⟩

end Vecvec.Hnsw
