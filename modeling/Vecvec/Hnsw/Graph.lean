import Vecvec.Hnsw.Wired
import Mathlib.Algebra.BigOperators.Group.List.Basic

/-!
# Hnsw/Graph — the sealed graph

Sealing flattens the adjacency lists a builder holds: layer 0 into one arena cut by offsets, the
upper layers into one entry for each point that has any.  The offsets and the slots are `u32`s.

* `neighbors_intoGraphLayers` — the sealed graph reads back as the lists it was made from, as long
as layer 0 has fewer than `2 ^ 32` links, and fewer than `2 ^ 32` points have upper layers.  *
`exists_neighbors_eq_none` — with more of them some point's links cannot be read at all.
-/

namespace Vecvec.Hnsw

/-- `u32::MAX`: the slot of a point without upper layers. -/
def noSlot : ℕ := 2 ^ 32 - 1

/-- An immutable graph. -/
structure GraphLayers where
  /-- Where searches start. -/
  entry : Option ℕ
  /-- The top layer. -/
  maxLevel : ℕ
  /-- The level of each point. -/
  levels : List ℕ
  /-- Where the links of each point start, and where the last ones end. -/
  l0Offsets : List ℕ
  /-- The links of layer 0. -/
  l0Links : List ℕ
  /-- The upper layers of the points that have any. -/
  upper : List (List (List ℕ))
  /-- Each point's slot in `upper`. -/
  upperIndex : List ℕ
  deriving DecidableEq

namespace GraphLayers

/-- `neighbors`: the links of a point on a layer, or (`none`) a panic — an index or a range that is
not there. -/
def neighbors (g : GraphLayers) (point layer : ℕ) : Option (List ℕ) :=
  if layer = 0 then do
    let start ← g.l0Offsets[point]?
    let stop ← g.l0Offsets[point + 1]?
    if start ≤ stop ∧ stop ≤ g.l0Links.length then some ((g.l0Links.drop start).take (stop - start))
    else none
  else do
    let slot ← g.upperIndex[point]?
    if slot = noSlot then some []
    else
      let layers ← g.upper[slot]?
      some (layers.getD (layer - 1) [])

end GraphLayers

/-! ## Sealing -/

/-- The loop over the lists of layer 0: the offsets and the arena. -/
def flattenBase : List (List (List ℕ)) → List ℕ → List ℕ → List ℕ × List ℕ
  | [], offsets, arena => (offsets, arena)
  | pointLinks :: rest, offsets, arena =>
    let arena := arena ++ pointLinks.head?.getD []
    flattenBase rest (offsets ++ [arena.length % 2 ^ 32]) arena

/-- The loop over the upper layers: the points that have any, and every point's slot. -/
def flattenUpper : List (List (List ℕ)) → List (List (List ℕ)) → List ℕ →
    List (List (List ℕ)) × List ℕ
  | [], upper, index => (upper, index)
  | pointLinks :: rest, upper, index =>
    if 1 < pointLinks.length then
      flattenUpper rest (upper ++ [pointLinks.drop 1]) (index ++ [upper.length % 2 ^ 32])
    else flattenUpper rest upper (index ++ [noSlot])

/-- The adjacency as the nested vectors of the source: `levels[p] + 1` lists for point `p`. -/
def nested (levels : List ℕ) (links : Links) : List (List (List ℕ)) :=
  levels.zipIdx.map fun lp => (List.range (lp.1 + 1)).map (links lp.2)

/-- `into_graph_layers`: flattens the adjacency. -/
def intoGraphLayers (levels : List ℕ) (links : Links) (entry : Option ℕ) (maxLevel : ℕ) :
    GraphLayers :=
  let base := flattenBase (nested levels links) [0] []
  let up := flattenUpper (nested levels links) [] []
  { entry, maxLevel, levels, l0Offsets := base.1, l0Links := base.2, upper := up.1,
    upperIndex := up.2 }

/-! ## What the sealed graph reads -/

/-- How many links the first `i` points have on layer 0. -/
def baseLinks (links : Links) (i : ℕ) : ℕ := ((List.range i).map fun p => (links p 0).length).sum

section

variable {levels : List ℕ} {links : Links} {entry : Option ℕ} {maxLevel : ℕ}

@[simp] theorem baseLinks_zero : baseLinks links 0 = 0 := rfl

theorem baseLinks_succ (i : ℕ) :
    baseLinks links (i + 1) = baseLinks links i + (links i 0).length := by
  rw [baseLinks, baseLinks, List.range_succ, List.map_append, List.sum_append, List.map_singleton,
    List.sum_singleton]

theorem baseLinks_mono {i j : ℕ} (h : i ≤ j) : baseLinks links i ≤ baseLinks links j := by
  induction h with
  | refl => exact le_rfl
  | step _ ih => exact ih.trans (by rw [baseLinks_succ]; exact Nat.le_add_right _ _)

/-- The arena, point by point. -/
def arena (links : Links) (i : ℕ) : List ℕ := (List.range i).flatMap fun p => links p 0

theorem arena_succ (i : ℕ) : arena links (i + 1) = arena links i ++ links i 0 := by
  rw [arena, arena, List.range_succ, List.flatMap_append, List.flatMap_singleton]

@[simp] theorem length_arena (i : ℕ) : (arena links i).length = baseLinks links i := by
  induction i with
  | zero => rfl
  | succ i ih => rw [arena_succ, List.length_append, ih, baseLinks_succ]

theorem nested_append_singleton (level : ℕ) :
    nested (levels ++ [level]) links =
      nested levels links ++ [(List.range (level + 1)).map (links levels.length)] := by
  rw [nested, nested, List.zipIdx_append, List.map_append]
  simp

theorem flattenBase_append (l l' : List (List (List ℕ))) (offsets a : List ℕ) :
    flattenBase (l ++ l') offsets a =
      flattenBase l' (flattenBase l offsets a).1 (flattenBase l offsets a).2 := by
  induction l generalizing offsets a with
  | nil => rfl
  | cons x l ih => exact ih _ _

theorem flattenUpper_append (l l' : List (List (List ℕ))) (up : List (List (List ℕ)))
    (index : List ℕ) : flattenUpper (l ++ l') up index =
      flattenUpper l' (flattenUpper l up index).1 (flattenUpper l up index).2 := by
  induction l generalizing up index with
  | nil => rfl
  | cons x l ih =>
    rw [List.cons_append, flattenUpper, flattenUpper]
    split <;> exact ih _ _

/-- **Layer 0 flattened**: the arena, and its length before each point as a `u32`. -/
theorem flattenBase_nested (levels : List ℕ) (links : Links) :
    flattenBase (nested levels links) [0] [] =
      ((List.range (levels.length + 1)).map fun i => baseLinks links i % 2 ^ 32,
        arena links levels.length) := by
  induction levels using List.reverseRecOn with
  | nil => rfl
  | append_singleton levels level ih =>
    rw [nested_append_singleton, flattenBase_append, ih, flattenBase]
    have hhead : ((List.range (level + 1)).map (links levels.length)).head?.getD [] =
        links levels.length 0 := by
      rw [List.range_succ_eq_map]
      rfl
    dsimp only
    rw [hhead, ← arena_succ, flattenBase, length_arena, List.length_append, List.length_singleton,
      List.range_succ (n := levels.length + 1), List.map_append]
    rfl

/-- What flattened upper layers say of a point. -/
def Slotted (links : Links) (up : List (List (List ℕ)) × List ℕ) (p level : ℕ) : Prop :=
  if level = 0 then up.2[p]? = some noSlot
  else ∃ slot < up.1.length, up.2[p]? = some (slot % 2 ^ 32) ∧
    up.1[slot]? = some ((List.range level).map fun i => links p (i + 1))

theorem Slotted.append {up : List (List (List ℕ)) × List ℕ} {p level : ℕ}
    (h : Slotted links up p level) (hp : p < up.2.length) (a : List (List (List ℕ)))
    (b : List ℕ) : Slotted links (up.1 ++ a, up.2 ++ b) p level := by
  rw [Slotted] at h ⊢
  split at h
  · rwa [if_pos ‹_›, List.getElem?_append_left hp]
  · obtain ⟨slot, hslot, h₁, h₂⟩ := h
    rw [if_neg ‹_›]
    refine ⟨slot, ?_, ?_, ?_⟩
    · rw [List.length_append]
      omega
    · rwa [List.getElem?_append_left hp]
    · rwa [List.getElem?_append_left hslot]

/-- **The upper layers flattened**: a point that has any has a slot of its own, with its lists. -/
theorem flattenUpper_nested (levels : List ℕ) (links : Links) :
    let up := flattenUpper (nested levels links) [] []
    up.2.length = levels.length ∧ up.1.length = levels.countP (0 < ·) ∧
      ∀ p level, levels[p]? = some level → Slotted links up p level := by
  induction levels using List.reverseRecOn with
  | nil => exact ⟨rfl, rfl, fun p level h => by simp at h⟩
  | append_singleton levels last ih =>
    obtain ⟨hidx, hup, hall⟩ := ih
    rw [nested_append_singleton, flattenUpper_append]
    generalize flattenUpper (nested levels links) [] [] = up at hidx hup hall
    have hold {p level : ℕ} (hp : (levels ++ [last])[p]? = some level) :
        levels[p]? = some level ∧ p < up.2.length ∨ p = levels.length ∧ level = last := by
      rw [List.getElem?_append] at hp
      split at hp
      · exact .inl ⟨hp, by omega⟩
      · rw [List.getElem?_singleton] at hp
        split at hp
        · exact .inr ⟨by omega, (Option.some.inj hp).symm⟩
        · cases hp
    rw [flattenUpper, List.length_map, List.length_range, List.countP_append, List.countP_singleton]
    split <;> rename_i hlast
    · have hpos : 0 < last := by omega
      refine ⟨by simp [flattenUpper, hidx], by simp [flattenUpper, hup, hpos], fun p level hp => ?_⟩
      rcases hold hp with ⟨hp, hlt⟩ | ⟨rfl, rfl⟩
      · exact (hall p level hp).append hlt _ _
      · rw [Slotted, if_neg (by omega)]
        refine ⟨up.1.length, by simp [flattenUpper], ?_, ?_⟩
        · rw [flattenUpper, ← hidx, List.getElem?_concat_length]
        · rw [flattenUpper, List.getElem?_concat_length, List.range_succ_eq_map, List.map_cons,
            List.drop_one, List.tail_cons, List.map_map]
          rfl
    · have hzero : ¬ 0 < last := by omega
      refine ⟨by simp [flattenUpper, hidx], by simp [flattenUpper, hup, hzero],
        fun p level hp => ?_⟩
      rcases hold hp with ⟨hp, hlt⟩ | ⟨rfl, rfl⟩
      · have := (hall p level hp).append hlt [] [noSlot]
        rwa [List.append_nil] at this
      · rw [Slotted, if_pos (by omega), flattenUpper, ← hidx, List.getElem?_concat_length]

/-- The links of a point on layer 0, cut out of the arena. -/
theorem take_arena {p n : ℕ} (hp : p < n) :
    ((arena links n).drop (baseLinks links p)).take (links p 0).length = links p 0 := by
  obtain ⟨rest, hrest⟩ : ∃ rest, arena links n = arena links (p + 1) ++ rest := by
    induction n with
    | zero => exact absurd hp (Nat.not_lt_zero _)
    | succ n ih =>
      rcases Nat.lt_succ_iff_lt_or_eq.mp hp with h | rfl
      · obtain ⟨rest, hrest⟩ := ih h
        exact ⟨rest ++ links n 0, by rw [arena_succ, hrest, List.append_assoc]⟩
      · exact ⟨[], (List.append_nil _).symm⟩
  rw [hrest, arena_succ, List.append_assoc, List.drop_left' (length_arena p), List.take_left' rfl]

/-- Reading layer 0 of a sealed graph. -/
theorem neighbors_base {p : ℕ} (hp : p < levels.length) :
    (intoGraphLayers levels links entry maxLevel).neighbors p 0 =
      if baseLinks links p % 2 ^ 32 ≤ baseLinks links (p + 1) % 2 ^ 32 ∧
          baseLinks links (p + 1) % 2 ^ 32 ≤ baseLinks links levels.length then
        some (((arena links levels.length).drop (baseLinks links p % 2 ^ 32)).take
          (baseLinks links (p + 1) % 2 ^ 32 - baseLinks links p % 2 ^ 32))
      else none := by
  have hoffset {i : ℕ} (hi : i ≤ levels.length) :
      (intoGraphLayers levels links entry maxLevel).l0Offsets[i]? =
        some (baseLinks links i % 2 ^ 32) := by
    change (flattenBase (nested levels links) [0] []).1[i]? = _
    rw [flattenBase_nested, List.getElem?_map, List.getElem?_range (by omega)]
    rfl
  have harena : (intoGraphLayers levels links entry maxLevel).l0Links =
      arena links levels.length := by
    change (flattenBase (nested levels links) [0] []).2 = _
    rw [flattenBase_nested]
  rw [GraphLayers.neighbors, if_pos rfl, hoffset hp.le, hoffset (Nat.succ_le_of_lt hp), harena,
    length_arena]
  rfl

/-- A point whose links lie below the wrap-around reads them back. -/
theorem neighbors_base_of_lt {p : ℕ} (hp : p < levels.length)
    (hlt : baseLinks links (p + 1) < 2 ^ 32) :
    (intoGraphLayers levels links entry maxLevel).neighbors p 0 = some (links p 0) := by
  have hsucc : baseLinks links (p + 1) = baseLinks links p + (links p 0).length := baseLinks_succ p
  have hmono : baseLinks links (p + 1) ≤ baseLinks links levels.length := baseLinks_mono hp
  rw [neighbors_base hp, Nat.mod_eq_of_lt hlt, Nat.mod_eq_of_lt (by omega),
    if_pos ⟨by omega, hmono⟩, hsucc, Nat.add_sub_cancel_left, take_arena hp]

/-- **A sealed graph reads back** as the lists it was made from. -/
theorem neighbors_intoGraphLayers (hupper : levels.countP (0 < ·) < 2 ^ 32)
    (htotal : baseLinks links levels.length < 2 ^ 32) {p level : ℕ}
    (hp : levels[p]? = some level) (layer : ℕ) :
    (intoGraphLayers levels links entry maxLevel).neighbors p layer =
      some (if layer ≤ level then links p layer else []) := by
  obtain ⟨hlt, -⟩ := List.getElem?_eq_some_iff.mp hp
  by_cases hlayer : layer = 0
  · subst hlayer
    have hmono : baseLinks links (p + 1) ≤ baseLinks links levels.length := baseLinks_mono hlt
    rw [neighbors_base_of_lt hlt (by omega), if_pos (Nat.zero_le _)]
  · obtain ⟨hidx, hup, hall⟩ := flattenUpper_nested levels links
    have hslot := hall p level hp
    rw [Slotted] at hslot
    rw [GraphLayers.neighbors, if_neg hlayer]
    change ((flattenUpper (nested levels links) [] []).2[p]?.bind fun slot =>
      if slot = noSlot then some []
      else (flattenUpper (nested levels links) [] []).1[slot]?.bind fun layers =>
        some (layers.getD (layer - 1) [])) = _
    split at hslot
    · rw [hslot, Option.bind_some, if_pos rfl, if_neg (by omega)]
    · obtain ⟨slot, hlt', h₁, h₂⟩ := hslot
      have hmod : slot % 2 ^ 32 = slot := Nat.mod_eq_of_lt (by omega)
      rw [h₁, Option.bind_some, hmod, if_neg (by rw [noSlot]; omega), h₂, Option.bind_some,
        List.getD_eq_getElem?_getD, List.getElem?_map]
      by_cases hle : layer ≤ level
      · rw [List.getElem?_range (by omega), if_pos hle, Option.map_some, Option.getD_some,
          Nat.sub_add_cancel (by omega)]
      · rw [List.getElem?_eq_none (by rw [List.length_range]; omega), if_neg hle]
        rfl

/-- **With `2 ^ 32` links or more on layer 0** the links of some point cannot be read: the offsets
wrap around inside them. -/
theorem exists_neighbors_eq_none (hdeg : ∀ p < levels.length, (links p 0).length < 2 ^ 32)
    (htotal : 2 ^ 32 ≤ baseLinks links levels.length) :
    ∃ p < levels.length, (intoGraphLayers levels links entry maxLevel).neighbors p 0 = none := by
  have hex : ∃ i, 2 ^ 32 ≤ baseLinks links i := ⟨_, htotal⟩
  obtain ⟨p, hp⟩ : ∃ p, Nat.find hex = p + 1 :=
    Nat.exists_eq_succ_of_ne_zero fun h0 => by
      have := Nat.find_spec hex
      rw [h0, baseLinks_zero] at this
      omega
  have hle : 2 ^ 32 ≤ baseLinks links (p + 1) := hp ▸ Nat.find_spec hex
  have hbelow : baseLinks links p < 2 ^ 32 := Nat.not_le.mp (Nat.find_min hex (by omega))
  have hlt : p < levels.length := by
    have := Nat.find_min' hex htotal
    omega
  have hsucc : baseLinks links (p + 1) = baseLinks links p + (links p 0).length := baseLinks_succ p
  have hp0 := hdeg p hlt
  refine ⟨p, hlt, ?_⟩
  rw [neighbors_base hlt, if_neg]
  omega

end

end Vecvec.Hnsw
