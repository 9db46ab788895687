import Vecvec.Hnsw.Builder
import Vecvec.Hnsw.Complete

/-!
# Hnsw/Sequential — what the sequential builder guarantees, and when sealing keeps it

The lists of the builder are well formed after any number of insertions (`inserts_valid`).  Sealing
keeps this exactly as long as layer 0 has fewer than `2 ^ 32` links: the offsets are cut to 32 bits.
A build whose degree bound and beam leave room for everybody links every two points
(`complete_inserts`), which makes for `crowd`, a build that seals into a graph that cannot be read.
-/

namespace Vecvec.Hnsw

/-! ## Valid graphs -/

/-- **Lists that read as they should**: each is there, within its degree bound, without loops or
repetitions, and leads to points below `i` that reach the layer. -/
def ValidLists (config : HnswConfig) (pts : Points) (i : ℕ) (read : ℕ → ℕ → Option (List ℕ)) :
    Prop :=
  ∀ p < pts.size, ∀ layer ≤ pts.level p, ∃ l, read p layer = some l ∧
    l.length ≤ config.maxConn layer ∧ p ∉ l ∧ l.Nodup ∧ ∀ q ∈ l, q < i ∧ layer ≤ pts.level q

/-- A point with a neighbour on layer 0. -/
def Linked (read : ℕ → ℕ → Option (List ℕ)) (p : ℕ) : Prop := ∃ l, read p 0 = some l ∧ l ≠ []

variable {config : HnswConfig} {pts : Points} {i : ℕ} {links : Links} {entry : Option ℕ}
  {maxLevel : ℕ}

theorem Wired.validLists (h : Wired config pts (· < i) links) :
    ValidLists config pts i fun p layer => some (links p layer) :=
  fun p _ layer _ => ⟨links p layer, rfl, h.degree p layer, h.loopless p layer, h.nodup p layer,
    h.present p layer⟩

/-- **Sealing well-formed links** keeps them readable exactly as long as the offsets do not wrap. -/
theorem Wired.validLists_intoGraphLayers_iff (h : Wired config pts (· < i) links)
    (hi : i ≤ pts.size) :
    ValidLists config pts i (intoGraphLayers pts.levels links entry maxLevel).neighbors ↔
      baseLinks links pts.size < 2 ^ 32 := by
  have hfits : pts.size < 2 ^ 32 := pts.fits
  constructor
  · intro hvalid
    by_contra htotal
    have hdeg : ∀ p < pts.levels.length, (links p 0).length < 2 ^ 32 := fun p _ =>
      (length_le_of_nodup (h.nodup p 0) fun q hq => (h.present p 0 q hq).1.trans_le hi).trans_lt
        hfits
    obtain ⟨p, hp, hnone⟩ :=
      @exists_neighbors_eq_none pts.levels links entry maxLevel hdeg (Nat.not_lt.mp htotal)
    obtain ⟨l, hl, -⟩ := hvalid p hp 0 (Nat.zero_le _)
    rw [hnone] at hl
    cases hl
  · intro htotal p hp layer hlayer
    refine ⟨links p layer, ?_, h.degree p layer, h.loopless p layer, h.nodup p layer,
      h.present p layer⟩
    rw [neighbors_intoGraphLayers pts.countP_levels_lt htotal (pts.getElem?_levels hp),
      if_pos hlayer]

theorem linked_intoGraphLayers {p : ℕ} (hp : p < pts.size)
    (htotal : baseLinks links pts.size < 2 ^ 32) (hne : links p 0 ≠ []) :
    Linked (intoGraphLayers pts.levels links entry maxLevel).neighbors p := by
  refine ⟨links p 0, ?_, hne⟩
  rw [neighbors_intoGraphLayers pts.countP_levels_lt htotal (pts.getElem?_levels hp),
    if_pos (Nat.zero_le _)]

/-- The graph of the first `i` points, as a reader sees it: valid lists, nobody isolated on layer 0
once there are two, and the first point of maximal level for its entry. -/
structure SequentiallyValid (config : HnswConfig) (pts : Points) (i : ℕ)
    (read : ℕ → ℕ → Option (List ℕ)) (entry : Option ℕ) (maxLevel : ℕ) : Prop where
  /-- Every list is valid. -/
  lists : ValidLists config pts i read
  /-- Every point inserted has a neighbour. -/
  linked : 2 ≤ i → ∀ p < i, Linked read p
  /-- The entry. -/
  top : 0 < i → ∃ e, entry = some e ∧ maxLevel = pts.level e ∧
    GraphLayersBuilder.FirstTop pts i e

open GraphLayersBuilder in
/-- **The sequential builder keeps the invariants**: after any number of insertions, none of which
panics, its lists are valid; and the graph sealed from them is exactly when layer 0 has fewer than
`2 ^ 32` links. -/
theorem inserts_valid (config : HnswConfig) (pts : Points) (hm : 1 ≤ config.m)
    (hm0 : 1 ≤ config.mMax0) (hef : 1 ≤ config.efConstruction) (i : ℕ) (hi : i ≤ pts.size) :
    ∃ b, inserts config pts i = some b ∧
      SequentiallyValid config pts i (fun p layer => some (b.links p layer)) b.entry b.maxLevel ∧
      (SequentiallyValid config pts i (b.intoGraphLayers pts).neighbors
        (b.intoGraphLayers pts).entry (b.intoGraphLayers pts).maxLevel ↔
          baseLinks b.links pts.size < 2 ^ 32) := by
  obtain ⟨b, hrun, hb⟩ := inserts_spec (config.one_le_maxConn hm hm0) hef hi
  refine ⟨b, hrun, ⟨hb.wired.validLists, fun h2 p hp => ⟨_, rfl, hb.linked h2 p hp⟩, hb.top⟩, ?_⟩
  refine (⟨fun h => h.lists, fun h => ⟨h, ?_, hb.top⟩⟩ :
    _ ↔ ValidLists config pts i (b.intoGraphLayers pts).neighbors).trans
      (hb.wired.validLists_intoGraphLayers_iff hi)
  intro h2 p hp
  exact linked_intoGraphLayers (hp.trans_le hi)
    ((hb.wired.validLists_intoGraphLayers_iff hi).mp h) (hb.linked h2 p hp)

/-! ## Room for everybody

With a degree bound and a beam that no number of points exceeds, nothing is ever cut: every two
points end up linked. -/

namespace GraphLayersBuilder

/-- Every two of the first `i` points are linked on layer 0. -/
def Complete (i : ℕ) (links : Links) : Prop := ∀ p < i, ∀ q < i, q ≠ p → q ∈ links p 0

/-- The point, at the end of each neighbour's list. -/
def appendBack (links : Links) (layer : ℕ) (selected : List ℕ) (i : ℕ) : Links := fun p l =>
  if p ∈ selected ∧ l = layer then links p l ++ [i] else links p l

theorem foldlM_linkBack_of_room {layer : ℕ} {selected : List ℕ} (hnodup : selected.Nodup)
    (hsel : ∀ nb ∈ selected, nb < pts.size ∧ layer ≤ pts.level nb) {b : GraphLayersBuilder}
    (hroom : ∀ nb ∈ selected, (b.links nb layer).length < config.maxConn layer) :
    selected.foldlM (linkBack config pts i layer) b =
      some { b with links := appendBack b.links layer selected i } := by
  induction selected generalizing b with
  | nil =>
    have : appendBack b.links layer [] i = b.links := by
      funext p l
      exact if_neg fun h => List.not_mem_nil h.1
    rw [this]
    rfl
  | cons nb rest ih =>
    obtain ⟨hnotin, hrest⟩ := List.nodup_cons.mp hnodup
    have hnb := hroom nb List.mem_cons_self
    rw [List.foldlM_cons, linkBack, if_pos (hsel nb List.mem_cons_self),
      shrink_eq_self (by rw [List.length_append, List.length_singleton]; omega)]
    refine (ih hrest (fun x hx => hsel x (List.mem_cons_of_mem _ hx)) fun x hx => ?_).trans ?_
    · have hne : ¬ (x = nb ∧ layer = layer) := fun h => hnotin (h.1 ▸ hx)
      change (setLinks b.links nb layer _ x layer).length < _
      rw [setLinks_of_ne hne]
      exact hroom x (List.mem_cons_of_mem _ hx)
    · have : appendBack (setLinks b.links nb layer (b.links nb layer ++ [i])) layer rest i =
          appendBack b.links layer (nb :: rest) i := by
        funext p l
        rw [appendBack, appendBack]
        by_cases hp : p = nb ∧ l = layer
        · obtain ⟨rfl, rfl⟩ := hp
          rw [if_neg fun h => hnotin h.1, setLinks_self, if_pos ⟨List.mem_cons_self, rfl⟩]
        · rw [setLinks_of_ne hp]
          refine if_congr ?_ rfl rfl
          rw [List.mem_cons]
          tauto
      rw [← this]

/-- What point `i` chooses on layer 0. -/
def chosenAt (config : HnswConfig) (pts : Points) (i : ℕ) (links : Links) (ep : List ℕ) : List ℕ :=
  selectNeighbors pts.dist i (searchLayer (fun c => links c 0) config.efConstruction (pts.dist i)
    (fun _ => true) pts.size ep) (config.maxConn 0) config.keepPruned

/-- **The last layer of an insertion, with room for everybody**: the point is linked both ways to
whom it chooses, and nothing is cut. -/
theorem connect_of_room (hi : i < pts.size) (hroom : pts.size ≤ config.mMax0 + 1)
    {b₀ : GraphLayersBuilder} (hb : Wired config pts (· < i) b₀.links) {links : Links}
    (hw : Wiring config pts i 1 b₀ links) {ep : List ℕ} (hep : Entries pts i 0 ep) :
    (∀ nb ∈ chosenAt config pts i links ep, nb < i) ∧
      ∃ ep', connect config pts i ({ b₀ with links }, ep) 0 =
        some (⟨appendBack (setLinks links i 0 (chosenAt config pts i links ep)) 0
          (chosenAt config pts i links ep) i, b₀.entry, b₀.maxLevel⟩, ep') := by
  have hold : ∀ p, links p 0 = b₀.links p 0 := fun p => hw.ahead p 0 Nat.zero_lt_one
  have hsel : ∀ nb ∈ chosenAt config pts i links ep, nb < i := fun nb hnb => by
    obtain ⟨key, hkey, rfl⟩ := List.mem_map.mp (mem_selectNeighbors hnb).2
    exact (of_mem_searchLayer (φ := fun x => x < i ∧ 0 ≤ pts.level x) (hw.closed hb) hep.2 hkey).1
  have hrun := @foldlM_linkBack_of_room config pts i 0 (chosenAt config pts i links ep)
    (nodup_selectNeighbors nodup_searchLayer)
    (fun nb hnb => ⟨(hsel nb hnb).trans hi, Nat.zero_le _⟩)
    { b₀ with links := setLinks links i 0 (chosenAt config pts i links ep) } fun nb hnb => by
      change (setLinks links i 0 (chosenAt config pts i links ep) nb 0).length < config.mMax0
      rw [setLinks_of_ne fun h => (hsel nb hnb).ne h.1, hold]
      have hle := length_le_of_nodup (n := i) (l := nb :: b₀.links nb 0)
        (List.nodup_cons.mpr ⟨hb.loopless nb 0, hb.nodup nb 0⟩)
        (List.forall_mem_cons.mpr ⟨hsel nb hnb, fun q hq => (hb.present nb 0 q hq).1⟩)
      rw [List.length_cons] at hle
      omega
  refine ⟨hsel, (searchLayer (fun c => links c 0) config.efConstruction (pts.dist i)
    (fun _ => true) pts.size ep).map Prod.snd, ?_⟩
  rw [connect]
  change ((chosenAt config pts i links ep).foldlM (linkBack config pts i 0)
    ⟨setLinks links i 0 (chosenAt config pts i links ep), b₀.entry, b₀.maxLevel⟩).bind _ = _
  rw [hrun]
  rfl

/-- **The last layer of an insertion into a complete build** leaves a complete build. -/
theorem complete_connect (hkeep : config.keepPruned = true) (hi : i < pts.size)
    (hroom : pts.size ≤ config.mMax0 + 1) (hef : pts.size ≤ config.efConstruction)
    {b₀ : GraphLayersBuilder} (hb : Wired config pts (· < i) b₀.links) {links : Links}
    (hw : Wiring config pts i 1 b₀ links) (hcomplete : Complete i b₀.links) {ep : List ℕ}
    (hep : Entries pts i 0 ep) :
    ∃ links' ep', connect config pts i ({ b₀ with links }, ep) 0 =
      some ({ b₀ with links := links' }, ep') ∧ Complete (i + 1) links' := by
  let w := searchLayer (fun c => links c 0) config.efConstruction (pts.dist i) (fun _ => true)
    pts.size ep
  have hclosed := hw.closed hb
  have hold : ∀ p, links p 0 = b₀.links p 0 := fun p => hw.ahead p 0 Nat.zero_lt_one
  have hall : ∀ q < i, q ∈ w.map Prod.snd := by
    intro q hq
    obtain ⟨e, he⟩ := List.exists_mem_of_ne_nil ep hep.1
    refine mem_searchLayer_of_reachable (φ := fun x => x < i ∧ 0 ≤ pts.level x)
      (fun x hx => hx.1.trans hi) hef hclosed hep.2 he ?_ rfl
    by_cases hqe : q = e
    · rw [hqe]
    · refine .single ?_
      rw [hold]
      exact hcomplete e (hep.2 e he).1 q hq hqe
  have hlength : w.length ≤ config.maxConn 0 := by
    have hle := length_le_of_nodup (n := i) (l := w.map Prod.snd) nodup_searchLayer fun x hx => by
      obtain ⟨key, hkey, rfl⟩ := List.mem_map.mp hx
      exact (of_mem_searchLayer (φ := fun x => x < i ∧ 0 ≤ pts.level x) hclosed hep.2 hkey).1
    rw [List.length_map] at hle
    change w.length ≤ config.mMax0
    omega
  have hchosen : ∀ q < i, q ∈ chosenAt config pts i links ep := by
    intro q hq
    obtain ⟨key, hkey, rfl⟩ := List.mem_map.mp (hall q hq)
    rw [chosenAt, hkeep]
    exact mem_selectNeighbors_of_room hlength hkey hq.ne
  obtain ⟨hsel, ep', hrun⟩ := connect_of_room hi hroom hb hw hep
  refine ⟨_, ep', hrun, ?_⟩
  intro p hp q hq hne
  rw [appendBack]
  rcases Nat.lt_succ_iff_lt_or_eq.mp hp with hp | rfl
  · rw [if_pos ⟨hchosen p hp, rfl⟩, setLinks_of_ne fun h => hp.ne h.1, hold]
    rcases Nat.lt_succ_iff_lt_or_eq.mp hq with hq | rfl
    · exact List.mem_append_left _ (hcomplete p hp q hq hne)
    · exact List.mem_append_right _ (List.mem_singleton_self _)
  · rw [if_neg fun h => lt_irrefl p (hsel p h.1), setLinks_self]
    exact hchosen q (Nat.lt_of_le_of_ne (Nat.le_of_lt_succ hq) hne)

/-- An insertion before its last layer: the builder, and the entry points of layer 0. -/
def beforeGround (config : HnswConfig) (pts : Points) (i : ℕ) (b : GraphLayersBuilder) :
    Option (GraphLayersBuilder × List ℕ) :=
  b.entry.bind fun e =>
    (layersAbove 0 (min (pts.level i) b.maxLevel)).foldlM (connect config pts i)
      (b, startEp pts i b e)

/-- **An insertion down to its last layer**: what is left to do is to wire layer 0. -/
theorem exists_insert_eq_connect (hm : ∀ layer, 1 ≤ config.maxConn layer)
    (hef : 1 ≤ config.efConstruction) (hpos : 0 < i) (hi : i < pts.size) {b₀ : GraphLayersBuilder}
    (hb : Inserted config pts i b₀) :
    ∃ links ep, beforeGround config pts i b₀ = some ({ b₀ with links }, ep) ∧
      Wiring config pts i 1 b₀ links ∧ Entries pts i 0 ep ∧ ∀ links' ep',
        connect config pts i ({ b₀ with links }, ep) 0 = some ({ b₀ with links := links' }, ep') →
        ∃ b', insert config pts i b₀ = some b' ∧ b'.links = links' := by
  obtain ⟨e, hentry, htop, hfirst⟩ := hb.top hpos
  have hep := entries_startEp hb hfirst.1 htop
  generalize hk : min (pts.level i) b₀.maxLevel = k at hep
  obtain ⟨links₁, ep₁, hrun₁, hw₁, hep₁, -⟩ := foldlM_connect hm hef hi hb.wired 1 k
    (by omega) (wiring_start hb.wired _) (hep.mono (by omega))
  refine ⟨links₁, ep₁, ?_, hw₁, hep₁, fun links ep hrun => ?_⟩
  · rw [beforeGround, hk]
    exact (congrArg (Option.bind · _) hentry).trans hrun₁
  have hall : (List.range' 0 (k + 1)).reverse.foldlM (connect config pts i)
      ({ b₀ with links := b₀.links }, startEp pts i b₀ e) = some ({ b₀ with links }, ep) := by
    rw [List.range'_succ, List.reverse_cons, List.foldlM_append, hrun₁]
    change (connect config pts i ({ b₀ with links := links₁ }, ep₁) 0).bind some = _
    rw [hrun]
    rfl
  refine ⟨_, insert_eq hentry (hk ▸ hall), ?_⟩
  split <;> rfl

/-- **A build with room for everybody is complete.** -/
theorem complete_inserts (hm : 1 ≤ config.m) (hm0 : 1 ≤ config.mMax0)
    (hkeep : config.keepPruned = true) (hroom : pts.size ≤ config.mMax0 + 1)
    (hef : pts.size ≤ config.efConstruction) (hi : i ≤ pts.size) {b : GraphLayersBuilder}
    (hrun : inserts config pts i = some b) : Inserted config pts i b ∧ Complete i b.links := by
  have hmax := config.one_le_maxConn hm hm0
  induction i generalizing b with
  | zero =>
    cases hrun
    exact ⟨inserted_new, fun p hp => absurd hp (Nat.not_lt_zero p)⟩
  | succ i ih =>
    rw [inserts_succ, Option.bind_eq_some_iff] at hrun
    obtain ⟨b₀, hrun₀, hins⟩ := hrun
    obtain ⟨hb, hcomplete⟩ := ih (Nat.le_of_succ_le hi) hrun₀
    have hef' : 1 ≤ config.efConstruction := (Nat.succ_le_of_lt (Nat.zero_lt_of_lt hi)).trans hef
    obtain ⟨b', hb', hinv⟩ := insert_spec hmax hef' hi hb
    obtain rfl : b' = b := Option.some.inj (hb'.symm.trans hins)
    refine ⟨hinv, ?_⟩
    rcases Nat.eq_zero_or_pos i with rfl | hpos
    · intro p hp q hq hne
      omega
    obtain ⟨links₁, ep₁, -, hw₁, hep₁, hins'⟩ := exists_insert_eq_connect hmax hef' hpos hi hb
    obtain ⟨links, ep, hrun, hlinks⟩ :=
      complete_connect hkeep hi hroom hef hb.wired hw₁ hcomplete hep₁
    obtain ⟨b'', hb'', rfl⟩ := hins' links ep hrun
    cases hb''.symm.trans hb'
    exact hlinks

/-- How many links a complete build has on layer 0. -/
theorem le_baseLinks {links : Links} {n : ℕ} (hlinks : Complete n links) (k : ℕ) (hk : k ≤ n) :
    k * (n - 1) ≤ baseLinks links k := by
  induction k with
  | zero => exact (Nat.zero_mul _).le
  | succ k ih =>
    have hothers : n - 1 ≤ (links k 0).length := by
      have hsub : (List.range n).erase k ⊆ links k 0 := fun q hq => by
        obtain ⟨hne, hq⟩ := (List.nodup_range.mem_erase_iff).mp hq
        exact hlinks k hk q (List.mem_range.mp hq) hne
      have hle := ((List.nodup_range.erase k).subperm hsub).length_le
      rwa [List.length_erase_of_mem (List.mem_range.mpr hk), List.length_range] at hle
    rw [baseLinks_succ, Nat.succ_mul]
    exact Nat.add_le_add (ih (Nat.le_of_succ_le hk)) hothers

end GraphLayersBuilder

/-- A degree bound and a beam for 65,537 points. -/
def crowdConfig : HnswConfig where
  m := 65536
  mMax0 := 65536
  efConstruction := 65537
  efSearch := 64
  seed := 0
  keepPruned := true
  quantization := false

/-- 65,537 equal vectors, all on layer 0. -/
def crowd : Points where
  levels := List.replicate 65537 0
  dist _ _ := 0
  fits := by rw [List.length_replicate]; decide
  clamped level h := (List.eq_of_mem_replicate h).le.trans (Nat.zero_le _)

open GraphLayersBuilder in
/-- The builder after two of 65,537 equal vectors. -/
theorem inserts_valid_crowd : ∃ b, inserts crowdConfig crowd 2 = some b ∧
    SequentiallyValid crowdConfig crowd 2 (fun p layer => some (b.links p layer)) b.entry
      b.maxLevel ∧
    (SequentiallyValid crowdConfig crowd 2 (b.intoGraphLayers crowd).neighbors
      (b.intoGraphLayers crowd).entry (b.intoGraphLayers crowd).maxLevel ↔
        baseLinks b.links crowd.size < 2 ^ 32) :=
  inserts_valid crowdConfig crowd (by decide) (by decide) (by decide) 2
    (List.length_replicate.ge.trans' (by decide))

open GraphLayersBuilder in
/-- **A build that seals into a graph that cannot be read**: 65,537 points, every two of them linked
on layer 0. -/
theorem crowd_not_sequentiallyValid :
    ¬ ∃ b, inserts crowdConfig crowd 65537 = some b ∧
      SequentiallyValid crowdConfig crowd 65537 (b.intoGraphLayers crowd).neighbors
        (b.intoGraphLayers crowd).entry (b.intoGraphLayers crowd).maxLevel := by
  rintro ⟨b, hrun, hvalid⟩
  have hsize : crowd.size = 65537 := List.length_replicate
  have hm : 1 ≤ crowdConfig.m := by decide
  have hm0 : 1 ≤ crowdConfig.mMax0 := by decide
  obtain ⟨hb, hcomplete⟩ := complete_inserts hm hm0 rfl
    (by rw [hsize]; decide) (by rw [hsize]; decide) hsize.ge hrun
  have hlt := (hb.wired.validLists_intoGraphLayers_iff hsize.ge).mp hvalid.lists
  have hle := le_baseLinks hcomplete 65537 le_rfl
  rw [hsize] at hlt
  omega

end Vecvec.Hnsw
