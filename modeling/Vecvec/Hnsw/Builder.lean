import Vecvec.Hnsw.Graph

/-!
# Hnsw/Builder — the sequential builder

Points are inserted one at a time, in id order.  A point descends from the entry through the layers
above its own, one best point at a time, then searches each of its layers, links itself to a diverse
choice of what it finds, and is linked back; a neighbour whose list overflows selects again.

* `Inserted` — the invariant of the builder after its first `i` points.
* `insert_spec` — one insertion; `build_spec` — all of them: no index is ever out of range.
-/

namespace Vecvec.Hnsw

/-! ## The code -/

/-- The mutable builder. -/
structure GraphLayersBuilder where
  /-- The links of each point on each layer. -/
  links : Links
  /-- Where searches start. -/
  entry : Option ℕ
  /-- The top layer. -/
  maxLevel : ℕ

/-- `((level + 1)..=startLevel).rev()` -/
def layersAbove (level startLevel : ℕ) : List ℕ :=
  (List.range' (level + 1) (startLevel - level)).reverse

/-- `(0..=top).rev()` -/
def layersDown (top : ℕ) : List ℕ := (List.range (top + 1)).reverse

namespace GraphLayersBuilder

section

variable (config : HnswConfig) (pts : Points) (point : ℕ)

/-- No point inserted. -/
def new : GraphLayersBuilder := ⟨fun _ _ => [], none, 0⟩

/-- One layer of the greedy descent. -/
def descendStep (b : GraphLayersBuilder) (ep : List ℕ) (layer : ℕ) : List ℕ :=
  match searchLayer (fun c => b.links c layer) 1 (pts.dist point) (fun _ => true) pts.size ep with
  | best :: _ => [best.2]
  | [] => ep

/-- Links a neighbour back to the point, and shrinks its list to the bound if it overflowed; `none`
is an index out of range. -/
def linkBack (layer : ℕ) (b : GraphLayersBuilder) (nb : ℕ) : Option GraphLayersBuilder :=
  if nb < pts.size ∧ layer ≤ pts.level nb then
    some { b with
      links := setLinks b.links nb layer
        (shrink config pts nb layer (b.links nb layer ++ [point])) }
  else none

/-- One layer of the wiring: the builder, and the entry points of the next layer. -/
def connect (s : GraphLayersBuilder × List ℕ) (layer : ℕ) :
    Option (GraphLayersBuilder × List ℕ) := do
  let w := searchLayer (fun c => s.1.links c layer) config.efConstruction (pts.dist point)
    (fun _ => true) pts.size s.2
  let selected := selectNeighbors pts.dist point w (config.maxConn layer) config.keepPruned
  let wired := { s.1 with links := setLinks s.1.links point layer selected }
  let b ← selected.foldlM (linkBack config pts point layer) wired
  return (b, w.map Prod.snd)

/-- `insert`; `none` is a panic. -/
def insert (b : GraphLayersBuilder) : Option GraphLayersBuilder :=
  let level := pts.level point
  match b.entry with
  | none => some { b with entry := some point, maxLevel := level }
  | some entry => do
    let ep := (layersAbove level b.maxLevel).foldl (descendStep pts point b) [entry]
    let (b, _) ← (layersDown (min level b.maxLevel)).foldlM (connect config pts point) (b, ep)
    if b.maxLevel < level then some { b with maxLevel := level, entry := some point } else some b

end

/-- The builder after the first `i` points. -/
def inserts (config : HnswConfig) (pts : Points) (i : ℕ) : Option GraphLayersBuilder :=
  (List.range i).foldlM (fun b point => insert config pts point b) new

/-- `into_graph_layers` -/
def intoGraphLayers (pts : Points) (b : GraphLayersBuilder) : GraphLayers :=
  Hnsw.intoGraphLayers pts.levels b.links b.entry b.maxLevel

end GraphLayersBuilder

/-- The graph of `HnswIndex::build`. -/
def buildGraph (config : HnswConfig) (pts : Points) : Option GraphLayers :=
  (GraphLayersBuilder.inserts config pts pts.size).map (GraphLayersBuilder.intoGraphLayers pts)

/-! ## Linking back -/

namespace GraphLayersBuilder

variable {config : HnswConfig} {pts : Points} {i : ℕ}

/-- **Linking the chosen neighbours back**: no index is out of range, the links stay well formed,
other layers are left alone, and no list becomes empty. -/
theorem foldlM_linkBack {layer : ℕ} (hm : 1 ≤ config.maxConn layer) (hi : i < pts.size)
    (hlevel : layer ≤ pts.level i) {selected : List ℕ} (hnodup : selected.Nodup)
    (hsel : ∀ nb ∈ selected, nb < i ∧ layer ≤ pts.level nb) {b : GraphLayersBuilder}
    (hw : Wired config pts (· < i + 1) b.links) (hnew : ∀ nb ∈ selected, i ∉ b.links nb layer) :
    ∃ links, selected.foldlM (linkBack config pts i layer) b = some { b with links } ∧
      Wired config pts (· < i + 1) links ∧
      (∀ p l, l ≠ layer → links p l = b.links p l) ∧
      (∀ p l, b.links p l ≠ [] → links p l ≠ []) ∧ ∀ nb ∈ selected, links nb layer ≠ [] := by
  induction selected generalizing b with
  | nil => exact ⟨b.links, rfl, hw, fun _ _ _ => rfl, fun _ _ h => h, fun _ h => absurd h
      List.not_mem_nil⟩
  | cons nb rest ih =>
    obtain ⟨hlt, hnb⟩ := hsel nb List.mem_cons_self
    obtain ⟨hnotin, hrest⟩ := List.nodup_cons.mp hnodup
    have hnew₀ := hnew nb List.mem_cons_self
    have hself : nb ∉ b.links nb layer ++ [i] := by
      rw [List.mem_append, List.mem_singleton]
      exact not_or.mpr ⟨hw.loopless nb layer, hlt.ne⟩
    have hpushed : (b.links nb layer ++ [i]).Nodup :=
      List.nodup_append.mpr ⟨hw.nodup nb layer, List.nodup_singleton i, fun x hx y hy hxy =>
        hnew₀ (List.mem_singleton.mp hy ▸ hxy ▸ hx)⟩
    have hmem : ∀ q ∈ b.links nb layer ++ [i], q < i + 1 ∧ layer ≤ pts.level q := by
      intro q hq
      rcases List.mem_append.mp hq with hq | hq
      · exact hw.present nb layer q hq
      · rw [List.mem_singleton.mp hq]
        exact ⟨Nat.lt_succ_self i, hlevel⟩
    have hnil : shrink config pts nb layer (b.links nb layer ++ [i]) ≠ [] :=
      shrink_ne_nil hm (List.append_ne_nil_of_right_ne_nil _ (List.cons_ne_nil _ _)) hself
    let links₁ := setLinks b.links nb layer (shrink config pts nb layer (b.links nb layer ++ [i]))
    have hw₁ : Wired config pts (· < i + 1) links₁ :=
      hw.setLinks hpushed hself hmem ⟨Nat.lt_succ_of_lt hlt, hnb⟩
    have hkeep₁ : ∀ p l, b.links p l ≠ [] → links₁ p l ≠ [] := by
      intro p l h
      by_cases hp : p = nb ∧ l = layer
      · obtain ⟨rfl, rfl⟩ := hp
        rwa [show links₁ p l = _ from setLinks_self ..]
      · rwa [show links₁ p l = _ from setLinks_of_ne hp]
    obtain ⟨links, hrun, hw', hother, hkeep, hall⟩ := @ih hrest
      (fun x hx => hsel x (List.mem_cons_of_mem _ hx)) { b with links := links₁ } hw₁
      fun x hx => by
        change i ∉ links₁ x layer
        rw [show links₁ x layer = _ from setLinks_of_ne fun h => hnotin (h.1 ▸ hx)]
        exact hnew x (List.mem_cons_of_mem _ hx)
    refine ⟨links, ?_, hw', fun p l hl => ?_, fun p l h => hkeep p l (hkeep₁ p l h), ?_⟩
    · rw [List.foldlM_cons, linkBack, if_pos ⟨hlt.trans hi, hnb⟩]
      exact hrun
    · exact (hother p l hl).trans (setLinks_of_ne fun h => hl h.2)
    · refine List.forall_mem_cons.mpr ⟨hkeep nb layer ?_, hall⟩
      change links₁ nb layer ≠ []
      rwa [show links₁ nb layer = _ from setLinks_self ..]

/-! ## One layer -/

/-- Entry points for a search of `layer` by point `i`: inserted before it, and on the layer. -/
def Entries (pts : Points) (i layer : ℕ) (ep : List ℕ) : Prop :=
  ep ≠ [] ∧ ∀ e ∈ ep, e < i ∧ layer ≤ pts.level e

/-- A search of a layer that leads to no later point ends with entry points for the layers below. -/
theorem Entries.search {layer ef : ℕ} {links : Links} {ep : List ℕ} {dist : ℕ → F32} (hef : 1 ≤ ef)
    (hclosed : ∀ c, c < i ∧ layer ≤ pts.level c → ∀ x ∈ links c layer, x < i ∧ layer ≤ pts.level x)
    (hep : Entries pts i layer ep) :
    Entries pts i layer ((searchLayer (fun c => links c layer) ef dist (fun _ => true) pts.size
      ep).map Prod.snd) := by
  refine ⟨fun h => searchLayer_ne_nil hef hep.1 (List.map_eq_nil_iff.mp h), fun e he => ?_⟩
  obtain ⟨key, hkey, rfl⟩ := List.mem_map.mp he
  exact of_mem_searchLayer (φ := fun x => x < i ∧ layer ≤ pts.level x) hclosed hep.2 hkey

theorem Entries.mono {layer layer' : ℕ} {ep : List ℕ} (h : Entries pts i layer ep)
    (hle : layer' ≤ layer) : Entries pts i layer' ep :=
  ⟨h.1, fun e he => ⟨(h.2 e he).1, hle.trans (h.2 e he).2⟩⟩

/-- **The descent** stays among the points inserted. -/
theorem entries_descend {b : GraphLayersBuilder} (hw : Wired config pts (· < i) b.links)
    {level : ℕ} (k : ℕ) {ep : List ℕ} (hep : Entries pts i (level + k) ep) (point : ℕ) :
    Entries pts i level
      ((List.range' (level + 1) k).reverse.foldl (descendStep pts point b) ep) := by
  induction k generalizing ep with
  | zero => exact hep
  | succ k ih =>
    rw [List.range'_concat, List.reverse_append, List.reverse_singleton, List.singleton_append,
      List.foldl_cons]
    have hfound := @Entries.search pts i (level + (k + 1)) 1 b.links ep (pts.dist point) le_rfl
      (hw.closed (level + (k + 1))) hep
    refine ih (@Entries.mono pts i (level + (k + 1)) _ _ ?_ (by omega))
    have hlayer : level + 1 + 1 * k = level + (k + 1) := by omega
    rw [hlayer, descendStep]
    split
    · rename_i best rest hbest
      rw [hbest] at hfound
      exact ⟨List.cons_ne_nil _ _, fun e he => by
        rw [List.mem_singleton.mp he]
        exact hfound.2 _ List.mem_cons_self⟩
    · exact hep

/-- What the wiring of point `i` has left of the builder, with the layers below `k` to come. -/
structure Wiring (config : HnswConfig) (pts : Points) (i k : ℕ) (b₀ : GraphLayersBuilder)
    (links : Links) : Prop where
  /-- The links are well formed. -/
  wired : Wired config pts (· < i + 1) links
  /-- The layers to come are as they were. -/
  ahead : ∀ p, ∀ l < k, links p l = b₀.links p l
  /-- No list has become empty. -/
  kept : ∀ p l, b₀.links p l ≠ [] → links p l ≠ []

/-- On the next layer nothing leads to the point. -/
theorem Wiring.closed {k : ℕ} {b₀ : GraphLayersBuilder} {links : Links}
    (hw : Wiring config pts i (k + 1) b₀ links) (hb : Wired config pts (· < i) b₀.links) :
    ∀ c, c < i ∧ k ≤ pts.level c → ∀ x ∈ links c k, x < i ∧ k ≤ pts.level x := by
  intro c _ x hx
  rw [hw.ahead c k (Nat.lt_succ_self k)] at hx
  exact hb.present c k x hx

/-- **One layer of the wiring**: the point and some earlier point have links on it. -/
theorem connect_spec {k : ℕ} (hm : 1 ≤ config.maxConn k) (hef : 1 ≤ config.efConstruction)
    (hi : i < pts.size) (hlevel : k ≤ pts.level i) {b₀ : GraphLayersBuilder}
    (hb : Wired config pts (· < i) b₀.links) {links : Links}
      (hw : Wiring config pts i (k + 1) b₀ links) {ep : List ℕ} (hep : Entries pts i k ep) :
    ∃ links' ep', connect config pts i ({ b₀ with links }, ep) k =
        some ({ b₀ with links := links' }, ep') ∧
      Wiring config pts i k b₀ links' ∧ Entries pts i k ep' ∧ links' i k ≠ [] ∧
      ∃ nb < i, links' nb k ≠ [] := by
  let w := searchLayer (fun c => links c k) config.efConstruction (pts.dist i) (fun _ => true)
    pts.size ep
  let selected := selectNeighbors pts.dist i w (config.maxConn k) config.keepPruned
  have hclosed := hw.closed hb
  have hfound : Entries pts i k (w.map Prod.snd) := hep.search hef hclosed
  have hsel : ∀ nb ∈ selected, nb < i ∧ k ≤ pts.level nb := fun nb hnb =>
    hfound.2 nb (mem_selectNeighbors hnb).2
  have hnodup : selected.Nodup := nodup_selectNeighbors nodup_searchLayer
  have hnil : selected ≠ [] := by
    refine selectNeighbors_ne_nil hm ?_
    obtain ⟨e, he⟩ := List.exists_mem_of_ne_nil _ hfound.1
    obtain ⟨key, hkey, rfl⟩ := List.mem_map.mp he
    exact ⟨key, hkey, (hfound.2 _ he).1.ne⟩
  have hself : i ∉ selected := fun h => lt_irrefl i (hsel i h).1
  have hset : shrink config pts i k selected = selected := shrink_eq_self length_selectNeighbors_le
  have hw₁ : Wired config pts (· < i + 1) (setLinks links i k selected) := hset ▸
    hw.wired.setLinks hnodup hself
      (fun q hq => ⟨Nat.lt_succ_of_lt (hsel q hq).1, (hsel q hq).2⟩) ⟨Nat.lt_succ_self i, hlevel⟩
  obtain ⟨links', hrun, hw', hother, hkeep, hall⟩ := foldlM_linkBack hm hi hlevel hnodup hsel
    (b := { b₀ with links := setLinks links i k selected }) hw₁ fun nb hnb hmem => by
      change i ∈ setLinks links i k selected nb k at hmem
      rw [setLinks_of_ne fun h => (hsel nb hnb).1.ne h.1] at hmem
      exact lt_irrefl i (hclosed nb (hsel nb hnb) i hmem).1
  have hkept₁ : ∀ p l, links p l ≠ [] → setLinks links i k selected p l ≠ [] := by
    intro p l h
    by_cases hp : p = i ∧ l = k
    · obtain ⟨rfl, rfl⟩ := hp
      rwa [setLinks_self]
    · rwa [setLinks_of_ne hp]
  refine ⟨links', w.map Prod.snd, ?_, ⟨hw', fun p l hl => ?_, fun p l h => ?_⟩, hfound, ?_, ?_⟩
  · rw [connect]
    change (selected.foldlM (linkBack config pts i k) _).bind _ = _
    rw [hrun]
    rfl
  · rw [hother p l hl.ne, ← hw.ahead p l (Nat.lt_succ_of_lt hl)]
    exact setLinks_of_ne fun h => hl.ne h.2
  · exact hkeep p l (hkept₁ p l (hw.kept p l h))
  · refine hkeep i k ?_
    change setLinks links i k selected i k ≠ []
    rwa [setLinks_self]
  · obtain ⟨nb, hnb⟩ := List.exists_mem_of_ne_nil _ hnil
    exact ⟨nb, (hsel nb hnb).1, hall nb hnb⟩

/-! ## One insertion -/

/-- **The layers of the wiring** from the top one down to `lo`. -/
theorem foldlM_connect (hm : ∀ layer, 1 ≤ config.maxConn layer) (hef : 1 ≤ config.efConstruction)
    (hi : i < pts.size) {b₀ : GraphLayersBuilder} (hb : Wired config pts (· < i) b₀.links)
    (lo k : ℕ) (hk : lo + k ≤ pts.level i + 1) {links : Links}
    (hw : Wiring config pts i (lo + k) b₀ links) {ep : List ℕ}
    (hep : Entries pts i (lo + k - 1) ep) :
    ∃ links' ep', (List.range' lo k).reverse.foldlM (connect config pts i) ({ b₀ with links }, ep) =
        some ({ b₀ with links := links' }, ep') ∧ Wiring config pts i lo b₀ links' ∧
      Entries pts i (lo - 1) ep' ∧
      (0 < k → links' i lo ≠ [] ∧ ∃ nb < i, links' nb lo ≠ []) := by
  induction k generalizing links ep with
  | zero => exact ⟨links, ep, rfl, hw, hep, fun h => absurd h (lt_irrefl 0)⟩
  | succ k ih =>
    obtain ⟨links₁, ep₁, hrun₁, hw₁, hep₁, hown, hother⟩ :=
      connect_spec (hm (lo + k)) hef hi (by omega) hb hw hep
    obtain ⟨links', ep', hrun, hw', hep', hlast⟩ :=
      ih (by omega) hw₁ (hep₁.mono (Nat.sub_le _ 1))
    refine ⟨links', ep', ?_, hw', hep', fun _ => ?_⟩
    · rw [List.range'_concat, List.reverse_append, List.reverse_singleton, List.singleton_append,
        List.foldlM_cons, Nat.one_mul, hrun₁]
      exact hrun
    · rcases Nat.eq_zero_or_pos k with rfl | hpos
      · cases hrun
        exact ⟨hown, hother⟩
      · exact hlast hpos

/-- The first of the first `i` points to have the maximal level among them. -/
def FirstTop (pts : Points) (i e : ℕ) : Prop :=
  e < i ∧ (∀ q < i, pts.level q ≤ pts.level e) ∧ ∀ q < e, pts.level q < pts.level e

/-- **The builder's invariant** after its first `i` points. -/
structure Inserted (config : HnswConfig) (pts : Points) (i : ℕ) (b : GraphLayersBuilder) :
    Prop where
  /-- The links are well formed, and between points inserted. -/
  wired : Wired config pts (· < i) b.links
  /-- Of two or more points inserted, none is isolated. -/
  linked : 2 ≤ i → ∀ p < i, b.links p 0 ≠ []
  /-- Before the first point there is no entry. -/
  start : i = 0 → b.entry = none
  /-- The entry is the first point of maximal level, whose level is the top layer. -/
  top : 0 < i → ∃ e, b.entry = some e ∧ b.maxLevel = pts.level e ∧ FirstTop pts i e

theorem inserted_new : Inserted config pts 0 new :=
  ⟨wired_empty, fun h => absurd h (by decide), fun _ => rfl, fun h => absurd h (lt_irrefl 0)⟩

/-- A point whose level is not above the top leaves the entry where it is. -/
theorem FirstTop.succ_of_le {e : ℕ} (h : FirstTop pts i e) (hle : pts.level i ≤ pts.level e) :
    FirstTop pts (i + 1) e := by
  refine ⟨Nat.lt_succ_of_lt h.1, fun q hq => ?_, h.2.2⟩
  rcases Nat.lt_succ_iff_lt_or_eq.mp hq with hq | rfl
  · exact h.2.1 q hq
  · exact hle

/-- A point above the top is the new entry. -/
theorem FirstTop.succ_of_lt {e : ℕ} (h : FirstTop pts i e) (hlt : pts.level e < pts.level i) :
    FirstTop pts (i + 1) i := by
  refine ⟨Nat.lt_succ_self i, fun q hq => ?_, fun q hq => (h.2.1 q hq).trans_lt hlt⟩
  rcases Nat.lt_succ_iff_lt_or_eq.mp hq with hq | rfl
  · exact (h.2.1 q hq).trans hlt.le
  · exact le_rfl

/-- The entry points of the first layer a point is wired on. -/
def startEp (pts : Points) (i : ℕ) (b : GraphLayersBuilder) (e : ℕ) : List ℕ :=
  (layersAbove (pts.level i) b.maxLevel).foldl (descendStep pts i b) [e]

theorem entries_startEp {b : GraphLayersBuilder} (hb : Inserted config pts i b) {e : ℕ}
    (he : e < i) (htop : b.maxLevel = pts.level e) :
    Entries pts i (min (pts.level i) b.maxLevel) (startEp pts i b e) := by
  have hsingle : Entries pts i b.maxLevel [e] := ⟨List.cons_ne_nil _ _, fun x hx => by
    rw [List.mem_singleton.mp hx]
    exact ⟨he, htop.le⟩⟩
  rcases Nat.le_total (pts.level i) b.maxLevel with hle | hle
  · rw [Nat.min_eq_left hle]
    refine entries_descend hb.wired _ ?_ i
    rwa [Nat.add_sub_of_le hle]
  · rw [startEp, layersAbove, Nat.sub_eq_zero_of_le hle, Nat.min_eq_right hle]
    exact hsingle

/-- Nothing wired yet. -/
theorem wiring_start {b : GraphLayersBuilder} (hw : Wired config pts (· < i) b.links) (k : ℕ) :
    Wiring config pts i k b b.links :=
  ⟨hw.mono fun _ hp => Nat.lt_succ_of_lt hp, fun _ _ _ => rfl, fun _ _ h => h⟩

/-- An insertion, from what its wiring leaves. -/
theorem insert_eq {b : GraphLayersBuilder} {e : ℕ} (hentry : b.entry = some e) {links : Links}
    {ep : List ℕ}
    (hrun : (List.range' 0 (min (pts.level i) b.maxLevel + 1)).reverse.foldlM (connect config pts i)
      ({ b with links := b.links }, startEp pts i b e) = some ({ b with links }, ep)) :
    insert config pts i b = some (if b.maxLevel < pts.level i then ⟨links, some i, pts.level i⟩
      else { b with links }) := by
  rw [insert, hentry]
  change ((layersDown _).foldlM (connect config pts i) ({ b with links := b.links }, _)).bind _ = _
  rw [startEp] at hrun
  rw [layersDown, List.range_eq_range', hrun, hentry, Option.bind_some]
  exact (apply_ite some _ _ _).symm

/-- **One insertion** succeeds, and keeps the invariant. -/
theorem insert_spec (hm : ∀ layer, 1 ≤ config.maxConn layer) (hef : 1 ≤ config.efConstruction)
    (hi : i < pts.size) {b : GraphLayersBuilder} (hb : Inserted config pts i b) :
    ∃ b', insert config pts i b = some b' ∧ Inserted config pts (i + 1) b' := by
  rcases Nat.eq_zero_or_pos i with rfl | hpos
  · refine ⟨{ b with entry := some 0, maxLevel := pts.level 0 }, by rw [insert, hb.start rfl],
      hb.wired.mono fun p hp => Nat.lt_succ_of_lt hp,
      fun h => absurd h (by decide), fun h => absurd h (by decide), fun _ => ⟨0, rfl, rfl, ?_⟩⟩
    refine ⟨Nat.lt_succ_self 0, fun q hq => ?_, fun q hq => absurd hq (Nat.not_lt_zero q)⟩
    rw [Nat.lt_one_iff.mp hq]
  obtain ⟨e, hentry, htop, hfirst⟩ := hb.top hpos
  obtain ⟨links, ep', hrun, hw', -, hlast⟩ := foldlM_connect hm hef hi hb.wired 0
    (min (pts.level i) b.maxLevel + 1) (by omega) (wiring_start hb.wired _)
      ((entries_startEp hb hfirst.1 htop).mono (by omega))
  obtain ⟨hown, nb, hnb, hother⟩ := hlast (Nat.succ_pos _)
  have hlinked : 2 ≤ i + 1 → ∀ p < i + 1, links p 0 ≠ [] := by
    intro _ p hp
    rcases Nat.lt_succ_iff_lt_or_eq.mp hp with hp | rfl
    · rcases Nat.lt_or_ge i 2 with h1 | h2
      · obtain rfl : p = nb := by omega
        exact hother
      · exact hw'.kept p 0 (hb.linked h2 p hp)
    · exact hown
  refine ⟨_, insert_eq hentry hrun, ?_⟩
  split
  · exact ⟨hw'.wired, hlinked, fun h => absurd h (Nat.succ_ne_zero i), fun _ =>
      ⟨i, rfl, rfl, hfirst.succ_of_lt (by rwa [← htop])⟩⟩
  · exact ⟨hw'.wired, hlinked, fun h => absurd h (Nat.succ_ne_zero i), fun _ =>
      ⟨e, hentry, htop, hfirst.succ_of_le (by rw [← htop]; omega)⟩⟩

theorem inserts_succ (config : HnswConfig) (pts : Points) (i : ℕ) :
    inserts config pts (i + 1) = (inserts config pts i).bind (insert config pts i) := by
  rw [inserts, inserts, List.range_succ, List.foldlM_append]
  refine congrArg (Option.bind _) (funext fun b => ?_)
  rw [List.foldlM_cons]
  exact Option.bind_fun_some _

/-- **Any number of insertions** succeeds. -/
theorem inserts_spec (hm : ∀ layer, 1 ≤ config.maxConn layer) (hef : 1 ≤ config.efConstruction)
    (hi : i ≤ pts.size) : ∃ b, inserts config pts i = some b ∧ Inserted config pts i b := by
  induction i with
  | zero => exact ⟨new, rfl, inserted_new⟩
  | succ i ih =>
    obtain ⟨b, hrun, hb⟩ := ih (Nat.le_of_succ_le hi)
    obtain ⟨b', hrun', hb'⟩ := insert_spec hm hef hi hb
    exact ⟨b', by rw [inserts_succ, hrun, Option.bind_some, hrun'], hb'⟩

end GraphLayersBuilder

end Vecvec.Hnsw
