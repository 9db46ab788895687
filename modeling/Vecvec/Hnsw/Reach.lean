import Vecvec.Hnsw.Complete
import Vecvec.Hnsw.Index
import Vecvec.Hnsw.Sequential

/-!
# Hnsw/Reach — which rows a search of a sealed segment can find

A search asked for as many results as there are rows has a beam as wide as the graph: it finds
exactly the live rows that the links of layer 0 lead to from where its descent ends
(`mem_search_iff`).

Every point links to an earlier one and is pushed onto the lists of those it links to, so all of
them would be reachable, if lists were not cut down to the degree bound.  A push onto a list with
room cuts nothing; a push onto a full list loses nobody if those it cuts are linked to by some that
stay (`Spares`).  A build of such pushes keeps layer 0 strongly connected (`connected_inserts`), and
its segment loses no live row (`search_complete`).  Four equal vectors under a bound of two are
enough to lose the last one (`search_loses_duplicate`).
-/

namespace Vecvec.Hnsw

/-! ## Pushing a point onto its neighbours' lists -/

section

variable (config : HnswConfig) (pts : Points) (i : ℕ)

/-- The list of a neighbour on layer 0, with the point pushed onto it, and cut if it was full. -/
def pushed (links : Links) (nb : ℕ) : List ℕ := shrink config pts nb 0 (links nb 0 ++ [i])

/-- The links once the point is pushed onto the list of a neighbour. -/
def push (links : Links) (nb : ℕ) : Links := setLinks links nb 0 (pushed config pts i links nb)

/-- **A push that loses nobody**: the list has room, or a point that is going to be cut off it is
linked to by one that stays. -/
def Spares (links : Links) (nb : ℕ) : Prop :=
  (links nb 0).length < config.mMax0 ∨
    ∀ q ∈ links nb 0 ++ [i], q ∉ pushed config pts i links nb →
      ∃ y ∈ pushed config pts i links nb, q ∈ links y 0

/-- Every one of some pushes, with the links as it finds them. -/
def SparesAll : List ℕ → Links → Prop
  | [], _ => True
  | nb :: rest, links => Spares config pts i links nb ∧ SparesAll rest (push config pts i links nb)

variable {links : Links} {nb : ℕ}

instance : Decidable (Spares config pts i links nb) :=
  inferInstanceAs (Decidable ((links nb 0).length < config.mMax0 ∨
    ∀ q ∈ links nb 0 ++ [i], q ∉ pushed config pts i links nb →
      ∃ y ∈ pushed config pts i links nb, q ∈ links y 0))

instance SparesAll.decidable : (selected : List ℕ) → (links : Links) →
    Decidable (SparesAll config pts i selected links)
  | [], _ => instDecidableTrue
  | nb :: rest, links =>
    have := SparesAll.decidable rest (push config pts i links nb)
    inferInstanceAs (Decidable (Spares config pts i links nb ∧ _))

open GraphLayersBuilder in
/-- **The pushes of an insertion**, from when it comes to layer 0: the point has linked itself to
whom it chooses there. -/
def SparesPushes (s : GraphLayersBuilder × List ℕ) : Prop :=
  SparesAll config pts i (chosenAt config pts i s.1.links s.2)
    (setLinks s.1.links i 0 (chosenAt config pts i s.1.links s.2))

instance : DecidablePred (SparesPushes config pts i) := fun _ => SparesAll.decidable ..

/-- No push of the build loses anybody on layer 0, and sealing can still number the links. -/
structure SparesPaths : Prop where
  /-- Every push, in the state it finds. -/
  pushes : ∀ i < pts.size, ∀ b ∈ GraphLayersBuilder.inserts config pts i,
    ∀ s ∈ b.beforeGround config pts i, SparesPushes config pts i s
  /-- Layer 0 has fewer links than a `u32` can number. -/
  numbered : ∀ b ∈ GraphLayersBuilder.inserts config pts pts.size,
    baseLinks b.links pts.size < 2 ^ 32

end

variable {config : HnswConfig} {pts : Points} {i nb : ℕ} {links links' : Links} {selected : List ℕ}

theorem push_of_ne {p : ℕ} (h : p ≠ nb) : push config pts i links nb p 0 = links p 0 :=
  setLinks_of_ne fun hp => h hp.1

theorem push_self : push config pts i links nb nb 0 = pushed config pts i links nb :=
  setLinks_self ..

theorem mem_of_mem_pushed {q : ℕ} (h : q ∈ pushed config pts i links nb) : q ∈ links nb 0 ++ [i] :=
  mem_of_mem_shrink h

/-- **With room nothing is cut.** -/
theorem pushed_of_room (h : (links nb 0).length < config.mMax0) :
    pushed config pts i links nb = links nb 0 ++ [i] := by
  refine shrink_eq_self ?_
  rw [List.length_append, List.length_singleton]
  exact h

open GraphLayersBuilder in
/-- **Linking back** is pushing. -/
theorem foldlM_linkBack_eq (hsel : ∀ nb ∈ selected, nb < pts.size) {b : GraphLayersBuilder} :
    selected.foldlM (linkBack config pts i 0) b =
      some { b with links := selected.foldl (push config pts i) b.links } := by
  induction selected generalizing b with
  | nil => rfl
  | cons nb rest ih =>
    obtain ⟨hnb, hsel⟩ := List.forall_mem_cons.mp hsel
    rw [List.foldlM_cons, linkBack, if_pos ⟨hnb, Nat.zero_le _⟩]
    exact ih hsel

/-! ## Reaching points on layer 0 -/

/-- Whether the links of layer 0 lead from one point to another. -/
def Reach (links : Links) : ℕ → ℕ → Prop := Relation.ReflTransGen fun p q => q ∈ links p 0

/-- Every two of the first `i` points reach each other. -/
def Connected (i : ℕ) (links : Links) : Prop := ∀ p < i, ∀ q < i, Reach links p q

/-- Points reach each other still, if each link can be followed as it is or by a detour. -/
theorem Reach.lift (h : ∀ p q, q ∈ links p 0 → Reach links' p q) {p q : ℕ}
    (hpq : Reach links p q) : Reach links' p q := by
  induction hpq with
  | refl => exact .refl
  | tail _ hstep ih => exact ih.trans (h _ _ hstep)

/-- **After a push that spares**, the neighbour reaches the point and all those on its list. -/
theorem Spares.reach (h : Spares config pts i links nb) (hloop : nb ∉ links nb 0 ++ [i]) {q : ℕ}
    (hq : q ∈ links nb 0 ++ [i]) : Reach (push config pts i links nb) nb q := by
  have hstays {y : ℕ} (hy : y ∈ pushed config pts i links nb) :
      Reach (push config pts i links nb) nb y := by
    refine .single ?_
    rwa [push_self]
  by_cases hmem : q ∈ pushed config pts i links nb
  · exact hstays hmem
  rcases h with hroom | hcut
  · exact absurd (by rwa [pushed_of_room hroom]) hmem
  · -- The one that stays has a list of its own, which the push leaves alone.
    obtain ⟨y, hy, hyq⟩ := hcut q hq hmem
    refine (hstays hy).tail ?_
    rwa [push_of_ne (ne_of_mem_of_not_mem (mem_of_mem_pushed hy) hloop)]

/-- **One push**: nobody is lost. -/
theorem Spares.lift (h : Spares config pts i links nb) (hloop : nb ∉ links nb 0 ++ [i]) {p q : ℕ}
    (hpq : Reach links p q) : Reach (push config pts i links nb) p q := by
  refine hpq.lift fun p q hq => ?_
  by_cases hp : p = nb
  · subst hp
    exact h.reach hloop (List.mem_append_left _ hq)
  · refine .single ?_
    rwa [push_of_ne hp]

/-- **All pushes of an insertion**: nobody is lost, and the neighbours reach the point. -/
theorem SparesAll.reach (h : SparesAll config pts i selected links) (hnodup : selected.Nodup)
    (hloop : ∀ nb ∈ selected, nb ∉ links nb 0 ++ [i]) :
    (∀ p q, Reach links p q → Reach (selected.foldl (push config pts i) links) p q) ∧
      ∀ nb ∈ selected, Reach (selected.foldl (push config pts i) links) nb i := by
  induction selected generalizing links with
  | nil => exact ⟨fun _ _ => id, fun _ h => absurd h List.not_mem_nil⟩
  | cons nb rest ih =>
    obtain ⟨hspares, hrest⟩ := h
    obtain ⟨hnb, hnodup⟩ := List.nodup_cons.mp hnodup
    obtain ⟨hself, hloop⟩ := List.forall_mem_cons.mp hloop
    have hloop' : ∀ x ∈ rest, x ∉ push config pts i links nb x 0 ++ [i] := fun x hx => by
      rw [push_of_ne (ne_of_mem_of_not_mem hx hnb)]
      exact hloop x hx
    obtain ⟨hlift, hto⟩ := ih hrest hnodup hloop'
    refine ⟨fun p q hpq => hlift p q (hspares.lift hself hpq), List.forall_mem_cons.mpr ⟨?_, hto⟩⟩
    exact hlift nb i (hspares.reach hself (List.mem_append_right _ (List.mem_singleton_self i)))

/-- A new point that some point reaches, and that reaches it, joins those that are connected. -/
theorem Connected.succ (h : Connected i links)
    (hlift : ∀ p q, Reach links p q → Reach links' p q) (hnb : nb < i) (hto : Reach links' i nb)
    (hfrom : Reach links' nb i) : Connected (i + 1) links' := by
  intro p hp q hq
  rcases Nat.lt_succ_iff_lt_or_eq.mp hp with hp | rfl <;>
    rcases Nat.lt_succ_iff_lt_or_eq.mp hq with hq | rfl
  · exact hlift p q (h p hp q hq)
  · exact (hlift p nb (h p hp nb hnb)).trans hfrom
  · exact hto.trans (hlift nb q (h nb hnb q hq))
  · exact .refl

namespace GraphLayersBuilder

/-- Whom a point chooses on layer 0: some of those inserted, each once. -/
theorem chosenAt_spec (hm : ∀ layer, 1 ≤ config.maxConn layer) (hef : 1 ≤ config.efConstruction)
    {b₀ : GraphLayersBuilder} (hb : Wired config pts (· < i) b₀.links)
    (hw : Wiring config pts i 1 b₀ links) {ep : List ℕ} (hep : Entries pts i 0 ep) :
    chosenAt config pts i links ep ≠ [] ∧ (chosenAt config pts i links ep).Nodup ∧
      ∀ nb ∈ chosenAt config pts i links ep, nb < i := by
  have hfound : Entries pts i 0 ((searchLayer (fun c => links c 0) config.efConstruction
      (pts.dist i) (fun _ => true) pts.size ep).map Prod.snd) := hep.search hef (hw.closed hb)
  refine ⟨selectNeighbors_ne_nil (hm 0) ?_, nodup_selectNeighbors nodup_searchLayer,
    fun nb hnb => (hfound.2 nb (mem_selectNeighbors hnb).2).1⟩
  obtain ⟨e, he⟩ := List.exists_mem_of_ne_nil _ hfound.1
  obtain ⟨key, hkey, rfl⟩ := List.mem_map.mp he
  exact ⟨key, hkey, (hfound.2 _ he).1.ne⟩

/-- **One insertion whose pushes spare** keeps layer 0 connected. -/
theorem connected_insert (hm : ∀ layer, 1 ≤ config.maxConn layer)
    (hef : 1 ≤ config.efConstruction) (hi : i < pts.size) {b b' : GraphLayersBuilder}
    (hb : Inserted config pts i b) (hins : insert config pts i b = some b')
    (hspares : ∀ s ∈ b.beforeGround config pts i, SparesPushes config pts i s)
    (h : Connected i b.links) : Connected (i + 1) b'.links := by
  rcases Nat.eq_zero_or_pos i with rfl | hpos
  · intro p hp q hq
    rw [Nat.lt_one_iff.mp hp, Nat.lt_one_iff.mp hq]
    exact .refl
  obtain ⟨links, ep, hground, hw, hep, hconnect⟩ := exists_insert_eq_connect hm hef hpos hi hb
  have hspares : SparesPushes config pts i ({ b with links }, ep) := hspares _ hground
  obtain ⟨hne, hnodup, hlt⟩ := chosenAt_spec hm hef hb.wired hw hep
  rw [SparesPushes] at hspares
  generalize hchosen : chosenAt config pts i links ep = chosen at hspares hne hnodup hlt
  have hold (p : ℕ) : links p 0 = b.links p 0 := hw.ahead p 0 Nat.zero_lt_one
  -- The point links itself to whom it chooses, and is pushed onto their lists.
  obtain ⟨b'', hb'', hlinks⟩ := hconnect
    (chosen.foldl (push config pts i) (setLinks links i 0 chosen))
    ((searchLayer (fun c => links c 0) config.efConstruction (pts.dist i) (fun _ => true) pts.size
      ep).map Prod.snd) (by
    rw [connect]
    change ((chosenAt config pts i links ep).foldlM (linkBack config pts i 0)
      ⟨setLinks links i 0 (chosenAt config pts i links ep), b.entry, b.maxLevel⟩).bind _ = _
    rw [hchosen, foldlM_linkBack_eq fun nb hnb => (hlt nb hnb).trans hi]
    rfl)
  obtain rfl : b'' = b' := Option.some.inj (hb''.symm.trans hins)
  have hset {p : ℕ} (hp : p ≠ i) : setLinks links i 0 chosen p 0 = b.links p 0 :=
    (setLinks_of_ne fun h => hp h.1).trans (hold p)
  obtain ⟨hlift, hfrom⟩ := hspares.reach hnodup fun nb hnb => by
    rw [hset (hlt nb hnb).ne, List.mem_append, List.mem_singleton]
    exact not_or.mpr ⟨hb.wired.loopless nb 0, (hlt nb hnb).ne⟩
  obtain ⟨nb, hnb⟩ := List.exists_mem_of_ne_nil _ hne
  rw [hlinks]
  refine h.succ (fun p q hpq => hlift p q (hpq.lift fun p q hq => .single ?_)) (hlt nb hnb)
    (hlift i nb (.single ?_)) (hfrom nb hnb)
  · have hp : p < i := (hb.wired.owner p 0 (List.ne_nil_of_mem hq)).1
    rwa [hset hp.ne]
  · rwa [setLinks_self]

/-- **A build that spares paths is connected** on layer 0, all along. -/
theorem connected_inserts (hm : ∀ layer, 1 ≤ config.maxConn layer)
    (hef : 1 ≤ config.efConstruction) (h : SparesPaths config pts) (hi : i ≤ pts.size)
    {b : GraphLayersBuilder} (hrun : inserts config pts i = some b) : Connected i b.links := by
  induction i generalizing b with
  | zero => exact fun p hp => absurd hp (Nat.not_lt_zero p)
  | succ i ih =>
    obtain ⟨b₀, hrun₀, hins⟩ := Option.bind_eq_some_iff.mp ((inserts_succ config pts i) ▸ hrun)
    obtain ⟨b, hb, hinv⟩ := inserts_spec hm hef (Nat.le_of_succ_le hi)
    obtain rfl : b = b₀ := Option.some.inj (hb.symm.trans hrun₀)
    exact connected_insert hm hef hi hinv hins (h.pushes i hi b hrun₀)
      (ih (Nat.le_of_succ_le hi) hrun₀)

end GraphLayersBuilder

/-! ## What a search finds -/

section Search

variable {g : GraphLayers} {layer ef : ℕ} {dist : ℕ → F32} {admits : ℕ → Bool} {φ : ℕ → Prop}

/-- **Where the links can be read** a search of a sealed graph is the search of its links. -/
theorem GraphLayers.searchLayer_eq {f : ℕ → List ℕ}
    (hread : ∀ c, φ c → g.neighbors c layer = some (f c)) (hclosed : ∀ c, φ c → ∀ x ∈ f c, φ x)
    {ep : List ℕ} (hep : ∀ e ∈ ep, φ e) :
    g.searchLayer layer ef dist admits ep =
      some (Hnsw.searchLayer f ef dist admits g.levels.length ep) := by
  have hloop (fuel : ℕ) {b : Beam} (hb : b.Ok φ ef) :
      g.searchLoop layer ef dist admits fuel b =
        some (Hnsw.searchLoop f ef dist admits fuel b) := by
    induction fuel generalizing b with
    | zero => rfl
    | succ fuel ih =>
      rw [GraphLayers.searchLoop, Hnsw.searchLoop]
      cases hpop : b.pop ef with
      | none => rfl
      | some cb =>
        obtain ⟨hc, hok⟩ := hb.pop hpop
        change (g.neighbors cb.1 layer).bind _ = _
        rw [hread cb.1 hc]
        exact ih (hok.foldl_visit (hclosed cb.1 hc))
  rw [GraphLayers.searchLayer, hloop _ (Beam.ok_empty.foldl_enter hep)]
  rfl

/-- A sealed graph whose links can all be read. -/
structure Readable (config : HnswConfig) (pts : Points) (links : Links) (g : GraphLayers) :
    Prop where
  /-- The links are well formed. -/
  wired : Wired config pts (· < pts.size) links
  /-- The graph reads back as the links. -/
  read : ∀ layer c, c < pts.size ∧ layer ≤ pts.level c → g.neighbors c layer = some (links c layer)
  /-- It has every point. -/
  size : g.levels.length = pts.size
  /-- The entry is on the top layer. -/
  entry : 1 ≤ pts.size → ∃ e < pts.size, g.entry = some e ∧ g.maxLevel ≤ pts.level e

/-- **The descent** ends at a point. -/
theorem Readable.descend (h : Readable config pts links g) (k : ℕ) {ep : List ℕ} (hne : ep ≠ [])
    (hep : ∀ e ∈ ep, e < pts.size ∧ k ≤ pts.level e) :
    ∃ ep', g.descend dist (List.range' 1 k).reverse ep = some ep' ∧ ep' ≠ [] ∧
      ∀ e ∈ ep', e < pts.size := by
  induction k generalizing ep with
  | zero => exact ⟨ep, rfl, hne, fun e he => (hep e he).1⟩
  | succ k ih =>
    have hlayer : 1 + 1 * k = k + 1 := by omega
    rw [List.range'_concat, List.reverse_append, List.reverse_singleton, List.singleton_append,
      hlayer, GraphLayers.descend]
    have hw (key) := @of_mem_searchLayer (fun c => links c (k + 1)) 1 dist (fun _ => true)
      g.levels.length (fun c => c < pts.size ∧ k + 1 ≤ pts.level c) ep (h.wired.closed (k + 1))
      hep key
    rw [GraphLayers.searchLayer_eq (f := fun c => links c (k + 1)) (h.read (k + 1))
      (h.wired.closed (k + 1)) hep, Option.bind_eq_bind, Option.bind_some]
    split
    · rename_i best rest hbest
      have hlevel := hw best (hbest ▸ List.mem_cons_self)
      refine ih (List.cons_ne_nil _ _) fun e he => ?_
      rw [List.mem_singleton.mp he]
      exact ⟨hlevel.1, Nat.le_of_succ_le hlevel.2⟩
    · exact ih hne fun e he => ⟨(hep e he).1, Nat.le_of_succ_le (hep e he).2⟩

/-- **A search with a beam as wide as the graph** finds exactly the admitted points that the links
of layer 0 lead to from where its descent ends. -/
theorem Readable.searchIds (h : Readable config pts links g) (hpos : 1 ≤ pts.size)
    {k : ℕ} (hk : pts.size ≤ k) (hef : pts.size ≤ ef) :
    ∃ entry ep w, g.entry = some entry ∧
      g.descend dist (layersAbove 0 g.maxLevel) [entry] = some ep ∧ ep ≠ [] ∧
      (∀ e ∈ ep, e < pts.size) ∧ g.searchIds dist k ef admits = some w ∧ w.length ≤ pts.size ∧
      ∀ x, x ∈ w.map Prod.snd ↔ admits x = true ∧ ∃ e ∈ ep, Reach links e x := by
  obtain ⟨entry, hlt, hentry, htop⟩ := h.entry hpos
  obtain ⟨ep, hdescend, hne, hep⟩ := @Readable.descend config pts links g dist h g.maxLevel [entry]
    (List.cons_ne_nil _ _) fun e he => by
      rw [List.mem_singleton.mp he]
      exact ⟨hlt, htop⟩
  have hclosed : ∀ c, c < pts.size → ∀ x ∈ links c 0, x < pts.size := fun c _ x hx =>
    (h.wired.present c 0 x hx).1
  let w := Hnsw.searchLayer (fun c => links c 0) ef dist admits g.levels.length ep
  have hlen : w.length ≤ pts.size := by
    rw [← List.length_map (f := Prod.snd)]
    refine length_le_of_nodup nodup_searchLayer fun x hx => ?_
    obtain ⟨key, hkey, rfl⟩ := List.mem_map.mp hx
    exact of_mem_searchLayer (φ := (· < pts.size)) hclosed hep hkey
  refine ⟨entry, ep, w, hentry, hdescend, hne, hep, ?_, hlen, fun x => ⟨fun hx => ?_, ?_⟩⟩
  · rw [GraphLayers.searchIds, hentry]
    change (g.descend dist (List.range' 1 g.maxLevel).reverse [entry]).bind _ = _
    rw [hdescend, Option.bind_some]
    change (g.searchLayer 0 ef dist admits ep).bind _ = _
    rw [GraphLayers.searchLayer_eq (φ := (· < pts.size)) (f := fun c => links c 0)
      (fun c hc => h.read 0 c ⟨hc, Nat.zero_le _⟩) hclosed hep]
    change some (w.take k) = some w
    rw [List.take_of_length_le (hlen.trans hk)]
  · obtain ⟨key, hkey, rfl⟩ := List.mem_map.mp hx
    refine ⟨(keyed_of_mem_searchLayer hkey).2, ?_⟩
    exact of_mem_searchLayer (φ := fun x => ∃ e ∈ ep, Reach links e x)
      (fun c ⟨e, he, hec⟩ x hx => ⟨e, he, hec.tail hx⟩) (fun e he => ⟨e, he, .refl⟩) hkey
  · rintro ⟨hadmits, e, he, hreach⟩
    exact mem_searchLayer_of_reachable (φ := (· < pts.size)) (fun x hx => hx.trans_eq h.size.symm)
      (h.size.le.trans hef) hclosed hep he hreach hadmits

end Search

/-! ## A sealed segment -/

section Segment

variable {K : Kernels}

/-- The distance a search ranks rows by: that of the int8 copy, if there is one. -/
def HnswIndex.ranking (ix : HnswIndex K) (query : List F32) : ℕ → F32 :=
  match ix.quantized with
  | some block => K.badness block query
  | none => fun id => ix.vectors.badnessOf (ix.vectors.score K query id)

/-- Where the descent of a query ends. -/
def HnswIndex.descentEnd (ix : HnswIndex K) (query : List F32) : Option (List ℕ) :=
  ix.graph.entry.bind fun entry =>
    ix.graph.descend (ix.ranking query) (layersAbove 0 ix.graph.maxLevel) [entry]

/-- **Asked for as many rows as there are**, a search answers with exactly those it admits among the
rows that layer 0 leads to from the end of its descent, each with its exact score. -/
theorem mem_search_iff {ix : HnswIndex K} (h : Readable config pts links ix.graph)
    (hpos : 1 ≤ pts.size) {k : ℕ} (hk : pts.size ≤ k) (query : List F32) (paramsEf : ℕ)
    (filter : Option (ℕ → Bool)) :
    ∃ ep results, ix.descentEnd query = some ep ∧ ep ≠ [] ∧ (∀ e ∈ ep, e < pts.size) ∧
      ix.search query k paramsEf filter = some results ∧
      ∀ row, (row, ix.vectors.score K query row) ∈ results ↔
        (row ∉ ix.deleted ∧ filter.all (fun f => f row) = true) ∧ ∃ e ∈ ep, Reach links e row := by
  let admits : ℕ → Bool := fun id => decide (id ∉ ix.deleted) && filter.all fun f => f id
  let badness := fun id => ix.vectors.badnessOf (ix.vectors.score K query id)
  have hsearch : ∃ fetch ef, pts.size ≤ fetch ∧ pts.size ≤ ef ∧
      ix.search query k paramsEf filter =
        (ix.graph.searchIds (ix.ranking query) fetch ef admits).map fun candidates =>
          (((candidates.map fun c => (badness c.2, c.2)).insertionSort keyLe).take k).map
            fun key => (key.2, ix.vectors.score K query key.2) := by
    have hstart : ¬ (k = 0 ∨ ix.graph.levels.length = 0) := by
      rw [h.size]
      omega
    rw [HnswIndex.search, if_neg hstart, HnswIndex.ranking]
    cases ix.quantized with
    | some block =>
      let fetch := max (k * rescoreOversample % 2 ^ 64) k
      let ef := max (max (max paramsEf ix.config.efSearch) k) fetch
      refine ⟨fetch, ef, hk.trans (Nat.le_max_right _ _), hk.trans ((Nat.le_max_right _ _).trans
        (Nat.le_max_left _ _)), ?_⟩
      change (ix.graph.searchIds (K.badness block query) fetch ef admits).bind _ =
        (ix.graph.searchIds (K.badness block query) fetch ef admits).map _
      cases ix.graph.searchIds (K.badness block query) fetch ef admits <;> rfl
    | none =>
      let ef := max (max paramsEf ix.config.efSearch) k
      refine ⟨k, ef, hk, hk.trans (Nat.le_max_right _ _), ?_⟩
      change (ix.graph.searchIds badness k ef admits).bind _ =
        (ix.graph.searchIds badness k ef admits).map _
      cases ix.graph.searchIds badness k ef admits <;> rfl
  obtain ⟨fetch, ef, hfetch, hef, hsearch⟩ := hsearch
  obtain ⟨entry, ep, w, hentry, hdescend, hne, hep, hids, hlen, hall⟩ :=
    @Readable.searchIds config pts links ix.graph ef (ix.ranking query) admits h hpos
      fetch hfetch hef
  refine ⟨ep, _, ?_, hne, hep, hsearch.trans (congrArg _ hids), fun row => ?_⟩
  · rw [HnswIndex.descentEnd, hentry]
    exact hdescend
  · have htake : (((w.map fun c => (badness c.2, c.2)).insertionSort keyLe).take k) =
        (w.map fun c => (badness c.2, c.2)).insertionSort keyLe := by
      refine List.take_of_length_le ?_
      rw [List.length_insertionSort, List.length_map]
      exact hlen.trans hk
    have hadmits : admits row = true ↔ row ∉ ix.deleted ∧ filter.all (fun f => f row) = true := by
      rw [Bool.and_eq_true, decide_eq_true_eq]
    rw [← hadmits, ← hall row]
    beta_reduce
    rw [htake, List.mem_map]
    constructor
    · rintro ⟨key, hkey, hrow⟩
      obtain ⟨c, hc, rfl⟩ := List.mem_map.mp ((List.mem_insertionSort keyLe).mp hkey)
      exact List.mem_map.mpr ⟨c, hc, (Prod.mk.inj hrow).1⟩
    · intro hrow
      obtain ⟨c, hc, rfl⟩ := List.mem_map.mp hrow
      exact ⟨_, (List.mem_insertionSort keyLe).mpr (List.mem_map.mpr ⟨c, hc, rfl⟩), rfl⟩

/-- **The graph of a sequential build can be read**, if its links could be numbered. -/
theorem readable_intoGraphLayers {b : GraphLayersBuilder}
    (hb : GraphLayersBuilder.Inserted config pts pts.size b)
    (hnumbered : baseLinks b.links pts.size < 2 ^ 32) :
    Readable config pts b.links (b.intoGraphLayers pts) where
  wired := hb.wired
  read layer c hc :=
    (neighbors_intoGraphLayers pts.countP_levels_lt hnumbered
      (pts.getElem?_levels hc.1) layer).trans
      (congrArg some (if_pos hc.2))
  size := rfl
  entry hpos := by
    obtain ⟨e, hentry, htop, hfirst⟩ := hb.top hpos
    exact ⟨e, hfirst.1, hentry, htop.le⟩

/-- **Unfiltered search over a sealed segment loses no live row** if the build spares paths: asked
for as many rows as there are, it answers with every row that is not tombstoned. -/
theorem search_complete (K : Kernels) (s : AppendableSegment) (config : HnswConfig)
    (hm : 1 ≤ config.m) (hm0 : 1 ≤ config.mMax0) (hef : 1 ≤ config.efConstruction)
    (lv : Levels s.vectors.count) (id : SegmentId)
    (hspares : SparesPaths config (lv.points (s.vectors.distance K))) :
    ∃ ix : HnswIndex K, HnswIndex.build s.vectors config lv = some ix ∧
      ∀ (query : List F32) (k : ℕ) (_ : s.vectors.count ≤ k) (deletions : DeletionVector),
        ∃ results, (⟨id, ix, s.ids⟩ : SealedSegment K).search query k deletions none
          = some results ∧
          ∀ row < s.vectors.count, s.ids.localToGlobal.getD row 0 ∉ deletions →
            (s.ids.localToGlobal.getD row 0, s.vectors.score K query row) ∈ results := by
  have hmax := config.one_le_maxConn hm hm0
  obtain ⟨b, hrun, hb⟩ := GraphLayersBuilder.inserts_spec hmax hef
    (le_refl (lv.points (s.vectors.distance K)).size)
  have hsize : (lv.points (s.vectors.distance K)).size = s.vectors.count := lv.length_levels
  let ix : HnswIndex K := .ofGraph s.vectors config
    (b.intoGraphLayers (lv.points (s.vectors.distance K)))
  have hbuild : HnswIndex.build s.vectors config lv = some ix := by
    rw [HnswIndex.build, buildGraph, hrun]
    rfl
  refine ⟨ix, hbuild, fun query k hk deletions => ?_⟩
  rcases Nat.eq_zero_or_pos s.vectors.count with hzero | hpos
  · have hempty : ix.search query k 0 (some (SealedSegment.live ⟨id, ix, s.ids⟩ deletions none)) =
        some [] := if_pos (.inr (hsize.trans hzero))
    refine ⟨[], ?_, fun row hrow => absurd hrow (by omega)⟩
    rw [SealedSegment.search, hempty]
    rfl
  · have hread : Readable config (lv.points (s.vectors.distance K)) b.links ix.graph :=
      readable_intoGraphLayers hb (hspares.numbered b hrun)
    obtain ⟨ep, found, -, hne, hep, hsearch, hall⟩ := mem_search_iff hread (by rwa [hsize]) (k := k)
      (hsize.le.trans hk) query 0 (some (SealedSegment.live ⟨id, ix, s.ids⟩ deletions none))
    refine ⟨found.map fun r => (s.ids.localToGlobal.getD r.1 0, r.2), ?_, fun row hrow hlive => ?_⟩
    · rw [SealedSegment.search, hsearch]
      rfl
    · refine List.mem_map.mpr ⟨(row, s.vectors.score K query row),
        (hall row).mpr ⟨⟨?_, ?_⟩, ?_⟩, rfl⟩
      · exact Finset.notMem_empty row
      · simp only [Option.all_some, SealedSegment.live, Option.all_none, Bool.and_true]
        exact decide_eq_true hlive
      · obtain ⟨e, he⟩ := List.exists_mem_of_ne_nil ep hne
        exact ⟨e, he, GraphLayersBuilder.connected_inserts hmax hef hspares le_rfl hrun e
          (hep e he) row
          (hrow.trans_eq hsize.symm)⟩

/-- Two rows, the vector 0 under the ids 0 and 1. -/
def twoEqual : AppendableSegment :=
  ⟨⟨[0, 0], 1, .euclidean, 2, by decide, rfl⟩, .fromGlobalIds [0, 1]⟩

/-- Four rows in a row: the vectors 0 to 3 under the ids 0 to 3. -/
def fourInRow : AppendableSegment :=
  ⟨⟨[0, 1, 2, 3].map Sample.ofNat, 1, .euclidean, 4, by decide, rfl⟩, .fromGlobalIds [0, 1, 2, 3]⟩

/-- Four rows, the vector 0 under the ids 0 to 3. -/
def fourEqual : AppendableSegment :=
  ⟨⟨[0, 0, 0, 0], 1, .euclidean, 4, by decide, rfl⟩, .fromGlobalIds [0, 1, 2, 3]⟩

/-- A degree bound of two. -/
def pairConfig : HnswConfig := ⟨2, 2, 4, 64, 0, true, false⟩

/-- All rows on layer 0. -/
def groundLevels (n : ℕ) (h : n < 2 ^ 32) : Levels n where
  levels := List.replicate n 0
  length_levels := List.length_replicate
  fits := h
  clamped _ hlevel := (List.eq_of_mem_replicate hlevel).le.trans (Nat.zero_le _)

/-- **Four rows in a row are found** under a degree bound of two: the fourth is pushed onto full
lists, but those it cuts off them are linked to by rows that stay. -/
theorem search_complete_fourInRow :
    ∃ ix : HnswIndex Sample.kernels,
      HnswIndex.build fourInRow.vectors pairConfig (groundLevels 4 (by decide)) = some ix ∧
      ∀ (query : List F32) (k : ℕ) (_ : 4 ≤ k) (deletions : DeletionVector),
        ∃ results, (⟨1, ix, fourInRow.ids⟩ : SealedSegment _).search query k deletions none =
            some results ∧
          ∀ row < 4, fourInRow.ids.localToGlobal.getD row 0 ∉ deletions →
            (fourInRow.ids.localToGlobal.getD row 0,
              fourInRow.vectors.score Sample.kernels query row) ∈ results :=
  search_complete Sample.kernels fourInRow pairConfig (by decide) (by decide) (by decide)
    (groundLevels 4 (by decide)) 1 ⟨by decide +kernel, by decide +kernel⟩

/-- **The last of four equal vectors is lost** under a degree bound of two: the others keep each
other for neighbours. -/
theorem search_loses_duplicate :
    ¬ ∃ ix : HnswIndex Sample.kernels,
      HnswIndex.build fourEqual.vectors pairConfig (groundLevels 4 (by decide)) = some ix ∧
      ∀ (query : List F32) (k : ℕ) (_ : 4 ≤ k) (deletions : DeletionVector),
        ∃ results, (⟨1, ix, fourEqual.ids⟩ : SealedSegment _).search query k deletions none =
            some results ∧
          ∀ row < 4, fourEqual.ids.localToGlobal.getD row 0 ∉ deletions →
            (fourEqual.ids.localToGlobal.getD row 0,
              fourEqual.vectors.score Sample.kernels query row) ∈ results := by
  rintro ⟨ix, hix, hall⟩
  have hfound : (HnswIndex.build (K := Sample.kernels) fourEqual.vectors pairConfig
      (groundLevels 4 (by decide))).bind (fun ix =>
        (⟨1, ix, fourEqual.ids⟩ : SealedSegment _).search [0] 4 ∅ none) =
      some [(0, 0), (1, 0), (2, 0)] := by
    decide +kernel
  obtain ⟨results, hresults, hmem⟩ := hall [0] 4 le_rfl ∅
  rw [hix, Option.bind_some, hresults] at hfound
  have hlast := hmem 3 (by decide) (Finset.notMem_empty _)
  rw [Option.some.inj hfound] at hlast
  exact absurd (List.mem_map_of_mem (f := Prod.fst) hlast) (by decide)

end Segment

end Vecvec.Hnsw
