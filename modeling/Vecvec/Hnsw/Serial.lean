import Vecvec.Hnsw.Parallel
import Vecvec.Hnsw.Sequential

/-!
# Hnsw/Serial — the concurrent builder without concurrency

Run one after another, in id order, the insertions of the concurrent builder leave what the
sequential builder leaves (`serial_eq`), so the two seal into the same graph.  The simulation
relates the two states outright (`ofSequential`): between insertions they hold the same links and
entry.

* Merging into the point's own list is overwriting it: the list is still empty.
* A search reads only points that are there, so no index is out of range.
* Nobody else raises the entry between reading it and raising it.

A serial run is one of the schedules (`builds_of_serial`).
-/

namespace Vecvec.Hnsw

open Machinery

namespace ConcurrentBuilder

/-- An insertion by itself. -/
def insertAlone (config : HnswConfig) (pts : Points) (s : ConcurrentBuilder) (point : ℕ) :
    Option ConcurrentBuilder :=
  (run (step config pts) point (insert config pts point) s).map Prod.snd

/-- The insertions of points 1, 2, …, one after another. -/
def serial (config : HnswConfig) (pts : Points) : Option ConcurrentBuilder :=
  (List.range' 1 (pts.size - 1)).foldlM (insertAlone config pts) (seeded pts)

/-- The sequential builder's state, in the threads' hands. -/
def ofSequential (b : GraphLayersBuilder) : ConcurrentBuilder :=
  ⟨b.links, b.entry, b.maxLevel, false⟩

variable {config : HnswConfig} {pts : Points} {i : ℕ} {b : GraphLayersBuilder}

/-! ## Searching -/

theorem step_readLinks {s : ConcurrentBuilder} {c layer t : ℕ} (hc : c < pts.size) :
    step config pts t (.readLinks c layer) s = some (s.links c layer, s) := if_pos hc

/-- **A search by itself** is the sequential search. -/
theorem run_searchLoop {s : ConcurrentBuilder} {φ : ℕ → Prop} {layer ef t : ℕ} {dist : ℕ → F32}
    (hφ : ∀ x, φ x → x < pts.size) (hclosed : ∀ c, φ c → ∀ x ∈ s.links c layer, φ x) (fuel : ℕ)
    {beam : Beam} (hb : beam.Ok φ ef) :
    run (step config pts) t (searchLoop layer ef dist fuel beam) s =
      some (Hnsw.searchLoop (fun c => s.links c layer) ef dist (fun _ => true) fuel beam, s) := by
  induction fuel generalizing beam with
  | zero => rfl
  | succ fuel ih =>
    rw [searchLoop, Hnsw.searchLoop]
    cases hpop : beam.pop ef with
    | none => rfl
    | some cb =>
      obtain ⟨c, beam'⟩ := cb
      have hok := hb.pop hpop
      refine (run_act_of_eq (step_readLinks (hφ c hok.1))).trans ?_
      exact ih (hok.2.foldl_visit (hclosed c hok.1))

theorem run_searchLayer {s : ConcurrentBuilder} {φ : ℕ → Prop} {point layer ef t : ℕ}
    {ep : List ℕ} (hφ : ∀ x, φ x → x < pts.size)
    (hclosed : ∀ c, φ c → ∀ x ∈ s.links c layer, φ x) (hep : ∀ e ∈ ep, φ e) :
    run (step config pts) t (searchLayer pts point layer ef ep) s =
      some (Hnsw.searchLayer (fun c => s.links c layer) ef (pts.dist point) (fun _ => true)
        pts.size ep, s) :=
  run_bind_of_eq (run_searchLoop hφ hclosed pts.size (Beam.ok_empty.foldl_enter hep))

open GraphLayersBuilder

theorem run_descend_cons (hi : i ≤ pts.size) (hw : Wired config pts (· < i) b.links) {layer : ℕ}
    {ep : List ℕ} (hep : Entries pts i layer ep) (point : ℕ) (rest : List ℕ) :
    run (step config pts) point (descend pts point (layer :: rest) ep) (ofSequential b) =
      run (step config pts) point (descend pts point rest (descendStep pts point b ep layer))
        (ofSequential b) := by
  refine (run_bind_of_eq (run_searchLayer (φ := fun x => x < i ∧ layer ≤ pts.level x)
    (fun x hx => hx.1.trans_le hi) (hw.closed layer) hep.2)).trans ?_
  rw [descendStep, show (ofSequential b).links = b.links from rfl]
  cases Hnsw.searchLayer (fun c => b.links c layer) 1 (pts.dist point) (fun _ => true) pts.size ep
    <;> rfl

/-- **The descent by itself.** -/
theorem run_descend (hi : i ≤ pts.size) (hw : Wired config pts (· < i) b.links) {level : ℕ} (k : ℕ)
    {ep : List ℕ} (hep : Entries pts i (level + k) ep) (point : ℕ) :
    run (step config pts) point (descend pts point (List.range' (level + 1) k).reverse ep)
      (ofSequential b) =
      some ((List.range' (level + 1) k).reverse.foldl (descendStep pts point b) ep,
        ofSequential b) := by
  induction k generalizing ep with
  | zero => rfl
  | succ k ih =>
    have hnext := @entries_descend config pts i b hw (level + k) 1 ep hep point
    have hlayer : level + 1 + 1 * k = level + k + 1 := by omega
    rw [List.range'_concat, List.reverse_append, List.reverse_singleton, List.singleton_append,
      List.foldl_cons, hlayer]
    exact (run_descend_cons hi hw hep point _).trans (ih hnext)

/-! ## Wiring -/

theorem step_pushBack {layer nb : ℕ} (hnb : nb < pts.size ∧ layer ≤ pts.level nb)
    (hnew : i ∉ b.links nb layer) :
    ∃ b', linkBack config pts i layer b nb = some b' ∧
      step config pts i (.pushBack nb layer i) (ofSequential b) = some ((), ofSequential b') := by
  refine ⟨_, if_pos hnb, ?_⟩
  change some ((), (ofSequential b).write pts nb layer
    (enforceBound config pts nb layer (pushNew (b.links nb layer) i))) = _
  rw [pushNew, if_neg hnew, ConcurrentBuilder.write, if_pos hnb]
  rfl

/-- **Linking back by itself.** -/
theorem run_pushBacks {layer : ℕ} {selected : List ℕ} (hnodup : selected.Nodup)
    (hsel : ∀ nb ∈ selected, nb < pts.size ∧ layer ≤ pts.level nb)
    (hnew : ∀ nb ∈ selected, i ∉ b.links nb layer) {b' : GraphLayersBuilder}
    (hrun : selected.foldlM (linkBack config pts i layer) b = some b') :
    run (step config pts) i (selected.forM fun nb =>
      Prog.perform (S := BuildOps) (.pushBack nb layer i)) (ofSequential b) =
      some ((), ofSequential b') := by
  induction selected generalizing b with
  | nil =>
    cases hrun
    rfl
  | cons nb rest ih =>
    obtain ⟨hnotin, hrest⟩ := List.nodup_cons.mp hnodup
    obtain ⟨b₁, hlink, hstep⟩ := @step_pushBack config pts i b layer nb
      (hsel nb List.mem_cons_self) (hnew nb List.mem_cons_self)
    rw [List.foldlM_cons, hlink] at hrun
    refine (run_act_of_eq hstep).trans ?_
    refine ih hrest (fun x hx => hsel x (List.mem_cons_of_mem _ hx)) (fun x hx => ?_) hrun
    rw [linkBack, if_pos (hsel nb List.mem_cons_self)] at hlink
    cases hlink
    change i ∉ setLinks b.links nb layer _ x layer
    have hne : ¬ (x = nb ∧ layer = layer) := fun h => hnotin (h.1 ▸ hx)
    rw [setLinks_of_ne hne]
    exact hnew x (List.mem_cons_of_mem _ hx)

/-- Merging into a list that is still empty. -/
theorem foldl_pushNew_of_nodup {selected list : List ℕ} (h : (list ++ selected).Nodup) :
    selected.foldl pushNew list = list ++ selected := by
  induction selected generalizing list with
  | nil => exact (List.append_nil list).symm
  | cons s selected ih =>
    have hs : s ∉ list := fun hmem =>
      (List.nodup_append.mp h).2.2 s hmem s List.mem_cons_self rfl
    rw [List.foldl_cons, pushNew, if_neg hs, ih] <;>
      rw [List.append_assoc, List.singleton_append]
    exact h

theorem step_mergeOwn {k : ℕ} (hk : i < pts.size ∧ k ≤ pts.level i) {selected : List ℕ}
    (hnodup : selected.Nodup) (hlen : selected.length ≤ config.maxConn k)
      (hown : b.links i k = []) :
    step config pts i (.mergeOwn i k selected) (ofSequential b) =
      some ((), ofSequential { b with links := setLinks b.links i k selected }) := by
  change some ((), (ofSequential b).write pts i k
    (enforceBound config pts i k (selected.foldl pushNew (b.links i k)))) = _
  rw [hown, foldl_pushNew_of_nodup (by rwa [List.nil_append]), List.nil_append, enforceBound,
    shrink_eq_self hlen, ConcurrentBuilder.write, if_pos hk]
  rfl

/-- **One layer of the wiring by itself.** -/
theorem run_connect {k : ℕ} (hi : i < pts.size) (hlevel : k ≤ pts.level i) {b₀ : GraphLayersBuilder}
    (hb : Wired config pts (· < i) b₀.links) {links : Links}
    (hw : Wiring config pts i (k + 1) b₀ links) {ep : List ℕ} (hep : Entries pts i k ep)
    {b' : GraphLayersBuilder} {ep' : List ℕ}
    (hrun : GraphLayersBuilder.connect config pts i ({ b₀ with links }, ep) k = some (b', ep')) :
    run (step config pts) i (connect config pts i k ep) (ofSequential { b₀ with links }) =
      some (ep', ofSequential b') := by
  have hclosed := hw.closed hb
  have hown : links i k = [] := by
    rw [hw.ahead i k (Nat.lt_succ_self k)]
    by_contra hne
    exact lt_irrefl i (hb.owner i k hne).1
  obtain ⟨b'', hback, hret⟩ := Option.bind_eq_some_iff.mp hrun
  cases hret
  refine (run_bind_of_eq (run_searchLayer (φ := fun x => x < i ∧ k ≤ pts.level x)
    (fun x hx => hx.1.trans hi) hclosed hep.2)).trans ?_
  have hsel : ∀ nb ∈ selectNeighbors pts.dist i (Hnsw.searchLayer (fun c => links c k)
      config.efConstruction (pts.dist i) (fun _ => true) pts.size ep) (config.maxConn k)
      config.keepPruned, nb < i ∧ k ≤ pts.level nb := fun nb hnb => by
    obtain ⟨key, hkey, rfl⟩ := List.mem_map.mp (mem_selectNeighbors hnb).2
    exact of_mem_searchLayer (φ := fun x => x < i ∧ k ≤ pts.level x) hclosed hep.2 hkey
  have hnodup := @nodup_selectNeighbors pts.dist (config.maxConn k) i config.keepPruned _
    (@nodup_searchLayer (fun c => links c k) config.efConstruction (pts.dist i) (fun _ => true)
      pts.size ep)
  refine (run_act_of_eq (step_mergeOwn ⟨hi, hlevel⟩ hnodup length_selectNeighbors_le hown)).trans ?_
  refine (run_bind_of_eq (run_pushBacks hnodup (fun nb hnb => ?_) (fun nb hnb hmem => ?_)
    hback)).trans rfl
  · exact ⟨(hsel nb hnb).1.trans hi, (hsel nb hnb).2⟩
  · change i ∈ setLinks links i k _ nb k at hmem
    have hne : ¬ (nb = i ∧ k = k) := fun h => (hsel nb hnb).1.ne h.1
    rw [setLinks_of_ne hne] at hmem
    exact lt_irrefl i (hclosed nb (hsel nb hnb) i hmem).1

/-- **The wiring by itself**, layer by layer. -/
theorem run_connectAll (hm : ∀ layer, 1 ≤ config.maxConn layer) (hef : 1 ≤ config.efConstruction)
    (hi : i < pts.size) {b₀ : GraphLayersBuilder} (hb : Wired config pts (· < i) b₀.links) (k : ℕ)
    (hk : k ≤ pts.level i + 1) {links : Links} (hw : Wiring config pts i k b₀ links) {ep : List ℕ}
    (hep : Entries pts i (k - 1) ep) {b' : GraphLayersBuilder} {ep' : List ℕ}
    (hrun : (List.range k).reverse.foldlM (GraphLayersBuilder.connect config pts i)
      ({ b₀ with links }, ep) = some (b', ep')) :
    run (step config pts) i (connectAll config pts i (List.range k).reverse ep)
      (ofSequential { b₀ with links }) = some ((), ofSequential b') := by
  induction k generalizing links ep with
  | zero =>
    cases hrun
    rfl
  | succ k ih =>
    obtain ⟨links₁, ep₁, hrun₁, hw₁, hep₁, -⟩ :=
      connect_spec (hm k) hef hi (by omega) hb hw hep
    have hconnect := run_connect hi (by omega) hb hw hep hrun₁
    rw [List.range_succ, List.reverse_append, List.reverse_singleton,
      List.singleton_append] at hrun ⊢
    rw [List.foldlM_cons, hrun₁] at hrun
    refine (run_bind_of_eq hconnect).trans ?_
    exact ih (by omega) hw₁ (hep₁.mono (Nat.sub_le k 1)) hrun

/-! ## A whole insertion -/

/-- Raising the entry, if the point reaches a new top layer. -/
theorem run_raise {level : ℕ} :
    run (step config pts) i (if b.maxLevel < level then
      Prog.perform (S := BuildOps) (.raiseEntry i level) else .ret ()) (ofSequential b) =
      some ((), ofSequential (if b.maxLevel < level then ⟨b.links, some i, level⟩ else b)) := by
  by_cases hlt : b.maxLevel < level
  · simp only [hlt, if_true]
    have hraise : step config pts i (.raiseEntry i level) (ofSequential b) =
        some ((), ofSequential ⟨b.links, some i, level⟩) :=
      congrArg (fun s => some ((), s)) (if_pos hlt)
    exact run_act_of_eq hraise
  · simp only [hlt, if_false]
    rfl

/-- **An insertion by itself** is the sequential insertion. -/
theorem run_insert (hm : ∀ layer, 1 ≤ config.maxConn layer) (hef : 1 ≤ config.efConstruction)
    (hpos : 0 < i) (hi : i < pts.size) (hb : Inserted config pts i b) {b' : GraphLayersBuilder}
    (hins : GraphLayersBuilder.insert config pts i b = some b') :
    run (step config pts) i (insert config pts i) (ofSequential b)
      = some ((), ofSequential b') := by
  obtain ⟨e, hentry, htop, hfirst⟩ := hb.top hpos
  have hep := entries_startEp hb hfirst.1 htop
  obtain ⟨links, ep', hrun, -⟩ := foldlM_connect hm hef hi hb.wired 0
    (min (pts.level i) b.maxLevel + 1) (by omega) (wiring_start hb.wired _) (hep.mono (by omega))
  have hb' := Option.some.inj ((insert_eq hentry hrun).symm.trans hins)
  rw [← List.range_eq_range'] at hrun
  have hread : step config pts i .readEntry (ofSequential b) =
      some (some (e, b.maxLevel), ofSequential b) :=
    congrArg (fun x => some (Option.map (fun e => (e, b.maxLevel)) x, ofSequential b)) hentry
  have hdescend : run (step config pts) i
      (descend pts i (layersAbove (pts.level i) b.maxLevel) [e]) (ofSequential b) =
        some (startEp pts i b e, ofSequential b) := by
    rcases Nat.le_total (pts.level i) b.maxLevel with hle | hle
    · refine run_descend hi.le hb.wired _ ⟨List.cons_ne_nil _ _, fun x hx => ?_⟩ i
      rw [List.mem_singleton.mp hx, Nat.add_sub_of_le hle]
      exact ⟨hfirst.1, htop.le⟩
    · rw [startEp, layersAbove, Nat.sub_eq_zero_of_le hle]
      rfl
  refine (run_act_of_eq hread).trans ?_
  change run _ _ (insertFrom config pts i e b.maxLevel) _ = _
  refine (run_bind_of_eq hdescend).trans ?_
  refine (run_bind_of_eq (run_connectAll hm hef hi hb.wired (min (pts.level i) b.maxLevel + 1)
    (by omega) (wiring_start hb.wired _) (hep.mono (by omega)) hrun)).trans ?_
  exact (@run_raise config pts i { b with links } (pts.level i)).trans (by rw [← hb'])

/-! ## The whole build -/

/-- The seeded builder is the sequential one after its first point. -/
theorem inserts_one (config : HnswConfig) (hn : 1 ≤ pts.size) :
    ∃ b, inserts config pts 1 = some b ∧ seeded pts = ofSequential b := by
  refine ⟨⟨fun _ _ => [], some 0, pts.level 0⟩, rfl, ?_⟩
  rw [seeded, if_neg (Nat.ne_of_gt hn)]
  rfl

/-- **The builders in step**: after as many insertions they hold the same. -/
theorem serial_steps (hm : ∀ layer, 1 ≤ config.maxConn layer) (hef : 1 ≤ config.efConstruction)
    (k : ℕ) (hk : k + 1 ≤ pts.size) :
    ∃ b, inserts config pts (k + 1) = some b ∧
      (List.range' 1 k).foldlM (insertAlone config pts) (seeded pts) = some (ofSequential b) := by
  induction k with
  | zero =>
    obtain ⟨b, hb, hseed⟩ := @inserts_one pts config hk
    exact ⟨b, hb, congrArg some hseed⟩
  | succ k ih =>
    obtain ⟨b, hb, hrun⟩ := ih (Nat.le_of_succ_le hk)
    obtain ⟨b₁, hb₁, hinv⟩ := inserts_spec (i := k + 1) hm hef (Nat.le_of_succ_le hk)
    obtain rfl : b₁ = b := Option.some.inj (hb₁.symm.trans hb)
    obtain ⟨b', hins, -⟩ := insert_spec hm hef (Nat.lt_of_succ_le hk) hinv
    have halone : insertAlone config pts (ofSequential b₁) (k + 1) = some (ofSequential b') := by
      rw [insertAlone, run_insert hm hef (Nat.succ_pos k) (Nat.lt_of_succ_le hk) hinv hins]
      rfl
    refine ⟨b', by rw [inserts_succ, hb, Option.bind_some, hins], ?_⟩
    have hone : 1 + 1 * k = k + 1 := by omega
    rw [List.range'_concat, List.foldlM_append, hrun, hone]
    change (insertAlone config pts (ofSequential b₁) (k + 1)).bind some = _
    rw [halone]
    rfl

/-- **Run serially, the concurrent builder equals the sequential one**: it does not panic, and seals
the same graph. -/
theorem serial_eq (config : HnswConfig) (pts : Points) (hm : 1 ≤ config.m) (hm0 : 1 ≤ config.mMax0)
    (hef : 1 ≤ config.efConstruction) :
    ∃ s, serial config pts = some s ∧ s.panicked = false ∧
      buildGraph config pts = some (s.intoGraphLayers pts) := by
  rcases Nat.eq_zero_or_pos pts.size with hzero | hpos
  · refine ⟨new, ?_, rfl, ?_⟩
    · rw [serial, seeded, if_pos hzero, hzero]
      rfl
    · rw [buildGraph, hzero]
      rfl
  · obtain ⟨b, hb, hrun⟩ := serial_steps (config.one_le_maxConn hm hm0) hef (pts.size - 1)
      (Nat.sub_add_cancel hpos).le
    rw [Nat.sub_add_cancel hpos] at hb
    refine ⟨ofSequential b, hrun, rfl, ?_⟩
    rw [buildGraph, hb]
    rfl

/-- The builders side by side on 65,537 equal vectors. -/
theorem serial_eq_crowd : ∃ s, serial crowdConfig crowd = some s ∧ s.panicked = false ∧
    buildGraph crowdConfig crowd = some (s.intoGraphLayers crowd) :=
  serial_eq crowdConfig crowd (by decide) (by decide) (by decide)

/-- **A serial run is a schedule.** -/
theorem exists_steps_serial (k : ℕ) {s : ConcurrentBuilder} (hk : k < pts.size)
    (hrun : (List.range' 1 k).foldlM (insertAlone config pts) (seeded pts) = some s) :
    ∃ pool, Config.Steps (step config pts) Config.anyOrder ⟨seeded pts, calls config pts⟩
        ⟨s, pool⟩ ∧ ∀ t, pool t = if t ≤ k then .ret () else calls config pts t := by
  induction k generalizing s with
  | zero =>
    cases hrun
    refine ⟨calls config pts, .refl, fun t => ?_⟩
    split
    · exact if_neg fun h => Nat.not_succ_le_zero 0 (h.1.trans ‹_›)
    · rfl
  | succ k ih =>
    have hone : 1 + 1 * k = k + 1 := by omega
    rw [List.range'_concat, List.foldlM_append, hone, Option.bind_eq_bind,
      Option.bind_eq_some_iff] at hrun
    obtain ⟨s₁, hrun₁, hrun⟩ := hrun
    obtain ⟨pool, hsteps, hpool⟩ := ih (Nat.lt_of_succ_lt hk) hrun₁
    obtain ⟨s₂, halone, hret⟩ := Option.bind_eq_some_iff.mp hrun
    cases hret
    obtain ⟨⟨_, _⟩, hins, rfl⟩ := Option.map_eq_some_iff.mp halone
    obtain ⟨os, hos⟩ := run_eq_some_iff.mp hins
    have hnext : pool (k + 1) = insert config pts (k + 1) := by
      rw [hpool, if_neg (Nat.not_succ_le_self k), calls, if_pos ⟨Nat.succ_pos k, hk⟩]
    refine ⟨_, hsteps.trans (Config.steps_of_pool_eq hnext hos), fun t => ?_⟩
    rcases eq_or_ne t (k + 1) with rfl | hne
    · rw [Function.update_self, if_pos le_rfl]
    · rw [Function.update_of_ne hne, hpool]
      exact if_congr ⟨Nat.le_succ_of_le, fun h => Nat.lt_succ_iff.mp (Nat.lt_of_le_of_ne h hne)⟩
        rfl rfl

theorem builds_of_serial {s : ConcurrentBuilder} (hn : 1 ≤ pts.size)
    (h : serial config pts = some s) : Builds config pts (Config.anyOrder (S := BuildOps)) s := by
  obtain ⟨pool, hsteps, hpool⟩ := exists_steps_serial (pts.size - 1) (Nat.sub_one_lt_of_lt hn) h
  refine ⟨pool, hsteps, fun t => ?_⟩
  rw [hpool]
  split
  · rfl
  · exact if_neg fun h => absurd h.2 (by omega)

end ConcurrentBuilder

end Vecvec.Hnsw
