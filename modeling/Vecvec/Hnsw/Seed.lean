import Vecvec.Hnsw.Interleaved

/-!
# Hnsw/Seed — when a concurrent build strands its seed

Point 0 starts as the entry, without links, and depends on the others for any.  Whoever is the first
to read its links on its top layer finds none there; if that insertion finds none on the layers
below either, it comes down to layer 0 with nobody but the seed in hand, and links it (`Destined`).

On a layer in between it may meet the links of a second insertion, which started later and has not
reached layer 0 yet.  They lead away from the seed, and a beam that is full lets go of it:
`exists_stranded` is such a schedule of three points.  Schedules in which no search reads such links
of a seed not yet linked on layer 0 (`SparesSeed`) never strand it (`linked_seed`); there are none
to be read when the seed's level is at most 1 (`Builds.sparesSeed`).
-/

namespace Vecvec.Hnsw

open Machinery

namespace ConcurrentBuilder

/-- No search reads links of the seed strictly between layer 0 and its top layer, while it has none
on layer 0. -/
def SparesSeed (pts : Points) : ℕ → BuildOp → ConcurrentBuilder → Prop
  | _, .readLinks c layer, s =>
    c = 0 → 0 < layer → layer < pts.level 0 → s.links 0 layer ≠ [] → s.links 0 0 ≠ []
  | _, _, _ => True

/-! ## An insertion bound for the seed -/

/-- **Bound for the seed**: as long as the seed's links below the layer `lim` read as empty, all
that is left to do is to search among them, and to link the seed on layer 0. -/
def Destined (lim : ℕ) : Prog BuildOps Unit → Prop
  | .act (.readLinks c layer) k => c = 0 ∧ layer < lim ∧ Destined lim (k [])
  | .act (.mergeOwn _ _ _) k => Destined lim (k ())
  | .act (.pushBack nb layer point) k => point ≠ 0 ∧ (nb = 0 ∧ layer = 0 ∨ Destined lim (k ()))
  | _ => False

/-- About to read the seed's links on a layer, and bound for the seed if there are none. -/
def Reads (lim layer : ℕ) (p : Prog BuildOps Unit) : Prop :=
  ∃ k, p = .act (.readLinks 0 layer) k ∧ Destined lim (k [])

/-- Not past the seed's top layer yet: about to read its links there, once the entry is read. -/
def Fresh (lim : ℕ) (p : Prog BuildOps Unit) : Prop :=
  Reads lim lim p ∨ ∃ k, p = .act .readEntry k ∧ Reads lim lim (k (some (0, lim)))

variable {config : HnswConfig} {pts : Points} {t layer lim : ℕ}

theorem Reads.destined {p : Prog BuildOps Unit} (h : Reads lim layer p) (hlt : layer < lim) :
    Destined lim p := by
  obtain ⟨k, rfl, hk⟩ := h
  exact ⟨rfl, hlt, hk⟩

/-- **A search from a seed without links** finds the seed. -/
theorem searchLayer_seed {ef : ℕ} (hef : 1 ≤ ef) (hn : 1 ≤ pts.size) :
    ∃ k, searchLayer pts t layer ef [0] = .act (.readLinks 0 layer) k ∧
      k [] = .ret [(pts.dist t 0, 0)] := by
  obtain ⟨n, hsize⟩ := Nat.exists_eq_add_of_le' hn
  have hstart : [0].foldl (Beam.enter ef (pts.dist t) fun _ => true) Beam.empty =
      ⟨[0], [(pts.dist t 0, 0)], [(pts.dist t 0, 0)]⟩ := by
    have hone : ¬ ef < 1 := Nat.not_lt.mpr hef
    simp [Beam.enter, Beam.empty, Beam.mark, Beam.push, pushResult, hone]
  have hpop : Beam.pop ef ⟨[0], [(pts.dist t 0, 0)], [(pts.dist t 0, 0)]⟩ =
      some (0, ⟨[0], [], [(pts.dist t 0, 0)]⟩) := by
    simp [Beam.pop]
  rw [searchLayer, hstart, hsize, searchLoop, hpop]
  refine ⟨_, rfl, ?_⟩
  cases n <;> rfl

/-- The seed is all there is to choose. -/
theorem selectIds_seed {m : ℕ} (hm : 1 ≤ m) (ht : t ≠ 0) :
    selectIds config pts t [(pts.dist t 0, 0)] m = [0] := by
  have hall : ∀ x ∈ selectIds config pts t [(pts.dist t 0, 0)] m, x = 0 := fun x hx =>
    List.mem_singleton.mp (mem_selectNeighbors hx).2
  have hnodup : (selectIds config pts t [(pts.dist t 0, 0)] m).Nodup :=
    nodup_selectNeighbors (List.nodup_singleton 0)
  have hne : selectIds config pts t [(pts.dist t 0, 0)] m ≠ [] :=
    selectNeighbors_ne_nil hm ⟨_, List.mem_singleton_self _, ht.symm⟩
  have hrep := List.eq_replicate_of_mem hall
  rw [hrep, List.nodup_replicate] at hnodup
  have hpos := List.length_pos_iff.mpr hne
  rw [hrep, Nat.le_antisymm hnodup hpos]
  rfl

/-- **One layer of the wiring from a seed without links** links the seed. -/
theorem reads_connect (hm : 1 ≤ config.maxConn layer) (hef : 1 ≤ config.efConstruction)
    (hn : 1 ≤ pts.size) (ht : t ≠ 0) {f : List ℕ → Prog BuildOps Unit}
    (hf : layer = 0 ∨ Destined lim (f [0])) :
    Reads lim layer (connect config pts t layer [0] >>= f) := by
  obtain ⟨k, hsearch, hk⟩ := @searchLayer_seed pts t layer _ hef hn
  rw [connect, hsearch]
  refine ⟨_, rfl, ?_⟩
  change Destined lim ((k [] >>= _) >>= f)
  rw [hk]
  change Destined lim ((List.forM (selectIds config pts t _ _) _ >>= _) >>= f)
  rw [selectIds_seed hm ht]
  exact ⟨ht, hf.imp (fun h => ⟨rfl, h⟩) id⟩

/-- **The layers of the wiring**, down to layer 0. -/
theorem reads_connectAll (hm : ∀ layer, 1 ≤ config.maxConn layer)
    (hef : 1 ≤ config.efConstruction) (hn : 1 ≤ pts.size) (ht : t ≠ 0) (k : ℕ) (hk : k ≤ lim)
    (f : Unit → Prog BuildOps Unit) :
    Reads lim k (connectAll config pts t (layersDown k) [0] >>= f) := by
  induction k with
  | zero =>
    change Reads lim 0 (connect config pts t 0 [0] >>= _ >>= f)
    rw [Prog.bind_assoc]
    exact reads_connect (hm 0) hef hn ht (.inl rfl)
  | succ k ih =>
    rw [layersDown, List.range_succ, List.reverse_append, List.reverse_singleton,
      List.singleton_append]
    change Reads lim (k + 1) (connect config pts t (k + 1) [0] >>= _ >>= f)
    rw [Prog.bind_assoc]
    exact reads_connect (hm (k + 1)) hef hn ht
      (.inr ((ih (Nat.le_of_succ_le hk)).destined (Nat.lt_of_succ_le hk)))

/-- **The descent**, from a seed without links on any of its layers. -/
theorem reads_descend (hn : 1 ≤ pts.size) {f : List ℕ → Prog BuildOps Unit} {level : ℕ} (k : ℕ)
    (hk : level + k + 1 ≤ lim) (hf : Destined lim (f [0])) :
    Reads lim (level + k + 1)
      (descend pts t (List.range' (level + 1) (k + 1)).reverse [0] >>= f) := by
  have hlayer (k : ℕ) : level + 1 + 1 * k = level + k + 1 := by omega
  induction k with
  | zero =>
    obtain ⟨κ, hsearch, hκ⟩ := @searchLayer_seed pts t (level + 1) 1 le_rfl hn
    change Reads lim (level + 1) (searchLayer pts t (level + 1) 1 [0] >>= _ >>= f)
    rw [hsearch]
    refine ⟨_, rfl, ?_⟩
    change Destined lim ((κ [] >>= _) >>= f)
    rw [hκ]
    exact hf
  | succ k ih =>
    rw [List.range'_concat, List.reverse_append, List.reverse_singleton, List.singleton_append,
      hlayer]
    obtain ⟨κ, hsearch, hκ⟩ := @searchLayer_seed pts t (level + (k + 1) + 1) 1 le_rfl hn
    change Reads lim (level + (k + 1) + 1)
      (searchLayer pts t (level + (k + 1) + 1) 1 [0] >>= _ >>= f)
    rw [hsearch]
    refine ⟨_, rfl, ?_⟩
    change Destined lim ((κ [] >>= _) >>= f)
    rw [hκ]
    exact (ih (by omega)).destined (by omega)

/-- **An insertion not begun** is not past the seed's top layer. -/
theorem fresh_insert (hm : ∀ layer, 1 ≤ config.maxConn layer) (hef : 1 ≤ config.efConstruction)
    (hn : 1 ≤ pts.size) (ht : t ≠ 0) : Fresh lim (insert config pts t) := by
  refine .inr ⟨_, rfl, ?_⟩
  change Reads lim lim (descend pts t (layersAbove (pts.level t) lim) [0] >>= fun ep =>
    connectAll config pts t (layersDown (min (pts.level t) lim)) ep >>= _)
  rcases Nat.lt_or_ge (pts.level t) lim with hlt | hge
  · obtain ⟨k, rfl⟩ := Nat.exists_eq_add_of_lt hlt
    rw [layersAbove, Nat.min_eq_left (by omega), show pts.level t + k + 1 - pts.level t =
      k + 1 by omega]
    exact reads_descend hn k le_rfl
      ((reads_connectAll hm hef hn ht _ (by omega) _).destined (by omega))
  · rw [layersAbove, Nat.sub_eq_zero_of_le hge, Nat.min_eq_right hge]
    exact reads_connectAll hm hef hn ht lim le_rfl _

/-! ## A whole build -/

/-- The pools of insertions. -/
abbrev Pool := Config BuildOps ConcurrentBuilder Unit

/-- Nobody has read the seed's links on its top layer yet, and somebody will. -/
structure Untouched (pts : Points) (c : Pool) : Prop where
  /-- Nothing has been written. -/
  shared : c.shared = seeded pts
  /-- No insertion is past the seed's top layer. -/
  fresh : ∀ t, c.pool t = .ret () ∨ Fresh (pts.level 0) (c.pool t)
  /-- There is one. -/
  one : Fresh (pts.level 0) (c.pool 1)

/-- **The seed is linked or will be**: some insertion is bound for it, or the first to read its
links is yet to come. -/
def Hopeful (pts : Points) (c : Pool) : Prop :=
  c.shared.links 0 0 ≠ [] ∨ (∃ t, Destined (pts.level 0) (c.pool t)) ∨ Untouched pts c

theorem not_fresh_ret {a : Unit} : ¬ Fresh lim (.ret a) := by
  rintro (⟨k, h, -⟩ | ⟨k, h, -⟩) <;> cases h

variable {s : ConcurrentBuilder}

/-- **The next action of an insertion bound for the seed.** -/
theorem destined_act {o : BuildOp} {k : BuildOps.Ret o → Prog BuildOps Unit} {r : BuildOps.Ret o}
    {s' : ConcurrentBuilder} (hm : ∀ layer, 1 ≤ config.maxConn layer) (hs : Sound config pts s)
    (hd : Destined (pts.level 0) (.act o k)) (ha : SparesSeed pts t o s)
    (hst : step config pts t o s = some (r, s')) :
    s.links 0 0 ≠ [] ∨ s'.links 0 0 ≠ [] ∨ Destined (pts.level 0) (k r) := by
  have hn : 0 < pts.size := by
    obtain ⟨e, he, -⟩ := hs.entry
    exact Nat.zero_lt_of_lt he
  cases o with
  | readEntry => exact hd.elim
  | raiseEntry point level => exact hd.elim
  | mergeOwn point layer selected =>
    cases hst
    exact .inr (.inr hd)
  | readLinks c layer =>
    obtain ⟨rfl, hlt, hk⟩ := hd
    cases (step_readLinks hn).symm.trans hst
    by_cases hzero : s.links 0 0 = []
    · have hempty : s.links 0 layer = [] := by
        rcases Nat.eq_zero_or_pos layer with rfl | hpos
        · exact hzero
        · by_contra hne
          exact ha rfl hpos hlt hne hzero
      exact .inr (.inr (hempty ▸ hk))
    · exact .inl hzero
  | pushBack nb layer point =>
    obtain ⟨hne, ⟨rfl, rfl⟩ | hk⟩ := hd
    · cases hst
      refine .inr (.inl (links_write_ne_nil (hm 0) ?_ (fun h => ?_) ⟨hn, Nat.zero_le _⟩))
      · exact List.ne_nil_of_mem (mem_pushNew.mpr (.inr rfl))
      · exact (mem_pushNew.mp h).elim (hs.wired.loopless 0 0) hne.symm
    · cases hst
      exact .inr (.inr hk)

theorem Hopeful.step {c c' : Pool} (hm : ∀ layer, 1 ≤ config.maxConn layer)
    (hsafe : Config.Safe (step config pts) (SparesSeed pts) (Sound config pts) Rely (Leaves pts) c)
    (h : Hopeful pts c) (hst : Config.Step (step config pts) (SparesSeed pts) c c') :
    Hopeful pts c' := by
  obtain ⟨hp, ha, hs⟩ := hst
  rename_i t o k r s'
  have hn : 0 < pts.size := by
    obtain ⟨e, he, -⟩ := hsafe.inv.entry
    exact Nat.zero_lt_of_lt he
  have hcall := hsafe.calls t
  rw [hp] at hcall
  obtain ⟨-, hrely, -⟩ := hcall c.shared (Rely.refl t _) hsafe.inv ha r s' hs
  have hkept := (hrely (t + 1) (Nat.succ_ne_self t)).kept 0 0
  have hself : (⟨s', Function.update c.pool t (k r)⟩ : Pool).pool t = k r :=
    Function.update_self ..
  have hother {u : ℕ} (hne : u ≠ t) : (⟨s', Function.update c.pool t (k r)⟩ : Pool).pool u =
      c.pool u := Function.update_of_ne hne ..
  rcases h with h | ⟨u, hu⟩ | h
  · exact .inl (hkept h)
  · rcases eq_or_ne u t with rfl | hne
    · rw [hp] at hu
      rcases destined_act hm hsafe.inv hu ha hs with h | h | h
      · exact .inl (hkept h)
      · exact .inl h
      · exact .inr (.inl ⟨u, by rwa [hself]⟩)
    · exact .inr (.inl ⟨u, by rwa [hother hne]⟩)
  · rcases h.fresh t with hret | ⟨κ, hκ, hd⟩ | ⟨κ, hκ, hr⟩
    · rw [hp] at hret
      cases hret
    · cases hp.symm.trans hκ
      cases (step_readLinks hn).symm.trans hs
      refine .inr (.inl ⟨t, ?_⟩)
      rw [hself, h.shared, seeded, if_neg hn.ne']
      exact hd
    · cases hp.symm.trans hκ
      cases hs
      have hnext : Fresh (pts.level 0) (κ
        (c.shared.entry.map fun e => (e, c.shared.maxLevel))) := by
        rw [h.shared, seeded, if_neg hn.ne']
        exact .inl hr
      refine .inr (.inr ⟨h.shared, fun u => ?_, ?_⟩)
      · rcases eq_or_ne u t with rfl | hne
        · exact .inr (by rwa [hself])
        · rw [hother hne]
          exact h.fresh u
      · rcases eq_or_ne 1 t with rfl | hne
        · rwa [hself]
        · rw [hother hne]
          exact h.one

/-- **The seed is linked at the end** of every schedule that spares it. -/
theorem Builds.seed_ne_nil (hn : 2 ≤ pts.size) (hm : ∀ layer, 1 ≤ config.maxConn layer)
    (hef : 2 ≤ config.efConstruction) (h : Builds config pts (SparesSeed pts) s) :
    s.links 0 0 ≠ [] := by
  obtain ⟨pool, hsteps, hdone⟩ := h
  have hn1 : 1 ≤ pts.size := Nat.le_of_succ_le hn
  have hfresh {t : ℕ} (h1 : 1 ≤ t) (ht : t < pts.size) :
      Fresh (pts.level 0) (calls config pts t) := by
    rw [calls, if_pos ⟨h1, ht⟩]
    exact fresh_insert hm (Nat.le_of_succ_le hef) hn1 (Nat.ne_of_gt h1)
  have hstart : Hopeful pts ⟨seeded pts, calls config pts⟩ := by
    refine .inr (.inr ⟨rfl, fun t => ?_, hfresh le_rfl hn⟩)
    by_cases ht : 1 ≤ t ∧ t < pts.size
    · exact .inr (hfresh ht.1 ht.2)
    · exact .inl (if_neg ht)
  have hrun : Hopeful pts ⟨s, pool⟩ := by
    have hsafe := @safe_seeded config pts (SparesSeed pts) hn1 hm hef
    generalize (⟨s, pool⟩ : Pool) = c at hsteps
    induction hsteps with
    | refl => exact hstart
    | tail hst hlast ih =>
      exact ih.step hm (Config.safe_of_steps Rely.refl Rely.trans hsafe hst) hlast
  rcases hrun with h | ⟨t, h⟩ | h
  · exact h
  · rw [show (⟨s, pool⟩ : Pool).pool t = .ret () from hdone t] at h
    exact h.elim
  · have hone := h.one
    rw [show (⟨s, pool⟩ : Pool).pool 1 = .ret () from hdone 1] at hone
    exact absurd hone not_fresh_ret

/-- **A concurrent build never strands a seed that is spared**: sealed, it has a neighbour. -/
theorem linked_seed (config : HnswConfig) (pts : Points) (hn : 2 ≤ pts.size) (hm : 1 ≤ config.m)
    (hm0 : 1 ≤ config.mMax0) (hef : 2 ≤ config.efConstruction) (s : ConcurrentBuilder)
    (h : Builds config pts (SparesSeed pts) s) : Linked (s.intoGraphLayers pts).neighbors 0 := by
  have hmax := config.one_le_maxConn hm hm0
  obtain ⟨hs, -⟩ := h.sound (Nat.le_of_succ_le hn) hmax hef
  have hlen : (s.links 0 0).length ≤ pts.size :=
    length_le_of_nodup (hs.wired.nodup 0 0) fun q hq => (hs.wired.present 0 0 q hq).1
  refine ⟨s.links 0 0, neighbors_base_of_lt (Nat.zero_lt_of_lt hn) ?_, h.seed_ne_nil hn hmax hef⟩
  rw [baseLinks_succ, baseLinks_zero, Nat.zero_add]
  exact hlen.trans_lt pts.fits

/-- A seed without layers in between is always spared. -/
theorem Builds.sparesSeed (hlevel : pts.level 0 ≤ 1)
    (h : Builds config pts (Config.anyOrder (S := BuildOps)) s) :
    Builds config pts (SparesSeed pts) s := by
  obtain ⟨pool, hsteps, hdone⟩ := h
  refine ⟨pool, Config.Steps.mono (fun t o s _ => ?_) hsteps, hdone⟩
  cases o with
  | readLinks c layer => exact fun _ hpos hlt => absurd hlt (by omega)
  | _ => trivial

/-- The serial schedule over 65,537 equal vectors does not strand the seed. -/
theorem linked_seed_crowd : ∃ s, Builds crowdConfig crowd (SparesSeed crowd) s ∧
    Linked (s.intoGraphLayers crowd).neighbors 0 := by
  have hsize : crowd.size = 65537 := List.length_replicate
  obtain ⟨b, -, hrun⟩ := serial_steps (crowdConfig.one_le_maxConn (by decide) (by decide))
    (by decide) 65536 hsize.ge
  have hbuilds : Builds crowdConfig crowd (Config.anyOrder (S := BuildOps)) (ofSequential b) :=
    builds_of_serial (by rw [hsize]; decide) (by rwa [serial, hsize])
  have hlevel : crowd.level 0 ≤ 1 := Nat.zero_le 1
  have hspares := hbuilds.sparesSeed hlevel
  exact ⟨_, hspares, linked_seed crowdConfig crowd (by rw [hsize]; decide) (by decide) (by decide)
    (by decide) _ hspares⟩

/-- A neighbour at most on layer 0, and a beam of two. -/
def narrowConfig : HnswConfig where
  m := 2
  mMax0 := 1
  efConstruction := 2
  efSearch := 64
  seed := 0
  keepPruned := true
  quantization := false

/-- The points 0, 3 and 2 on a line, all on layer 2, with their squared distances. -/
def lineOfThree : Points where
  levels := [2, 2, 2]
  dist a b := if a = b then 0 else if a + b = 1 then 0x41100000 else
    if a + b = 2 then 0x40800000 else 0x3f800000
  fits := by decide
  clamped := by decide

/-- **A schedule that strands the seed**: point 1 links the seed on layer 2 and stops, point 2 is
inserted, and point 1 goes on. -/
theorem exists_stranded :
    ∃ s, Builds narrowConfig lineOfThree (Config.anyOrder (S := BuildOps)) s ∧
      ¬ Linked (s.intoGraphLayers lineOfThree).neighbors 0 := by
  have h : Config.Leads (step narrowConfig lineOfThree) Config.anyOrder
      (List.replicate 4 1 ++ List.replicate 15 2 ++ List.replicate 9 1)
      ⟨seeded lineOfThree, calls narrowConfig lineOfThree⟩ fun c =>
        (c.pool 1).result = some () ∧ (c.pool 2).result = some () ∧
          (c.shared.intoGraphLayers lineOfThree).neighbors 0 0 = some [] := by
    decide +kernel
  obtain ⟨⟨s, pool⟩, hsteps, h1, h2, hread⟩ := h.exists_steps
  refine ⟨s, ⟨pool, hsteps, fun t => ?_⟩, fun ⟨l, hl, hne⟩ => ?_⟩
  · rcases eq_or_ne t 1 with rfl | hne1
    · exact Prog.eq_ret_of_result h1
    rcases eq_or_ne t 2 with rfl | hne2
    · exact Prog.eq_ret_of_result h2
    · refine Config.pool_eq_ret hsteps (if_neg fun h => ?_)
      have hsize : lineOfThree.size = 3 := rfl
      omega
  · exact hne (Option.some.inj (hl.symm.trans hread))

end ConcurrentBuilder

end Vecvec.Hnsw
