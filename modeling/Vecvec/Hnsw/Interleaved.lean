import Vecvec.Hnsw.Serial

/-!
# Hnsw/Interleaved — a concurrent build is valid under every schedule

Each insertion is proved against what the others may do between two of its lock sections (`Rely`):
no list becomes empty, the top layer only rises, and nobody but the point itself makes it the entry.
The shared invariant (`Sound`) holds after every lock section, not only between insertions.

A search may come across the very point it is made for, linked to already by somebody else; the beam
is at least two wide, so it finds another point as well (`Found`), and the point gets a neighbour.
-/

namespace Vecvec.Hnsw

open Machinery

/-! ## Merging -/

theorem mem_pushNew {list : List ℕ} {s x : ℕ} : x ∈ pushNew list s ↔ x ∈ list ∨ x = s := by
  rw [pushNew]
  split
  · exact ⟨.inl, fun h => h.elim id fun h => h ▸ ‹_›⟩
  · rw [List.mem_append, List.mem_singleton]

theorem nodup_pushNew {list : List ℕ} {s : ℕ} (h : list.Nodup) : (pushNew list s).Nodup := by
  rw [pushNew]
  split
  · exact h
  · rename_i hnew
    refine List.nodup_append.mpr ⟨h, List.nodup_singleton s, fun x hx y hy hxy => hnew ?_⟩
    rwa [← List.mem_singleton.mp hy, ← hxy]

theorem mem_foldl_pushNew {selected list : List ℕ} {x : ℕ} :
    x ∈ selected.foldl pushNew list ↔ x ∈ list ∨ x ∈ selected := by
  induction selected generalizing list with
  | nil => exact ⟨.inl, fun h => h.resolve_right List.not_mem_nil⟩
  | cons s selected ih =>
    rw [List.foldl_cons, ih, mem_pushNew, List.mem_cons, or_assoc]

theorem nodup_foldl_pushNew {selected list : List ℕ} (h : list.Nodup) :
    (selected.foldl pushNew list).Nodup := by
  induction selected generalizing list with
  | nil => exact h
  | cons s selected ih => exact ih (nodup_pushNew h)

namespace ConcurrentBuilder

/-! ## What holds all along -/

/-- **The shared invariant**: the links are well formed, the entry is a point of the top layer, and
no index has been out of range. -/
structure Sound (config : HnswConfig) (pts : Points) (s : ConcurrentBuilder) : Prop where
  /-- The links are well formed. -/
  wired : Wired config pts (· < pts.size) s.links
  /-- The entry is on the top layer. -/
  entry : ∃ e < pts.size, s.entry = some e ∧ pts.level e = s.maxLevel
  /-- The seed is not above the top layer. -/
  seed : pts.level 0 ≤ s.maxLevel
  /-- Nobody has panicked. -/
  calm : s.panicked = false

/-- **What the insertion of `t` relies on**, and every other one guarantees. -/
structure Rely (t : ℕ) (s s' : ConcurrentBuilder) : Prop where
  /-- No list becomes empty. -/
  kept : ∀ p l, s.links p l ≠ [] → s'.links p l ≠ []
  /-- The top layer rises. -/
  top : s.maxLevel ≤ s'.maxLevel
  /-- Nobody else makes `t` the entry. -/
  entry : s'.entry = some t → s.entry = some t

theorem Rely.refl (t : ℕ) (s : ConcurrentBuilder) : Rely t s s :=
  ⟨fun _ _ h => h, le_rfl, id⟩

theorem Rely.trans (t : ℕ) (s s' s'' : ConcurrentBuilder) (h : Rely t s s') (h' : Rely t s' s'') :
    Rely t s s'' :=
  ⟨fun p l hp => h'.kept p l (h.kept p l hp), h.top.trans h'.top, fun he => h.entry (h'.entry he)⟩

variable {config : HnswConfig} {pts : Points} {s : ConcurrentBuilder} {p layer : ℕ} {list : List ℕ}

/-- **Writing a list** of points that are there keeps the invariant. -/
theorem Sound.write (hs : Sound config pts s) (hnodup : list.Nodup) (hself : p ∉ list)
    (hlist : ∀ q ∈ list, q < pts.size ∧ layer ≤ pts.level q)
    (hp : p < pts.size ∧ layer ≤ pts.level p) :
    Sound config pts (s.write pts p layer (enforceBound config pts p layer list)) := by
  rw [ConcurrentBuilder.write, if_pos hp]
  exact ⟨hs.wired.setLinks hnodup hself hlist hp, hs.entry, hs.seed, hs.calm⟩

/-- A list written is not empty, if it names somebody. -/
theorem links_write_ne_nil (hm : 1 ≤ config.maxConn layer) (hne : list ≠ []) (hself : p ∉ list)
    (hp : p < pts.size ∧ layer ≤ pts.level p) :
    (s.write pts p layer (enforceBound config pts p layer list)).links p layer ≠ [] := by
  rw [ConcurrentBuilder.write, if_pos hp]
  change setLinks s.links p layer _ p layer ≠ []
  rw [setLinks_self]
  exact shrink_ne_nil hm hne hself

theorem rely_write (hm : 1 ≤ config.maxConn layer) (hne : list ≠ []) (hself : p ∉ list)
    (hp : p < pts.size ∧ layer ≤ pts.level p) (t : ℕ) :
    Rely t s (s.write pts p layer (enforceBound config pts p layer list)) := by
  have hown := @links_write_ne_nil config pts s p layer list hm hne hself hp
  rw [ConcurrentBuilder.write, if_pos hp] at hown ⊢
  refine ⟨fun q l hq => ?_, le_rfl, id⟩
  by_cases hql : q = p ∧ l = layer
  · obtain ⟨rfl, rfl⟩ := hql
    exact hown
  · change setLinks s.links p layer _ q l ≠ []
    rwa [setLinks_of_ne hql]

/-- Where an insertion stands: its point is not the entry, and the top layer has not sunk below
where it was when the insertion read it. -/
def Going (t startLevel : ℕ) (s : ConcurrentBuilder) : Prop :=
  s.entry ≠ some t ∧ startLevel ≤ s.maxLevel

theorem going_write {t startLevel : ℕ} (h : Going t startLevel s) :
    Going t startLevel (s.write pts p layer list) := by
  rw [ConcurrentBuilder.write]
  split <;> exact h

section

variable {allow : ℕ → BuildOp → ConcurrentBuilder → Prop} {t : ℕ}

/-- Hoare's triple for a part of an insertion. -/
abbrev Call (config : HnswConfig) (pts : Points)
    (allow : ℕ → BuildOp → ConcurrentBuilder → Prop) (t : ℕ) {α : Type}
    (P : ConcurrentBuilder → Prop) (prog : Prog BuildOps α) (Q : α → ConcurrentBuilder → Prop) :
    Prop :=
  Triple (step config pts) allow (Sound config pts) Rely t P prog Q

variable {P : ConcurrentBuilder → Prop}

/-- What others cannot falsify. -/
abbrev Firm (config : HnswConfig) (pts : Points) (t : ℕ) (P : ConcurrentBuilder → Prop) : Prop :=
  Stable (Sound config pts) Rely t P

theorem firm_going {startLevel : ℕ} : Firm config pts t (Going t startLevel) :=
  fun _ _ _ hP hr _ => ⟨fun h => hP.1 (hr.entry h), hP.2.trans hr.top⟩

/-! ## Searching while others write -/

/-- Points that are there, and on the layer. -/
def OnLayer (pts : Points) (layer x : ℕ) : Prop := x < pts.size ∧ layer ≤ pts.level x

/-- Copying the links of a point out: they lead to points on the layer. -/
theorem owes_readLinks (hc : p < pts.size) :
    Owes (step config pts) allow (Sound config pts) Rely t P (.readLinks p layer)
      fun (nbuf : List ℕ) s => (∀ x ∈ nbuf, OnLayer pts layer x) ∧ P s := by
  rintro s r s' hI hP - hst
  have hread : step config pts t (.readLinks p layer) s = some (s.links p layer, s) := if_pos hc
  cases hread.symm.trans hst
  exact ⟨hI, fun u _ => Rely.refl u s, hI.wired.present p layer, hP⟩

/-- **The loop of a search**, with what every expansion keeps. -/
theorem call_searchLoop {ef : ℕ} {dist : ℕ → F32} (hP : Firm config pts t P) {J : Beam → Prop}
    (hlt : ∀ b c b', J b → b.pop ef = some (c, b') → c < pts.size)
    (hJ : ∀ b c b' (l : List ℕ), J b → b.pop ef = some (c, b') → (∀ x ∈ l, OnLayer pts layer x) →
      J (l.foldl (Beam.visit ef dist fun _ => true) b')) (fuel : ℕ) {b : Beam} (hb : J b) :
    Call config pts allow t P (searchLoop layer ef dist fuel b) fun b s => J b ∧ P s := by
  induction fuel generalizing b with
  | zero => exact Triple.ret hP fun s _ hs => ⟨hb, hs⟩
  | succ fuel ih =>
    rw [searchLoop]
    split
    · exact Triple.ret hP fun s _ hs => ⟨hb, hs⟩
    · rename_i c b' hpop
      refine Triple.act hP (owes_readLinks (hlt _ _ _ hb hpop)) fun nbuf => ?_
      exact Triple.of_pure fun hnbuf => ih (hJ _ _ _ _ hb hpop hnbuf)

/-- What a search finds: distinct points of the layer, of which some is not `t`. -/
structure Found (pts : Points) (t layer : ℕ) (w : List (F32 × ℕ)) : Prop where
  /-- Points of the layer. -/
  onLayer : ∀ key ∈ w, OnLayer pts layer key.2
  /-- Each once. -/
  nodup : (w.map Prod.snd).Nodup
  /-- Some of them is not `t`. -/
  other : ∃ key ∈ w, key.2 ≠ t

/-- Entry points for a search by `t`. -/
structure Entrance (pts : Points) (t layer : ℕ) (ep : List ℕ) : Prop where
  /-- Points of the layer. -/
  onLayer : ∀ e ∈ ep, OnLayer pts layer e
  /-- Some of them is not `t`. -/
  other : ∃ e ∈ ep, e ≠ t

theorem Found.entrance {w : List (F32 × ℕ)} {layer' : ℕ} (h : Found pts t layer w)
    (hle : layer' ≤ layer) : Entrance pts t layer' (w.map Prod.snd) := by
  refine ⟨fun e he => ?_, ?_⟩
  · obtain ⟨key, hkey, rfl⟩ := List.mem_map.mp he
    exact ⟨(h.onLayer key hkey).1, hle.trans (h.onLayer key hkey).2⟩
  · obtain ⟨key, hkey, hne⟩ := h.other
    exact ⟨key.2, List.mem_map_of_mem hkey, hne⟩

/-- **A search of one of the point's own layers**, with a beam of two. -/
theorem call_searchLayer {ef : ℕ} (hef : 2 ≤ ef) (hP : Firm config pts t P) {ep : List ℕ}
    (hep : Entrance pts t layer ep) :
    Call config pts allow t P (searchLayer pts t layer ef ep) fun w s =>
      Found pts t layer w ∧ P s := by
  have hstart : (ep.foldl (Beam.enter ef (pts.dist t) fun _ => true) Beam.empty).Ok
      (OnLayer pts layer) ef := Beam.ok_empty.foldl_enter hep.onLayer
  have hloop := @call_searchLoop config pts layer allow t P ef (pts.dist t) hP
    (fun b => b.Ok (OnLayer pts layer) ef ∧ b.Other t)
    (fun b c b' hb hpop => (hb.1.pop hpop).1.1)
    (fun b c b' l hb hpop hl => by
      obtain ⟨-, -, -, hresults⟩ := Beam.of_pop hpop
      have hok := (hb.1.pop hpop).2
      refine ⟨hok.foldl_visit hl, hok.other_foldl_visit hef hl ?_⟩
      rw [Beam.Other, hresults]
      exact hb.2) pts.size
    (ep.foldl (Beam.enter ef (pts.dist t) fun _ => true) Beam.empty)
    ⟨hstart, Beam.ok_empty.other_foldl_enter hef hep.onLayer
      (.inr ⟨fun _ h => absurd h List.not_mem_nil, hep.other⟩)⟩
  refine Triple.bind (Rely.refl t) hloop fun b => Triple.of_pure fun hb => ?_
  refine Triple.ret hP fun s _ hs => ⟨⟨fun key hkey => ?_, hb.1.nodup_results, hb.2⟩, hs⟩
  exact hb.1.of_mem_results hkey

/-- **A search of a layer above the point's own**: whoever it finds is another point. -/
theorem call_searchLayer_above {ef : ℕ} (hP : Firm config pts t P) {ep : List ℕ}
    (hep : ∀ e ∈ ep, OnLayer pts layer e) :
    Call config pts allow t P (searchLayer pts t layer ef ep)
      fun w s => (∀ key ∈ w, OnLayer pts layer key.2) ∧ P s := by
  have hloop := @call_searchLoop config pts layer allow t P ef (pts.dist t) hP
    (fun b => b.Ok (OnLayer pts layer) ef) (fun b c b' hb hpop => (hb.pop hpop).1.1)
    (fun b c b' l hb hpop hl => (hb.pop hpop).2.foldl_visit hl) pts.size
    (ep.foldl (Beam.enter ef (pts.dist t) fun _ => true) Beam.empty)
    (Beam.ok_empty.foldl_enter hep)
  refine Triple.bind (Rely.refl t) hloop fun b => Triple.of_pure fun hb => ?_
  exact Triple.ret hP fun s _ hs => ⟨fun key hkey => hb.of_mem_results hkey, hs⟩

theorem Entrance.mono {layer' : ℕ} {ep : List ℕ} (h : Entrance pts t layer ep)
    (hle : layer' ≤ layer) : Entrance pts t layer' ep :=
  ⟨fun e he => ⟨(h.onLayer e he).1, hle.trans (h.onLayer e he).2⟩, h.other⟩

/-- A point above `t` is not `t`. -/
theorem entrance_singleton {x : ℕ} (hx : OnLayer pts layer x) (hlt : pts.level t < layer) :
    Entrance pts t layer [x] := by
  refine ⟨fun e he => List.mem_singleton.mp he ▸ hx, x, List.mem_singleton_self x, ?_⟩
  rintro rfl
  exact absurd hx.2 (Nat.not_le.mpr hlt)

/-- **The descent** ends with entry points for the point's own top layer. -/
theorem call_descend (hP : Firm config pts t P) (k : ℕ) {ep : List ℕ}
    (hep : Entrance pts t (pts.level t + k) ep) :
    Call config pts allow t P (descend pts t (List.range' (pts.level t + 1) k).reverse ep)
      fun ep s => Entrance pts t (pts.level t) ep ∧ P s := by
  induction k generalizing ep with
  | zero => exact Triple.ret hP fun s _ hs => ⟨hep, hs⟩
  | succ k ih =>
    have hlayer : pts.level t + 1 + 1 * k = pts.level t + (k + 1) := by omega
    rw [List.range'_concat, List.reverse_append, List.reverse_singleton, List.singleton_append,
      hlayer]
    refine Triple.bind (Rely.refl t) (call_searchLayer_above hP hep.onLayer) fun w =>
      Triple.of_pure fun hw => ?_
    split
    · rename_i best rest
      have hbest := entrance_singleton (hw best List.mem_cons_self) (by omega : pts.level t < _)
      exact ih (hbest.mono (by omega))
    · exact ih (hep.mono (by omega))

/-! ## Wiring while others write -/

/-- What is chosen to be linked: other points, on the layer, each once. -/
structure Chosen (pts : Points) (t layer : ℕ) (selected : List ℕ) : Prop where
  /-- Points of the layer. -/
  onLayer : ∀ x ∈ selected, OnLayer pts layer x
  /-- Each once. -/
  nodup : selected.Nodup
  /-- Not the point itself. -/
  loopless : t ∉ selected
  /-- At least one. -/
  ne_nil : selected ≠ []

theorem Found.chosen {w : List (F32 × ℕ)} (h : Found pts t layer w)
    (hm : 1 ≤ config.maxConn layer) :
    Chosen pts t layer (selectIds config pts t w (config.maxConn layer)) where
  onLayer x hx := by
    obtain ⟨key, hkey, rfl⟩ := List.mem_map.mp (mem_selectNeighbors hx).2
    exact h.onLayer key hkey
  nodup := nodup_selectNeighbors h.nodup
  loopless ht := (mem_selectNeighbors ht).1 rfl
  ne_nil := selectNeighbors_ne_nil hm h.other

/-- The point has links on the layer, besides. -/
def LinkedOn (t layer : ℕ) (P : ConcurrentBuilder → Prop) (s : ConcurrentBuilder) : Prop :=
  s.links t layer ≠ [] ∧ P s

theorem firm_linkedOn (h : Firm config pts t P) : Firm config pts t (LinkedOn t layer P) :=
  fun s s' hI hP hr hI' => ⟨hr.kept t layer hP.1, h s s' hI hP.2 hr hI'⟩

variable {startLevel : ℕ}

/-- Merging the links chosen into the point's own. -/
theorem owes_mergeOwn (hm : 1 ≤ config.maxConn layer) (ht : OnLayer pts layer t)
    {selected : List ℕ} (hsel : Chosen pts t layer selected) :
    Owes (step config pts) allow (Sound config pts) Rely t (Going t startLevel)
      (.mergeOwn t layer selected) fun _ => LinkedOn t layer (Going t startLevel) := by
  rintro s r s' hI hP - hst
  cases hst
  have hne : selected.foldl pushNew (s.links t layer) ≠ [] := by
    obtain ⟨x, hx⟩ := List.exists_mem_of_ne_nil _ hsel.ne_nil
    exact List.ne_nil_of_mem (mem_foldl_pushNew.mpr (.inr hx))
  have hself : t ∉ selected.foldl pushNew (s.links t layer) := fun h =>
    (mem_foldl_pushNew.mp h).elim (hI.wired.loopless t layer) hsel.loopless
  refine ⟨hI.write (nodup_foldl_pushNew (hI.wired.nodup t layer)) hself (fun q hq => ?_) ht,
    fun u _ => rely_write hm hne hself ht u, links_write_ne_nil hm hne hself ht, going_write hP⟩
  exact (mem_foldl_pushNew.mp hq).elim (hI.wired.present t layer q) (hsel.onLayer q)

/-- Pushing the reverse link onto a neighbour's list. -/
theorem owes_pushBack (hm : 1 ≤ config.maxConn layer) (ht : OnLayer pts layer t) {nb : ℕ}
    (hnb : OnLayer pts layer nb) (hne : nb ≠ t) :
    Owes (step config pts) allow (Sound config pts) Rely t (LinkedOn t layer (Going t startLevel))
      (.pushBack nb layer t) fun _ => LinkedOn t layer (Going t startLevel) := by
  rintro s r s' hI hP - hst
  cases hst
  have hcons : pushNew (s.links nb layer) t ≠ [] := List.ne_nil_of_mem (mem_pushNew.mpr (.inr rfl))
  have hself : nb ∉ pushNew (s.links nb layer) t := fun h =>
    (mem_pushNew.mp h).elim (hI.wired.loopless nb layer) hne
  refine ⟨hI.write (nodup_pushNew (hI.wired.nodup nb layer)) hself (fun q hq => ?_) hnb,
    fun u _ => rely_write hm hcons hself hnb u, (rely_write hm hcons hself hnb t).kept _ _ hP.1,
    going_write hP.2⟩
  exact (mem_pushNew.mp hq).elim (hI.wired.present nb layer q) fun h => h ▸ ht

/-- Pushing the reverse links. -/
theorem call_pushBacks (hm : 1 ≤ config.maxConn layer) (ht : OnLayer pts layer t) {l : List ℕ}
    (hl : ∀ nb ∈ l, OnLayer pts layer nb ∧ nb ≠ t) :
    Call config pts allow t (LinkedOn t layer (Going t startLevel))
      (l.forM fun nb => Prog.perform (S := BuildOps) (.pushBack nb layer t))
      fun _ => LinkedOn t layer (Going t startLevel) := by
  induction l with
  | nil => exact Triple.ret (firm_linkedOn firm_going) fun s _ hs => hs
  | cons nb l ih =>
    obtain ⟨hnb, hne⟩ := hl nb List.mem_cons_self
    refine Triple.act (firm_linkedOn firm_going) (owes_pushBack hm ht hnb hne) fun _ => ?_
    exact ih fun x hx => hl x (List.mem_cons_of_mem _ hx)

/-- **One layer of the wiring**: the point has links on it, and entry points for the next. -/
theorem call_connect (hm : 1 ≤ config.maxConn layer) (hef : 2 ≤ config.efConstruction)
    (ht : OnLayer pts layer t) {ep : List ℕ} (hep : Entrance pts t layer ep) :
    Call config pts allow t (Going t startLevel) (connect config pts t layer ep)
      fun ep s => Entrance pts t layer ep ∧ LinkedOn t layer (Going t startLevel) s := by
  refine Triple.bind (Rely.refl t) (call_searchLayer hef firm_going hep) fun w =>
    Triple.of_pure fun hw => ?_
  have hsel := hw.chosen hm
  have hpush := @call_pushBacks config pts layer allow t startLevel hm ht
    (selectIds config pts t w (config.maxConn layer)) fun nb hnb =>
      ⟨hsel.onLayer nb hnb, fun h => hsel.loopless (h ▸ hnb)⟩
  refine Triple.act firm_going (owes_mergeOwn hm ht hsel) fun _ => ?_
  change Call config pts allow t _ (List.forM _ _ >>= _) _
  refine Triple.bind (Rely.refl t) hpush fun _ => ?_
  exact Triple.ret (firm_linkedOn firm_going) fun s _ hs => ⟨hw.entrance le_rfl, hs⟩

/-- **All layers of the wiring**, down to layer 0. -/
theorem call_connectAll (hm : ∀ layer, 1 ≤ config.maxConn layer) (hef : 2 ≤ config.efConstruction)
    (ht : t < pts.size) (top : ℕ) (htop : top ≤ pts.level t) {ep : List ℕ}
    (hep : Entrance pts t top ep) :
    Call config pts allow t (Going t startLevel) (connectAll config pts t (layersDown top) ep)
      fun _ => LinkedOn t 0 (Going t startLevel) := by
  have hlayer {k : ℕ} (hk : k ≤ top) {ep : List ℕ} (hep : Entrance pts t k ep) :=
    @call_connect config pts k allow t startLevel (hm k) hef ⟨ht, hk.trans htop⟩ ep hep
  induction top generalizing ep with
  | zero =>
    refine Triple.bind (Rely.refl t) (hlayer le_rfl hep) fun ep => Triple.of_pure fun _ => ?_
    exact Triple.ret (firm_linkedOn firm_going) fun s _ hs => hs
  | succ top ih =>
    rw [layersDown, List.range_succ, List.reverse_append, List.reverse_singleton,
      List.singleton_append]
    refine Triple.bind (Rely.refl t) (hlayer le_rfl hep) fun ep => Triple.of_pure fun hep => ?_
    exact (ih (Nat.le_of_succ_le htop) (hep.mono (Nat.le_succ top))
      fun hk => hlayer (Nat.le_succ_of_le hk)).conseq (fun s _ hs => hs.2) fun _ s _ hs => hs

/-! ## One insertion among others -/

/-- What an insertion leaves: its point is linked on layer 0, and not above the top. -/
def InsertedAt (pts : Points) (t : ℕ) (s : ConcurrentBuilder) : Prop :=
  s.links t 0 ≠ [] ∧ pts.level t ≤ s.maxLevel

theorem firm_insertedAt : Firm config pts t (InsertedAt pts t) :=
  fun _ _ _ hP hr _ => ⟨hr.kept t 0 hP.1, hP.2.trans hr.top⟩

/-- Raising the entry. -/
theorem owes_raiseEntry (ht : t < pts.size) :
    Owes (step config pts) allow (Sound config pts) Rely t (LinkedOn t 0 (Going t startLevel))
      (.raiseEntry t (pts.level t)) fun _ => InsertedAt pts t := by
  rintro s r s' hI hP - hst
  cases hst
  split
  · rename_i hlt
    exact ⟨⟨hI.wired, ⟨t, ht, rfl, rfl⟩, hI.seed.trans hlt.le, hI.calm⟩,
      fun u hu => ⟨fun _ _ h => h, hlt.le, fun h => absurd (Option.some.inj h).symm hu⟩,
      hP.1, le_rfl⟩
  · rename_i hle
    exact ⟨hI, fun u _ => Rely.refl u s, hP.1, Nat.not_lt.mp hle⟩

/-- **An insertion that has read the entry.** -/
theorem call_insertFrom (hm : ∀ layer, 1 ≤ config.maxConn layer) (hef : 2 ≤ config.efConstruction)
    (ht : t < pts.size) {e : ℕ} (he : OnLayer pts startLevel e) (hne : e ≠ t) :
    Call config pts allow t (Going t startLevel) (insertFrom config pts t e startLevel)
      fun _ => InsertedAt pts t := by
  have hstart : Entrance pts t startLevel [e] :=
    ⟨fun x hx => List.mem_singleton.mp hx ▸ he, e, List.mem_singleton_self e, hne⟩
  have hdescend : Call config pts allow t (Going t startLevel)
      (descend pts t (layersAbove (pts.level t) startLevel) [e])
      fun ep s => Entrance pts t (min (pts.level t) startLevel) ep ∧ Going t startLevel s := by
    rcases Nat.le_total (pts.level t) startLevel with hle | hle
    · rw [Nat.min_eq_left hle]
      refine call_descend firm_going _ ?_
      rwa [Nat.add_sub_of_le hle]
    · rw [layersAbove, Nat.sub_eq_zero_of_le hle, Nat.min_eq_right hle]
      exact Triple.ret firm_going fun s _ hs => ⟨hstart, hs⟩
  refine Triple.bind (Rely.refl t) hdescend fun ep => Triple.of_pure fun hep => ?_
  refine Triple.bind (Rely.refl t)
    (call_connectAll hm hef ht _ (Nat.min_le_left _ _) hep) fun _ => ?_
  by_cases hlt : startLevel < pts.level t
  · simp only [hlt]
    exact Triple.act (firm_linkedOn firm_going) (owes_raiseEntry ht) fun _ =>
      Triple.ret firm_insertedAt fun s _ hs => hs
  · simp only [hlt]
    exact Triple.ret (firm_linkedOn firm_going) fun s _ hs =>
      ⟨hs.1, (Nat.not_lt.mp hlt).trans hs.2.2⟩

/-- Reading the entry: another point, of the top layer. -/
theorem owes_readEntry :
    Owes (step config pts) allow (Sound config pts) Rely t (fun s => s.entry ≠ some t) .readEntry
      fun (r : Option (ℕ × ℕ)) s => ∃ e startLevel,
        (r = some (e, startLevel) ∧ OnLayer pts startLevel e ∧ e ≠ t) ∧ Going t startLevel s := by
  rintro s r s' hI hP - hst
  cases hst
  obtain ⟨e, he, hentry, htop⟩ := hI.entry
  refine ⟨hI, fun u _ => Rely.refl u s, e, s.maxLevel, ⟨?_, ⟨he, htop.ge⟩, ?_⟩, hP, le_rfl⟩
  · rw [hentry]
    rfl
  · exact fun h => hP (h ▸ hentry)

/-- **An insertion**, whatever the others do meanwhile. -/
theorem call_insert (hm : ∀ layer, 1 ≤ config.maxConn layer) (hef : 2 ≤ config.efConstruction)
    (ht : t < pts.size) :
    Call config pts allow t (fun s => s.entry ≠ some t) (insert config pts t)
      fun _ => InsertedAt pts t := by
  refine Triple.act (fun _ _ _ hP hr _ h => hP (hr.entry h)) owes_readEntry fun r => ?_
  refine Triple.of_forall fun e => Triple.of_forall fun startLevel => Triple.of_pure fun h => ?_
  obtain ⟨rfl, he, hne⟩ := h
  exact call_insertFrom hm hef ht he hne

end

/-! ## The whole build -/

/-- The seed is the entry, and nothing is linked. -/
theorem sound_seeded (hn : 1 ≤ pts.size) : Sound config pts (seeded pts) := by
  rw [seeded, if_neg (Nat.ne_of_gt hn)]
  exact ⟨wired_empty, ⟨0, hn, rfl, rfl⟩, le_rfl, rfl⟩

theorem entry_seeded_ne {t : ℕ} (ht : 1 ≤ t) : (seeded pts).entry ≠ some t := by
  rw [seeded]
  split
  · exact fun h => by cases h
  · exact fun h => absurd (Option.some.inj h) (Nat.ne_of_lt ht)

/-- What the insertion of `t` leaves, if there is one. -/
def Leaves (pts : Points) (t : ℕ) (_ : Unit) (s : ConcurrentBuilder) : Prop :=
  1 ≤ t ∧ t < pts.size → InsertedAt pts t s

/-- **The insertions about to begin** are safe together. -/
theorem safe_seeded {allow : ℕ → BuildOp → ConcurrentBuilder → Prop} (hn : 1 ≤ pts.size)
    (hm : ∀ layer, 1 ≤ config.maxConn layer) (hef : 2 ≤ config.efConstruction) :
    Config.Safe (step config pts) allow (Sound config pts) Rely (Leaves pts)
      ⟨seeded pts, calls config pts⟩ := by
  refine ⟨sound_seeded hn, fun t => ?_⟩
  change Safe _ _ _ _ t _ (calls config pts t) _
  rw [calls]
  split
  · rename_i ht
    exact Triple.conseq (call_insert hm hef ht.2) (fun _ _ h => h) (fun _ s _ hs _ => hs) _
      (sound_seeded hn) (entry_seeded_ne ht.1)
  · exact fun s' _ _ h => absurd h ‹_›

/-- **A build under any schedule**: the links are well formed, and every point but the seed is
linked on layer 0 and not above the top. -/
theorem Builds.sound {allow : ℕ → BuildOp → ConcurrentBuilder → Prop} (hn : 1 ≤ pts.size)
    (hm : ∀ layer, 1 ≤ config.maxConn layer) (hef : 2 ≤ config.efConstruction)
    (h : Builds config pts allow s) :
    Sound config pts s ∧ ∀ t, 1 ≤ t → t < pts.size → InsertedAt pts t s := by
  obtain ⟨pool, hsteps, hdone⟩ := h
  have hend := Config.safe_of_steps Rely.refl Rely.trans (safe_seeded hn hm hef) hsteps
  exact ⟨hend.inv, fun t h1 ht => hend.returned Rely.refl (hdone t) ⟨h1, ht⟩⟩

/-- A graph as a concurrent build should leave it: valid lists, every point but the seed with a
neighbour on layer 0, and an entry on the top layer, which no point exceeds. -/
structure ConcurrentlyValid (config : HnswConfig) (pts : Points)
    (read : ℕ → ℕ → Option (List ℕ)) (entry : Option ℕ) (maxLevel : ℕ) : Prop where
  /-- Every list is valid. -/
  lists : ValidLists config pts pts.size read
  /-- Every point inserted has a neighbour. -/
  linked : ∀ t, 1 ≤ t → t < pts.size → Linked read t
  /-- The entry. -/
  top : ∃ e < pts.size, entry = some e ∧ pts.level e = maxLevel ∧
    ∀ q < pts.size, pts.level q ≤ maxLevel

/-- **The concurrent builder yields a valid graph under every schedule**: nobody panics, its lists
are valid; and the graph sealed from them is exactly when layer 0 has fewer than `2 ^ 32` links. -/
theorem builds_valid (config : HnswConfig) (pts : Points) (hn : 1 ≤ pts.size) (hm : 1 ≤ config.m)
    (hm0 : 1 ≤ config.mMax0) (hef : 2 ≤ config.efConstruction) (s : ConcurrentBuilder)
    (h : Builds config pts (Config.anyOrder (S := BuildOps)) s) :
    s.panicked = false ∧
      ConcurrentlyValid config pts (fun p layer => some (s.links p layer)) s.entry s.maxLevel ∧
      (ConcurrentlyValid config pts (s.intoGraphLayers pts).neighbors
        (s.intoGraphLayers pts).entry (s.intoGraphLayers pts).maxLevel ↔
          baseLinks s.links pts.size < 2 ^ 32) := by
  obtain ⟨hs, hall⟩ := h.sound hn (config.one_le_maxConn hm hm0) hef
  have htop : ∃ e < pts.size, s.entry = some e ∧ pts.level e = s.maxLevel ∧
      ∀ q < pts.size, pts.level q ≤ s.maxLevel := by
    obtain ⟨e, he, hentry, hlevel⟩ := hs.entry
    refine ⟨e, he, hentry, hlevel, fun q hq => ?_⟩
    rcases Nat.eq_zero_or_pos q with rfl | hpos
    · exact hs.seed
    · exact (hall q hpos hq).2
  refine ⟨hs.calm, ⟨hs.wired.validLists, fun t h1 ht => ⟨_, rfl, (hall t h1 ht).1⟩, htop⟩, ?_⟩
  refine (⟨fun h => h.lists, fun h => ⟨h, ?_, htop⟩⟩ :
    _ ↔ ValidLists config pts pts.size (s.intoGraphLayers pts).neighbors).trans
      (hs.wired.validLists_intoGraphLayers_iff le_rfl)
  intro t h1 ht
  exact linked_intoGraphLayers ht ((hs.wired.validLists_intoGraphLayers_iff le_rfl).mp h)
    (hall t h1 ht).1

/-- A schedule of 65,537 insertions, whose lists are valid until they are sealed. -/
theorem builds_valid_crowd :
    ∃ s, Builds crowdConfig crowd (Config.anyOrder (S := BuildOps)) s ∧ s.panicked = false ∧
      ConcurrentlyValid crowdConfig crowd (fun p layer => some (s.links p layer)) s.entry
        s.maxLevel := by
  have hsize : crowd.size = 65537 := List.length_replicate
  have hpos : 1 ≤ crowd.size := by rw [hsize]; decide
  obtain ⟨b, -, hrun⟩ := serial_steps (crowdConfig.one_le_maxConn (by decide) (by decide))
    (by decide) 65536 hsize.ge
  have hbuilds : Builds crowdConfig crowd (Config.anyOrder (S := BuildOps)) (ofSequential b) :=
    builds_of_serial hpos (by rwa [serial, hsize])
  obtain ⟨hcalm, hvalid, -⟩ := builds_valid crowdConfig crowd hpos (by decide) (by decide)
    (by decide) _ hbuilds
  exact ⟨_, hbuilds, hcalm, hvalid⟩

/-- **A schedule whose sealed graph cannot be read**: the serial one, over 65,537 equal vectors. -/
theorem crowd_not_concurrentlyValid :
    ∃ s, Builds crowdConfig crowd (Config.anyOrder (S := BuildOps)) s ∧
      ¬ ConcurrentlyValid crowdConfig crowd (s.intoGraphLayers crowd).neighbors
        (s.intoGraphLayers crowd).entry (s.intoGraphLayers crowd).maxLevel := by
  have hsize : crowd.size = 65537 := List.length_replicate
  obtain ⟨b, hb, hrun⟩ := serial_steps (crowdConfig.one_le_maxConn (by decide) (by decide))
    (by decide) 65536 hsize.ge
  refine ⟨ofSequential b, builds_of_serial (by rw [hsize]; decide) ?_, fun h => ?_⟩
  · rwa [serial, hsize]
  · have hm : 1 ≤ crowdConfig.m := by decide
    have hm0 : 1 ≤ crowdConfig.mMax0 := by decide
    obtain ⟨hinv, hcomplete⟩ := GraphLayersBuilder.complete_inserts hm hm0 rfl
      (by rw [hsize]; decide) (by rw [hsize]; decide) hsize.ge hb
    have hlt := (hinv.wired.validLists_intoGraphLayers_iff hsize.ge).mp (hsize ▸ h.lists)
    have hle := GraphLayersBuilder.le_baseLinks hcomplete 65537 le_rfl
    rw [hsize] at hlt
    omega

end ConcurrentBuilder

end Vecvec.Hnsw
