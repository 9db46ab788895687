import Vecvec.Collection.Difference
import Vecvec.Collection.Known
import Vecvec.Collection.Restores

/-!
# Collection/Shown — the live map, vector by vector

`Known` follows a point through compactions, which store its vector once more.  Where none is made
the live map can be followed as it is: a replayed record does to it what it says (`liveMap_replay`),
and sealing leaves it alone, as the appendable segment shares no id with a working one (`Apart`).
The ids of the working segments ascend (`Lined`), so that a restart finds them in the same order.
-/

namespace Vecvec

open Machinery

variable {P : Platform} {cfg : CollectionConfig} {c : Collection} {op : WalOp} {ops : List WalOp}

variable (P cfg) in
/-- A record with its vector as it is stored. -/
def WalOp.stored : WalOp → WalOp
  | .upsert id v p => .upsert id (cfg.metric.stored P v) p
  | .delete id => .delete id

@[simp] theorem WalOp.target_stored (op : WalOp) : (op.stored P cfg).target = op.target := by
  cases op <;> rfl

namespace Collection

/-! ## Replayed records -/

/-- A record about another point, replayed. -/
theorem liveMap_replay_of_target {op : WalOp} {id : GlobalId} (h : op.target ≠ id) :
    (c.replay P cfg op).liveMap id = c.liveMap id := by
  cases op with
  | upsert id' v p =>
    have h : id' ≠ id := h
    rw [replay]
    split
    · have hrows : vectorOf (c.appendable.rows ++ [(id', cfg.metric.stored P v)]) id =
          vectorOf c.appendable.rows id := by
        rw [vectorOf, List.reverse_append, List.reverse_singleton, List.singleton_append,
          List.lookup_cons, beq_eq_false_iff_ne.mpr (Ne.symm h)]
        rfl
      have hp : (c.put P cfg id' v p).payloads id = c.payloads id :=
        recordPayload_of_ne (Ne.symm h) p
      rw [liveMap, liveMap, put_workingDeletions, put_working, put_appendable_rows, hrows, hp]
    · rfl
  | delete id' =>
    change (c.remove id').liveMap id = _
    have hmem : id ∈ (c.remove id').workingDeletions ↔ id ∈ c.workingDeletions := by
      rw [remove]
      split
      · exact Finset.mem_insert.trans (or_iff_right (Ne.symm h))
      · rfl
    rw [liveMap, liveMap, remove_appendable, remove_working, remove_payloads]
    exact if_congr hmem rfl rfl

/-- **A replayed record** does to the live map what it says. -/
theorem liveMap_replay (h : c.standing.Bounded) (hn : Numbered cfg c.nextGlobalId [op]) :
    (c.replay P cfg op).liveMap = Ledger.apply c.liveMap (op.stored P cfg) := by
  funext g
  by_cases hg : op.target = g
  · cases op with
    | upsert id v p =>
      obtain ⟨rfl, hv, -⟩ := hn
      obtain rfl : c.nextGlobalId = g := hg
      have hfresh : c.nextGlobalId ∉ c.workingDeletions := fun hd => (h.deletions _ hd).false
      have hrow : vectorOf (c.put P cfg c.nextGlobalId v p).appendable.rows c.nextGlobalId =
          some (cfg.metric.stored P v) := by
        rw [put_appendable_rows, vectorOf, List.reverse_append, List.reverse_singleton,
          List.singleton_append, List.lookup_cons, beq_self_eq_true]
      have hp : (c.put P cfg c.nextGlobalId v p).payloads c.nextGlobalId = p :=
        recordPayload_self (h.payloads _ le_rfl) p
      rw [replay, if_pos hv, liveMap, put_workingDeletions, if_neg hfresh, hrow, hp]
      exact (Function.update_self c.nextGlobalId _ c.liveMap).symm
    | delete id =>
      obtain rfl : id = g := hg
      refine Eq.trans ?_ (Function.update_self id none c.liveMap).symm
      change (c.remove id).liveMap id = none
      rw [← Option.not_isSome_iff_eq_none, isSome_liveMap]
      rintro ⟨hh, hd⟩
      rw [holds_remove] at hh
      exact hd ((mem_workingDeletions_remove hh).mpr (.inl rfl))
  · rw [liveMap_replay_of_target hg, Ledger.apply_of_target (by rwa [WalOp.target_stored])]

/-- **Replayed records** do to the live map what they say, in order. -/
theorem liveMap_foldl_replay (h : c.standing.Bounded) (hn : Numbered cfg c.nextGlobalId ops) :
    (ops.foldl (replay P cfg) c).liveMap =
      Ledger.applyAll c.liveMap (ops.map (WalOp.stored P cfg)) := by
  induction ops generalizing c with
  | nil => rfl
  | cons op ops ih =>
    obtain ⟨hop, hrest⟩ := numbered_cons.mp hn
    have hb : (c.replay P cfg op).standing.Bounded := by
      rw [standing_replay]
      exact h.replay hop
    rw [List.foldl_cons, ih hb (by rwa [replay_nextGlobalId]), liveMap_replay h hop]
    rfl

/-! ## Sealing -/

/-- The appendable segment shares no id with a working one. -/
def Apart (c : Collection) : Prop :=
  ∀ id, containsId c.appendable.rows id → ∀ s ∈ c.working, containsId s.rows id = false

theorem apart_of_empty (h : c.appendable.rows = []) : c.Apart := by
  intro id hid
  rw [h] at hid
  cases hid

theorem Apart.replay (h : c.Apart) (hb : c.standing.Bounded)
    (hn : Numbered cfg c.nextGlobalId [op]) : (c.replay P cfg op).Apart := by
  cases op with
  | delete id =>
    change (c.remove id).Apart
    rwa [Apart, remove_appendable, remove_working]
  | upsert id v p =>
    obtain ⟨rfl, hv, -⟩ := hn
    rw [Collection.replay, if_pos hv]
    intro id hid s hs
    rw [put_appendable_rows, containsId, List.any_append, Bool.or_eq_true] at hid
    rcases hid with hid | hid
    · exact h id hid s hs
    · -- A fresh id is on no row yet.
      obtain rfl : c.nextGlobalId = id := by simpa using hid
      by_contra hc
      have hheld : c.holds c.nextGlobalId = true := by
        rw [holds, Bool.or_eq_true, List.any_eq_true]
        exact .inr ⟨s, hs, Bool.eq_true_of_not_eq_false hc⟩
      exact (hb.held _ hheld).false

theorem Apart.foldl_replay (h : c.Apart) (hb : c.standing.Bounded)
    (hn : Numbered cfg c.nextGlobalId ops) : (ops.foldl (Collection.replay P cfg) c).Apart := by
  induction ops generalizing c with
  | nil => exact h
  | cons op ops ih =>
    obtain ⟨hop, hrest⟩ := numbered_cons.mp hn
    have hb' : (c.replay P cfg op).standing.Bounded := by
      rw [standing_replay]
      exact hb.replay hop
    exact ih (h.replay hb hop) hb' (by rwa [replay_nextGlobalId])

theorem Apart.sealNow (h : c.Apart) : c.sealNow.Apart := by
  by_cases happ : c.appendable.rows = []
  · rw [Collection.sealNow, if_pos happ]
    exact h
  · exact apart_of_empty sealNow_appendable_rows

/-- **Sealing** leaves the live map alone. -/
theorem liveMap_sealNow (h : c.Apart) : c.sealNow.liveMap = c.liveMap := by
  unfold Collection.sealNow
  split
  · rfl
  funext id
  have hv : (vectorOf c.appendable.rows id).or (c.working.findSome? fun s => vectorOf s.rows id) =
      (c.working.findSome? fun s => vectorOf s.rows id).or (vectorOf c.appendable.rows id) := by
    by_cases hid : containsId c.appendable.rows id
    · have hnone : (c.working.findSome? fun s => vectorOf s.rows id) = none := by
        refine List.findSome?_eq_none_iff.mpr fun s hs => ?_
        rw [← Option.not_isSome_iff_eq_none, isSome_vectorOf, h id hid s hs]
        exact Bool.false_ne_true
      rw [hnone, Option.or_none, Option.none_or]
    · have hnone : vectorOf c.appendable.rows id = none := by
        rw [← Option.not_isSome_iff_eq_none, isSome_vectorOf]
        exact hid
      rw [hnone, Option.or_none, Option.none_or]
  rw [liveMap, liveMap, hv]
  congr 2
  change (none : Option (List F32)).or ((c.working ++ [_]).findSome? _) = _
  rw [Option.none_or, List.findSome?_append]
  congr 1
  exact List.findSome?_singleton

theorem liveMap_commitNow (h : c.Apart) {trigger : String} {message tag : Option String} :
    (c.commitNow trigger message tag).liveMap = c.liveMap := liveMap_sealNow h

/-! ## The contents of a version -/

/-- The live points of a version: under each id the stored vector that its segments have, unless the
version tombstones it, with the collection's payload. -/
def contents (c : Collection) (m : Manifest) : Ledger := fun id =>
  if id ∈ m.deletions then none
  else ((m.segmentIds.filterMap c.allSegments).findSome? fun s => vectorOf s.rows id).map
    fun v => (v, c.payloads id)

/-- **A restore shows the contents of the version.** -/
theorem liveMap_restoreNow {v : VersionId} {m : Manifest} :
    (c.restoreNow v m).liveMap = c.contents m := by
  rw [restoreNow, liveMap_commitNow (apart_of_empty rfl)]
  rfl

/-! ## Working segments in order -/

/-- The ids of the working segments ascend, and so do those of every version. -/
structure Lined (c : Collection) : Prop where
  /-- The working segments. -/
  working : (c.working.map SealedSegment.id).Pairwise (· < ·)
  /-- Those of the versions. -/
  versions : ∀ v m, c.versions.get v = some m → m.segmentIds.Pairwise (· < ·)

theorem pairwise_segmentRef {segs : SegmentSet}
    (h : (segs.map SealedSegment.id).Pairwise (· < ·)) :
    ((segs.filterMap segmentRef).map SegmentRef.id).Pairwise (· < ·) := by
  rw [List.pairwise_map] at h ⊢
  refine h.filterMap _ fun s s' hs r hr r' hr' => ?_
  rw [segmentRef_id hr, segmentRef_id hr']
  exact hs

namespace Lined

theorem foldl_replay (h : c.Lined) (ops : List WalOp) :
    (ops.foldl (Collection.replay P cfg) c).Lined := by
  refine ⟨?_, ?_⟩
  · rw [foldl_replay_working]
    exact h.working
  · rw [foldl_replay_versions]
    exact h.versions

theorem sealNow (h : c.Lined) (hp : c.Placed) : c.sealNow.Lined := by
  unfold Collection.sealNow
  split
  · exact h
  · refine ⟨?_, h.versions⟩
    rw [List.map_append, List.map_singleton, List.pairwise_append]
    refine ⟨h.working, List.pairwise_singleton _ _, fun i hi j hj => ?_⟩
    obtain ⟨s, hs, rfl⟩ := List.mem_map.mp hi
    rw [List.mem_singleton.mp hj]
    exact hp s hs

theorem commitNow (h : c.Lined) (hp : c.appendable.rows ≠ [] → c.Placed) {trigger : String}
    {message tag : Option String} : (c.commitNow trigger message tag).Lined := by
  have hs : c.sealNow.Lined := by
    by_cases happ : c.appendable.rows = []
    · rwa [Collection.sealNow, if_pos happ]
    · exact h.sealNow (hp happ)
  refine ⟨hs.working, fun v m hm => ?_⟩
  rw [Collection.commitNow, VersionStore.get_commit] at hm
  split at hm
  · cases hm
    exact pairwise_segmentRef hs.working
  · exact hs.versions v m hm

theorem repoint (h : c.Lined) (hk : c.Keyed) {v : VersionId} {m : Manifest}
    (hm : c.versions.get v = some m) : (c.repoint m).Lined := by
  refine ⟨?_, h.versions⟩
  change ((m.segmentIds.filterMap c.allSegments).map SealedSegment.id).Pairwise (· < ·)
  rw [List.pairwise_map]
  refine (h.versions v m hm).filterMap _ fun i j hij s hs s' hs' => ?_
  rw [hk i s hs, hk j s' hs']
  exact hij

theorem restoreNow (h : c.Lined) (hk : c.Keyed) {v : VersionId} {m : Manifest}
    (hm : c.versions.get v = some m) : (c.restoreNow v m).Lined :=
  (h.repoint hk hm).commitNow fun hne => absurd rfl hne

theorem compactNow (h : c.Lined) : (c.compactNow P cfg).Lined :=
  ⟨List.pairwise_singleton _ _, h.versions⟩

theorem gcNow (h : c.Lined) {rules : RetentionRules} : (c.gcNow rules).Lined :=
  ⟨h.working, fun v m hm => h.versions v m (VersionStore.get_of_get_gc hm).2⟩

theorem withVersions (h : c.Lined) {vs : VersionStore} (hv : vs.commits = c.versions.commits) :
    ({ c with versions := vs } : Collection).Lined :=
  ⟨h.working, fun v m hm => h.versions v m (VersionStore.get_congr hv ▸ hm)⟩

end Lined

end Collection

end Vecvec
