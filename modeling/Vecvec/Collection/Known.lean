import Mathlib.Logic.Function.Iterate
import Vecvec.Collection.Standing

/-!
# Collection/Known — collections that stand for a ledger

Every row stored under an id comes from the vector the id was given, normalised when it was ingested
and once more by each compaction.  If all rows of a collection are known so, its live map is the
ledger its standing gives (`Known.stands`), and every call keeps them known.
-/

namespace Vecvec

open Machinery

variable (P : Platform) (cfg : CollectionConfig)

/-- `u` is the stored form of `v`, perhaps stored again by compactions. -/
def Renews (v u : List F32) : Prop := ∃ k, u = (cfg.metric.stored P)^[k + 1] v

/-- A row whose id is below `n`, and whose vector comes from the one given. -/
def KnownRow (L : GlobalId → List F32) (n : GlobalId) (r : Row) : Prop :=
  r.1 < n ∧ Renews P cfg (L r.1) r.2

/-- The live map is the ledger, each vector in its stored form. -/
def Collection.Stands (c : Collection) (M : Ledger) : Prop :=
  ∀ id, Option.Rel (fun a b => Renews P cfg a.1 b.1 ∧ a.2 = b.2) (M id) (c.liveMap id)

/-- All rows of the collection are known, and what it holds is below `n`. -/
structure Collection.Known (L : GlobalId → List F32) (n : GlobalId) (c : Collection) : Prop where
  /-- The rows of the appendable segment. -/
  appendable : ∀ r ∈ c.appendable.rows, KnownRow P cfg L n r
  /-- The rows of the registered segments. -/
  registered : ∀ id seg, c.allSegments id = some seg → ∀ r ∈ seg.rows, KnownRow P cfg L n r
  /-- The working segments are the registered ones. -/
  working : ∀ s ∈ c.working, c.allSegments s.id = some s
  /-- The tombstones. -/
  deletions : ∀ id ∈ c.workingDeletions, id < n
  /-- Those of the versions. -/
  versions : ∀ v m, c.versions.get v = some m → ∀ id ∈ m.deletions, id < n
  /-- The payloads. -/
  payloads : ∀ id, n ≤ id → c.payloads id = none

/-- The ids of the working segments have been given out. -/
def Collection.Placed (c : Collection) : Prop := ∀ s ∈ c.working, s.id < c.nextSegmentId

variable {P cfg} {L L' : GlobalId → List F32} {n n' : GlobalId} {c : Collection} {M : Ledger}
  {v u : List F32} {op : WalOp} {ops : List WalOp}

/-! ## Stored vectors -/

theorem renews_stored (v : List F32) : Renews P cfg v (cfg.metric.stored P v) := ⟨0, rfl⟩

theorem Renews.stored (h : Renews P cfg v u) : Renews P cfg v (cfg.metric.stored P u) := by
  obtain ⟨k, rfl⟩ := h
  exact ⟨k + 1, (Function.iterate_succ_apply' ..).symm⟩

/-- If storing is idempotent, there is one stored form. -/
theorem Renews.eq (hN : ∀ v, cfg.metric.stored P (cfg.metric.stored P v) = cfg.metric.stored P v)
    (h : Renews P cfg v u) : u = cfg.metric.stored P v := by
  obtain ⟨k, rfl⟩ := h
  induction k with
  | zero => rfl
  | succ k ih => rw [Function.iterate_succ_apply', ih, hN]

theorem KnownRow.mono {r : Row} (h : KnownRow P cfg L n r) (hL : ∀ id < n, L' id = L id)
    (hn : n ≤ n') : KnownRow P cfg L' n' r :=
  ⟨h.1.trans_le hn, by rw [hL r.1 h.1]; exact h.2⟩

/-! ## The live map -/

namespace Collection

/-- **If storing is idempotent, the live map is the ledger**, its vectors stored. -/
theorem Stands.liveMap_eq
    (hN : ∀ v, cfg.metric.stored P (cfg.metric.stored P v) = cfg.metric.stored P v)
    (h : c.Stands P cfg M) :
    c.liveMap = fun id => (M id).map fun a => (cfg.metric.stored P a.1, a.2) := by
  funext id
  have hid := h id
  revert hid
  generalize M id = a, c.liveMap id = b
  rintro (⟨hr, hp⟩ | _)
  · rename_i a b
    exact congrArg some (Prod.ext (hr.eq hN) hp.symm)
  · rfl

/-- The point is live in the collection exactly if it is in the ledger. -/
theorem Stands.isSome_liveMap (h : c.Stands P cfg M) (id : GlobalId) :
    (c.liveMap id).isSome = (M id).isSome := by
  have hid := h id
  revert hid
  generalize M id = a, c.liveMap id = b
  rintro (_ | _) <;> rfl

/-- Two ledgers a collection stands for have the same points. -/
theorem Stands.isSome_eq {M' : Ledger} (h : c.Stands P cfg M) (h' : c.Stands P cfg M')
    (id : GlobalId) : (M id).isSome = (M' id).isSome :=
  (h.isSome_liveMap id).symm.trans (h'.isSome_liveMap id)

namespace Known

theorem mem_working (h : c.Known P cfg L n) {s : SealedSegment} (hs : s ∈ c.working) :
    ∀ r ∈ s.rows, KnownRow P cfg L n r := h.registered _ _ (h.working s hs)

/-- An id that is held is the id of a known row. -/
theorem of_holds (h : c.Known P cfg L n) {id : GlobalId} (hid : c.holds id = true) : id < n := by
  rw [holds, Bool.or_eq_true, List.any_eq_true] at hid
  rcases hid with hid | ⟨s, hs, hid⟩
  · obtain ⟨v, hv⟩ := containsId_iff.mp hid
    exact (h.appendable _ hv).1
  · obtain ⟨v, hv⟩ := containsId_iff.mp hid
    exact (h.mem_working hs _ hv).1

theorem bounded (h : c.Known P cfg L c.nextGlobalId) : c.standing.Bounded :=
  ⟨fun _ => h.of_holds, h.deletions, h.payloads⟩

/-- **A collection whose rows are known** stands for the ledger its standing gives. -/
theorem stands (h : c.Known P cfg L n) : c.Stands P cfg (c.standing.ledger L) := by
  intro id
  rw [Standing.ledger, liveMap]
  by_cases hd : id ∈ c.workingDeletions
  · rw [if_neg fun hn => hn.2 hd, if_pos hd]
    exact .none
  rw [if_neg hd]
  have hsome : ((vectorOf c.appendable.rows id).or
      (c.working.findSome? fun s => vectorOf s.rows id)).isSome = c.holds id := isSome_vectorAt id
  cases hu : (vectorOf c.appendable.rows id).or
      (c.working.findSome? fun s => vectorOf s.rows id) with
  | none =>
    rw [hu] at hsome
    rw [if_neg fun hh => Bool.false_ne_true (hsome.trans hh.1)]
    exact .none
  | some u =>
    rw [hu] at hsome
    rw [if_pos ⟨hsome.symm, hd⟩]
    refine .some ⟨?_, rfl⟩
    rcases Option.or_eq_some_iff.mp hu with hu | ⟨-, hu⟩
    · exact (h.appendable _ (mem_of_vectorOf hu)).2
    · obtain ⟨s, hs, hu⟩ := List.exists_of_findSome?_eq_some hu
      exact (h.mem_working hs _ (mem_of_vectorOf hu)).2

/-! ## What keeps rows known -/

/-- More is learned, and the allocator advances. -/
theorem mono (h : c.Known P cfg L n) (hL : ∀ id < n, L' id = L id) (hn : n ≤ n') :
    c.Known P cfg L' n' where
  appendable r hr := (h.appendable r hr).mono hL hn
  registered id seg hs r hr := (h.registered id seg hs r hr).mono hL hn
  working := h.working
  deletions id hid := (h.deletions id hid).trans_le hn
  versions v m hm id hid := (h.versions v m hm id hid).trans_le hn
  payloads id hid := h.payloads id (hn.trans hid)

theorem replay (h : c.Known P cfg L n)
    (hop : ∀ id v p, op = .upsert id v p → id < n ∧ L id = v) :
    (c.replay P cfg op).Known P cfg L n := by
  cases op with
  | delete id =>
    change (c.remove id).Known P cfg L n
    unfold Collection.remove
    split
    · refine ⟨h.appendable, h.registered, h.working, fun g hg => ?_, h.versions, h.payloads⟩
      rcases Finset.mem_insert.mp hg with rfl | hg
      · exact h.of_holds ‹_›
      · exact h.deletions g hg
    · exact h
  | upsert id v p =>
    obtain ⟨hid, hL⟩ := hop id v p rfl
    rw [Collection.replay]
    split
    · refine ⟨fun r hr => ?_, h.registered, h.working, h.deletions, h.versions, fun g hg => ?_⟩
      · rcases List.mem_append.mp hr with hr | hr
        · exact h.appendable r hr
        · rw [List.mem_singleton.mp hr]
          exact ⟨hid, by rw [hL]; exact renews_stored v⟩
      · cases p with
        | none => exact h.payloads g hg
        | some p =>
          exact (Function.update_of_ne (hid.trans_le hg).ne' _ _).trans (h.payloads g hg)
    · exact h

theorem foldl_replay (h : c.Known P cfg L n)
    (hops : ∀ id v p, .upsert id v p ∈ ops → id < n ∧ L id = v) :
    (ops.foldl (Collection.replay P cfg) c).Known P cfg L n := by
  induction ops generalizing c with
  | nil => exact h
  | cons op ops ih =>
    exact ih (h.replay fun id v p he => hops id v p (he ▸ List.mem_cons_self))
      fun id v p hmem => hops id v p (List.mem_cons_of_mem _ hmem)

/-- **Records under fresh ids** are learned, and known from then on. -/
theorem learn (h : c.Known P cfg L c.nextGlobalId) (hn : Numbered cfg c.nextGlobalId ops) :
    (ops.foldl (Collection.replay P cfg) c).Known P cfg (ops.foldl Vecvec.learn L)
      (ops.foldl (Collection.replay P cfg) c).nextGlobalId := by
  rw [foldl_replay_nextGlobalId]
  refine foldl_replay (h.mono (fun id hid => hn.learn_of_lt L hid) (le_foldl_bump _ _)) ?_
  exact fun id v p hmem => ⟨lt_foldl_bump hmem (hn.of_mem hmem).2 _, hn.learn_of_mem L hmem⟩

/-- A segment registered under the next id, which no working segment has. -/
theorem working_insert (h : c.Known P cfg L n) (hp : c.Placed) (seg : SealedSegment)
    (hid : seg.id = c.nextSegmentId) {s : SealedSegment} (hs : s ∈ c.working) :
    insertSegments c.allSegments [seg] s.id = some s := by
  rw [insertSegments_singleton, Function.update_of_ne (hid ▸ (hp s hs).ne), h.working s hs]

theorem registered_insert (h : c.Known P cfg L n) {seg : SealedSegment}
    (hseg : ∀ r ∈ seg.rows, KnownRow P cfg L n r) (id : SegmentId) (s : SealedSegment)
    (hs : insertSegments c.allSegments [seg] id = some s) : ∀ r ∈ s.rows, KnownRow P cfg L n r := by
  rw [insertSegments_singleton, Function.update_apply] at hs
  split at hs
  · cases hs
    exact hseg
  · exact h.registered id s hs

theorem sealNow (h : c.Known P cfg L n) (hp : c.appendable.rows ≠ [] → c.Placed) :
    c.sealNow.Known P cfg L n := by
  unfold Collection.sealNow
  split
  · exact h
  · refine ⟨fun r hr => (List.not_mem_nil hr).elim, h.registered_insert h.appendable,
      fun s hs => ?_, h.deletions, h.versions, h.payloads⟩
    rcases List.mem_append.mp hs with hs | hs
    · exact h.working_insert (hp ‹_›) _ rfl hs
    · rw [List.mem_singleton.mp hs]
      exact Function.update_self ..

theorem commitNow (h : c.Known P cfg L n) (hplaced : c.appendable.rows ≠ [] → c.Placed)
    {trigger : String} {message tag : Option String} :
    (c.commitNow trigger message tag).Known P cfg L n := by
  obtain ⟨ha, hr, hw, hd, hv, hp⟩ := h.sealNow hplaced
  refine ⟨ha, hr, hw, hd, fun v m hm id hid => ?_, hp⟩
  rw [Collection.commitNow, VersionStore.get_commit] at hm
  split at hm
  · cases hm
    exact hd id hid
  · exact hv v m hm id hid

/-- The working state re-pointed at a version. -/
theorem restoreNow (h : c.Known P cfg L n) (hk : c.Keyed) {v : VersionId} {m : Manifest}
    (hm : c.versions.get v = some m) : (c.restoreNow v m).Known P cfg L n := by
  refine commitNow (c := c.repoint m) ⟨fun r hr => (List.not_mem_nil hr).elim, h.registered,
    fun s hs => ?_, h.versions v m hm, h.versions, h.payloads⟩ fun hne => absurd rfl hne
  obtain ⟨id, -, hs⟩ := List.mem_filterMap.mp hs
  change c.allSegments s.id = some s
  rw [hk id s hs, hs]

theorem compactNow (h : c.Known P cfg L n) : (c.compactNow P cfg).Known P cfg L n := by
  have hrows : ∀ r ∈ (c.merged P cfg).rows, KnownRow P cfg L n r := by
    intro r hr
    change r ∈ (mergedRows P cfg c.working).rows at hr
    rw [mergedRows, foldl_append_rows] at hr
    obtain ⟨r', hr', rfl⟩ := List.mem_map.mp hr
    obtain ⟨s, hs, hr'⟩ := SegmentSet.mem_rows.mp (mem_sortById.mp hr')
    obtain ⟨hlt, hv⟩ := h.mem_working hs r' hr'
    exact ⟨hlt, hv.stored⟩
  refine ⟨h.appendable, h.registered_insert hrows, fun s hs => ?_, h.deletions, h.versions,
    h.payloads⟩
  rw [List.mem_singleton.mp hs]
  exact Function.update_self ..

theorem gcNow (h : c.Known P cfg L n) {rules : RetentionRules} :
    (c.gcNow rules).Known P cfg L n := by
  refine ⟨h.appendable, fun id seg hs => ?_, fun s hs => ?_, h.deletions,
    fun v m hm => h.versions v m (VersionStore.get_of_get_gc hm).2, h.payloads⟩
  · change (if id ∈ c.dropped rules then none else c.allSegments id) = some seg at hs
    split at hs
    · cases hs
    · exact h.registered id seg hs
  · have hkept : s.id ∉ c.dropped rules := notMem_dropped (.inl (List.mem_map_of_mem hs))
    change (if s.id ∈ c.dropped rules then none else c.allSegments s.id) = some s
    rw [if_neg hkept, h.working s hs]

theorem withVersions (h : c.Known P cfg L n) {vs : VersionStore}
    (hv : vs.commits = c.versions.commits) :
    ({ c with versions := vs } : Collection).Known P cfg L n :=
  ⟨h.appendable, h.registered, h.working, h.deletions,
    fun v m hm => h.versions v m (VersionStore.get_congr hv ▸ hm), h.payloads⟩

end Known

namespace Placed

theorem sealNow (h : c.Placed) : c.sealNow.Placed := by
  unfold Collection.sealNow
  split
  · exact h
  · intro s hs
    rcases List.mem_append.mp hs with hs | hs
    · exact Nat.lt_succ_of_lt (h s hs)
    · rw [List.mem_singleton.mp hs]
      exact Nat.lt_succ_self _

theorem restoreNow (hk : c.Keyed) {v : VersionId} {m : Manifest}
    (hlt : ∀ id ∈ m.segmentIds, id < c.nextSegmentId) : (c.restoreNow v m).Placed := by
  refine sealNow (c := c.repoint m) fun s hs => ?_
  obtain ⟨id, hid, hs⟩ := List.mem_filterMap.mp hs
  rw [hk id s hs]
  exact hlt id hid

theorem compactNow (c : Collection) : (c.compactNow P cfg).Placed := by
  intro s hs
  rw [List.mem_singleton.mp hs]
  exact Nat.lt_succ_self _

end Placed

end Collection

end Vecvec
