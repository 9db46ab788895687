import Vecvec.Basic
import Std.Data.ExtTreeMap
import Mathlib.Data.Finset.Card

/-!
# Version/Store — the commit DAG and its movable pointers

A manifest lists the sealed segments of a version and the tombstones frozen with it.  The store
owns no segment: a commit adds a manifest under the next id, and a collection pass (`gc`) drops the
manifests no rule retains and reports the segments only they referenced.
-/

namespace Vecvec

/-- A reference to a sealed segment, with the range of its global ids. -/
structure SegmentRef where
  /-- The segment's id. -/
  id : SegmentId
  /-- The least id of the range. -/
  idLo : GlobalId
  /-- The greatest id of the range. -/
  idHi : GlobalId
  /-- The number of rows. -/
  count : ℕ
  deriving DecidableEq

/-- An immutable committed version. -/
structure Manifest where
  /-- The version's id. -/
  version : VersionId
  /-- The version it was committed on top of. -/
  parent : Option VersionId
  /-- What caused the commit. -/
  trigger : String
  /-- An optional message. -/
  message : Option String
  /-- The segments the version references. -/
  segments : List SegmentRef
  /-- The tombstones frozen at commit time. -/
  deletions : DeletionVector
  deriving DecidableEq

/-- The segment ids a version references. -/
def Manifest.segmentIds (m : Manifest) : List SegmentId := m.segments.map SegmentRef.id

/-- The number of live rows of a version (`live_count`): its segments' rows less its tombstones. -/
def Manifest.liveCount (m : Manifest) : ℕ :=
  (m.segments.map SegmentRef.count).sum - m.deletions.card

/-- Selects a version to read. -/
inductive VersionSelector
  | version (v : VersionId)
  | tag (name : String)
  | branch (name : String)
  | head

/-- A selector as error texts show it. -/
def VersionSelector.debug : VersionSelector → String
  | .version v => s!"Version({v})"
  | .tag name => "Tag(" ++ name.quote ++ ")"
  | .branch name => "Branch(" ++ name.quote ++ ")"
  | .head => "Head"

/-- Which versions a collection pass keeps. -/
structure RetentionRules where
  /-- Keep this many of the newest versions; `none` keeps them all. -/
  keepLast : Option ℕ
  /-- Keep tagged versions. -/
  keepTagged : Bool
  /-- Keep branch heads. -/
  keepBranchHeads : Bool

/-- What a collection pass removes. -/
structure GcReport where
  /-- The versions dropped. -/
  removedVersions : List VersionId
  /-- The segments no retained version references any more. -/
  orphanSegments : List SegmentId

/-- Moves a named pointer, creating it if need be. -/
def movePointer (name : String) (v : VersionId) (pointers : List (String × VersionId)) :
    List (String × VersionId) :=
  (name, v) :: pointers.filter fun p => p.1 ≠ name

/-- The serialisable snapshot of a store. -/
structure VersionStoreSnapshot where
  /-- All manifests, by ascending version. -/
  manifests : List Manifest
  /-- The current head. -/
  head : Option VersionId
  /-- Branch pointers. -/
  branches : List (String × VersionId)
  /-- Tag pointers. -/
  tags : List (String × VersionId)
  /-- The next version id. -/
  nextVersion : VersionId

/-- The segment ids the manifests of a snapshot reference. -/
def VersionStoreSnapshot.referenced (s : VersionStoreSnapshot) : List SegmentId :=
  s.manifests.flatMap Manifest.segmentIds

/-- The commit DAG and its movable pointers. -/
structure VersionStore where
  /-- The manifests, by version id. -/
  commits : Std.ExtTreeMap VersionId Manifest
  /-- The current head. -/
  head : Option VersionId
  /-- Branch pointers. -/
  branches : List (String × VersionId)
  /-- Tag pointers. -/
  tags : List (String × VersionId)
  /-- The next version id. -/
  nextVersion : VersionId

namespace VersionStore

/-- The empty store. -/
def new : VersionStore := ⟨∅, none, [], [], 0⟩

/-- Records a commit on top of the head and moves the head to it. -/
def commit (s : VersionStore) (trigger : String) (message tag : Option String)
    (segments : List SegmentRef) (deletions : DeletionVector) : Manifest × VersionStore :=
  let manifest : Manifest := ⟨s.nextVersion, s.head, trigger, message, segments, deletions⟩
  (manifest,
    { s with
      commits := s.commits.insert s.nextVersion manifest
      head := some s.nextVersion
      tags := match tag with
        | some name => movePointer name s.nextVersion s.tags
        | none => s.tags
      nextVersion := s.nextVersion + 1 })

/-- The manifests, by ascending version (`commits.values()`). -/
def manifests (s : VersionStore) : List Manifest := s.commits.toList.map Prod.snd

/-- A snapshot of the whole store. -/
def snapshot (s : VersionStore) : VersionStoreSnapshot :=
  ⟨s.manifests, s.head, s.branches, s.tags, s.nextVersion⟩

/-- Rebuilds a store from a snapshot. -/
def fromSnapshot (s : VersionStoreSnapshot) : VersionStore :=
  ⟨Std.ExtTreeMap.ofList (s.manifests.map fun m => (m.version, m)), s.head, s.branches, s.tags,
    s.nextVersion⟩

/-- The manifest of a version. -/
def get (s : VersionStore) (v : VersionId) : Option Manifest := s.commits[v]?

/-- All segment ids referenced by some version. -/
def allReferencedSegments (s : VersionStore) : List SegmentId :=
  s.manifests.flatMap Manifest.segmentIds

/-- The version a selector names. -/
def resolve (s : VersionStore) : VersionSelector → Option VersionId
  | .version v => if s.commits.contains v then some v else none
  | .tag name => s.tags.lookup name
  | .branch name => s.branches.lookup name
  | .head => s.head

/-- Creates or moves a tag. -/
def setTag (s : VersionStore) (name : String) (v : VersionId) : Except String VersionStore :=
  if s.commits.contains v then .ok { s with tags := movePointer name v s.tags }
  else .error s!"no such version: {v}"

/-- Creates or moves a branch. -/
def setBranch (s : VersionStore) (name : String) (v : VersionId) : Except String VersionStore :=
  if s.commits.contains v then .ok { s with branches := movePointer name v s.branches }
  else .error s!"no such version: {v}"

/-- The versions the rules keep. -/
def retainedVersions (s : VersionStore) (rules : RetentionRules) : List VersionId :=
  s.head.toList ++
  (if rules.keepBranchHeads then s.branches.map Prod.snd else []) ++
  (if rules.keepTagged then s.tags.map Prod.snd else []) ++
  match rules.keepLast with
  | some k => s.commits.keys.reverse.take k
  | none => s.commits.keys

/-- What a collection pass would remove. -/
def planGc (s : VersionStore) (rules : RetentionRules) : GcReport :=
  let retained := s.retainedVersions rules
  let removed := s.commits.keys.filter fun v => v ∉ retained
  let kept := (retained.filterMap s.get).flatMap Manifest.segmentIds
  ⟨removed, sortedIds (((removed.filterMap s.get).flatMap Manifest.segmentIds).filter
    fun id => id ∉ kept)⟩

/-- Drops the manifests no rule retains. -/
def gc (s : VersionStore) (rules : RetentionRules) : GcReport × VersionStore :=
  let report := s.planGc rules
  (report, { s with commits := report.removedVersions.foldl (fun c v => c.erase v) s.commits })

/-! ## What a store holds -/

variable {s s' : VersionStore} {v : VersionId} {m : Manifest}

/-- Every manifest is filed under its own version, which has been given out. -/
structure WellFormed (s : VersionStore) : Prop where
  /-- A manifest is filed under its version. -/
  keyed : ∀ v m, s.get v = some m → m.version = v
  /-- Versions are below the next one. -/
  below : ∀ v m, s.get v = some m → v < s.nextVersion

theorem mem_manifests : m ∈ s.manifests ↔ ∃ v, s.get v = some m := by
  rw [manifests, List.mem_map]
  refine ⟨fun ⟨⟨v, m'⟩, h, hm⟩ => ⟨v, ?_⟩, fun ⟨v, h⟩ => ⟨(v, m), ?_, rfl⟩⟩
  · obtain rfl : m' = m := hm
    exact Std.ExtTreeMap.mem_toList_iff_getElem?_eq_some.mp h
  · exact Std.ExtTreeMap.mem_toList_iff_getElem?_eq_some.mpr h

@[simp] theorem snapshot_referenced : s.snapshot.referenced = s.allReferencedSegments := rfl

theorem mem_allReferencedSegments {id : SegmentId} :
    id ∈ s.allReferencedSegments ↔ ∃ v m, s.get v = some m ∧ id ∈ m.segmentIds := by
  rw [allReferencedSegments, List.mem_flatMap]
  refine ⟨fun ⟨m, hm, hid⟩ => ?_, fun ⟨v, m, hm, hid⟩ => ⟨m, mem_manifests.mpr ⟨v, hm⟩, hid⟩⟩
  obtain ⟨v, hv⟩ := mem_manifests.mp hm
  exact ⟨v, m, hv, hid⟩

/-- A version is resolved by its number if it is there. -/
theorem resolve_version : (s.resolve (.version v)).map s.get = (s.get v).map some := by
  have hc : s.commits.contains v = (s.get v).isSome := by
    rw [Std.ExtTreeMap.contains_eq_isSome_getElem?]
    rfl
  rw [resolve, hc]
  cases h : s.get v with
  | none => rfl
  | some m => rw [Option.isSome_some, if_pos rfl, Option.map_some, h, Option.map_some]

theorem get_commit {trigger : String} {message tag : Option String} {segs : List SegmentRef}
    {d : DeletionVector} :
    (s.commit trigger message tag segs d).2.get v =
      if v = s.nextVersion then some ⟨s.nextVersion, s.head, trigger, message, segs, d⟩
      else s.get v := by
  change (s.commits.insert s.nextVersion _)[v]? = _
  rw [Std.ExtTreeMap.getElem?_insert]
  simp only [Nat.compare_eq_eq, eq_comm (a := v)]
  rfl

theorem wellFormed_new : new.WellFormed := ⟨fun _ _ h => by simp [new, get] at h,
  fun _ _ h => by simp [new, get] at h⟩

theorem WellFormed.commit (h : s.WellFormed) {trigger : String} {message tag : Option String}
    {segs : List SegmentRef} {d : DeletionVector} :
    (s.commit trigger message tag segs d).2.WellFormed := by
  refine ⟨fun v m hm => ?_, fun v m hm => ?_⟩
  · rw [get_commit] at hm
    split at hm
    · cases hm
      exact (‹v = _›).symm
    · exact h.keyed v m hm
  · rw [get_commit] at hm
    change v < s.nextVersion + 1
    split at hm
    · exact Nat.lt_succ_of_le (Nat.le_of_eq ‹v = _›)
    · exact Nat.lt_succ_of_lt (h.below v m hm)

/-- Moving a pointer moves nothing else. -/
theorem commits_of_setTag {name : String} (hs : s.setTag name v = .ok s') :
    s'.commits = s.commits ∧ s'.nextVersion = s.nextVersion := by
  unfold setTag at hs
  split at hs
  · cases hs; exact ⟨rfl, rfl⟩
  · cases hs

theorem commits_of_setBranch {name : String} (hs : s.setBranch name v = .ok s') :
    s'.commits = s.commits ∧ s'.nextVersion = s.nextVersion := by
  unfold setBranch at hs
  split at hs
  · cases hs; exact ⟨rfl, rfl⟩
  · cases hs

theorem head_of_setTag {name : String} (hs : s.setTag name v = .ok s') : s'.head = s.head := by
  unfold setTag at hs
  split at hs
  · cases hs; rfl
  · cases hs

theorem head_of_setBranch {name : String} (hs : s.setBranch name v = .ok s') :
    s'.head = s.head := by
  unfold setBranch at hs
  split at hs
  · cases hs; rfl
  · cases hs

theorem get_congr (hc : s'.commits = s.commits) : s'.get v = s.get v := by rw [get, get, hc]

theorem manifests_congr (hc : s'.commits = s.commits) : s'.manifests = s.manifests := by
  rw [manifests, manifests, hc]

theorem WellFormed.congr (h : s.WellFormed) (hc : s'.commits = s.commits)
    (hn : s'.nextVersion = s.nextVersion) : s'.WellFormed :=
  ⟨fun v m hm => h.keyed v m (get_congr hc ▸ hm),
    fun v m hm => hn ▸ h.below v m (get_congr hc ▸ hm)⟩

/-! ## Collection passes -/

theorem getElem?_foldl_erase {ms : Std.ExtTreeMap VersionId Manifest} (vs : List VersionId) :
    (vs.foldl (fun c v => c.erase v) ms)[v]? = if v ∈ vs then none else ms[v]? := by
  induction vs generalizing ms with
  | nil => rfl
  | cons u vs ih =>
    rw [List.foldl_cons, ih, Std.ExtTreeMap.getElem?_erase]
    by_cases hv : v ∈ vs
    · simp [hv]
    · simp [hv, eq_comm (a := u)]

/-- **A collection pass** keeps the versions it does not remove. -/
theorem get_gc {rules : RetentionRules} : (s.gc rules).2.get v =
    if v ∈ (s.planGc rules).removedVersions then none else s.get v :=
  getElem?_foldl_erase _

theorem get_of_get_gc {rules : RetentionRules} (h : (s.gc rules).2.get v = some m) :
    v ∉ (s.planGc rules).removedVersions ∧ s.get v = some m := by
  rw [get_gc] at h
  split at h
  · cases h
  · exact ⟨‹_›, h⟩

theorem WellFormed.gc (h : s.WellFormed) {rules : RetentionRules} : (s.gc rules).2.WellFormed :=
  ⟨fun v m hm => h.keyed v m (get_of_get_gc hm).2, fun v m hm => h.below v m (get_of_get_gc hm).2⟩

/-- **A kept version keeps its segments.** -/
theorem notMem_orphanSegments {rules : RetentionRules} (hm : s.get v = some m)
    (hv : v ∉ (s.planGc rules).removedVersions) {id : SegmentId} (hid : id ∈ m.segmentIds) :
    id ∉ (s.planGc rules).orphanSegments := by
  have hret : v ∈ s.retainedVersions rules := by
    by_contra hn
    refine hv (List.mem_filter.mpr ⟨?_, by simpa using hn⟩)
    rw [Std.ExtTreeMap.mem_keys, Std.ExtTreeMap.mem_iff_isSome_getElem?]
    exact (congrArg Option.isSome hm).trans rfl
  have hkept : id ∈ ((s.retainedVersions rules).filterMap s.get).flatMap Manifest.segmentIds :=
    List.mem_flatMap.mpr ⟨m, List.mem_filterMap.mpr ⟨v, hret, hm⟩, hid⟩
  simp only [planGc, mem_sortedIds, List.mem_filter, not_and, decide_eq_true_eq, not_not]
  exact fun _ => hkept

theorem of_mem_allReferencedSegments_gc {rules : RetentionRules} {id : SegmentId}
    (h : id ∈ (s.gc rules).2.allReferencedSegments) :
    id ∈ s.allReferencedSegments ∧ id ∉ (s.planGc rules).orphanSegments := by
  obtain ⟨v, m, hm, hid⟩ := mem_allReferencedSegments.mp h
  obtain ⟨hv, hm⟩ := get_of_get_gc hm
  exact ⟨mem_allReferencedSegments.mpr ⟨v, m, hm, hid⟩, notMem_orphanSegments hm hv hid⟩

/-! ## Snapshots -/

/-- **A snapshot restores every manifest.** -/
theorem get_fromSnapshot_snapshot (h : s.WellFormed) (v : VersionId) :
    (fromSnapshot s.snapshot).get v = s.get v := by
  have hlist : s.manifests.map (fun m => (m.version, m)) = s.commits.toList := by
    rw [manifests, List.map_map]
    refine (List.map_congr_left fun p hp => ?_).trans (List.map_id _)
    have := h.keyed p.1 p.2 (Std.ExtTreeMap.mem_toList_iff_getElem?_eq_some.mp hp)
    exact Prod.ext this rfl
  change (Std.ExtTreeMap.ofList (s.manifests.map fun m => (m.version, m)))[v]? = s.commits[v]?
  rw [hlist]
  cases hv : s.commits[v]? with
  | some m =>
    exact Std.ExtTreeMap.getElem?_ofList_of_mem Std.ReflCmp.compare_self
      Std.ExtTreeMap.distinct_keys_toList (Std.ExtTreeMap.mem_toList_iff_getElem?_eq_some.mpr hv)
  | none =>
    refine Std.ExtTreeMap.getElem?_ofList_of_contains_eq_false ?_
    rw [← Bool.not_eq_true, List.contains_iff_mem, List.mem_map]
    rintro ⟨⟨u, m⟩, hm, rfl⟩
    have hm : s.commits[u]? = some m := Std.ExtTreeMap.mem_toList_iff_getElem?_eq_some.mp hm
    rw [hv] at hm
    cases hm

/-- What a restored store holds comes from the snapshot, filed under its version. -/
theorem of_get_fromSnapshot {t : VersionStoreSnapshot} (h : (fromSnapshot t).get v = some m) :
    m ∈ t.manifests ∧ m.version = v := by
  change (Std.ExtTreeMap.ofList (t.manifests.map fun m => (m.version, m)))[v]? = some m at h
  rw [Std.ExtTreeMap.ofList_eq_insertMany_empty, Std.ExtTreeMap.getElem?_insertMany_list,
    Std.ExtTreeMap.getElem?_empty, Option.or_none, List.findSomeRev?_eq_findSome?_reverse] at h
  obtain ⟨⟨u, m'⟩, hm, h⟩ := List.exists_of_findSome?_eq_some h
  rw [List.mem_reverse, List.mem_map] at hm
  obtain ⟨m'', hm, h'⟩ := hm
  cases h'
  dsimp only at h
  split at h
  · cases h
    exact ⟨hm, Nat.compare_eq_eq.mp ‹_›⟩
  · cases h

theorem WellFormed.fromSnapshot_snapshot (h : s.WellFormed) :
    (fromSnapshot s.snapshot).WellFormed :=
  ⟨fun v m hm => h.keyed v m (get_fromSnapshot_snapshot h v ▸ hm),
    fun v m hm => h.below v m (get_fromSnapshot_snapshot h v ▸ hm)⟩

end VersionStore

end Vecvec
