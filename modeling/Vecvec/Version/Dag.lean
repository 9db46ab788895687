import Vecvec.Version.Retention

/-!
# Version/Dag — the version DAG stays well formed

Whatever mixture of commits, pointer moves, collection passes and reloads a store goes through, the
ids it has issued are `0, 1, 2, …` in order, the head is the last of them and is still filed, and a
manifest's parent is older than it.

A reload is the replacement of a store by what its own snapshot restores.  It gives the store back
(`VersionStore.fromSnapshot_snapshot`), so nothing that follows can tell.
-/

namespace Vecvec

/-- The id a call issues. -/
def VersionCall.issues (s : VersionStore) : VersionCall → Option VersionId
  | .commit trigger message tag segments deletions =>
    some (s.commit trigger message tag segments deletions).1.version
  | .setTag .. | .setBranch .. | .gc _ | .reload => none

namespace VersionStore

/-- The ids a run of calls issues on a new store, in order, and the store it ends with. -/
def grown (ks : List VersionCall) : List VersionId × VersionStore :=
  ks.foldl (fun r k => (r.1 ++ (k.issues r.2).toList, r.2.perform k)) ([], new)

variable {s s' : VersionStore} {v : VersionId} {m : Manifest}

@[simp] theorem grown_nil : grown [] = ([], new) := rfl

theorem grown_append_singleton {ks : List VersionCall} {k : VersionCall} : grown (ks ++ [k]) =
    ((grown ks).1 ++ (k.issues (grown ks).2).toList, (grown ks).2.perform k) := by
  rw [grown, List.foldl_append]
  rfl

/-! ## A reload changes nothing -/

/-- **A snapshot restores the store**, not only what it holds. -/
theorem fromSnapshot_snapshot (h : s.WellFormed) : fromSnapshot s.snapshot = s := by
  have hc : (fromSnapshot s.snapshot).commits = s.commits :=
    Std.ExtTreeMap.ext_getElem? (get_fromSnapshot_snapshot h)
  obtain ⟨commits, head, branches, tags, nextVersion⟩ := s
  rw [fromSnapshot, VersionStore.mk.injEq]
  exact ⟨hc, rfl, rfl, rfl, rfl⟩

/-! ## The invariant -/

/-- What every store keeps, given the ids it has issued. -/
structure Dag (issued : List VersionId) (s : VersionStore) : Prop where
  /-- Manifests are filed under their own versions, which have been given out. -/
  wellFormed : s.WellFormed
  /-- A parent is older. -/
  parent : ∀ v m, s.get v = some m → ∀ p, m.parent = some p → p < v
  /-- The head is the last id issued. -/
  head : s.head = issued.getLast?
  /-- The head is filed. -/
  filed : ∀ v, s.head = some v → (s.get v).isSome
  /-- The ids issued are all those below the next one, in order. -/
  issued : issued = List.range s.nextVersion

variable {issued : List VersionId}

theorem dag_new : Dag [] new :=
  ⟨wellFormed_new, fun _ _ h => by simp [new, get] at h, rfl, nofun, rfl⟩

/-- Calls that only move pointers keep the invariant. -/
theorem Dag.congr (h : Dag issued s) (hc : s'.commits = s.commits) (hh : s'.head = s.head)
    (hn : s'.nextVersion = s.nextVersion) : Dag issued s' where
  wellFormed := h.wellFormed.congr hc hn
  parent v m hm := h.parent v m (get_congr hc ▸ hm)
  head := hh.trans h.head
  filed v hv := by
    rw [get_congr hc]
    exact h.filed v (hh ▸ hv)
  issued := hn ▸ h.issued

theorem Dag.setTag (h : Dag issued s) {name : String} (hs : s.setTag name v = .ok s') :
    Dag issued s' := by
  obtain ⟨hc, hn⟩ := commits_of_setTag hs
  exact h.congr hc (head_of_setTag hs) hn

theorem Dag.setBranch (h : Dag issued s) {name : String} (hs : s.setBranch name v = .ok s') :
    Dag issued s' := by
  obtain ⟨hc, hn⟩ := commits_of_setBranch hs
  exact h.congr hc (head_of_setBranch hs) hn

theorem Dag.commit (h : Dag issued s) {trigger : String} {message tag : Option String}
    {segs : List SegmentRef} {d : DeletionVector} :
    Dag (issued ++ [s.nextVersion]) (s.commit trigger message tag segs d).2 where
  wellFormed := h.wellFormed.commit
  parent v m hm p hp := by
    rw [get_commit] at hm
    split at hm
    · -- The new manifest's parent is the head it was committed on, which was filed before.
      cases hm
      obtain ⟨m', hm'⟩ := Option.isSome_iff_exists.mp (h.filed p hp)
      exact ‹v = _› ▸ h.wellFormed.below p m' hm'
    · exact h.parent v m hm p hp
  head := by
    rw [List.getLast?_concat]
    rfl
  filed v hv := by
    obtain rfl : s.nextVersion = v := Option.some.inj hv
    rw [get_commit, if_pos rfl]
    rfl
  issued := by
    change _ = List.range (s.nextVersion + 1)
    rw [List.range_succ, ← h.issued]

theorem Dag.gc (h : Dag issued s) {rules : RetentionRules} : Dag issued (s.gc rules).2 where
  wellFormed := h.wellFormed.gc
  parent v m hm := h.parent v m (get_of_get_gc hm).2
  head := h.head
  filed v hv := by
    rw [get_gc, if_neg (notMem_removedVersions_of_head (s := s) hv)]
    exact h.filed v hv
  issued := h.issued

/-- **One call** keeps the invariant. -/
theorem Dag.perform (h : Dag issued s) (k : VersionCall) :
    Dag (issued ++ (k.issues s).toList) (s.perform k) := by
  cases k with
  | commit => exact h.commit
  | setTag name v =>
    simp only [VersionCall.issues, Option.toList_none, List.append_nil, VersionStore.perform]
    cases hs : s.setTag name v with
    | ok s' => exact h.setTag hs
    | error _ => exact h
  | setBranch name v =>
    simp only [VersionCall.issues, Option.toList_none, List.append_nil, VersionStore.perform]
    cases hs : s.setBranch name v with
    | ok s' => exact h.setBranch hs
    | error _ => exact h
  | gc rules =>
    simp only [VersionCall.issues, Option.toList_none, List.append_nil]
    exact h.gc
  | reload =>
    simp only [VersionCall.issues, Option.toList_none, List.append_nil, VersionStore.perform,
      fromSnapshot_snapshot h.wellFormed]
    exact h

/-- **A run** keeps the invariant. -/
theorem dag_grown (ks : List VersionCall) : Dag (grown ks).1 (grown ks).2 := by
  induction ks using List.reverseRecOn with
  | nil => exact dag_new
  | append_singleton ks k ih =>
    rw [grown_append_singleton]
    exact ih.perform k

/-- **The version DAG stays well formed**: manifests are filed under their own ids, ids are below
the next one, parents are smaller, the head is filed and is the id of the most recent commit, no id
is issued twice, and a reload changes nothing. -/
theorem dag_wellFormed (ks : List VersionCall) :
    (∀ v m, (grown ks).2.get v = some m → m.version = v) ∧
    (∀ v m, (grown ks).2.get v = some m → v < (grown ks).2.nextVersion) ∧
    (∀ v m p, (grown ks).2.get v = some m → m.parent = some p → p < v) ∧
    (∀ v, (grown ks).2.head = some v → ((grown ks).2.get v).isSome) ∧
    (grown ks).2.head = (grown ks).1.getLast? ∧
    (grown ks).1.Nodup ∧
    fromSnapshot (grown ks).2.snapshot = (grown ks).2 := by
  have h := dag_grown ks
  refine ⟨h.wellFormed.keyed, h.wellFormed.below, fun v m p hm => h.parent v m hm p, h.filed,
    h.head, ?_, fromSnapshot_snapshot h.wellFormed⟩
  rw [h.issued]
  exact List.nodup_range

end VersionStore

end Vecvec
