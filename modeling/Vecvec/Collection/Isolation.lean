import Vecvec.Collection.Histories
import Vecvec.Persist.Sample

/-!
# Collection/Isolation — a version reads the same for ever

A version is a manifest and the segments it refers to.  No call changes a registered segment, a
manifest or a stored payload; segment ids and version ids are given out once; and a collection pass
that keeps a version keeps its segments.
-/

namespace Vecvec

open Machinery

variable {P : Platform} {cfg : CollectionConfig} {c c' : Collection} {t : ℕ}

namespace Collection

/-! ## What a call does not touch -/

theorem sealNow_allSegments_of_lt {id : SegmentId} (hid : id < c.nextSegmentId) :
    c.sealNow.allSegments id = c.allSegments id := by
  unfold sealNow
  split
  · rfl
  · exact Function.update_of_ne hid.ne _ _

/-- **Registered segments are immutable**, until a pass drops them. -/
theorem allSegments_after {k : Call} {id : SegmentId} (hid : id < c.nextSegmentId)
    (hd : ∀ rules, k = .gc rules → id ∉ c.dropped rules) :
    (c.after P cfg k).allSegments id = c.allSegments id := by
  cases k with
  | insert v => rw [after]; split <;> rfl
  | insertWithIdAndPayload i v p => rw [after]; split <;> rfl
  | insertBatch vs => rw [after]; split <;> rfl
  | delete i => rw [after, remove_allSegments]
  | sealAppendable => exact sealNow_allSegments_of_lt hid
  | commit => exact sealNow_allSegments_of_lt hid
  | restore v =>
    rw [after]
    cases c.versions.get v with
    | none => rfl
    | some m => exact sealNow_allSegments_of_lt (c := c.repoint m) hid
  | compact =>
    rw [after]
    split
    · exact Function.update_of_ne hid.ne _ _
    · rfl
  | createTag name v => rfl
  | createBranch name v => rfl
  | gc rules => exact if_neg (hd rules rfl)

theorem get_commitNow {trigger : String} {message tag : Option String} {v : VersionId} :
    (c.commitNow trigger message tag).versions.get v = if v = c.versions.nextVersion then
      some ⟨c.versions.nextVersion, c.versions.head, trigger, message,
        c.sealNow.working.filterMap segmentRef, c.workingDeletions⟩
    else c.versions.get v := by
  rw [commitNow, VersionStore.get_commit, sealNow_versions, sealNow_workingDeletions]

/-- **Manifests are immutable**, until a pass drops them. -/
theorem get_after (h : c.Sound) {k : Call} {v : VersionId} {m : Manifest}
    (hm : c.versions.get v = some m) (hk : ¬ k.Drops c v) :
    (c.after P cfg k).versions.get v = some m := by
  have hne : v ≠ c.versions.nextVersion := (h.store.below v m hm).ne
  cases k with
  | insert u => rw [after]; split <;> exact hm
  | insertWithIdAndPayload i u p => rw [after]; split <;> exact hm
  | insertBatch vs => rw [after]; split <;> exact hm
  | delete i => rwa [after, remove_versions]
  | sealAppendable => rwa [after, sealNow_versions]
  | commit => rwa [after, get_commitNow, if_neg hne]
  | restore u =>
    rw [after]
    cases c.versions.get u with
    | none => exact hm
    | some m' => exact get_commitNow.trans ((if_neg hne).trans hm)
  | compact => rw [after]; split <;> exact hm
  | createTag name u =>
    rw [after]
    cases hs : c.versions.setTag name u with
    | ok vs => exact (VersionStore.get_congr (VersionStore.commits_of_setTag hs).1).trans hm
    | error => exact hm
  | createBranch name u =>
    rw [after]
    cases hs : c.versions.setBranch name u with
    | ok vs => exact (VersionStore.get_congr (VersionStore.commits_of_setBranch hs).1).trans hm
    | error => exact hm
  | gc rules => exact VersionStore.get_gc.trans ((if_neg hk).trans hm)

/-- Only a point put in under a given id has a payload to store. -/
theorem payloads_after {k : Call} (hk : k.Allocates) :
    (c.after P cfg k).payloads = c.payloads := by
  cases k with
  | insert v => rw [after]; split <;> rfl
  | insertWithIdAndPayload => exact hk.elim
  | insertBatch vs => rw [after]; split <;> rfl
  | delete i => rw [after, remove_payloads]
  | sealAppendable => exact sealNow_payloads
  | commit => exact sealNow_payloads
  | restore v =>
    rw [after]
    cases c.versions.get v with
    | none => rfl
    | some m => exact sealNow_payloads (c := c.repoint m)
  | compact => rw [after]; split <;> rfl
  | createTag name v => rfl
  | createBranch name v => rfl
  | gc rules => rfl

/-! ## Versions -/

/-- What a read of version `v` depends on is as it was in `c`. -/
structure Keeps (c : Collection) (v : VersionId) (m : Manifest) (c' : Collection) : Prop where
  /-- The manifest. -/
  manifest : c'.versions.get v = some m
  /-- Its segments. -/
  segments : ∀ id ∈ m.segmentIds, c'.allSegments id = c.allSegments id
  /-- The payloads. -/
  payloads : c'.payloads = c.payloads

/-- The step lemma. -/
theorem Keeps.after {v : VersionId} {m : Manifest} (h : c'.Sound) (hv : c.Keeps v m c') {k : Call}
    (hk : k.Allocates) (hd : ¬ k.Drops c' v) : c.Keeps v m (c'.after P cfg k) where
  manifest := get_after h hv.manifest hd
  segments id hid := by
    refine (allSegments_after ?_ fun rules hr => ?_).trans (hv.segments id hid)
    · exact h.below id (h.isSome_of_mem_segmentIds hv.manifest hid)
    · subst hr
      refine notMem_dropped (.inr (VersionStore.mem_allReferencedSegments.mpr ⟨v, m, ?_, hid⟩))
      exact VersionStore.get_gc.trans ((if_neg hd).trans hv.manifest)
  payloads := (payloads_after hk).trans hv.payloads

/-- A kept version holds the rows it held. -/
theorem Keeps.versionRows_eq {v : VersionId} {m : Manifest} (hv : c.Keeps v m c') :
    c'.versionRows m = c.versionRows m := by
  rw [versionRows, versionRows, List.filterMap_congr hv.segments]

/-- The version a call makes is there after it. -/
theorem exists_get_of_creates (h : c.Sound) {k : Call} {r : k.Ret} {v : VersionId}
    (hrun : run (step P cfg) t (k.prog P cfg) c = some (r, c')) (hv : k.Creates r v) :
    ∃ m, c'.versions.get v = some m := by
  cases k with
  | commit trigger message tag =>
    obtain ⟨rfl, rfl⟩ := Prod.mk.inj (Option.some.inj
      (hrun.symm.trans (run_commit (by rw [h.sealing]))))
    obtain rfl : c.versions.nextVersion = v := hv
    exact ⟨_, get_commitNow.trans (if_pos rfl)⟩
  | restore u =>
    cases hu : c.versions.get u with
    | none =>
      obtain ⟨rfl, -⟩ := Prod.mk.inj (Option.some.inj (hrun.symm.trans (run_restore_error hu)))
      cases hv
    | some m =>
      obtain ⟨rfl, rfl⟩ := Prod.mk.inj (Option.some.inj
        (hrun.symm.trans (run_restore (by rw [h.sealing]) hu)))
      cases hv
      exact ⟨_, get_commitNow.trans (if_pos rfl)⟩
  | _ => exact hv.elim

end Collection

/-- **Snapshot isolation.**  A scroll of a version returns the same page and total after any further
calls — none of which drops the version, or puts a point in under a given id — as right after the
call that made the version. -/
theorem scroll_version_stable {tr tr' : List (Collection × Call)} {c₀ c₁ c₂ : Collection} {k : Call}
    {r : k.Ret} {v : VersionId} (hist : History P cfg .create tr c₀)
    (hrun : run (Collection.step P cfg) t (k.prog P cfg) c₀ = some (r, c₁)) (hv : k.Creates r v)
    (hist' : History P cfg c₁ tr' c₂) (halloc : ∀ e ∈ tr', e.2.Allocates)
    (hkeep : ∀ e ∈ tr', ¬ e.2.Drops e.1 v) (offset limit : ℕ) :
    ∃ x, run (Collection.step P cfg) t (Collection.scroll (some (.version v)) offset limit) c₁ =
        some (.ok x, c₁) ∧
      run (Collection.step P cfg) t (Collection.scroll (some (.version v)) offset limit) c₂ =
        some (.ok x, c₂) := by
  have hs₀ := hist.sound Collection.sound_create
  have hs₁ : c₁.Sound := (History.snoc hist hrun).sound Collection.sound_create
  obtain ⟨m, hm⟩ := Collection.exists_get_of_creates hs₀ hrun hv
  have hkeeps : c₁.Keeps v m c₂ :=
    hist'.invariant (I := c₁.Keeps v m) hs₁ ⟨hm, fun _ _ => rfl, rfl⟩ fun e he hse hI l =>
      have : c₁.Keeps v m (e.1.after P cfg e.2) := hI.after hse (halloc e he) (hkeep e he)
      ⟨this.manifest, this.segments, this.payloads⟩
  refine ⟨_, Collection.run_scroll_version hm hs₁.payloadReaders offset limit, ?_⟩
  rw [Collection.run_scroll_version hkeeps.manifest (hist'.sound hs₁).payloadReaders,
    hkeeps.versionRows_eq, hkeeps.payloads]

/-- A tagged version, deleted from, merged away and collected around. -/
theorem scroll_version_stable_sample : ∃ (c₀ : Collection) (tr' : _) (c₂ : Collection),
    History Sample.platform (Sample.config none) (c₀.commitNow "manual" none none) tr' c₂ ∧
      tr'.length = 8 ∧
      ∃ x, run (Collection.step Sample.platform (Sample.config none)) 0
        (Collection.scroll (some (.version c₀.versions.nextVersion)) 0 10) c₂
          = some (.ok x, c₂) := by
  have h : Collection.create.Leads Sample.platform (Sample.config none)
      [.insertWithIdAndPayload 0 [0] (some (.bool true))]
      fun _ c₀ => (c₀.commitNow "manual" none none).Leads Sample.platform (Sample.config none)
        [.createTag "kept" 0, .delete 0, .insertBatch [[1], [2]], .commit "manual" none none,
          .compact, .restore 0, .insert [3], .gc ⟨some 1, true, false⟩]
        fun tr' _ => tr'.length = 8 ∧ (∀ e ∈ tr', e.2.Allocates) ∧
          ∀ e ∈ tr', ¬ e.2.Drops e.1 c₀.versions.nextVersion := by
    decide +kernel
  obtain ⟨tr, c₀, hist, h'⟩ := h.exists_history
  obtain ⟨tr', c₂, hist', hlen, halloc, hkeep⟩ := h'.exists_history
  have hs := hist.sound Collection.sound_create
  obtain ⟨x, -, hx⟩ := scroll_version_stable (k := .commit "manual" none none) hist
    (Collection.run_commit (t := 0) (by rw [hs.sealing])) rfl hist' halloc hkeep 0 10
  exact ⟨c₀, tr', c₂, hist', hlen, x, hx⟩

end Vecvec
