import Vecvec.Collection.Counts

/-!
# Collection/Restores — a restore reproduces the version, and only adds history

A restore re-points the working set at the version's segments and its tombstones, and commits.
Nothing is left to seal, and every segment the version refers to is registered (`Sound.refs`), so
the new version refers to the very same ones: **it reads as the old one does** (`restore_spec`).
-/

namespace Vecvec

open Machinery

variable {P : Platform} {cfg : CollectionConfig} {c c' : Collection} {t : ℕ}

namespace Collection

/-! ## Versions are numbered upwards -/

theorem nextVersion_le_after (c : Collection) (k : Call) :
    c.versions.nextVersion ≤ (c.after P cfg k).versions.nextVersion := by
  cases k with
  | insert v => rw [after]; split <;> exact le_rfl
  | insertWithIdAndPayload id v p => rw [after]; split <;> exact le_rfl
  | insertBatch vs => rw [after]; split <;> exact le_rfl
  | delete id => rw [after, remove_versions]
  | sealAppendable => rw [after, sealNow_versions]
  | commit trigger message tag =>
    change _ ≤ c.sealNow.versions.nextVersion + 1
    rw [sealNow_versions]
    exact Nat.le_succ _
  | restore v =>
    rw [after]
    cases c.versions.get v with
    | none => exact le_rfl
    | some m =>
      change _ ≤ (c.repoint m).sealNow.versions.nextVersion + 1
      rw [sealNow_versions]
      exact Nat.le_succ _
  | compact => rw [after]; split <;> exact le_rfl
  | createTag name v =>
    rw [after]
    cases h : c.versions.setTag name v with
    | ok vs => exact (VersionStore.commits_of_setTag h).2.ge
    | error e => exact le_rfl
  | createBranch name v =>
    rw [after]
    cases h : c.versions.setBranch name v with
    | ok vs => exact (VersionStore.commits_of_setBranch h).2.ge
    | error e => exact le_rfl
  | gc rules => exact le_rfl

end Collection

/-- **No version of the past is numbered** like one to come. -/
theorem History.lt_nextVersion {tr : List (Collection × Call)} (hist : History P cfg c tr c')
    (h : c.Sound) {d : Collection} (hd : d ∈ tr.map Prod.fst ++ [c']) {v : VersionId}
    (hv : (d.versions.get v).isSome) : v < c'.versions.nextVersion := by
  have hbelow {d : Collection} (h : d.Sound) (hv : (d.versions.get v).isSome) :
      v < d.versions.nextVersion := by
    obtain ⟨m, hm⟩ := Option.isSome_iff_exists.mp hv
    exact h.store.below v m hm
  induction hist with
  | nil =>
    obtain rfl := List.mem_singleton.mp hd
    exact hbelow h hv
  | @snoc c₁ _ tr _ k _ hist hrun ih =>
    have hs := hist.sound h
    rw [List.map_append, List.mem_append] at hd
    rcases hd with hd | hd
    · rw [hs.eq_after hrun]
      exact (ih hd).trans_le (Collection.nextVersion_le_after c₁ k)
    · obtain rfl := List.mem_singleton.mp hd
      exact hbelow ((hist.snoc hrun).sound h) hv

/-! ## What a restore leaves -/

namespace Collection

/-- A scroll by a selector sees the manifest it resolves to, that version's rows, and the
payloads. -/
theorem exists_run_scroll_selector {c c' : Collection} (hc : c.payloadReaders = ∅)
    (hc' : c'.payloadReaders = ∅) {sel : VersionSelector}
    (hres : (c'.versions.resolve sel).map c'.versions.get =
      (c.versions.resolve sel).map c.versions.get)
    (hrows : ∀ v m, c.versions.get v = some m → c'.versionRows m = c.versionRows m)
    (hp : c'.payloads = c.payloads) (offset limit : ℕ) : ∃ x,
      run (step P cfg) t (scroll (some sel) offset limit) c = some (x, c) ∧
      run (step P cfg) t (scroll (some sel) offset limit) c' = some (x, c') := by
  have hl {d : Collection} (h : d.payloadReaders = ∅) :
      { d with payloadReaders := (insert t d.payloadReaders).erase t } = d := by
    rw [h, Finset.erase_insert (Finset.notMem_empty t), ← h]
  refine ⟨_, (run_scroll_selector _ _ _).trans (by rw [hl hc]), ?_⟩
  rw [run_scroll_selector, hl hc', hres, hp]
  cases h : c.versions.resolve sel with
  | none => rfl
  | some v =>
    rw [Option.map_some]
    cases hm : c.versions.get v with
    | none => rfl
    | some m => simp only [hrows v m hm]

/-- A re-pointed collection has nothing to seal. -/
theorem sealNow_repoint (m : Manifest) : (c.repoint m).sealNow = c.repoint m := if_pos rfl

/-- A restore re-points, and records. -/
theorem restoreNow_eq {v : VersionId} {m : Manifest} : c.restoreNow v m =
    { c.repoint m with
      versions := (c.versions.commit "restore" (some s!"restore of v{v}") none
        ((c.repoint m).working.filterMap segmentRef) m.deletions).2 } := by
  rw [restoreNow, commitNow, sealNow_repoint]
  rfl

/-- The version a restore commits. -/
def restoredManifest (c : Collection) (v : VersionId) (m : Manifest) : Manifest :=
  ⟨c.versions.nextVersion, c.versions.head, "restore", some s!"restore of v{v}",
    (c.repoint m).working.filterMap segmentRef, m.deletions⟩

theorem get_restoreNow {v u : VersionId} {m : Manifest} :
    (c.restoreNow v m).versions.get u =
      if u = c.versions.nextVersion then some (c.restoredManifest v m) else c.versions.get u := by
  rw [restoreNow, get_commitNow, sealNow_repoint]
  rfl

/-- **A restore reproduces the version.** -/
theorem versionRows_restoreNow (hs : c.Sound) {v : VersionId} {m : Manifest} :
    (c.restoreNow v m).versionRows (c.restoredManifest v m) = c.versionRows m := by
  have hrec := Counted.rows_recorded (hs.repoint (m := m)) _ fun _ h => h
  rw [versionRows, restoreNow_eq]
  exact congrArg (liveRows · m.deletions) hrec

end Collection

/-! ## Deletes, one after another -/

theorem Collection.holds_remove (c : Collection) (id i : GlobalId) :
    (c.remove i).holds id = c.holds id := by
  rw [holds, holds, remove_appendable, remove_working]

theorem Collection.mem_workingDeletions_remove {id i : GlobalId} (hid : c.holds id = true) :
    id ∈ (c.remove i).workingDeletions ↔ id = i ∨ id ∈ c.workingDeletions := by
  unfold remove
  split
  · exact Finset.mem_insert
  · refine ⟨.inr, fun h => h.resolve_left ?_⟩
    rintro rfl
    contradiction

/-- Deletes take nothing off the rows, and tombstone the ids they are given. -/
theorem History.deletes {tr : List (Collection × Call)} (hist : History P cfg c tr c')
    (hs : c.Sound) (hdel : ∀ e ∈ tr, ∃ i, e.2 = .delete i) {id : GlobalId}
    (hid : c.holds id = true) : c'.holds id = true ∧
      (id ∈ c'.workingDeletions ↔ id ∈ c.workingDeletions ∨ ∃ e ∈ tr, e.2 = .delete id) := by
  induction hist with
  | nil => simp [hid]
  | @snoc c₁ _ tr _ k _ hist hrun ih =>
    obtain ⟨hholds, hdead⟩ := ih fun e he => hdel e (List.mem_append_left _ he)
    obtain ⟨i, rfl⟩ := hdel _ (List.mem_append_right _ List.mem_cons_self)
    rw [(hist.sound hs).eq_after hrun]
    refine ⟨(c₁.holds_remove id i).trans hholds, ?_⟩
    change id ∈ (c₁.remove i).workingDeletions ↔ _
    rw [Collection.mem_workingDeletions_remove hholds, hdead]
    simp only [List.mem_append, List.mem_singleton, or_and_right, exists_or, exists_eq_left,
      Call.delete.injEq]
    rw [or_left_comm, or_comm (a := id = i), eq_comm (a := i)]

/-! ## Restore -/

/-- What a restore of version `v` promises: version `w` is made and the working state is its. -/
structure Collection.Restored (P : Platform) (cfg : CollectionConfig) (c : Collection)
    (v w : VersionId) (c' : Collection) : Prop where
  /-- The working state reads as the version did. -/
  working : ∀ t offset limit, ∃ x,
    run (step P cfg) t (scroll (some (.version v)) offset limit) c = some (.ok x, c) ∧
    run (step P cfg) t (scroll none offset limit) c' = some (.ok x, c')
  /-- The new version reads as the old one did. -/
  version : ∀ t offset limit, ∃ x,
    run (step P cfg) t (scroll (some (.version v)) offset limit) c = some (.ok x, c) ∧
    run (step P cfg) t (scroll (some (.version w)) offset limit) c' = some (.ok x, c')
  /-- Every other version reads as before. -/
  others : ∀ t u, u ≠ w → ∀ offset limit, ∃ x,
    run (step P cfg) t (scroll (some (.version u)) offset limit) c = some (x, c) ∧
    run (step P cfg) t (scroll (some (.version u)) offset limit) c' = some (x, c')
  /-- The pointers stay. -/
  pointers : c'.versions.tags = c.versions.tags ∧ c'.versions.branches = c.versions.branches
  /-- A live row of the version is deleted by the first delete of its id, and by no later one. -/
  deletes : ∀ m, c.versions.get v = some m → ∀ id ∈ rowIds (c.versionRows m),
    ∀ tr c₁, History P cfg c' tr c₁ → (∀ e ∈ tr, ∃ i, e.2 = .delete i) →
      ∀ t, ∃ r c₂, run (step P cfg) t (delete id) c₁ = some (r, c₂) ∧
        (r = true ↔ ∀ e ∈ tr, e.2 ≠ .delete id)

/-- A live row of the version is a live row after its restore. -/
theorem Collection.holds_restoreNow {v : VersionId} {m : Manifest} {id : GlobalId}
    (hid : id ∈ rowIds (c.versionRows m)) :
    (c.restoreNow v m).holds id = true ∧ id ∉ (c.restoreNow v m).workingDeletions := by
  rw [versionRows, rowIds_liveRows, List.mem_filter, decide_eq_true_eq] at hid
  rw [restoreNow_eq]
  refine ⟨mem_ids.mp ?_, hid.2⟩
  change id ∈ rowIds (_ ++ [])
  rw [List.append_nil]
  exact hid.1

theorem Collection.Sound.restored (hs : c.Sound) {v : VersionId} {m : Manifest}
    (hm : c.versions.get v = some m) :
    c.Restored P cfg v c.versions.nextVersion (c.restoreNow v m) := by
  have hs' : (c.restoreNow v m).Sound := hs.restoreNow
  have hpay : (c.restoreNow v m).payloads = c.payloads := sealNow_payloads (c := c.repoint m)
  have hrows := versionRows_restoreNow hs (v := v) (m := m)
  refine ⟨fun t offset limit => ⟨_, run_scroll_version hm hs.payloadReaders offset limit, ?_⟩,
    fun t offset limit => ⟨_, run_scroll_version hm hs.payloadReaders offset limit, ?_⟩,
    fun t u hu => exists_run_scroll_selector hs.payloadReaders hs'.payloadReaders ?_ ?_ hpay,
    ?_, fun m' hm' id hid tr c₁ hist hdel t => ?_⟩
  · rw [run_scroll_none hs'.payloadReaders, hpay, restoreNow_eq]
    change some (Except.ok (page (liveRows (_ ++ []) _) ..), _) = _
    rw [List.append_nil]
    rfl
  · rw [run_scroll_version (get_restoreNow.trans (if_pos rfl)) hs'.payloadReaders, hpay, hrows]
  · rw [VersionStore.resolve_version, VersionStore.resolve_version, get_restoreNow, if_neg hu]
  · intro _ m' _
    rw [versionRows, restoreNow_eq]
    rfl
  · rw [restoreNow_eq]
    exact ⟨rfl, rfl⟩
  · obtain rfl : m = m' := Option.some.inj (hm.symm.trans hm')
    obtain ⟨hholds, hlive⟩ := holds_restoreNow (v := v) hid
    obtain ⟨hholds₁, hdead⟩ := hist.deletes hs' hdel hholds
    refine ⟨_, _, run_delete, ?_⟩
    rw [hholds₁, Bool.true_and, decide_eq_true_eq, hdead, or_iff_right hlive]
    refine ⟨fun h e he hd => h ⟨e, he, hd⟩, fun h hdel => ?_⟩
    obtain ⟨e, he, hd⟩ := hdel
    exact h e he hd

/-- **A restore reproduces the version and only adds history.**  In a collection reached by calls
one after another, a restore of a version that is there makes a version numbered above every one
there ever was, and the working state reads as the old version does; a restore of any other fails
and changes nothing. -/
theorem restore_spec {tr : List (Collection × Call)} (hist : History P cfg .create tr c) (t : ℕ)
    (v : VersionId) :
    ((c.versions.get v).isSome → ∃ w c',
      run (Collection.step P cfg) t (Collection.restore v) c = some (.ok w, c') ∧
      (∀ d ∈ tr.map Prod.fst ++ [c], ∀ u, (d.versions.get u).isSome → u < w) ∧
      c.Restored P cfg v w c') ∧
    (c.versions.get v = none → ∃ e,
      run (Collection.step P cfg) t (Collection.restore v) c = some (.error e, c)) := by
  have hs := hist.sound Collection.sound_create
  refine ⟨fun hv => ?_, fun hv => ⟨_, Collection.run_restore_error hv⟩⟩
  obtain ⟨m, hm⟩ := Option.isSome_iff_exists.mp hv
  exact ⟨_, _, Collection.run_restore (by rw [hs.sealing]) hm,
    fun d hd u hu => hist.lt_nextVersion Collection.sound_create hd hu, hs.restored hm⟩

/-- A version restored after its points were deleted, merged away and collected around. -/
theorem restore_spec_sample : ∃ tr c c', History Sample.platform (Sample.config none) .create tr c ∧
    run (Collection.step Sample.platform (Sample.config none)) 0 (Collection.restore 0) c =
      some (.ok 2, c') ∧
    c.Restored Sample.platform (Sample.config none) 0 2 c' := by
  have h : Collection.create.Leads Sample.platform (Sample.config none)
      [.insertBatch [[1], [2]], .delete 0, .commit "manual" none none, .createTag "kept" 0,
        .delete 1, .insert [3], .sealAppendable, .compact, .commit "manual" none none,
        .gc ⟨some 1, true, false⟩]
      fun _ c => (c.versions.get 0).isSome ∧ c.versions.nextVersion = 2 := by
    decide +kernel
  obtain ⟨tr, c, hist, hv, hnext⟩ := h.exists_history
  obtain ⟨w, c', hrun, -, hrest⟩ := (restore_spec hist 0 0).1 hv
  obtain ⟨m, hm⟩ := Option.isSome_iff_exists.mp hv
  obtain rfl : w = 2 := by
    have := hrun.symm.trans (Collection.run_restore
      (by rw [(hist.sound Collection.sound_create).sealing]) hm)
    rw [hnext] at this
    cases this
    rfl
  exact ⟨tr, c, c', hist, hrun, hrest⟩

end Vecvec
