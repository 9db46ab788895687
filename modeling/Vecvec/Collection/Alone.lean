import Vecvec.Collection.Calls

/-!
# Collection/Alone — what a call of the collection does when nothing interferes

For each call, the state it ends in as a function of the state it starts from, and the lemma that
running the call alone computes it.
-/

namespace Vecvec

open Machinery

namespace Collection

/-- No call is in progress. -/
structure Quiet (c : Collection) : Prop where
  /-- No seal is between taking the appendable and publishing. -/
  sealing : c.sealing = fun _ => none
  /-- No allocated id is waiting to be appended. -/
  inserting : c.inserting = fun _ => []
  /-- No payload lock is held. -/
  payloadReaders : c.payloadReaders = ∅

theorem quiet_create : create.Quiet := ⟨rfl, rfl, rfl⟩

/-- Every segment is registered under its own id. -/
def Keyed (c : Collection) : Prop := ∀ id seg, c.allSegments id = some seg → seg.id = id

variable (P : Platform) (cfg : CollectionConfig)

/-! ## What a call leaves -/

/-- Whether a row of the collection carries the id. -/
def holds (c : Collection) (id : GlobalId) : Bool :=
  containsId c.appendable.rows id || c.working.any fun s => containsId s.rows id

/-- The state after `insert_with_id_and_payload`. -/
def put (c : Collection) (id : GlobalId) (vector : List F32) (payload : Option Payload) :
    Collection :=
  { c with
    appendable := c.appendable.append P cfg.metric id vector
    nextGlobalId := max c.nextGlobalId (id + 1)
    payloads := match payload with
      | some p => Function.update c.payloads id (some p)
      | none => c.payloads }

/-- The state after `delete`. -/
def remove (c : Collection) (id : GlobalId) : Collection :=
  if c.holds id then { c with workingDeletions := insert id c.workingDeletions } else c

/-- The state after a record of the log is replayed. -/
def replay (c : Collection) : WalOp → Collection
  | .upsert id vector payload =>
    if vector.length = cfg.dim then c.put P cfg id vector payload else c
  | .delete id => c.remove id

/-- The state after `seal`. -/
def sealNow (c : Collection) : Collection :=
  if c.appendable.rows = [] then c
  else
    let sealed := c.appendable.sealAs c.nextSegmentId
    { c with
      appendable := .new
      nextSegmentId := c.nextSegmentId + 1
      allSegments := insertSegments c.allSegments [sealed]
      working := c.working ++ [sealed] }

/-- The state after `commit`; the version is the store's next one. -/
def commitNow (c : Collection) (trigger : String) (message tag : Option String) : Collection :=
  { c.sealNow with
    versions := (c.sealNow.versions.commit trigger message tag
      (c.sealNow.working.filterMap segmentRef) c.sealNow.workingDeletions).2 }

/-- The working state re-pointed at a version. -/
def repoint (c : Collection) (m : Manifest) : Collection :=
  { c with
    working := m.segmentIds.filterMap c.allSegments
    workingDeletions := m.deletions
    appendable := .new }

/-- The state after `restore` of a version that exists. -/
def restoreNow (c : Collection) (v : VersionId) (m : Manifest) : Collection :=
  (c.repoint m).commitNow "restore" (some s!"restore of v{v}") none

/-- The segment a compaction builds. -/
def merged (c : Collection) : SealedSegment :=
  (mergedRows P cfg c.working).sealAs c.nextSegmentId

/-- The state after a `compact` that merges. -/
def compactNow (c : Collection) : Collection :=
  { c with
    nextSegmentId := c.nextSegmentId + 1
    allSegments := insertSegments c.allSegments [c.merged P cfg]
    working := [c.merged P cfg] }

/-- The segments a `gc` drops. -/
def dropped (c : Collection) (rules : RetentionRules) : List SegmentId :=
  ((c.versions.planGc rules).orphanSegments.filter fun id =>
    id ∉ c.working.map SealedSegment.id).filter fun id => (c.allSegments id).isSome

/-- The state after `gc`. -/
def gcNow (c : Collection) (rules : RetentionRules) : Collection :=
  { c with
    versions := (c.versions.gc rules).2
    allSegments := fun id => if id ∈ c.dropped rules then none else c.allSegments id }

/-- What `get_vector` finds under an id: in the appendable, or else in the first working segment
that has it.  It does not ask whether the id is tombstoned. -/
def vectorAt (c : Collection) (id : GlobalId) : Option (List F32) :=
  (vectorOf c.appendable.rows id).or (c.working.findSome? fun s => vectorOf s.rows id)

/-- The live map: for each id that is not tombstoned, its stored vector and its payload. -/
def liveMap (c : Collection) (id : GlobalId) : Option (List F32 × Option Payload) :=
  if id ∈ c.workingDeletions then none
  else
    ((vectorOf c.appendable.rows id).or (c.working.findSome? fun s => vectorOf s.rows id)).map
      fun v => (v, c.payloads id)

variable {P cfg} {c : Collection} {t : ℕ}

/-- A vector is found where a row carries the id. -/
theorem isSome_vectorAt (id : GlobalId) : (c.vectorAt id).isSome = c.holds id := by
  rw [vectorAt, Option.isSome_or, isSome_vectorOf, List.isSome_findSome?, holds]
  simp only [isSome_vectorOf]

/-- The live points are those with a row and without a tombstone. -/
theorem isSome_liveMap {id : GlobalId} :
    (c.liveMap id).isSome ↔ c.holds id ∧ id ∉ c.workingDeletions := by
  have hmap : c.liveMap id = if id ∈ c.workingDeletions then none else
      (c.vectorAt id).map fun v => (v, c.payloads id) := rfl
  rw [hmap]
  split
  · simp [*]
  · simp [*, isSome_vectorAt]

/-! ## What stays the same -/

section Frame

variable {id : GlobalId} {v : List F32} {p : Option Payload}

@[simp] theorem put_working : (c.put P cfg id v p).working = c.working := rfl

@[simp] theorem put_appendable_rows : (c.put P cfg id v p).appendable.rows =
    c.appendable.rows ++ [(id, cfg.metric.stored P v)] := rfl

@[simp] theorem put_allSegments : (c.put P cfg id v p).allSegments = c.allSegments := rfl

@[simp] theorem put_workingDeletions : (c.put P cfg id v p).workingDeletions = c.workingDeletions :=
  rfl

@[simp] theorem put_versions : (c.put P cfg id v p).versions = c.versions := rfl

@[simp] theorem put_nextGlobalId : (c.put P cfg id v p).nextGlobalId =
    max c.nextGlobalId (id + 1) :=
  rfl

@[simp] theorem put_nextSegmentId : (c.put P cfg id v p).nextSegmentId = c.nextSegmentId := rfl

@[simp] theorem remove_appendable : (c.remove id).appendable = c.appendable := by
  unfold remove; split <;> rfl

@[simp] theorem remove_working : (c.remove id).working = c.working := by
  unfold remove; split <;> rfl

@[simp] theorem remove_allSegments : (c.remove id).allSegments = c.allSegments := by
  unfold remove; split <;> rfl

@[simp] theorem remove_payloads : (c.remove id).payloads = c.payloads := by
  unfold remove; split <;> rfl

@[simp] theorem remove_versions : (c.remove id).versions = c.versions := by
  unfold remove; split <;> rfl

@[simp] theorem remove_nextGlobalId : (c.remove id).nextGlobalId = c.nextGlobalId := by
  unfold remove; split <;> rfl

@[simp] theorem remove_nextSegmentId : (c.remove id).nextSegmentId = c.nextSegmentId := by
  unfold remove; split <;> rfl

@[simp] theorem replay_working {op : WalOp} : (c.replay P cfg op).working = c.working := by
  cases op with
  | upsert => rw [replay]; split <;> rfl
  | delete => exact remove_working

@[simp] theorem replay_allSegments {op : WalOp} :
    (c.replay P cfg op).allSegments = c.allSegments := by
  cases op with
  | upsert => rw [replay]; split <;> rfl
  | delete => exact remove_allSegments

@[simp] theorem replay_versions {op : WalOp} : (c.replay P cfg op).versions = c.versions := by
  cases op with
  | upsert => rw [replay]; split <;> rfl
  | delete => exact remove_versions

@[simp] theorem replay_nextSegmentId {op : WalOp} :
    (c.replay P cfg op).nextSegmentId = c.nextSegmentId := by
  cases op with
  | upsert => rw [replay]; split <;> rfl
  | delete => exact remove_nextSegmentId

/-- What one replayed record leaves alone, a log of them does. -/
theorem foldl_replay_frame {β : Type} {f : Collection → β}
    (hf : ∀ c op, f (c.replay P cfg op) = f c) (ops : List WalOp) (c : Collection) :
    f (ops.foldl (replay P cfg) c) = f c := by
  induction ops generalizing c with
  | nil => rfl
  | cons op ops ih => rw [List.foldl_cons, ih, hf]

@[simp] theorem foldl_replay_working (ops : List WalOp) :
    (ops.foldl (replay P cfg) c).working = c.working :=
  foldl_replay_frame (fun _ _ => replay_working) ops c

@[simp] theorem foldl_replay_allSegments (ops : List WalOp) :
    (ops.foldl (replay P cfg) c).allSegments = c.allSegments :=
  foldl_replay_frame (fun _ _ => replay_allSegments) ops c

@[simp] theorem foldl_replay_versions (ops : List WalOp) :
    (ops.foldl (replay P cfg) c).versions = c.versions :=
  foldl_replay_frame (fun _ _ => replay_versions) ops c

@[simp] theorem foldl_replay_nextSegmentId (ops : List WalOp) :
    (ops.foldl (replay P cfg) c).nextSegmentId = c.nextSegmentId :=
  foldl_replay_frame (fun _ _ => replay_nextSegmentId) ops c

@[simp] theorem sealNow_appendable_rows : c.sealNow.appendable.rows = [] := by
  unfold sealNow
  split
  · assumption
  · rfl

@[simp] theorem sealNow_workingDeletions : c.sealNow.workingDeletions = c.workingDeletions := by
  unfold sealNow; split <;> rfl

@[simp] theorem sealNow_payloads : c.sealNow.payloads = c.payloads := by
  unfold sealNow; split <;> rfl

@[simp] theorem sealNow_versions : c.sealNow.versions = c.versions := by
  unfold sealNow; split <;> rfl

@[simp] theorem sealNow_nextGlobalId : c.sealNow.nextGlobalId = c.nextGlobalId := by
  unfold sealNow; split <;> rfl

theorem Quiet.put (h : c.Quiet) : (c.put P cfg id v p).Quiet := ⟨h.1, h.2, h.3⟩

theorem Quiet.remove (h : c.Quiet) : (c.remove id).Quiet := by
  unfold Collection.remove
  split
  · exact ⟨h.1, h.2, h.3⟩
  · exact h

theorem Quiet.replay (h : c.Quiet) (op : WalOp) : (c.replay P cfg op).Quiet := by
  cases op with
  | upsert id v p =>
    rw [Collection.replay]
    split
    · exact h.put
    · exact h
  | delete id => exact h.remove

theorem Quiet.sealNow (h : c.Quiet) : c.sealNow.Quiet := by
  unfold Collection.sealNow
  split
  · exact h
  · exact ⟨h.1, h.2, h.3⟩

theorem Quiet.commitNow (h : c.Quiet) {trigger : String} {message tag : Option String} :
    (c.commitNow trigger message tag).Quiet :=
  ⟨h.sealNow.1, h.sealNow.2, h.sealNow.3⟩

theorem Quiet.compactNow (h : c.Quiet) : (c.compactNow P cfg).Quiet := ⟨h.1, h.2, h.3⟩

theorem Quiet.restoreNow (h : c.Quiet) {v : VersionId} {m : Manifest} : (c.restoreNow v m).Quiet :=
  Quiet.commitNow (c := c.repoint m) ⟨h.1, h.2, h.3⟩

theorem Quiet.gcNow (h : c.Quiet) {rules : RetentionRules} : (c.gcNow rules).Quiet :=
  ⟨h.1, h.2, h.3⟩

theorem keyed_create : create.Keyed := fun _ _ h => by cases h

/-- Registering segments keeps each under its own id. -/
theorem keyed_insertSegments {m : SegmentId → Option SealedSegment}
    (hm : ∀ id seg, m id = some seg → seg.id = id) (segs : List SealedSegment) :
    ∀ id seg, insertSegments m segs id = some seg → seg.id = id := by
  intro id seg h
  rcases fill_eq_or id with h' | ⟨s, -, hs, h'⟩
  · exact hm id seg (h'.symm.trans h)
  · cases h'.symm.trans h
    exact hs

theorem Keyed.sealNow (h : c.Keyed) : c.sealNow.Keyed := by
  unfold Collection.sealNow
  split
  · exact h
  · exact keyed_insertSegments h _

theorem Keyed.commitNow (h : c.Keyed) {trigger : String} {message tag : Option String} :
    (c.commitNow trigger message tag).Keyed := h.sealNow

theorem Keyed.restoreNow (h : c.Keyed) {v : VersionId} {m : Manifest} : (c.restoreNow v m).Keyed :=
  Keyed.commitNow (c := c.repoint m) h

theorem Keyed.compactNow (h : c.Keyed) : (c.compactNow P cfg).Keyed := keyed_insertSegments h _

theorem Keyed.gcNow (h : c.Keyed) {rules : RetentionRules} : (c.gcNow rules).Keyed := by
  intro id seg hid
  by_cases hd : id ∈ c.dropped rules
  · simp [Collection.gcNow, hd] at hid
  · exact h id seg (by simpa [Collection.gcNow, hd] using hid)

theorem Keyed.foldl_replay (h : c.Keyed) (ops : List WalOp) :
    (ops.foldl (Collection.replay P cfg) c).Keyed :=
  fun i seg hi => h i seg (foldl_replay_allSegments ops ▸ hi)

theorem Quiet.foldl_replay (hq : c.Quiet) (ops : List WalOp) :
    (ops.foldl (Collection.replay P cfg) c).Quiet := by
  induction ops generalizing c with
  | nil => exact hq
  | cons op ops ih => exact ih (hq.replay op)

end Frame

/-- Rows appended, one after another. -/
theorem foldl_append_rows (rows : List (GlobalId × List F32)) (s : AppendableSegment) :
    rows.foldl (fun s r => s.append P cfg.metric r.1 r.2) s =
      ⟨s.rows ++ rows.map fun r => (r.1, cfg.metric.stored P r.2)⟩ := by
  induction rows generalizing s with
  | nil => simp
  | cons r rows ih => simp [ih]

theorem isSome_insertSegments {m : SegmentId → Option SealedSegment} {segs : List SealedSegment}
    {id : SegmentId} : (insertSegments m segs id).isSome ↔
      (m id).isSome ∨ id ∈ segs.map SealedSegment.id := isSome_fill

theorem insertSegments_singleton {m : SegmentId → Option SealedSegment} {s : SealedSegment} :
    insertSegments m [s] = Function.update m s.id (some s) := rfl

/-- A manifest refers to working segments. -/
theorem exists_of_mem_segmentRef {segs : SegmentSet} {id : SegmentId}
    (h : id ∈ (segs.filterMap segmentRef).map SegmentRef.id) : ∃ s ∈ segs, s.id = id := by
  obtain ⟨ref, href, rfl⟩ := List.mem_map.mp h
  obtain ⟨s, hs, hsr⟩ := List.mem_filterMap.mp href
  obtain ⟨r, -, rfl⟩ := Option.map_eq_some_iff.mp hsr
  exact ⟨s, hs, rfl⟩

/-- The segments a commit refers to are those versions referred to before, and the working ones. -/
theorem of_mem_allReferencedSegments_commitNow {trigger : String} {message tag : Option String}
    {id : SegmentId}
    (h : id ∈ (c.commitNow trigger message tag).versions.allReferencedSegments) :
    id ∈ c.versions.allReferencedSegments ∨ ∃ s ∈ c.sealNow.working, s.id = id := by
  obtain ⟨v, m, hm, hid⟩ := VersionStore.mem_allReferencedSegments.mp h
  rw [commitNow, VersionStore.get_commit] at hm
  split at hm
  · cases hm
    exact .inr (exists_of_mem_segmentRef hid)
  · rw [sealNow_versions] at hm
    exact .inl (VersionStore.mem_allReferencedSegments.mpr ⟨v, m, hm, hid⟩)

/-- A dropped segment is an orphan that is not working. -/
theorem of_mem_dropped {rules : RetentionRules} {id : SegmentId} (h : id ∈ c.dropped rules) :
    id ∈ (c.versions.planGc rules).orphanSegments ∧ id ∉ c.working.map SealedSegment.id := by
  rw [dropped, List.mem_filter, List.mem_filter, decide_eq_true_eq] at h
  exact h.1

/-- What a collection pass leaves referred to, it does not drop. -/
theorem notMem_dropped {rules : RetentionRules} {id : SegmentId}
    (h : id ∈ c.working.map SealedSegment.id ∨
      id ∈ (c.gcNow rules).versions.allReferencedSegments) : id ∉ c.dropped rules := by
  intro hd
  obtain ⟨ho, hw⟩ := of_mem_dropped hd
  rcases h with h | h
  · exact hw h
  · exact (VersionStore.of_mem_allReferencedSegments_gc h).2 ho

/-! ## Running a call alone -/

theorem run_insertWithIdAndPayload {id : GlobalId} {v : List F32} {p : Option Payload}
    (hr : c.payloadReaders = ∅) (hdim : v.length = cfg.dim) :
    run (step P cfg) t (insertWithIdAndPayload cfg id v p) c =
      some (.ok (), { c.put P cfg id v p with
        inserting := Function.update c.inserting t ((c.inserting t).erase id) }) := by
  unfold insertWithIdAndPayload
  rw [if_neg (not_not_intro hdim)]
  refine (run_perform_bind rfl).trans ((run_perform_bind rfl).trans ?_)
  cases p with
  | none => rfl
  | some p => exact run_perform_bind (if_pos hr)

theorem run_insertWithIdAndPayload_error {id : GlobalId} {v : List F32} {p : Option Payload}
    (hdim : v.length ≠ cfg.dim) :
    run (step P cfg) t (insertWithIdAndPayload cfg id v p) c =
      some (.error (.dimensionMismatch cfg.dim v.length), c) := by
  unfold insertWithIdAndPayload
  rw [if_pos hdim]
  rfl

theorem run_containsAny {id : GlobalId} :
    run (step P cfg) t (containsAny id) c = some (c.holds id, c) := by
  refine (run_perform_bind rfl).trans ?_
  rw [holds]
  cases containsId c.appendable.rows id with
  | true => rfl
  | false => exact run_perform_bind rfl

theorem run_delete {id : GlobalId} :
    run (step P cfg) t (delete id) c =
      some (c.holds id && decide (id ∉ c.workingDeletions), c.remove id) := by
  rw [delete, run_bind_of_eq run_containsAny, remove]
  cases c.holds id with
  | true => rfl
  | false => rfl

theorem run_sealAppendable (hq : c.sealing t = none) :
    ∃ r, run (step P cfg) t sealAppendable c = some (r, c.sealNow) := by
  by_cases h : c.appendable.rows = []
  · exact ⟨none, (run_perform_bind (if_pos h)).trans (by rw [sealNow, if_pos h]; rfl)⟩
  · refine ⟨some c.nextSegmentId, (run_perform_bind (if_neg h)).trans ?_⟩
    refine (run_perform_bind rfl).trans ((run_perform_bind rfl).trans ?_)
    simp [sealNow, h, ← hq]

theorem run_commit (hq : c.sealing t = none) {trigger : String} {message tag : Option String} :
    run (step P cfg) t (commit trigger message tag) c =
      some (c.versions.nextVersion, c.commitNow trigger message tag) := by
  obtain ⟨r, hr⟩ := @run_sealAppendable P cfg c t hq
  rw [commit, run_bind_of_eq hr]
  refine (run_perform_bind rfl).trans ((run_perform_bind rfl).trans ((run_act_of_eq rfl).trans ?_))
  simp [commitNow, VersionStore.commit]

theorem run_restore (hq : c.sealing t = none) {v : VersionId} {m : Manifest}
    (hm : c.versions.get v = some m) :
    run (step P cfg) t (restore v) c =
      some (.ok c.versions.nextVersion, c.restoreNow v m) := by
  refine (run_perform_bind rfl).trans ?_
  rw [hm]
  refine (run_perform_bind rfl).trans ((run_perform_bind rfl).trans
    ((run_perform_bind rfl).trans ?_))
  exact (run_bind_of_eq (run_commit (c := c.repoint m) hq)).trans rfl

theorem run_restore_error {v : VersionId} (hv : c.versions.get v = none) :
    run (step P cfg) t (restore v) c = some (.error (.version s!"no such version {v}"), c) := by
  refine (run_perform_bind rfl).trans ?_
  rw [hv]
  rfl

theorem run_compact (h : 1 < c.working.length) :
    run (step P cfg) t (compact P cfg) c =
      some (some c.nextSegmentId, c.compactNow P cfg) := by
  refine (run_perform_bind rfl).trans ?_
  dsimp only
  rw [if_neg (by omega)]
  refine (run_perform_bind rfl).trans ((run_perform_bind rfl).trans
    ((run_perform_bind rfl).trans ?_))
  rfl

theorem run_compact_none (h : c.working.length ≤ 1) :
    run (step P cfg) t (compact P cfg) c = some (none, c) := by
  refine (run_perform_bind rfl).trans ?_
  dsimp only
  rw [if_pos h]
  rfl

theorem run_gc {rules : RetentionRules} :
    run (step P cfg) t (gc rules) c = some (c.dropped rules, c.gcNow rules) := by
  refine (run_perform_bind rfl).trans ((run_perform_bind rfl).trans ((run_act_of_eq rfl).trans ?_))
  have hreg : (fun id => if id ∈ (c.versions.planGc rules).orphanSegments.filter fun id =>
        id ∉ c.working.map SealedSegment.id then none else c.allSegments id) =
      fun id => if id ∈ c.dropped rules then none else c.allSegments id := by
    funext id
    cases hid : c.allSegments id <;> simp [dropped, hid]
  exact congrArg (fun reg => some (c.dropped rules, { c.gcNow rules with allSegments := reg })) hreg

/-- `create_tag`, `create_branch`: the pointer moves if the version exists. -/
theorem run_createTag {name : String} {v : VersionId} :
    run (step P cfg) t (createTag name v) c = some (match c.versions.setTag name v with
      | .ok vs => (.ok (), { c with versions := vs })
      | .error e => (.error (.version e), c)) := by
  cases h : c.versions.setTag name v with
  | ok vs => exact (run_perform_bind (by rw [step, h])).trans rfl
  | error e => exact (run_perform_bind (by rw [step, h])).trans rfl

theorem run_createBranch {name : String} {v : VersionId} :
    run (step P cfg) t (createBranch name v) c = some (match c.versions.setBranch name v with
      | .ok vs => (.ok (), { c with versions := vs })
      | .error e => (.error (.version e), c)) := by
  cases h : c.versions.setBranch name v with
  | ok vs => exact (run_perform_bind (by rw [step, h])).trans rfl
  | error e => exact (run_perform_bind (by rw [step, h])).trans rfl

theorem run_getVector {id : GlobalId} :
    run (step P cfg) t (getVector id) c = some (c.vectorAt id, c) := by
  refine (run_perform_bind rfl).trans ?_
  rw [vectorAt]
  cases vectorOf c.appendable.rows id with
  | none => rfl
  | some v => rfl

/-- **The live map is what `get_point` reads.** -/
theorem run_getPoint {id : GlobalId} :
    run (step P cfg) t (getPoint id) c =
      some ((c.liveMap id).map fun r => ⟨id, r.1, r.2⟩, c) := by
  refine (run_perform_bind rfl).trans ?_
  by_cases hd : id ∈ c.workingDeletions
  · rw [if_pos hd, liveMap, if_pos hd]
    rfl
  · rw [if_neg hd, liveMap, if_neg hd]
    rw [run_bind_of_eq run_getVector, vectorAt]
    cases (vectorOf c.appendable.rows id).or (c.working.findSome? fun s => vectorOf s.rows id) with
    | none => rfl
    | some v => rfl

/-- The rows a version holds. -/
def versionRows (c : Collection) (m : Manifest) : List Row :=
  liveRows (SegmentSet.rows (m.segmentIds.filterMap c.allSegments)) m.deletions

/-- A scroll by a selector: it resolves, its version is there, and then it pages through the rows of
that version's segments. -/
theorem run_scroll_selector (sel : VersionSelector) (offset limit : ℕ) :
    run (step P cfg) t (scroll (some sel) offset limit) c =
      some (match (c.versions.resolve sel).map c.versions.get with
        | none => .error (.version s!"unresolved selector {sel.debug}")
        | some none => .error (.aborted "resolved version exists")
        | some (some m) => .ok (page (c.versionRows m) c.payloads offset limit),
        { c with payloadReaders := (insert t c.payloadReaders).erase t }) := by
  refine (run_perform_bind rfl).trans ((run_perform_bind rfl).trans ?_)
  dsimp only
  cases (c.versions.resolve sel).map c.versions.get with
  | none => exact run_perform_bind rfl
  | some m =>
    cases m with
    | none => exact run_perform_bind rfl
    | some m => exact (run_perform_bind rfl).trans (run_perform_bind rfl)

/-- **A scroll of a version** pages through the rows of its segments. -/
theorem run_scroll_version {v : VersionId} {m : Manifest} (hm : c.versions.get v = some m)
    (hq : c.payloadReaders = ∅) (offset limit : ℕ) :
    run (step P cfg) t (scroll (some (.version v)) offset limit) c =
      some (.ok (page (c.versionRows m) c.payloads offset limit), c) := by
  have hl : (insert t c.payloadReaders).erase t = c.payloadReaders := by rw [hq]; simp
  rw [run_scroll_selector, VersionStore.resolve_version, hm, hl, Option.map_some]

/-- A search by a selector goes through, unless its version is not there. -/
theorem run_searchAt_ne_aborted {S : SegmentSearch} {sel : VersionSelector}
    (hsel : (c.versions.resolve sel).map c.versions.get ≠ some none) {query : List F32} {k : ℕ}
    {filter : Option (Option Payload → Bool)}
    {x : Except CoreError (List (GlobalId × F32)) × Collection}
    (hrun : run (step P cfg) t (searchAt S cfg sel query k filter) c = some x) (message : String) :
    x.1 ≠ .error (.aborted message) := by
  unfold searchAt at hrun
  split at hrun
  · cases hrun
    simp
  · rw [run_perform_bind rfl] at hrun
    dsimp only at hrun
    cases hr : (c.versions.resolve sel).map c.versions.get with
    | none =>
      rw [hr] at hrun
      cases hrun
      simp
    | some m =>
      cases m with
      | none => exact absurd hr hsel
      | some m =>
        rw [hr] at hrun
        dsimp only at hrun
        rw [run_perform_bind rfl, run_perform_bind rfl, run_perform_bind rfl] at hrun
        cases hrun
        simp

end Collection

end Vecvec
