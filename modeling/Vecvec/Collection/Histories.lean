import Vecvec.Collection.Alone
import Vecvec.Version.Retention

/-!
# Collection/Histories — calls one after another, and what they all keep

A history records, for each of its calls, the collection the call found.  Every collection reached
from an empty one is **sound**: segments are registered under ids already given out and never
change, and the working set and the manifests refer to registered segments.
-/

namespace Vecvec

open Machinery

/-- A call on a collection. -/
inductive Call
  | insert (vector : List F32)
  | insertWithIdAndPayload (id : GlobalId) (vector : List F32) (payload : Option Payload)
  | insertBatch (vectors : List (List F32))
  | delete (id : GlobalId)
  | sealAppendable
  | commit (trigger : String) (message tag : Option String)
  | restore (v : VersionId)
  | compact
  | createTag (name : String) (v : VersionId)
  | createBranch (name : String) (v : VersionId)
  | gc (rules : RetentionRules)

namespace Call

/-- What a call returns. -/
@[reducible] def Ret : Call → Type
  | insert _ => Except CoreError GlobalId
  | insertWithIdAndPayload .. => Except CoreError Unit
  | insertBatch _ => Except CoreError (List GlobalId)
  | delete _ => Bool
  | sealAppendable => Option SegmentId
  | commit .. => VersionId
  | restore _ => Except CoreError VersionId
  | compact => Option SegmentId
  | createTag .. => Except CoreError Unit
  | createBranch .. => Except CoreError Unit
  | gc _ => List SegmentId

/-- The program of a call. -/
def prog (P : Platform) (cfg : CollectionConfig) : (k : Call) → CollectionProg k.Ret
  | insert v => Collection.insertVector cfg v
  | insertWithIdAndPayload id v p => Collection.insertWithIdAndPayload cfg id v p
  | insertBatch vs => Collection.insertBatch cfg vs
  | delete id => Collection.delete id
  | sealAppendable => Collection.sealAppendable
  | commit trigger message tag => Collection.commit trigger message tag
  | restore v => Collection.restore v
  | compact => Collection.compact P cfg
  | createTag name v => Collection.createTag name v
  | createBranch name v => Collection.createBranch name v
  | gc rules => Collection.gc rules

/-- The call made the version. -/
def Creates : (k : Call) → k.Ret → VersionId → Prop
  | commit .., r, v => r = v
  | restore _, r, v => r = .ok v
  | _, _, _ => False

/-- The call is a collection pass that drops the version. -/
def Drops (c : Collection) (v : VersionId) : Call → Prop
  | gc rules => v ∈ (c.versions.planGc rules).removedVersions
  | _ => False

instance {c : Collection} {v : VersionId} {k : Call} : Decidable (k.Drops c v) := by
  unfold Drops
  split <;> infer_instance

/-- The call takes the ids of its points from the allocator. -/
def Allocates : Call → Prop
  | insertWithIdAndPayload .. => False
  | _ => True

instance {k : Call} : Decidable k.Allocates := by
  unfold Allocates
  split <;> infer_instance

end Call

variable (P : Platform) (cfg : CollectionConfig)

/-! ## What a call leaves -/

namespace Collection

/-- The state after an `insert_batch` whose dimensions are right. -/
def putMany (c : Collection) (vectors : List (List F32)) : Collection :=
  { c with
    appendable :=
      ⟨c.appendable.rows ++ (List.range' c.nextGlobalId vectors.length).zip
        (vectors.map (cfg.metric.stored P))⟩
    nextGlobalId := c.nextGlobalId + vectors.length }

/-- The state after a call, whatever the ids its caller still holds.  An `insert` takes its id
before it checks the dimension, and does not give it back. -/
def after (c : Collection) : Call → Collection
  | .insert v =>
    if v.length = cfg.dim then c.put P cfg c.nextGlobalId v none
    else { c with nextGlobalId := c.nextGlobalId + 1 }
  | .insertWithIdAndPayload id v p => if v.length = cfg.dim then c.put P cfg id v p else c
  | .insertBatch vs => if ∀ v ∈ vs, v.length = cfg.dim then c.putMany P cfg vs else c
  | .delete id => c.remove id
  | .sealAppendable => c.sealNow
  | .commit trigger message tag => c.commitNow trigger message tag
  | .restore v => (c.versions.get v).elim c (c.restoreNow v)
  | .compact => if 1 < c.working.length then c.compactNow P cfg else c
  | .createTag name v => { c with versions := (c.versions.setTag name v).toOption.getD c.versions }
  | .createBranch name v =>
    { c with versions := (c.versions.setBranch name v).toOption.getD c.versions }
  | .gc rules => c.gcNow rules

variable {P cfg} {c c' : Collection} {t : ℕ}

theorem run_insertVector (hr : c.payloadReaders = ∅) {v : List F32} : ∃ r l,
    run (step P cfg) t (insertVector cfg v) c =
      some (r, { c.after P cfg (.insert v) with inserting := l }) := by
  rw [after]
  by_cases hdim : v.length = cfg.dim
  · rw [if_pos hdim]
    refine ⟨.ok c.nextGlobalId, c.inserting, (run_perform_bind rfl).trans ?_⟩
    refine (run_bind_of_eq (run_insertWithIdAndPayload (by exact hr) hdim)).trans ?_
    simp [put]
  · rw [if_neg hdim]
    exact ⟨_, _, (run_perform_bind rfl).trans
      ((run_bind_of_eq (run_insertWithIdAndPayload_error hdim)).trans rfl)⟩

/-- A batch allocates a range. -/
theorem run_allocMany (n : ℕ) (c : Collection) : ∃ l, run (step P cfg) t (allocMany n) c =
    some (List.range' c.nextGlobalId n,
      { c with nextGlobalId := c.nextGlobalId + n, inserting := l }) := by
  induction n generalizing c with
  | zero => exact ⟨c.inserting, rfl⟩
  | succ n ih =>
    obtain ⟨l, hl⟩ := ih { c with
      nextGlobalId := c.nextGlobalId + 1
      inserting := Function.update c.inserting t (c.nextGlobalId :: c.inserting t) }
    refine ⟨l, (run_perform_bind rfl).trans ((run_bind_of_eq hl).trans ?_)⟩
    rw [List.range'_succ, Nat.add_assoc, Nat.add_comm 1 n]
    rfl

theorem run_insertBatch {vs : List (List F32)} : ∃ r l,
    run (step P cfg) t (insertBatch cfg vs) c =
      some (r, { c.after P cfg (.insertBatch vs) with inserting := l }) := by
  unfold insertBatch
  rw [after]
  cases hf : vs.find? fun v => v.length ≠ cfg.dim with
  | some v =>
    have hdim : ¬ v.length = cfg.dim := by simpa using List.find?_some hf
    rw [if_neg fun h => hdim (h v (List.mem_of_find?_eq_some hf))]
    exact ⟨_, c.inserting, rfl⟩
  | none =>
    rw [if_pos fun v hv => not_not.mp fun h => List.find?_eq_none.mp hf v hv (decide_eq_true h)]
    obtain ⟨l, hl⟩ := @run_allocMany P cfg t vs.length c
    set ids := List.range' c.nextGlobalId vs.length
    refine ⟨.ok ids, Function.update l t ((ids.zip vs).foldl (fun l r => l.erase r.1) (l t)),
      (run_bind_of_eq hl).trans ((run_perform_bind rfl).trans ((run_perform_bind rfl).trans ?_))⟩
    have hmax : max (c.nextGlobalId + vs.length) (ids.getLast?.elim 0 (· + 1)) =
        c.nextGlobalId + vs.length := by
      dsimp only [ids]
      rw [List.getLast?_range']
      split <;> simp
      lia
    simp only [Prog.pure_eq, run_ret, hmax, foldl_append_rows, putMany, List.zip_map_right]
    rfl

/-- **Run alone, a call goes through**, and leaves what `after` says. -/
theorem run_prog (hs : c.sealing t = none) (hr : c.payloadReaders = ∅) (k : Call) : ∃ r l,
    run (step P cfg) t (k.prog P cfg) c = some (r, { c.after P cfg k with inserting := l }) := by
  cases k with
  | insert v => exact run_insertVector hr
  | insertWithIdAndPayload id v p =>
    rw [after]
    by_cases hdim : v.length = cfg.dim
    · rw [if_pos hdim]
      exact ⟨_, _, run_insertWithIdAndPayload hr hdim⟩
    · rw [if_neg hdim]
      exact ⟨_, c.inserting, run_insertWithIdAndPayload_error hdim⟩
  | insertBatch vs => exact run_insertBatch
  | delete id => exact ⟨_, (c.remove id).inserting, run_delete⟩
  | sealAppendable =>
    obtain ⟨r, h⟩ := @run_sealAppendable P cfg c t hs
    exact ⟨r, c.sealNow.inserting, h⟩
  | commit trigger message tag =>
    exact ⟨_, (c.commitNow trigger message tag).inserting, run_commit hs⟩
  | restore v =>
    rw [after]
    cases hv : c.versions.get v with
    | none => exact ⟨_, c.inserting, run_restore_error hv⟩
    | some m => exact ⟨_, (c.restoreNow v m).inserting, run_restore hs hv⟩
  | compact =>
    rw [after]
    by_cases h : 1 < c.working.length
    · rw [if_pos h]
      exact ⟨_, c.inserting, run_compact h⟩
    · rw [if_neg h]
      exact ⟨_, c.inserting, run_compact_none (not_lt.mp h)⟩
  | createTag name v =>
    have h := @run_createTag P cfg c t name v
    rw [after]
    cases hset : c.versions.setTag name v with
    | ok vs => rw [hset] at h; exact ⟨_, c.inserting, h⟩
    | error e => rw [hset] at h; exact ⟨_, c.inserting, h⟩
  | createBranch name v =>
    have h := @run_createBranch P cfg c t name v
    rw [after]
    cases hset : c.versions.setBranch name v with
    | ok vs => rw [hset] at h; exact ⟨_, c.inserting, h⟩
    | error e => rw [hset] at h; exact ⟨_, c.inserting, h⟩
  | gc rules => exact ⟨_, c.inserting, run_gc⟩

/-! ## Sound collections -/

/-- What every collection reached by calls one after another keeps. -/
structure Sound (c : Collection) : Prop where
  /-- No seal is in progress. -/
  sealing : c.sealing = fun _ => none
  /-- No payload lock is held. -/
  payloadReaders : c.payloadReaders = ∅
  /-- Segments are registered under their own ids. -/
  keyed : c.Keyed
  /-- Those ids have been given out. -/
  below : ∀ id, (c.allSegments id).isSome → id < c.nextSegmentId
  /-- Working segments are registered. -/
  working : ∀ s ∈ c.working, c.allSegments s.id = some s
  /-- The references of a version are those of registered segments. -/
  refs : ∀ v m, c.versions.get v = some m → ∀ r ∈ m.segments,
    ∃ s, c.allSegments r.id = some s ∧ segmentRef s = some r
  /-- The store is well formed. -/
  store : c.versions.WellFormed

theorem sound_create : create.Sound where
  sealing := rfl
  payloadReaders := rfl
  keyed := keyed_create
  below := fun _ h => by cases h
  working := fun _ h => by cases h
  refs := fun _ _ h => by simp [create, VersionStore.new, VersionStore.get] at h
  store := VersionStore.wellFormed_new

theorem segmentRef_id {s : SealedSegment} {r : SegmentRef} (h : segmentRef s = some r) :
    r.id = s.id := by
  obtain ⟨_, -, rfl⟩ := Option.map_eq_some_iff.mp h
  rfl

namespace Sound

/-- The ids a caller holds play no part. -/
theorem inserting (h : c.Sound) (l : ℕ → List GlobalId) : ({ c with inserting := l }).Sound :=
  ⟨h.1, h.2, h.3, h.4, h.5, h.6, h.7⟩

theorem isSome_of_mem_segmentIds (h : c.Sound) {v : VersionId} {m : Manifest}
    (hm : c.versions.get v = some m) {id : SegmentId} (hid : id ∈ m.segmentIds) :
    (c.allSegments id).isSome := by
  obtain ⟨r, hr, rfl⟩ := List.mem_map.mp hid
  obtain ⟨s, hs, -⟩ := h.refs v m hm r hr
  rw [hs]
  rfl

/-- Points are put in, and tombstoned, without touching a segment or a version. -/
theorem frame (h : c.Sound) {a : AppendableSegment} {d : DeletionVector} {p : PayloadMap}
    {n : GlobalId} :
    ({ c with
      appendable := a
      workingDeletions := d
      payloads := p
      nextGlobalId := n }).Sound :=
  ⟨h.1, h.2, h.3, h.4, h.5, h.6, h.7⟩

/-- A segment is registered under the next id, and may start to work. -/
theorem register (h : c.Sound) {s : SealedSegment} (hs : s.id = c.nextSegmentId) {w : SegmentSet}
    (hw : ∀ x ∈ w, x ∈ c.working ∨ x = s) {a : AppendableSegment} :
    ({ c with
      appendable := a
      nextSegmentId := c.nextSegmentId + 1
      allSegments := insertSegments c.allSegments [s]
      working := w }).Sound := by
  have hold {id : SegmentId} {x : SealedSegment} (hx : c.allSegments id = some x) :
      insertSegments c.allSegments [s] id = some x := by
    have hlt := h.below id (hx ▸ rfl)
    rw [insertSegments_singleton, Function.update_of_ne (by lia), hx]
  refine ⟨h.sealing, h.payloadReaders, keyed_insertSegments h.keyed _, fun id hid => ?_,
    fun x hx => ?_, fun v m hm r hr => ?_, h.store⟩
  · rcases isSome_insertSegments.mp hid with hid | hid
    · exact Nat.lt_succ_of_lt (h.below id hid)
    · rw [List.map_singleton, List.mem_singleton] at hid
      exact Nat.lt_succ_of_le (hid.trans hs).le
  · rcases hw x hx with hx | rfl
    · exact hold (h.working x hx)
    · exact Function.update_self ..
  · obtain ⟨x, hx, hxr⟩ := h.refs v m hm r hr
    exact ⟨x, hold hx, hxr⟩

theorem sealNow (h : c.Sound) : c.sealNow.Sound := by
  unfold Collection.sealNow
  split
  · exact h
  · exact h.register rfl fun x hx => (List.mem_append.mp hx).imp_right List.mem_singleton.mp

theorem commitNow (h : c.Sound) {trigger : String} {message tag : Option String} :
    (c.commitNow trigger message tag).Sound := by
  refine ⟨h.sealNow.1, h.sealNow.2, h.sealNow.3, h.sealNow.4, h.sealNow.5, fun v m hm r hr => ?_,
    h.sealNow.store.commit⟩
  change (VersionStore.commit ..).2.get v = some m at hm
  rw [VersionStore.get_commit] at hm
  split at hm
  · cases hm
    obtain ⟨s, hs, hsr⟩ := List.mem_filterMap.mp hr
    exact ⟨s, segmentRef_id hsr ▸ h.sealNow.working s hs, hsr⟩
  · exact h.sealNow.refs v m hm r hr

theorem repoint (h : c.Sound) {m : Manifest} : (c.repoint m).Sound := by
  refine ⟨h.1, h.2, h.3, h.4, fun s hs => ?_, h.6, h.7⟩
  obtain ⟨id, -, hid⟩ := List.mem_filterMap.mp hs
  exact (congrArg c.allSegments (h.keyed id s hid)).trans hid

theorem restoreNow (h : c.Sound) {v : VersionId} {m : Manifest} : (c.restoreNow v m).Sound :=
  h.repoint.commitNow

theorem compactNow (h : c.Sound) : (c.compactNow P cfg).Sound :=
  h.register rfl fun _ hx => .inr (List.mem_singleton.mp hx)

theorem point (h : c.Sound) {vs : VersionStore} (hc : vs.commits = c.versions.commits)
    (hn : vs.nextVersion = c.versions.nextVersion) : ({ c with versions := vs }).Sound :=
  ⟨h.1, h.2, h.3, h.4, h.5, fun v m hm => h.refs v m (VersionStore.get_congr hc ▸ hm),
    h.store.congr hc hn⟩

theorem gcNow (h : c.Sound) {rules : RetentionRules} : (c.gcNow rules).Sound := by
  refine ⟨h.sealing, h.payloadReaders, h.keyed.gcNow, fun id hid => ?_, fun s hs => ?_,
    fun v m hm r hr => ?_, h.store.gc⟩
  · refine h.below id ?_
    change (if _ then none else c.allSegments id).isSome at hid
    split at hid
    · cases hid
    · exact hid
  · change (if _ then none else c.allSegments s.id) = some s
    rw [if_neg (notMem_dropped (c := c) (.inl (List.mem_map_of_mem hs)))]
    exact h.working s hs
  · change (VersionStore.gc ..).2.get v = some m at hm
    obtain ⟨s, hs, hsr⟩ := h.refs v m (VersionStore.get_of_get_gc hm).2 r hr
    refine ⟨s, ?_, hsr⟩
    change (if _ then none else c.allSegments r.id) = some s
    rwa [if_neg (notMem_dropped (.inr
      (VersionStore.mem_allReferencedSegments.mpr ⟨v, m, hm, List.mem_map_of_mem hr⟩)))]

/-- **Every call keeps a collection sound.** -/
theorem after (h : c.Sound) (k : Call) : (c.after P cfg k).Sound := by
  cases k with
  | insert v =>
    rw [Collection.after]
    split
    exacts [h.frame, h.frame]
  | insertWithIdAndPayload id v p =>
    rw [Collection.after]
    split
    exacts [h.frame, h]
  | insertBatch vs =>
    rw [Collection.after]
    split
    exacts [h.frame, h]
  | delete id =>
    rw [Collection.after, remove]
    split
    exacts [h.frame, h]
  | sealAppendable => exact h.sealNow
  | commit => exact h.commitNow
  | restore v =>
    rw [Collection.after]
    cases c.versions.get v with
    | none => exact h
    | some m => exact h.restoreNow
  | compact =>
    rw [Collection.after]
    split
    exacts [h.compactNow, h]
  | createTag name v =>
    rw [Collection.after]
    cases hs : c.versions.setTag name v with
    | ok vs =>
      exact h.point (VersionStore.commits_of_setTag hs).1 (VersionStore.commits_of_setTag hs).2
    | error e => exact h.point rfl rfl
  | createBranch name v =>
    rw [Collection.after]
    cases hs : c.versions.setBranch name v with
    | ok vs =>
      exact h.point (VersionStore.commits_of_setBranch hs).1
        (VersionStore.commits_of_setBranch hs).2
    | error e => exact h.point rfl rfl
  | gc rules => exact h.gcNow

/-- Of a sound collection, what a call leaves. -/
theorem eq_after (h : c.Sound) {k : Call} {r : k.Ret}
    (hrun : run (step P cfg) t (k.prog P cfg) c = some (r, c')) :
    c' = { c.after P cfg k with inserting := c'.inserting } := by
  obtain ⟨r', l, hk⟩ := @run_prog P cfg c t (by rw [h.sealing]) h.payloadReaders k
  rw [hrun] at hk
  cases hk
  rfl

end Sound

end Collection

/-! ## Histories -/

/-- `History P cfg c tr c'`: from the collection `c`, the calls of `tr` one after another — each
listed with the collection it found — lead to `c'`. -/
inductive History : Collection → List (Collection × Call) → Collection → Prop
  | nil (c : Collection) : History c [] c
  | snoc {c c' c'' : Collection} {tr : List (Collection × Call)} {t : ℕ} {k : Call} {r : k.Ret}
      (hist : History c tr c')
      (hrun : run (Collection.step P cfg) t (k.prog P cfg) c' = some (r, c'')) :
      History c (tr ++ [(c', k)]) c''

namespace History

variable {P cfg} {c c' : Collection} {tr : List (Collection × Call)}

theorem sound (hist : History P cfg c tr c') (h : c.Sound) : c'.Sound := by
  induction hist with
  | nil => exact h
  | snoc _ hrun ih =>
    rw [ih.eq_after hrun]
    exact ((ih).after _).inserting _

/-- **The rule for histories.**  What holds of the first collection and is kept by every call of the
history holds of the last. -/
theorem invariant {I : Collection → Prop} (hist : History P cfg c tr c') (h : c.Sound) (hI : I c)
    (hstep : ∀ e ∈ tr, e.1.Sound → I e.1 → ∀ l, I { e.1.after P cfg e.2 with inserting := l }) :
    I c' := by
  induction hist with
  | nil => exact hI
  | @snoc _ _ tr _ k _ hist hrun ih =>
    have hs := hist.sound h
    rw [hs.eq_after hrun]
    exact hstep _ (List.mem_append_right _ List.mem_cons_self) hs
      (ih fun e he => hstep e (List.mem_append_left _ he)) _

end History

/-! ## Computed histories -/

/-- The calls, one after another. -/
def Collection.follow (c : Collection) :
    List Call → Option (List (Collection × Call) × Collection)
  | [] => some ([], c)
  | k :: ks => (run (Collection.step P cfg) 0 (k.prog P cfg) c).bind fun x =>
      (follow x.2 ks).map fun y => ((c, k) :: y.1, y.2)

variable {P cfg} in
theorem History.cons {c c' c'' : Collection} {tr : List (Collection × Call)} {t : ℕ} {k : Call}
    {r : k.Ret} (hrun : run (Collection.step P cfg) t (k.prog P cfg) c = some (r, c'))
    (hist : History P cfg c' tr c'') : History P cfg c ((c, k) :: tr) c'' := by
  induction hist with
  | nil => exact .snoc (.nil c) hrun
  | snoc _ hrun' ih => exact .snoc ih hrun'

variable {P cfg} in
/-- **Calls that go through are a history.** -/
theorem Collection.history_of_follow {c c' : Collection} {ks : List Call}
    {tr : List (Collection × Call)} (h : c.follow P cfg ks = some (tr, c')) :
    History P cfg c tr c' := by
  induction ks generalizing c tr with
  | nil =>
    cases h
    exact .nil _
  | cons k ks ih =>
    obtain ⟨⟨r, c₁⟩, hrun, h⟩ := Option.bind_eq_some_iff.mp h
    obtain ⟨⟨tr', c₂⟩, hy, h⟩ := Option.map_eq_some_iff.mp h
    cases h
    exact .cons hrun (ih hy)

/-- The calls go through, and what they lead to has a property. -/
def Collection.Leads (c : Collection) (ks : List Call)
    (Q : List (Collection × Call) → Collection → Prop) : Prop :=
  match c.follow P cfg ks with
  | some (tr, c') => Q tr c'
  | none => False

instance {c : Collection} {ks : List Call} {Q : List (Collection × Call) → Collection → Prop}
    [∀ tr c', Decidable (Q tr c')] : Decidable (c.Leads P cfg ks Q) := by
  unfold Collection.Leads
  split <;> infer_instance

variable {P cfg} in
theorem Collection.Leads.exists_history {c : Collection} {ks : List Call}
    {Q : List (Collection × Call) → Collection → Prop} (h : c.Leads P cfg ks Q) :
    ∃ tr c', History P cfg c tr c' ∧ Q tr c' := by
  unfold Leads at h
  split at h
  · exact ⟨_, _, history_of_follow ‹_›, h⟩
  · cases h

end Vecvec
