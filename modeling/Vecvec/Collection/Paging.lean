import Vecvec.Collection.Dangling
import Vecvec.Collection.TimeTravel

/-!
# Collection/Paging — a version is read in pages while everything else goes on

A client that pages through a version issues one scroll after another, and between any two actions
of these scrolls the other callers insert, delete, seal, commit, restore, compact and collect.  None
of that reaches a committed version: its manifest and its segments are never written again, and a
collection pass that keeps the version keeps its segments.  So the pages **tile** one list, the rows
of the version in the order of their ids (`pages_tile`), and a search of the version finds what it
would have found alone.
-/

namespace Vecvec

open Machinery CollectionOp

variable {S : SegmentSearch} {P : Platform} {cfg : CollectionConfig} {c c' c₀ : Collection} {t : ℕ}
  {v : VersionId} {m : Manifest} {ids : List GlobalId}

/-! ## Sessions -/

/-- What a caller does: calls one after another, or reads of the version. -/
inductive Session
  /-- Calls that write. -/
  | calls (ks : List Call)
  /-- `n` scrolls, each starting where the one before it ended. -/
  | pages (limit n : ℕ)
  /-- A search of the version. -/
  | search (query : List F32) (k : ℕ) (filter : Option (Option Payload → Bool))

/-- What a session returns. -/
inductive Session.Answer
  | done
  | pages (xs : List (Except CoreError (List Collection.PointRecord × ℕ)))
  | hits (x : Except CoreError (List (GlobalId × F32)))

namespace Collection

/-- `n` scrolls of a version from an offset on, `limit` points each. -/
def scrollPages (v : VersionId) (limit : ℕ) :
    ℕ → ℕ → CollectionProg (List (Except CoreError (List PointRecord × ℕ)))
  | _, 0 => return []
  | offset, n + 1 => do
    let x ← scroll (some (.version v)) offset limit
    let xs ← scrollPages v limit (offset + limit) n
    return x :: xs

end Collection

namespace Session

/-- The program of a session that reads version `v`. -/
def prog (S : SegmentSearch) (P : Platform) (cfg : CollectionConfig) (v : VersionId) :
    Session → CollectionProg Answer
  | calls ks => (ks.forM fun k => k.prog P cfg >>= fun _ => return ()) >>= fun _ => return .done
  | pages limit n => Collection.scrollPages v limit 0 n >>= fun xs => return .pages xs
  | search query k filter =>
    Collection.searchAt S cfg (.version v) query k filter >>= fun x => return .hits x

/-- No call of the session puts a payload under one of the ids. -/
def Avoids (ids : List GlobalId) : Session → Prop
  | calls ks => ∀ id u p, Call.insertWithIdAndPayload id u p ∈ ks → id ∉ ids
  | _ => True

end Session

/-! ## What a version rests on -/

/-- The action leaves segments, manifests and the payloads of these ids alone. -/
def CollectionOp.Avoids (ids : List GlobalId) (o : CollectionOp) : Prop :=
  (o.Idle ∨ o = .loadWorking) ∧ ∀ id p, o = .insertPayload id p → id ∉ ids

namespace Collection

/-- No pass drops the version. -/
def SparesVersion (v : VersionId) (_ : ℕ) : CollectionOp → Collection → Prop
  | .collectVersions rules, c => v ∉ (c.versions.planGc rules).removedVersions
  | _, _ => True

instance {o : CollectionOp} : Decidable (SparesVersion v t o c) := by
  unfold SparesVersion
  split <;> infer_instance

/-- The ids of a version's rows. -/
def pointsOf (c : Collection) (m : Manifest) : List GlobalId := (c.versionRows m).map Prod.fst

/-- What a read of version `v` depends on is as it was in `c₀`. -/
structure Rests (c₀ : Collection) (v : VersionId) (m : Manifest) (c : Collection) : Prop where
  /-- The manifest. -/
  manifest : c.versions.get v = some m
  /-- The version's id has been given out. -/
  issued : v < c.versions.nextVersion
  /-- The segments. -/
  segments : ∀ id ∈ m.segmentIds, c.allSegments id = c₀.allSegments id
  /-- Their ids have been given out. -/
  below : ∀ id ∈ m.segmentIds, id < c.nextSegmentId
  /-- The payloads of the version's points. -/
  payloads : ∀ id ∈ c₀.pointsOf m, c.payloads id = c₀.payloads id

/-- A caller need know nothing about the others. -/
def anything (_ : ℕ) (_ _ : Collection) : Prop := True

theorem anything_refl (t : ℕ) (c : Collection) : anything t c c := trivial

theorem anything_trans (t : ℕ) (c c' c'' : Collection) (_ : anything t c c')
    (_ : anything t c' c'') : anything t c c'' := trivial

theorem rests_of_sound (h : c₀.Sound) (hm : c₀.versions.get v = some m) : c₀.Rests v m c₀ where
  manifest := hm
  issued := h.store.below v m hm
  segments _ _ := rfl
  below id hid := h.below id (h.isSome_of_mem_segmentIds hm hid)
  payloads _ _ := rfl

/-- An action that changes none of it. -/
theorem Rests.same (h : c₀.Rests v m c) (hc : c'.versions.commits = c.versions.commits)
    (hv : c.versions.nextVersion ≤ c'.versions.nextVersion) (hs : c'.allSegments = c.allSegments)
    (hn : c.nextSegmentId ≤ c'.nextSegmentId)
    (hp : ∀ id ∈ c₀.pointsOf m, c'.payloads id = c.payloads id) : c₀.Rests v m c' where
  manifest := (VersionStore.get_congr hc).trans h.manifest
  issued := h.issued.trans_le hv
  segments id hid := hs ▸ h.segments id hid
  below id hid := (h.below id hid).trans_le hn
  payloads id hid := (hp id hid).trans (h.payloads id hid)

/-- **Registering a new segment** touches no segment of the version. -/
theorem Rests.register (h : c₀.Rests v m c) {seg : SealedSegment} (hnew : seg.id ∉ m.segmentIds) :
    c₀.Rests v m { c with allSegments := insertSegments c.allSegments [seg] } where
  manifest := h.manifest
  issued := h.issued
  segments id hid := (Function.update_of_ne (fun he => hnew (by rwa [← he])) _ _).trans
    (h.segments id hid)
  below := h.below
  payloads := h.payloads

/-- **A new version** is recorded under a new id. -/
theorem Rests.record (h : c₀.Rests v m c) (trigger : String) (message tag : Option String)
    (segs : List SegmentRef) (d : DeletionVector) :
    c₀.Rests v m { c with versions := (c.versions.commit trigger message tag segs d).2 } where
  manifest := VersionStore.get_commit.trans ((if_neg h.issued.ne).trans h.manifest)
  issued := h.issued.trans (Nat.lt_succ_self _)
  segments := h.segments
  below := h.below
  payloads := h.payloads

/-- **A pass that keeps the version.** -/
theorem Rests.collect (h : c₀.Rests v m c) {rules : RetentionRules}
    (hv : v ∉ (c.versions.planGc rules).removedVersions) :
    c₀.Rests v m { c with versions := (c.versions.gc rules).2 } where
  manifest := VersionStore.get_gc.trans ((if_neg hv).trans h.manifest)
  issued := h.issued
  segments := h.segments
  below := h.below
  payloads := h.payloads

theorem Rests.remove (h : c₀.Rests v m c) {gone : List SegmentId}
    (hd : ∀ id ∈ gone, id ∉ m.segmentIds) :
    c₀.Rests v m { c with allSegments := fun id => if id ∈ gone then none else c.allSegments id }
    where
  manifest := h.manifest
  issued := h.issued
  segments id hid := (if_neg fun hg => hd id hg hid).trans (h.segments id hid)
  below := h.below
  payloads := h.payloads

/-! ## The other callers -/

/-- The rule for a caller that knows nothing of the shared state. -/
theorem stable_pure {φ : Prop} : Stable (c₀.Rests v m) anything t fun _ => φ :=
  fun _ _ _ h _ _ => h

section Rules

variable {α : Type} {p : CollectionProg α}

/-- A call's duty: it leaves the version alone. -/
abbrev Leaves (P : Platform) (cfg : CollectionConfig) (c₀ : Collection) (v : VersionId)
    (m : Manifest) (t : ℕ) {α : Type} (p : CollectionProg α) : Prop :=
  Triple (step P cfg) (SparesVersion v) (c₀.Rests v m) anything t (fun _ => True) p fun _ _ => True

theorem Leaves.ret (a : α) : Leaves P cfg c₀ v m t (.ret a) :=
  Triple.ret stable_pure fun _ _ _ => trivial

theorem Leaves.bind {β : Type} {f : α → CollectionProg β} (hp : Leaves P cfg c₀ v m t p)
    (hf : ∀ a, Leaves P cfg c₀ v m t (f a)) : Leaves P cfg c₀ v m t (p >>= f) :=
  Triple.bind (anything_refl t) hp hf

/-- **One action**, whose answer may tell the caller a fact for good. -/
theorem Leaves.act {o : CollectionOp} {k : o.Ret → CollectionProg α} {φ : o.Ret → Prop}
    (ho : ∀ c r c', c₀.Rests v m c → SparesVersion v t o c → step P cfg t o c = some (r, c') →
      c₀.Rests v m c' ∧ φ r)
    (hk : ∀ r, φ r → Leaves P cfg c₀ v m t (k r)) : Leaves P cfg c₀ v m t (.act o k) := by
  refine Triple.act stable_pure (M := fun r _ => φ r) (fun c r c' hI _ ha hs => ?_) fun r => ?_
  · obtain ⟨hI', hφ⟩ := ho c r c' hI ha hs
    exact ⟨hI', fun _ _ => trivial, hφ⟩
  · exact Triple.conseq (Triple.of_pure (P := fun _ => True) (hk r)) (fun _ _ h => ⟨h, trivial⟩)
      fun _ _ _ h => h

/-- What an action that leaves the payloads of these ids alone does to them. -/
theorem step_payloads {o : CollectionOp} (ho : o.Avoids ids) {r : o.Ret}
    (hs : step P cfg t o c = some (r, c')) : ∀ id ∈ ids, c'.payloads id = c.payloads id := by
  intro id hid
  rcases ho with ⟨hidle | rfl, hput⟩
  swap
  · cases hs
    rfl
  cases o with
  | insertPayload i p =>
    rw [step] at hs
    split at hs
    · cases hs
      refine Function.update_of_ne (fun he => hput i p rfl ?_) _ _
      rwa [← he]
    · cases hs
  | setTag name u =>
    rw [step] at hs
    split at hs <;> (cases hs; rfl)
  | setBranch name u =>
    rw [step] at hs
    split at hs <;> (cases hs; rfl)
  | allocGlobalId | appendRow | appendRows | bumpGlobalId | appendableContains | loadDeletions |
    tombstone | storeDeletions | resetAppendable | manifestOf =>
    cases hs
    rfl
  | _ => exact hidle.elim

/-- Nor does it give out a version id. -/
theorem step_nextVersion {o : CollectionOp} (ho : o.Idle) {r : o.Ret}
    (hs : step P cfg t o c = some (r, c')) : c'.versions.nextVersion = c.versions.nextVersion := by
  cases o with
  | insertPayload i p =>
    rw [step] at hs
    split at hs
    · cases hs
      rfl
    · cases hs
  | setTag name u =>
    rw [step] at hs
    split at hs
    · cases hs
      exact (VersionStore.commits_of_setTag ‹_›).2
    · cases hs
      rfl
  | setBranch name u =>
    rw [step] at hs
    split at hs
    · cases hs
      exact (VersionStore.commits_of_setBranch ‹_›).2
    · cases hs
      rfl
  | allocGlobalId | appendRow | appendRows | bumpGlobalId | appendableContains | loadDeletions |
    tombstone | storeDeletions | resetAppendable | manifestOf =>
    cases hs
    rfl
  | _ => exact ho.elim

theorem Rests.step (h : c₀.Rests v m c) {o : CollectionOp} (ho : o.Avoids (c₀.pointsOf m))
    {r : o.Ret} (hs : Collection.step P cfg t o c = some (r, c')) : c₀.Rests v m c' := by
  rcases id ho with ⟨hidle | rfl, -⟩
  · obtain ⟨hc, -, hseg, hn⟩ := step_idle hidle hs
    exact h.same hc (step_nextVersion hidle hs).ge hseg hn.ge (step_payloads ho hs)
  · cases hs
    exact h

/-- **A call that avoids the version's points** and writes no segment. -/
theorem Leaves.only (hp : p.Only (CollectionOp.Avoids (c₀.pointsOf m))) :
    Leaves P cfg c₀ v m t p :=
  Triple.only hp fun _ ho _ _ _ hI _ _ hs => ⟨hI.step ho hs, fun _ _ => trivial, trivial⟩

end Rules

/-! ## Each call -/

theorem only_avoids_insert {id : GlobalId} {u : List F32} {p : Option Payload}
    (hid : ∀ q, p = some q → id ∉ ids) :
    (insertWithIdAndPayload cfg id u p).Only (CollectionOp.Avoids ids) := by
  unfold insertWithIdAndPayload
  split
  · trivial
  · refine ⟨⟨.inl trivial, nofun⟩, fun _ => ⟨⟨.inl trivial, nofun⟩, fun _ => ?_⟩⟩
    cases p with
    | none => trivial
    | some q =>
      refine ⟨⟨.inl trivial, fun i _ he => ?_⟩, fun _ => trivial⟩
      cases he
      exact hid q rfl

theorem only_avoids_delete (id : GlobalId) : (delete id).Only (CollectionOp.Avoids ids) := by
  refine ⟨⟨.inl trivial, nofun⟩, fun b => ?_⟩
  cases b with
  | true => exact ⟨⟨.inl trivial, nofun⟩, fun _ => trivial⟩
  | false =>
    refine ⟨⟨.inr rfl, nofun⟩, fun w => ?_⟩
    change (if (w.any fun s => containsId s.rows id) = true then _ else _ :
      CollectionProg Bool).Only _
    split
    · exact ⟨⟨.inl trivial, nofun⟩, fun _ => trivial⟩
    · trivial

theorem only_avoids_allocMany (n : ℕ) : (allocMany n).Only (CollectionOp.Avoids ids) := by
  induction n with
  | zero => trivial
  | succ n ih => exact ⟨⟨.inl trivial, nofun⟩, fun _ => ih.bind fun _ => trivial⟩

theorem only_avoids_insertBatch {us : List (List F32)} :
    (insertBatch cfg us).Only (CollectionOp.Avoids ids) := by
  unfold insertBatch
  split
  · trivial
  · exact (only_avoids_allocMany _).bind fun _ =>
      ⟨⟨.inl trivial, nofun⟩, fun _ => ⟨⟨.inl trivial, nofun⟩, fun _ => trivial⟩⟩

/-- **A seal** registers a segment under an id that no version holds. -/
theorem leaves_seal : Leaves P cfg c₀ v m t sealAppendable := by
  refine Leaves.act (φ := fun r => ∀ seg, r = some seg → seg.id ∉ m.segmentIds)
    (fun c r c' hI _ hs => ?_) fun r hr => ?_
  · change (if c.appendable.rows = [] then _ else _) = _ at hs
    split at hs
    · cases hs
      exact ⟨hI, nofun⟩
    · cases hs
      refine ⟨hI.same rfl le_rfl rfl (Nat.le_succ _) fun _ _ => rfl, fun seg hseg hmem => ?_⟩
      cases hseg
      exact (hI.below _ hmem).ne rfl
  cases r with
  | none => exact .ret _
  | some seg =>
    refine Leaves.act (φ := fun _ => True) (fun c r c' hI _ hs => ?_) fun _ _ =>
      Leaves.act (φ := fun _ => True) (fun c r c' hI _ hs => ?_) fun _ _ => .ret _
    · cases hs
      exact ⟨hI.register (hr seg rfl), trivial⟩
    · cases hs
      exact ⟨hI.same rfl le_rfl rfl le_rfl fun _ _ => rfl, trivial⟩

/-- An action that only looks, or only sets what no version depends on. -/
theorem Leaves.idle {α : Type} {o : CollectionOp} {k : o.Ret → CollectionProg α}
    (ho : o.Avoids (c₀.pointsOf m)) (hk : ∀ r, Leaves P cfg c₀ v m t (k r)) :
    Leaves P cfg c₀ v m t (.act o k) :=
  .act (φ := fun _ => True) (fun _ _ _ hI _ hs => ⟨hI.step ho hs, trivial⟩) fun r _ => hk r

theorem leaves_commit (trigger : String) (message tag : Option String) :
    Leaves P cfg c₀ v m t (commit trigger message tag) := by
  refine leaves_seal.bind fun _ => .idle ⟨.inr rfl, nofun⟩ fun working =>
    .idle ⟨.inl trivial, nofun⟩ fun deletions =>
    .act (φ := fun _ => True) (fun c r c' hI _ hs => ?_) fun _ _ => .ret _
  cases hs
  exact ⟨hI.record trigger message tag _ _, trivial⟩

theorem leaves_restore (u : VersionId) : Leaves P cfg c₀ v m t (restore u) := by
  refine .idle ⟨.inl trivial, nofun⟩ fun r => ?_
  cases r with
  | none => exact .ret _
  | some m' =>
    refine .act (φ := fun _ => True) (fun c r c' hI _ hs => ?_) fun _ _ =>
      .idle ⟨.inl trivial, nofun⟩ fun _ => .idle ⟨.inl trivial, nofun⟩ fun _ =>
      (leaves_commit _ _ _).bind fun _ => .ret _
    cases hs
    exact ⟨hI.same rfl le_rfl rfl le_rfl fun _ _ => rfl, trivial⟩

theorem leaves_compact : Leaves P cfg c₀ v m t (compact P cfg) := by
  refine .idle ⟨.inr rfl, nofun⟩ fun working => ?_
  change Leaves P cfg c₀ v m t (if working.length ≤ 1 then _ else _)
  split
  · exact .ret _
  refine .act (φ := fun id => id ∉ m.segmentIds) (fun c r c' hI _ hs => ?_) fun id hid =>
    .act (φ := fun _ => True) (fun c r c' hI _ hs => ?_) fun _ _ =>
    .act (φ := fun _ => True) (fun c r c' hI _ hs => ?_) fun _ _ => .ret _
  · cases hs
    exact ⟨hI.same rfl le_rfl rfl (Nat.le_succ _) fun _ _ => rfl,
      fun hmem => (hI.below _ hmem).ne rfl⟩
  · cases hs
    exact ⟨hI.register hid, trivial⟩
  · cases hs
    exact ⟨hI.same rfl le_rfl rfl le_rfl fun _ _ => rfl, trivial⟩

/-- **A pass that keeps the version** reports none of its segments as an orphan. -/
theorem leaves_gc (rules : RetentionRules) : Leaves P cfg c₀ v m t (gc rules) := by
  refine .act (φ := fun report => ∀ id ∈ report.orphanSegments, id ∉ m.segmentIds)
    (fun c r c' hI ha hs => ?_) fun report horphan => .idle ⟨.inr rfl, nofun⟩ fun working =>
    .act (φ := fun _ => True) (fun c r c' hI _ hs => ?_) fun _ _ => .ret _
  · cases hs
    have hI' := hI.collect ha
    refine ⟨hI', fun id hid hmem => ?_⟩
    exact (VersionStore.mem_orphanSegments.mp hid).2
      (VersionStore.mem_allReferencedSegments.mpr ⟨v, m, hI'.manifest, hmem⟩)
  · cases hs
    exact ⟨hI.remove fun id hid => horphan id (List.mem_filter.mp hid).1, trivial⟩

/-- **Every call** leaves the version alone, unless it puts a payload under one of its ids. -/
theorem leaves_call (k : Call)
    (hk : ∀ id u p, k = .insertWithIdAndPayload id u p → id ∉ c₀.pointsOf m) :
    Leaves P cfg c₀ v m t (k.prog P cfg) := by
  cases k with
  | insert u =>
    refine .only ⟨⟨.inl trivial, nofun⟩, fun _ =>
      (only_avoids_insert fun _ hp => by cases hp).bind fun r => ?_⟩
    cases r <;> trivial
  | insertWithIdAndPayload id u p => exact .only (only_avoids_insert fun _ _ => hk id u p rfl)
  | insertBatch us => exact .only only_avoids_insertBatch
  | delete id => exact .only (only_avoids_delete id)
  | sealAppendable => exact leaves_seal
  | commit trigger message tag => exact leaves_commit trigger message tag
  | restore u => exact leaves_restore u
  | compact => exact leaves_compact
  | createTag name u => exact .only ⟨⟨.inl trivial, nofun⟩, fun r => by cases r <;> trivial⟩
  | createBranch name u => exact .only ⟨⟨.inl trivial, nofun⟩, fun r => by cases r <;> trivial⟩
  | gc rules => exact leaves_gc rules

/-! ## The readers -/

section Reads

variable {α : Type} {Q : α → Collection → Prop}

/-- **The reading actions of a version**, each answered as in `c₀`. -/
theorem triple_read {o : CollectionOp} {k : o.Ret → CollectionProg α} {φ : o.Ret → Prop}
    (ho : ∀ c r c', c₀.Rests v m c → step P cfg t o c = some (r, c') → c₀.Rests v m c' ∧ φ r)
    (hk : ∀ r, φ r → Triple (step P cfg) (SparesVersion v) (c₀.Rests v m) anything t
      (fun _ => True) (k r) Q) :
    Triple (step P cfg) (SparesVersion v) (c₀.Rests v m) anything t (fun _ => True)
      (.act o k) Q := by
  refine Triple.act stable_pure (M := fun r _ => φ r) (fun c r c' hI _ _ hs => ?_) fun r => ?_
  · obtain ⟨hI', hφ⟩ := ho c r c' hI hs
    exact ⟨hI', fun _ _ => trivial, hφ⟩
  · exact Triple.conseq (Triple.of_pure (P := fun _ => True) (hk r)) (fun _ _ h => ⟨h, trivial⟩)
      fun _ _ _ h => h

/-- The payload lock, taken or given back. -/
theorem Rests.readers (h : c₀.Rests v m c) (s : Finset ℕ) :
    c₀.Rests v m { c with payloadReaders := s } :=
  ⟨h.manifest, h.issued, h.segments, h.below, h.payloads⟩

/-- **Resolve, then look up**: the version and all its segments. -/
theorem triple_version {f : Option (Option Manifest) → CollectionProg α}
    {f' : SegmentSet → CollectionProg α}
    (hf : f (some (some m)) = perform (registeredSegments m.segmentIds) >>= f')
    (hf' : Triple (step P cfg) (SparesVersion v) (c₀.Rests v m) anything t (fun _ => True)
      (f' (m.segmentIds.filterMap c₀.allSegments)) Q) :
    Triple (step P cfg) (SparesVersion v) (c₀.Rests v m) anything t (fun _ => True)
      (perform (resolveManifest (.version v)) >>= f) Q := by
  refine triple_read (φ := fun r => r = some (some m)) (fun c r c' hI hs => ?_) fun r hr => ?_
  · cases hs
    exact ⟨hI, VersionStore.resolve_version.trans (by rw [hI.manifest]; rfl)⟩
  rw [hr]
  change Triple _ _ _ _ _ _ (f (some (some m))) _
  rw [hf]
  refine triple_read (φ := fun segs => segs = m.segmentIds.filterMap c₀.allSegments)
    (fun c r c' hI hs => ?_) fun segs hsegs => ?_
  · cases hs
    exact ⟨hI, List.filterMap_congr hI.segments⟩
  · rw [hsegs]
    exact hf'

end Reads

/-- A page shows the payloads of its own points only. -/
theorem page_congr {rows : List Row} {p p' : PayloadMap}
    (h : ∀ id ∈ rows.map Prod.fst, p id = p' id) (offset limit : ℕ) :
    page rows p offset limit = page rows p' offset limit := by
  rw [page, page]
  refine congrArg (·, rows.length) (List.map_congr_left fun r hr => ?_)
  have hmem : r ∈ rows := mem_sortById.mp (List.mem_of_mem_drop (List.mem_of_mem_take hr))
  rw [h r.1 (List.mem_map_of_mem hmem)]

/-- **A scroll of the version** answers as it does in `c₀`. -/
theorem triple_scroll_version (offset limit : ℕ) :
    Triple (step P cfg) (SparesVersion v) (c₀.Rests v m) anything t (fun _ => True)
      (scroll (some (.version v)) offset limit) fun x _ =>
        x = .ok (page (c₀.versionRows m) c₀.payloads offset limit) := by
  refine triple_read (φ := fun p => ∀ id ∈ c₀.pointsOf m, p id = c₀.payloads id)
    (fun c r c' hI hs => ?_) fun p hp => triple_version rfl ?_
  · cases hs
    exact ⟨hI.readers _, hI.payloads⟩
  refine triple_read (φ := fun _ => True) (fun c r c' hI hs => ?_) fun _ _ => ?_
  · cases hs
    exact ⟨hI.readers _, trivial⟩
  exact Triple.ret stable_pure fun _ _ _ => congrArg Except.ok (page_congr hp offset limit)

/-- The pages of a list of rows, from an offset on. -/
def pagesOf (rows : List Row) (payloads : PayloadMap) (limit : ℕ) :
    ℕ → ℕ → List (List PointRecord × ℕ)
  | _, 0 => []
  | offset, n + 1 => page rows payloads offset limit ::
      pagesOf rows payloads limit (offset + limit) n

theorem length_pagesOf (rows : List Row) (payloads : PayloadMap) (limit offset n : ℕ) :
    (pagesOf rows payloads limit offset n).length = n := by
  induction n generalizing offset with
  | zero => rfl
  | succ n ih => exact congrArg (· + 1) (ih _)

/-- Every page tells the number of all rows. -/
theorem snd_of_mem_pagesOf {rows : List Row} {payloads : PayloadMap} {limit offset n : ℕ}
    {x : List PointRecord × ℕ} (hx : x ∈ pagesOf rows payloads limit offset n) :
    x.2 = rows.length := by
  induction n generalizing offset with
  | zero => cases hx
  | succ n ih =>
    rcases List.mem_cons.mp hx with rfl | hx
    · rfl
    · exact ih hx

/-- **The pages tile the rows**: none missing, none twice. -/
theorem flatMap_pagesOf (rows : List Row) (payloads : PayloadMap) (limit offset n : ℕ) :
    (pagesOf rows payloads limit offset n).flatMap Prod.fst =
      (((sortById rows).drop offset).take (n * limit)).map fun r => ⟨r.1, r.2, payloads r.1⟩ := by
  induction n generalizing offset with
  | zero => rw [Nat.zero_mul, List.take_zero]; rfl
  | succ n ih =>
    have hsplit : (n + 1) * limit = limit + n * limit := by rw [Nat.succ_mul, Nat.add_comm]
    rw [pagesOf, List.flatMap_cons, ih, page, ← List.map_append, hsplit, List.take_add,
      List.drop_drop]

theorem triple_scrollPages (limit n offset : ℕ) :
    Triple (step P cfg) (SparesVersion v) (c₀.Rests v m) anything t (fun _ => True)
      (scrollPages v limit offset n) fun xs _ =>
        xs = (pagesOf (c₀.versionRows m) c₀.payloads limit offset n).map .ok := by
  induction n generalizing offset with
  | zero => exact Triple.ret stable_pure fun _ _ _ => rfl
  | succ n ih =>
    refine Triple.bind (anything_refl t) (triple_scroll_version offset limit) fun x =>
      Triple.conseq (Triple.of_pure (P := fun _ => True) fun hx =>
        Triple.bind (anything_refl t) (ih (offset + limit)) fun xs =>
          Triple.ret stable_pure fun _ _ hxs => ?_) (fun _ _ h => ⟨h, trivial⟩) fun _ _ _ h => h
    rw [hx, hxs]
    rfl

/-- The hits of a version depend on the payloads of its live rows only. -/
theorem segmentHits_congr {query : List F32} {k : ℕ} {filter : Option (Option Payload → Bool)}
    {deletions : DeletionVector} {segs : SegmentSet} {p p' : PayloadMap}
    (h : ∀ id ∈ (liveRows (SegmentSet.rows segs) deletions).map Prod.fst, p id = p' id) :
    segmentHits S cfg query k filter deletions segs p =
      segmentHits S cfg query k filter deletions segs p' := by
  have hkeep : ∀ s ∈ segs, ∀ r ∈ s.rows,
      segmentLiveFilter deletions (filterQuery filter p) r.1 =
        segmentLiveFilter deletions (filterQuery filter p') r.1 := by
    intro s hs r hr
    rw [segmentLiveFilter, segmentLiveFilter]
    by_cases hd : r.1 ∈ deletions
    · rw [decide_eq_false (not_not_intro hd), Bool.false_and, Bool.false_and]
    · have hlive : r ∈ liveRows (SegmentSet.rows segs) deletions :=
        List.mem_filter.mpr ⟨List.mem_flatMap.mpr ⟨s, hs, hr⟩, decide_eq_true hd⟩
      rw [filterQuery, filterQuery, Option.all_map, Option.all_map]
      simp only [h r.1 (List.mem_map_of_mem hlive)]
  refine congrArg mergeFinalize (List.foldl_ext _ _ _ fun b s hs => ?_)
  refine congrArg b.offerAll (S.congr _ _ _ _ _ _ _ ?_ (hkeep s hs))
  rw [filterQuery, filterQuery, Option.isSome_map, Option.isSome_map]

/-- **A search of the version** answers as it does in `c₀`. -/
theorem triple_searchAt_version (query : List F32) (k : ℕ)
    (filter : Option (Option Payload → Bool)) :
    Triple (step P cfg) (SparesVersion v) (c₀.Rests v m) anything t (fun _ => True)
      (searchAt S cfg (.version v) query k filter) fun x _ =>
        x = if query.length ≠ cfg.dim then .error (.dimensionMismatch cfg.dim query.length)
          else .ok (segmentHits S cfg query k filter m.deletions
            (m.segmentIds.filterMap c₀.allSegments) c₀.payloads) := by
  unfold searchAt
  split
  · exact Triple.ret stable_pure fun _ _ _ => rfl
  refine triple_version rfl (triple_read
    (φ := fun p => ∀ id ∈ c₀.pointsOf m, p id = c₀.payloads id) (fun c r c' hI hs => ?_)
    fun p hp => triple_read (φ := fun _ => True) (fun c r c' hI hs => ?_) fun _ _ => ?_)
  · cases hs
    exact ⟨hI.readers _, hI.payloads⟩
  · cases hs
    exact ⟨hI.readers _, trivial⟩
  · exact Triple.ret stable_pure fun _ _ _ => congrArg Except.ok (segmentHits_congr hp)

/-- What a search of the version by itself finds. -/
theorem run_searchAt_version (hm : c₀.versions.get v = some m) (query : List F32) (k : ℕ)
    (filter : Option (Option Payload → Bool)) : ∃ c', run (step P cfg) t
      (searchAt S cfg (.version v) query k filter) c₀ =
        some (if query.length ≠ cfg.dim then .error (.dimensionMismatch cfg.dim query.length)
          else .ok (segmentHits S cfg query k filter m.deletions
            (m.segmentIds.filterMap c₀.allSegments) c₀.payloads), c') := by
  by_cases hdim : query.length = cfg.dim
  · have hres : (c₀.versions.resolve (.version v)).map c₀.versions.get = some (some m) :=
      VersionStore.resolve_version.trans (by rw [hm]; rfl)
    rw [if_neg (not_not_intro hdim)]
    exact ⟨_, run_searchAt hres hdim k filter⟩
  · refine ⟨c₀, ?_⟩
    rw [if_pos hdim, searchAt, if_pos hdim]
    rfl

end Collection

/-! ## Sessions among others -/

namespace Session

/-- What the sessions of a pool do. -/
def pool (S : SegmentSearch) (P : Platform) (cfg : CollectionConfig) (v : VersionId)
    (sessions : ℕ → Session) (t : ℕ) : CollectionProg Answer :=
  (sessions t).prog S P cfg v

/-- A reader's answer: pages that tile the version's points of `c₀`, or the hits of a search made in
`c₀` by itself. -/
def Tells (S : SegmentSearch) (P : Platform) (cfg : CollectionConfig) (c₀ : Collection)
    (v : VersionId) (m : Manifest) (t : ℕ) : Session → Answer → Prop
  | calls _, _ => True
  | pages limit n, a => ∃ ps : List (List Collection.PointRecord × ℕ),
      a = .pages (ps.map .ok) ∧ ps.length = n ∧ (∀ p ∈ ps, p.2 = (c₀.versionRows m).length) ∧
        ps.flatMap Prod.fst = ((sortById (c₀.versionRows m)).take (n * limit)).map fun r =>
          ⟨r.1, r.2, c₀.payloads r.1⟩
  | search query k filter, a => ∃ x c', a = .hits x ∧
      run (Collection.step P cfg) t (Collection.searchAt S cfg (.version v) query k filter) c₀ =
        some (x, c')

theorem leaves_calls (ks : List Call)
    (hks : ∀ id u p, Call.insertWithIdAndPayload id u p ∈ ks → id ∉ c₀.pointsOf m) :
    Collection.Leaves P cfg c₀ v m t
      (ks.forM fun k => k.prog P cfg >>= fun _ => (return () : CollectionProg PUnit)) := by
  induction ks with
  | nil => exact .ret _
  | cons k ks ih =>
    refine (Collection.Leaves.bind (Collection.leaves_call k fun id u p he => ?_)
      fun _ => .ret _).bind fun _ => ih fun id u p h => hks id u p (List.mem_cons_of_mem _ h)
    exact hks id u p (he ▸ List.mem_cons_self)

theorem triple_prog_version (hm : c₀.versions.get v = some m) (s : Session)
    (hs : s.Avoids (c₀.pointsOf m)) :
    Triple (Collection.step P cfg) (Collection.SparesVersion v) (c₀.Rests v m) Collection.anything t
      (fun _ => True) (s.prog S P cfg v) fun a _ => s.Tells S P cfg c₀ v m t a := by
  cases s with
  | calls ks =>
    refine Triple.bind (Collection.anything_refl t) (Q := fun _ _ => True) ?_
      fun _ => Triple.ret Collection.stable_pure fun _ _ _ => trivial
    exact (leaves_calls ks hs)
  | pages limit n =>
    refine Triple.bind (Collection.anything_refl t) (Collection.triple_scrollPages limit n 0)
      fun xs => Triple.ret Collection.stable_pure fun _ _ hxs => ?_
    refine ⟨_, congrArg Answer.pages hxs, Collection.length_pagesOf .., fun p hp =>
      Collection.snd_of_mem_pagesOf hp, ?_⟩
    exact Collection.flatMap_pagesOf ..
  | search query k filter =>
    refine Triple.bind (Collection.anything_refl t)
      (Collection.triple_searchAt_version query k filter)
      fun x => Triple.ret Collection.stable_pure fun _ _ hx => ?_
    obtain ⟨c', hrun⟩ := @Collection.run_searchAt_version S P cfg c₀ t v m hm query k filter
    exact ⟨x, c', rfl, hx ▸ hrun⟩

end Session

/-- **A version reads the same while everything else goes on.**  In any interleaving of sessions of
calls of every kind, in which no pass drops the version and no call puts a payload under one of its
ids, the pages of a reader tile the points the version had, and a search of it finds what it found
by itself. -/
theorem pages_tile (hs : c₀.Sound) (hm : c₀.versions.get v = some m) {sessions : ℕ → Session}
    (havoid : ∀ t, (sessions t).Avoids (c₀.pointsOf m))
    {x : Config collectionInterface Collection Session.Answer}
    (hsteps : Config.Steps (Collection.step P cfg) (Collection.SparesVersion v)
      ⟨c₀, Session.pool S P cfg v sessions⟩ x) {a : Session.Answer} (ha : x.pool t = .ret a) :
    (sessions t).Tells S P cfg c₀ v m t a := by
  have hsafe : Config.Safe (Collection.step P cfg) (Collection.SparesVersion v) (c₀.Rests v m)
      Collection.anything (fun t a _ => (sessions t).Tells S P cfg c₀ v m t a) x := by
    refine Config.safe_of_steps Collection.anything_refl Collection.anything_trans
      ⟨Collection.rests_of_sound hs hm, fun t => ?_⟩ hsteps
    exact Session.triple_prog_version hm (sessions t) (havoid t) _
      (Collection.rests_of_sound hs hm) trivial
  exact hsafe.returned Collection.anything_refl ha

/-- Two pages of two points and a search, while another caller deletes a point of the version,
compacts its segment away and collects. -/
def Session.sample : ℕ → Session
  | 0 => .pages 2 2
  | 1 => .calls [.insert [9], .delete 0, .commit "manual" none none, .compact,
      .gc ⟨some 2, false, false⟩]
  | 2 => .search [1] 3 none
  | _ => .calls []

/-- What they do, where segments are searched through their indexes. -/
noncomputable def Session.samplePool : ℕ → CollectionProg Session.Answer :=
  Session.pool Hnsw.fewRows.search Sample.platform (Sample.config none) 0 Session.sample

theorem pages_tile_sample : ∃ c₀ m x a a',
    Config.Steps (Collection.step Sample.platform (Sample.config none)) (Collection.SparesVersion 0)
      ⟨c₀, Session.samplePool⟩ x ∧
    x.pool 0 = .ret a ∧ x.pool 2 = .ret a' ∧
    (Session.sample 0).Tells Hnsw.fewRows.search Sample.platform (Sample.config none) c₀ 0 m 0 a ∧
    (Session.sample 2).Tells Hnsw.fewRows.search Sample.platform (Sample.config none) c₀ 0 m 2
      a' := by
  have h : Collection.create.Leads Sample.platform (Sample.config none)
      [.insertWithIdAndPayload 0 [0] (some (.bool true)), .insert [1], .insert [2],
        .commit "manual" none none]
      fun _ c₀ => (c₀.versions.get 0).isSome ∧ Config.Leads
        (Collection.step Sample.platform (Sample.config none)) (Collection.SparesVersion 0)
        [0, 0, 1, 1, 1, 1, 2, 1, 1, 0, 1, 1, 1, 1, 1, 1, 0, 0, 1, 1, 1, 1, 2, 2, 0, 0, 1, 1, 1, 0,
          2]
        ⟨c₀, Session.samplePool⟩
        fun x => (x.pool 0).result.isSome ∧ (x.pool 2).result.isSome := by
    decide +kernel
  obtain ⟨tr, c₀, hist, hget, h⟩ := h.exists_history
  obtain ⟨m, hm⟩ := Option.isSome_iff_exists.mp hget
  obtain ⟨x, hsteps, hret, hret'⟩ := h.exists_steps
  obtain ⟨a, ha⟩ := Option.isSome_iff_exists.mp hret
  obtain ⟨a', ha'⟩ := Option.isSome_iff_exists.mp hret'
  have havoid : ∀ t, (Session.sample t).Avoids (c₀.pointsOf m) := by
    intro t
    rcases t with _ | _ | _ | t
    · trivial
    · exact fun id u p h => by simp at h
    · trivial
    · exact fun id u p h => by simp at h
  have hs := hist.sound Collection.sound_create
  exact ⟨c₀, m, x, a, a', hsteps, Prog.eq_ret_of_result ha, Prog.eq_ret_of_result ha',
    pages_tile hs hm havoid hsteps (Prog.eq_ret_of_result ha),
    pages_tile hs hm havoid hsteps (Prog.eq_ret_of_result ha')⟩

end Vecvec
