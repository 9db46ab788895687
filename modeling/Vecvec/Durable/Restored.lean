import Vecvec.Durable.Shown

/-!
# Durable/Restored — a restore, and a restart

A restore moves the collection in memory to a version; `HEAD` and the log still describe what it
left.  Until the next checkpoint, memory shows the version and what was written since, and the
directory the points before the restore and what was written since (`Runs.parted`).
-/

namespace Vecvec

open Machinery

variable {P : Platform} {cfg : CollectionConfig} {w w₁ w' : World} {evs : List Event} {e : Event}
  {d : Disk} {L : GlobalId → List F32} {l : List WalOp} {M N : Ledger} {v : VersionId}
  {m : Manifest} {ms : List Move} {resp : Response}

/-! ## Since a restore -/

/-- The request merges the working segments, whose vectors are stored once more. -/
def Request.merges : Request → Bool
  | .compact => true
  | _ => false

/-- A request that goes forward and merges nothing, answered. -/
def Event.Served : Event → Prop
  | .call _ r _ => r.Forward ∧ r.merges = false
  | _ => False

theorem Event.Served.forward (h : e.Served) : e.Forward := by
  cases e with
  | call => exact h.1
  | _ => exact h.elim

instance : DecidablePred Event.Served
  | .call _ r _ => inferInstanceAs (Decidable (r.Forward ∧ r.merges = false))
  | .crash .. | .stop | .opened _ | .openCrash _ => instDecidableFalse

instance : DecidablePred Event.Settles := fun e => by
  unfold Event.Settles
  split <;> infer_instance

namespace Request.Makes

variable {r : Request}

/-- A request that makes a checkpoint settles the collection. -/
theorem settles_of_mem (h : r.Makes w resp ms) (hck : .checkpoint ∈ ms) :
    (Event.call w r resp).Settles := by
  cases h with
  | checkpoint | compact => trivial
  | batch ht =>
    obtain ⟨trigger, ticks, rfl | ⟨tr, message, tag, rfl⟩⟩ := ht.eq_or <;> simp at hck
  | upsert ht =>
    obtain ⟨trigger, ticks, rfl | ⟨tr, message, tag, rfl⟩⟩ := ht.eq_or <;> simp at hck
  | _ => simp at hck

/-- A request that merges nothing settles the collection by a checkpoint alone. -/
theorem eq_checkpoint (h : r.Makes w resp ms) (hs : (Event.call w r resp).Served)
    (hset : (Event.call w r resp).Settles) : ms = [.checkpoint] := by
  cases h with
  | checkpoint => rfl
  | compact => cases hs.2
  | failed => cases r <;> exact hset.elim
  | _ => exact hset.elim

/-- Every move of a request served is exact. -/
theorem exact (h : r.Makes w resp ms) (hs : (Event.call w r resp).Served) : ∀ m ∈ ms, m.Exact := by
  cases h with
  | batch ht =>
    obtain ⟨trigger, ticks, rfl | ⟨tr, message, tag, rfl⟩⟩ := ht.eq_or <;> simp [Move.Exact]
  | upsert ht =>
    obtain ⟨trigger, ticks, rfl | ⟨tr, message, tag, rfl⟩⟩ := ht.eq_or <;> simp [Move.Exact]
  | restore | gc => exact hs.1.elim
  | compact => cases hs.2
  | _ => simp [Move.Exact]

end Request.Makes

variable (cfg) in
/-- The records acknowledged, each with its vector as it is stored. -/
def Event.written (P : Platform) (evs : List Event) : List WalOp :=
  (evs.flatMap (Event.acked cfg)).map (WalOp.stored P cfg)

theorem Event.written_snoc : Event.written cfg P (evs ++ [e]) =
    Event.written cfg P evs ++ (e.acked cfg).map (WalOp.stored P cfg) := by
  rw [written, List.flatMap_append, List.flatMap_singleton, List.map_append]
  rfl

variable (P cfg) in
/-- **Memory and directory, parted**: since `w` both have entered the records of the requests
served, each in what it showed then; a checkpoint makes the directory show what memory does. -/
structure World.Parted (w : World) (evs : List Event) (w' : World) : Prop where
  /-- The end stands for known points. -/
  durable : ∃ L, w'.Durable P cfg L
  /-- The segment ids ascend. -/
  lined : w'.Lined
  /-- The appendable segment has ids of its own. -/
  apart : w'.collection.Apart
  /-- In memory. -/
  memory : w'.collection.liveMap =
    Ledger.applyAll w.collection.liveMap (Event.written cfg P evs)
  /-- On disk. -/
  disk : (∀ e ∈ evs, ¬ e.Settles) → w'.disk.liveMap P cfg =
    Ledger.applyAll (w.disk.liveMap P cfg) (Event.written cfg P evs)
  /-- Together again. -/
  settled : (∃ e ∈ evs, e.Settles) → w'.disk.liveMap P cfg = w'.collection.liveMap

/-- One request more. -/
theorem World.Parted.step {n : Node} (h : w.Parted P cfg evs w₁) (he : e.Served)
    (hfit : e.Fits P cfg) (hs : Node.Step P cfg (.running w₁) e n) :
    ∃ w', n = .running w' ∧ w.Parted P cfg (evs ++ [e]) w' := by
  obtain ⟨L, hd⟩ := h.durable
  cases hs with
  | crash | stop => exact he.elim
  | @call _ w' r resp hr =>
    have hstep : Node.Step P cfg (.running w₁) (.call w₁ r resp) (.running w') := .call hr
    obtain ⟨ms, es, _, hw, hms, hmk⟩ := hstep.of_call hd.idle
    cases hw
    have hreg : (Event.call w₁ r resp).Regular P cfg :=
      ⟨hfit, hstep.sparesNamed hd.idle he.forward, he.forward.placed⟩
    have hsp := hmk.sparing hms hreg
    obtain ⟨hl, ha, hmem, hdisk, hagree⟩ := hms.shown hd hsp h.lined h.apart (hmk.exact he)
    rw [hmk.logsOf hms] at hmem hdisk
    refine ⟨w', rfl, ⟨_, (hms.entered hd hsp).durable⟩, hl, ha, ?_, fun hset => ?_, fun hset => ?_⟩
    · rw [Event.written_snoc, Ledger.applyAll, List.foldl_append]
      exact hmem.trans (congrArg (Ledger.applyAll · _) h.memory)
    · obtain ⟨hset, he'⟩ := List.forall_mem_append.mp hset
      rw [Event.written_snoc, Ledger.applyAll, List.foldl_append]
      exact (hdisk fun hck => he' _ (List.mem_singleton_self _) (hmk.settles_of_mem hck)).trans
        (congrArg (Ledger.applyAll · _) (h.disk hset))
    · by_cases hlast : (Event.call w₁ r resp).Settles
      · obtain rfl := hmk.eq_checkpoint he hlast
        cases hms with
        | cons hm hrest =>
          cases hrest
          exact (hd.liveMap_checkpoint h.lined h.apart).trans
            (Move.liveMap_result hd h.apart hm trivial).2.symm
      · obtain ⟨e, he, hset⟩ := hset
        rcases List.mem_append.mp he with he | he
        · exact hagree (h.settled ⟨e, he, hset⟩)
        · exact absurd (List.mem_singleton.mp he ▸ hset) hlast

/-- **A run of requests** keeps the two parted, until a checkpoint. -/
theorem Runs.parted {n : Node} (h : Runs P cfg (.running w) evs n) (hw : w.Durable P cfg L)
    (hl : w.Lined) (ha : w.collection.Apart) (hevs : ∀ e ∈ evs, e.Served ∧ e.Fits P cfg) :
    ∃ w', n = .running w' ∧ w.Parted P cfg evs w' := by
  refine @Runs.invariant_past P cfg (fun evs n => ∃ w', n = .running w' ∧
    w.Parted P cfg evs w') (fun e => e.Served ∧ e.Fits P cfg) ?_ _ _ _ h
    ⟨w, rfl, ⟨L, hw⟩, hl, ha, rfl, fun _ => rfl, fun ⟨_, he, _⟩ => absurd he List.not_mem_nil⟩ hevs
  rintro evs n e n' ⟨w₁, rfl, hw₁⟩ ⟨he, hfit⟩ hs
  exact hw₁.step he hfit hs

/-! ## After a restart -/

/-- Records leave the same behind, if the ledgers differ only in what they are about. -/
theorem Ledger.applyAll_congr (h : ∀ id, (∀ op ∈ l, op.target ≠ id) → M id = N id) :
    M.applyAll l = N.applyAll l := by
  induction l generalizing M N with
  | nil => exact funext fun id => h id fun _ hop => absurd hop List.not_mem_nil
  | cons op l ih =>
    refine ih fun id hid => ?_
    by_cases hop : op.target = id
    · subst hop
      cases op <;> simp [apply, WalOp.target]
    · rw [apply_of_target hop, apply_of_target hop]
      exact h id (List.forall_mem_cons.mpr ⟨hop, hid⟩)

/-- Records leave the same behind exactly if the ledgers differ only in what they are about. -/
theorem Ledger.applyAll_inj : M.applyAll l = N.applyAll l ↔
    ∀ id, (∀ op ∈ l, op.target ≠ id) → M id = N id := by
  refine ⟨fun h id hid => ?_, applyAll_congr⟩
  have hM := @applyAll_of_target M _ _ hid
  have hN := @applyAll_of_target N _ _ hid
  rw [← hM, h, hN]

/-- Records are about the same points as stored. -/
theorem Event.forall_written {id : GlobalId} : (∀ op ∈ Event.written cfg P evs, op.target ≠ id) ↔
    ∀ op ∈ evs.flatMap (Event.acked cfg), op.target ≠ id := by
  rw [written, List.forall_mem_map]
  simp only [WalOp.target_stored]

/-- **A restore, answered**: the directory shows what it did, memory the version. -/
theorem World.Durable.restored (hw : w.Durable P cfg L) (hl : w.Lined)
    (hm : w.collection.versions.get v = some m)
    (hplaced : ∀ id ∈ m.segmentIds, id < w.collection.nextSegmentId)
    (hs : Node.Step P cfg (.running w) (.call w (.restore v) resp) (.running w₁)) :
    w₁.Durable P cfg L ∧ w₁.Lined ∧ w₁.collection.Apart ∧
      w₁.disk.liveMap P cfg = w.disk.liveMap P cfg ∧
      w₁.collection.liveMap = w.collection.contents m := by
  cases hs with
  | call hr =>
    have hp : Performs (World.persistence P cfg) 0 (Request.call P cfg (.restore v)) w _ _
        ((Move.restore v m).result P cfg w) := (performs_restore hw.idle hm).bind_ret rfl
    obtain ⟨-, rfl⟩ := hp.of_run hr
    have hfit : ∀ op ∈ (Move.restore v m).logs w, op.Fits P := fun op hop => by cases hop
    have hd := (hw.entered (m := .restore v m) hm trivial hplaced hfit).1
    exact ⟨hd, hl.move hw hm, Collection.apart_of_empty Collection.sealNow_appendable_rows,
      hw.liveMap_move hm trivial hfit (by simp), Collection.liveMap_restoreNow⟩

/-- **A restore, and a restart.**  In every reachable state, after a restore of a version and any
requests that go forward and merge nothing, the next opening shows the version's points with what
was written since, exactly if a checkpoint was made, or the points shown before the restore differ
from the version's only in what was written since. -/
theorem Runs.restored_iff (h : Runs P cfg (.stopped .empty) evs (.running w))
    (hreg : ∀ e ∈ evs, e.Regular P cfg) (hreads : w.disk.Reads P)
    (hm : w.collection.versions.get v = some m)
    (hplaced : ∀ id ∈ m.segmentIds, id < w.collection.nextSegmentId) :
    ∃ M, (∀ d, w.disk.Survives d → d.Shows P cfg M) ∧
      ∀ (resp : Response) (w₁ : World) (evs' : List Event) (w' : World) (d : Disk),
        Node.Step P cfg (.running w) (.call w (.restore v) resp) (.running w₁) →
        Runs P cfg (.running w₁) evs' (.running w') →
        (∀ e ∈ evs', e.Served ∧ e.Fits P cfg) → w'.disk.Reads P → w'.disk.Survives d →
        (d.Shows P cfg (Ledger.applyAll (w.collection.contents m) (Event.written cfg P evs')) ↔
          (∃ e ∈ evs', e.Settles) ∨ ∀ id, (∀ op ∈ evs'.flatMap (Event.acked cfg), op.target ≠ id) →
            M id = w.collection.contents m id) := by
  obtain ⟨L, hw, -⟩ := h.durable hreg
  have hw : w.Durable P cfg L := hw
  have hl : w.Lined := h.lined hreg
  refine ⟨w.disk.liveMap P cfg, fun d hd => h.shows_stop hreg hw (hreads.survives hd) hd, ?_⟩
  intro resp w₁ evs' w' d hs hrun hevs hreads' hd
  obtain ⟨hw₁, hl₁, ha₁, hdisk, hmem⟩ := hw.restored hl hm hplaced hs
  obtain ⟨_, hw', hpart⟩ := hrun.parted hw₁ hl₁ ha₁ hevs
  cases hw'
  obtain ⟨L', hdur⟩ := hpart.durable
  -- The directory gives what it shows at the end.
  have hshows : d.Shows P cfg (w'.disk.liveMap P cfg) := by
    refine ((h.snoc hs).append hrun).shows_stop ?_ hdur (hreads'.survives hd) hd
    refine List.forall_mem_append.mpr ⟨List.forall_mem_append.mpr ⟨hreg, ?_⟩, ?_⟩
    · refine List.forall_mem_singleton.mpr ⟨fun op hop => (by cases hop),
        fun id hid => (by cases hid), fun m' hm' => ?_⟩
      cases hm.symm.trans hm'
      exact hplaced
    · exact hrun.regular hw₁.idle (fun e he => (hevs e he).1.forward) fun e he => (hevs e he).2
  by_cases hset : ∃ e ∈ evs', e.Settles
  · rw [hpart.settled hset, hpart.memory, hmem] at hshows
    exact iff_of_true hshows (.inl hset)
  · rw [hpart.disk fun e he hs => hset ⟨e, he, hs⟩, hdisk] at hshows
    rw [or_iff_right hset]
    simp only [← @Event.forall_written P cfg]
    rw [← Ledger.applyAll_inj]
    exact ⟨fun hN => hshows.eq hN, fun heq => heq ▸ hshows⟩

/-- The version is there, and its segment ids have been given out. -/
def Node.offers (v : VersionId) : Node → Bool
  | .running w => (w.collection.versions.get v).any fun m =>
      m.segmentIds.all fun id => id < w.collection.nextSegmentId
  | .stopped _ => false

theorem Node.exists_of_offers {n : Node} (h : n.offers v) : ∃ w m, n = .running w ∧
    w.collection.versions.get v = some m ∧ ∀ id ∈ m.segmentIds,
      id < w.collection.nextSegmentId := by
  cases n with
  | stopped => cases h
  | running w =>
    rw [offers] at h
    cases hm : w.collection.versions.get v with
    | none => simp [hm] at h
    | some m =>
      rw [hm, Option.any_some, List.all_eq_true] at h
      exact ⟨w, m, rfl, hm, fun id hid => of_decide_eq_true (h id hid)⟩

set_option linter.constructorNameAsVariable false in
set_option synthInstance.maxSize 400 in
/-- A checkpoint is made after a restore, and then a point written. -/
theorem restored_sample : ∃ evs w v m resp w₁ evs' w' d,
    Runs Sample.platform (Sample.config none) (.stopped .empty) evs (.running w) ∧
    w.collection.versions.get v = some m ∧
    Node.Step Sample.platform (Sample.config none) (.running w) (.call w (.restore v) resp)
      (.running w₁) ∧
    Runs Sample.platform (Sample.config none) (.running w₁) evs' (.running w') ∧
    w'.disk.Survives d ∧ d.Shows Sample.platform (Sample.config none)
      (Ledger.applyAll (w.collection.contents m)
        (Event.written (Sample.config none) Sample.platform evs')) := by
  have h : Node.Leads Sample.platform (Sample.config none) (.stopped .empty)
      [.open, .call (.upsert [([0], none)]), .call (.commit none none),
        .call (.upsert [([1], none)])] fun evs n =>
      (∀ e ∈ evs, e.Forward ∧ e.Fits Sample.platform (Sample.config none)) ∧ n.offers 0 ∧
        n.Leads Sample.platform (Sample.config none) [.call (.restore 0)] fun _ n₁ =>
          n₁.Leads Sample.platform (Sample.config none)
            [.call .checkpoint, .call (.upsert [([2], none)])] fun evs' n' =>
            (∀ e ∈ evs', e.Served ∧ e.Fits Sample.platform (Sample.config none)) ∧
              (∃ e ∈ evs', e.Settles) ∧ n'.shows 0 := by
    decide +kernel
  obtain ⟨evs, n, hr, hforward, hoffers, h⟩ := h.exists_runs
  obtain ⟨w, m, rfl, hm, hplaced⟩ := Node.exists_of_offers hoffers
  obtain ⟨resp, w₁, hs, h⟩ := h.exists_call
  obtain ⟨evs', n', hr', hevs, hset, hn'⟩ := h.exists_runs
  cases n' with
  | stopped => cases hn'
  | running w' =>
    have hreg := hr.regular trivial (fun e he => (hforward e he).1) fun e he => (hforward e he).2
    obtain ⟨M, -, hiff⟩ := hr.restored_iff hreg (Sample.reads _) hm hplaced
    exact ⟨evs, w, 0, m, resp, w₁, evs', w', _, hr, hm, hs, hr', Disk.survives_flushedOnly _,
      (hiff resp w₁ evs' w' _ hs hr' hevs (Sample.reads _) (Disk.survives_flushedOnly _)).mpr
        (.inl hset)⟩

/-- The version has the point. -/
def Node.contains (v : VersionId) (id : GlobalId) : Node → Bool
  | .running w => (w.collection.versions.get v).any fun m => (w.collection.contents m id).isSome
  | .stopped _ => false

set_option linter.constructorNameAsVariable false in
/-- **Discarded points come back**: a restore, answered, and the process is stopped. -/
theorem restore_undone : ∃ evs w v m resp w₁ d,
    Runs Sample.platform (Sample.config none) (.stopped .empty) evs (.running w) ∧
    w.collection.versions.get v = some m ∧
    Node.Step Sample.platform (Sample.config none) (.running w) (.call w (.restore v) resp)
      (.running w₁) ∧ w₁.disk.Survives d ∧
    ¬ d.Shows Sample.platform (Sample.config none) (w.collection.contents m) := by
  have h : Node.Leads Sample.platform (Sample.config none) (.stopped .empty)
      [.open, .call (.upsert [([0], none)]), .call (.commit none none),
        .call (.upsert [([1], none)])] fun _ n =>
      n.offers 0 ∧ ¬ n.contains 0 1 ∧
        n.Leads Sample.platform (Sample.config none) [.call (.restore 0)] fun _ n₁ =>
          n₁.Leads Sample.platform (Sample.config none) [.stop] fun _ n₂ =>
            n₂.Leads Sample.platform (Sample.config none) [.open] fun _ n₃ => n₃.shows 1 := by
    decide +kernel
  obtain ⟨evs, n, hr, hoffers, hcontains, h⟩ := h.exists_runs
  obtain ⟨w, m, rfl, hm, -⟩ := Node.exists_of_offers hoffers
  obtain ⟨resp, w₁, hs, h⟩ := h.exists_call
  obtain ⟨w₃, hopen, hshows⟩ := h.of_stop.exists_open
  refine ⟨evs, w, 0, m, resp, w₁, _, hr, hm, hs, Disk.survives_flushedOnly _, fun hre => ?_⟩
  obtain ⟨w₃', hopen', hlive⟩ := hre fun _ => 0
  obtain rfl : w₃ = w₃' := congrArg Prod.snd (Option.some.inj (hopen.symm.trans hopen'))
  refine hcontains ?_
  rw [Node.contains, hm, Option.any_some, ← hlive]
  exact hshows

end Vecvec
