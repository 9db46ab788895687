import Vecvec.Collection.Standing
import Vecvec.Durable.Log
import Vecvec.Durable.Script
import Vecvec.Persist.TornLog

/-!
# Durable/Allocator — no id is handed out twice

The allocator lives in memory.  Recovery rebuilds it from `HEAD`'s counter and the ids in the active
log, so an id that was handed out must be below one or the other in every directory a crash may
leave, across every switch of the log's generation.
-/

namespace Vecvec

open Machinery

variable {P : Platform} {cfg : CollectionConfig}

/-! ## The allocator a recovery rebuilds -/

variable (P cfg) in
/-- The allocator a recovery rebuilds. -/
def Disk.allocator (d : Disk) : GlobalId :=
  (d.records P).foldl (bump cfg) (d.head.elim 0 CheckpointHead.nextGlobalId)

theorem Disk.nextGlobalId_recover {d : Disk} {c : Collection} (hc : d.recover P cfg = some c) :
    c.nextGlobalId = d.allocator P cfg := by
  obtain ⟨segs, -, rfl⟩ := Disk.of_recover hc
  exact Collection.foldl_replay_nextGlobalId _ _

/-- The ids of a batch are in its records. -/
theorem exists_mem_upsertRecords {ups : List (List F32 × Option Payload)} {next id : GlobalId}
    (hdim : ∀ u ∈ ups, u.1.length = cfg.dim) (h : id ∈ List.range' next ups.length) :
    ∃ v p, WalOp.upsert id v p ∈ upsertRecords next ups ∧ v.length = cfg.dim := by
  induction ups generalizing next with
  | nil => cases h
  | cons u ups ih =>
    obtain ⟨v, p⟩ := u
    rcases List.mem_cons.mp h with rfl | h
    · exact ⟨v, p, List.mem_cons_self, hdim _ List.mem_cons_self⟩
    · obtain ⟨v', p', hmem, hv⟩ := ih (fun u hu => hdim u (List.mem_cons_of_mem _ hu)) h
      exact ⟨v', p', List.mem_cons_of_mem _ hmem, hv⟩

/-! ## What covers the ids handed out -/

variable {w w' : World} {m : Move} {d : Disk} {ids : List GlobalId}

variable (P cfg) in
/-- The ids are below the allocator, and below the one a recovery would rebuild. -/
structure World.Covers (ids : List GlobalId) (w : World) : Prop where
  /-- In memory. -/
  memory : ∀ id ∈ ids, id < w.collection.nextGlobalId
  /-- On disk. -/
  disk : ∀ id ∈ ids, id < w.disk.allocator P cfg

theorem Disk.allocator_congr {d' : Disk} (hh : d'.head = d.head)
    (hr : d'.records P = d.records P) : d'.allocator P cfg = d.allocator P cfg := by
  rw [allocator, allocator, hh, hr]

/-- Records behind those in the log only advance the allocator. -/
theorem Disk.allocator_le {d' : Disk} (hh : d'.head = d.head) {l : List WalOp}
    (hr : d'.records P = d.records P ++ l) : d.allocator P cfg ≤ d'.allocator P cfg := by
  rw [allocator, allocator, hh, hr, List.foldl_append]
  exact le_foldl_bump _ _

/-- No move takes the allocator back. -/
theorem Move.le_nextGlobalId : w.collection.nextGlobalId ≤
    (m.result P cfg w).collection.nextGlobalId := by
  cases m with
  | log ups dels =>
    rw [Move.result, World.logged, Collection.foldl_replay_nextGlobalId]
    exact le_foldl_bump _ _
  | commit | checkpoint => exact le_of_eq Collection.sealNow_nextGlobalId.symm
  | restore v m =>
    exact le_of_eq (@Collection.sealNow_nextGlobalId (w.collection.repoint m)).symm
  | point | compact | gc | tick => exact le_rfl

/-- **Every move keeps covered the ids handed out before.** -/
theorem World.Covers.move (h : w.Covers P cfg ids) (hs : w.Synced P)
    (hfit : ∀ op ∈ m.logs w, op.Fits P) : (m.result P cfg w).Covers P cfg ids := by
  refine ⟨fun id hid => (h.memory id hid).trans_le Move.le_nextGlobalId, fun id hid => ?_⟩
  by_cases hm : m = .checkpoint
  · -- A checkpoint writes the allocator into `HEAD`.
    subst hm
    obtain ⟨-, hh, -⟩ := @World.Synced.checkpoint_disk P cfg _
      (show (Move.checkpoint.prepare P cfg w).Synced P from hs.congr rfl rfl rfl)
    refine (h.memory id hid).trans_le (le_trans ?_ (le_foldl_bump _ _))
    rw [Move.result, hh]
    exact le_of_eq Collection.sealNow_nextGlobalId.symm
  · obtain ⟨hh, hr⟩ := @Move.records_result P cfg w m hs hfit hm
    exact (h.disk id hid).trans_le (Disk.allocator_le hh hr)

/-- **A batch covers its ids**: they are in the log. -/
theorem World.Covers.log (h : w.Covers P cfg ids) (hs : w.Synced P)
    {ups : List (List F32 × Option Payload)} {dels : List GlobalId}
    (hdim : ∀ u ∈ ups, u.1.length = cfg.dim)
    (hfit : ∀ op ∈ (Move.log ups dels).logs w, op.Fits P) :
    ((Move.log ups dels).result P cfg w).Covers P cfg
      (ids ++ List.range' w.collection.nextGlobalId ups.length) := by
  have hkeep := h.move hs hfit
  obtain ⟨hh, hr⟩ := @Move.records_result P cfg w _ hs hfit (by simp)
  refine ⟨List.forall_mem_append.mpr ⟨hkeep.memory, fun id hid => ?_⟩,
    List.forall_mem_append.mpr ⟨hkeep.disk, fun id hid => ?_⟩⟩
  · refine lt_of_lt_of_eq (List.mem_range'_1.mp hid).2 ?_
    exact (foldl_batch_nextGlobalId hdim).symm
  · obtain ⟨v, p, hmem, hv⟩ := exists_mem_upsertRecords hdim hid
    rw [Disk.allocator, hr, List.foldl_append]
    exact lt_foldl_bump (List.mem_append_right _ hmem) hv _

/-- **A move cut off keeps covered the ids handed out.** -/
theorem World.Covers.survives (h : w.Covers P cfg ids) (hs : w.Synced P)
    (hfit : ∀ op ∈ m.logs w, op.Fits P) {es : List DiskEffect} (hes : es <+: m.effects P cfg w)
    (hd : (w.disk.performAll P cfg es).Survives d) : ∀ id ∈ ids, id < d.allocator P cfg := by
  intro id hid
  obtain ⟨-, ⟨hh, l, -, hr⟩ | ⟨rfl, hh, -⟩⟩ := Move.survives hs hfit hes hd
  · exact (h.disk id hid).trans_le (Disk.allocator_le hh hr)
  · refine (h.memory id hid).trans_le (le_trans ?_ (le_foldl_bump _ _))
    rw [hh]
    exact le_of_eq Collection.sealNow_nextGlobalId.symm

/-! ## Histories -/

/-- The ids an event hands out: those a batch of writes is answered with. -/
def Event.issued : Event → List GlobalId
  | .call _ _ (.batch r) => r.ids
  | .call _ _ (.ids ids) => ids
  | _ => []

variable (P cfg) in
/-- The ids handed out are covered, running or not. -/
def Node.Covers (ids : List GlobalId) : Node → Prop
  | .running w => w.Covers P cfg ids
  | .stopped d => ∀ id ∈ ids, id < d.allocator P cfg

theorem covers_keptByMoves (ids : List GlobalId) :
    KeptByMoves P cfg fun w => w.Synced P ∧ w.Covers P cfg ids :=
  fun _ _ ⟨hs, h⟩ _ hfit => ⟨Move.synced hs hfit, h.move hs hfit⟩

/-- A batch hands out ids no one had, and covers them. -/
theorem World.Covers.batch {ups : List (List F32 × Option Payload)} {dels : List GlobalId}
    {ms : List Move} {es : List DiskEffect} (h : w.Covers P cfg ids) (hs : w.Synced P)
    (hms : Moves P cfg w (.log ups dels :: ms) es w') (hfit : Fitting P w (.log ups dels :: ms)) :
    w'.Covers P cfg (ids ++ List.range' w.collection.nextGlobalId ups.length) ∧
      (ids.Nodup → (ids ++ List.range' w.collection.nextGlobalId ups.length).Nodup) := by
  cases hms with
  | cons hm rest =>
    obtain ⟨-, hc⟩ := rest.invariant (covers_keptByMoves _) (hfit.tail _)
      ⟨Move.synced hs hfit.1, h.log hs hm hfit.1⟩
    refine ⟨hc, fun hn => hn.append (List.nodup_range' ..) fun id hid hr => ?_⟩
    exact absurd (h.memory id hid) (Nat.not_lt.mpr (List.mem_range'_1.mp hr).1)

/-- A request, answered, hands out ids no one had, and covers them. -/
theorem World.Covers.call {r : Request} {resp : Response} {ms : List Move} {es : List DiskEffect}
    (h : w.Covers P cfg ids) (hs : w.Synced P) (hmk : r.Makes w resp ms)
    (hms : Moves P cfg w ms es w') (hfit : Fitting P w ms) :
    w'.Covers P cfg (ids ++ (Event.call w r resp).issued) ∧
      (ids.Nodup → (ids ++ (Event.call w r resp).issued).Nodup) := by
  cases hmk with
  | batch ht => exact h.batch hs hms hfit
  | upsert ht => exact h.batch hs hms hfit
  | _ =>
    obtain ⟨-, hc⟩ := hms.invariant (covers_keptByMoves ids) hfit ⟨hs, h⟩
    exact ⟨by simpa [Event.issued] using hc, by simp [Event.issued]⟩

/-- An event that hands out nothing. -/
theorem Node.Covers.silent {n : Node} {e : Event} (he : e.issued = []) (h : n.Covers P cfg ids) :
    n.Covers P cfg (ids ++ e.issued) ∧ (ids.Nodup → (ids ++ e.issued).Nodup) := by
  rw [he, List.append_nil]
  exact ⟨h, fun hn => hn⟩

theorem covers_step {n n' : Node} {e : Event} (hn : n.Synced P) (hc : n.Covers P cfg ids)
    (hfit : e.Fits P cfg) (hs : Node.Step P cfg n e n') :
    n'.Covers P cfg (ids ++ e.issued) ∧ (ids.Nodup → (ids ++ e.issued).Nodup) := by
  cases hs with
  | @call w w' r resp hr =>
    obtain ⟨ms, es, _, hw, hms, hmk⟩ := (Node.Step.call hr).of_call hn.1
    cases hw
    exact World.Covers.call hc hn.2 hmk hms (hmk.fitting hms hfit)
  | @crash w w' r os p d hst hsv =>
    obtain ⟨_, w₁, m, es, hw, ⟨hs₁, hc₁⟩, -, hl, hes, hd⟩ :=
      (Node.Step.crash hst hsv).of_crash_fits hn.1 (covers_keptByMoves ids) ⟨hn.2, hc⟩ hfit
    cases hw
    exact Node.Covers.silent rfl (hc₁.survives hs₁ hl hes hd)
  | @stop w d hsv =>
    obtain ⟨hh, hw⟩ := hn.2.settled.survives hsv
    refine Node.Covers.silent rfl fun id hid => ?_
    rw [Disk.allocator_congr hh (Disk.records_congr hh (congrFun hw _))]
    exact hc.disk id hid
  | @opened d w clock hr =>
    obtain ⟨c, clock, hrec, hw⟩ := (Node.Step.opened hr).of_opened
    cases hw
    obtain ⟨-, hh, hrs⟩ := (@Disk.Settled.along_open P cfg d hn).end
    refine Node.Covers.silent rfl ⟨fun id hid => ?_, fun id hid => ?_⟩
    · exact (hc id hid).trans_eq (Disk.nextGlobalId_recover hrec).symm
    · exact (hc id hid).trans_eq (Disk.allocator_congr hh hrs).symm
  | openCrash hst hsv =>
    obtain ⟨_, es, hw, hes, hd⟩ := (Node.Step.openCrash hst hsv).of_openCrash
    cases hw
    obtain ⟨hs, hh, hrs⟩ := (@Disk.Settled.along_open P cfg _ hn).upto hes
    obtain ⟨hh', hw'⟩ := hs.survives hd
    refine Node.Covers.silent rfl fun id hid => ?_
    rw [Disk.allocator_congr (hh'.trans hh) ((Disk.records_congr hh' (congrFun hw' _)).trans hrs)]
    exact hc id hid

/-- **Ids are handed out once.**  In every history of requests, crashes and restarts whose log
records all fit, the ids handed out are pairwise distinct. -/
theorem Runs.nodup_issued {n : Node} {evs : List Event} (h : Runs P cfg (.stopped .empty) evs n)
    (hfit : ∀ e ∈ evs, e.Fits P cfg) : (evs.flatMap Event.issued).Nodup := by
  have hinv := @Runs.invariant_past P cfg (fun evs n => n.Synced P ∧
    n.Covers P cfg (evs.flatMap Event.issued) ∧ (evs.flatMap Event.issued).Nodup)
    (fun e => e.Fits P cfg) ?_ _ _ _ h ⟨Disk.settled_empty, fun id hid => (by cases hid),
      List.nodup_nil⟩ hfit
  · exact hinv.2.2
  · rintro evs n e n' ⟨hn, hc, hnd⟩ he hs
    obtain ⟨hc', hnd'⟩ := covers_step hn hc he hs
    rw [List.flatMap_append, List.flatMap_singleton]
    exact ⟨synced_step hn he hs, hc', hnd' hnd⟩

instance [DecidablePred (WalOp.Fits P)] : DecidablePred (Event.Fits P cfg)
  | .call _ _ _ => List.decidableBAll _ _
  | .crash _ _ _ => List.decidableBAll _ _
  | .stop => .isTrue trivial
  | .opened _ => .isTrue trivial
  | .openCrash _ => .isTrue trivial

/-- A batch is cut off, a checkpoint is cut off once `HEAD` is swung, and each time the collection
is reopened and written to. -/
theorem nodup_issued_sample : ∃ evs n,
    (Runs Sample.platform (Sample.config none) (.stopped .empty) evs n ∧
      ∀ e ∈ evs, e.Fits Sample.platform (Sample.config none)) ∧
    (evs.flatMap Event.issued).length = 4 ∧ (evs.flatMap Event.issued).Nodup := by
  obtain ⟨evs, d, h, hfit, hlen⟩ : ∃ evs d,
      Runs Sample.platform (Sample.config none) (.stopped .empty) evs (.stopped d) ∧
        (∀ e ∈ evs, e.Fits Sample.platform (Sample.config none)) ∧
          (evs.flatMap Event.issued).length = 4 := by
    refine @Ends.exists_runs _ _ [.open, .call (.upsert [([0], none), ([0], none)]),
      .crash (.upsert [([0], none)]) 3, .open, .call (.upsert [([0], none)]),
      .crash .checkpoint 17, .open, .call (.upsert [([0], none)]), .stop] _ ?_
    decide +kernel
  exact ⟨evs, _, ⟨h, hfit⟩, hlen, h.nodup_issued hfit⟩

/-! ## A record that does not fit -/

/-- An upsert is answered with the next ids. -/
theorem Node.Step.exists_upsert {points : List (List F32 × Option Payload)} (hi : w.Idle)
    (hdim : ∀ u ∈ points, u.1.length = cfg.dim) :
    ∃ v ms es w', Node.Step P cfg (.running w) (.call w (.upsert points)
        (.ids (List.range' w.collection.nextGlobalId points.length))) (.running w') ∧
      Moves P cfg w (.log points [] :: ms) es w' ∧
      BatchTail w.collection.versions.nextVersion (w.fires points.length) none v ms := by
  obtain ⟨n, v, ms, es, w', hp, hms, ht⟩ :=
    @performs_writeBatch P cfg 0 w points [] none hi hdim
  have hu : Performs (World.persistence P cfg) 0 (Durable.upsert cfg points) w es
    (.ok (List.range' w.collection.nextGlobalId points.length)) w' := hp.bind_ret rfl
  have hcall : Performs (World.persistence P cfg) 0 ((Request.upsert points).call P cfg) w es
    (.ids (List.range' w.collection.nextGlobalId points.length)) w' := hu.bind_ret rfl
  exact ⟨v, ms, es, w', .call hcall.run, hms, ht⟩

theorem recover_bare {d : Disk} (hh : d.head = none) (hv : d.versions = none)
    (hr : d.records P = []) : d.recover P cfg = some (d.base []) := by
  have hnamed : d.named = [] := by
    rw [Disk.named, hh, Disk.referenced, hv]
    rfl
  have hreads : d.Reads P := by
    rw [Disk.Reads, hh, hv]
    exact ⟨rfl, rfl⟩
  rw [Disk.recover, if_pos hreads, hnamed, hr]
  rfl

/-- A log that holds the frame of a record too long for its header is read as empty. -/
theorem records_oversized {d : Disk} {op : WalOp} (h : (Sample.platform.encode op).length = 2 ^ 32)
    (hd : d.wals d.generation = some ⟨walFrame Sample.platform op, []⟩) :
    d.records Sample.platform = [] := by
  have hread := Sample.readRecords_oversized h []
  rw [List.append_nil] at hread
  rw [Disk.records_eq hd, WalFile.records, WalFile.bytes, List.append_nil, hread]

/-- **A record too long for its header is lost**, acknowledged as it is. -/
theorem exists_lost : ∃ (w₀ w₁ : World) (d : Disk) (points : List (List F32 × Option Payload)),
    Node.Step Sample.platform (Sample.config none) (.stopped .empty) (.opened .empty)
      (.running w₀) ∧
    Node.Step Sample.platform (Sample.config none) (.running w₀)
      (.call w₀ (.upsert points) (.ids [0])) (.running w₁) ∧
    Node.Step Sample.platform (Sample.config none) (.running w₁) .stop (.stopped d) ∧
    (∃ payload, (Request.upsert points).logs (Sample.config none) w₀ = [.upsert 0 [0] payload]) ∧
    d.head = none ∧ d.versions = none ∧ d.records Sample.platform = [] := by
  have hrec := @recover_bare Sample.platform (Sample.config none) .empty rfl rfl rfl
  obtain ⟨w₀, hw₀⟩ : ∃ w, w = World.opened Sample.platform (Sample.config none) .empty .sync
    (fun _ => 0) (Disk.empty.base []) := ⟨_, rfl⟩
  have hi : w₀.Idle := hw₀ ▸ idle_opened hrec
  have hsync : w₀.Synced Sample.platform := hw₀ ▸ synced_opened Disk.settled_empty
  obtain ⟨s, hs⟩ := Sample.exists_oversized 0 (by decide)
  obtain ⟨points, hpoints⟩ : ∃ points : List (List F32 × Option Payload),
    points = [([0], some (.string s))] := ⟨_, rfl⟩
  have hdim : ∀ u ∈ points, u.1.length = (Sample.config none).dim := by
    simp [hpoints, Sample.config]
  obtain ⟨v, ms, es, w₁, hcall, hms, ht⟩ := @Node.Step.exists_upsert Sample.platform
    (Sample.config none) _ points hi hdim
  have hquiet : w₀.fires points.length = false := by
    rw [hw₀]
    rfl
  rw [hquiet] at ht
  cases ht
  cases hms with | cons _ rest =>
  cases rest with | cons _ rest =>
  cases rest
  have hnext : w₀.collection.nextGlobalId = 0 := by
    rw [hw₀]
    rfl
  have hbatch : batchRecords w₀.collection.nextGlobalId points [] =
      [.upsert 0 [0] (some (.string s))] := by
    rw [hnext, hpoints]
    rfl
  have hids : List.range' w₀.collection.nextGlobalId points.length = [0] := by
    rw [hnext, hpoints]
    rfl
  have hfile : w₀.disk.wals w₀.disk.generation = some ⟨[], []⟩ := by
    rw [hw₀]
    exact (Disk.setWal_apply ..).trans (if_pos rfl)
  have hdisk := hsync.logged_disk (Sample.config none) hfile
    (batchRecords w₀.collection.nextGlobalId points [])
  have hd : (w₀.logged Sample.platform (Sample.config none)
      (batchRecords w₀.collection.nextGlobalId points [])).disk = w₀.disk.setWal w₀.disk.generation
        (some ⟨walFrame Sample.platform (.upsert 0 [0] (some (.string s))), []⟩) := by
    rw [hdisk, hbatch]
    rfl
  have hhead : w₀.disk.head = none ∧ w₀.disk.versions = none := by
    rw [hw₀]
    exact ⟨rfl, rfl⟩
  refine ⟨w₀, _, _, points, hw₀ ▸ .opened (performs_open hrec).run,
    hids ▸ hcall, .stop (Disk.survives_flushedOnly _), ⟨_, (if_pos hdim).trans hbatch⟩, ?_, ?_,
    records_oversized hs ?_⟩
  · exact (congrArg Disk.head hd).trans hhead.1
  · exact (congrArg Disk.versions hd).trans hhead.2
  · refine (congrArg (fun d : Disk => d.flushedOnly.wals d.generation) hd).trans ?_
    exact congrArg (Option.map fun f => (⟨f.durable, []⟩ : WalFile))
      (Function.update_self w₀.disk.generation _ w₀.disk.wals)

/-- **The ids of a record that is lost are handed out again.** -/
theorem issued_again : ∃ evs n,
    Runs Sample.platform (Sample.config none) (.stopped .empty) evs n ∧
      ¬ (evs.flatMap Event.issued).Nodup := by
  obtain ⟨w₀, w₁, d, points, hopen, hcall, hstop, -, hh, hv, hr⟩ := exists_lost
  have hrec := @recover_bare Sample.platform (Sample.config none) d hh hv hr
  obtain ⟨w₂, hw₂⟩ : ∃ w, w = World.opened Sample.platform (Sample.config none) d .sync
    (fun _ => 0) (d.base []) := ⟨_, rfl⟩
  have hi : w₂.Idle := hw₂ ▸ idle_opened hrec
  obtain ⟨v, ms, es, w₃, hcall', -⟩ := @Node.Step.exists_upsert Sample.platform
    (Sample.config none) _ [([0], none)] hi (by decide)
  have hnext : w₂.collection.nextGlobalId = 0 := by
    rw [hw₂]
    change d.head.elim 0 CheckpointHead.nextGlobalId = 0
    rw [hh]
    rfl
  rw [hnext] at hcall'
  have hopen' : Node.Step Sample.platform (Sample.config none) (.stopped d) (.opened d)
    (.running w₂) := hw₂ ▸ .opened (performs_open hrec).run
  refine ⟨_, _, .cons hopen (.cons hcall (.cons hstop (.cons hopen' (.cons hcall' (.nil _))))), ?_⟩
  simp [Event.issued]

end Vecvec
