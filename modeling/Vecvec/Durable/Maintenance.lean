import Vecvec.Durable.Entries

/-!
# Durable/Maintenance — compaction when it is due, and a checkpoint otherwise

Every so often the server goes through its collections: one whose compaction is due, because its
segments have become too many or the last compaction is too long ago, is compacted, which ends with
a checkpoint; any other is only checkpointed.

Such a tick **bounds what piles up** (`burden_le`): after it, however long the history before, a
search visits no more than the greater of two and the trigger's limit of segments, and each request
adds one at most; and a restart replays what those requests wrote, and no more.
-/

namespace Vecvec

open Machinery

/-! ## The code -/

/-- When a collection is compacted automatically; all `none` is by hand only. -/
structure CompactionPolicy where
  /-- Compact at this many working segments. -/
  maxSegments : Option ℕ
  /-- Compact once this many milliseconds have passed. -/
  intervalMs : Option ℕ
  deriving DecidableEq

/-- Progress towards the next automatic compaction. -/
structure CompactionTrigger where
  /-- The policy. -/
  policy : CompactionPolicy
  /-- The time of the last compaction. -/
  lastCompactionMs : ℕ

namespace CompactionTrigger

/-- A trigger anchored at `now`. -/
def new (policy : CompactionPolicy) (now : ℕ) : CompactionTrigger := ⟨policy, now⟩

/-- Whether to compact this many segments at `now`: never, if there is nothing to merge. -/
def shouldCompact (t : CompactionTrigger) (segmentCount now : ℕ) : Bool :=
  if segmentCount ≤ 1 then false
  else
    (match t.policy.maxSegments with
      | some max => max ≤ segmentCount
      | none => false) ||
    (match t.policy.intervalMs with
      | some ms => ms ≤ now - t.lastCompactionMs
      | none => false)

/-- Records a compaction at `now`. -/
def noteCompaction (t : CompactionTrigger) (now : ℕ) : CompactionTrigger :=
  { t with lastCompactionMs := now }

end CompactionTrigger

/-- A durable collection with its compaction trigger. -/
structure Maintained where
  /-- The collection. -/
  world : World
  /-- Its trigger. -/
  compaction : CompactionTrigger
  /-- The successive readings of the wall clock that the trigger takes. -/
  clock : ℕ → ℕ
  /-- How many of them have been taken. -/
  ticks : ℕ

/-- The atomic actions of maintenance. -/
inductive MaintenanceOp
  /-- an action of the collection -/
  | durable (o : DurableOp)
  /-- `compaction.lock().should_compact(..)` -/
  | shouldCompact (segmentCount : ℕ)
  /-- `compaction.lock().note_compaction(..)` -/
  | noteCompaction

/-- What an action of maintenance answers. -/
@[reducible] def MaintenanceOp.Ret : MaintenanceOp → Type
  | durable o => o.Ret
  | shouldCompact _ => Bool
  | noteCompaction => Unit

/-- The interface of maintenance. -/
@[reducible] def maintenanceInterface : Interface := ⟨MaintenanceOp, MaintenanceOp.Ret⟩

/-- A call of maintenance. -/
abbrev MaintenanceProg := Prog maintenanceInterface

namespace Maintenance

/-- What an action does. -/
def step (P : Platform) (cfg : CollectionConfig) : Handler maintenanceInterface Maintained
  | t, .durable o, m => (World.step P cfg t o m.world).map fun r => (r.1, { m with world := r.2 })
  | _, .shouldCompact n, m =>
    some (m.compaction.shouldCompact n (m.clock m.ticks), { m with ticks := m.ticks + 1 })
  | _, .noteCompaction, m => some ((),
      { m with
        compaction := m.compaction.noteCompaction (m.clock m.ticks)
        ticks := m.ticks + 1 })

/-- Performs one action. -/
abbrev perform (o : MaintenanceOp) : MaintenanceProg o.Ret := @Prog.perform maintenanceInterface o

/-- A call on the collection. -/
def durable {α : Type} (p : DurableProg α) : MaintenanceProg α :=
  p.lift MaintenanceOp.durable fun _ r => r

/-- `sealed_count` -/
def sealedCount : MaintenanceProg ℕ := do
  let working ← durable (Durable.inMemory (Collection.perform .loadWorking))
  return working.length

/-- `maybe_compact` -/
def maybeCompact (P : Platform) (cfg : CollectionConfig) : MaintenanceProg (Option SegmentId) := do
  let segmentCount ← sealedCount
  let fire ← perform (.shouldCompact segmentCount)
  if !fire then
    return none
  else
    let merged ← durable (Durable.compact P cfg)
    if merged.isSome then
      perform .noteCompaction
      return merged
    else
      return merged

/-- A tick of the server's maintenance, for one collection. -/
def tick (P : Platform) (cfg : CollectionConfig) : MaintenanceProg Unit := do
  match ← maybeCompact P cfg with
  | some _ => return ()
  | none =>
    durable Durable.checkpoint
    return ()

end Maintenance

/-! ## A tick by itself -/

/-- The effects of an action on the directory. -/
def MaintenanceOp.effects : MaintenanceOp → Maintained → List DiskEffect
  | .durable o, m => o.effects m.world
  | _, _ => []

variable (P : Platform) (cfg : CollectionConfig)

/-- The directory is what outlives the process. -/
def Maintenance.persistence : Persistence (Maintenance.step P cfg) Disk DiskEffect where
  view m := m.world.disk
  emit := MaintenanceOp.effects
  apply := Disk.perform P cfg
  view_step := by
    intro t o m r m' hs
    cases o with
    | durable o =>
      obtain ⟨⟨_, _⟩, hstep, hs⟩ := Option.map_eq_some_iff.mp hs
      cases hs
      exact (World.persistence P cfg).view_step hstep
    | _ => cases hs; rfl

variable {P cfg} {t : ℕ} {w w' : World} {m m' : Maintained} {ms : List Move} {es : List DiskEffect}
  {d : Disk} {b r : ℕ}

theorem performs_durable {α : Type} {p : DurableProg α} {a : α}
    (hp : Performs (World.persistence P cfg) t p m.world es a w') :
    Performs (Maintenance.persistence P cfg) t (Maintenance.durable p) m es a
      { m with world := w' } := by
  generalize hw : m.world = w at hp
  induction hp generalizing m with
  | ret =>
    subst hw
    exact .ret _ _
  | @act o k w w₁ w' r es a hs _ ih =>
    subst hw
    have hstep : Maintenance.step P cfg t (.durable o) m = some (r, { m with world := w₁ }) := by
      rw [Maintenance.step, hs]
      rfl
    exact .act hstep (ih (m := { m with world := w₁ }) rfl)

/-- The moves of a tick: a compaction that is due, and a checkpoint. -/
inductive TickMoves (m : Maintained) : List Move → CompactionTrigger → Prop
  | due
      (h : m.compaction.shouldCompact m.world.collection.working.length (m.clock m.ticks) = true) :
      TickMoves m [.compact, .checkpoint] (m.compaction.noteCompaction (m.clock (m.ticks + 1)))
  | quiet
      (h : m.compaction.shouldCompact m.world.collection.working.length (m.clock m.ticks) = false) :
      TickMoves m [.checkpoint] m.compaction

theorem CompactionTrigger.one_lt_of_shouldCompact {e : CompactionTrigger} {n now : ℕ}
    (h : e.shouldCompact n now = true) : 1 < n := by
  by_contra hle
  rw [shouldCompact, if_pos (Nat.le_of_not_lt hle)] at h
  cases h

/-- **What a tick does**, run alone. -/
theorem performs_tick (hi : m.world.Idle) : ∃ ms es m', Performs (Maintenance.persistence P cfg) t
    (Maintenance.tick P cfg) m es () m' ∧ Moves P cfg m.world ms es m'.world ∧
      TickMoves m ms m'.compaction := by
  have hcount : Performs (Maintenance.persistence P cfg) t Maintenance.sealedCount m []
      m.world.collection.working.length m :=
    (performs_durable (performs_inMemory_perform (o := .loadWorking) rfl)).bind_ret rfl
  cases hfire : m.compaction.shouldCompact m.world.collection.working.length (m.clock m.ticks) with
  | true =>
    have hlen := CompactionTrigger.one_lt_of_shouldCompact hfire
    have hcompact := performs_durable (m := { m with ticks := m.ticks + 1 })
      (@performs_compact P cfg t m.world hi hlen)
    refine ⟨[.compact, .checkpoint], _,
      ⟨Move.checkpoint.result P cfg (Move.compact.result P cfg m.world),
        m.compaction.noteCompaction (m.clock (m.ticks + 1)), m.clock, m.ticks + 2⟩, ?_,
      .cons (m := .compact) hlen (.single (m := .checkpoint) trivial), .due hfire⟩
    refine Performs.bind_ret (a := some m.world.collection.nextSegmentId) ?_ rfl
    refine hcount.bind_silent (.perform_silent (r := true) ?_ rfl (hcompact.then_silent ?_))
    · rw [Maintenance.step, hfire]
    · exact .perform_silent rfl rfl (.ret _ _)
  | false =>
    have hcheck := performs_durable (m := { m with ticks := m.ticks + 1 })
      (@performs_checkpoint P cfg t m.world hi)
    refine ⟨[.checkpoint], _,
      { m with world := Move.checkpoint.result P cfg m.world, ticks := m.ticks + 1 }, ?_,
      .single (m := .checkpoint) trivial, .quiet hfire⟩
    refine Performs.bind_silent (a := none) (hcount.bind_silent (.perform_silent (r := false) ?_ rfl
      (.ret _ _))) (hcheck.bind_ret rfl)
    rw [Maintenance.step, hfire]

/-! ## What piles up -/

/-- A directory from which a restart makes a working set of `b` segments at most, and replays `r`
records at most. -/
structure Disk.Within (P : Platform) (b r : ℕ) (d : Disk) : Prop where
  /-- The working set of the checkpoint. -/
  head : d.workingIds.length ≤ b
  /-- The records. -/
  log : (d.records P).length ≤ r

/-- A process that has a working set of `b` segments at most, as has such a directory. -/
structure World.Within (P : Platform) (b r : ℕ) (w : World) : Prop where
  /-- The working set. -/
  working : w.collection.working.length ≤ b
  /-- The directory. -/
  disk : w.disk.Within P b r

/-- How many segments a move adds. -/
def Move.seals : Move → ℕ
  | .commit .. | .checkpoint => 1
  | _ => 0

theorem Disk.Within.mono (h : d.Within P b r) {b' r' : ℕ} (hb : b ≤ b') (hr : r ≤ r') :
    d.Within P b' r' :=
  ⟨h.head.trans hb, h.log.trans hr⟩

theorem World.Within.mono (h : w.Within P b r) {b' r' : ℕ} (hb : b ≤ b') (hr : r ≤ r') :
    w.Within P b' r' :=
  ⟨h.working.trans hb, h.disk.mono hb hr⟩

theorem Disk.Within.congr {d' : Disk} (h : d.Within P b r) (hh : d'.head = d.head)
    (hr : d'.records P = d.records P) : d'.Within P b r :=
  ⟨by rw [workingIds, hh]; exact h.head, by rw [hr]; exact h.log⟩

theorem Collection.length_sealNow_working_le (c : Collection) :
    c.sealNow.working.length ≤ c.working.length + 1 := by
  rw [sealNow]
  split
  · exact Nat.le_succ _
  · rw [List.length_append, List.length_singleton]

/-- The directory of a checkpoint: what it names is the working set. -/
theorem length_newHead_le (w : World) :
    (Move.checkpoint.prepare P cfg w).newHead.workingSegmentIds.length ≤
      w.collection.working.length + 1 :=
  (List.length_map _).trans_le (Collection.length_sealNow_working_le _)

/-- **A checkpoint** leaves nothing to replay. -/
theorem World.Synced.within_checkpoint (hs : w.Synced P) :
    (Move.checkpoint.result P cfg w).Within P (w.collection.working.length + 1) 0 := by
  have hp : (Move.checkpoint.prepare P cfg w).Synced P := hs.congr rfl rfl rfl
  obtain ⟨-, hh, -⟩ := @World.Synced.checkpoint_disk P cfg _ hp
  refine ⟨Collection.length_sealNow_working_le _, ?_, ?_⟩
  · have hids : (Move.checkpoint.result P cfg w).disk.workingIds =
        (Move.checkpoint.prepare P cfg w).newHead.workingSegmentIds := by
      rw [Disk.workingIds, show (Move.checkpoint.result P cfg w).disk.head = _ from hh]
      rfl
    rw [hids]
    exact length_newHead_le w
  · rw [show (Move.checkpoint.result P cfg w).disk.records P = [] from hp.records_checkpoint]
    exact Nat.zero_le _

/-- **One move** adds one segment at most, unless it restores a version, and its records. -/
theorem World.Within.move {m : Move} (h : w.Within P b r) (hs : w.Synced P) (hm : m.Enabled cfg w)
    (hfit : ∀ op ∈ m.logs w, op.Fits P) (hr : ¬ m.IsRestore) :
    (m.result P cfg w).Within P (b + m.seals) (r + (m.logs w).length) := by
  by_cases hck : m = .checkpoint
  · subst hck
    exact hs.within_checkpoint.mono (Nat.add_le_add_right h.working 1) (Nat.zero_le _)
  · obtain ⟨hh, hrec⟩ := @Move.records_result P cfg w m hs hfit hck
    refine ⟨?_, ?_, ?_⟩
    · cases m with
      | restore => exact absurd trivial hr
      | checkpoint => exact absurd rfl hck
      | log => exact (congrArg List.length (Collection.foldl_replay_working _)).trans_le h.working
      | commit =>
        exact (Collection.length_sealNow_working_le _).trans (Nat.add_le_add_right h.working 1)
      | compact => exact (Nat.le_of_lt hm).trans h.working
      | point | gc | tick => exact h.working
    · rw [Disk.workingIds, hh]
      exact h.disk.head.trans (Nat.le_add_right _ _)
    · rw [hrec, List.length_append]
      exact Nat.add_le_add_right h.disk.log _

/-- **A move cut off** leaves the directory as it was, but for some of its records, or as it leaves
it when it is through. -/
theorem World.Within.cut {m : Move} (h : w.Within P b r) (hs : w.Synced P)
    (hfit : ∀ op ∈ m.logs w, op.Fits P) (hes : es <+: m.effects P cfg w)
    (hd : (w.disk.performAll P cfg es).Survives d) :
    d.Within P (b + m.seals) (r + (m.logs w).length) := by
  obtain ⟨-, ⟨hh, l, hl, hrec⟩ | ⟨rfl, hh, hrec⟩⟩ := Move.survives hs hfit hes hd
  · refine ⟨?_, ?_⟩
    · rw [Disk.workingIds, hh]
      exact h.disk.head.trans (Nat.le_add_right _ _)
    · rw [hrec, List.length_append]
      exact Nat.add_le_add h.disk.log hl.length_le
  · refine ⟨?_, by rw [hrec]; exact Nat.zero_le _⟩
    rw [Disk.workingIds, hh]
    exact (length_newHead_le w).trans (Nat.add_le_add_right h.working 1)

/-- **Some moves**, one after another. -/
theorem World.Within.moves (h : w.Within P b r) (hs : w.Synced P) (hms : Moves P cfg w ms es w')
    (hfit : Fitting P w ms) (hr : ∀ m ∈ ms, ¬ m.IsRestore) :
    w'.Within P (b + (ms.map Move.seals).sum) (r + (logsOf P cfg w ms).length) := by
  induction hms generalizing b r with
  | nil => exact h
  | cons hm hrest ih =>
    obtain ⟨hm', hr⟩ := List.forall_mem_cons.mp hr
    have h := ih (h.move hs hm hfit.1 hm') (Move.synced hs hfit.1) (hfit.tail _) hr
    rwa [logsOf, List.map_cons, List.sum_cons, List.length_append, ← Nat.add_assoc, ← Nat.add_assoc]

/-- A request adds one segment at most. -/
theorem Request.Makes.seals_le {req : Request} {resp : Response} (h : req.Makes w resp ms) :
    (ms.map Move.seals).sum ≤ 1 := by
  cases h with
  | batch ht =>
    obtain ⟨trigger, ticks, rfl | ⟨tr, message, tag, rfl⟩⟩ := ht.eq_or <;> simp [Move.seals]
  | upsert ht =>
    obtain ⟨trigger, ticks, rfl | ⟨tr, message, tag, rfl⟩⟩ := ht.eq_or <;> simp [Move.seals]
  | _ => simp [Move.seals]

/-! ## One event -/

variable {n n' : Node} {e : Event} {max : ℕ}

/-- What a node has piled up. -/
def Node.Within (P : Platform) (b r : ℕ) : Node → Prop
  | .running w => w.Within P b r
  | .stopped d => d.Within P b r

/-- An event is a request, answered or cut off. -/
def Event.requests : Event → ℕ
  | .call .. | .crash .. => 1
  | _ => 0

/-- How many records an event may log. -/
def Event.writes (cfg : CollectionConfig) : Event → ℕ
  | .call w req _ | .crash w req _ => (req.logs cfg w).length
  | _ => 0

/-- A recovered working set is that of the checkpoint. -/
theorem length_working_recover_le {c : Collection} (hc : d.recover P cfg = some c) :
    c.working.length ≤ d.workingIds.length := by
  obtain ⟨segs, hsegs, rfl⟩ := Disk.of_recover hc
  obtain ⟨hids, -⟩ := Disk.load_eq_some hsegs
  have hnodup : ((segs.filter fun s => s.id ∈ d.workingIds).map SealedSegment.id).Nodup :=
    (hids ▸ d.nodup_named).sublist (List.filter_sublist.map _)
  have hsub : (segs.filter fun s => s.id ∈ d.workingIds).map SealedSegment.id ⊆ d.workingIds := by
    intro id hid
    obtain ⟨s, hs, rfl⟩ := List.mem_map.mp hid
    exact of_decide_eq_true (List.mem_filter.mp hs).2
  rw [Collection.foldl_replay_working]
  exact (List.length_map _).symm.trans_le (hnodup.subperm hsub).length_le

theorem sum_seals_le {m : Move} {ms' : List Move} (h : ms ++ [m] <+: ms') :
    (ms.map Move.seals).sum + m.seals ≤ (ms'.map Move.seals).sum := by
  obtain ⟨rest, rfl⟩ := h
  rw [List.map_append, List.map_append, List.sum_append, List.sum_append, List.map_singleton,
    List.sum_singleton]
  exact Nat.le_add_right _ _

/-- **Some moves, cut off**: some went through, and one was begun. -/
theorem World.Within.moves_cut (h : w.Within P b r) (hs : w.Synced P) {es' : List DiskEffect}
    (hms : Moves P cfg w ms (es ++ es') w') (hfit : Fitting P w ms) (hr : ∀ m ∈ ms, ¬ m.IsRestore)
    (hd : (w.disk.performAll P cfg es).Survives d) :
    d.Within P (b + (ms.map Move.seals).sum) (r + (logsOf P cfg w ms).length) := by
  obtain ⟨ms₁, es₁, w₁, m, es₂, hms₁, hm, rfl, hes, hpre⟩ := hms.of_append
  rw [Disk.performAll_append, ← hms₁.disk_eq] at hd
  rcases hpre with hpre | ⟨rfl, rfl⟩
  · have hfit' := hfit.of_isPrefix hpre
    have hfit₁ := hfit'.of_isPrefix (List.prefix_append _ _)
    have h₁ := h.moves hs hms₁ hfit₁ fun m' hm' => hr m' (hpre.subset (List.mem_append_left _ hm'))
    have hlogs := (logsOf_isPrefix hpre hms₁).length_le
    rw [List.length_append] at hlogs
    refine (h₁.cut (hms₁.invariant synced_keptByMoves hfit₁ hs) (hfit'.of_append hms₁) hes hd).mono
      ?_ ?_
    · rw [Nat.add_assoc]
      exact Nat.add_le_add_left (sum_seals_le hpre) b
    · rw [Nat.add_assoc]
      exact Nat.add_le_add_left hlogs r
  · have hs₁ := hms₁.invariant synced_keptByMoves hfit hs
    exact (h.moves hs hms₁ hfit hr).cut hs₁ (m := .tick _ _) (fun op hop => by cases hop) hes hd

/-- The records a request's moves log are among those it may log. -/
theorem Request.Makes.length_logsOf_le {req : Request} {resp : Response} (h : req.Makes w resp ms)
    (hms : Moves P cfg w ms es w') :
    (Vecvec.logsOf P cfg w ms).length ≤ (req.logs cfg w).length := by
  rw [h.logsOf hms]
  exact (Event.acked_isPrefix w req resp).length_le

/-- **A request, cut off.** -/
theorem World.Within.crash {req : Request} {os : List DurableOp} (h : w.Within P b r)
    (hi : w.Idle) (hs : w.Synced P) (hst : Node.Step P cfg (.running w) (.crash w req os) n)
    (hfit : (Event.crash w req os).Fits P cfg) :
    n.Within P (b + 1) (r + (req.logs cfg w).length) := by
  obtain ⟨d, resp, ms, es, es', w', rfl, hms, hmk, hd, -, -⟩ := hst.of_crash hi
  by_cases hrestore : ∃ v m, ms = [.restore v m]
  · obtain ⟨v, m, rfl⟩ := hrestore
    obtain ⟨-, heff⟩ := hms.of_single
    exact (h.cut hs (m := .restore v m) (fun op hop => by cases hop) ⟨es', heff⟩ hd).mono
      (Nat.le_succ _) (Nat.le_add_right _ _)
  · have hplain : ∀ m ∈ ms, ¬ m.IsRestore := by
      rcases hmk.kinds with ⟨rules, -, rfl⟩ | ⟨v, m, -, rfl⟩ | hplain
      · exact fun m hm => by simp [List.mem_singleton.mp hm, Move.IsRestore]
      · exact absurd ⟨v, m, rfl⟩ hrestore
      · exact fun m hm => (hplain m hm).2
    exact (h.moves_cut hs hms (hmk.fitting hms hfit) hplain hd).mono
      (Nat.add_le_add_left hmk.seals_le b) (Nat.add_le_add_left (hmk.length_logsOf_le hms) r)

/-- **An event** adds a segment at most, if it is a request, and the records it logs. -/
theorem Node.Within.step (h : n.Within P b r) (hn : n.Synced P) (hst : Node.Step P cfg n e n')
    (hfit : e.Fits P cfg) (hr : ¬ e.Restores) :
    n'.Within P (b + e.requests) (r + e.writes cfg) := by
  cases hst with
  | @call w w' req resp hrun =>
    obtain ⟨ms, es, _, hw, hms, hmk⟩ := (Node.Step.call hrun).of_call hn.1
    cases hw
    exact (World.Within.moves h hn.2 hms (hmk.fitting hms hfit) fun m hm hrestore =>
      hr (hmk.restores hm hrestore)).mono (Nat.add_le_add_left hmk.seals_le b)
        (Nat.add_le_add_left (hmk.length_logsOf_le hms) r)
  | crash hst hd => exact World.Within.crash h hn.1 hn.2 (.crash hst hd) hfit
  | stop hd =>
    obtain ⟨hh, hw⟩ := hn.2.settled.survives hd
    exact h.disk.congr hh (Disk.records_congr hh (congrFun hw _))
  | opened hrun =>
    obtain ⟨c, clock, hrec, hw⟩ := (Node.Step.opened hrun).of_opened
    cases hw
    obtain ⟨-, hh, hlog⟩ := (@Disk.Settled.along_open P cfg _ hn).end
    exact ⟨(length_working_recover_le hrec).trans h.head, Disk.Within.congr h hh hlog⟩
  | openCrash hst hd =>
    obtain ⟨_, es, hw, hes, hd⟩ := (Node.Step.openCrash hst hd).of_openCrash
    cases hw
    obtain ⟨hs, hh, hlog⟩ := (@Disk.Settled.along_open P cfg _ hn).upto hes
    obtain ⟨hh', hw'⟩ := hs.survives hd
    exact (Disk.Within.congr h hh hlog).congr hh' (Disk.records_congr hh' (congrFun hw' _))

/-! ## A tick -/

theorem TickMoves.fitting {m : Maintained} {compaction : CompactionTrigger}
    (h : TickMoves m ms compaction) : Fitting P w ms := by
  cases h with
  | due => exact ⟨fun op hop => (by cases hop), by simp [Move.IsLog]⟩
  | quiet => exact ⟨fun op hop => (by cases hop), fun m' hm' => by cases hm'⟩

theorem TickMoves.policy_eq {compaction : CompactionTrigger} (h : TickMoves m ms compaction) :
    compaction.policy = m.compaction.policy := by
  cases h <;> rfl

/-- The trigger does not fire: few segments. -/
theorem CompactionTrigger.lt_or_le_one {e : CompactionTrigger} {k now : ℕ}
    (he : e.policy.maxSegments = some max) (h : e.shouldCompact k now = false) :
    k < max ∨ k ≤ 1 := by
  rcases Nat.lt_or_ge 1 k with hk | hk
  · rw [shouldCompact, if_neg (Nat.not_le_of_lt hk), Bool.or_eq_false_iff, he] at h
    exact .inl (Nat.lt_of_not_le (of_decide_eq_false h.1))
  · exact .inr hk

/-- **A tick ends in the checkpoint** of few segments, and nothing was written before. -/
theorem TickMoves.checkpoint {compaction : CompactionTrigger} (h : TickMoves m ms compaction)
    (he : m.compaction.policy.maxSegments = some max) (hs : m.world.Synced P)
    (hms : Moves P cfg m.world ms es w') :
    ∃ w₁, w₁.Synced P ∧ w₁.disk = m.world.disk ∧ w₁.collection.working.length < Nat.max 2 max ∧
      es = Move.checkpoint.effects P cfg w₁ ∧ w' = Move.checkpoint.result P cfg w₁ := by
  cases h with
  | due =>
    obtain _ | ⟨-, _ | ⟨-, _ | _⟩⟩ := hms
    exact ⟨Move.compact.result P cfg m.world, Move.synced hs (fun op hop => by cases hop), rfl,
      Nat.le_max_left 2 max, List.append_nil _, rfl⟩
  | quiet h =>
    obtain _ | ⟨-, _ | _⟩ := hms
    refine ⟨m.world, hs, rfl, ?_, List.append_nil _, rfl⟩
    rcases CompactionTrigger.lt_or_le_one he h with h | h
    · exact h.trans_le (Nat.le_max_right 2 max)
    · exact (Nat.lt_succ_of_le h).trans_le (Nat.le_max_left 2 max)

/-! ## A collection of a server -/

/-- A collection of a server: running, with its trigger, or a directory. -/
inductive Server
  | running (w : World) (compaction : CompactionTrigger)
  | stopped (d : Disk)

/-- The collection. -/
def Server.node : Server → Node
  | .running w _ => .running w
  | .stopped d => .stopped d

/-- What happens to a collection of a server. -/
inductive ServerEvent
  /-- a request, a crash or a restart -/
  | plain (e : Event)
  /-- a tick of maintenance -/
  | tick
  /-- a tick, cut off after some of its actions -/
  | tickCrash (os : List MaintenanceOp)

variable (P cfg) in
/-- One event.  The trigger is made where the collection is opened, and the clock shows any time. -/
inductive Server.Step (policy : CompactionPolicy) : Server → ServerEvent → Server → Prop
  | called {w w' : World} {compaction : CompactionTrigger} {e : Event}
      (h : Node.Step P cfg (.running w) e (.running w')) :
      Step policy (.running w compaction) (.plain e) (.running w' compaction)
  | stopped {w : World} {compaction : CompactionTrigger} {e : Event} {d : Disk}
      (h : Node.Step P cfg (.running w) e (.stopped d)) :
      Step policy (.running w compaction) (.plain e) (.stopped d)
  | opened {d : Disk} {e : Event} {w : World} {now : ℕ}
      (h : Node.Step P cfg (.stopped d) e (.running w)) :
      Step policy (.stopped d) (.plain e) (.running w (.new policy now))
  | openCrash {d d' : Disk} {e : Event} (h : Node.Step P cfg (.stopped d) e (.stopped d')) :
      Step policy (.stopped d) (.plain e) (.stopped d')
  | tick {w : World} {compaction : CompactionTrigger} {clock : ℕ → ℕ} {m : Maintained}
      (h : run (Maintenance.step P cfg) 0 (Maintenance.tick P cfg) ⟨w, compaction, clock, 0⟩ =
        some ((), m)) :
      Step policy (.running w compaction) .tick (.running m.world m.compaction)
  | tickCrash {w : World} {compaction : CompactionTrigger} {clock : ℕ → ℕ} {m : Maintained}
      {os : List MaintenanceOp} {p : MaintenanceProg Unit} {d : Disk}
      (h : Steps (Maintenance.step P cfg) 0 (Maintenance.tick P cfg) ⟨w, compaction, clock, 0⟩ os p
        m)
      (hd : m.world.disk.Survives d) :
      Step policy (.running w compaction) (.tickCrash os) (.stopped d)

variable (P cfg) in
/-- A history of a collection of a server. -/
inductive Server.Runs (policy : CompactionPolicy) : Server → List ServerEvent → Server → Prop
  | nil (s : Server) : Runs policy s [] s
  | snoc {s s' s'' : Server} {evs : List ServerEvent} {e : ServerEvent}
      (h : Runs policy s evs s') (hs : Server.Step P cfg policy s' e s'') :
      Runs policy s (evs ++ [e]) s''

/-- The records an event logs fit their headers. -/
def ServerEvent.Fits (P : Platform) (cfg : CollectionConfig) : ServerEvent → Prop
  | .plain e => e.Fits P cfg
  | _ => True

/-- An event restores a version. -/
def ServerEvent.Restores : ServerEvent → Prop
  | .plain e => e.Restores
  | _ => False

/-- An event is a request, answered or cut off. -/
def ServerEvent.requests : ServerEvent → ℕ
  | .plain e => e.requests
  | _ => 0

/-- How many records an event may log. -/
def ServerEvent.writes (cfg : CollectionConfig) : ServerEvent → ℕ
  | .plain e => e.writes cfg
  | _ => 0

variable {s s' s'' : Server} {policy : CompactionPolicy} {evs evs' : List ServerEvent}
  {ev : ServerEvent}

/-- Between two events: in step with the log, and the trigger is one of this policy. -/
structure Server.Kept (P : Platform) (policy : CompactionPolicy) (s : Server) : Prop where
  /-- The collection. -/
  synced : s.node.Synced P
  /-- The trigger. -/
  policy_eq : ∀ {w compaction}, s = .running w compaction → compaction.policy = policy

/-- **A tick**: its moves. -/
theorem Server.Step.of_tick {compaction : CompactionTrigger} (hi : w.Idle)
    (hs : Server.Step P cfg policy (.running w compaction) .tick s) :
    ∃ (clock : ℕ → ℕ) (ms : List Move) (es : List DiskEffect) (m' : Maintained),
      s = .running m'.world m'.compaction ∧ Moves P cfg w ms es m'.world ∧
        TickMoves ⟨w, compaction, clock, 0⟩ ms m'.compaction := by
  cases hs with
  | @tick _ _ clock m hrun =>
    obtain ⟨ms, es, m', hp, hms, htick⟩ := @performs_tick P cfg 0 ⟨w, compaction, clock, 0⟩ hi
    obtain ⟨-, rfl⟩ := hp.of_run hrun
    exact ⟨clock, ms, es, _, rfl, hms, htick⟩

/-- **A tick, cut off**: a prefix of the effects of its moves. -/
theorem Server.Step.of_tickCrash {compaction : CompactionTrigger} {os : List MaintenanceOp}
    (hi : w.Idle) (hs : Server.Step P cfg policy (.running w compaction) (.tickCrash os) s) :
    ∃ (clock : ℕ → ℕ) (d : Disk) (ms : List Move) (es es' : List DiskEffect) (m' : Maintained),
      s = .stopped d ∧ Moves P cfg w ms (es ++ es') m'.world ∧
        TickMoves ⟨w, compaction, clock, 0⟩ ms m'.compaction ∧
          (w.disk.performAll P cfg es).Survives d := by
  cases hs with
  | @tickCrash _ _ clock m _ _ d hst hd =>
    obtain ⟨ms, es, m', hp, hms, htick⟩ := @performs_tick P cfg 0 ⟨w, compaction, clock, 0⟩ hi
    obtain ⟨es₁, es₂, rfl, -, hv, -⟩ := hp.of_steps hst
    have hv : m.world.disk = w.disk.performAll P cfg es₁ := hv
    exact ⟨clock, d, ms, es₁, es₂, m', rfl, hms, htick, hv ▸ hd⟩

theorem Server.Kept.step (h : s.Kept P policy) (hs : Server.Step P cfg policy s ev s')
    (hfit : ev.Fits P cfg) : s'.Kept P policy := by
  cases hs with
  | called hs =>
    refine ⟨synced_step h.synced hfit hs, fun heq => ?_⟩
    cases heq
    exact h.policy_eq rfl
  | opened hs =>
    refine ⟨synced_step h.synced hfit hs, fun heq => ?_⟩
    cases heq
    rfl
  | stopped hs | openCrash hs => exact ⟨synced_step h.synced hfit hs, fun heq => by cases heq⟩
  | @tick w compaction _ _ hrun =>
    obtain ⟨hi, hsync⟩ := h.synced
    have hs : Server.Step P cfg policy (.running w compaction) .tick _ := .tick hrun
    obtain ⟨clock, ms, es, m', hs', hms, htick⟩ := hs.of_tick hi
    rw [hs']
    refine ⟨⟨hms.idle hi, hms.invariant synced_keptByMoves htick.fitting hsync⟩, fun heq => ?_⟩
    cases heq
    exact htick.policy_eq.trans (h.policy_eq rfl)
  | @tickCrash w compaction _ _ os _ _ hst hd =>
    obtain ⟨hi, hsync⟩ := h.synced
    have hs : Server.Step P cfg policy (.running w compaction) (.tickCrash os) _ :=
      .tickCrash hst hd
    obtain ⟨clock, _, ms, es, es', m', hs', hms, htick, hd⟩ := hs.of_tickCrash hi
    cases hs'
    obtain ⟨w₁, m₁, es₁, hsync₁, -, hlog, hes, hdisk⟩ :=
      hms.cut synced_keptByMoves htick.fitting hsync
    exact ⟨(Move.survives hsync₁ hlog hes (hdisk ▸ hd)).1, fun heq => by cases heq⟩

/-- **A tick** leaves few segments, and nothing to replay. -/
theorem Server.Kept.tick (h : s.Kept P policy) (hmax : policy.maxSegments = some max)
    (hs : Server.Step P cfg policy s .tick s') : s'.node.Within P (Nat.max 2 max) 0 := by
  cases hs with
  | @tick w compaction _ _ hrun =>
    obtain ⟨hi, hsync⟩ := h.synced
    have hs : Server.Step P cfg policy (.running w compaction) .tick _ := .tick hrun
    obtain ⟨clock, ms, es, m', hs', hms, htick⟩ := hs.of_tick hi
    rw [hs']
    obtain ⟨w₁, hsync₁, -, hlen, -, hw⟩ :=
      htick.checkpoint ((congrArg _ (h.policy_eq rfl)).trans hmax) hsync hms
    rw [Server.node, hw]
    exact hsync₁.within_checkpoint.mono (Nat.succ_le_of_lt hlen) le_rfl

/-- **What an event adds** to what has piled up. -/
theorem Server.Kept.within_step (h : s.Kept P policy) (hmax : policy.maxSegments = some max)
    (hw : s.node.Within P b r) (hb : Nat.max 2 max ≤ b) (hs : Server.Step P cfg policy s ev s')
    (hfit : ev.Fits P cfg) (hr : ¬ ev.Restores) :
    s'.node.Within P (b + ev.requests) (r + ev.writes cfg) := by
  cases hs with
  | called hs | opened hs | stopped hs | openCrash hs => exact hw.step h.synced hs hfit hr
  | tick hrun =>
    obtain ⟨hlen, hdisk⟩ := h.tick hmax (.tick hrun)
    exact ⟨hlen.trans hb, hdisk.mono hb (Nat.zero_le _)⟩
  | @tickCrash w compaction _ _ os _ _ hst hd =>
    obtain ⟨hi, hsync⟩ := h.synced
    have hs : Server.Step P cfg policy (.running w compaction) (.tickCrash os) _ :=
      .tickCrash hst hd
    obtain ⟨clock, _, ms, es, es', m', hs', hms, htick, hd⟩ := hs.of_tickCrash hi
    cases hs'
    obtain ⟨w₁, hsync₁, hdisk, hlen, hes, -⟩ :=
      htick.checkpoint ((congrArg _ (h.policy_eq rfl)).trans hmax) hsync hms
    rw [← show w₁.disk = _ from hdisk] at hd
    obtain ⟨-, ⟨hh, l, hl, hrec⟩ | ⟨-, hh, hrec⟩⟩ :=
      Move.survives hsync₁ (fun op hop => by cases hop) ⟨es', hes⟩ hd
    · refine Disk.Within.congr hw.disk (hh.trans (congrArg _ hdisk)) ?_
      rw [hrec, List.prefix_nil.mp hl, List.append_nil]
      exact congrArg _ hdisk
    · refine ⟨?_, by rw [hrec]; exact Nat.zero_le _⟩
      rw [Disk.workingIds, hh]
      exact (length_newHead_le w₁).trans ((Nat.succ_le_of_lt hlen).trans hb)

/-! ## Every history -/

theorem Server.Runs.kept (h : Server.Runs P cfg policy s evs s') (hs : s.Kept P policy)
    (hfit : ∀ e ∈ evs, e.Fits P cfg) : s'.Kept P policy := by
  induction h with
  | nil => exact hs
  | snoc _ hstep ih =>
    exact (ih fun e he => hfit e (List.mem_append_left _ he)).step hstep
      (hfit _ (List.mem_append_right _ List.mem_cons_self))

/-- What a history adds to what has piled up. -/
theorem Server.Runs.within (h : Server.Runs P cfg policy s evs s') (hs : s.Kept P policy)
    (hmax : policy.maxSegments = some max) (hw : s.node.Within P b r) (hb : Nat.max 2 max ≤ b)
    (hfit : ∀ e ∈ evs, e.Fits P cfg) (hr : ∀ e ∈ evs, ¬ e.Restores) :
    s'.node.Within P (b + (evs.map ServerEvent.requests).sum)
      (r + (evs.map (ServerEvent.writes cfg)).sum) := by
  induction h with
  | nil => exact hw
  | snoc hruns hstep ih =>
    obtain ⟨hfit, hfit'⟩ := List.forall_mem_append.mp hfit
    obtain ⟨hr, hr'⟩ := List.forall_mem_append.mp hr
    have h := (hruns.kept hs hfit).within_step hmax (ih hfit hr)
      (hb.trans (Nat.le_add_right _ _)) hstep (hfit' _ List.mem_cons_self)
      (hr' _ List.mem_cons_self)
    rwa [List.map_append, List.map_append, List.sum_append, List.sum_append, List.map_singleton,
      List.map_singleton, List.sum_singleton, List.sum_singleton, ← Nat.add_assoc, ← Nat.add_assoc]

/-- **What piles up since the last tick.**  Whatever came before, a tick that goes through leaves a
working set of at most two segments, or as many as the trigger's limit, and nothing to replay: then
each request, answered or cut off, adds one segment at most, and a restart replays at most what they
wrote — through crashes, restarts, and further ticks, cut off or not. -/
theorem burden_le (hmax : policy.maxSegments = some max)
    (h : Server.Runs P cfg policy (.stopped .empty) evs s)
    (ht : Server.Step P cfg policy s .tick s')
    (h' : Server.Runs P cfg policy s' evs' s'') (hfit : ∀ e ∈ evs ++ evs', e.Fits P cfg)
    (hr : ∀ e ∈ evs', ¬ e.Restores) :
    s''.node.Within P (Nat.max 2 max + (evs'.map ServerEvent.requests).sum)
      (evs'.map (ServerEvent.writes cfg)).sum := by
  obtain ⟨hfit, hfit'⟩ := List.forall_mem_append.mp hfit
  have hkept := h.kept ⟨Disk.settled_empty, fun heq => by cases heq⟩ hfit
  have hw := h'.within (hkept.step ht trivial) hmax (hkept.tick hmax ht) le_rfl hfit' hr
  rwa [Nat.zero_add] at hw

/-- A history without ticks. -/
theorem Runs.exists_server {evs : List Event} (h : Runs P cfg s.node evs n) :
    ∃ s', Server.Runs P cfg policy s (evs.map .plain) s' ∧ s'.node = n := by
  generalize hn : s.node = n₀ at h
  induction h with
  | nil => exact ⟨s, .nil s, hn⟩
  | @snoc n₁ n₂ _ e _ hstep ih =>
    obtain ⟨s₁, hruns, rfl⟩ := ih
    rw [List.map_append]
    cases s₁ with
    | running w compaction =>
      cases n₂ with
      | running w' => exact ⟨_, .snoc hruns (.called hstep), rfl⟩
      | stopped d => exact ⟨_, .snoc hruns (.stopped hstep), rfl⟩
    | stopped d =>
      cases n₂ with
      | running w' => exact ⟨.running w' (.new policy 0), .snoc hruns (.opened hstep), rfl⟩
      | stopped d' => exact ⟨_, .snoc hruns (.openCrash hstep), rfl⟩

/-- A collection of a server with two segments, running. -/
theorem exists_server_two : ∃ (evs : List ServerEvent) (w : World) (compaction : CompactionTrigger),
    Server.Runs Sample.platform (Sample.config none) ⟨some 2, none⟩ (.stopped .empty) evs
      (.running w compaction) ∧
    (∀ e ∈ evs, e.Fits Sample.platform (Sample.config none)) ∧ w.Idle := by
  obtain ⟨evs, n, hr, hfit, hshows⟩ : ∃ evs n,
      Runs Sample.platform (Sample.config none) (Server.stopped .empty).node evs n ∧
        (∀ e ∈ evs, e.Fits Sample.platform (Sample.config none)) ∧ n.shows 0 = true := by
    refine @Node.Leads.exists_runs Sample.platform (Sample.config none) (.stopped .empty) [.open,
      .call (.upsert [([0], none)]), .call (.commit none none), .call (.upsert [([1], none)]),
      .call (.commit none none)] _ ?_
    decide +kernel
  have hi : n.Idle := hr.idle trivial
  obtain ⟨s, hs, hn⟩ := @Runs.exists_server _ _ _ (.stopped .empty) ⟨some 2, none⟩ _ hr
  cases s with
  | stopped d =>
    rw [← hn] at hshows
    cases hshows
  | running w compaction =>
    rw [← hn] at hi
    refine ⟨_, w, compaction, hs, fun e he => ?_, hi⟩
    obtain ⟨e', he', rfl⟩ := List.mem_map.mp he
    exact hfit e' he'

/-- Then a tick goes through, and a point is deleted. -/
theorem burden_le_sample : ∃ (evs evs' : List ServerEvent) (s s' s'' : Server),
    Server.Runs Sample.platform (Sample.config none) ⟨some 2, none⟩ (.stopped .empty) evs s ∧
    Server.Step Sample.platform (Sample.config none) ⟨some 2, none⟩ s .tick s' ∧
    Server.Runs Sample.platform (Sample.config none) ⟨some 2, none⟩ s' evs' s'' ∧
    (evs'.map ServerEvent.requests).sum = 1 ∧ s''.node.Within Sample.platform 3 1 := by
  obtain ⟨evs, w, compaction, hs, hfit, hi⟩ := exists_server_two
  obtain ⟨ms, es, m, hp, hms, -⟩ :=
    @performs_tick Sample.platform (Sample.config none) 0 ⟨w, compaction, fun _ => 0, 0⟩ hi
  obtain ⟨resp, ms', es', w', hp', -, -⟩ :=
    @Request.performs Sample.platform (Sample.config none) 0 _ (hms.idle hi) (.delete 0)
  have ht : Server.Step Sample.platform (Sample.config none) ⟨some 2, none⟩
    (.running w compaction) .tick (.running m.world m.compaction) := .tick hp.run
  have hcall : Node.Step Sample.platform (Sample.config none) (.running m.world)
    (.call m.world (.delete 0) resp) (.running w') := .call hp'.run
  have h' : Server.Runs Sample.platform (Sample.config none) ⟨some 2, none⟩
    (.running m.world m.compaction) ([] ++ [.plain (.call m.world (.delete 0) resp)])
    (.running w' m.compaction) := .snoc (.nil _) (.called hcall)
  have hfit' : ∀ e ∈ [ServerEvent.plain (.call m.world (.delete 0) resp)],
      e.Fits Sample.platform (Sample.config none) := by
    rw [List.forall_mem_singleton]
    intro op hop
    cases List.mem_singleton.mp hop
    decide +kernel
  have hb := burden_le rfl hs ht h' (List.forall_mem_append.mpr ⟨hfit, hfit'⟩)
    ((List.forall_mem_singleton (p := fun e : ServerEvent => ¬ e.Restores)).mpr id)
  exact ⟨_, _, _, _, _, hs, ht, h', rfl, hb⟩

end Vecvec
