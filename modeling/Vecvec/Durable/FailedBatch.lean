import Vecvec.Durable.Faults
import Vecvec.Durable.Writes

/-!
# Durable/FailedBatch — a batch of writes that fails

`write_batch` returns at the first I/O error.  The records it has appended by then stay in the log,
and so does the version of a commit that could not be persisted; nothing undoes them.
-/

namespace Vecvec

open Machinery DurableOp

variable {P : Platform} {cfg : CollectionConfig} {t : ℕ} {w w' : World} {os : List DurableOp}
  {o : DurableOp} {x : Damage} {ups : List (List F32 × Option Payload)} {dels : List GlobalId}

/-! ## Where a batch fails -/

variable (P cfg) in
/-- The logging of a batch failed when the records `l` were appended: in an append, or in the
flush. -/
inductive LogFailed (w : World) (ops l : List WalOp) : DurableOp → Damage → World → Prop
  | append {op : WalOp} {rest : List WalOp} {x : Damage} {d : Disk} (hops : ops = l ++ op :: rest)
      (hd : (w.disk.performAll P cfg (l.map (.append w.generation))).damaged P cfg
        (.append w.generation op) x = some d) :
      LogFailed w ops l (.walAppend op) x { w with
        disk := d
        collection.nextGlobalId := (l ++ [op]).foldl (bump cfg) w.collection.nextGlobalId }
  | flush {x : Damage} {d : Disk} (hops : l = ops)
      (hd : (w.disk.performAll P cfg (ops.map (.append w.generation))).damaged P cfg
        (.flush w.generation) x = some d) :
      LogFailed w ops l .walFlush x { w with
        disk := d
        collection.nextGlobalId := ops.foldl (bump cfg) w.collection.nextGlobalId }

/-- A process that gives up while it logs a batch is as before, but for its log and its
allocator. -/
theorem World.giveUp_logging (hi : w.Idle) (ops : List WalOp) (n : GlobalId) (l : List GlobalId)
    (d : Disk) : (w.logging P cfg t ops n l).giveUp t d =
      { w with disk := d, collection.nextGlobalId := n } := by
  have hins : Function.update (Function.update w.collection.inserting t l) t [] =
      w.collection.inserting := by
    rw [Function.update_idem, hi.quiet.inserting, Function.update_eq_self_iff]
  simp only [World.giveUp, World.logging, hins, if_pos, ← hi.free]

/-- An append that fails while a batch is logged. -/
theorem LogFailed.of_append {op : WalOp} {l ops : List WalOp} (rest : List WalOp) {n : GlobalId}
    {ids : List GlobalId} (hi : w.Idle) (hops : ops = l ++ op :: rest)
    (hn : n = (l ++ [op]).foldl (bump cfg) w.collection.nextGlobalId)
    (hf : World.fault P cfg t (.walAppend op) x (w.logging P cfg t l n ids) w') :
    LogFailed P cfg w ops l (.walAppend op) x w' := by
  obtain ⟨e, d, he, hd, rfl⟩ := hf
  cases he
  rw [World.giveUp_logging hi, hn]
  exact .append hops hd

/-- A flush that fails once a batch is logged. -/
theorem LogFailed.of_flush {ops : List WalOp} {n : GlobalId} {ids : List GlobalId} (hi : w.Idle)
    (hn : n = ops.foldl (bump cfg) w.collection.nextGlobalId)
    (hf : World.fault P cfg t .walFlush x (w.logging P cfg t ops n ids) w') :
    LogFailed P cfg w ops ops .walFlush x w' := by
  obtain ⟨e, d, he, hd, rfl⟩ := hf
  have heff : DurableOp.effects .walFlush (w.logging P cfg t ops n ids) = [.flush w.generation] :=
    if_pos hi.sync
  cases heff.symm.trans he
  rw [World.giveUp_logging hi, hn]
  exact .flush rfl hd

@[simp] theorem filterMap_record?_append (g : ℕ) (ops : List WalOp) :
    (ops.map (.append g)).filterMap DiskEffect.record? = ops := by
  rw [List.filterMap_map]
  exact List.filterMap_some

/-- Deletes logged by a batch. -/
theorem performs_logging_deletes (ops : List WalOp) (n : GlobalId) (l : List GlobalId) :
    Performs (World.persistence P cfg) t
      (dels.forM fun id => Durable.perform (walAppend (.delete id))) (w.logging P cfg t ops n l)
      ((dels.map .delete).map (.append w.generation)) PUnit.unit
      (w.logging P cfg t (ops ++ dels.map .delete) n l) := by
  have h := @performs_forM_walAppend P cfg t (w.logging P cfg t ops n l) _ dels rfl
  simpa [World.logging] using h

/-- Upserts logged by a batch. -/
theorem performs_logging_upserts (ops : List WalOp) (n : GlobalId) (l : List GlobalId) :
    Performs (World.persistence P cfg) t (Durable.logUpserts ups) (w.logging P cfg t ops n l)
      ((upsertRecords n ups).map (.append w.generation)) (List.range' n ups.length)
      (w.logging P cfg t (ops ++ upsertRecords n ups) (n + ups.length)
        ((List.range' n ups.length).reverse ++ l)) := by
  have h := @performs_logUpserts P cfg t (w.logging P cfg t ops n l) ups
  simpa [World.logging] using h

/-- **A batch fails in its log, or past it.** -/
theorem fails_batch {α : Type} {err : CoreError → DurableProg α}
    {k : List GlobalId → ℕ → DurableProg α} (hi : w.Idle)
    (hdim : ∀ u ∈ ups, u.1.length = cfg.dim) (hg : Fails P cfg t (do
      Durable.perform lockWal
      dels.forM fun id => Durable.perform (walAppend (.delete id))
      let ids ← Durable.logUpserts ups
      Durable.perform walFlush
      let deleted ← Durable.applyDeletes dels
      match ← Durable.applyUpserts cfg (ids.zip ups) with
      | .error e => err e
      | .ok () => k ids deleted) w os o x w') :
    LogFailed P cfg w (batchRecords w.collection.nextGlobalId ups dels) (appended os) o x w' ∨
      ∃ n os', Fails P cfg t (k (List.range' w.collection.nextGlobalId ups.length) n)
        { w.logged P cfg (batchRecords w.collection.nextGlobalId ups dels) with
          walHolder := some t } os' o x w' := by
  have hstart : { w with walHolder := some t } =
      w.logging P cfg t [] w.collection.nextGlobalId [] := by
    rw [World.logging, List.map_nil, Function.update_eq_self_iff.mpr (by rw [hi.quiet.inserting])]
    rfl
  obtain ⟨os₁, hg₁, rfl⟩ := hg.of_perform_bind (if_pos hi.free) fun _ _ => World.not_fault rfl
  rw [hstart] at hg₁
  change LogFailed P cfg w _ (appended os₁) o x w' ∨ _
  rcases fails_bind hg₁ (performs_logging_deletes ..) with hf₁ | ⟨os₂, hg₂, happ₁⟩
  · obtain ⟨ids₁, id, ids₂, rfl, rfl, happ, hf⟩ := fails_forM_walAppend hf₁
    rw [happ]
    refine .inl (.of_append (ids₂.map .delete ++
      upsertRecords w.collection.nextGlobalId ups) hi (by simp [batchRecords]) ?_ hf)
    rw [List.foldl_append, foldl_bump_deletes]
    rfl
  rw [filterMap_record?_append] at happ₁
  rcases fails_bind hg₂ (performs_logging_upserts ..) with hf₂ | ⟨os₃, hg₃, happ₂⟩
  · obtain ⟨ups₁, u, ups₂, l', rfl, rfl, happ, hf⟩ := fails_logUpserts hf₂
    rw [happ₁, happ]
    refine .inl (.of_append (upsertRecords (w.collection.nextGlobalId + ups₁.length + 1) ups₂)
      hi (by simp [batchRecords, upsertRecords_append, upsertRecords]) ?_ hf)
    obtain ⟨hdim₁, hdim₂⟩ := List.forall_mem_append.mp hdim
    rw [List.foldl_append, List.foldl_append, foldl_bump_deletes, foldl_bump_upsertRecords hdim₁]
    exact (bump_upsert (p := u.2) (hdim₂ u List.mem_cons_self)).symm
  rw [filterMap_record?_append] at happ₂
  rw [happ₁, happ₂, ← List.append_assoc]
  rw [List.nil_append, List.append_nil] at hg₃
  rw [Prog.perform_bind] at hg₃
  cases hg₃ with
  | here hf =>
    refine .inl ?_
    rw [appended, List.filterMap_nil, List.append_nil]
    refine .of_flush hi ?_ hf
    rw [batchRecords, List.foldl_append, foldl_bump_deletes, foldl_bump_upsertRecords hdim]
  | later hs hg₄ =>
    rw [World.step_walFlush (by exact hi.sync)] at hs
    cases hs
    set w₁ : World := { w with
      walHolder := some t
      disk := (w.disk.performAll P cfg ((batchRecords w.collection.nextGlobalId ups dels).map
        (.append w.generation))).perform P cfg (.flush w.generation) } with hw₁
    have hlogged : { w.logged P cfg (batchRecords w.collection.nextGlobalId ups dels) with
        walHolder := some t } = { w₁ with
          collection := (batchRecords w.collection.nextGlobalId ups dels).foldl
            (Collection.replay P cfg) w.collection } := by
      rw [World.logged, World.logEffects, Disk.performAll_append]
      rfl
    obtain ⟨n, hdel⟩ := @performs_batchDeletes P cfg t dels w.collection
      (w.collection.nextGlobalId + ups.length)
      (Function.update w.collection.inserting t
        (List.range' w.collection.nextGlobalId ups.length).reverse)
    obtain ⟨os₅, hg₅, -⟩ := fails_bind_silent hg₄ (hdel w₁)
    obtain ⟨os₆, hg₆, -⟩ := fails_bind_silent hg₅ (performs_batchUpserts hi.quiet hdim)
    exact .inr ⟨n, os₆, hlogged ▸ hg₆⟩

/-- A batch applied in memory makes no version: one made behind it is the start's next. -/
theorem CommitFailed.of_versions {w₁ : World}
    (hv : w₁.collection.versions = w.collection.versions) (h : CommitFailed w₁ o w') :
    CommitFailed w o w' :=
  ⟨h.record, h.flush, by rw [h.version, hv]⟩

/-- **A `write_batch` fails in its log, or in a commit.** -/
theorem fails_writeBatch {commit : Option (Option String × Option String)} (hi : w.Idle)
    (hg : Fails P cfg t (Durable.writeBatch cfg ups dels commit) w os o x w') :
    (∀ u ∈ ups, u.1.length = cfg.dim) ∧
      (LogFailed P cfg w (batchRecords w.collection.nextGlobalId ups dels) (appended os) o x w' ∨
        CommitFailed w o w') := by
  unfold Durable.writeBatch at hg
  split at hg
  · exact absurd hg GivesUp.not_ret
  rename_i hfind
  have hdim : ∀ u ∈ ups, u.1.length = cfg.dim := by simpa using hfind
  refine ⟨hdim, ?_⟩
  have hlog : ((Move.log ups dels).result P cfg w).Idle := Move.idle hi _
  rcases fails_batch hi hdim hg with hf | ⟨n, os', hg⟩
  · exact .inl hf
  cases commit with
  | none =>
    obtain ⟨os₁, hg₁, -⟩ := hg.of_perform_bind rfl fun _ _ => World.not_fault rfl
    rcases hg₁.of_bind with hg₂ | ⟨_, _, _, _, -, hg₂, -⟩
    · rw [unlocked_eq (w := w.logged P cfg _) hi.free] at hg₂
      exact .inr ((fails_afterBatch hlog hg₂).of_versions (Collection.foldl_replay_versions _))
    · exact absurd hg₂ GivesUp.not_ret
  | some mt =>
    obtain ⟨message, tag⟩ := mt
    set w₁ : World := { w.logged P cfg (batchRecords w.collection.nextGlobalId ups dels) with
      walHolder := some t } with hw₁
    have hend : ∀ os, ¬ Fails P cfg t (do
        Durable.perform unlockWal
        let version ← Durable.afterBatch (List.range' w.collection.nextGlobalId ups.length).length
          (some w₁.collection.versions.nextVersion)
        pure (Except.ok (⟨List.range' w.collection.nextGlobalId ups.length, n, version⟩ :
          Durable.WriteBatchResult) : Except CoreError Durable.WriteBatchResult))
      ((Move.commit "batch" message tag).result P cfg w₁) os o x w' := by
      intro os₁ hg₁
      obtain ⟨os₂, hg₂, -⟩ := hg₁.of_perform_bind rfl fun _ _ => World.not_fault rfl
      rcases hg₂.of_bind with hg₃ | ⟨_, _, _, _, -, hg₃, -⟩
      · obtain ⟨os₃, hg₄, -⟩ := hg₃.of_perform_bind rfl fun _ _ => World.not_fault rfl
        exact absurd hg₄ GivesUp.not_ret
      · exact absurd hg₃ GivesUp.not_ret
    have hf := fails_commit (by exact hlog.quiet) (by exact hlog.keyed) "batch" message tag hg hend
    exact .inr (hf.of_versions (Collection.foldl_replay_versions _))

/-! ## What a failed batch leaves -/

variable (cfg) in
/-- The bytes hide records at most: with what later writes may append behind them, the allocator
standing at `n`, what is read was appended. -/
def Harmless (P : Platform) (n : GlobalId) (torn : List UInt8) : Prop :=
  ∀ ops : List WalOp, Numbered cfg n ops → (∀ op ∈ ops, op.Fits P) →
    (readRecords P (torn ++ walFrames P ops)).1 <+: ops

theorem harmless_nil (n : GlobalId) : Harmless cfg P n [] := fun ops _ hops => by
  rw [List.nil_append, readRecords_frames hops]

/-- The bytes are none, or those of a frame cut short. -/
def Torn (P : Platform) (torn : List UInt8) : Prop :=
  torn = [] ∨ ∃ op : WalOp, op.Fits P ∧ torn <+: walFrame P op ∧
    torn.length < (walFrame P op).length

theorem Torn.readRecords {torn kept : List UInt8} (h : Torn P torn) (hk : kept <+: torn) :
    (readRecords P kept).1 = [] := by
  rcases h with rfl | ⟨op, hop, hpre, hlt⟩
  · obtain rfl := List.prefix_nil.mp hk
    rfl
  · exact readRecords_of_length_lt hop (hk.trans hpre) (hk.length_le.trans_lt hlt)

/-- **Behind torn bytes that are harmless**, a crash leaves the old records and, of those appended
since, some first ones. -/
theorem World.Behind.records_isPrefix {w₀ : World} {f : WalFile} {torn : List UInt8}
    {ops : List WalOp} {d : Disk} (h : w₀.Behind P cfg ⟨f.durable, torn⟩ ops w)
    (hg : w₀.generation = w₀.disk.generation) (hw : f.Whole P) (hp : f.pending = [])
    (ht : Torn P torn) (hh : Harmless cfg P w₀.collection.nextGlobalId torn)
    (hops : ∀ op ∈ ops, op.Fits P)
    (hd : w.disk.Survives d) : d.head = w₀.disk.head ∧ d.records P <+: f.records P ++ ops := by
  have hb : f.bytes = f.durable := by rw [WalFile.bytes, hp, List.append_nil]
  obtain ⟨hhead, f₁, hf₁, ⟨rfl, kept, hk, rfl⟩ | hb₁⟩ := h.survives hg hd
  · refine ⟨hhead, ?_⟩
    have hr := hw.readRecords_append kept
    rw [ht.readRecords hk, hb] at hr
    rw [Disk.records_eq hf₁, WalFile.records, WalFile.bytes, List.append_nil, hr]
  · refine ⟨hhead, ?_⟩
    have hr := hw.readRecords_append (torn ++ walFrames P ops)
    rw [hb] at hr
    change f₁.bytes = (f.durable ++ torn) ++ walFrames P ops at hb₁
    rw [List.append_assoc] at hb₁
    rw [Disk.records_eq hf₁, WalFile.records, hb₁, hr]
    exact (List.prefix_append_right_inj _).mpr (hh ops h.numbered hops)

variable (P cfg) in
/-- **A call that left no trace**: nothing of it is live, it made no version, and whatever writes
follow, what a crash leaves holds records of theirs and of the time before only. -/
structure Traceless (w w' : World) : Prop where
  /-- None of its upserts or deletes is visible. -/
  liveMap : w'.collection.liveMap = w.collection.liveMap
  /-- It made no version. -/
  versions : w'.collection.versions = w.collection.versions
  /-- None of its records is replayed later. -/
  recovered : ∀ (evs : List Event) (w₁ : World) (d : Disk),
    Runs P cfg (.running w') evs (.running w₁) → (∀ e ∈ evs, e.IsWrite P cfg) →
      w₁.disk.Survives d → d.head = w.disk.head ∧
        d.records P <+: w.disk.records P ++ evs.flatMap (Event.logs cfg)

/-- What is left when every byte is kept. -/
def Disk.allKept (d : Disk) : Disk := { d with wals := fun g => (d.wals g).map fun f =>
    ⟨f.bytes, []⟩ }

theorem Disk.survives_allKept (d : Disk) : d.Survives d.allKept := by
  refine ⟨rfl, rfl, rfl, rfl, fun g => ?_⟩
  cases hg : d.wals g with
  | none => exact .inl ⟨rfl, by simp [allKept, hg]⟩
  | some f =>
    exact .inr ⟨f, ⟨f.bytes, []⟩, rfl, by simp [allKept, hg], f.pending, List.prefix_rfl, rfl⟩

/-- The process, its log file replaced and its allocator moved. -/
def World.relogged (w : World) (f : WalFile) (n : GlobalId) : World :=
  { w with
    disk := w.disk.setWal w.generation (some f)
    collection.nextGlobalId := n }

/-- A batch that left harmless bytes of a torn record, and no record, left no trace. -/
theorem traceless_relogged {f : WalFile} {torn : List UInt8} {n : GlobalId} (hi : w.Idle)
    (hs : w.Synced P) (hf : w.disk.wals w.disk.generation = some f) (hw : f.Whole P)
    (ht : Torn P torn) (hh : Harmless cfg P n torn) :
    Traceless P cfg w (w.relogged ⟨f.durable, torn⟩ n) := by
  refine ⟨rfl, rfl, fun evs w₁ d h hevs hd => ?_⟩
  have hi' : (w.relogged ⟨f.durable, torn⟩ n).Idle :=
    ⟨⟨hi.quiet.1, hi.quiet.2, hi.quiet.3⟩, hi.free, hi.sync, hi.keyed⟩
  have hfile : (w.relogged ⟨f.durable, torn⟩ n).disk.wals w.generation = some ⟨f.durable, torn⟩ :=
    (Disk.setWal_apply ..).trans (if_pos rfl)
  obtain ⟨_, hw₁, hb⟩ := h.behind hi' hfile hevs
  cases hw₁
  have hops : ∀ op ∈ evs.flatMap (Event.logs cfg), op.Fits P := by
    intro op hop
    obtain ⟨e, he, hop⟩ := List.mem_flatMap.mp hop
    have := hevs e he
    cases e with
    | call => exact this.2 op hop
    | _ => exact this.elim
  rw [Disk.records_eq hf]
  exact hb.records_isPrefix hs.generation hw (hs.settled.flushed _ _ hf) ht hh hops hd

/-- Bytes that left no trace are harmless: any records may be appended behind them. -/
theorem Traceless.harmless {f : WalFile} {torn : List UInt8} {n : GlobalId} (hi : w.Idle)
    (hs : w.Synced P) (hf : w.disk.wals w.disk.generation = some f) (hw : f.Whole P)
    (h : Traceless P cfg w (w.relogged ⟨f.durable, torn⟩ n)) : Harmless cfg P n torn := by
  intro ops hn hops
  have hi' : (w.relogged ⟨f.durable, torn⟩ n).Idle :=
    ⟨⟨hi.quiet.1, hi.quiet.2, hi.quiet.3⟩, hi.free, hi.sync, hi.keyed⟩
  have hfile : (w.relogged ⟨f.durable, torn⟩ n).disk.wals w.generation = some ⟨f.durable, torn⟩ :=
    (Disk.setWal_apply ..).trans (if_pos rfl)
  obtain ⟨evs, w₁, hr, hevs, rfl⟩ := exists_writes hi' hfile hn hops
  obtain ⟨hhead, hpre⟩ := h.recovered evs w₁ _ hr hevs (Disk.survives_allKept _)
  obtain ⟨_, hw₁, hb⟩ := hr.behind hi' hfile hevs
  cases hw₁
  obtain ⟨f₁, hf₁, hbytes, -⟩ := hb.log
  have hb : f.bytes = f.durable := by
    rw [WalFile.bytes, hs.settled.flushed _ _ hf, List.append_nil]
  have hkept : w₁.disk.allKept.wals w₁.disk.allKept.generation = some ⟨f₁.bytes, []⟩ := by
    rw [Disk.generation_congr hhead, ← hs.generation]
    exact congrArg (Option.map _) hf₁
  have hread := hw.readRecords_append (torn ++ walFrames P (evs.flatMap (Event.logs cfg)))
  rw [hb, ← List.append_assoc] at hread
  rw [Disk.records_eq hkept, Disk.records_eq hf, WalFile.records, WalFile.bytes, List.append_nil,
    hbytes] at hpre
  change (readRecords P (f.durable ++ torn ++ _)).1 <+: _ at hpre
  rw [hread] at hpre
  exact (List.prefix_append_right_inj _).mp hpre

/-- A batch that left a record did not. -/
theorem not_traceless_relogged {f f' : WalFile} {l : List WalOp} {torn : List UInt8} {n : GlobalId}
    (hs : w.Synced P) (hf : w.disk.wals w.disk.generation = some f) (hw : f.Whole P)
    (hl : ∀ op ∈ l, op.Fits P) (hne : l ≠ [])
    (hb : f'.bytes = f.bytes ++ (walFrames P l ++ torn)) :
    ¬ Traceless P cfg w (w.relogged f' n) := by
  intro h
  obtain ⟨hhead, hpre⟩ := h.recovered [] _ _ (.nil _) (by simp) (Disk.survives_allKept _)
  have hfile : (w.relogged f' n).disk.allKept.wals (w.relogged f' n).disk.allKept.generation =
      some ⟨f'.bytes, []⟩ := by
    rw [Disk.generation_congr hhead, ← hs.generation]
    exact congrArg (Option.map _) ((Disk.setWal_apply ..).trans (if_pos rfl))
  rw [Disk.records_eq hfile, Disk.records_eq hf, WalFile.records, WalFile.bytes,
    List.append_nil, hb,
    hw.readRecords_append, readRecords_frames_append hl, List.flatMap_nil, List.append_nil] at hpre
  have hlen := hpre.length_le
  rw [List.length_append, List.length_append] at hlen
  have hpos := List.length_pos_iff.mpr hne
  omega

theorem Disk.damaged_append {d d' : Disk} {g : ℕ} {op : WalOp} :
    d.damaged P cfg (.append g op) x = some d' ↔ ∃ n, x = .bytes n ∧ n < (walFrame P op).length ∧
      d' = d.setWal g ((d.wals g).map fun f =>
        { f with pending := f.pending ++ (walFrame P op).take n }) := by
  cases x with
  | bytes n =>
    rw [damaged]
    split <;> simp_all [eq_comm]
  | _ => simp [damaged]

theorem Disk.damaged_flush {d d' : Disk} {g : ℕ} :
    d.damaged P cfg (.flush g) x = some d' ↔ ∃ n, x = .bytes n ∧
      d' = d.setWal g ((d.wals g).map fun f =>
        ⟨f.durable ++ f.pending.take n, f.pending.drop n⟩) := by
  cases x <;> simp [damaged, eq_comm]

/-- **What a failed log leaves in the file**: the records appended, and of the one that failed some
bytes. -/
theorem LogFailed.exists_relogged {ops l : List WalOp} {f : WalFile}
    (h : LogFailed P cfg w ops l o x w') (hs : w.Synced P)
    (hf : w.disk.wals w.disk.generation = some f) :
    ∃ f' torn n, w' = w.relogged f' n ∧ l <+: ops ∧
      f'.bytes = f.bytes ++ (walFrames P l ++ torn) ∧ (l = [] → f' = ⟨f.durable, torn⟩) ∧
      (o = .walFlush ∧ torn = [] ∨ ∃ op k, op ∈ ops ∧ o = .walAppend op ∧ x = .bytes k ∧
        torn = (walFrame P op).take k ∧ k < (walFrame P op).length ∧
        n = (l ++ [op]).foldl (bump cfg) w.collection.nextGlobalId) := by
  have hp : f.pending = [] := hs.settled.flushed _ _ hf
  have hfile : (w.disk.performAll P cfg (l.map (.append w.generation))) =
      w.disk.setWal w.generation (some (l.foldl (WalFile.append P) f)) := by
    rw [Disk.performAll_appends, hs.generation, hf, Option.map_some]
  have hself : ∀ f', (w.disk.setWal w.generation (some f')).wals w.generation = some f' :=
    fun f' => (Disk.setWal_apply ..).trans (if_pos rfl)
  have hset : ∀ f' f'' : WalFile, (w.disk.setWal w.generation (some f')).setWal w.generation
      (some f'') = w.disk.setWal w.generation (some f'') := by
    intro f' f''
    rw [Disk.setWal, Disk.setWal, Disk.setWal, Function.update_idem]
  have hb := @WalFile.bytes_foldl_append P l f
  rw [WalFile.bytes] at hb
  cases h with
  | @append op rest x d hops hd =>
    rw [hfile] at hd
    obtain ⟨k, rfl, hk, rfl⟩ := Disk.damaged_append.mp hd
    rw [hself, Option.map_some, hset]
    refine ⟨_, (walFrame P op).take k, _, rfl, ⟨_, hops.symm⟩, ?_, ?_,
      .inr ⟨op, k, by simp [hops], rfl, rfl, rfl, hk, rfl⟩⟩
    · rw [WalFile.bytes, ← List.append_assoc, hb, List.append_assoc]
    · rintro rfl
      rw [List.foldl_nil, hp, List.nil_append]
  | @flush x d hops hd =>
    subst hops
    rw [hfile] at hd
    obtain ⟨k, rfl, rfl⟩ := Disk.damaged_flush.mp hd
    rw [hself, Option.map_some, hset]
    refine ⟨_, [], _, rfl, List.prefix_rfl, ?_, ?_, .inl ⟨rfl, rfl⟩⟩
    · rw [WalFile.bytes, List.append_assoc, List.take_append_drop, hb, List.append_nil]
    · rintro rfl
      rw [List.foldl_nil, hp, List.take_nil, List.drop_nil, List.append_nil]

/-! ## When a failed batch leaves no trace -/

variable (P cfg) in
/-- The call gave up before a record of its was whole in the log — at its first append, or at a
flush with nothing to flush — and what it wrote of that record is harmless. -/
def Unwritten (w : World) (os : List DurableOp) (o : DurableOp) (x : Damage) : Prop :=
  appended os = [] ∧ (o = .walFlush ∨ ∃ op n, o = .walAppend op ∧ x = .bytes n ∧
    Harmless cfg P (bump cfg w.collection.nextGlobalId op) ((walFrame P op).take n))

/-- **When a failed batch leaves no trace.**  In every history whose records fit, a `write_batch`
that fails leaves none exactly if it fails before a record of its is whole in the log, and the bytes
of that record are harmless. -/
theorem Runs.traceless_writeBatch {evs : List Event}
    {commit : Option (Option String × Option String)}
    (h : Runs P cfg (.stopped .empty) evs (.running w)) (hfit : ∀ e ∈ evs, e.Fits P cfg)
    (hops : ∀ op ∈ (Request.writeBatch ups dels commit).logs cfg w, op.Fits P)
    (hf : Fails P cfg 0 (Durable.writeBatch cfg ups dels commit) w os o x w') :
    Traceless P cfg w w' ↔ Unwritten P cfg w os o x := by
  obtain ⟨hi, hs⟩ : w.Idle ∧ w.Synced P := h.synced Disk.settled_empty hfit
  obtain ⟨hdim, hlog | hcommit⟩ := fails_writeBatch hi hf
  · rw [Request.logs, if_pos hdim] at hops
    obtain ⟨f, hfile, hw⟩ := hs.log
    obtain ⟨f', torn, n, rfl, hpre, hb, hnil, hlast⟩ := hlog.exists_relogged hs hfile
    refine ⟨fun ht => ?_, fun hun => ?_⟩
    · have happ : appended os = [] := by
        by_contra hne
        exact not_traceless_relogged hs hfile hw (fun op hop => hops op (hpre.subset hop)) hne hb ht
      obtain rfl := hnil happ
      refine ⟨happ, hlast.imp And.left ?_⟩
      rintro ⟨op, k, -, rfl, rfl, rfl, -, hn⟩
      rw [happ] at hn
      obtain rfl : n = bump cfg w.collection.nextGlobalId op := hn
      exact ⟨op, k, rfl, rfl, ht.harmless hi hs hfile hw⟩
    · obtain ⟨happ, ho⟩ := hun
      obtain rfl := hnil happ
      rcases hlast with ⟨rfl, rfl⟩ | ⟨op, k, hop, rfl, rfl, rfl, hk, hn⟩
      · exact traceless_relogged hi hs hfile hw (.inl rfl) (harmless_nil n)
      · obtain ⟨op', k', ho, hx, hh⟩ := ho.resolve_left (by simp)
        cases ho
        cases hx
        rw [happ] at hn
        obtain rfl : n = bump cfg w.collection.nextGlobalId op := hn
        refine traceless_relogged hi hs hfile hw
          (.inr ⟨op, hops op hop, List.take_prefix _ _, ?_⟩) hh
        exact (List.length_take_le _ _).trans_lt hk
  · refine ⟨fun ht => ?_, fun hun => ?_⟩
    · have hv := hcommit.version
      rw [ht.versions] at hv
      exact absurd hv (Nat.ne_of_lt (Nat.lt_succ_self _))
    · rcases hun.2 with rfl | ⟨op, n, rfl, -⟩
      · exact absurd rfl hcommit.flush
      · exact absurd hcommit.record (by simp [DurableOp.record?])

/-- A delete whose append fails before it writes anything. -/
theorem traceless_writeBatch_sample : ∃ evs w os o w',
    Runs Sample.platform (Sample.config none) (.stopped .empty) evs (.running w) ∧
    Fails Sample.platform (Sample.config none) 0
      (Durable.writeBatch (Sample.config none) [] [0] none) w os o (.bytes 0) w' ∧
    Traceless Sample.platform (Sample.config none) w w' := by
  have h : Breaks Sample.platform (Sample.config none) [.open, .call (.upsert [([0], none)])]
      (Durable.writeBatch (Sample.config none) [] [0] none) 1 (.bytes 0) fun evs w os o w' =>
        (∀ e ∈ evs, e.Fits Sample.platform (Sample.config none)) ∧
        (∀ op ∈ (Request.writeBatch [] [0] none).logs (Sample.config none) w,
          op.Fits Sample.platform) ∧ (appended os).length = 0 ∧ o.record?.isSome := by
    decide +kernel
  obtain ⟨evs, w, os, o, w', hr, hf, hfit, hops, happ, ho⟩ := h.exists_fails
  obtain ⟨op, rfl⟩ : ∃ op, o = .walAppend op := by
    cases o with
    | walAppend op => exact ⟨op, rfl⟩
    | _ => cases ho
  refine ⟨evs, w, os, _, w', hr, hf, (hr.traceless_writeBatch hfit hops hf).mpr ?_⟩
  exact ⟨List.length_eq_zero_iff.mp happ, .inr ⟨op, 0, rfl, rfl, harmless_nil _⟩⟩

/-- **A batch that failed comes back.**  The flush of an upsert fails; a delete that follows is
answered, and flushes it too; after a restart the point is live. -/
theorem exists_failed_live : ∃ evs w os o w' evs' w₂,
    Runs Sample.platform (Sample.config none) (.stopped .empty) evs (.running w) ∧
    Fails Sample.platform (Sample.config none) 0
      (Durable.writeBatch (Sample.config none) [([0], none)] [] none) w os o (.bytes 0) w' ∧
    w'.collection.liveMap 0 = none ∧
    Runs Sample.platform (Sample.config none) (.running w') evs' (.running w₂) ∧
    w₂.collection.liveMap 0 ≠ none := by
  have h : Breaks Sample.platform (Sample.config none) [.open]
      (Durable.writeBatch (Sample.config none) [([0], none)] [] none) 3 (.bytes 0)
      fun _ _ _ _ w' => (w'.collection.liveMap 0).isNone ∧
        Node.Leads Sample.platform (Sample.config none) (.running w')
          [.call (.delete 7), .stop, .open] fun _ n => n.shows 0 := by
    decide +kernel
  obtain ⟨evs, w, os, o, w', hr, hf, hnone, hlater⟩ := h.exists_fails
  obtain ⟨evs', n, hr', hn⟩ := hlater.exists_runs
  cases n with
  | running w₂ =>
    exact ⟨evs, w, os, o, w', evs', w₂, hr, hf, Option.isNone_iff_eq_none.mp hnone, hr',
      Option.isSome_iff_ne_none.mp hn⟩
  | stopped d => cases hn

end Vecvec
