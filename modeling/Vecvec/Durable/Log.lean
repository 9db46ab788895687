import Vecvec.Durable.Runs

/-!
# Durable/Log — the active log

A directory names one generation of the log, and a process appends to that one.  Its file is read
to its end, nothing in it is pending between two requests, and later generations are empty.  So a
crash leaves a prefix of a batch's records, and of a checkpoint either the old log or a new one
without records.
-/

namespace Vecvec

open Machinery

variable {P : Platform} {cfg : CollectionConfig}

/-! ## Effects off the log -/

/-- The effect touches neither `HEAD` nor a log file. -/
def DiskEffect.OffLog : DiskEffect → Prop
  | .writeSegment _ | .removeSegment _ | .writeVersions _ | .writeConfig => True
  | _ => False

/-- The move touches neither `HEAD` nor a log file. -/
def Move.OffLog : Move → Prop
  | .log .. | .checkpoint => False
  | _ => True

/-- What follows the records of a batch stays off the log. -/
theorem BatchTail.offLog {next : VersionId} {fires : Bool}
    {commit : Option (Option String × Option String)} {v : Option VersionId} {ms : List Move}
    (ht : BatchTail next fires commit v ms) : ∀ m ∈ ms, m.OffLog := by
  obtain ⟨trigger, ticks, rfl | ⟨tr, message, tag, rfl⟩⟩ := ht.eq_or <;> simp [Move.OffLog]

theorem Disk.performAll_offLog {es : List DiskEffect} (h : ∀ e ∈ es, e.OffLog) (d : Disk) :
    (d.performAll P cfg es).head = d.head ∧ (d.performAll P cfg es).wals = d.wals := by
  induction es generalizing d with
  | nil => exact ⟨rfl, rfl⟩
  | cons e es ih =>
    obtain ⟨hh, hw⟩ := ih (fun e he => h e (List.mem_cons_of_mem _ he)) (d.perform P cfg e)
    have he := h e List.mem_cons_self
    cases e with
    | writeSegment | removeSegment | writeVersions | writeConfig => exact ⟨hh, hw⟩
    | append | flush | openLog | removeLog | writeHead => exact he.elim

theorem World.offLog_persistEffects (w : World) : ∀ e ∈ w.persistEffects, e.OffLog := by
  intro e he
  rcases List.mem_append.mp he with he | he
  · obtain ⟨s, -, rfl⟩ := List.mem_map.mp he
    trivial
  · rw [List.mem_singleton.mp he]
    trivial

theorem Move.offLog_effects {w : World} {m : Move} (hm : m.OffLog) :
    ∀ e ∈ m.effects P cfg w, e.OffLog := by
  cases m with
  | log | checkpoint => exact hm.elim
  | commit | restore | point => exact World.offLog_persistEffects _
  | compact | tick => exact fun e he => by cases he
  | gc rules =>
    intro e he
    rcases List.mem_append.mp he with he | he
    · obtain ⟨id, -, rfl⟩ := List.mem_map.mp he
      trivial
    · exact World.offLog_persistEffects _ e he

/-! ## Settled directories -/

namespace Disk

variable {d d' : Disk} {es : List DiskEffect} {ops : List WalOp} {f : WalFile}

/-- Between two requests: nothing is pending, and the generations after the active one are empty. -/
structure Settled (d : Disk) : Prop where
  /-- Every log file is flushed. -/
  flushed : ∀ g f, d.wals g = some f → f.pending = []
  /-- A later generation has no records. -/
  later : ∀ g f, d.generation < g → d.wals g = some f → f.durable = []

theorem generation_congr (hh : d'.head = d.head) : d'.generation = d.generation := by
  rw [generation, generation, hh]

theorem Settled.congr (h : d.Settled) (hh : d'.head = d.head) (hw : d'.wals = d.wals) :
    d'.Settled :=
  ⟨by rw [hw]; exact h.flushed, by rw [hw, generation_congr hh]; exact h.later⟩

theorem records_congr (hh : d'.head = d.head) (hw : d'.wals d.generation = d.wals d.generation) :
    d'.records P = d.records P := by
  rw [records, records, generation_congr hh, hw]

/-- The records of a log file that is there. -/
theorem records_eq (hf : d.wals d.generation = some f) : d.records P = f.records P := by
  rw [records, hf, ← WalFile.records_opened f]
  rfl

/-- **A crash between two requests loses nothing.** -/
theorem Settled.survives (h : d.Settled) (hd : d.Survives d') :
    d'.head = d.head ∧ d'.wals = d.wals := by
  obtain ⟨-, hh, -, -, hw⟩ := hd
  refine ⟨hh, funext fun g => ?_⟩
  rcases hw g with ⟨hg, hg'⟩ | ⟨f, f', hg, hg', hs⟩
  · rw [hg, hg']
  · rw [hg, hg', WalFile.survives_of_flushed (h.flushed g f hg) hs]

/-- The next generation, opened, is empty. -/
theorem Settled.opened_next (h : d.Settled) :
    WalFile.opened P (d.wals (d.generation + 1)) = ⟨[], []⟩ := by
  cases hf : d.wals (d.generation + 1) with
  | none => rfl
  | some f =>
    rw [WalFile.opened, WalFile.setLen, h.flushed _ _ hf, h.later _ _ (Nat.lt_succ_self _) hf]
    simp

theorem settled_empty : Disk.empty.Settled :=
  ⟨fun _ _ h => (by cases h), fun _ _ _ h => (by cases h)⟩

/-! ### Records logged -/

theorem performAll_appends (d : Disk) (g : ℕ) (ops : List WalOp) :
    d.performAll P cfg (ops.map (.append g)) =
      d.setWal g ((d.wals g).map fun f => ops.foldl (WalFile.append P) f) := by
  induction ops generalizing d with
  | nil =>
    simp [setWal]
  | cons op ops ih =>
    refine (ih _).trans ?_
    cases hg : d.wals g <;> simp [setWal, perform, hg]

theorem performAll_log (d : Disk) (g : ℕ) (ops : List WalOp) :
    d.performAll P cfg (ops.map (.append g) ++ [.flush g]) =
      d.setWal g ((d.wals g).map fun f => (ops.foldl (WalFile.append P) f).flush) := by
  rw [performAll_append, performAll_appends]
  cases hg : d.wals g <;> simp [setWal, perform]

/-- A file of the log replaced by another. -/
theorem setWal_apply (d : Disk) (g g' : ℕ) (o : Option WalFile) :
    (d.setWal g o).wals g' = if g' = g then o else d.wals g' := Function.update_apply ..

/-- **A log being written, torn**: whatever a crash leaves, a prefix of the new records is read
behind the old ones. -/
theorem Settled.survives_appends (h : d.Settled) (hf : d.wals d.generation = some f)
    (hw : f.Whole P) (hops : ∀ op ∈ ops, op.Fits P)
    (hd : (d.setWal d.generation (some (ops.foldl (WalFile.append P) f))).Survives d') :
    d'.Settled ∧ d'.head = d.head ∧ ∃ l, l <+: ops ∧ d'.records P = d.records P ++ l := by
  obtain ⟨-, hh, -, -, hwals⟩ := hd
  have hh : d'.head = d.head := hh
  obtain ⟨f', hf', hs⟩ : ∃ f', d'.wals d.generation = some f' ∧
      (ops.foldl (WalFile.append P) f).Survives f' := by
    rcases hwals d.generation with ⟨hg, -⟩ | ⟨f₁, f', hg, hg', hs⟩
    · rw [setWal_apply, if_pos rfl] at hg
      cases hg
    · rw [setWal_apply, if_pos rfl] at hg
      cases hg
      exact ⟨f', hg', hs⟩
  have hother : ∀ g, g ≠ d.generation → d'.wals g = d.wals g := by
    intro g hg
    rcases hwals g with ⟨hn, hn'⟩ | ⟨f₁, f₂, hn, hn', hs⟩
    · rw [setWal_apply, if_neg hg] at hn
      rw [hn, hn']
    · rw [setWal_apply, if_neg hg] at hn
      rw [hn, hn', WalFile.survives_of_flushed (h.flushed g f₁ hn) hs]
  refine ⟨⟨fun g f₁ hg => ?_, fun g f₁ hlt hg => ?_⟩, hh, ?_⟩
  · by_cases hgen : g = d.generation
    · subst hgen
      cases hf'.symm.trans hg
      obtain ⟨kept, -, rfl⟩ := hs
      rfl
    · exact h.flushed g f₁ (hother g hgen ▸ hg)
  · rw [generation_congr hh] at hlt
    exact h.later g f₁ hlt (hother g (Nat.ne_of_gt hlt) ▸ hg)
  · obtain ⟨l, hl, hr⟩ := hw.records_survives (h.flushed _ _ hf) hops hs
    refine ⟨l, hl, ?_⟩
    have hgen : d'.wals d'.generation = some f' := by rw [generation_congr hh, hf']
    rw [records_eq hgen, records_eq hf, hr]

/-- **A batch cut off**: what its log effects so far leave, after a crash. -/
theorem Settled.survives_log (h : d.Settled) (hf : d.wals d.generation = some f) (hw : f.Whole P)
    (hops : ∀ op ∈ ops, op.Fits P)
    (hes : es <+: ops.map (.append d.generation) ++ [.flush d.generation])
    (hd : (d.performAll P cfg es).Survives d') :
    d'.Settled ∧ d'.head = d.head ∧ ∃ l, l <+: ops ∧ d'.records P = d.records P ++ l := by
  rcases List.prefix_concat_iff.mp hes with rfl | hes
  · -- All of it is flushed, which a crash cannot tell from a survival of everything.
    rw [performAll_log, hf, Option.map_some] at hd
    refine h.survives_appends hf hw hops ?_
    obtain ⟨hc, hh, hv, hs, hwals⟩ := hd
    refine ⟨hc, hh, hv, hs, fun g => ?_⟩
    have hg := hwals g
    rw [setWal_apply] at hg ⊢
    split at hg
    · rcases hg with ⟨hg, -⟩ | ⟨f₁, f', hg, hg', hsv⟩
      · cases hg
      · cases hg
        refine .inr ⟨_, f', if_pos ‹_›, hg', ?_⟩
        rw [WalFile.survives_of_flushed rfl hsv]
        exact ⟨_, List.prefix_rfl, rfl⟩
    · rwa [if_neg ‹_›]
  · obtain ⟨ops', hpre, rfl⟩ := List.prefix_map_iff.mp hes
    rw [performAll_appends, hf, Option.map_some] at hd
    obtain ⟨hst, hh, l, hl, hr⟩ :=
      h.survives_appends hf hw (fun op ho => hops op (hpre.subset ho)) hd
    exact ⟨hst, hh, l, hl.trans hpre, hr⟩

/-! ### A generation begun -/

/-- A log file replaced by one with nothing pending, and without records if it is a later one. -/
theorem Settled.setWal (h : d.Settled) (g : ℕ) {o : Option WalFile}
    (ho : ∀ f, o = some f → f.pending = [] ∧ (d.generation < g → f.durable = [])) :
    (d.setWal g o).Settled := by
  refine ⟨fun g' f hf => ?_, fun g' f hlt hf => ?_⟩ <;> rw [setWal_apply] at hf <;> split at hf
  · exact (ho f hf).1
  · exact h.flushed g' f hf
  · subst g'
    exact (ho f hf).2 hlt
  · exact h.later g' f hlt hf

/-- `HEAD` swung to a generation that is not an earlier one. -/
theorem Settled.writeHead (h : d.Settled) {head : CheckpointHead}
    (hle : d.generation ≤ head.walGeneration) : ({ d with head := some head } : Disk).Settled :=
  ⟨h.flushed, fun g f hlt => h.later g f (Nat.lt_of_le_of_lt hle hlt)⟩

/-- Where a checkpoint stands: `HEAD` not yet swung, or swung to an empty log. -/
def Swinging (d : Disk) (head : CheckpointHead) (d₁ : Disk) : Prop :=
  d₁.Settled ∧ (d₁.head = d.head ∧ d₁.wals d.generation = d.wals d.generation ∨
    d₁.head = some head ∧ d₁.wals head.walGeneration = some ⟨[], []⟩)

/-- **Along the end of a checkpoint**, `HEAD` names the old log or a new one without records. -/
theorem Settled.along_swing (h : d.Settled) {head : CheckpointHead}
    (hg : head.walGeneration = d.generation + 1) : Along (Disk.perform P cfg) (d.Swinging head)
      [.openLog (d.generation + 1), .writeHead head, .removeLog d.generation] d := by
  have hopen : d.perform P cfg (.openLog (d.generation + 1)) =
      d.setWal (d.generation + 1) (some ⟨[], []⟩) := by rw [perform, h.opened_next]
  have hopened : (d.setWal (d.generation + 1) (some ⟨[], []⟩)).Settled :=
    h.setWal _ fun f hf => (Option.some.inj hf) ▸ ⟨rfl, fun _ => rfl⟩
  have hswung := hopened.writeHead
    (show d.generation ≤ head.walGeneration by rw [hg]; exact Nat.le_succ _)
  have hnew : (d.setWal (d.generation + 1) (some ⟨[], []⟩)).wals head.walGeneration =
      some ⟨[], []⟩ := (setWal_apply ..).trans (if_pos hg)
  refine ⟨⟨h, .inl ⟨rfl, rfl⟩⟩, ?_⟩
  rw [hopen]
  refine ⟨⟨hopened, .inl ⟨rfl, ?_⟩⟩, ⟨hswung, .inr ⟨rfl, hnew⟩⟩, ?_⟩
  · rw [setWal_apply, if_neg (Nat.ne_of_lt (Nat.lt_succ_self _))]
  · refine ⟨hswung.setWal d.generation (fun f hf => by cases hf), .inr ⟨rfl, ?_⟩⟩
    refine (setWal_apply ..).trans ((if_neg ?_).trans hnew)
    rw [hg]
    exact Nat.ne_of_gt (Nat.lt_succ_self _)

end Disk

/-! ## Processes that append to the active log -/

/-- The directory is settled, and the process appends to the log it names. -/
structure World.Synced (P : Platform) (w : World) : Prop where
  /-- The directory is settled. -/
  settled : w.disk.Settled
  /-- The open log is the one the directory names. -/
  generation : w.generation = w.disk.generation
  /-- It is there, and read to its end. -/
  log : ∃ f, w.disk.wals w.disk.generation = some f ∧ f.Whole P

/-- The records a move logs. -/
def Move.logs (w : World) : Move → List WalOp
  | .log ups dels => batchRecords w.collection.nextGlobalId ups dels
  | _ => []

variable {w w' : World} {m : Move} {d : Disk} {es : List DiskEffect}

theorem World.Synced.congr (h : w.Synced P) (hh : w'.disk.head = w.disk.head)
    (hw : w'.disk.wals = w.disk.wals) (hg : w'.generation = w.generation) : w'.Synced P := by
  have hgen := Disk.generation_congr hh
  exact ⟨h.settled.congr hh hw, by rw [hg, hgen, h.generation], by rw [hw, hgen]; exact h.log⟩

theorem Move.result_generation (hm : m.OffLog) :
    (m.result P cfg w).generation = w.generation := by
  cases m with
  | log | checkpoint => exact hm.elim
  | _ => rfl

theorem Move.result_offLog (hm : m.OffLog) :
    (m.result P cfg w).disk.head = w.disk.head ∧ (m.result P cfg w).disk.wals = w.disk.wals := by
  rw [Move.result_disk]
  exact Disk.performAll_offLog (Move.offLog_effects hm) _

theorem Move.logs_offLog (hm : m.OffLog) : m.logs w = [] := by
  cases m with
  | log => exact hm.elim
  | _ => rfl

variable (cfg) in
/-- The directory after a batch. -/
theorem World.Synced.logged_disk (h : w.Synced P) {f : WalFile}
    (hf : w.disk.wals w.disk.generation = some f) (ops : List WalOp) :
    (w.logged P cfg ops).disk =
      w.disk.setWal w.disk.generation (some (ops.foldl (WalFile.append P) f).flush) := by
  rw [World.logged, World.logEffects, h.generation, Disk.performAll_log, hf, Option.map_some]

/-- **Along a checkpoint**, the appendable being sealed, `HEAD` names the old log or a new one
without records. -/
theorem World.Synced.along_checkpoint (h : w.Synced P) :
    Along (Disk.perform P cfg) (w.disk.Swinging w.newHead) w.checkpointEffects w.disk := by
  have hoff : ∀ es, es <+: w.checkpointed.map .writeSegment →
      (w.disk.performAll P cfg es).head = w.disk.head ∧
        (w.disk.performAll P cfg es).wals = w.disk.wals := by
    refine fun es hes => Disk.performAll_offLog (fun e he => ?_) _
    obtain ⟨s, -, rfl⟩ := List.mem_map.mp (hes.subset he)
    trivial
  refine Along.append (along_of_forall_cut fun es hes => ?_) ?_
  · obtain ⟨hh, hw⟩ := hoff es hes
    exact ⟨h.settled.congr hh hw, .inl ⟨hh, by rw [hw]⟩⟩
  · obtain ⟨hh, hw⟩ := hoff _ List.prefix_rfl
    have hgen := Disk.generation_congr hh
    have hswing := @Disk.Settled.along_swing P cfg _ (h.settled.congr hh hw) w.newHead
      (by rw [hgen, ← h.generation]; rfl)
    rw [hgen, ← h.generation] at hswing
    refine hswing.mono fun d hd => ⟨hd.1, ?_⟩
    have hd := hd.2
    rw [hgen, hh, hw] at hd
    exact hd

/-- The directory after a checkpoint. -/
theorem World.Synced.checkpoint_disk (h : w.Synced P) :
    (w.checkpoint P cfg).disk.Settled ∧ (w.checkpoint P cfg).disk.head = some w.newHead ∧
      (w.checkpoint P cfg).disk.wals (w.generation + 1) = some ⟨[], []⟩ := by
  have hhead : (w.checkpoint P cfg).disk.head = some w.newHead := by
    rw [World.checkpoint, World.checkpointEffects, Disk.performAll_append]
    rfl
  obtain ⟨hs, ⟨hh, -⟩ | ⟨-, hw⟩⟩ := (@World.Synced.along_checkpoint P cfg w h).end
  · -- The old `HEAD` names an earlier generation.
    have hgen : w.disk.generation = w.generation + 1 := by
      rw [Disk.generation, ← hhead.symm.trans hh]
      rfl
    rw [h.generation] at hgen
    exact absurd hgen (Nat.ne_of_lt (Nat.lt_succ_self _))
  · exact ⟨hs, hhead, hw⟩

/-- **Every move keeps a process in step with its log.** -/
theorem Move.synced (h : w.Synced P) (hfit : ∀ op ∈ m.logs w, op.Fits P) :
    (m.result P cfg w).Synced P := by
  by_cases hoff : m.OffLog
  · obtain ⟨hh, hw⟩ := @Move.result_offLog P cfg w m hoff
    exact h.congr hh hw (Move.result_generation hoff)
  cases m with
  | log ups dels =>
    obtain ⟨f, hf, hw⟩ := h.log
    have hdisk := h.logged_disk cfg hf (batchRecords w.collection.nextGlobalId ups dels)
    refine ⟨?_, ?_, ?_⟩
    · rw [Move.result, hdisk]
      exact h.settled.setWal _ fun f' hf' => Option.some.inj hf' ▸
        ⟨rfl, fun hlt => absurd hlt (Nat.lt_irrefl _)⟩
    · rw [Move.result, hdisk]
      exact h.generation
    · rw [Move.result, hdisk]
      exact ⟨_, (Disk.setWal_apply ..).trans (if_pos rfl), (hw.foldl_append hfit).flush⟩
  | checkpoint =>
    have hp : (Move.checkpoint.prepare P cfg w).Synced P := h.congr rfl rfl rfl
    obtain ⟨hs, hh, hw⟩ := @World.Synced.checkpoint_disk P cfg _ hp
    have hgen : ((Move.checkpoint.prepare P cfg w).checkpoint P cfg).disk.generation =
        w.generation + 1 := by
      rw [Disk.generation, hh]
      rfl
    exact ⟨hs, hgen.symm, ⟨[], []⟩, hgen ▸ hw, rfl⟩
  | _ => exact absurd trivial hoff

/-- The records of the active log after a move. -/
theorem Move.records_result (h : w.Synced P) (hfit : ∀ op ∈ m.logs w, op.Fits P)
    (hm : m ≠ .checkpoint) : (m.result P cfg w).disk.head = w.disk.head ∧
      (m.result P cfg w).disk.records P = w.disk.records P ++ m.logs w := by
  by_cases hoff : m.OffLog
  · obtain ⟨hh, hw⟩ := @Move.result_offLog P cfg w m hoff
    rw [Move.logs_offLog hoff, List.append_nil]
    exact ⟨hh, Disk.records_congr hh (congrFun hw _)⟩
  cases m with
  | log ups dels =>
    obtain ⟨f, hf, hw⟩ := h.log
    have hdisk := h.logged_disk cfg hf (batchRecords w.collection.nextGlobalId ups dels)
    refine ⟨by rw [Move.result, hdisk]; rfl, ?_⟩
    rw [Move.result, hdisk, Disk.records_eq hf,
      Disk.records_eq ((Disk.setWal_apply ..).trans (if_pos rfl)), WalFile.records_flush]
    exact hw.records_foldl_append hfit
  | checkpoint => exact absurd rfl hm
  | _ => exact absurd trivial hoff

/-- A checkpoint begins a log without records. -/
theorem World.Synced.records_checkpoint (h : w.Synced P) :
    (w.checkpoint P cfg).disk.records P = [] := by
  obtain ⟨-, hh, hw⟩ := @World.Synced.checkpoint_disk P cfg _ h
  have hgen : (w.checkpoint P cfg).disk.generation = w.generation + 1 := by
    rw [Disk.generation, hh]
    rfl
  rw [Disk.records_eq (hgen ▸ hw)]
  rfl

/-- **A move cut off by a crash**: the old `HEAD`, with a prefix of the move's records in its log —
or, of a checkpoint, the new `HEAD` and a log without records. -/
theorem Move.survives (h : w.Synced P) (hfit : ∀ op ∈ m.logs w, op.Fits P)
    (hes : es <+: m.effects P cfg w) (hd : (w.disk.performAll P cfg es).Survives d) :
    d.Settled ∧ ((d.head = w.disk.head ∧
        ∃ l, l <+: m.logs w ∧ d.records P = w.disk.records P ++ l) ∨
      (m = .checkpoint ∧ d.head = some (m.prepare P cfg w).newHead ∧ d.records P = [])) := by
  by_cases hoff : m.OffLog
  · obtain ⟨hh, hw⟩ := @Disk.performAll_offLog P cfg es
      (fun e he => Move.offLog_effects hoff e (hes.subset he)) w.disk
    have hs := h.settled.congr hh hw
    obtain ⟨hh', hw'⟩ := hs.survives hd
    refine ⟨hs.congr hh' hw', .inl ⟨hh'.trans hh, [], List.nil_prefix, ?_⟩⟩
    rw [List.append_nil]
    exact Disk.records_congr (hh'.trans hh) (congrFun (hw'.trans hw) _)
  cases m with
  | log ups dels =>
    obtain ⟨f, hf, hw⟩ := h.log
    rw [Move.effects, World.logEffects, h.generation] at hes
    obtain ⟨hs, hh, l, hl, hr⟩ := h.settled.survives_log hf hw hfit hes hd
    exact ⟨hs, .inl ⟨hh, l, hl, hr⟩⟩
  | checkpoint =>
    have hp : (Move.checkpoint.prepare P cfg w).Synced P := h.congr rfl rfl rfl
    obtain ⟨hs, hat⟩ := (@World.Synced.along_checkpoint P cfg _ hp).upto hes
    obtain ⟨hh', hw'⟩ := hs.survives hd
    refine ⟨hs.congr hh' hw', ?_⟩
    rcases hat with ⟨hh, hw⟩ | ⟨hh, hw⟩
    · refine .inl ⟨hh'.trans hh, [], List.nil_prefix, ?_⟩
      rw [List.append_nil]
      exact Disk.records_congr (hh'.trans hh) ((congrFun hw' _).trans hw)
    · refine .inr ⟨rfl, hh'.trans hh, ?_⟩
      have hgen : d.generation = (Move.checkpoint.prepare P cfg w).newHead.walGeneration := by
        rw [Disk.generation, hh'.trans hh]
        rfl
      rw [Disk.records_eq (f := ⟨[], []⟩) (by rw [hgen, hw', hw])]
      rfl
  | _ => exact absurd trivial hoff

/-! ## Requests -/

/-- **A request cut off** has made some of its moves, and has begun the next — or is through. -/
theorem Moves.of_append {ms : List Move} {es es' : List DiskEffect}
    (h : Moves P cfg w ms (es ++ es') w') :
    ∃ ms₁ es₁ w₁ m es₂, Moves P cfg w ms₁ es₁ w₁ ∧ m.Enabled cfg w₁ ∧ es = es₁ ++ es₂ ∧
      es₂ <+: m.effects P cfg w₁ ∧
      (ms₁ ++ [m] <+: ms ∨ ms₁ = ms ∧ m = .tick w₁.trigger w₁.ticks) := by
  generalize hall : es ++ es' = all at h
  induction h generalizing es with
  | nil w =>
    obtain ⟨rfl, rfl⟩ := List.append_eq_nil_iff.mp hall
    exact ⟨[], [], w, .tick w.trigger w.ticks, [], .nil w, trivial, rfl, List.prefix_rfl,
      .inr ⟨rfl, rfl⟩⟩
  | @cons w w' m ms rest hm hrest ih =>
    rcases List.append_eq_append_iff.mp hall with ⟨t, hes, -⟩ | ⟨t, rfl, ht⟩
    · exact ⟨[], [], w, m, es, .nil w, hm, rfl, ⟨t, hes.symm⟩,
        .inl (List.cons_prefix_cons.mpr ⟨rfl, List.nil_prefix⟩)⟩
    · obtain ⟨ms₁, es₁, w₁, m', es₂, hms, hm', rfl, hes₂, hpre⟩ := ih ht.symm
      refine ⟨m :: ms₁, _, w₁, m', es₂, .cons hm hms, hm', (List.append_assoc ..).symm, hes₂, ?_⟩
      rcases hpre with hpre | ⟨rfl, hm'⟩
      · exact .inl (List.cons_prefix_cons.mpr ⟨rfl, hpre⟩)
      · exact .inr ⟨rfl, hm'⟩

/-- The move is a batch. -/
def Move.IsLog : Move → Prop
  | .log .. => True
  | _ => False

theorem Move.logs_of_not_isLog (hm : ¬ m.IsLog) : m.logs w = [] := by
  cases m with
  | log => exact absurd trivial hm
  | _ => rfl

/-- The moves log records that fit, and only the first of them logs any. -/
def Fitting (P : Platform) (w : World) : List Move → Prop
  | [] => True
  | m :: ms => (∀ op ∈ m.logs w, op.Fits P) ∧ ∀ m' ∈ ms, ¬ m'.IsLog

theorem Fitting.tail {ms : List Move} (h : Fitting P w (m :: ms)) (w' : World) :
    Fitting P w' ms := by
  cases ms with
  | nil => trivial
  | cons m' ms =>
    refine ⟨fun op hop => ?_, fun m'' hm'' => h.2 m'' (List.mem_cons_of_mem _ hm'')⟩
    rw [Move.logs_of_not_isLog (h.2 m' List.mem_cons_self)] at hop
    cases hop

variable (P cfg) in
/-- Every move that can be made, and whose records fit, preserves `I`. -/
def KeptByMoves (I : World → Prop) : Prop :=
  ∀ (w : World) (m : Move), I w → m.Enabled cfg w → (∀ op ∈ m.logs w, op.Fits P) →
    I (m.result P cfg w)

/-- **The run rule**: what every move preserves, a request does. -/
theorem Moves.invariant {I : World → Prop} {ms : List Move} (hstep : KeptByMoves P cfg I)
    (h : Moves P cfg w ms es w') (hfit : Fitting P w ms) (hw : I w) : I w' := by
  induction h with
  | nil => exact hw
  | cons hm _ ih => exact ih (hfit.tail _) (hstep _ _ hw hm hfit.1)

theorem Fitting.of_isPrefix {ms ms' : List Move} (h : Fitting P w ms) (hp : ms' <+: ms) :
    Fitting P w ms' := by
  obtain ⟨rest, rfl⟩ := hp
  cases ms' with
  | nil => trivial
  | cons m ms' => exact ⟨h.1, fun m' hm' => h.2 m' (List.mem_append_left _ hm')⟩

/-- The move a request is cut off in logs records that fit. -/
theorem Fitting.of_append {ms : List Move} (h : Fitting P w (ms ++ [m])) {w₁ : World}
    (hms : Moves P cfg w ms es w₁) : ∀ op ∈ m.logs w₁, op.Fits P := by
  cases hms with
  | nil => exact h.1
  | cons =>
    intro op hop
    rw [Move.logs_of_not_isLog (h.2 m (by simp))] at hop
    cases hop

/-- **The cut rule**: an invariant of the moves holds where the last move before a crash began. -/
theorem Moves.cut {I : World → Prop} {ms : List Move} {es' : List DiskEffect}
    (hstep : KeptByMoves P cfg I) (h : Moves P cfg w ms (es ++ es') w') (hfit : Fitting P w ms)
    (hw : I w) :
    ∃ (w₁ : World) (m : Move) (es₁ : List DiskEffect),
      I w₁ ∧ m.Enabled cfg w₁ ∧ (∀ op ∈ m.logs w₁, op.Fits P) ∧ es₁ <+: m.effects P cfg w₁ ∧
      w.disk.performAll P cfg es = w₁.disk.performAll P cfg es₁ := by
  obtain ⟨ms₁, es₁, w₁, m, es₂, hms, hm, rfl, hes, hpre⟩ := h.of_append
  have hdisk : w.disk.performAll P cfg (es₁ ++ es₂) = w₁.disk.performAll P cfg es₂ := by
    rw [Disk.performAll_append, hms.disk_eq]
  rcases hpre with hpre | ⟨rfl, rfl⟩
  · have hfit' := hfit.of_isPrefix hpre
    exact ⟨w₁, m, es₂, hms.invariant hstep (hfit'.of_isPrefix (List.prefix_append _ _)) hw, hm,
      hfit'.of_append hms, hes, hdisk⟩
  · exact ⟨w₁, _, es₂, hms.invariant hstep hfit hw, hm, fun op hop => (by cases hop), hes, hdisk⟩

/-- The records a request logs: none, if a vector of it has another dimension. -/
def Request.logs (cfg : CollectionConfig) (w : World) : Request → List WalOp
  | .writeBatch ups dels _ =>
    if ∀ u ∈ ups, u.1.length = cfg.dim then batchRecords w.collection.nextGlobalId ups dels else []
  | .upsert points =>
    if ∀ u ∈ points, u.1.length = cfg.dim then batchRecords w.collection.nextGlobalId points []
    else []
  | .delete id => [.delete id]
  | _ => []

theorem BatchTail.not_isLog {next : VersionId} {fires : Bool}
    {commit : Option (Option String × Option String)} {v : Option VersionId} {ms : List Move}
    (ht : BatchTail next fires commit v ms) : ∀ m ∈ ms, ¬ m.IsLog := by
  obtain ⟨trigger, ticks, rfl | ⟨tr, message, tag, rfl⟩⟩ := ht.eq_or <;> simp [Move.IsLog]

/-- **A request logs its records first**, if it logs any. -/
theorem Request.Makes.fitting {r : Request} {resp : Response} {ms : List Move}
    (h : r.Makes w resp ms) (hms : Moves P cfg w ms es w') (hfit : ∀ op ∈ r.logs cfg w, op.Fits P) :
    Fitting P w ms := by
  cases h with
  | failed | compactNone => trivial
  | batch ht =>
    cases hms with
    | cons hm _ =>
      rw [Request.logs, if_pos (by exact hm)] at hfit
      exact ⟨hfit, ht.not_isLog⟩
  | upsert ht =>
    cases hms with
    | cons hm _ =>
      rw [Request.logs, if_pos (by exact hm)] at hfit
      exact ⟨hfit, ht.not_isLog⟩
  | delete => exact ⟨hfit, fun m hm => by cases hm⟩
  | compact => exact ⟨fun op hop => (by cases hop), by simp [Move.IsLog]⟩
  | _ => exact ⟨fun op hop => (by cases hop), fun m hm => by cases hm⟩

/-! ## Histories -/

/-- The records an event logs fit. -/
def Event.Fits (P : Platform) (cfg : CollectionConfig) : Event → Prop
  | .call w r _ | .crash w r _ => ∀ op ∈ r.logs cfg w, op.Fits P
  | _ => True

/-- Between two events: a process in step with its log, or a settled directory. -/
def Node.Synced (P : Platform) : Node → Prop
  | .running w => w.Idle ∧ w.Synced P
  | .stopped d => d.Settled

/-- **Along the opening of a directory**, `HEAD` and the records of its log stay as they are. -/
theorem Disk.Settled.along_open (h : d.Settled) : Along (Disk.perform P cfg)
    (fun d₁ => d₁.Settled ∧ d₁.head = d.head ∧ d₁.records P = d.records P)
    [.writeConfig, .openLog d.generation] d := by
  have hopened :
      (d.setWal d.generation (some (WalFile.opened P (d.wals d.generation)))).Settled := by
    refine h.setWal _ fun f hf => ⟨?_, fun hlt => absurd hlt (Nat.lt_irrefl _)⟩
    cases hf
    cases hg : d.wals d.generation with
    | none => rfl
    | some f => rw [WalFile.opened, WalFile.setLen, h.flushed _ _ hg, List.take_nil]
  refine ⟨⟨h, rfl, rfl⟩, ⟨h.congr rfl rfl, rfl, rfl⟩, hopened.congr rfl rfl, rfl, ?_⟩
  exact Disk.records_eq ((Disk.setWal_apply ..).trans (if_pos rfl))

theorem synced_opened {c : Collection} {clock : ℕ → ℕ} (h : d.Settled) :
    (World.opened P cfg d .sync clock c).Synced P :=
  ⟨(@Disk.Settled.along_open P cfg d h).end.1, rfl, _, (Disk.setWal_apply ..).trans (if_pos rfl),
    WalFile.whole_opened _⟩

/-- A cut of a request, as a crash leaves it. -/
theorem Node.Step.of_crash_fits {r : Request} {os : List DurableOp} {n : Node}
    (hs : Node.Step P cfg (.running w) (.crash w r os) n) (hi : w.Idle) {I : World → Prop}
    (hstep : KeptByMoves P cfg I) (hw : I w) (hfit : (Event.crash w r os).Fits P cfg) :
    ∃ (d : Disk) (w₁ : World) (m : Move) (es₁ : List DiskEffect), n = .stopped d ∧ I w₁ ∧
      m.Enabled cfg w₁ ∧ (∀ op ∈ m.logs w₁, op.Fits P) ∧ es₁ <+: m.effects P cfg w₁ ∧
        (w₁.disk.performAll P cfg es₁).Survives d := by
  obtain ⟨d, resp, ms, es, es', w', rfl, hms, hmk, hd, -, -⟩ := hs.of_crash hi
  obtain ⟨w₁, m, es₁, h₁, hm, hl, hes, hdisk⟩ := hms.cut hstep (hmk.fitting hms hfit) hw
  exact ⟨d, w₁, m, es₁, rfl, h₁, hm, hl, hes, hdisk ▸ hd⟩

theorem synced_keptByMoves : KeptByMoves P cfg (World.Synced P) :=
  fun _ _ hs _ hfit => Move.synced hs hfit

/-- **Every event whose records fit keeps a collection in step with its log.** -/
theorem synced_step {n n' : Node} {e : Event} (hn : n.Synced P) (hfit : e.Fits P cfg)
    (hs : Node.Step P cfg n e n') : n'.Synced P := by
  cases hs with
  | @call w w' r resp hr =>
    obtain ⟨ms, es, _, hw, hms, hmk⟩ := (Node.Step.call hr).of_call hn.1
    cases hw
    exact ⟨hms.idle hn.1, hms.invariant synced_keptByMoves (hmk.fitting hms hfit) hn.2⟩
  | crash hst hsv =>
    obtain ⟨_, w₁, m, es, hw, hs₁, -, hl, hes, hd⟩ :=
      (Node.Step.crash hst hsv).of_crash_fits hn.1 synced_keptByMoves hn.2 hfit
    cases hw
    exact (Move.survives hs₁ hl hes hd).1
  | stop hsv =>
    obtain ⟨hh, hw⟩ := hn.2.settled.survives hsv
    exact hn.2.settled.congr hh hw
  | opened hr =>
    obtain ⟨c, clock, hrec, hw⟩ := (Node.Step.opened hr).of_opened
    cases hw
    exact ⟨idle_opened hrec, synced_opened hn⟩
  | openCrash hst hsv =>
    obtain ⟨_, es, hw, hes, hd⟩ := (Node.Step.openCrash hst hsv).of_openCrash
    cases hw
    obtain ⟨hs, -, -⟩ := (@Disk.Settled.along_open P cfg _ hn).upto hes
    obtain ⟨hh', hw'⟩ := hs.survives hd
    exact hs.congr hh' hw'

/-- **In every history whose records fit**, a running collection is in step with its log. -/
theorem Runs.synced {n n' : Node} {evs : List Event} (h : Runs P cfg n evs n') (hn : n.Synced P)
    (hfit : ∀ e ∈ evs, e.Fits P cfg) : n'.Synced P :=
  @Runs.invariant P cfg (Node.Synced P) (fun e => e.Fits P cfg)
    (fun _ _ _ hn he hs => synced_step hn he hs) _ _ _ h hn hfit

end Vecvec
