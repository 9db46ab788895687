import Vecvec.Durable.Names
import Vecvec.Durable.Script

/-!
# Durable/Adrift — which logs a power loss may take

The log a collection is opened on for the first time is made after the last sync of the directory:
it is adrift, and acked writes with it, until a commit or a checkpoint goes through.  A later
generation is made before the `HEAD` that names it is synced, so it is never adrift unless that
checkpoint dies.  In every history the path of the directory is durable, and so is the name of its
log unless it is adrift (`NameRuns.named`).
-/

namespace Vecvec

open Machinery

variable {P : Platform} {cfg : CollectionConfig} {dir : List FileName} {N N' : DirNames}
  {d d' : Disk} {w w' : World} {b : Bool} {es : List DiskEffect}

/-! ## Requests -/

/-- A move opens no log but the next one. -/
theorem Move.opensAhead (hgen : w.generation = w.disk.generation) (m : Move) :
    OpensAhead P cfg w.disk (m.effects P cfg w) := by
  by_cases hoff : m.OffLog
  · refine opensAhead_of_forall fun e he g heq => ?_
    have := Move.offLog_effects hoff e he
    rw [heq] at this
    exact this
  cases m with
  | log ups dels =>
    refine opensAhead_of_forall fun e he g heq => ?_
    rcases List.mem_append.mp he with he | he
    · obtain ⟨op, -, rfl⟩ := List.mem_map.mp he
      cases heq
    · cases heq.symm.trans (List.mem_singleton.mp he)
  | checkpoint =>
    have hsegs : ∀ e ∈ (Move.checkpoint.prepare P cfg w).checkpointed.map DiskEffect.writeSegment,
        e.OffLog := fun e he => by
      obtain ⟨s, -, rfl⟩ := List.mem_map.mp he
      trivial
    refine OpensAhead.append (opensAhead_of_forall fun e he g heq => ?_) ⟨fun heq => ?_, ?_⟩
    · have := hsegs e he
      rw [heq] at this
      exact this
    · have hnext := DiskEffect.openLog.inj heq
      rw [Disk.generation_congr (Disk.performAll_offLog hsegs w.disk).1, ← hgen] at hnext
      exact absurd hnext (Nat.succ_ne_self _)
    · exact opensAhead_of_forall fun e he g heq => by simp [heq] at he
  | _ => exact absurd trivial hoff

/-- The process and its directory agree on the log, which is there. -/
def World.OnLog (w : World) : Prop :=
  w.generation = w.disk.generation ∧ (w.disk.wals w.disk.generation).isSome

theorem Move.onLog (h : w.OnLog) (m : Move) : (m.result P cfg w).OnLog := by
  obtain ⟨hgen, hlog⟩ := h
  by_cases hoff : m.OffLog
  · obtain ⟨hh, hw⟩ := @Move.result_offLog P cfg w m hoff
    rw [World.OnLog, Disk.generation_congr hh, hw, Move.result_generation hoff]
    exact ⟨hgen, hlog⟩
  cases m with
  | log ups dels =>
    have hdisk : ((Move.log ups dels).result P cfg w).disk = _ :=
      Disk.performAll_log w.disk w.generation
        (batchRecords w.collection.nextGlobalId ups dels)
    have hgen' : ((Move.log ups dels).result P cfg w).disk.generation = w.disk.generation := by
      rw [hdisk]
      rfl
    refine ⟨hgen.trans hgen'.symm, ?_⟩
    rw [hgen', hdisk, Disk.setWal_apply, if_pos hgen.symm, Option.isSome_map, hgen]
    exact hlog
  | checkpoint =>
    have hdisk : (Move.checkpoint.result P cfg w).disk = _ :=
      Disk.performAll_append P cfg w.disk _ _
    have hgen' : (Move.checkpoint.result P cfg w).disk.generation = w.generation + 1 := by
      rw [hdisk]
      rfl
    refine ⟨hgen'.symm, ?_⟩
    have hp : (Move.checkpoint.prepare P cfg w).generation = w.generation := rfl
    rw [hgen', hdisk]
    simp [Disk.perform, Disk.setWal, hp]
  | _ => exact absurd trivial hoff

/-- A sequence of moves opens no log that is active, and ends on its log. -/
theorem Moves.opensAhead {ms : List Move} (h : Moves P cfg w ms es w') (hw : w.OnLog) :
    OpensAhead P cfg w.disk es ∧ w'.OnLog := by
  induction h with
  | nil => exact ⟨trivial, hw⟩
  | cons hm _ ih =>
    obtain ⟨ho, hw'⟩ := ih (Move.onLog hw _)
    rw [Move.result_disk] at ho
    exact ⟨(Move.opensAhead hw.1 _).append ho, hw'⟩

/-- A commit, persisted, writes `versions`. -/
theorem World.any_syncsDir_persistEffects (w : World) :
    w.persistEffects.any DiskEffect.syncsDir = true := by
  rw [World.persistEffects, List.any_append, Bool.or_eq_true]
  exact .inr rfl

/-- The move writes `versions` or `HEAD`. -/
def Move.syncsDir : Move → Bool
  | .log .. | .compact | .tick .. => false
  | _ => true

theorem Move.any_syncsDir_effects {m : Move} (hm : m.syncsDir = true) :
    (m.effects P cfg w).any DiskEffect.syncsDir = true := by
  cases m with
  | log | compact | tick => cases hm
  | commit | restore | point => exact World.any_syncsDir_persistEffects _
  | checkpoint =>
    rw [Move.effects, World.checkpointEffects, List.any_append, Bool.or_eq_true]
    exact .inr rfl
  | gc rules =>
    rw [Move.effects, List.any_append, Bool.or_eq_true]
    exact .inr (World.any_syncsDir_persistEffects _)

theorem Moves.any_syncsDir {ms : List Move} (h : Moves P cfg w ms es w')
    (hms : ms.any Move.syncsDir = true) : es.any DiskEffect.syncsDir = true := by
  induction h with
  | nil => cases hms
  | cons hm _ ih =>
    rw [List.any_append, Bool.or_eq_true]
    rw [List.any_cons, Bool.or_eq_true] at hms
    exact hms.imp Move.any_syncsDir_effects ih

/-- A request said to have written `versions` or `HEAD` has made a move that does. -/
theorem Request.Makes.any_syncsDir {r : Request} {resp : Response} {ms : List Move}
    (h : r.Makes w resp ms) (hs : r.syncsDir w resp = true) : ms.any Move.syncsDir = true := by
  have htail {next : VersionId} {fires : Bool} {commit : Option (Option String × Option String)}
      {v : Option VersionId} {ms : List Move} (ht : BatchTail next fires commit v ms)
      (hf : (commit.isSome || fires) = true) : ms.any Move.syncsDir = true := by
    cases ht with
    | none => cases hf
    | auto | explicit => rfl
  cases h with
  | failed r e => cases r <;> cases hs
  | batch ht => exact Bool.or_eq_true_iff.mpr (.inr (htail ht hs))
  | upsert ht => exact Bool.or_eq_true_iff.mpr (.inr (htail ht (Bool.or_eq_true_iff.mpr (.inr hs))))
  | delete | compactNone => cases hs
  | _ => rfl

theorem DurableOp.any_syncsDir_effects (o : DurableOp) (w : World) :
    (o.effects w).any DiskEffect.syncsDir = o.syncsDir := by
  unfold DurableOp.effects
  split
  case h_2 => split <;> rfl
  all_goals simp_all [DurableOp.syncsDir, DiskEffect.syncsDir]

theorem DurableOp.eq_of_writeHead_mem {o : DurableOp} {w : World} {h : CheckpointHead}
    (hmem : .writeHead h ∈ o.effects w) : o = .writeHead h := by
  unfold DurableOp.effects at hmem
  split at hmem
  case h_2 => split at hmem <;> simp at hmem
  all_goals simp_all

/-! ## Histories -/

/-- The invariant of histories with names. -/
def Node.Named (dir : List FileName) (N : DirNames) (b : Bool) : Node → Prop
  | .running w => w.Idle ∧ w.OnLog ∧ w.disk.Named dir N b
  | .stopped d => d.Named dir N b

/-- **A call stopped anywhere**: its names are those of a prefix of the effects it was to have. -/
theorem Performs.named_of_steps {α : Type} {p p' : DurableProg α} {a : α} {os : List DurableOp}
    {w₁ : World} {N₁ : DirNames}
    (hp : Performs (World.persistence P cfg) 0 p w es a w')
    (hst : Steps (World.named P cfg dir) 0 p (w, N) os p' (w₁, N₁)) :
    ∃ es₁ es₂, es = es₁ ++ es₂ ∧
      Performs ((World.persistence P cfg).shadow (DiskEffect.follow dir)) 0 p' (w₁, N₁) es₂ a
        (w', es.foldl (DiskEffect.follow dir) N) ∧
      w₁.disk = w.disk.performAll P cfg es₁ ∧ N₁ = es₁.foldl (DiskEffect.follow dir) N ∧
      (∀ e ∈ es₁, ∃ o ∈ os, ∃ s : World, e ∈ o.effects s) ∧
      (os.any DurableOp.syncsDir = true → es₁.any DiskEffect.syncsDir = true) := by
  obtain ⟨es₁, es₂, rfl, hp', hv, hes, hos⟩ := (hp.shadow (DiskEffect.follow dir) N).of_steps hst
  have hv : (w₁.disk, N₁) = _ := hv
  rw [Persistence.foldl_shadow] at hv
  refine ⟨es₁, es₂, rfl, hp', congrArg Prod.fst hv, congrArg Prod.snd hv, fun e he => ?_,
    fun hany => ?_⟩
  · obtain ⟨o, ho, s, hs⟩ := hes e he
    exact ⟨o, ho, s.1, hs⟩
  obtain ⟨o, ho, hs⟩ := List.any_eq_true.mp hany
  obtain ⟨s, hs'⟩ := hos o ho
  rw [← DurableOp.any_syncsDir_effects o s.1] at hs
  obtain ⟨e, he, hes⟩ := List.any_eq_true.mp hs
  exact List.any_eq_true.mpr ⟨e, hs' e he, hes⟩

/-- A flag that is cleared only if a sync has been. -/
theorem cleared {x y : Bool} (hxy : x = true → y = true) (hb : (b && !x) = false) :
    (b && !y) = false := by
  cases b <;> cases x <;> simp_all

/-- **A call, answered.** -/
theorem NameStep.named_call {r : Request} {resp : Response}
    (hr : run (World.named P cfg dir) 0 (r.call P cfg) (w, N) = some (resp, (w', N')))
    (h : (Node.running w).Named dir N b) :
    (Node.running w').Named dir N' (b && !r.syncsDir w resp) := by
  obtain ⟨hi, hw, hd⟩ := h
  obtain ⟨resp', ms, es, w'', hp, hm, hmk⟩ := r.performs (P := P) (t := 0) hi
  obtain ⟨rfl, hs⟩ := (hp.shadow (DiskEffect.follow dir) N).of_run hr
  cases hs
  obtain ⟨ho, hw'⟩ := hm.opensAhead hw
  refine ⟨hm.idle hi, hw', ?_⟩
  rw [hm.disk_eq]
  exact (hd.performAll ho).mono (cleared fun hs => hm.any_syncsDir (hmk.any_syncsDir hs))

/-- **A call cut off**, between two actions. -/
theorem NameStep.named_crash {r : Request} {os : List DurableOp} {p : DurableProg Response}
    (hst : Steps (World.named P cfg dir) 0 (r.call P cfg) (w, N) os p (w', N'))
    (h : (Node.running w).Named dir N b) :
    w'.disk.Named dir N' (b && !os.any DurableOp.syncsDir) := by
  obtain ⟨hi, hw, hd⟩ := h
  obtain ⟨resp, ms, es, w'', hp, hm, -⟩ := r.performs (P := P) (t := 0) hi
  obtain ⟨es₁, es₂, rfl, -, hdisk, rfl, -, hos⟩ := Performs.named_of_steps hp hst
  rw [hdisk]
  exact (hd.performAll (hm.opensAhead hw).1.of_append.1).mono (cleared hos)

/-- **A call cut off inside an action.** -/
theorem Disk.Named.torn_effects {w₁ : World} {N₁ : DirNames} {o : DurableOp} {x : o.Ret}
    (hd : w₁.disk.Named dir N₁ b) (ho : OpensAhead P cfg w₁.disk (o.effects w₁))
    (hs : World.step P cfg 0 o w₁ = some (x, w')) (hhead : ∀ h, o = .writeHead h → b = true) :
    w'.disk.Named dir ((o.effects w₁).foldl (DiskEffect.followTorn dir) N₁) b := by
  have hdisk : w'.disk = w₁.disk.performAll P cfg (o.effects w₁) :=
    (World.persistence P cfg).view_step hs
  rw [hdisk]
  match he : o.effects w₁ with
  | [] => exact hd
  | [e] =>
    rw [he] at ho
    refine hd.performTorn ho.1 fun h heq => hhead h (DurableOp.eq_of_writeHead_mem (w := w₁) ?_)
    rw [he, heq]
    exact List.mem_singleton_self _
  | _ :: _ :: _ =>
    have := o.length_effects_le_one w₁
    simp [he] at this

theorem NameStep.named_torn {r : Request} {os : List DurableOp} {o : DurableOp} {x : o.Ret}
    {k : o.Ret → DurableProg Response} {w₁ : World} {N₁ : DirNames}
    (hst : Steps (World.named P cfg dir) 0 (r.call P cfg) (w, N) os (.act o k) (w₁, N₁))
    (hs : World.step P cfg 0 o w₁ = some (x, w')) (h : (Node.running w).Named dir N b) :
    w'.disk.Named dir ((o.effects w₁).foldl (DiskEffect.followTorn dir) N₁)
      (NameEvent.adrift b (.torn w r os o)) := by
  obtain ⟨hi, hw, hd⟩ := h
  obtain ⟨resp, ms, es, w'', hp, hm, -⟩ := r.performs (P := P) (t := 0) hi
  obtain ⟨es₁, es₂, rfl, hp', hdisk, rfl, -, hos⟩ := Performs.named_of_steps hp hst
  obtain ⟨ho, ho'⟩ := (hm.opensAhead hw).1.of_append
  have hd₁ := (hd.performAll ho).mono (cleared hos)
  rw [← hdisk] at hd₁ ho'
  have hnext : OpensAhead P cfg w₁.disk (o.effects w₁) := by
    cases hp' with
    | act => exact ho'.of_append.1
  refine (hd₁.mono ?_).torn_effects hnext hs ?_
  · cases o with
    | writeHead | writeVersions => exact fun hf => Bool.noConfusion hf
    | _ => exact id
  · rintro h rfl
    rfl

/-- Opening a log syncs nothing. -/
theorem DiskEffect.followTorn_openLog (g : ℕ) :
    DiskEffect.followTorn dir N (.openLog g) = DiskEffect.follow dir N (.openLog g) := by
  have hmk : ∀ op ∈ (NameOp.createDirAll dir ++ [.create (walPath dir g)] : List DirOp),
      !op.isSync := by
    intro op hop
    rcases List.mem_append.mp hop with hop | hop
    · obtain ⟨q, -, rfl⟩ := NameOp.of_mem_createDirAll hop
      rfl
    · rw [List.mem_singleton.mp hop]
      rfl
  rw [DiskEffect.followTorn, DiskEffect.nameOps, List.filter_eq_self.mpr hmk]
  rfl

/-- **Along an open**: the config is written, and the log opened. -/
theorem Disk.Named.along_open (h : d.Named dir N b)
    (hes : es <+: [.writeConfig, .openLog d.generation]) :
    (d.performAll P cfg es).Named dir (es.foldl (DiskEffect.follow dir) N)
      (b || (d.wals d.generation).isNone) := by
  have hor : (b || (d.wals d.generation).isNone) = false → b = false := fun hb =>
    (Bool.or_eq_false_iff.mp hb).1
  have hconfig : (d.perform P cfg .writeConfig).Named dir
    (DiskEffect.follow dir N .writeConfig) b :=
    (h.perform (by simp)).mono fun hb => by simp [hb]
  match es, hes with
  | [], _ => exact h.mono hor
  | [e], hes =>
    obtain rfl : e = .writeConfig := by simpa using hes
    exact hconfig.mono hor
  | [e, e'], hes =>
    obtain ⟨rfl, rfl⟩ : e = .writeConfig ∧ e' = .openLog d.generation := by simpa using hes
    exact hconfig.openActive P cfg
  | _ :: _ :: _ :: _, hes => simp at hes

/-- …or cut off inside one of the two. -/
theorem Disk.Named.along_open_torn (h : d.Named dir N b) {e : DiskEffect}
    (hes : es ++ [e] <+: [.writeConfig, .openLog d.generation]) :
    ((d.performAll P cfg es).perform P cfg e).Named dir
      (e.followTorn dir (es.foldl (DiskEffect.follow dir) N))
      (b || (d.wals d.generation).isNone) := by
  match es, hes with
  | [], hes =>
    obtain rfl : e = .writeConfig := by simpa using hes
    exact (h.performTorn (by simp) (by simp)).mono fun hb => (Bool.or_eq_false_iff.mp hb).1
  | [e₁], hes =>
    obtain ⟨rfl, rfl⟩ : e₁ = .writeConfig ∧ e = .openLog d.generation := by simpa using hes
    rw [DiskEffect.followTorn_openLog]
    exact h.along_open List.prefix_rfl
  | _ :: _ :: _, hes => simp at hes

/-- What an open does, at most. -/
theorem exists_performs_open {clock : ℕ → ℕ} : ∃ es r w', Performs (World.persistence P cfg) 0
    (Durable.openCollection cfg) (.boot d cfg .sync clock) es r w' ∧
      es <+: [.writeConfig, .openLog d.generation] := by
  cases hc : d.recover P cfg with
  | some c => exact ⟨_, _, _, performs_open hc, List.prefix_rfl⟩
  | none =>
    obtain ⟨e, w', hp⟩ := @performs_open_error P cfg 0 d .sync clock hc
    exact ⟨_, _, _, hp, List.prefix_append _ [_]⟩

/-- **An open stopped anywhere**, between two actions or inside one. -/
theorem NameStep.named_open {clock : ℕ → ℕ} {os : List DurableOp}
    {p : DurableProg (Except CoreError Unit)} {w₁ : World} {N₁ : DirNames}
    (hst : Steps (World.named P cfg dir) 0 (Durable.openCollection cfg)
      (.boot d cfg .sync clock, N) os p (w₁, N₁)) (h : d.Named dir N b) :
    w₁.disk.Named dir N₁ (b || (d.wals d.generation).isNone) ∧
      ∀ o k x w', p = .act o k → World.step P cfg 0 o w₁ = some (x, w') →
        w'.disk.Named dir ((o.effects w₁).foldl (DiskEffect.followTorn dir) N₁)
          (b || (d.wals d.generation).isNone) := by
  obtain ⟨es, r, w'', hp, hes⟩ := @exists_performs_open P cfg d clock
  obtain ⟨es₁, es₂, rfl, hp', hdisk, rfl, -, -⟩ := Performs.named_of_steps hp hst
  have hdisk : w₁.disk = d.performAll P cfg es₁ := hdisk
  refine ⟨hdisk ▸ h.along_open ((List.prefix_append _ _).trans hes), fun o k x w' hpk hs => ?_⟩
  have hw' : w'.disk = w₁.disk.performAll P cfg (o.effects w₁) :=
    (World.persistence P cfg).view_step hs
  have hnext : es₁ ++ o.effects w₁ <+: [.writeConfig, .openLog d.generation] := by
    subst hpk
    cases hp' with
    | act hs' rest =>
      exact ((List.prefix_append_right_inj _).mpr (List.prefix_append _ _)).trans hes
  rw [hw', hdisk]
  match he : o.effects w₁ with
  | [] => exact h.along_open ((List.prefix_append _ _).trans hes)
  | [e] => exact h.along_open_torn (he ▸ hnext)
  | _ :: _ :: _ =>
    have := o.length_effects_le_one w₁
    simp [he] at this

/-- **One event keeps the invariant.** -/
theorem NameStep.named {n n' : Node × DirNames} {e : NameEvent}
    (hs : NameStep P cfg dir n e n') (h : n.1.Named dir n.2 b) :
    n'.1.Named dir n'.2 (e.adrift b) := by
  cases hs with
  | call hr => exact NameStep.named_call hr h
  | crash hst hd => exact (NameStep.named_crash hst h).survives hd
  | torn hst hs hd => exact (NameStep.named_torn hst hs h).survives hd
  | stop hd => exact h.2.2.survives hd
  | @opened d w N N' clock hr =>
    obtain ⟨c, hc⟩ : ∃ c, d.recover P cfg = some c := by
      cases hc : d.recover P cfg with
      | some c => exact ⟨c, rfl⟩
      | none =>
        obtain ⟨e, w', hp⟩ := @performs_open_error P cfg 0 d .sync clock hc
        obtain ⟨h', -⟩ := (hp.shadow (DiskEffect.follow dir) _).of_run hr
        cases h'
    obtain ⟨-, hw⟩ := ((performs_open hc).shadow (DiskEffect.follow dir) _).of_run hr
    cases hw
    refine ⟨idle_opened hc, ⟨rfl, ?_⟩, h.createDirAll.along_open List.prefix_rfl⟩
    change (((d.perform P cfg .writeConfig).perform P cfg (.openLog d.generation)).wals
      d.generation).isSome
    exact (Disk.isSome_wals_perform d.generation).mpr (.inl rfl)
  | openCrash hst hd => exact (NameStep.named_open hst h.createDirAll).1.survives hd
  | tornOpen hst hs hd =>
    exact ((NameStep.named_open hst h.createDirAll).2 _ _ _ _ rfl hs).survives hd
  | powerLoss hd => exact h.powerLoss hd

/-- **A history with names keeps the invariant.** -/
theorem NameRuns.named {n n' : Node × DirNames} {evs : List NameEvent}
    (h : NameRuns P cfg dir n evs n') (hn : n.1.Named dir n.2 false) :
    n'.1.Named dir n'.2 (adriftAfter evs) := by
  induction h with
  | nil => exact hn
  | snoc _ hs ih =>
    rw [adriftAfter, List.foldl_append]
    exact hs.named ih

/-- The directory of a collection that was never opened. -/
theorem named_empty (hpath : N.Durable dir) (hnew : ∀ g, walPath dir g ∉ N.made) :
    Disk.empty.Named dir N false :=
  ⟨hpath, fun g => iff_of_false (by simp [Disk.empty]) (hnew g), fun _ h => absurd h (hnew _)⟩

end Vecvec
