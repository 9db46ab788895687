import Vecvec.Durable.Alone

/-!
# Durable/Requests — the requests of a client, and the moves each one makes

`Request.performs` is the specification every history of requests is built on: run alone, a request
makes some moves, one after another, and its answer says which.
-/

namespace Vecvec

open Machinery DurableOp

/-! ## Requests -/

/-- A request to a durable collection. -/
inductive Request
  | writeBatch (upserts : List (List F32 × Option Payload)) (deletes : List GlobalId)
      (commit : Option (Option String × Option String))
  | upsert (points : List (List F32 × Option Payload))
  | delete (id : GlobalId)
  | commit (message tag : Option String)
  | restore (v : VersionId)
  | createTag (name : String) (v : VersionId)
  | createBranch (name : String) (v : VersionId)
  | checkpoint
  | compact
  | gc (rules : RetentionRules)

/-- What a request is answered with. -/
inductive Response
  | batch (r : Durable.WriteBatchResult)
  | ids (ids : List GlobalId)
  | deleted (newly : Bool)
  | version (v : VersionId)
  | compacted (id : Option SegmentId)
  | collected (ids : List SegmentId)
  | done
  | failed (e : CoreError)

/-- The answer of a call that may fail. -/
def Response.ofExcept {α : Type} (ok : α → Response) : Except CoreError α → Response
  | .ok a => ok a
  | .error e => .failed e

/-- The call a request makes. -/
def Request.call (P : Platform) (cfg : CollectionConfig) : Request → DurableProg Response
  | .writeBatch ups dels explicit => do
    return .ofExcept .batch (← Durable.writeBatch cfg ups dels explicit)
  | .upsert points => do return .ofExcept .ids (← Durable.upsert cfg points)
  | .delete id => do return .deleted (← Durable.delete id)
  | .commit message tag => do return .version (← Durable.commit message tag)
  | .restore v => do return .ofExcept .version (← Durable.restore v)
  | .createTag name v => do return .ofExcept (fun _ => .done) (← Durable.createTag name v)
  | .createBranch name v => do return .ofExcept (fun _ => .done) (← Durable.createBranch name v)
  | .checkpoint => do
    Durable.checkpoint
    return .done
  | .compact => do return .compacted (← Durable.compact P cfg)
  | .gc rules => do return .collected (← Durable.gc rules)

/-- Whether `n` more writes fire the automatic commit. -/
def World.fires (w : World) (n : ℕ) : Bool := (w.trigger.recordWrites n).shouldCommit w.now

/-- The moves that follow the records of a batch: an explicit commit, an automatic one if the
trigger fires, or none. -/
inductive BatchTail (next : VersionId) :
    Bool → Option (Option String × Option String) → Option VersionId → List Move → Prop
  | none (trigger : TriggerEvaluator) (ticks : ℕ) :
      BatchTail next false none none [.tick trigger ticks]
  | auto (trigger : TriggerEvaluator) (ticks : ℕ) :
      BatchTail next true none (some next) [.commit "auto" none none, .tick trigger ticks]
  | explicit (fires : Bool) (message tag : Option String) (trigger : TriggerEvaluator)
      (ticks : ℕ) : BatchTail next fires (some (message, tag)) (some next)
        [.commit "batch" message tag, .tick trigger ticks]

/-- A batch's records are followed by at most one commit. -/
theorem BatchTail.eq_or {next : VersionId} {fires : Bool}
    {commit : Option (Option String × Option String)} {v : Option VersionId} {ms : List Move}
    (ht : BatchTail next fires commit v ms) : ∃ trigger ticks, ms = [.tick trigger ticks] ∨
      ∃ tr message tag, ms = [.commit tr message tag, .tick trigger ticks] := by
  cases ht with
  | none trigger ticks => exact ⟨trigger, ticks, .inl rfl⟩
  | auto trigger ticks => exact ⟨trigger, ticks, .inr ⟨_, _, _, rfl⟩⟩
  | explicit _ message tag trigger ticks => exact ⟨trigger, ticks, .inr ⟨_, _, _, rfl⟩⟩

/-- The moves a request makes, with its answer. -/
inductive Request.Makes (w : World) : Request → Response → List Move → Prop
  | failed (r : Request) (e : CoreError) : Makes w r (.failed e) []
  | batch {ups : List (List F32 × Option Payload)} {dels : List GlobalId}
      {commit : Option (Option String × Option String)} {n : ℕ} {v : Option VersionId}
      {ms : List Move}
      (ht : BatchTail w.collection.versions.nextVersion (w.fires ups.length) commit v ms) :
      Makes w (.writeBatch ups dels commit)
        (.batch ⟨List.range' w.collection.nextGlobalId ups.length, n, v⟩) (.log ups dels :: ms)
  | upsert {points : List (List F32 × Option Payload)} {v : Option VersionId} {ms : List Move}
      (ht : BatchTail w.collection.versions.nextVersion (w.fires points.length) none v ms) :
      Makes w (.upsert points) (.ids (List.range' w.collection.nextGlobalId points.length))
        (.log points [] :: ms)
  | delete (id : GlobalId) (newly : Bool) : Makes w (.delete id) (.deleted newly) [.log [] [id]]
  | commit (message tag : Option String) :
      Makes w (.commit message tag) (.version w.collection.versions.nextVersion)
        [.commit "manual" message tag]
  | restore (v : VersionId) (m : Manifest) :
      Makes w (.restore v) (.version w.collection.versions.nextVersion) [.restore v m]
  | createTag (name : String) (v : VersionId) (versions : VersionStore) :
      Makes w (.createTag name v) .done [.point versions]
  | createBranch (name : String) (v : VersionId) (versions : VersionStore) :
      Makes w (.createBranch name v) .done [.point versions]
  | checkpoint : Makes w .checkpoint .done [.checkpoint]
  | compactNone : Makes w .compact (.compacted none) []
  | compact (id : SegmentId) : Makes w .compact (.compacted (some id)) [.compact, .checkpoint]
  | gc (rules : RetentionRules) (ids : List SegmentId) :
      Makes w (.gc rules) (.collected ids) [.gc rules]

section

variable {P : Platform} {cfg : CollectionConfig} {t : ℕ} {w : World}

/-- **Every move leaves the process idle.** -/
theorem Move.idle (hi : w.Idle) (m : Move) : (m.result P cfg w).Idle := by
  obtain ⟨hq, hf, hs, hk⟩ := hi
  cases m with
  | log ups dels => exact ⟨hq.foldl_replay _, hf, hs, hk.foldl_replay _⟩
  | commit trigger message tag => exact ⟨hq.commitNow, hf, hs, hk.commitNow⟩
  | restore v m => exact ⟨hq.restoreNow, hf, hs, hk.restoreNow⟩
  | point vs => exact ⟨⟨hq.1, hq.2, hq.3⟩, hf, hs, hk⟩
  | compact => exact ⟨hq.compactNow, hf, hs, hk.compactNow⟩
  | checkpoint => exact ⟨hq.sealNow, hf, hs, hk.sealNow⟩
  | gc rules => exact ⟨hq.gcNow, hf, hs, hk.gcNow⟩
  | tick trigger ticks => exact ⟨hq, hf, hs, hk⟩

theorem Moves.idle {w' : World} {ms : List Move} {es : List DiskEffect} (hi : w.Idle)
    (h : Moves P cfg w ms es w') : w'.Idle := by
  induction h with
  | nil => exact hi
  | cons _ _ ih => exact ih (Move.idle hi _)

theorem Moves.tick {w' : World} {ms : List Move} {es : List DiskEffect}
    (h : Moves P cfg w ms es w') (trigger : TriggerEvaluator) (ticks : ℕ) :
    Moves P cfg w (ms ++ [.tick trigger ticks]) es
      { w' with trigger := trigger, ticks := ticks } := by
  have := h.append (.single (m := .tick trigger ticks) trivial)
  rwa [Move.effects, List.append_nil] at this

/-- The bookkeeping after a batch: an automatic commit, or none. -/
theorem performs_afterBatch_none {n : ℕ} (hi : w.Idle) :
    ∃ v ms es w', Performs (World.persistence P cfg) t (Durable.afterBatch n none) w es v w' ∧
      Moves P cfg w ms es w' ∧
      BatchTail w.collection.versions.nextVersion (w.fires n) none v ms := by
  cases hf : w.fires n with
  | false =>
    exact ⟨none, _, _, _, performs_afterBatch_quiet hf, .single (m := .tick _ _) trivial,
      .none _ _⟩
  | true =>
    exact ⟨_, _, _, _, performs_afterBatch_fire hi hf,
      (Moves.single (m := .commit "auto" none none) trivial).tick _ _, .auto _ _⟩

/-- A commit, persisted, before the end of a call. -/
theorem performs_commit {α : Type} {f : VersionId → DurableProg α} {a : α} {w' : World}
    (hq : w.collection.Quiet) (hk : w.collection.Keyed) (trigger : String)
    (message tag : Option String)
    (hf : Performs (World.persistence P cfg) t (f w.collection.versions.nextVersion)
      ((Move.commit trigger message tag).result P cfg w) [] a w') :
    Performs (World.persistence P cfg) t (do
        let v ← Durable.inMemory (Collection.commit trigger message tag)
        Durable.persistVersions
        f v) w ((Move.commit trigger message tag).effects P cfg w) a w' := by
  refine (performs_inMemory (Collection.run_commit (by rw [hq.sealing]))).bind_silent ?_
  exact (performs_persistVersions hk.commitNow).then_silent hf

theorem performs_writeBatch {ups : List (List F32 × Option Payload)} {dels : List GlobalId}
    {commit : Option (Option String × Option String)} (hi : w.Idle)
    (hdim : ∀ u ∈ ups, u.1.length = cfg.dim) :
    ∃ n v ms es w', Performs (World.persistence P cfg) t (Durable.writeBatch cfg ups dels commit) w
        es (.ok ⟨List.range' w.collection.nextGlobalId ups.length, n, v⟩) w' ∧
      Moves P cfg w (.log ups dels :: ms) es w' ∧
      BatchTail w.collection.versions.nextVersion (w.fires ups.length) commit v ms := by
  have hfind : (ups.find? fun u => u.1.length ≠ cfg.dim) = none := by
    rw [List.find?_eq_none]
    intro u hu
    simp [hdim u hu]
  unfold Durable.writeBatch
  rw [hfind]
  have hlog : (Move.log ups dels).Enabled cfg w := hdim
  have hidle : ((Move.log ups dels).result P cfg w).Idle := Move.idle hi _
  have hnext : ((Move.log ups dels).result P cfg w).collection.versions = w.collection.versions :=
    Collection.foldl_replay_versions _
  rw [← hnext]
  obtain ⟨n, hbatch⟩ := @performs_batch P cfg t w ups dels hi hdim
    (Except CoreError Durable.WriteBatchResult)
  cases commit with
  | none =>
    obtain ⟨v, ms, es, w', hp, hm, ht⟩ :=
      performs_afterBatch_none (t := t) (n := ups.length) hidle
    refine ⟨n, v, ms, _, w', hbatch ?_, .cons hlog hm, ht⟩
    refine .perform_silent rfl rfl ?_
    rw [List.length_range']
    exact (unlocked_eq hidle.free ▸ hp).bind_ret rfl
  | some mt =>
    obtain ⟨message, tag⟩ := mt
    refine ⟨n, _, _, _, _, hbatch (performs_commit (by exact hidle.quiet) (by exact hidle.keyed)
      "batch" message tag (.perform_silent rfl rfl ?_)), .cons hlog
      ((Moves.single (m := .commit "batch" message tag) trivial).tick
        ((w.trigger.recordWrites ups.length).noteCommit w.now) (w.ticks + 1)),
      .explicit _ _ _ _ _⟩
    have htail : Performs (World.persistence P cfg) t (do
        let version ← Durable.afterBatch (List.range' w.collection.nextGlobalId ups.length).length
          (some ((Move.log ups dels).result P cfg w).collection.versions.nextVersion)
        pure (Except.ok ⟨List.range' w.collection.nextGlobalId ups.length, n, version⟩))
        { (Move.commit "batch" message tag).result P cfg
            ((Move.log ups dels).result P cfg w) with walHolder := none } []
        (Except.ok ⟨List.range' w.collection.nextGlobalId ups.length, n,
          some ((Move.log ups dels).result P cfg w).collection.versions.nextVersion⟩ :
            Except CoreError Durable.WriteBatchResult)
        { (Move.commit "batch" message tag).result P cfg
            ((Move.log ups dels).result P cfg w) with
          trigger := (w.trigger.recordWrites ups.length).noteCommit w.now
          ticks := w.ticks + 1 } := by
      rw [List.length_range', unlocked_eq (w := (Move.commit "batch" message tag).result P cfg
        ((Move.log ups dels).result P cfg w)) hidle.free]
      exact .perform_silent rfl rfl (.ret _ _)
    exact htail

theorem performs_delete {id : GlobalId} (hi : w.Idle) :
    ∃ newly, Performs (World.persistence P cfg) t (Durable.delete id) w
      ((Move.log [] [id]).effects P cfg w) newly ((Move.log [] [id]).result P cfg w) := by
  refine ⟨w.collection.holds id && decide (id ∉ w.collection.workingDeletions),
    .perform_silent (if_pos hi.free) rfl (.perform_effect rfl rfl
      (.perform_effect (World.step_walFlush hi.sync) (if_pos hi.sync) ?_))⟩
  refine (performs_inMemory (c := w.collection.remove id)
    (by exact Collection.run_delete)).bind_silent ?_
  rw [← unlocked_eq (w := (Move.log [] [id]).result P cfg w) hi.free]
  exact .perform_silent rfl rfl (.ret _ _)

theorem performs_writeBatch_error {ups : List (List F32 × Option Payload)} {dels : List GlobalId}
    {commit : Option (Option String × Option String)} (hdim : ¬ ∀ u ∈ ups, u.1.length = cfg.dim) :
    ∃ e, Performs (World.persistence P cfg) t (Durable.writeBatch cfg ups dels commit) w []
      (.error e) w := by
  cases hf : ups.find? fun u => u.1.length ≠ cfg.dim with
  | some u =>
    refine ⟨.dimensionMismatch cfg.dim u.1.length, ?_⟩
    unfold Durable.writeBatch
    rw [hf]
    exact .ret _ _
  | none =>
    refine absurd (fun u hu => ?_) hdim
    simpa using List.find?_eq_none.mp hf u hu

theorem performs_restore {v : VersionId} {m : Manifest} (hi : w.Idle)
    (hm : w.collection.versions.get v = some m) :
    Performs (World.persistence P cfg) t (Durable.restore v) w
      ((Move.restore v m).effects P cfg w) (.ok w.collection.versions.nextVersion)
      ((Move.restore v m).result P cfg w) :=
  (performs_inMemory (Collection.run_restore (by rw [hi.quiet.sealing]) hm)).bind_silent
    ((performs_persistVersions (by exact hi.keyed.restoreNow)).bind_ret rfl)

theorem performs_restore_error {v : VersionId} (hm : w.collection.versions.get v = none) :
    ∃ e, Performs (World.persistence P cfg) t (Durable.restore v) w [] (.error e) w :=
  ⟨_, (performs_inMemory (Collection.run_restore_error hm)).bind_ret rfl⟩

theorem performs_compact (hi : w.Idle) (hlen : 1 < w.collection.working.length) :
    Performs (World.persistence P cfg) t (Durable.compact P cfg) w
      (Move.checkpoint.effects P cfg (Move.compact.result P cfg w))
      (some w.collection.nextSegmentId)
      (Move.checkpoint.result P cfg (Move.compact.result P cfg w)) :=
  (performs_inMemory (Collection.run_compact hlen)).bind_silent
    ((performs_checkpoint (by exact Move.idle hi .compact)).bind_ret rfl)

theorem performs_gc {rules : RetentionRules} (hi : w.Idle) :
    Performs (World.persistence P cfg) t (Durable.gc rules) w ((Move.gc rules).effects P cfg w)
      (w.collection.dropped rules) ((Move.gc rules).result P cfg w) :=
  (performs_inMemory Collection.run_gc).bind_silent (performs_removeSegments.bind
    ((performs_persistVersions (by exact hi.keyed.gcNow)).bind_ret rfl))

/-- A pointer is set in memory, and the versions are persisted if that goes through. -/
theorem performs_point {prog : CollectionProg (Except CoreError Unit)} {name : String}
    {v : VersionId} {set : Except String VersionStore} (hi : w.Idle)
    (hr : run (Collection.step P cfg) t prog w.collection = some (match set with
      | .ok vs => (.ok (), { w.collection with versions := vs })
      | .error e => (.error (.version e), w.collection)))
    (hset : ∀ vs, set = .ok vs → w.collection.versions.setTag name v = .ok vs ∨
      w.collection.versions.setBranch name v = .ok vs) :
    ∃ (r : Except CoreError Unit) (ms : List Move) (es : List DiskEffect) (w' : World),
      Performs (World.persistence P cfg) t (do
        match ← Durable.inMemory prog with
        | .error e => return .error e
        | .ok () =>
          Durable.persistVersions
          return .ok ()) w es r w' ∧
      Moves P cfg w ms es w' ∧
        ((∃ e, r = .error e ∧ ms = []) ∨ ∃ vs, r = .ok () ∧ ms = [.point vs]) := by
  cases set with
  | ok vs =>
    exact ⟨_, [.point vs], _, _, (performs_inMemory hr).bind_silent
      ((performs_persistVersions (by exact hi.keyed)).bind_ret rfl),
      .single ⟨name, v, hset vs rfl⟩, .inr ⟨vs, rfl, rfl⟩⟩
  | error e =>
    exact ⟨_, [], _, _, (performs_inMemory hr).bind_ret rfl, .nil w, .inl ⟨_, rfl, rfl⟩⟩

theorem performs_createTag {name : String} {v : VersionId} (hi : w.Idle) :
    ∃ r ms es w', Performs (World.persistence P cfg) t (Durable.createTag name v) w es r w' ∧
      Moves P cfg w ms es w' ∧
        ((∃ e, r = .error e ∧ ms = []) ∨ ∃ vs, r = .ok () ∧ ms = [.point vs]) :=
  performs_point hi Collection.run_createTag fun _ => .inl

theorem performs_createBranch {name : String} {v : VersionId} (hi : w.Idle) :
    ∃ r ms es w', Performs (World.persistence P cfg) t (Durable.createBranch name v) w es r w' ∧
      Moves P cfg w ms es w' ∧
        ((∃ e, r = .error e ∧ ms = []) ∨ ∃ vs, r = .ok () ∧ ms = [.point vs]) :=
  performs_point hi Collection.run_createBranch fun _ => .inr

/-- **What a request does**: it makes some moves, and its answer says which. -/
theorem Request.performs (hi : w.Idle) (r : Request) :
    ∃ resp ms es w', Performs (World.persistence P cfg) t (r.call P cfg) w es resp w' ∧
      Moves P cfg w ms es w' ∧ r.Makes w resp ms := by
  cases r with
  | writeBatch ups dels explicit =>
    by_cases hdim : ∀ u ∈ ups, u.1.length = cfg.dim
    · obtain ⟨n, v, ms, es, w', hp, hm, ht⟩ := performs_writeBatch (t := t) hi hdim
      exact ⟨_, _, _, _, hp.bind_ret rfl, hm, .batch ht⟩
    · obtain ⟨e, hp⟩ := performs_writeBatch_error (P := P) (t := t) hdim
      exact ⟨_, _, _, _, hp.bind_ret rfl, .nil w, .failed _ e⟩
  | upsert points =>
    by_cases hdim : ∀ u ∈ points, u.1.length = cfg.dim
    · obtain ⟨n, v, ms, es, w', hp, hm, ht⟩ := performs_writeBatch (t := t) hi hdim
      have hu : Performs (World.persistence P cfg) t (Durable.upsert cfg points) w es
        (.ok (List.range' w.collection.nextGlobalId points.length)) w' := hp.bind_ret rfl
      exact ⟨_, _, _, _, hu.bind_ret rfl, hm, .upsert ht⟩
    · obtain ⟨e, hp⟩ := performs_writeBatch_error (P := P) (t := t) hdim
      have hu : Performs (World.persistence P cfg) t (Durable.upsert cfg points) w []
        (.error e) w := hp.bind_ret rfl
      exact ⟨_, _, _, _, hu.bind_ret rfl, .nil w, .failed _ e⟩
  | delete id =>
    obtain ⟨newly, hp⟩ := @performs_delete P cfg t w id hi
    exact ⟨_, _, _, _, hp.bind_ret rfl, .single (fun _ h => by cases h), .delete id newly⟩
  | commit message tag =>
    exact ⟨_, _, _, _, (performs_commit hi.quiet hi.keyed "manual" message tag
      (.ret _ _)).bind_ret rfl, .single trivial, .commit message tag⟩
  | restore v =>
    cases hm : w.collection.versions.get v with
    | some m =>
      exact ⟨_, _, _, _, (performs_restore hi hm).bind_ret rfl, .single hm, .restore v m⟩
    | none =>
      obtain ⟨e, hp⟩ := @performs_restore_error P cfg t w v hm
      exact ⟨_, _, _, _, hp.bind_ret rfl, .nil w, .failed _ e⟩
  | createTag name v =>
    obtain ⟨r, ms, es, w', hp, hm, ⟨e, rfl, rfl⟩ | ⟨vs, rfl, rfl⟩⟩ :=
      @performs_createTag P cfg t w name v hi
    · exact ⟨_, _, _, _, hp.bind_ret rfl, hm, .failed _ e⟩
    · exact ⟨_, _, _, _, hp.bind_ret rfl, hm, .createTag name v vs⟩
  | createBranch name v =>
    obtain ⟨r, ms, es, w', hp, hm, ⟨e, rfl, rfl⟩ | ⟨vs, rfl, rfl⟩⟩ :=
      @performs_createBranch P cfg t w name v hi
    · exact ⟨_, _, _, _, hp.bind_ret rfl, hm, .failed _ e⟩
    · exact ⟨_, _, _, _, hp.bind_ret rfl, hm, .createBranch name v vs⟩
  | checkpoint =>
    exact ⟨_, _, _, _, (performs_checkpoint hi).bind_ret rfl, .single trivial, .checkpoint⟩
  | compact =>
    by_cases hlen : 1 < w.collection.working.length
    · exact ⟨_, _, _, _, (performs_compact hi hlen).bind_ret rfl,
        .cons (m := .compact) hlen (.single (m := .checkpoint) trivial), .compact _⟩
    · have hc : Performs (World.persistence P cfg) t (Durable.compact P cfg) w [] none w :=
        (performs_inMemory (Collection.run_compact_none (Nat.le_of_not_lt hlen))).bind_ret rfl
      exact ⟨_, _, _, _, hc.bind_ret rfl, .nil w, .compactNone⟩
  | gc rules =>
    exact ⟨_, _, _, _, (performs_gc hi).bind_ret rfl, .single trivial, .gc rules _⟩

end

end Vecvec
