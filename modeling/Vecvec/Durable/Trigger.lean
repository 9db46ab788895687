import Vecvec.Durable.Batches
import Vecvec.Machinery.Frame
import Vecvec.Persist.Sample

/-!
# Durable/Trigger — automatic commits, and what the trigger still counts after one

The trigger counts the upserts of batches.  A version leaves nothing uncommitted, but it need not
leave the count at zero: a noted commit takes `n` off it, however far the batch had overshot, and a
standalone commit is not noted at all.  What stays on the count can fire a commit that has nothing
to commit; if no commit leaves anything that can, none is empty (`automatic_commits`).
-/

namespace Vecvec

open Machinery DurableOp

variable {P : Platform} {cfg : CollectionConfig} {w w' : World} {t : ℕ}

/-! ## The actions on the trigger -/

/-- The action neither reads the clock nor touches the trigger. -/
def DurableOp.Untimed : DurableOp → Prop
  | .recordWritesAndCheck _ | .recordWritesAndNote _ | .noteCommit => False
  | _ => True

theorem World.trigger_step {o : DurableOp} {r : o.Ret} (ho : o.Untimed)
    (hs : World.step P cfg t o w = some (r, w')) : w'.trigger = w.trigger ∧ w'.now = w.now := by
  cases o with
  | collection o =>
    obtain ⟨x, -, hx⟩ := Option.map_eq_some_iff.mp hs
    cases hx
    exact ⟨rfl, rfl⟩
  | lockWal =>
    rw [World.step] at hs
    split at hs
    · cases hs
      exact ⟨rfl, rfl⟩
    · cases hs
  | walFlush =>
    rw [World.step] at hs
    split at hs
    all_goals
      cases hs
      exact ⟨rfl, rfl⟩
  | recordWritesAndCheck | recordWritesAndNote | noteCommit => exact ho.elim
  | _ =>
    cases hs
    exact ⟨rfl, rfl⟩

/-- **A call of such actions** leaves the trigger and the clock alone. -/
theorem World.trigger_run {α : Type} {p : DurableProg α} (hp : p.Only Untimed) {a : α}
    (hrun : run (World.step P cfg) t p w = some (a, w')) :
    w'.trigger = w.trigger ∧ w'.now = w.now := by
  have h := hp.run_frame (f := fun w => (w.trigger, w.now))
    (fun o s r s' ho hs => Prod.ext (trigger_step ho hs).1 (trigger_step ho hs).2) hrun
  exact Prod.mk.inj h

namespace Durable

theorem untimed_inMemory {α : Type} (p : CollectionProg α) : (inMemory p).Only Untimed :=
  p.only_true.lift fun _ _ => trivial

theorem untimed_persistSegment (id : SegmentId) : (persistSegment id).Only Untimed := by
  refine ⟨trivial, fun found => ?_⟩
  cases found with
  | true => trivial
  | false =>
    have hget : (getSegment id).Only Untimed := (untimed_inMemory _).bind fun _ => trivial
    refine hget.bind fun seg => ?_
    cases seg with
    | none => trivial
    | some seg => exact ⟨trivial, fun _ => ⟨trivial, fun _ => trivial⟩⟩

theorem untimed_persistVersions : persistVersions.Only Untimed := by
  have hids : segmentIdsToPersist.Only Untimed :=
    (untimed_inMemory _).bind fun _ => (untimed_inMemory _).bind fun _ => trivial
  exact hids.bind fun ids => (Batch.only_forM untimed_persistSegment ids).bind fun _ =>
    (untimed_inMemory _).bind fun _ => ⟨trivial, fun _ => trivial⟩

/-- A standalone commit is not noted. -/
theorem untimed_commit (message tag : Option String) : (commit message tag).Only Untimed :=
  (untimed_inMemory _).bind fun _ => untimed_persistVersions.bind fun _ => trivial

end Durable

theorem untimed_apply (b : Batch) : (b.apply cfg).Only Untimed := by
  refine Batch.only_apply.mono fun o ho => ?_
  cases o <;> trivial

/-! ## What a batch does to the trigger -/

theorem returns_logUpserts (ups : List (List F32 × Option Payload)) :
    (Durable.logUpserts ups).Returns fun ids => ids.length = ups.length := by
  induction ups with
  | nil => exact rfl
  | cons u ups ih => exact fun id _ => ih.bind fun ids hids => congrArg Nat.succ hids

theorem returns_insert {id : GlobalId} {v : List F32} {p : Option Payload}
    (hdim : v.length = cfg.dim) :
    (Collection.insertWithIdAndPayload cfg id v p).Returns (· = .ok ()) := by
  unfold Collection.insertWithIdAndPayload
  rw [if_neg (not_not_intro hdim)]
  cases p with
  | none => exact fun _ _ => rfl
  | some p => exact fun _ _ _ => rfl

/-- Upserts of the right dimension are applied. -/
theorem returns_applyUpserts (ups : List (GlobalId × List F32 × Option Payload))
    (hdim : ∀ u ∈ ups, u.2.1.length = cfg.dim) :
    (Durable.applyUpserts cfg ups).Returns (· = .ok ()) := by
  induction ups with
  | nil => exact rfl
  | cons u ups ih =>
    obtain ⟨hu, hdim⟩ := List.forall_mem_cons.mp hdim
    have hins : (Durable.inMemory (Collection.insertWithIdAndPayload cfg u.1 u.2.1 u.2.2)).Returns
        (· = .ok ()) := (returns_insert hu).lift
    refine hins.bind fun x hx => ?_
    subst hx
    exact ih hdim

theorem returns_true {α : Type} (p : DurableProg α) : p.Returns fun _ => True := by
  induction p with
  | ret a => trivial
  | act o k ih => exact ih

theorem returns_apply {b : Batch} (hb : b.Fits cfg) :
    (b.apply cfg).Returns fun x => x.1.length = b.upserts.length ∧ x.2.2 = .ok () := by
  refine (returns_true _).bind fun _ _ => (returns_true _).bind fun _ _ => ?_
  refine (returns_logUpserts b.upserts).bind fun ids hids => ?_
  refine (returns_true _).bind fun _ _ => (returns_true _).bind fun n _ => ?_
  refine (returns_applyUpserts (ids.zip b.upserts) fun u hu => ?_).bind fun x hx => ⟨hids, hx⟩
  exact hb u.2 (List.of_mem_zip hu).2

/-- The bookkeeping of `n` upserts: what is asked for, the version made, and the trigger after. -/
inductive World.Books (w : World) (n : ℕ) :
    Option (Option String × Option String) → Option VersionId → TriggerEvaluator → Prop
  | explicit (m : Option String × Option String) (v : VersionId) :
      Books w n (some m) (some v) ((w.trigger.recordWrites n).noteCommit w.now)
  | fired (v : VersionId) (now : ℕ) (hf : w.fires n = true) :
      Books w n none (some v) ((w.trigger.recordWrites n).noteCommit now)
  | quiet (hf : w.fires n = false) : Books w n none none (w.trigger.recordWrites n)

/-- Only the trigger and the reading of the clock enter the bookkeeping. -/
theorem World.Books.congr {w₁ : World} {n : ℕ} {m : Option (Option String × Option String)}
    {v : Option VersionId} {e : TriggerEvaluator} (h : w₁.Books n m v e)
    (hw : w₁.trigger = w.trigger ∧ w₁.now = w.now) : w.Books n m v e := by
  cases h with
  | explicit m v => exact hw.1 ▸ hw.2 ▸ .explicit m v
  | fired v now hf =>
    rw [fires, hw.1, hw.2] at hf
    exact hw.1 ▸ .fired v now hf
  | quiet hf =>
    rw [fires, hw.1, hw.2] at hf
    exact hw.1 ▸ .quiet hf

/-- The bookkeeping of a batch that asks for no commit. -/
theorem books_afterBatch {n : ℕ} {v : Option VersionId}
    (hrun : run (World.step P cfg) t (Durable.afterBatch n none) w = some (v, w')) :
    w.Books n none v w'.trigger := by
  unfold Durable.afterBatch at hrun
  rw [run_perform_bind rfl] at hrun
  change run _ _ (if w.fires n = true then _ else _) _ = _ at hrun
  cases hf : w.fires n with
  | false =>
    rw [hf, if_neg Bool.false_ne_true] at hrun
    cases hrun
    exact .quiet hf
  | true =>
    rw [hf, if_pos rfl] at hrun
    obtain ⟨u, w₁, hcommit, hrun⟩ := run_bind_eq_some_iff.mp hrun
    obtain ⟨_, w₂, hnote, hrun⟩ := run_bind_eq_some_iff.mp hrun
    obtain ⟨_, w₃, hpersist, hrun⟩ := run_bind_eq_some_iff.mp hrun
    cases hrun
    cases hnote
    rw [(World.trigger_run Durable.untimed_persistVersions hpersist).1]
    have h₁ : w₁.trigger = w.trigger.recordWrites n :=
      (World.trigger_run (Durable.untimed_inMemory _) hcommit).1
    change w.Books n none (some u) (w₁.trigger.noteCommit w₁.now)
    rw [h₁]
    exact .fired u w₁.now hf

/-- The end of a batch: the log is unlocked, and the bookkeeping seen to. -/
theorem run_afterBatch_of_unlock {ids : List GlobalId} {n : ℕ} {explicit : Option VersionId}
    {r : Except CoreError Durable.WriteBatchResult} (hrun : run (World.step P cfg) t (do
      Durable.perform unlockWal
      let version ← Durable.afterBatch ids.length explicit
      return .ok ⟨ids, n, version⟩) w = some (r, w')) :
    ∃ v, r = .ok ⟨ids, n, v⟩ ∧ run (World.step P cfg) t (Durable.afterBatch ids.length explicit)
      { w with walHolder := none } = some (v, w') := by
  rw [run_perform_bind rfl] at hrun
  obtain ⟨v, w₁, hafter, hrun⟩ := run_bind_eq_some_iff.mp hrun
  cases hrun
  exact ⟨v, rfl, hafter⟩

/-- **A batch is applied, and booked.** -/
theorem books_writeBatch {b : Batch} (hb : b.Fits cfg)
    {r : Except CoreError Durable.WriteBatchResult} (hrun : run (World.step P cfg) t
      (Durable.writeBatch cfg b.upserts b.deletes b.commit) w = some (r, w')) :
    ∃ ids n v, r = .ok ⟨ids, n, v⟩ ∧ w.Books b.upserts.length b.commit v w'.trigger := by
  rw [Batch.writeBatch_eq hb] at hrun
  obtain ⟨⟨ids, n, x⟩, w₁, happly, hrun⟩ := run_bind_eq_some_iff.mp hrun
  obtain ⟨hids, hx⟩ := (returns_apply hb).of_run happly
  dsimp only at hids hx
  subst hx
  have h₁ := World.trigger_run (untimed_apply b) happly
  refine ⟨ids, n, ?_⟩
  rw [← hids]
  unfold Batch.conclude at hrun
  cases hc : b.commit with
  | none =>
    rw [hc] at hrun
    obtain ⟨v, rfl, hafter⟩ := run_afterBatch_of_unlock hrun
    exact ⟨v, rfl, (books_afterBatch hafter).congr h₁⟩
  | some m =>
    rw [hc] at hrun
    obtain ⟨u, w₂, hcommit, hrun⟩ := run_bind_eq_some_iff.mp hrun
    obtain ⟨_, w₃, hpersist, hrun⟩ := run_bind_eq_some_iff.mp hrun
    obtain ⟨v, rfl, hafter⟩ := run_afterBatch_of_unlock hrun
    have h₂ := World.trigger_run (Durable.untimed_inMemory _) hcommit
    have h₃ := World.trigger_run Durable.untimed_persistVersions hpersist
    cases hafter
    have hbooks : w₃.Books ids.length (some m) (some u) _ := .explicit m u
    exact ⟨some u, rfl, hbooks.congr ⟨(h₃.1.trans h₂.1).trans h₁.1, (h₃.2.trans h₂.2).trans h₁.2⟩⟩

/-! ## Batches and commits, one after another -/

namespace Event

/-- A write batch or a standalone commit. -/
def Writes : Event → Prop
  | .call _ (.writeBatch ..) _ | .call _ (.commit ..) _ => True
  | _ => False

/-- The upserts applied. -/
def upserts : Event → ℕ
  | .call _ (.writeBatch ups _ _) (.batch _) => ups.length
  | _ => 0

/-- The version made. -/
def made : Event → Option VersionId
  | .call _ (.writeBatch ..) (.batch r) => r.version
  | .call _ (.commit ..) (.version v) => some v
  | _ => none

/-- A batch that did not ask for a commit made a version. -/
def Automatic : Event → Prop
  | .call _ (.writeBatch _ _ none) (.batch r) => r.version.isSome
  | _ => False

end Event

/-- The upserts applied since the last version was made. -/
def uncommitted (evs : List Event) : ℕ :=
  evs.foldl (fun n e => if e.made.isSome then 0 else n + e.upserts) 0

theorem uncommitted_append (evs : List Event) (e : Event) : uncommitted (evs ++ [e]) =
    if e.made.isSome then 0 else uncommitted evs + e.upserts := List.foldl_append

/-- Whenever a version is made automatically, an upsert was applied after the one before it. -/
def NeverEmpty (evs : List Event) : Prop :=
  ∀ past e rest, evs = past ++ e :: rest → e.Automatic → 0 < uncommitted past + e.upserts

theorem neverEmpty_nil : NeverEmpty [] := fun past _ _ h => by simp at h

theorem neverEmpty_append {evs : List Event} {e : Event} : NeverEmpty (evs ++ [e]) ↔
    NeverEmpty evs ∧ (e.Automatic → 0 < uncommitted evs + e.upserts) := by
  refine ⟨fun h => ⟨fun past e' rest hevs => h past e' (rest ++ [e]) (by simp [hevs]),
    h evs e [] rfl⟩, fun ⟨h, he⟩ past e' rest hevs ha => ?_⟩
  rcases List.eq_nil_or_concat rest with rfl | ⟨rest, x, rfl⟩
  · obtain ⟨rfl, hx⟩ := List.append_inj' hevs rfl
    cases hx
    exact he ha
  · rw [List.concat_eq_append, ← List.cons_append, ← List.append_assoc] at hevs
    exact h past e' rest (List.append_inj' hevs rfl).1 ha

/-! ## What the trigger still counts -/

namespace TriggerEvaluator

variable {e : TriggerEvaluator} {u now : ℕ}

/-- The trigger is due without a further write, now or once the interval has passed. -/
def Stale (e : TriggerEvaluator) : Prop :=
  (∃ n, e.policy.everyNWrites = some n ∧ n ≤ e.writesSinceCommit) ∨
    e.policy.intervalMs.isSome ∧ 0 < e.writesSinceCommit

/-- A batch of `u` upserts takes the count to `2n`; or, with an interval set as well, above `n`. -/
def Overshoots (e : TriggerEvaluator) (u : ℕ) : Prop :=
  ∃ n, e.policy.everyNWrites = some n ∧ (2 * n ≤ (e.recordWrites u).writesSinceCommit ∨
    e.policy.intervalMs.isSome ∧ n < (e.recordWrites u).writesSinceCommit)

theorem writesSinceCommit_noteCommit (e : TriggerEvaluator) (now : ℕ) {n : ℕ}
    (hn : e.policy.everyNWrites = some n) :
    (e.noteCommit now).writesSinceCommit =
      if n ≤ e.writesSinceCommit then e.writesSinceCommit - n else 0 := by
  simp only [noteCommit, hn]

/-- **A noted commit leaves the trigger stale exactly if the batch overshot.** -/
theorem stale_noteCommit (hn : ∀ n, e.policy.everyNWrites = some n → 1 ≤ n) :
    ((e.recordWrites u).noteCommit now).Stale ↔ e.Overshoots u := by
  cases hp : e.policy.everyNWrites with
  | none => simp [Stale, Overshoots, noteCommit, recordWrites, hp]
  | some n =>
    have hpos := hn n hp
    have hleft := writesSinceCommit_noteCommit (e.recordWrites u) now hp
    have hs : ((e.recordWrites u).noteCommit now).policy = e.policy := rfl
    rw [Stale, Overshoots, hs, hp, hleft]
    simp only [Option.some.injEq, exists_eq_left']
    by_cases hk : n ≤ (e.recordWrites u).writesSinceCommit
    · rw [if_pos hk]
      exact or_congr (by lia) (and_congr_right fun _ => by lia)
    · rw [if_neg hk]
      exact or_congr (by lia) (and_congr_right fun _ => by lia)

/-- What fires without a write was stale. -/
theorem stale_of_shouldCommit (h : (e.recordWrites 0).shouldCommit now = true) : e.Stale := by
  have hle : (e.recordWrites 0).writesSinceCommit ≤ e.writesSinceCommit := min_le_left _ _
  rw [shouldCommit, Bool.or_eq_true] at h
  rcases h with h | h
  · split at h
    next n hn => exact .inl ⟨n, hn, (of_decide_eq_true h).trans hle⟩
    next => cases h
  · split at h
    next ms hms =>
      rw [Bool.and_eq_true, decide_eq_true_eq] at h
      exact .inr ⟨congrArg Option.isSome hms, h.1.trans_le hle⟩
    next => cases h

/-- A stale trigger fires, once the interval has passed. -/
theorem Stale.shouldCommit (h : e.Stale) (hb : e.writesSinceCommit < 2 ^ 64)
    (hlate : ∀ ms, e.policy.intervalMs = some ms → ms ≤ now - e.lastCommitMs) :
    (e.recordWrites 0).shouldCommit now = true := by
  have hrec : e.recordWrites 0 = e := by
    rw [recordWrites, Nat.add_zero, min_eq_left (by lia)]
  rw [hrec, TriggerEvaluator.shouldCommit, Bool.or_eq_true]
  rcases h with ⟨n, hn, hle⟩ | ⟨hi, hpos⟩
  · rw [hn]
    exact .inl (decide_eq_true hle)
  · obtain ⟨ms, hms⟩ := Option.isSome_iff_exists.mp hi
    rw [hms]
    exact .inr (by simp [hpos, hlate ms hms])

/-- A trigger that does not fire counts less than `n`. -/
theorem lt_of_shouldCommit (h : e.shouldCommit now = false) {n : ℕ}
    (hn : e.policy.everyNWrites = some n) : e.writesSinceCommit < n := by
  rw [shouldCommit, Bool.or_eq_false_iff, hn] at h
  exact not_le.mp (of_decide_eq_false h.1)

end TriggerEvaluator

/-! ## Runs -/

/-- What a batch or a standalone commit does, and the trigger after it. -/
inductive World.Booked (cfg : CollectionConfig) (w : World) : Event → TriggerEvaluator → Prop
  | batch {b : Batch} {ids : List GlobalId} {n : ℕ} {v : Option VersionId} {e : TriggerEvaluator}
      (hb : b.Fits cfg) (hbooks : w.Books b.upserts.length b.commit v e) :
      Booked cfg w (.call w (.writeBatch b.upserts b.deletes b.commit) (.batch ⟨ids, n, v⟩)) e
  | failed {b : Batch} {err : CoreError} (hb : ¬ b.Fits cfg) :
      Booked cfg w (.call w (.writeBatch b.upserts b.deletes b.commit) (.failed err)) w.trigger
  | commit (message tag : Option String) (v : VersionId) :
      Booked cfg w (.call w (.commit message tag) (.version v)) w.trigger

theorem Node.Step.booked {e : Event} {n : Node} (hs : Node.Step P cfg (.running w) e n)
    (he : e.Writes) : ∃ w', n = .running w' ∧ w.Booked cfg e w'.trigger := by
  cases hs with
  | @call _ w' r resp hr =>
    refine ⟨w', rfl, ?_⟩
    cases r with
    | writeBatch ups dels c =>
      obtain ⟨x, w₁, hr, hret⟩ := run_bind_eq_some_iff.mp hr
      cases hret
      by_cases hb : (⟨ups, dels, c⟩ : Batch).Fits cfg
      · obtain ⟨ids, n, v, rfl, hbooks⟩ := books_writeBatch (b := ⟨ups, dels, c⟩) hb hr
        exact .batch (b := ⟨ups, dels, c⟩) hb hbooks
      · obtain ⟨err, herr⟩ := Batch.writeBatch_eq_error hb
        rw [herr] at hr
        cases hr
        exact .failed (b := ⟨ups, dels, c⟩) hb
    | commit message tag =>
      obtain ⟨v, w₁, hr, hret⟩ := run_bind_eq_some_iff.mp hr
      cases hret
      rw [(World.trigger_run (Durable.untimed_commit message tag) hr).1]
      exact .commit message tag v
    | _ => exact he.elim
  | _ => exact he.elim

/-- The call leaves nothing on the trigger that could fire it: a batch does not overshoot, and with
an interval set a standalone commit finds the count at zero. -/
def Event.Clears (cfg : CollectionConfig) : Event → Prop
  | .call w (.writeBatch ups _ _) _ =>
    (∀ u ∈ ups, u.1.length = cfg.dim) → ¬ w.trigger.Overshoots ups.length
  | .call w (.commit ..) _ =>
    cfg.versioning.intervalMs.isSome → w.trigger.writesSinceCommit = 0
  | _ => True

/-- Of the trigger, after any calls: its policy, and a count that fits. -/
structure World.Counting (cfg : CollectionConfig) (e : TriggerEvaluator) : Prop where
  /-- The policy. -/
  policy : e.policy = cfg.versioning
  /-- The count is a `u64`. -/
  bounded : e.writesSinceCommit < 2 ^ 64

theorem World.Books.counting {n : ℕ} {m : Option (Option String × Option String)}
    {v : Option VersionId} {e : TriggerEvaluator} (h : w.Books n m v e)
    (hw : World.Counting cfg w.trigger) : World.Counting cfg e := by
  have hrec : (w.trigger.recordWrites n).writesSinceCommit < 2 ^ 64 :=
    (min_le_right _ _).trans_lt (by lia)
  have hnote (now : ℕ) : World.Counting cfg ((w.trigger.recordWrites n).noteCommit now) := by
    refine ⟨hw.policy, lt_of_le_of_lt ?_ hrec⟩
    rw [TriggerEvaluator.noteCommit]
    dsimp only
    split
    · split
      exacts [Nat.sub_le _ _, Nat.zero_le _]
    · exact Nat.zero_le _
  cases h with
  | explicit => exact hnote _
  | fired => exact hnote _
  | quiet => exact ⟨hw.policy, hrec⟩

theorem World.Booked.counting {e : Event} {e' : TriggerEvaluator} (h : w.Booked cfg e e')
    (hw : World.Counting cfg w.trigger) : World.Counting cfg e' := by
  cases h with
  | batch _ hbooks => exact hbooks.counting hw
  | failed | commit => exact hw

/-- **Every version leaves the trigger fresh**: what is left uncommitted stands on the count. -/
structure World.Fresh (evs : List Event) (e : TriggerEvaluator) : Prop where
  /-- The count is below `n`. -/
  below : ∀ n, e.policy.everyNWrites = some n → e.writesSinceCommit < n
  /-- With an interval set, nothing is counted that is committed. -/
  counted : uncommitted evs = 0 → e.policy.intervalMs.isSome → e.writesSinceCommit = 0

theorem World.Fresh.not_stale {evs : List Event} {e : TriggerEvaluator} (h : World.Fresh evs e)
    (hu : uncommitted evs = 0) : ¬ e.Stale := by
  rintro (⟨n, hn, hle⟩ | ⟨hi, hpos⟩)
  · exact absurd (h.below n hn) (not_lt.mpr hle)
  · exact hpos.ne' (h.counted hu hi)

/-- A trigger that is not stale is fresh. -/
theorem World.fresh_of_not_stale {evs : List Event} {e : TriggerEvaluator} (h : ¬ e.Stale) :
    World.Fresh evs e := by
  rw [TriggerEvaluator.Stale, not_or] at h
  exact ⟨fun n hn => not_le.mp fun hle => h.1 ⟨n, hn, hle⟩,
    fun _ hi => Nat.eq_zero_of_not_pos fun hpos => h.2 ⟨hi, hpos⟩⟩

/-- The step lemma: a call that clears the trigger leaves it fresh, and makes no empty version. -/
theorem World.Booked.fresh (hn : ∀ n, cfg.versioning.everyNWrites = some n → 1 ≤ n)
    {evs : List Event} {e : Event} {e' : TriggerEvaluator} (h : w.Booked cfg e e')
    (hp : w.trigger.policy = cfg.versioning) (hw : World.Fresh evs w.trigger)
    (hc : e.Clears cfg) :
    World.Fresh (evs ++ [e]) e' ∧ (e.Automatic → 0 < uncommitted evs + e.upserts) := by
  cases h with
  | @batch b ids n v e' hb hbooks =>
    have hclear := hc hb
    have hstale (now : ℕ) : ¬ ((w.trigger.recordWrites b.upserts.length).noteCommit now).Stale :=
      mt (TriggerEvaluator.stale_noteCommit (by rwa [hp])).mp hclear
    generalize hm : b.commit = m at hbooks ⊢
    cases hbooks with
    | explicit m v => exact ⟨World.fresh_of_not_stale (hstale _), fun ha => ha.elim⟩
    | fired v now hf =>
      refine ⟨World.fresh_of_not_stale (hstale _), fun _ => Nat.pos_of_ne_zero fun hzero => ?_⟩
      obtain ⟨hu, hlen⟩ := Nat.add_eq_zero_iff.mp hzero
      have hlen : b.upserts.length = 0 := hlen
      rw [hlen] at hf
      exact hw.not_stale hu (TriggerEvaluator.stale_of_shouldCommit hf)
    | quiet hf =>
      refine ⟨⟨fun n hn => TriggerEvaluator.lt_of_shouldCommit hf hn, fun hu hi => ?_⟩,
        fun ha => by cases ha⟩
      rw [uncommitted_append] at hu
      obtain ⟨hu, hlen⟩ := Nat.add_eq_zero_iff.mp hu
      have hlen : b.upserts.length = 0 := hlen
      have hzero := hw.counted hu hi
      rw [TriggerEvaluator.recordWrites, hlen, hzero]
      exact Nat.zero_min _
  | @failed b _ hb =>
    refine ⟨⟨hw.below, fun hu hi => hw.counted ?_ hi⟩, fun ha => ?_⟩
    · rw [uncommitted_append] at hu
      exact hu
    · generalize b.commit = m at ha
      cases m <;> exact ha.elim
  | commit message tag v =>
    refine ⟨⟨hw.below, fun _ hi => hc (hp ▸ hi)⟩, fun ha => ha.elim⟩

/-- A call that does not clear the trigger leaves it stale, and nothing uncommitted. -/
theorem World.Booked.stale (hn : ∀ n, cfg.versioning.everyNWrites = some n → 1 ≤ n)
    (evs : List Event) {e : Event} {e' : TriggerEvaluator} (h : w.Booked cfg e e')
    (hp : w.trigger.policy = cfg.versioning) (hc : ¬ e.Clears cfg) :
    e'.Stale ∧ uncommitted (evs ++ [e]) = 0 := by
  rw [uncommitted_append]
  cases h with
  | @batch b ids n v e' hb hbooks =>
    have hover : w.trigger.Overshoots b.upserts.length :=
      not_not.mp fun hover => hc fun _ => hover
    have hstale (now : ℕ) : ((w.trigger.recordWrites b.upserts.length).noteCommit now).Stale :=
      (TriggerEvaluator.stale_noteCommit (by rwa [hp])).mpr hover
    generalize b.commit = m at hbooks
    cases hbooks with
    | explicit => exact ⟨hstale _, rfl⟩
    | fired => exact ⟨hstale _, rfl⟩
    | quiet hf =>
      obtain ⟨n, hn', hover⟩ := hover
      have hlt := TriggerEvaluator.lt_of_shouldCommit hf hn'
      lia
  | failed hb => exact absurd (fun h => (hb h).elim) hc
  | commit message tag v =>
    rw [Event.Clears, Classical.not_imp] at hc
    exact ⟨.inr ⟨hp ▸ hc.1, Nat.pos_of_ne_zero hc.2⟩, rfl⟩

/-- An opened collection counts nothing. -/
theorem trigger_opened {d : Disk} {fsync : FsyncMode} {clock : ℕ → ℕ}
    (hopen : run (World.step P cfg) 0 (Durable.openCollection cfg) (.boot d cfg fsync clock) =
      some (.ok (), w)) : w.trigger = .new cfg.versioning (clock 0) := by
  cases hc : d.recover P cfg with
  | some c =>
    obtain ⟨-, rfl⟩ := (performs_open hc).of_run hopen
    rfl
  | none =>
    obtain ⟨e, w', hp⟩ := @performs_open_error P cfg 0 d fsync clock hc
    cases (hp.of_run hopen).1

/-- Batches and standalone commits keep the collection running, and its policy. -/
theorem Runs.counting {evs : List Event} {n : Node} (h : Runs P cfg (.running w) evs n)
    (hw : World.Counting cfg w.trigger) (hwrites : ∀ e ∈ evs, e.Writes) :
    ∃ w', n = .running w' ∧ World.Counting cfg w'.trigger := by
  refine @Runs.invariant P cfg (fun n => ∃ w', n = .running w' ∧ World.Counting cfg w'.trigger)
    Event.Writes ?_ _ _ _ h ⟨w, rfl, hw⟩ hwrites
  rintro _ e n ⟨w', rfl, hw'⟩ he hs
  obtain ⟨w'', rfl, hbook⟩ := hs.booked he
  exact ⟨w'', rfl, hbook.counting hw'⟩

/-- **The run lemma**: calls that clear the trigger keep it fresh. -/
theorem Runs.neverEmpty (hn : ∀ n, cfg.versioning.everyNWrites = some n → 1 ≤ n)
    {evs : List Event} {n : Node} (h : Runs P cfg (.running w) evs n)
    (hw : World.Counting cfg w.trigger) (hs : ¬ w.trigger.Stale)
    (hwrites : ∀ e ∈ evs, e.Writes) (hclears : ∀ e ∈ evs, e.Clears cfg) : NeverEmpty evs := by
  have key := @Runs.invariant_past P cfg
    (fun evs n => NeverEmpty evs ∧ ∃ w', n = .running w' ∧ World.Counting cfg w'.trigger ∧
      World.Fresh evs w'.trigger) (fun e => e.Writes ∧ e.Clears cfg) ?_ _ _ _ h
    ⟨neverEmpty_nil, w, rfl, hw, World.fresh_of_not_stale hs⟩
    fun e he => ⟨hwrites e he, hclears e he⟩
  · exact key.1
  · rintro evs _ e n ⟨hnever, w', rfl, hcount, hfresh⟩ ⟨he, hc⟩ hs
    obtain ⟨w'', rfl, hbook⟩ := hs.booked he
    obtain ⟨hfresh', hauto⟩ := hbook.fresh hn hcount.policy hfresh hc
    exact ⟨neverEmpty_append.mpr ⟨hnever, hauto⟩, w'', rfl, hbook.counting hcount, hfresh'⟩

/-- A stale trigger fires on a batch without upserts. -/
theorem World.Booked.automatic {dels : List GlobalId} {resp : Response} {e' : TriggerEvaluator}
    (h : w.Booked cfg (.call w (.writeBatch [] dels none) resp) e')
    (hcount : World.Counting cfg w.trigger) (hs : w.trigger.Stale)
    (hlate : ∀ ms, cfg.versioning.intervalMs = some ms → ms ≤ w.now - w.trigger.lastCommitMs) :
    Event.Automatic (.call w (.writeBatch [] dels none) resp) ∧
      Event.upserts (.call w (.writeBatch [] dels none) resp) = 0 := by
  generalize he : Event.call w (.writeBatch [] dels none) resp = e at h
  cases h with
  | @batch b ids n v e' hb hbooks =>
    obtain ⟨-, hreq, rfl⟩ := Event.call.inj he
    obtain ⟨hups, -, hcommit⟩ := Request.writeBatch.inj hreq
    rw [← hups, ← hcommit] at hbooks ⊢
    cases hbooks with
    | fired v now hf => exact ⟨rfl, rfl⟩
    | quiet hf =>
      have := hs.shouldCommit hcount.bounded (by rwa [hcount.policy])
      exact absurd (hf.symm.trans this) Bool.false_ne_true
  | @failed b _ hb =>
    obtain ⟨-, hreq, -⟩ := Event.call.inj he
    obtain ⟨hups, -⟩ := Request.writeBatch.inj hreq
    exact absurd (fun u hu => by rw [← hups] at hu; cases hu) hb
  | commit => cases he

/-- **Automatic commits are never empty, as long as every call clears the trigger.**  In a run of
batches and standalone commits on an opened collection, each of which clears the trigger, no version
is made automatically without an upsert since the one before.  And no other call is harmless: right
after it, any batch without upserts that finds the interval passed makes an empty version. -/
theorem automatic_commits (hn : ∀ n, cfg.versioning.everyNWrites = some n → 1 ≤ n) {d : Disk}
    {fsync : FsyncMode} {clock : ℕ → ℕ} (hopen : run (World.step P cfg) 0
      (Durable.openCollection cfg) (.boot d cfg fsync clock) = some (.ok (), w))
    {evs : List Event} {w' : World} (hruns : Runs P cfg (.running w) evs (.running w'))
    (hwrites : ∀ e ∈ evs, e.Writes) :
    ((∀ e ∈ evs, e.Clears cfg) → NeverEmpty evs) ∧
    ∀ past e, evs = past ++ [e] → ¬ e.Clears cfg →
      (∀ ms, cfg.versioning.intervalMs = some ms → ms ≤ w'.now - w'.trigger.lastCommitMs) →
      ∀ dels resp n, Node.Step P cfg (.running w') (.call w' (.writeBatch [] dels none) resp) n →
        ¬ NeverEmpty (evs ++ [.call w' (.writeBatch [] dels none) resp]) := by
  have hw : World.Counting cfg w.trigger := by
    rw [trigger_opened hopen]
    exact ⟨rfl, Nat.two_pow_pos 64⟩
  have hs : ¬ w.trigger.Stale := by
    rw [trigger_opened hopen]
    rintro (⟨n, hn', hle⟩ | ⟨-, hpos⟩)
    · exact absurd (hn n hn') (not_le.mpr (Nat.lt_one_iff.mpr (Nat.le_zero.mp hle)))
    · exact absurd hpos (lt_irrefl 0)
  refine ⟨hruns.neverEmpty hn hw hs hwrites, ?_⟩
  rintro past e rfl hc hlate dels resp n hstep hnever
  obtain ⟨w₁, hlast, hpast⟩ : ∃ w₁, Node.Step P cfg (.running w₁) e (.running w') ∧
      World.Counting cfg w₁.trigger := by
    generalize hevs : past ++ [e] = evs at hruns
    cases hruns with
    | nil => simp at hevs
    | snoc hpast hstep =>
      obtain ⟨rfl, he⟩ := List.append_inj' hevs rfl
      cases he
      obtain ⟨w₁, rfl, hcount⟩ := hpast.counting hw fun e he =>
        hwrites e (List.mem_append_left _ he)
      exact ⟨w₁, hstep, hcount⟩
  obtain ⟨_, hw₁, hbook⟩ := hlast.booked (hwrites e (List.mem_append_right _ List.mem_cons_self))
  cases hw₁
  obtain ⟨hstale, hzero⟩ := hbook.stale hn past hpast.policy hc
  obtain ⟨_, -, hbook'⟩ := hstep.booked trivial
  obtain ⟨hauto, hups⟩ := hbook'.automatic (hbook.counting hpast) hstale hlate
  have := (neverEmpty_append.mp hnever).2 hauto
  rw [hzero, hups] at this
  exact absurd this (lt_irrefl 0)

/-! ## Two runs -/

instance {e : Event} : Decidable e.Writes := by
  unfold Event.Writes
  split <;> infer_instance

instance {e : Event} : Decidable e.Automatic := by
  unfold Event.Automatic
  split <;> infer_instance

instance {e : TriggerEvaluator} {u : ℕ} : Decidable (e.Overshoots u) :=
  inferInstanceAs (Decidable (∃ n ∈ e.policy.everyNWrites,
    2 * n ≤ (e.recordWrites u).writesSinceCommit ∨
      e.policy.intervalMs.isSome ∧ n < (e.recordWrites u).writesSinceCommit))

instance {e : Event} : Decidable (e.Clears cfg) := by
  unfold Event.Clears
  split <;> infer_instance

/-- An empty directory is opened on a clock, and then a script goes through. -/
@[irreducible] def Node.OpensAndLeads (P : Platform) (cfg : CollectionConfig) (clock : ℕ → ℕ)
    (rs : List Request)
    (Q : List Event → Prop) : Prop :=
  match run (World.step P cfg) 0 (Durable.openCollection cfg) (.boot .empty cfg .sync clock) with
  | some (.ok (), w) => (Node.running w).Leads P cfg (rs.map .call) fun evs n =>
      n matches .running _ ∧ Q evs
  | _ => False

instance {clock : ℕ → ℕ} {rs : List Request} {Q : List Event → Prop} [DecidablePred Q] :
    Decidable (Node.OpensAndLeads P cfg clock rs Q) := by
  unfold Node.OpensAndLeads
  split <;> infer_instance

theorem Node.OpensAndLeads.exists_runs {clock : ℕ → ℕ} {rs : List Request}
    {Q : List Event → Prop} (h : Node.OpensAndLeads P cfg clock rs Q) : ∃ w evs w',
      run (World.step P cfg) 0 (Durable.openCollection cfg) (.boot .empty cfg .sync clock) =
        some (.ok (), w) ∧ Runs P cfg (.running w) evs (.running w') ∧ Q evs := by
  unfold OpensAndLeads at h
  split at h
  · obtain ⟨evs, n, hruns, hn, hq⟩ := h.exists_runs
    cases n with
    | running w' => exact ⟨_, evs, w', ‹_›, hruns, hq⟩
    | stopped d => cases hn
  · exact h.elim

/-- Two upserts at a time, the second time on request, and a standalone commit. -/
theorem automatic_commits_sample : ∃ w evs w', Runs Sample.platform (Sample.config (some 2))
    (.running w) evs (.running w') ∧ evs.length = 5 ∧ NeverEmpty evs := by
  have h : Node.OpensAndLeads Sample.platform (Sample.config (some 2)) (fun n => n)
      [.writeBatch [([1], none)] [] none, .writeBatch [([2], none), ([3], none)] [0] none,
        .commit none none, .writeBatch [] [1] none,
          .writeBatch [([4], none)] [] (some (none, none))]
      fun evs => evs.length = 5 ∧ (∀ e ∈ evs, e.Writes) ∧
        ∀ e ∈ evs, e.Clears (Sample.config (some 2)) := by
    decide +kernel
  obtain ⟨w, evs, w', hopen, hruns, hlen, hwrites, hclears⟩ := h.exists_runs
  exact ⟨w, evs, w', hruns, hlen,
    (automatic_commits (fun n hn => by cases hn; decide) hopen hruns hwrites).1 hclears⟩

/-- One upsert and a standalone commit, which leaves it on the count; once the interval has passed,
an empty batch makes a version. -/
theorem automatic_commit_empty : ∃ (cfg : CollectionConfig) (clock : ℕ → ℕ) (w w' : World)
    (evs : List Event), cfg.versioning = ⟨none, some 1000⟩ ∧ Monotone clock ∧
      run (World.step Sample.platform cfg) 0 (Durable.openCollection cfg)
        (.boot .empty cfg .sync clock) = some (.ok (), w) ∧
      Runs Sample.platform cfg (.running w) evs (.running w') ∧ (∀ e ∈ evs, e.Writes) ∧
      ¬ NeverEmpty evs := by
  have h : Node.OpensAndLeads Sample.platform { Sample.config none with
        versioning := ⟨none, some 1000⟩ } (fun n => 1000 * (n - 1))
      [.writeBatch [([1], none)] [] none, .commit none none, .writeBatch [] [] none]
      fun evs => (∀ e ∈ evs, e.Writes) ∧ ∃ e ∈ evs.getLast?, e.Automatic ∧
        uncommitted evs.dropLast + e.upserts = 0 := by
    decide +kernel
  obtain ⟨w, evs, w', hopen, hruns, hwrites, e, he, hauto, hzero⟩ := h.exists_runs
  refine ⟨_, _, w, w', evs, rfl, fun a b hab => Nat.mul_le_mul_left _ (Nat.sub_le_sub_right hab 1),
    hopen, hruns, hwrites,
    fun hnever => ?_⟩
  have := hnever evs.dropLast e [] (List.dropLast_append_getLast? e he).symm hauto
  lia

end Vecvec
