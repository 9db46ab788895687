import Vecvec.Machinery.Faults
import Vecvec.Durable.Log
import Vecvec.Durable.Script

/-!
# Durable/Faults — I/O errors

An append or a flush of the log may get through part of its bytes before it fails; a file that is
created, or written and renamed over another, may fail before or after it is in place.  The call
returns at once: its lock is released, what it did in memory stays.  Errors of `remove_file` are
ignored by the source and are none here.
-/

namespace Vecvec

open Machinery DurableOp

/-- What a failed action got done. -/
inductive Damage
  /-- so many bytes, of an append or a flush -/
  | bytes (n : ℕ)
  /-- nothing: the file is as it was -/
  | nothing
  /-- all of it: the file is in place, and a later step failed -/
  | done

section

variable (P : Platform) (cfg : CollectionConfig)

/-- The directory after an effect that failed; `none` if it cannot fail so. -/
def Disk.damaged (d : Disk) : DiskEffect → Damage → Option Disk
  | .append g op, .bytes n =>
    if n < (walFrame P op).length then
      some (d.setWal g ((d.wals g).map fun f =>
        { f with pending := f.pending ++ (walFrame P op).take n }))
    else none
  | .flush g, .bytes n =>
    some (d.setWal g ((d.wals g).map fun f =>
      ⟨f.durable ++ f.pending.take n, f.pending.drop n⟩))
  | .openLog _, .nothing | .writeSegment _, .nothing | .writeVersions _, .nothing
  | .writeHead _, .nothing => some d
  | .openLog g, .done => some (d.perform P cfg (.openLog g))
  | .writeSegment s, .done => some (d.perform P cfg (.writeSegment s))
  | .writeVersions s, .done => some (d.perform P cfg (.writeVersions s))
  | .writeHead h, .done => some (d.perform P cfg (.writeHead h))
  | _, _ => none

/-- The process after caller `t` gives up: its lock is released, and it is inserting nothing. -/
def World.giveUp (t : ℕ) (d : Disk) (w : World) : World :=
  { w with
    disk := d
    walHolder := if w.walHolder = some t then none else w.walHolder
    collection.inserting := Function.update w.collection.inserting t [] }

/-- An action that fails. -/
def World.fault (t : ℕ) (o : DurableOp) (x : Damage) (w w' : World) : Prop :=
  ∃ e d, o.effects w = [e] ∧ w.disk.damaged P cfg e x = some d ∧ w' = w.giveUp t d

/-- A call of caller `t` that gives up. -/
abbrev Fails {α : Type} (t : ℕ) (p : DurableProg α) (w : World) (os : List DurableOp)
    (o : DurableOp) (x : Damage) (w' : World) : Prop :=
  GivesUp (World.step P cfg) (World.fault P cfg) t p w os o x w'

end

/-- The record an action appends to the log. -/
def DurableOp.record? : DurableOp → Option WalOp
  | .walAppend op => some op
  | _ => none

/-- The record an effect appends to a log. -/
def DiskEffect.record? : DiskEffect → Option WalOp
  | .append _ op => some op
  | _ => none

/-- The records that actions append to the log. -/
abbrev appended (os : List DurableOp) : List WalOp := os.filterMap DurableOp.record?

variable {P : Platform} {cfg : CollectionConfig} {t : ℕ} {w w' : World} {os : List DurableOp}
  {o : DurableOp} {x : Damage}

theorem appended_append (os os' : List DurableOp) :
    appended (os ++ os') = appended os ++ appended os' := List.filterMap_append

/-- An action without effects does not fail. -/
theorem World.not_fault (ho : o.effects w = []) : ¬ World.fault P cfg t o x w w' := by
  rintro ⟨e, d, he, -⟩
  rw [ho] at he
  cases he

theorem filterMap_record?_effects (o : DurableOp) (w : World) :
    (o.effects w).filterMap DiskEffect.record? = appended [o] := by
  cases o with
  | walFlush =>
    rw [DurableOp.effects]
    split <;> rfl
  | _ => rfl

/-- A call appends the records of its effects. -/
theorem appended_of_steps {α : Type} {p : DurableProg α} {es : List DiskEffect} {a b : α}
    {w₁ w₂ : World} (hp : Performs (World.persistence P cfg) t p w es a w₁)
    (hst : Steps (World.step P cfg) t p w os (.ret b) w₂) :
    appended os = es.filterMap DiskEffect.record? := by
  generalize hq : (Prog.ret b : DurableProg α) = q at hst
  induction hst generalizing es with
  | refl p w =>
    subst hq
    cases hp
    rfl
  | @cons o _ w _ _ _ os _ hs _ ih =>
    cases hp with
    | act hs' rest =>
      rw [hs] at hs'
      cases hs'
      have hemit : ((World.persistence P cfg).emit o w).filterMap DiskEffect.record? =
        appended [o] := filterMap_record?_effects o w
      rw [List.filterMap_append, hemit, ← ih rest hq]
      exact appended_append [o] os

/-- After a first part that cannot fail, a call fails in its second. -/
theorem fails_bind_silent {α β : Type} {p : DurableProg α} {f : α → DurableProg β} {a : α}
    {w₁ : World} (hg : Fails P cfg t (p >>= f) w os o x w')
    (hp : Performs (World.persistence P cfg) t p w [] a w₁) :
    ∃ os', Fails P cfg t (f a) w₁ os' o x w' ∧ appended os = appended os' := by
  rcases hg.of_bind_performs hp with hg | ⟨os₁, os₂, hst, hf, rfl⟩
  · -- A call without effects has no action that can fail.
    obtain ⟨es₁, es₂, w₂, hes, ⟨e, d, he, -⟩, -⟩ := hg.of_performs hp
    have he : (World.persistence P cfg).emit o w₂ = [e] := he
    rw [he] at hes
    simp at hes
  · refine ⟨os₂, hf, ?_⟩
    rw [appended_append, appended_of_steps hp hst]
    rfl

/-- After a first part that is through, a call fails in its second. -/
theorem fails_bind {α β : Type} {p : DurableProg α} {f : α → DurableProg β} {a : α} {w₁ : World}
    {es : List DiskEffect} (hg : Fails P cfg t (p >>= f) w os o x w')
    (hp : Performs (World.persistence P cfg) t p w es a w₁) :
    Fails P cfg t p w os o x w' ∨ ∃ os', Fails P cfg t (f a) w₁ os' o x w' ∧
      appended os = es.filterMap DiskEffect.record? ++ appended os' := by
  rcases hg.of_bind_performs hp with hg | ⟨os₁, os₂, hst, hf, rfl⟩
  · exact .inl hg
  · exact .inr ⟨os₂, hf, by rw [appended_append, appended_of_steps hp hst]⟩

/-! ## Calls that fail, computed -/

variable (P cfg) in
/-- The call after `n` of its actions, the next of which fails. -/
def World.failAt {α : Type} (t : ℕ) (p : DurableProg α) (n : ℕ) (x : Damage) (w : World) :
    Option (List DurableOp × DurableOp × World) :=
  match firstSteps (World.step P cfg) t n p w with
  | (os, .act o _, w₁) =>
    match o.effects w₁ with
    | [e] => (w₁.disk.damaged P cfg e x).map fun d => (os, o, w₁.giveUp t d)
    | _ => none
  | (_, .ret _, _) => none

theorem World.fails_of_failAt {α : Type} {p : DurableProg α} {n : ℕ}
    (h : w.failAt P cfg t p n x = some (os, o, w')) : Fails P cfg t p w os o x w' := by
  have hst := @steps_firstSteps durableInterface World α (World.step P cfg) t n p w
  unfold World.failAt at h
  split at h
  · rename_i hfirst
    rw [hfirst] at hst
    split at h
    · obtain ⟨d, hd, h⟩ := Option.map_eq_some_iff.mp h
      cases h
      exact .of_steps hst ⟨_, d, ‹_›, hd, rfl⟩
    · cases h
  · cases h

variable (P cfg) in
/-- A script leads to a process, a call of it fails, and all that has a property. -/
def Breaks {α : Type} (cs : List Command) (p : DurableProg α) (n : ℕ) (x : Damage)
    (Q : List Event → World → List DurableOp → DurableOp → World → Prop) : Prop :=
  Node.Leads P cfg (.stopped .empty) cs fun evs n' =>
    match n' with
    | .running w => ∃ y ∈ w.failAt P cfg 0 p n x, Q evs w y.1 y.2.1 y.2.2
    | .stopped _ => False

instance {α : Type} {cs : List Command} {p : DurableProg α} {n : ℕ}
    {Q : List Event → World → List DurableOp → DurableOp → World → Prop}
    [∀ evs w os o w', Decidable (Q evs w os o w')] : Decidable (Breaks P cfg cs p n x Q) := by
  have : ∀ (evs : List Event) (n' : Node), Decidable (match n' with
      | .running w => ∃ y ∈ w.failAt P cfg 0 p n x, Q evs w y.1 y.2.1 y.2.2
      | .stopped _ => False) := by
    intro evs n'
    split <;> infer_instance
  unfold Breaks
  infer_instance

theorem Breaks.exists_fails {α : Type} {cs : List Command} {p : DurableProg α} {n : ℕ}
    {Q : List Event → World → List DurableOp → DurableOp → World → Prop}
    (h : Breaks P cfg cs p n x Q) : ∃ evs w os o w', Runs P cfg (.stopped .empty) evs (.running w) ∧
      Fails P cfg 0 p w os o x w' ∧ Q evs w os o w' := by
  obtain ⟨evs, n', hr, hq⟩ := Node.Leads.exists_runs h
  cases n' with
  | running w =>
    obtain ⟨⟨os, o, w'⟩, hy, hq⟩ := hq
    exact ⟨evs, w, os, o, w', hr, World.fails_of_failAt hy, hq⟩
  | stopped d => exact hq.elim

/-! ## A batch that fails -/

/-- Where the logging of a batch stands: some of its records are appended, and the allocator has
passed their ids. -/
def World.logging (P : Platform) (cfg : CollectionConfig) (t : ℕ) (w : World) (ops : List WalOp)
    (n : GlobalId) (l : List GlobalId) : World :=
  { w with
    walHolder := some t
    disk := w.disk.performAll P cfg (ops.map (.append w.generation))
    collection.nextGlobalId := n
    collection.inserting := Function.update w.collection.inserting t l }

/-- The deletes of a batch, logged up to an error. -/
theorem fails_forM_walAppend {ids : List GlobalId} {ops : List WalOp} {n : GlobalId}
    {l : List GlobalId}
    (hg : Fails P cfg t (ids.forM fun id => Durable.perform (walAppend (.delete id)))
      (w.logging P cfg t ops n l) os o x w') :
    ∃ ids₁ id ids₂, ids = ids₁ ++ id :: ids₂ ∧ o = .walAppend (.delete id) ∧
      appended os = ids₁.map .delete ∧
      World.fault P cfg t o x (w.logging P cfg t (ops ++ ids₁.map .delete) n l) w' := by
  induction ids generalizing ops os with
  | nil => exact absurd hg GivesUp.not_ret
  | cons id ids ih =>
    cases hg with
    | here hf => exact ⟨[], id, ids, rfl, rfl, rfl, by simpa using hf⟩
    | later hs rest =>
      cases hs
      have hstep : { w.logging P cfg t ops n l with
          disk := (w.logging P cfg t ops n l).disk.perform P cfg
            (.append w.generation (.delete id)) } =
          w.logging P cfg t (ops ++ [.delete id]) n l := by
        simp [World.logging]
      obtain ⟨ids₁, id', ids₂, rfl, ho, hos, hf⟩ := ih (hstep ▸ rest)
      refine ⟨id :: ids₁, id', ids₂, rfl, ho, congrArg (WalOp.delete id :: ·) hos, ?_⟩
      simpa using hf

theorem upsertRecords_append (next : GlobalId) (ups ups' : List (List F32 × Option Payload)) :
    upsertRecords next (ups ++ ups') =
      upsertRecords next ups ++ upsertRecords (next + ups.length) ups' := by
  induction ups generalizing next with
  | nil => rfl
  | cons u ups ih =>
    obtain ⟨v, p⟩ := u
    rw [List.cons_append, upsertRecords, ih, upsertRecords, List.cons_append, List.length_cons,
      Nat.add_right_comm, Nat.add_assoc]

/-- The upserts of a batch, logged up to an error. -/
theorem fails_logUpserts {ups : List (List F32 × Option Payload)} {ops : List WalOp} {n : GlobalId}
    {l : List GlobalId}
    (hg : Fails P cfg t (Durable.logUpserts ups) (w.logging P cfg t ops n l) os o x w') :
    ∃ ups₁ u ups₂ l', ups = ups₁ ++ u :: ups₂ ∧
      o = .walAppend (.upsert (n + ups₁.length) u.1 u.2) ∧
      appended os = upsertRecords n ups₁ ∧
      World.fault P cfg t o x
        (w.logging P cfg t (ops ++ upsertRecords n ups₁) (n + ups₁.length + 1) l') w' := by
  induction ups generalizing ops n l os with
  | nil => exact absurd hg GivesUp.not_ret
  | cons u ups ih =>
    obtain ⟨v, p⟩ := u
    rw [Durable.logUpserts] at hg
    have halloc : Performs (World.persistence P cfg) t (Durable.inMemory Collection.alloc)
        (w.logging P cfg t ops n l) [] n (w.logging P cfg t ops (n + 1) (n :: l)) := by
      have hstep : Collection.step P cfg t .allocGlobalId (w.logging P cfg t ops n l).collection =
          some (n, (w.logging P cfg t ops (n + 1) (n :: l)).collection) := by
        simp [World.logging, Collection.step]
      exact performs_inMemory_perform hstep
    obtain ⟨os', hg', happ⟩ := fails_bind_silent hg halloc
    rw [happ]
    cases hg' with
    | here hf => exact ⟨[], (v, p), ups, _, rfl, rfl, rfl, by simpa [upsertRecords] using hf⟩
    | later hs rest =>
      cases hs
      have hstep : { w.logging P cfg t ops (n + 1) (n :: l) with
          disk := (w.logging P cfg t ops (n + 1) (n :: l)).disk.perform P cfg
            (.append w.generation (.upsert n v p)) } =
          w.logging P cfg t (ops ++ [.upsert n v p]) (n + 1) (n :: l) := by
        simp [World.logging]
      have hrest : Fails P cfg t (do
          let ids ← Durable.logUpserts ups
          return n :: ids) (w.logging P cfg t (ops ++ [.upsert n v p]) (n + 1) (n :: l)) _ o x w' :=
        hstep ▸ rest
      rcases hrest.of_bind with hrec | ⟨a, s₁, os₁, os₂, -, hret, -⟩
      · obtain ⟨ups₁, u, ups₂, l', rfl, rfl, hos, hf⟩ := ih hrec
        have hn : n + (ups₁.length + 1) = n + 1 + ups₁.length := Nat.add_right_comm _ _ 1
        refine ⟨(v, p) :: ups₁, u, ups₂, l', rfl, by rw [List.length_cons, hn],
          congrArg (WalOp.upsert n v p :: ·) hos, ?_⟩
        rw [List.length_cons, hn, upsertRecords]
        simpa using hf
      · exact absurd hret GivesUp.not_ret

/-- A segment file that cannot be written. -/
theorem fails_persistSegment {id : SegmentId}
    (hg : Fails P cfg t (Durable.persistSegment id) w os o x w') :
    (∃ seg, o = .writeSealed seg) ∧ ∃ d, w' = w.giveUp t d := by
  rw [Durable.persistSegment] at hg
  obtain ⟨os', hg, -⟩ := hg.of_perform_bind rfl fun _ _ => World.not_fault rfl
  split at hg
  · exact absurd hg GivesUp.not_ret
  obtain ⟨os', hg, -⟩ := fails_bind_silent hg performs_getSegment
  cases hs : w.collection.allSegments id with
  | none =>
    rw [hs] at hg
    exact absurd hg GivesUp.not_ret
  | some seg =>
    rw [hs] at hg
    cases hg with
    | here hf =>
      obtain ⟨e, d, -, -, rfl⟩ := hf
      exact ⟨⟨seg, rfl⟩, d, rfl⟩
    | later hs' rest =>
      cases rest with
      | here hf => exact absurd hf (World.not_fault rfl)
      | later hs'' rest => exact absurd rest GivesUp.not_ret

/-- The segment files of a commit, written up to an error. -/
theorem fails_forM_persistSegment {ids : List SegmentId} (hk : w.collection.Keyed)
    (hg : Fails P cfg t (ids.forM Durable.persistSegment) w os o x w') :
    (∃ seg, o = .writeSealed seg) ∧ ∃ (w₁ : World) (d : Disk), w₁.collection = w.collection ∧
      w' = w₁.giveUp t d := by
  induction ids generalizing w os with
  | nil => exact absurd hg GivesUp.not_ret
  | cons id ids ih =>
    obtain ⟨es, w₁, hp, hc⟩ : ∃ es w₁, Performs (World.persistence P cfg) t
        (Durable.persistSegment id) w es PUnit.unit w₁ ∧ w₁.collection = w.collection := by
      by_cases hid : id ∈ w.persistedSegments
      · exact ⟨_, _, performs_persistSegment_of_mem hid, rfl⟩
      cases hs : w.collection.allSegments id with
      | none => exact ⟨_, _, performs_persistSegment_of_none hid hs, rfl⟩
      | some seg => exact ⟨_, _, performs_persistSegment_of_some hid hs (hk id seg hs), rfl⟩
    rcases fails_bind hg hp with hg | ⟨os', hg, -⟩
    · obtain ⟨ho, d, rfl⟩ := fails_persistSegment hg
      exact ⟨ho, w, d, rfl, rfl⟩
    · obtain ⟨ho, w₂, d, hc', rfl⟩ := ih (hc ▸ hk) hg
      exact ⟨ho, w₂, d, hc'.trans hc, rfl⟩

/-- **Persisting the versions, up to an error**, changes nothing in memory. -/
theorem fails_persistVersions (hk : w.collection.Keyed)
    (hg : Fails P cfg t Durable.persistVersions w os o x w') :
    ((∃ seg, o = .writeSealed seg) ∨ ∃ s, o = .writeVersions s) ∧
      ∃ (w₁ : World) (d : Disk), w₁.collection = w.collection ∧ w' = w₁.giveUp t d := by
  rw [Durable.persistVersions] at hg
  obtain ⟨os', hg, -⟩ := fails_bind_silent hg performs_segmentIdsToPersist
  rcases fails_bind hg (performs_forM_persistSegment hk (nodup_sortedIds _)) with hg | ⟨os', hg, -⟩
  · obtain ⟨ho, h⟩ := fails_forM_persistSegment hk hg
    exact ⟨.inl ho, h⟩
  · obtain ⟨os', hg, -⟩ :=
      fails_bind_silent hg (performs_inMemory_perform (o := .versionSnapshot) rfl)
    cases hg with
    | here hf =>
      obtain ⟨e, d, -, -, rfl⟩ := hf
      exact ⟨.inr ⟨_, rfl⟩, w.wrote P cfg w.unpersisted, d, rfl, rfl⟩
    | later hs rest => exact absurd rest GivesUp.not_ret

/-- The call failed past its log: a version was made, and not persisted. -/
structure CommitFailed (w : World) (o : DurableOp) (w' : World) : Prop where
  /-- It was not an append that failed. -/
  record : o.record? = none
  /-- Nor the flush. -/
  flush : o ≠ .walFlush
  /-- There is a version more. -/
  version : w'.collection.versions.nextVersion = w.collection.versions.nextVersion + 1

/-- A version made, and not persisted. -/
theorem fails_persist {trigger : String} {message tag : Option String} {w₀ : World}
    (hk : w.collection.Keyed) (hc : w₀.collection = w.collection.commitNow trigger message tag)
    (hg : Fails P cfg t Durable.persistVersions w₀ os o x w') : CommitFailed w o w' := by
  obtain ⟨ho, w₁, d, hc', rfl⟩ := fails_persistVersions (by rw [hc]; exact hk.commitNow) hg
  have hv : (w₁.giveUp t d).collection.versions.nextVersion =
      w.collection.versions.nextVersion + 1 := by
    change w₁.collection.versions.nextVersion = _
    rw [hc', hc]
    change w.collection.sealNow.versions.nextVersion + 1 = _
    rw [Collection.sealNow_versions]
  rcases ho with ⟨seg, rfl⟩ | ⟨s, rfl⟩ <;> exact ⟨rfl, by simp, hv⟩

/-- A commit that fails, before the end of a call that cannot. -/
theorem fails_commit {α : Type} {f : VersionId → DurableProg α} (hi : w.collection.Quiet)
    (hk : w.collection.Keyed) (trigger : String) (message tag : Option String)
    (hg : Fails P cfg t (do
      let v ← Durable.inMemory (Collection.commit trigger message tag)
      Durable.persistVersions
      f v) w os o x w')
    (hf : ∀ os, ¬ Fails P cfg t (f w.collection.versions.nextVersion)
      ((Move.commit trigger message tag).result P cfg w) os o x w') : CommitFailed w o w' := by
  obtain ⟨os', hg, -⟩ := fails_bind_silent hg
    (performs_inMemory (Collection.run_commit (by rw [hi.sealing])))
  rcases fails_bind hg (performs_persistVersions hk.commitNow) with hg | ⟨os', hg, -⟩
  · exact fails_persist hk rfl hg
  · exact absurd hg (hf _)

/-- The bookkeeping after a batch fails in an automatic commit. -/
theorem fails_afterBatch {n : ℕ} {v : Option VersionId} (hi : w.Idle)
    (hg : Fails P cfg t (Durable.afterBatch n v) w os o x w') : CommitFailed w o w' := by
  cases v with
  | some v =>
    obtain ⟨os', hg, -⟩ := hg.of_perform_bind rfl fun _ _ => World.not_fault rfl
    exact absurd hg GivesUp.not_ret
  | none =>
    obtain ⟨os', hg, -⟩ := hg.of_perform_bind rfl fun _ _ => World.not_fault rfl
    split at hg
    · obtain ⟨os', hg, -⟩ := fails_bind_silent hg
        (performs_inMemory (Collection.run_commit (by rw [hi.quiet.sealing])))
      obtain ⟨os', hg, -⟩ := hg.of_perform_bind rfl fun _ _ => World.not_fault rfl
      rcases hg.of_bind with hg | ⟨_, _, _, _, -, hg, -⟩
      · exact fails_persist hi.keyed rfl hg
      · exact absurd hg GivesUp.not_ret
    · exact absurd hg GivesUp.not_ret

end Vecvec
