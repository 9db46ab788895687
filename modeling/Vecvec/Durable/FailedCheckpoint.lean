import Vecvec.Durable.Entries
import Vecvec.Durable.Faults

/-!
# Durable/FailedCheckpoint — a checkpoint that fails

`checkpoint` returns at the first I/O error.  If it comes while the segment files or the next log
are written, `HEAD` still names the log the process appends to.  If it comes after the new `HEAD`
is in place — `write_atomic` renames it, and then fails to flush the directory — `HEAD` names the
next log, and the process goes on appending to the old one.
-/

namespace Vecvec

open Machinery DurableOp

variable {P : Platform} {cfg : CollectionConfig} {t : ℕ} {w w' : World} {os : List DurableOp}
  {o : DurableOp} {x : Damage}

/-! ## Where a checkpoint fails -/

/-- The effects of files put in place, or not. -/
def DiskEffect.Atomic : DiskEffect → Prop
  | .openLog _ | .writeSegment _ | .writeVersions _ | .writeHead _ => True
  | _ => False

/-- **A file put in place fails to be**, or is. -/
theorem Disk.damaged_atomic {d d' : Disk} {e : DiskEffect} (he : e.Atomic)
    (h : d.damaged P cfg e x = some d') :
    x = .nothing ∧ d' = d ∨ x = .done ∧ d' = d.perform P cfg e := by
  cases e with
  | openLog | writeSegment | writeVersions | writeHead =>
    cases x with
    | bytes n => cases h
    | nothing => exact .inl ⟨rfl, (Option.some.inj h).symm⟩
    | done => exact .inr ⟨rfl, (Option.some.inj h).symm⟩
  | append | flush | removeLog | removeSegment | writeConfig => exact he.elim

/-- An action that puts a file in place, and fails. -/
theorem World.of_fault {e : DiskEffect} (ho : o.effects w = [e]) (he : e.Atomic)
    (hf : World.fault P cfg t o x w w') : x ≠ .done ∧ w' = w.giveUp t w.disk ∨
      x = .done ∧ w' = w.giveUp t (w.disk.perform P cfg e) := by
  obtain ⟨e', d, he', hd, rfl⟩ := hf
  rw [ho] at he'
  cases he'
  obtain ⟨rfl, rfl⟩ | ⟨rfl, rfl⟩ := Disk.damaged_atomic he hd
  · exact .inl ⟨by simp, rfl⟩
  · exact .inr ⟨rfl, rfl⟩

/-- An error of `remove_file` is ignored. -/
theorem World.not_fault_removeWal {g : ℕ} : ¬ World.fault P cfg t (.removeWal g) x w w' := by
  rintro ⟨e, d, he, hd, -⟩
  cases he
  cases x <;> cases hd

/-- The segment files of a checkpoint, written up to an error. -/
theorem fails_checkpointSegments {ids : List SegmentId} (hk : w.collection.Keyed)
    (hg : Fails P cfg t (Durable.checkpointSegments ids) w os o x w') :
    ∃ segs es, segs <+: ids.filterMap w.collection.allSegments ∧ (∃ seg, o = .writeSealed seg) ∧
      segs.map .writeSegment <+: es ∧
      es <+: (ids.filterMap w.collection.allSegments).map .writeSegment ∧
      w' = (w.wrote P cfg segs).giveUp t (w.disk.performAll P cfg es) := by
  induction ids generalizing w os with
  | nil => exact absurd hg GivesUp.not_ret
  | cons id ids ih =>
    rw [Durable.checkpointSegments] at hg
    obtain ⟨os', hg, -⟩ := fails_bind_silent hg performs_getSegment
    cases hs : w.collection.allSegments id with
    | none =>
      rw [hs] at hg
      rw [List.filterMap_cons_none hs]
      exact ih hk hg
    | some seg =>
      rw [hs] at hg
      rw [List.filterMap_cons_some hs]
      cases hg with
      | here hf =>
        have hnone : w.wrote P cfg [] = w := by simp [World.wrote]
        obtain ⟨-, rfl⟩ | ⟨-, rfl⟩ := World.of_fault (e := .writeSegment seg) rfl trivial hf
        · exact ⟨[], [], List.nil_prefix, ⟨seg, rfl⟩, List.nil_prefix, List.nil_prefix,
            by rw [hnone]; rfl⟩
        · exact ⟨[], [.writeSegment seg], List.nil_prefix, ⟨seg, rfl⟩, List.nil_prefix,
            List.prefix_append [_] _, by rw [hnone]; rfl⟩
      | later hs₁ hg =>
        cases hs₁
        obtain ⟨os₁, hg, -⟩ := hg.of_perform_bind rfl fun _ _ => World.not_fault rfl
        have hwrote : w.wrote P cfg [seg] = { w with
            disk := w.disk.setSegment seg.id (some seg.rows)
            persistedSegments := insert id w.persistedSegments } := by
          simp [World.wrote, Disk.perform, hk id seg hs]
        rw [← hwrote] at hg
        rcases hg.of_bind with hg | ⟨_, _, _, _, -, hg, -⟩
        · obtain ⟨segs, es, hsegs, ho, hpre, hes, rfl⟩ := ih (w := w.wrote P cfg [seg]) hk hg
          refine ⟨seg :: segs, .writeSegment seg :: es,
            (List.cons_prefix_cons).mpr ⟨rfl, hsegs⟩, ho,
            (List.cons_prefix_cons).mpr ⟨rfl, hpre⟩, (List.cons_prefix_cons).mpr ⟨rfl, hes⟩, ?_⟩
          rw [wrote_wrote]
          rfl
        · exact absurd hg GivesUp.not_ret

/-- The error came when the new `HEAD` was in place. -/
def HeadInPlace (o : DurableOp) (x : Damage) : Prop := (∃ h, o = .writeHead h) ∧ x = .done

/-- The effects of a checkpoint up to the next log, the appendable being sealed. -/
def World.unswungEffects (w : World) : List DiskEffect :=
  w.checkpointed.map .writeSegment ++ [.openLog (w.generation + 1)]

theorem World.checkpointEffects_eq (w : World) : w.checkpointEffects =
    w.unswungEffects ++ [.writeHead w.newHead, .removeLog w.generation] := by
  rw [World.checkpointEffects, World.unswungEffects, List.append_assoc]
  rfl

variable (P cfg) in
/-- **What a failed checkpoint leaves**, the appendable being sealed: some first effects of it, the
new `HEAD` being one of them exactly if it was in place. -/
structure World.CheckpointFailed (w : World) (segs : List SealedSegment) (es : List DiskEffect)
    (o : DurableOp) (x : Damage) (w' : World) : Prop where
  /-- The segments marked as written. -/
  marked : segs <+: w.checkpointed
  /-- Their files are. -/
  written : segs.map .writeSegment <+: es
  /-- What was done. -/
  effects : HeadInPlace o x ∧ es = w.unswungEffects ++ [.writeHead w.newHead] ∨
    ¬ HeadInPlace o x ∧ es <+: w.unswungEffects
  /-- The process. -/
  eq : w' = { w.wrote P cfg segs with disk := w.disk.performAll P cfg es }

/-- The end of a checkpoint, up to an error. -/
theorem fails_checkpoint_swing {working : SegmentSet} {all : List SegmentId} {head : CheckpointHead}
    (hh : head = ⟨w.generation + 1, working.map SealedSegment.id, all, w.collection.nextGlobalId,
      w.collection.nextSegmentId, w.collection.workingDeletions, w.collection.payloads⟩)
    (hg : Fails P cfg t (do
        let old ← Durable.perform walGeneration
        Durable.perform (openWal (old + 1))
        let nextGlobal ← Durable.inMemory (Collection.perform .nextGlobalIdValue)
        let nextSegment ← Durable.inMemory (Collection.perform .nextSegmentIdValue)
        let deletions ← Durable.inMemory (Collection.perform .loadDeletions)
        let payloads ← Durable.inMemory (Collection.perform .payloadsSnapshot)
        Durable.perform (writeHead ⟨old + 1, working.map SealedSegment.id, all, nextGlobal,
          nextSegment, deletions, payloads⟩)
        Durable.perform (switchWal (old + 1))
        Durable.perform (removeWal old)
        Durable.perform unlockWal) w os o x w') :
    ∃ es, w' = w.giveUp t (w.disk.performAll P cfg es) ∧
      (HeadInPlace o x ∧ es = [.openLog (w.generation + 1), .writeHead head] ∨
        ¬ HeadInPlace o x ∧ es <+: [.openLog (w.generation + 1)]) := by
  subst hh
  obtain ⟨os₁, hg, -⟩ := hg.of_perform_bind rfl fun _ _ => World.not_fault rfl
  rw [Prog.perform_bind] at hg
  cases hg with
  | here hf =>
    have ho : ¬ HeadInPlace (.openWal (w.generation + 1)) x := fun h => (by cases h.1.choose_spec)
    obtain ⟨-, rfl⟩ | ⟨-, rfl⟩ :=
      World.of_fault (e := .openLog (w.generation + 1)) rfl trivial hf
    · exact ⟨[], rfl, .inr ⟨ho, List.nil_prefix⟩⟩
    · exact ⟨[_], rfl, .inr ⟨ho, List.prefix_rfl⟩⟩
  | later hs hg =>
    cases hs
    set w₁ : World := { w with disk := w.disk.perform P cfg (.openLog (w.generation + 1)) } with hw₁
    obtain ⟨os₂, hg, -⟩ := fails_bind_silent (w := w₁) hg (performs_inMemory_perform rfl)
    obtain ⟨os₃, hg, -⟩ := fails_bind_silent hg (performs_inMemory_perform rfl)
    obtain ⟨os₄, hg, -⟩ := fails_bind_silent hg (performs_inMemory_perform rfl)
    obtain ⟨os₅, hg, -⟩ := fails_bind_silent hg (performs_inMemory_perform rfl)
    rw [Prog.perform_bind] at hg
    cases hg with
    | here hf =>
      obtain ⟨hx, rfl⟩ | ⟨rfl, rfl⟩ := World.of_fault (e := .writeHead _) rfl trivial hf
      · exact ⟨[_], rfl, .inr ⟨fun h => hx h.2, List.prefix_rfl⟩⟩
      · exact ⟨_, rfl, .inl ⟨⟨⟨_, rfl⟩, rfl⟩, rfl⟩⟩
    | later hs hg =>
      cases hs
      obtain ⟨os₆, hg, -⟩ := hg.of_perform_bind rfl fun _ _ => World.not_fault rfl
      obtain ⟨os₇, hg, -⟩ := hg.of_perform_bind rfl fun _ _ => World.not_fault_removeWal
      cases hg with
      | here hf => exact absurd hf (World.not_fault rfl)
      | later hs hg => exact absurd hg GivesUp.not_ret

/-- **Where a checkpoint fails.** -/
theorem fails_checkpoint (hi : w.Idle) (hg : Fails P cfg t Durable.checkpoint w os o x w') :
    ∃ segs es, (Move.checkpoint.prepare P cfg w).CheckpointFailed P cfg segs es o x w' := by
  obtain ⟨r, hr⟩ := @Collection.run_sealAppendable P cfg w.collection t (by rw [hi.quiet.sealing])
  set wp := Move.checkpoint.prepare P cfg w with hwp
  obtain ⟨os₁, hg, -⟩ := hg.of_perform_bind (if_pos hi.free) fun _ _ => World.not_fault rfl
  obtain ⟨os₂, hg, -⟩ :=
    fails_bind_silent hg (performs_inMemory (w := { w with walHolder := some t }) hr)
  have hgive : ∀ segs d, (({ wp with walHolder := some t } : World).wrote P cfg segs).giveUp t d =
      { wp.wrote P cfg segs with disk := d } := by
    intro segs d
    have hins : Function.update wp.collection.inserting t [] = wp.collection.inserting := by
      exact Function.update_eq_self_iff.mpr (congrFun hi.quiet.sealNow.inserting t).symm
    simp only [World.giveUp, World.wrote, hins, if_pos]
    rw [show wp.walHolder = none from hi.free]
  obtain ⟨os₃, hg, -⟩ := fails_bind_silent hg
    (performs_inMemory_perform (c := w.collection.sealNow) rfl)
  obtain ⟨os₄, hg, -⟩ := fails_bind_silent hg performs_segmentIdsToPersist
  rcases fails_bind hg (performs_checkpointSegments hi.keyed.sealNow) with hg | ⟨os₅, hg, -⟩
  · obtain ⟨segs, es, hsegs, ⟨seg, rfl⟩, hpre, hes, rfl⟩ :=
      fails_checkpointSegments hi.keyed.sealNow hg
    refine ⟨segs, es, hsegs, hpre, .inr ⟨fun h => (by cases h.1.choose_spec), ?_⟩, hgive _ _⟩
    exact hes.trans (List.prefix_append _ _)
  · obtain ⟨es, rfl, hes⟩ := fails_checkpoint_swing rfl hg
    refine ⟨wp.checkpointed, wp.checkpointed.map .writeSegment ++ es, List.prefix_rfl,
      List.prefix_append _ _, ?_, ?_⟩
    · rw [World.unswungEffects, List.append_assoc, List.prefix_append_right_inj]
      exact hes.imp (fun h => ⟨h.1, congrArg _ h.2⟩) id
    · rw [Disk.performAll_append]
      exact hgive _ _

/-! ## Effects on one log -/

/-- The effect leaves `HEAD` alone, and every log file but one. -/
def DiskEffect.OnLog (g : ℕ) : DiskEffect → Prop
  | .append g' _ | .flush g' | .openLog g' | .removeLog g' => g' = g
  | .writeHead _ => False
  | _ => True

namespace Disk

variable {d : Disk} {es : List DiskEffect} {g : ℕ}

variable (P cfg d) in
theorem perform_onLog {e : DiskEffect} (he : e.OnLog g) : (d.perform P cfg e).head = d.head ∧
    ∀ g' ≠ g, (d.perform P cfg e).wals g' = d.wals g' := by
  cases e with
  | append | flush | openLog | removeLog =>
    obtain rfl := he
    exact ⟨rfl, fun g' hg => Function.update_of_ne hg ..⟩
  | writeHead => exact he.elim
  | writeSegment | removeSegment | writeVersions | writeConfig => exact ⟨rfl, fun _ _ => rfl⟩

variable (P cfg d) in
theorem performAll_onLog (hes : ∀ e ∈ es, e.OnLog g) : (d.performAll P cfg es).head = d.head ∧
    ∀ g' ≠ g, (d.performAll P cfg es).wals g' = d.wals g' := by
  induction es generalizing d with
  | nil => exact ⟨rfl, fun _ _ => rfl⟩
  | cons e es ih =>
    obtain ⟨he, hes⟩ := List.forall_mem_cons.mp hes
    obtain ⟨hh, hw⟩ := perform_onLog P cfg d he
    obtain ⟨hh', hw'⟩ := ih (d.perform P cfg e) hes
    exact ⟨hh'.trans hh, fun g' hg => (hw' g' hg).trans (hw g' hg)⟩

/-- Segment files stay where nothing removes them. -/
theorem isSome_performAll {id : SegmentId} (hes : ∀ e ∈ es, e ≠ .removeSegment id)
    (h : (d.segments id).isSome) : ((d.performAll P cfg es).segments id).isSome := by
  induction es generalizing d with
  | nil => exact h
  | cons e es ih =>
    obtain ⟨he, hes⟩ := List.forall_mem_cons.mp hes
    refine ih hes ?_
    cases e with
    | writeSegment s =>
      change (Function.update d.segments s.id (some s.rows) id).isSome
      rw [Function.update_apply]
      split
      · rfl
      · exact h
    | removeSegment i =>
      change (Function.update d.segments i none id).isSome
      rwa [Function.update_of_ne fun hi : id = i => he (by rw [hi])]
    | append | flush | openLog | removeLog | writeVersions | writeHead | writeConfig => exact h

end Disk

theorem World.onLog_unswungEffects (w : World) :
    ∀ e ∈ w.unswungEffects, e.OnLog (w.generation + 1) := by
  intro e he
  rcases List.mem_append.mp he with he | he
  · obtain ⟨s, -, rfl⟩ := List.mem_map.mp he
    trivial
  · rw [List.mem_singleton.mp he]
    rfl

/-! ## What a failed checkpoint leaves -/

namespace World.CheckpointFailed

variable {segs : List SealedSegment} {es : List DiskEffect} {L : GlobalId → List F32}

theorem isPrefix (h : w.CheckpointFailed P cfg segs es o x w') : es <+: w.checkpointEffects := by
  rw [World.checkpointEffects_eq]
  obtain ⟨-, rfl⟩ | ⟨-, hes⟩ := h.effects
  · exact (List.prefix_append_right_inj _).mpr (List.prefix_append [_] [_])
  · exact hes.trans (List.prefix_append _ _)

theorem disk_eq (h : w.CheckpointFailed P cfg segs es o x w') :
    w'.disk = w.disk.performAll P cfg es := by rw [h.eq]

theorem collection_eq (h : w.CheckpointFailed P cfg segs es o x w') :
    w'.collection = w.collection := by
  rw [h.eq]
  rfl

theorem generation_eq (h : w.CheckpointFailed P cfg segs es o x w') :
    w'.generation = w.generation := by
  rw [h.eq]
  rfl

/-- The segments marked as written are on disk. -/
theorem stocked (h : w.CheckpointFailed P cfg segs es o x w') (hs : w.Stocked) : w'.Stocked := by
  refine ⟨h.collection_eq ▸ hs.backed, fun id hid => ?_⟩
  obtain ⟨es', rfl⟩ := h.written
  rw [h.disk_eq, Disk.performAll_append, Disk.performAll_writeSegments]
  refine Disk.isSome_performAll (fun e he => ?_) (isSome_fill.mpr ?_)
  · have hmem := h.isPrefix.subset (List.mem_append_right _ he)
    rintro rfl
    simp [World.checkpointEffects] at hmem
  · rw [h.eq] at hid
    rcases Finset.mem_union.mp hid with hid | hid
    · exact .inl (hs.filed id hid)
    · exact .inr (List.mem_toFinset.mp hid)

end World.CheckpointFailed

section

variable {segs : List SealedSegment} {es : List DiskEffect} {L : GlobalId → List F32}

/-- After a failed checkpoint no call is in progress. -/
theorem idle_failed (hi : w.Idle)
    (hf : (Move.checkpoint.prepare P cfg w).CheckpointFailed P cfg segs es o x w') : w'.Idle := by
  rw [hf.eq]
  exact ⟨hi.quiet.sealNow, hi.free, hi.sync, hi.keyed.sealNow⟩

/-- A process whose checkpoint failed can still be restarted. -/
theorem supplied_failed (h : (Node.running w).Supplied)
    (hf : (Move.checkpoint.prepare P cfg w).CheckpointFailed P cfg segs es o x w') :
    (Node.running w').Supplied := by
  obtain ⟨hi, hst, hd⟩ := h
  have hp : (Move.checkpoint.prepare P cfg w).Stocked := ⟨hst.backed.sealNow, hst.filed⟩
  refine ⟨idle_failed hi hf, hf.stocked hp, ?_⟩
  rw [hf.disk_eq]
  exact (hp.along_checkpoint hi.keyed.sealNow hd).upto hf.isPrefix

theorem World.Synced.prepared (h : w.Synced P) :
    (Move.checkpoint.prepare P cfg w).Synced P := h.congr rfl rfl rfl

/-- Where the directory of a failed checkpoint stands. -/
theorem World.Synced.swinging_failed (h : w.Synced P)
    (hf : (Move.checkpoint.prepare P cfg w).CheckpointFailed P cfg segs es o x w') :
    w.disk.Swinging (Move.checkpoint.prepare P cfg w).newHead w'.disk := by
  rw [hf.disk_eq]
  exact (@World.Synced.prepared P cfg w h).along_checkpoint.upto hf.isPrefix

theorem World.CheckpointFailed.nextGlobalId_eq
    (hf : (Move.checkpoint.prepare P cfg w).CheckpointFailed P cfg segs es o x w') :
    w'.collection.nextGlobalId = w.collection.nextGlobalId := by
  rw [hf.collection_eq]
  exact Collection.sealNow_nextGlobalId

/-- The files, wherever a checkpoint fails. -/
theorem World.Durable.keeps_failed (h : w.Durable P cfg L)
    (hf : (Move.checkpoint.prepare P cfg w).CheckpointFailed P cfg segs es o x w') :
    Disk.Keeps P cfg L w.collection.nextGlobalId w.disk w'.disk := by
  rw [hf.disk_eq]
  exact h.keeps (m := .checkpoint) trivial trivial hf.isPrefix

/-- **Before the new `HEAD` is in place**, a failed checkpoint changes nothing that counts: the
process is in step with its log, and process and directory stand for what they did. -/
theorem World.Durable.failed_unswung (h : w.Durable P cfg L)
    (hf : (Move.checkpoint.prepare P cfg w).CheckpointFailed P cfg segs es o x w')
    (ho : ¬ HeadInPlace o x) : w'.Durable P cfg L ∧
      w'.disk.standing P cfg = w.disk.standing P cfg ∧
      w'.collection.standing = w.collection.standing := by
  have hes := (hf.effects.resolve_left fun h => ho h.1).2
  obtain ⟨hh, hw⟩ := Disk.performAll_onLog P cfg w.disk
    fun e he => World.onLog_unswungEffects _ e (hes.subset he)
  rw [← show w'.disk = w.disk.performAll P cfg es from hf.disk_eq] at hh hw
  have hgen : w.disk.generation ≠ w.generation + 1 := by
    rw [← h.synced.generation]
    exact (Nat.lt_succ_self _).ne
  have hk := h.keeps_failed hf
  obtain ⟨hd, hst⟩ := h.logged (m := .checkpoint) trivial hk hh List.nil_prefix
    ((Disk.records_congr hh (hw _ hgen)).trans (List.append_nil _).symm)
  refine ⟨⟨⟨idle_failed h.idle hf, ?_, ?_, ?_, ?_⟩, ⟨?_, ?_, ?_⟩, hd, ?_⟩, hst, ?_⟩
  · rw [hf.collection_eq]
    exact h.known_sealed
  · rw [hf.collection_eq]
    exact h.placed.sealNow
  · rw [hf.nextGlobalId_eq]
    exact hk.filed
  · rw [hf.collection_eq]
    exact h.anchored.sealNow.keep hh hk.working
  · exact (h.synced.swinging_failed hf).1
  · rw [hf.generation_eq, Disk.generation_congr hh]
    exact h.synced.generation
  · rw [Disk.generation_congr hh, hw _ hgen]
    exact h.synced.log
  · rw [hf.nextGlobalId_eq, Disk.allocator_of_standing hst, h.allocator]
  · rw [hf.collection_eq]
    exact Collection.standing_sealNow

end

/-! ## A process adrift -/

variable (P cfg) in
/-- **A process adrift**: it appends to a log that `HEAD` does not name any more, and the directory
stands for what it did when `HEAD` was swung. -/
structure World.Adrift (L : GlobalId → List F32) (w : World) : Prop extends
    World.Held P cfg L w where
  /-- The directory stands for known points. -/
  disk : w.disk.Known P cfg L w.collection.nextGlobalId
  /-- Nothing is pending in its logs. -/
  settled : w.disk.Settled
  /-- `HEAD` names a later log than the open one. -/
  behind : w.generation < w.disk.generation

section

variable {segs : List SealedSegment} {es : List DiskEffect} {L : GlobalId → List F32}

/-- **Once the new `HEAD` is in place**, a failed checkpoint leaves the process adrift; the
directory stands for what is in memory. -/
theorem World.Durable.failed_swung (h : w.Durable P cfg L)
    (hf : (Move.checkpoint.prepare P cfg w).CheckpointFailed P cfg segs es o x w')
    (ho : HeadInPlace o x) :
    w'.Adrift P cfg L ∧ w'.disk.standing P cfg = w.collection.standing := by
  have hes := (hf.effects.resolve_right fun h => h.1 ho).2
  have hk := h.keeps_failed hf
  have hh : w'.disk.head = some (Move.checkpoint.prepare P cfg w).newHead := by
    rw [hf.disk_eq, hes, Disk.performAll_append]
    rfl
  obtain ⟨hset, hsw⟩ := h.synced.swinging_failed hf
  have hgen : w'.disk.generation = w.generation + 1 := by
    rw [Disk.generation, hh]
    rfl
  have hr : w'.disk.records P = [] := by
    refine (Disk.records_eq (f := ⟨[], []⟩) ?_).trans rfl
    rw [hgen]
    exact (hsw.resolve_left fun ho => h.synced.prepared.head_ne (ho.1.symm.trans hh)).2
  have hfiles := h.checkpointed hf.isPrefix
  rw [← show w'.disk = w.disk.performAll P cfg es from hf.disk_eq] at hfiles
  obtain ⟨hd, hst⟩ := h.swung hk hfiles hh hr
  have halloc : w'.disk.allocator P cfg = w'.collection.nextGlobalId := by
    rw [← Disk.standing_next, hst, hf.nextGlobalId_eq]
    rfl
  refine ⟨⟨⟨idle_failed h.idle hf, ?_, ?_, ?_, ?_⟩, halloc ▸ hd, hset, ?_⟩, hst⟩
  · rw [hf.collection_eq]
    exact h.known_sealed
  · rw [hf.collection_eq]
    exact h.placed.sealNow
  · rw [hf.nextGlobalId_eq]
    exact hk.filed
  · rw [hf.collection_eq]
    exact h.anchors_swung hh (hfiles hh)
  · rw [hgen, hf.generation_eq]
    exact Nat.lt_succ_self _

end

/-- A move that makes no checkpoint touches the open log only. -/
theorem Move.onLog_effects {m : Move} (hm : m ≠ .checkpoint) :
    ∀ e ∈ m.effects P cfg w, e.OnLog w.generation := by
  by_cases hoff : m.OffLog
  · intro e he
    have hoff := Move.offLog_effects hoff e he
    cases e with
    | writeSegment | removeSegment | writeVersions | writeConfig => trivial
    | append | flush | openLog | removeLog | writeHead => exact hoff.elim
  · cases m with
    | log ups dels =>
      intro e he
      rcases List.mem_append.mp he with he | he
      · obtain ⟨op, -, rfl⟩ := List.mem_map.mp he
        rfl
      · rw [List.mem_singleton.mp he]
        rfl
    | checkpoint => exact absurd rfl hm
    | _ => exact absurd trivial hoff

namespace World.Adrift

variable {m : Move} {es : List DiskEffect} {L : GlobalId → List F32} {d : Disk}

/-- What more is learned is not in the directory. -/
theorem ledger_eq (h : w.Adrift P cfg L) {L' : GlobalId → List F32}
    (hL : ∀ id < w.collection.nextGlobalId, L' id = L id) :
    (w.disk.standing P cfg).ledger L' = (w.disk.standing P cfg).ledger L := by
  refine Standing.ledger_congr fun id hid => hL id ?_
  exact ((h.disk.standing_bounded.held id hid).trans_eq (Disk.standing_next _)).trans_le h.disk.le

/-- **A move that makes no checkpoint, cut off anywhere**, leaves what the directory stands for. -/
theorem cut (h : w.Adrift P cfg L) (hm : m.Enabled cfg w) (ht : m.SparesNamed w)
    (hck : m ≠ .checkpoint) (hes : es <+: m.effects P cfg w) :
    (w.disk.performAll P cfg es).Known P cfg L w.collection.nextGlobalId ∧
      (w.disk.performAll P cfg es).standing P cfg = w.disk.standing P cfg := by
  have hk := h.keeps hm ht hes
  obtain ⟨hh, hw⟩ := Disk.performAll_onLog P cfg w.disk
    fun e he => Move.onLog_effects hck e (hes.subset he)
  exact h.disk.keep hh hk.working hk.filed (Disk.records_congr hh (hw _ h.behind.ne'))

/-- What a crash leaves of a move that makes no checkpoint. -/
theorem survives (h : w.Adrift P cfg L) (hm : m.Enabled cfg w) (ht : m.SparesNamed w)
    (hck : m ≠ .checkpoint) (hes : es <+: m.effects P cfg w)
    (hd : (w.disk.performAll P cfg es).Survives d) :
    d.Settled ∧ d.Known P cfg L w.collection.nextGlobalId ∧
      d.standing P cfg = w.disk.standing P cfg := by
  obtain ⟨hk, hst⟩ := h.cut hm ht hck hes
  obtain ⟨hh, hw⟩ := Disk.performAll_onLog P cfg w.disk
    fun e he => Move.onLog_effects hck e (hes.subset he)
  obtain ⟨-, hh', hv, hsegs, hwals⟩ := hd
  -- The logs `HEAD` names, now or later, are flushed and have not been touched.
  have hlater : ∀ g, w.disk.generation ≤ g → d.wals g = w.disk.wals g := by
    intro g hg
    rw [← hw g (h.behind.trans_le hg).ne']
    rcases hwals g with ⟨hn, hn'⟩ | ⟨f, f', hf, hf', hs⟩
    · rw [hn, hn']
    · have hp := h.settled.flushed g f (hw g (h.behind.trans_le hg).ne' ▸ hf)
      rw [hf, hf', WalFile.survives_of_flushed hp hs]
  have hgen : d.generation = w.disk.generation := Disk.generation_congr (hh'.trans hh)
  obtain ⟨hk', hst'⟩ := hk.congr hh' hsegs hv (Disk.records_congr hh' (by
    rw [Disk.generation_congr hh, hlater _ le_rfl, hw _ h.behind.ne']))
  refine ⟨⟨fun g f hf => ?_, fun g f hlt hf => ?_⟩, hk', hst'.trans hst⟩
  · rcases hwals g with ⟨-, hn'⟩ | ⟨_, f', -, hf', kept, -, rfl⟩
    · rw [hf] at hn'
      cases hn'
    · rw [hf] at hf'
      cases hf'
      rfl
  · rw [hgen] at hlt
    exact h.settled.later g f hlt (hlater g hlt.le ▸ hf)

/-- **A move that makes no checkpoint** keeps a process adrift. -/
theorem move (h : w.Adrift P cfg L) (hm : m.Enabled cfg w) (ht : m.SparesNamed w)
    (hpl : m.Placed w) (hck : m ≠ .checkpoint) :
    (m.result P cfg w).Adrift P cfg ((m.logs w).foldl learn L) ∧
      (m.result P cfg w).disk.standing P cfg = w.disk.standing P cfg := by
  obtain ⟨hk, hst⟩ := h.cut hm ht hck List.prefix_rfl
  obtain ⟨hh, hw⟩ := Disk.performAll_onLog P cfg w.disk
    (Move.onLog_effects hck)
  rw [← Move.result_disk] at hk hst hh hw
  have hnum := @Move.numbered_logs cfg w m hm
  refine ⟨⟨h.toHeld.move hm ht hpl hh, ?_, ?_, ?_⟩, hst⟩
  · rw [h.nextGlobalId_result hm ht]
    exact hk.mono (fun id hid => hnum.learn_of_lt L hid) (le_foldl_bump _ _)
  · by_cases hoff : m.OffLog
    · obtain ⟨hh, hw⟩ := @Move.result_offLog P cfg w m hoff
      exact h.settled.congr hh hw
    cases m with
    | log ups dels =>
      rw [Move.result, World.logged, World.logEffects, Disk.performAll_log]
      refine h.settled.setWal _ fun f hf => ?_
      obtain ⟨f', -, rfl⟩ := Option.map_eq_some_iff.mp hf
      exact ⟨rfl, fun hlt => absurd hlt h.behind.not_gt⟩
    | checkpoint => exact absurd rfl hck
    | _ => exact absurd trivial hoff
  · rw [Disk.generation_congr hh]
    refine Eq.trans_lt ?_ h.behind
    cases m with
    | checkpoint => exact absurd rfl hck
    | _ => rfl

end World.Adrift

/-- Moves that make no checkpoint keep a process adrift. -/
theorem Moves.adrift {ms : List Move} {es : List DiskEffect} {L : GlobalId → List F32}
    (h : Moves P cfg w ms es w') (hw : w.Adrift P cfg L) (hs : Sparing P cfg w ms)
    (hck : .checkpoint ∉ ms) : ∃ L', w'.Adrift P cfg L' ∧
      w'.disk.standing P cfg = w.disk.standing P cfg ∧
      (w'.disk.standing P cfg).ledger L' = (w.disk.standing P cfg).ledger L := by
  induction h generalizing L with
  | nil w => exact ⟨L, hw, rfl, rfl⟩
  | cons hm _ ih =>
    obtain ⟨hspare, hplaced, -, hs⟩ := hs
    obtain ⟨hne, hck⟩ := not_or.mp (mt List.mem_cons.mpr hck)
    obtain ⟨hw₁, hst₁⟩ := hw.move hm hspare hplaced (Ne.symm hne)
    obtain ⟨L', hw', hst, hled⟩ := ih hw₁ hs hck
    refine ⟨L', hw', hst.trans hst₁, hled.trans ?_⟩
    rw [hst₁]
    exact hw.ledger_eq fun id hid => (Move.numbered_logs hm).learn_of_lt L hid

variable (P cfg) in
/-- A process adrift, or its directory, that stands for the ledger. -/
def Node.Adrift (S : Standing) (M : Ledger) : Node → Prop
  | .running w => ∃ L, w.Adrift P cfg L ∧ w.disk.standing P cfg = S ∧ S.ledger L = M
  | .stopped d => ∃ L n, (d.Settled ∧ d.Known P cfg L n) ∧ d.standing P cfg = S ∧ S.ledger L = M

/-- The event neither makes a checkpoint, restores a version, nor opens the directory. -/
structure Event.Carries (e : Event) : Prop where
  /-- No checkpoint is made. -/
  checkpoints : ¬ e.Checkpoints
  /-- No version is restored. -/
  restores : ¬ e.Restores
  /-- The directory is not opened. -/
  opened : ∀ d, e ≠ .opened d

/-- **Every regular event** but a checkpoint and the next opening keeps a process adrift. -/
theorem Node.Adrift.step {n n' : Node} {e : Event} {S : Standing} {M : Ledger}
    (h : n.Adrift P cfg S M) (he : e.Regular P cfg) (hc : e.Carries)
    (hs : Node.Step P cfg n e n') : n'.Adrift P cfg S M := by
  cases hs with
  | @call w w' r resp hr =>
    obtain ⟨L, hw, rfl, rfl⟩ := h
    obtain ⟨ms, es, _, hw', hms, hmk⟩ := (Node.Step.call hr).of_call hw.idle
    cases hw'
    obtain ⟨L', hw', hst, hled⟩ := hms.adrift hw (hmk.sparing hms he)
      fun hck => hc.checkpoints (hmk.checkpoints hck)
    exact ⟨L', hw', hst, hst ▸ hled⟩
  | @crash w w' r os p d hst hsv =>
    obtain ⟨L, hw, rfl, rfl⟩ := h
    obtain ⟨_, ms, es₁, w₁, m, es₂, hd', hms, hsp, -, hm, hspare, -, hes, hd, -, hck⟩ :=
      (Node.Step.crash hst hsv).of_crash_regular hw.idle he
    cases hd'
    obtain ⟨hck, hckm⟩ := not_or.mp (mt List.mem_append.mpr (mt hck hc.checkpoints))
    obtain ⟨L', hw₁, hst₁, hled⟩ := hms.adrift hw hsp hck
    obtain ⟨hset, hk, hst'⟩ := hw₁.survives hm hspare
      (fun hm => hckm (hm ▸ List.mem_singleton_self _)) hes hd
    exact ⟨L', _, ⟨hset, hk⟩, hst'.trans hst₁, hst₁ ▸ hled⟩
  | @stop w d hsv =>
    obtain ⟨L, hw, rfl, rfl⟩ := h
    obtain ⟨hk, hst⟩ := hw.disk.survives hw.settled hsv
    exact ⟨L, _, hk, hst, rfl⟩
  | opened => exact absurd rfl (hc.opened _)
  | openCrash hst hsv =>
    obtain ⟨L, n, hk, rfl, rfl⟩ := h
    obtain ⟨_, es, hw, hes, hd⟩ := (Node.Step.openCrash hst hsv).of_openCrash
    cases hw
    obtain ⟨⟨hset, hk⟩, hst₁⟩ := (hk.2.along_open hk.1).upto hes
    obtain ⟨hk', hst'⟩ := hk.survives hset hd
    exact ⟨L, n, hk', hst'.trans hst₁, rfl⟩

/-! ## What was acknowledged -/

/-- The ids a request logs are the allocator's. -/
theorem Request.numbered_logs (r : Request) :
    Numbered cfg w.collection.nextGlobalId (r.logs cfg w) := by
  cases r with
  | writeBatch ups dels =>
    rw [Request.logs]
    split
    · exact numbered_batchRecords ‹_›
    · trivial
  | upsert points =>
    rw [Request.logs]
    split
    · exact numbered_batchRecords ‹_›
    · trivial
  | _ => trivial

/-- Records that upsert no id below `n` delete points there at most. -/
theorem Ledger.applyAll_of_lt {l : List WalOp} {M : Ledger} {n : GlobalId}
    (hl : ∀ id v p, .upsert id v p ∈ l → n ≤ id) {id : GlobalId} (hid : id < n) :
    M.applyAll l id = M id ∨ M.applyAll l id = none := by
  induction l generalizing M with
  | nil => exact .inl rfl
  | cons op l ih =>
    refine (ih (M := M.apply op) fun id v p hm => hl id v p (List.mem_cons_of_mem _ hm)).elim
      (fun h => ?_) .inr
    change (M.apply op).applyAll l id = _ ∨ (M.apply op).applyAll l id = none
    rw [h]
    cases op with
    | upsert g v p =>
      have hne := (hid.trans_le (hl g v p List.mem_cons_self)).ne
      exact .inl (Function.update_of_ne hne _ _)
    | delete g =>
      rw [Ledger.apply, Function.update_apply]
      split
      · exact .inr rfl
      · exact .inl rfl

/-- What is entered while a process is adrift has ids the directory does not know. -/
theorem Node.Adrift.enters {n n' : Node} {e : Event} {S : Standing} {M : Ledger} {l : List WalOp}
    (h : n.Adrift P cfg S M) (hs : Node.Step P cfg n e n') (hl : e.Enters cfg l) {id : GlobalId}
    {v : List F32} {p : Option Payload} (hmem : .upsert id v p ∈ l) : S.next ≤ id := by
  have hlogs : ∀ (w : World) (r : Request), l <+: r.logs cfg w → (Node.running w).Adrift P cfg S M →
      S.next ≤ id := by
    rintro w r hpre ⟨L, hw, rfl, -⟩
    rw [Disk.standing_next]
    exact hw.disk.le.trans ((r.numbered_logs).of_mem (hpre.subset hmem)).1
  cases hs with
  | @call w w' r resp =>
    obtain rfl := hl
    exact hlogs w r (Event.acked_isPrefix w r resp) h
  | @crash w w' r => exact hlogs w r hl h
  | stop | opened | openCrash =>
    obtain rfl := hl
    exact (List.not_mem_nil hmem).elim

/-- **While a process is adrift** the directory stands for what it did, and of the points there what
is acknowledged changes nothing but to delete some. -/
theorem Runs.adrift {n₀ n : Node} {evs : List Event} {S : Standing} {M : Ledger}
    (h : Runs P cfg n₀ evs n) (hn : n₀.Adrift P cfg S M)
    (hreg : ∀ e ∈ evs, e.Regular P cfg ∧ e.Carries) : n.Adrift P cfg S M ∧
      ∀ M', Acknowledged cfg M evs M' → ∀ id < S.next, M' id = M id ∨ M' id = none := by
  refine @Runs.invariant_past P cfg (fun evs n => n.Adrift P cfg S M ∧
    ∀ M', Acknowledged cfg M evs M' → ∀ id < S.next, M' id = M id ∨ M' id = none)
    (fun e => e.Regular P cfg ∧ e.Carries) ?_ _ _ _ h ⟨hn, fun M' hack => ?_⟩ hreg
  · rintro evs n e n' ⟨hn, hold⟩ he hs
    refine ⟨hn.step he.1 he.2 hs, fun M' hack id hid => ?_⟩
    obtain ⟨M₁, l, hack₁, hl, rfl⟩ := acknowledged_snoc.mp hack
    rcases Ledger.applyAll_of_lt (M := M₁) (fun _ _ _ hmem => hn.enters hs hl hmem) hid with h | h
    · rw [h]
      exact hold M₁ hack₁ id hid
    · exact .inr h
  · obtain rfl := acknowledged_nil hack
    exact fun _ _ => .inl rfl

/-- **What a failed checkpoint loses.**  In a regular history with no restore unsettled, a
checkpoint fails; what follows makes no checkpoint and restores no version; then the directory is
opened.  It gives what was live before and what was acknowledged since, exactly if the error came
before the new `HEAD` was in place, or what was acknowledged since amounts to nothing. -/
theorem Runs.failed_checkpoint {w₁ : World} {evs : List Event}
    (h : Runs P cfg (.stopped .empty) evs (.running w)) (hreg : ∀ e ∈ evs, e.Regular P cfg)
    (hset : ¬ Unsettled evs) (hf : Fails P cfg 0 Durable.checkpoint w os o x w₁) :
    ∃ M, w.collection.Stands P cfg M ∧
      ((∀ e ∈ evs, ¬ e.Restores) → Acknowledged cfg (fun _ => none) evs M) ∧
      ∀ (evs' : List Event) (d : Disk), Runs P cfg (.running w₁) evs' (.stopped d) →
        (∀ e ∈ evs', e.Regular P cfg ∧ e.Carries) → d.Reads P →
          ((∃ M', Acknowledged cfg M evs' M' ∧ d.Reopens P cfg M') ↔
            ¬ HeadInPlace o x ∨ Acknowledged cfg M evs' M) := by
  obtain ⟨L, hw, hagree, hack⟩ := h.durable hreg
  have hw : w.Durable P cfg L := hw
  have hag : w.disk.standing P cfg = w.collection.standing := hagree hset
  have hsup : (Node.running w).Supplied :=
    @Runs.invariant P cfg Node.Supplied Event.SparesNamed (fun _ _ _ => supplied_step) _ _ _ h
      complete_empty fun e he => (hreg e he).spares
  obtain ⟨segs, es, hf⟩ := fails_checkpoint hw.idle hf
  have hsup₁ := supplied_failed hsup hf
  refine ⟨(w.disk.standing P cfg).ledger L, hag ▸ hw.memory.stands, hack,
    fun evs' d h' hreg' hreads => ?_⟩
  have hc : d.Complete :=
    @Runs.invariant P cfg Node.Supplied Event.SparesNamed (fun _ _ _ => supplied_step) _ _ _ h'
      hsup₁ fun e he => (hreg' e he).1.spares
  by_cases ho : HeadInPlace o x
  · obtain ⟨hw₁, hst⟩ := hw.failed_swung hf ho
    rw [← hag] at hst
    obtain ⟨⟨L', n, ⟨-, hk⟩, hst', hled⟩, hold⟩ := h'.adrift ⟨L, hw₁, hst, rfl⟩ hreg'
    have hre : d.Reopens P cfg ((w.disk.standing P cfg).ledger L) := by
      rw [← hled, ← hst']
      exact hk.opensAgain hreads hc
    refine ⟨fun ⟨M', hack', hre'⟩ => .inr ?_, fun hor => ⟨_, hor.resolve_left (· ho), hre⟩⟩
    -- What is opened stands for both, and nothing acknowledged since is among the old points.
    convert hack' using 1
    funext id
    have hsome := hre.isSome_eq hre' id
    rcases lt_or_ge id (w.disk.standing P cfg).next with hid | hid
    · rcases hold M' hack' id hid with h | h
      · exact h.symm
      · rw [h] at hsome ⊢
        exact Option.isSome_eq_false_iff.mp hsome |> Option.isNone_iff_eq_none.mp
    · have hnone := hw.disk.standing_bounded.ledger_eq_none (L := L) hid
      rw [hnone] at hsome ⊢
      exact (Option.isNone_iff_eq_none.mp (Option.isSome_eq_false_iff.mp hsome.symm)).symm
  · obtain ⟨hw₁, hst, hst'⟩ := hw.failed_unswung hf ho
    obtain ⟨L', hd, -, hack'⟩ := Runs.durable_from h' (L := L) hw₁ (hst.trans (hag.trans hst'.symm))
      fun e he => (hreg' e he).1
    refine ⟨fun _ => .inl ho, fun _ => ⟨_, ?_, hd.2.opensAgain hreads hc⟩⟩
    have hack' := hack' fun e he => (hreg' e he).2.restores
    rwa [show (Node.running w₁).standing P cfg = w.disk.standing P cfg from hst] at hack'

/-- A checkpoint fails before it replaces `HEAD`, a point is written, and the process is stopped. -/
theorem failed_checkpoint_sample : ∃ evs w os o w' evs' d M M',
    Runs Sample.platform (Sample.config none) (.stopped .empty) evs (.running w) ∧
    Fails Sample.platform (Sample.config none) 0 Durable.checkpoint w os o .nothing w' ∧
    w.collection.Stands Sample.platform (Sample.config none) M ∧
    Runs Sample.platform (Sample.config none) (.running w') evs' (.stopped d) ∧
    1 ∈ evs'.flatMap Event.issued ∧ Acknowledged (Sample.config none) M evs' M' ∧
    d.Reopens Sample.platform (Sample.config none) M' := by
  have h : Breaks Sample.platform (Sample.config none) [.open, .call (.upsert [([0], none)])]
      Durable.checkpoint 16 .nothing fun evs _ _ _ w' =>
        (∀ e ∈ evs, e.Regular Sample.platform (Sample.config none) ∧ ¬ e.Restores) ∧
          Node.Leads Sample.platform (Sample.config none) (.running w')
            [.call (.upsert [([1], none)])] fun evs' _ =>
              (∀ e ∈ evs', e.Regular Sample.platform (Sample.config none)) ∧
                (evs'.flatMap Event.issued).contains 1 := by
    decide +kernel
  obtain ⟨evs, w, os, o, w', hr, hf, hreg, hlater⟩ := h.exists_fails
  obtain ⟨resp, w₁, hcall, hreg', hid⟩ := hlater.exists_call
  obtain ⟨M, hM, -, hlater⟩ :=
    hr.failed_checkpoint (fun e he => (hreg e he).1) (not_unsettled fun e he => (hreg e he).2) hf
  have hevs : Runs Sample.platform (Sample.config none) (.running w')
      ([.call w' (.upsert [([1], none)]) resp] ++ [.stop]) (.stopped w₁.disk.flushedOnly) :=
    (Runs.nil _ |>.snoc hcall).snoc (.stop (Disk.survives_flushedOnly _))
  have hcarries : ∀ e ∈ [Event.call w' (.upsert [([1], none)]) resp] ++ [Event.stop],
      e.Regular Sample.platform (Sample.config none) ∧ e.Carries := by
    refine List.forall_mem_append.mpr ⟨?_, ?_⟩
    · exact List.forall_mem_singleton.mpr
        ⟨hreg' _ (List.mem_singleton_self _), id, id, by simp⟩
    · exact List.forall_mem_singleton.mpr ⟨⟨trivial, trivial, trivial⟩, id, id, by simp⟩
  obtain ⟨M', hack, hre⟩ := (hlater _ _ hevs hcarries (Sample.reads _)).mpr
    (.inl (by simp [HeadInPlace]))
  refine ⟨evs, w, os, o, w', _, _, M, M', hr, hf, hM, hevs, ?_, hack, hre⟩
  rw [List.flatMap_append]
  exact List.mem_append_left _ (List.contains_iff_mem.mp hid)

/-- **A write acknowledged after a failed checkpoint is lost.**  The new `HEAD` is in place, and
then the directory cannot be flushed; an upsert that follows is answered, and gone after a
restart. -/
theorem exists_checkpoint_loses : ∃ evs w os o w' evs₁ w₁ evs₂ w₂,
    Runs Sample.platform (Sample.config none) (.stopped .empty) evs (.running w) ∧
    Fails Sample.platform (Sample.config none) 0 Durable.checkpoint w os o .done w' ∧
    Runs Sample.platform (Sample.config none) (.running w') evs₁ (.running w₁) ∧
    1 ∈ evs₁.flatMap Event.issued ∧ w₁.collection.liveMap 1 ≠ none ∧
    Runs Sample.platform (Sample.config none) (.running w₁) evs₂ (.running w₂) ∧
    w₂.collection.liveMap 1 = none := by
  have h : Breaks Sample.platform (Sample.config none) [.open, .call (.upsert [([0], none)])]
      Durable.checkpoint 16 .done fun _ _ _ _ w' =>
        Node.Leads Sample.platform (Sample.config none) (.running w')
          [.call (.upsert [([0], none)])] fun evs n =>
            ((evs.flatMap Event.issued).contains 1 && n.shows 1) ∧
              n.Leads Sample.platform (Sample.config none) [.stop, .open] fun _ n' =>
                n'.shows 0 ∧ ¬ n'.shows 1 := by
    decide +kernel
  obtain ⟨evs, w, os, o, w', hr, hf, hlater⟩ := h.exists_fails
  obtain ⟨evs₁, n, hr₁, hand, hlater⟩ := hlater.exists_runs
  obtain ⟨hid, hn⟩ := Bool.and_eq_true_iff.mp hand
  obtain ⟨evs₂, n', hr₂, hn', hlost⟩ := hlater.exists_runs
  cases n with
  | stopped d => cases hn
  | running w₁ =>
    cases n' with
    | stopped d => cases hn'
    | running w₂ =>
      exact ⟨evs, w, os, o, w', evs₁, w₁, evs₂, w₂, hr, hf, hr₁, by simpa using hid,
        Option.isSome_iff_ne_none.mp hn, hr₂, by simpa [Node.shows] using hlost⟩

end Vecvec
