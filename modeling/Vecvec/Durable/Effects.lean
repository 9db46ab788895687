import Vecvec.Durable.Calls
import Vecvec.Collection.Alone
import Vecvec.Machinery.Sequential

/-!
# Durable/Effects — what a call does to the disk

The actions of a durable collection that change its directory, as effects on the directory alone.
A call of the in-memory collection has none.
-/

namespace Vecvec

open Machinery

/-- An effect on the directory. -/
inductive DiskEffect
  /-- bytes of a record at the end of a log file -/
  | append (generation : ℕ) (op : WalOp)
  /-- a flush of a log file -/
  | flush (generation : ℕ)
  /-- a log file opened: created, or its torn tail cut off -/
  | openLog (generation : ℕ)
  /-- a log file removed -/
  | removeLog (generation : ℕ)
  /-- a segment file written -/
  | writeSegment (seg : SealedSegment)
  /-- a segment file removed -/
  | removeSegment (id : SegmentId)
  /-- the versions file replaced -/
  | writeVersions (snapshot : VersionStoreSnapshot)
  /-- `HEAD` replaced -/
  | writeHead (head : CheckpointHead)
  /-- the config file written, if there was none -/
  | writeConfig

variable (P : Platform) (cfg : CollectionConfig)

/-- What an effect does to a directory. -/
def Disk.perform (d : Disk) : DiskEffect → Disk
  | .append g op => d.setWal g ((d.wals g).map fun f => f.append P op)
  | .flush g => d.setWal g ((d.wals g).map .flush)
  | .openLog g => d.setWal g (some (WalFile.opened P (d.wals g)))
  | .removeLog g => d.setWal g none
  | .writeSegment seg => d.setSegment seg.id (some seg.rows)
  | .removeSegment id => d.setSegment id none
  | .writeVersions s => { d with versions := some s }
  | .writeHead h => { d with head := some h }
  | .writeConfig => { d with config := some (d.config.getD cfg) }

/-- A list of effects, in order. -/
abbrev Disk.performAll (d : Disk) (es : List DiskEffect) : Disk :=
  es.foldl (Disk.perform P cfg) d

theorem Disk.performAll_append (d : Disk) (es es' : List DiskEffect) :
    d.performAll P cfg (es ++ es') = (d.performAll P cfg es).performAll P cfg es' :=
  List.foldl_append

/-- Logging leaves the segment files alone. -/
theorem Disk.performAll_log_segments (d : Disk) (g : ℕ) (ops : List WalOp) :
    (d.performAll P cfg (ops.map (.append g) ++ [.flush g])).segments = d.segments := by
  induction ops generalizing d with
  | nil => rfl
  | cons op ops ih => exact ih _

/-- Segment files, written one after another. -/
theorem Disk.performAll_writeSegments (d : Disk) (segs : List SealedSegment) :
    d.performAll P cfg (segs.map .writeSegment) =
      { d with segments := fill SealedSegment.id (fun s => s.rows) d.segments segs } := by
  induction segs generalizing d with
  | nil => rfl
  | cons s segs ih => exact ih _

/-- Segment files, removed. -/
theorem Disk.performAll_removeSegments (d : Disk) (ids : List SegmentId) :
    d.performAll P cfg (ids.map .removeSegment) =
      { d with segments := fun id => if id ∈ ids then none else d.segments id } := by
  induction ids generalizing d with
  | nil => rfl
  | cons i ids ih =>
    refine (ih _).trans (congrArg (fun f => { d with segments := f }) (funext fun id => ?_))
    change (if id ∈ ids then none else Function.update d.segments i none id) = _
    by_cases h : id = i
    · subst h
      simp
    · simp [h]

/-- The effects of an action. -/
def DurableOp.effects : DurableOp → World → List DiskEffect
  | .walAppend op, w => [.append w.generation op]
  | .walFlush, w => if w.fsync = .sync then [.flush w.generation] else []
  | .openWal g, _ => [.openLog g]
  | .removeWal g, _ => [.removeLog g]
  | .writeSealed seg, _ => [.writeSegment seg]
  | .removeSegment id, _ => [.removeSegment id]
  | .writeVersions s, _ => [.writeVersions s]
  | .writeHead h, _ => [.writeHead h]
  | .writeConfigIfAbsent, _ => [.writeConfig]
  | _, _ => []

/-- **The directory is what outlives the process.** -/
def World.persistence : Persistence (World.step P cfg) Disk DiskEffect where
  view := World.disk
  emit := DurableOp.effects
  apply := Disk.perform P cfg
  view_step := by
    intro t o w r w' hs
    cases o with
    | collection o =>
      obtain ⟨_, _, hs⟩ := Option.map_eq_some_iff.mp hs
      cases hs
      rfl
    | lockWal =>
      rw [World.step] at hs
      split at hs
      · cases hs; rfl
      · cases hs
    | walFlush =>
      cases hs
      cases hf : w.fsync with
      | sync => simp [DurableOp.effects, hf, Disk.perform]
      | async => simp [DurableOp.effects, hf]
    | _ => cases hs; rfl

variable {P cfg}

theorem DurableOp.length_effects_le_one (o : DurableOp) (w : World) :
    (o.effects w).length ≤ 1 := by
  unfold DurableOp.effects
  split
  case h_2 => split <;> simp
  all_goals simp

theorem DurableOp.eq_of_removeSegment_mem {o : DurableOp} {w : World} {id : SegmentId}
    (h : .removeSegment id ∈ o.effects w) : o = .removeSegment id := by
  unfold DurableOp.effects at h
  split at h
  case h_2 => split at h <;> simp at h
  all_goals simp_all

theorem World.step_walFlush {t : ℕ} {w : World} (hw : w.fsync = .sync) :
    World.step P cfg t .walFlush w =
      some ((), { w with disk := w.disk.perform P cfg (.flush w.generation) }) := by
  rw [World.step, hw]
  rfl

/-- **A call on the in-memory collection, performed by a durable one**, leaves the disk alone. -/
theorem performs_inMemory {α : Type} {t : ℕ} {p : CollectionProg α} {w : World} {a : α}
    {c : Collection} (hr : run (Collection.step P cfg) t p w.collection = some (a, c)) :
    Performs (World.persistence P cfg) t (Durable.inMemory p) w [] a
      { w with collection := c } := by
  induction p generalizing w with
  | ret b =>
    cases hr
    exact .ret _ _
  | act o k ih =>
    obtain ⟨⟨r, c₁⟩, hs, hr⟩ := Option.bind_eq_some_iff.mp hr
    have hstep : World.step P cfg t (.collection o) w = some (r, { w with collection := c₁ }) := by
      rw [World.step, hs]
      rfl
    exact Performs.act hstep (ih r hr)

/-- One action of the in-memory collection. -/
theorem performs_inMemory_perform {t : ℕ} {o : CollectionOp} {w : World} {r : o.Ret}
    {c : Collection} (hs : Collection.step P cfg t o w.collection = some (r, c)) :
    Performs (World.persistence P cfg) t (Durable.inMemory (Collection.perform o)) w [] r
      { w with collection := c } :=
  performs_inMemory (by rw [Collection.perform, Prog.perform, run_act_of_eq hs]; rfl)

end Vecvec
