import Vecvec.Collection.Calls
import Vecvec.Index.Deleted
import Vecvec.Persist.Sample

/-!
# Collection/Deletes — concurrent deletes are counted once

`Collection::delete` looks whether the point is present, then sets its tombstone by read, copy,
update on the live deletion vector.  With the update written out as its loop, **a pool of calls does
what the pool of `Collection/State` does**, where setting a tombstone is one action
(`Racing.Steps.atomic` at `deletionsCell`); and of deletes alone, on points that are present, **each
id is newly tombstoned by exactly one call** (`counted_deletes`).
-/

namespace Vecvec

open Machinery

namespace Collection

variable {P : Platform} {cfg : CollectionConfig}

/-- The live deletion vector behind its pointer, and the closure of `delete`. -/
def deletionsCell : RcuCell collectionInterface Collection DeletionVector where
  get c := c.workingDeletions
  set deletions c := { c with workingDeletions := deletions }
  update
    | .tombstone id => some (withTombstone id)
    | _ => none

theorem lawful_deletionsCell : deletionsCell.Lawful (step P cfg) where
  get_set _ _ := rfl
  handler t o f c ho := by
    cases o with
    | tombstone id =>
      cases ho
      rfl
    | _ => cases ho

/-- The rows are those of `c₀`: nothing has been sealed or restored. -/
def Unmoved (c₀ c : Collection) : Prop := c.appendable = c₀.appendable ∧ c.working = c₀.working

/-- `contains_any`, on a state. -/
def Present (c : Collection) (id : GlobalId) : Prop :=
  containsId c.appendable.rows id = true ∨ (c.working.any fun s => containsId s.rows id) = true

/-- A delete of a point that is present looks, and sets its tombstone. -/
theorem deleting_delete {c₀ : Collection} {id : GlobalId} (hpresent : Present c₀ id)
    (k : Bool → CollectionProg (List Bool)) (answers : List Bool) (rest : List ℕ)
    (hk : ∀ b, Deleting (step P cfg) (Unmoved c₀) workingDeletions (k b) (answers ++ [b]) rest) :
    Deleting (step P cfg) (Unmoved c₀) workingDeletions (delete id >>= k) answers (id :: rest) := by
  have htombstone : Deleting (step P cfg) (Unmoved c₀) workingDeletions (.act (.tombstone id) k)
      answers (id :: rest) := by
    refine .tombstone (fun t s r s' hs hst => ?_) fun t s r s' _ hst => ?_
    · cases hst
      exact ⟨hs, rfl⟩
    · cases hst
      exact hk _
  refine Deleting.look (S := collectionInterface) (o := .appendableContains id)
    (fun t s r s' _ hst => ?_) fun t s r s' hs hst => ?_
  · cases hst
    rfl
  · cases hst
    by_cases hfound : containsId s.appendable.rows id = true
    · rw [hfound]
      exact htombstone
    · rw [Bool.eq_false_iff.mpr hfound]
      refine Deleting.look (S := collectionInterface) (o := .loadWorking)
        (fun t s r s' _ hst => ?_) fun t s' r s'' hs' hst => ?_
      · cases hst
        rfl
      · cases hst
        have hworking : (s'.working.any fun seg => containsId seg.rows id) = true := by
          rw [hs'.2]
          rw [hs.1] at hfound
          exact hpresent.resolve_left hfound
        change Deleting _ _ _ ((if (s'.working.any fun seg => containsId seg.rows id) = true then
          Prog.perform (S := collectionInterface) (.tombstone id) else pure false) >>= k) _ _
        rw [if_pos hworking]
        exact htombstone

/-- **Concurrent deletes are counted exactly once**, by a segment's tombstone set and by a
collection whose rows stay where they are: for any threads, any lists and any interleaving of loads,
installs and retries. -/
theorem counted_deletes (P : Platform) (cfg : CollectionConfig) (ids : ℕ → List ℕ) :
    (∀ (initial : Finset ℕ) c, Racing.Steps SoftDeleteSet.step SoftDeleteSet.cell
        (.start initial fun t => (ids t).mapM SoftDeleteSet.delete) c →
      ∀ answers, (∀ t, c.pool t = .calm (.ret (answers t))) →
        CountedOnce ids initial c.shared answers) ∧
    ∀ c₀ : Collection, (∀ t, ∀ id ∈ ids t, Present c₀ id) →
      ∀ c, Racing.Steps (step P cfg) deletionsCell (.start c₀ fun t => (ids t).mapM delete) c →
      ∀ answers, (∀ t, c.pool t = .calm (.ret (answers t))) →
        CountedOnce ids c₀.workingDeletions c.shared.workingDeletions answers := by
  refine ⟨fun initial c hrun answers hret => SoftDeleteSet.counted_delete hrun hret,
    fun c₀ hpresent c hrun answers hret => ?_⟩
  have hstart : Deletes (step P cfg) (Unmoved c₀) workingDeletions ids c₀.workingDeletions
      ⟨c₀, fun t => (ids t).mapM delete⟩ :=
    deletes_start ⟨rfl, rfl⟩ fun t id hid => deleting_delete (hpresent t id hid)
  exact (hstart.steps (hrun.atomic lawful_deletionsCell (Racing.sound_start _ _)).2).countedOnce
    fun t => congrArg Caller.rest (hret t)

/-- A collection of one row. -/
def oneRow : Collection := { create with appendable := ⟨[(7, [])]⟩ }

/-- Two threads delete it. -/
def twoDeletes (t : ℕ) : List GlobalId := if t < 2 then [7] else []

/-- The two look, and load the same set; one installs its own, and the other has to load again. -/
theorem exists_retry : ∃ c : Racing collectionInterface Collection DeletionVector (List Bool),
    Racing.Steps (step Sample.platform (Sample.config none)) deletionsCell
      (.start oneRow fun t => (twoDeletes t).mapM delete) c ∧
    ∀ t, c.pool t = .calm (.ret (if t = 0 then [true] else if t = 1 then [false] else [])) := by
  refine ⟨_, ((((((((((Relation.ReflTransGen.refl.tail
    (.act (t := 0) rfl rfl rfl le_rfl fun _ => rfl)).tail
    (.act (t := 1) rfl rfl rfl le_rfl fun _ => rfl)).tail
    (.load (t := 0) rfl rfl)).tail (.load (t := 1) rfl rfl)).tail
    (.compute (t := 0) rfl rfl)).tail (.compute (t := 1) rfl rfl)).tail
    (.install (t := 0) rfl)).tail (.retry (t := 1) rfl (by decide))).tail
    (.compute (t := 1) rfl rfl)).tail (.install (t := 1) rfl)), fun t => ?_⟩
  match t with
  | 0 => rfl
  | 1 => rfl
  | t + 2 => rfl

/-- The tombstone is counted once. -/
theorem counted_deletes_oneRow : (∀ t, ∀ id ∈ twoDeletes t, Present oneRow id) ∧
    ∃ c : Racing collectionInterface Collection DeletionVector (List Bool), CountedOnce twoDeletes ∅
      c.shared.workingDeletions fun t =>
        if t = 0 then [true] else if t = 1 then [false] else [] := by
  have hpresent : ∀ t, ∀ id ∈ twoDeletes t, Present oneRow id := by
    intro t id hid
    rw [twoDeletes] at hid
    split at hid
    · rw [List.mem_singleton.mp hid]
      exact .inl rfl
    · exact absurd hid List.not_mem_nil
  obtain ⟨c, hrun, hret⟩ := exists_retry
  exact ⟨hpresent, c, (counted_deletes Sample.platform (Sample.config none) twoDeletes).2 oneRow
    hpresent c hrun _ hret⟩

end Collection

end Vecvec
