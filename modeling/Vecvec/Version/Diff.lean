import Vecvec.Version.Store

/-!
# Version/Diff — the difference of two versions, from the ranges of their segments

A store owns no rows, so `diff` takes every id of a referenced segment's range for one of its rows.
What a difference of two such sets says of the rows is set algebra (`sdiff_eq_iff`): the ids that
are in a range and in no row must be the same on both sides.
-/

namespace Vecvec

/-- The difference of two versions' live ids. -/
structure Diff where
  /-- The version compared from. -/
  fromVersion : VersionId
  /-- The version compared to. -/
  toVersion : VersionId
  /-- The ids only the second has. -/
  added : List GlobalId
  /-- The ids only the first has. -/
  removed : List GlobalId
  deriving DecidableEq

/-- The ids of the range a segment's reference records. -/
def SegmentRef.range (r : SegmentRef) : List GlobalId := List.range' r.idLo (r.idHi + 1 - r.idLo)

@[simp] theorem SegmentRef.mem_range {r : SegmentRef} {g : GlobalId} :
    g ∈ r.range ↔ r.idLo ≤ g ∧ g ≤ r.idHi := by
  rw [range, List.mem_range'_1]
  lia

/-- `live_ids`: the ranges of a version's segments, less its tombstones. -/
def Manifest.liveIds (m : Manifest) : List GlobalId :=
  sortedIds ((m.segments.flatMap SegmentRef.range).filter fun g => g ∉ m.deletions)

theorem Manifest.mem_liveIds {m : Manifest} {g : GlobalId} :
    g ∈ m.liveIds ↔ (∃ r ∈ m.segments, r.idLo ≤ g ∧ g ≤ r.idHi) ∧ g ∉ m.deletions := by
  rw [liveIds, mem_sortedIds, List.mem_filter, List.mem_flatMap]
  simp

namespace VersionStore

/-- `diff`: the live ids only one of two versions has. -/
def diff (s : VersionStore) (fromVersion toVersion : VersionId) : Except String Diff :=
  match s.get fromVersion with
  | none => .error s!"no such version: {fromVersion}"
  | some a =>
    match s.get toVersion with
    | none => .error s!"no such version: {toVersion}"
    | some b => .ok ⟨fromVersion, toVersion, b.liveIds.filter fun g => g ∉ a.liveIds,
        a.liveIds.filter fun g => g ∉ b.liveIds⟩

end VersionStore

/-! ## Differences of over-approximations -/

/-- **Two over-approximations have the right differences** exactly if they are too large by the same
elements. -/
theorem sdiff_eq_iff {α : Type*} {A B L M : Set α} (hA : A ⊆ L) (hB : B ⊆ M) :
    (M \ L = B \ A ∧ L \ M = A \ B) ↔ L \ A = M \ B := by
  constructor
  · rintro ⟨hML, hLM⟩
    ext x
    have h₁ := Set.ext_iff.mp hML x
    have h₂ := Set.ext_iff.mp hLM x
    have h₃ := @hA x
    have h₄ := @hB x
    simp only [Set.mem_sdiff] at h₁ h₂ ⊢
    tauto
  · intro h
    have h' := Set.ext_iff.mp h
    simp only [Set.mem_sdiff] at h'
    refine ⟨Set.ext fun x => ?_, Set.ext fun x => ?_⟩
    all_goals
      have h₁ := h' x
      have h₃ := @hA x
      have h₄ := @hB x
      simp only [Set.mem_sdiff]
      tauto

end Vecvec
