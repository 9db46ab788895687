import Vecvec.Collection.Known
import Vecvec.Durable.Allocator

/-!
# Durable/Standing — what a directory stands for

`HEAD` names the files of the checkpointed working set, its tombstones, payloads and allocator; the
records of the active log act on that.  Opening the directory rebuilds a collection that stands for
the same (`Disk.Known.recover`), and the files a directory is to stand for survive every effect that
leaves those of the working set alone.
-/

namespace Vecvec

open Machinery

variable {P : Platform} {cfg : CollectionConfig}

namespace Disk

/-- What `HEAD` stands for. -/
def headStanding (d : Disk) : Standing where
  held id := d.workingIds.any fun i => (d.segments i).any fun rows => containsId rows id
  deletions := d.head.elim ∅ CheckpointHead.deletions
  payloads := d.head.elim (fun _ => none) CheckpointHead.payloads
  next := d.head.elim 0 CheckpointHead.nextGlobalId

variable (P cfg)

/-- **What a directory stands for**: `HEAD`, and the records of the active log on top of it. -/
def standing (d : Disk) : Standing := (d.records P).foldl (Standing.replay cfg) d.headStanding

/-- The segment files hold known rows only, and the versions file has no tombstones from `n` on. -/
structure Filed (L : GlobalId → List F32) (n : GlobalId) (d : Disk) : Prop where
  /-- The segment files. -/
  segments : ∀ id rows, d.segments id = some rows → ∀ r ∈ rows, KnownRow P cfg L n r
  /-- The versions file. -/
  versions : ∀ s, d.versions = some s → ∀ m ∈ s.manifests, ∀ id ∈ m.deletions, id < n

/-- The directory stands for known points, and its files hold none from `n` on. -/
structure Known (L : GlobalId → List F32) (n : GlobalId) (d : Disk) : Prop where
  /-- The files are known. -/
  filed : d.Filed P cfg L n
  /-- So are the ids of the allocator. -/
  le : d.allocator P cfg ≤ n
  /-- What `HEAD` stands for is below its allocator. -/
  bounded : d.headStanding.Bounded
  /-- The ids in the log are the allocator's. -/
  numbered : Numbered cfg d.headStanding.next (d.records P)
  /-- Their vectors are learned. -/
  learned : ∀ id v p, .upsert id v p ∈ d.records P → L id = v
  /-- The segment ids of the working set have been given out. -/
  placed : ∀ h, d.head = some h → ∀ i ∈ h.workingSegmentIds, i < h.nextSegmentId

variable {P cfg} {d d' d₀ : Disk} {L L' : GlobalId → List F32} {n n' : GlobalId} {c : Collection}
  {l : List WalOp}

theorem standing_next (d : Disk) : (d.standing P cfg).next = d.allocator P cfg :=
  Standing.foldl_replay_next _ _

theorem headStanding_congr (hh : d'.head = d.head)
    (hs : ∀ i ∈ d.workingIds, d'.segments i = d.segments i) : d'.headStanding = d.headStanding := by
  have hw : d'.workingIds = d.workingIds := by rw [workingIds, workingIds, hh]
  refine Standing.ext (funext fun id => ?_) ?_ ?_ ?_
  · change (d'.workingIds.any fun i => _) = d.workingIds.any fun i => _
    rw [hw, Bool.eq_iff_iff, List.any_eq_true, List.any_eq_true]
    exact exists_congr fun i => and_congr_right fun hi => by rw [hs i hi]
  all_goals
    rw [headStanding, headStanding, hh]

theorem Filed.mono (h : d.Filed P cfg L n) (hL : ∀ id < n, L' id = L id) (hn : n ≤ n') :
    d.Filed P cfg L' n' :=
  ⟨fun id rows hs r hr => (h.segments id rows hs r hr).mono hL hn,
    fun s hs m hm id hid => (h.versions s hs m hm id hid).trans_le hn⟩

theorem Filed.congr (h : d.Filed P cfg L n) (hs : d'.segments = d.segments)
    (hv : d'.versions = d.versions) : d'.Filed P cfg L n :=
  ⟨by rw [hs]; exact h.segments, by rw [hv]; exact h.versions⟩

/-! ## Recovery -/

/-- The checkpointed working set stands for what `HEAD` does. -/
theorem standing_base {segs : List SealedSegment} (hsegs : d.load d.named = some segs) :
    (d.base segs).standing = d.headStanding := by
  obtain ⟨hids, hfiles⟩ := load_eq_some hsegs
  refine Standing.ext (funext fun id => ?_) rfl rfl rfl
  have hheld : (d.base segs).standing.held id =
      (segs.filter fun s => s.id ∈ d.workingIds).any fun s => containsId s.rows id := rfl
  change _ = d.workingIds.any _
  rw [hheld, Bool.eq_iff_iff, List.any_eq_true, List.any_eq_true]
  constructor
  · rintro ⟨s, hs, hid⟩
    obtain ⟨hs, hw⟩ := List.mem_filter.mp hs
    exact ⟨s.id, of_decide_eq_true hw, by rw [hfiles s hs]; exact hid⟩
  · rintro ⟨i, hi, hid⟩
    have hnamed : i ∈ d.named := by
      rw [mem_named, headNamed]
      rw [workingIds] at hi
      cases hh : d.head with
      | none => simp [hh] at hi
      | some h => exact .inl (List.mem_append_right _ (by simpa [hh] using hi))
    rw [← hids] at hnamed
    obtain ⟨s, hs, rfl⟩ := List.mem_map.mp hnamed
    rw [hfiles s hs] at hid
    exact ⟨s, List.mem_filter.mpr ⟨hs, decide_eq_true hi⟩, hid⟩

theorem standing_recover (hc : d.recover P cfg = some c) : c.standing = d.standing P cfg := by
  obtain ⟨segs, hsegs, rfl⟩ := Disk.of_recover hc
  rw [Collection.standing_foldl_replay, standing_base hsegs, standing]

namespace Known

theorem le_allocator (d : Disk) : d.headStanding.next ≤ d.allocator P cfg := le_foldl_bump _ _

/-- The loaded segments are known. -/
theorem base (h : d.Known P cfg L n) {segs : List SealedSegment}
    (hsegs : d.load d.named = some segs) : (d.base segs).Known P cfg L n := by
  have hle : d.headStanding.next ≤ n := (le_allocator d).trans h.le
  obtain ⟨hids, hfiles⟩ := load_eq_some hsegs
  have hnodup : (segs.map SealedSegment.id).Nodup := hids ▸ d.nodup_named
  refine ⟨fun r hr => (List.not_mem_nil hr).elim, fun id seg hs => ?_, fun s hs => ?_,
    fun id hid => (h.bounded.deletions id hid).trans_le hle, fun v m hm => ?_,
    fun id hid => h.bounded.payloads id (hle.trans hid)⟩
  · rcases fill_eq_or id with hn | ⟨s, hs', -, he⟩
    · cases hn.symm.trans hs
    · cases he.symm.trans hs
      exact h.filed.segments _ _ (hfiles _ hs')
  · exact fill_of_mem hnodup (List.mem_filter.mp hs).1
  · change (d.versions.elim VersionStore.new VersionStore.fromSnapshot).get v = some m at hm
    cases hv : d.versions with
    | none =>
      rw [hv] at hm
      simp [VersionStore.new, VersionStore.get] at hm
    | some s =>
      rw [hv] at hm
      exact h.filed.versions s hv m (VersionStore.of_get_fromSnapshot hm).1

/-- **Opening a directory that stands for known points** gives a collection that stands for them. -/
theorem recover (h : d.Known P cfg L n) (hc : d.recover P cfg = some c) : c.Known P cfg L n := by
  obtain ⟨segs, hsegs, rfl⟩ := Disk.of_recover hc
  exact (h.base hsegs).foldl_replay fun id v p hmem =>
    ⟨(lt_foldl_bump hmem (h.numbered.of_mem hmem).2 _).trans_le h.le, h.learned id v p hmem⟩

theorem placed_recover (h : d.Known P cfg L n) (hc : d.recover P cfg = some c) : c.Placed := by
  obtain ⟨segs, -, rfl⟩ := Disk.of_recover hc
  intro s hs
  rw [Collection.foldl_replay_working] at hs
  rw [Collection.foldl_replay_nextSegmentId]
  have hw := of_decide_eq_true (List.mem_filter.mp hs).2
  change s.id < d.head.elim 0 CheckpointHead.nextSegmentId
  rw [workingIds] at hw
  cases hh : d.head with
  | none => simp [hh] at hw
  | some hd => exact h.placed hd hh _ (by simpa [hh] using hw)

theorem standing_bounded (h : d.Known P cfg L n) : (d.standing P cfg).Bounded :=
  h.bounded.foldl_replay h.numbered

/-- More is learned, and the bound is raised. -/
theorem mono (h : d.Known P cfg L n) (hL : ∀ id < n, L' id = L id) (hn : n ≤ n') :
    d.Known P cfg L' n' := by
  refine ⟨h.filed.mono hL hn, h.le.trans hn, h.bounded, h.numbered, fun id v p hmem => ?_, h.placed⟩
  rw [hL id ((lt_foldl_bump hmem (h.numbered.of_mem hmem).2 _).trans_le h.le)]
  exact h.learned id v p hmem

/-- **The same `HEAD`, working set and records**, and other files. -/
theorem keep (h : d.Known P cfg L n) (hh : d'.head = d.head)
    (hs : ∀ i ∈ d.workingIds, d'.segments i = d.segments i) (hf : d'.Filed P cfg L n)
    (hr : d'.records P = d.records P) :
    d'.Known P cfg L n ∧ d'.standing P cfg = d.standing P cfg := by
  have hhead := headStanding_congr hh hs
  refine ⟨⟨hf, ?_, hhead ▸ h.bounded, hhead ▸ hr ▸ h.numbered, hr ▸ h.learned, hh ▸ h.placed⟩, ?_⟩
  · rw [allocator, hh, hr]
    exact h.le
  · rw [standing, standing, hhead, hr]

/-- **The same `HEAD`, and some records more.** -/
theorem extend (h : d.Known P cfg L n) (hh : d'.head = d.head)
    (hs : ∀ i ∈ d.workingIds, d'.segments i = d.segments i)
    (hf : d'.Filed P cfg L (d.allocator P cfg)) (hr : d'.records P = d.records P ++ l)
    (hl : Numbered cfg (d.allocator P cfg) l) :
    d'.Known P cfg (l.foldl learn L) (d'.allocator P cfg) ∧
      d'.standing P cfg = l.foldl (Standing.replay cfg) (d.standing P cfg) := by
  have hhead := headStanding_congr hh hs
  have halloc : d'.allocator P cfg = l.foldl (bump cfg) (d.allocator P cfg) := by
    rw [allocator, allocator, hh, hr, List.foldl_append]
  refine ⟨⟨?_, le_rfl, by rw [hhead]; exact h.bounded, ?_, fun id v p hmem => ?_,
    by rw [hh]; exact h.placed⟩, ?_⟩
  · rw [halloc]
    exact hf.mono (fun id hid => hl.learn_of_lt L hid) (le_foldl_bump _ _)
  · rw [hhead, hr]
    exact numbered_append.mpr ⟨h.numbered, hl⟩
  · rw [hr] at hmem
    rcases List.mem_append.mp hmem with hmem | hmem
    · rw [hl.learn_of_lt L (lt_foldl_bump hmem (h.numbered.of_mem hmem).2 _)]
      exact h.learned id v p hmem
    · exact hl.learn_of_mem L hmem
  · rw [standing, standing, hhead, hr, List.foldl_append]

end Known

/-! ## Files kept -/

variable (P cfg) in
/-- The files of `d` are known, and those of the working set of `d₀` are as they were. -/
structure Keeps (L : GlobalId → List F32) (n : GlobalId) (d₀ d : Disk) : Prop where
  /-- The files are known. -/
  filed : d.Filed P cfg L n
  /-- The working set's are the old ones. -/
  working : ∀ i ∈ d₀.workingIds, d.segments i = d₀.segments i

end Disk

variable (P cfg) in
/-- The effect writes known rows only, and leaves the files of the working set alone. -/
def DiskEffect.Spares (L : GlobalId → List F32) (n : GlobalId) (d₀ : Disk) : DiskEffect → Prop
  | .writeSegment s => (∀ r ∈ s.rows, KnownRow P cfg L n r) ∧
      (s.id ∈ d₀.workingIds → d₀.segments s.id = some s.rows)
  | .removeSegment id => id ∉ d₀.workingIds
  | .writeVersions s => ∀ m ∈ s.manifests, ∀ id ∈ m.deletions, id < n
  | _ => True

namespace Disk

variable {d d' d₀ : Disk} {L : GlobalId → List F32} {n : GlobalId} {es : List DiskEffect}

theorem Keeps.perform (h : Keeps P cfg L n d₀ d) {e : DiskEffect} (he : e.Spares P cfg L n d₀) :
    Keeps P cfg L n d₀ (d.perform P cfg e) := by
  cases e with
  | append | flush | openLog | removeLog | writeHead | writeConfig =>
    exact ⟨h.filed.congr rfl rfl, h.working⟩
  | writeVersions s =>
    refine ⟨⟨h.filed.segments, fun s' hs => ?_⟩, h.working⟩
    cases hs
    exact he
  | writeSegment s =>
    refine ⟨⟨fun id rows hs => ?_, h.filed.versions⟩, fun i hi => ?_⟩
    · change Function.update d.segments s.id (some s.rows) id = some rows at hs
      rw [Function.update_apply] at hs
      split at hs
      · cases hs
        exact he.1
      · exact h.filed.segments id rows hs
    · change Function.update d.segments s.id (some s.rows) i = d₀.segments i
      rw [Function.update_apply]
      split
      · subst i
        exact (he.2 hi).symm
      · exact h.working i hi
  | removeSegment id =>
    refine ⟨⟨fun i rows hs => ?_, h.filed.versions⟩, fun i hi => ?_⟩
    · change Function.update d.segments id none i = some rows at hs
      rw [Function.update_apply] at hs
      split at hs
      · cases hs
      · exact h.filed.segments i rows hs
    · change Function.update d.segments id none i = d₀.segments i
      rw [Function.update_of_ne fun hid : i = id => he (hid ▸ hi)]
      exact h.working i hi

/-- **Along effects that spare the working set**, its files are kept. -/
theorem Filed.along_keeps (h : d.Filed P cfg L n) (hes : ∀ e ∈ es, e.Spares P cfg L n d) :
    Along (Disk.perform P cfg) (Keeps P cfg L n d) es d :=
  along_of_invariant ⟨h, fun _ _ => rfl⟩ fun e he _ hd => hd.perform (hes e he)

theorem Keeps.survives (h : Keeps P cfg L n d₀ d) (hd : d.Survives d') :
    Keeps P cfg L n d₀ d' := by
  obtain ⟨-, -, hv, hs, -⟩ := hd
  exact ⟨h.filed.congr hs hv, by rw [hs]; exact h.working⟩

end Disk

end Vecvec
