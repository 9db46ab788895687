import Vecvec.Collection.Histories
import Vecvec.Persist.Sample

/-!
# Collection/Reclaim — what collection passes remove, keep, and leave behind

A pass keeps whatever is needed (`gc_spec`).  It does not find everything that is not: it looks only
at the segments of the versions it removes, so a segment that stops working before any version
refers to it stays registered for good (`clean_gc_iff`).  And it may remove a version that a tag or
a branch still names, which the next read by that name runs into (`resolves_iff_keepsPointed`).
-/

namespace Vecvec

open Machinery

variable {P : Platform} {cfg : CollectionConfig} {c c' : Collection} {t : ℕ}
  {rules : RetentionRules}

/-! ## What a pass keeps -/

/-- Keep the newest version, whatever points at the others. -/
def RetentionRules.newestOnly : RetentionRules := ⟨some 1, false, false⟩

/-- **A collection pass** leaves the manifests it keeps as they were; it removes the versions that
are not the head, not among the newest, and not tagged or at the head of a branch while that counts;
it reports the segments that lost their last manifest; and of a collection reached by calls one
after another, whatever works or is in a version stays registered. -/
theorem gc_spec {tr : List (Collection × Call)} (hist : History P cfg .create tr c)
    {d : List SegmentId} (hrun : run (Collection.step P cfg) t (Collection.gc rules) c
      = some (d, c'))
    (s : VersionStore) :
    (∀ v, v ∉ (s.gc rules).1.removedVersions → (s.gc rules).2.get v = s.get v) ∧
      (∀ v ∈ (s.gc rules).1.removedVersions, (s.gc rules).2.get v = none) ∧
      (∀ v, v ∈ (s.gc rules).1.removedVersions ↔
        (s.get v).isSome ∧ s.head ≠ some v ∧
          ¬ (∀ k, rules.keepLast = some k → (s.newer v).length < k) ∧
          ¬ (rules.keepTagged ∧ ∃ p ∈ s.tags, p.2 = v) ∧
          ¬ (rules.keepBranchHeads ∧ ∃ p ∈ s.branches, p.2 = v)) ∧
      (∀ id, id ∈ (s.gc rules).1.orphanSegments ↔
        id ∈ s.allReferencedSegments ∧ id ∉ (s.gc rules).2.allReferencedSegments) ∧
      ∀ id, id ∈ c'.working.map SealedSegment.id ∨ id ∈ c'.versions.allReferencedSegments →
        (c'.allSegments id).isSome := by
  refine ⟨fun v hv => VersionStore.get_gc.trans (if_neg hv),
    fun v hv => VersionStore.get_gc.trans (if_pos hv), fun v => VersionStore.mem_removedVersions,
    fun id => VersionStore.mem_orphanSegments, fun id hid => ?_⟩
  have hs : c'.Sound := by
    rw [Collection.run_gc] at hrun
    cases hrun
    exact (hist.sound Collection.sound_create).gcNow
  rcases hid with hid | hid
  · obtain ⟨s, hw, rfl⟩ := List.mem_map.mp hid
    rw [hs.working s hw]
    rfl
  · obtain ⟨v, m, hm, hid⟩ := VersionStore.mem_allReferencedSegments.mp hid
    exact hs.isSome_of_mem_segmentIds hm hid

/-- A pass over three versions, the last one of a merged segment: it removes the first two, and the
segments that were merged. -/
theorem gc_spec_sample : ∃ tr c d c', History Sample.platform (Sample.config none) .create tr c ∧
    run (Collection.step Sample.platform (Sample.config none)) 0 (Collection.gc .newestOnly) c =
      some (d, c') ∧
    (c.versions.gc .newestOnly).1.removedVersions = [0, 1] ∧
    (c.versions.gc .newestOnly).1.orphanSegments = [0, 1] ∧
    (∀ v, v ∉ [0, 1] → (c.versions.gc .newestOnly).2.get v = c.versions.get v) ∧
    (∀ v ∈ [0, 1], (c.versions.gc .newestOnly).2.get v = none) ∧
    (∀ v, v ∈ [0, 1] ↔ (c.versions.get v).isSome ∧ c.versions.head ≠ some v ∧
      ¬ (∀ k, some 1 = some k → (c.versions.newer v).length < k) ∧
      ¬ (false ∧ ∃ p ∈ c.versions.tags, p.2 = v) ∧
      ¬ (false ∧ ∃ p ∈ c.versions.branches, p.2 = v)) ∧
    (∀ id, id ∈ [0, 1] ↔ id ∈ c.versions.allReferencedSegments ∧
      id ∉ (c.versions.gc .newestOnly).2.allReferencedSegments) ∧
    ∀ id, id ∈ c'.working.map SealedSegment.id ∨ id ∈ c'.versions.allReferencedSegments →
      (c'.allSegments id).isSome := by
  have h : Collection.create.Leads Sample.platform (Sample.config none)
      [.insert [0], .commit "manual" none none, .insert [1], .commit "manual" none none, .compact,
        .commit "manual" none none]
      fun _ c => (c.versions.gc .newestOnly).1.removedVersions = [0, 1] ∧
        (c.versions.gc .newestOnly).1.orphanSegments = [0, 1] := by decide +kernel
  obtain ⟨tr, c, hist, hremoved, horphans⟩ := h.exists_history
  have hrun : run (Collection.step Sample.platform (Sample.config none)) 0
    (Collection.gc .newestOnly) c = some (_, _) := Collection.run_gc
  have hspec := gc_spec hist hrun c.versions
  rw [hremoved, horphans] at hspec
  exact ⟨tr, c, _, _, hist, hrun, hremoved, horphans, hspec⟩

/-! ## What a pass leaves behind -/

namespace Collection

/-- Every registered segment works, or some version refers to it. -/
def Clean (c : Collection) : Prop :=
  ∀ id, (c.allSegments id).isSome →
    id ∈ c.working.map SealedSegment.id ∨ id ∈ c.versions.allReferencedSegments

/-- Some version refers to every working segment. -/
def Referenced (c : Collection) : Prop :=
  ∀ s ∈ c.working, s.id ∈ c.versions.allReferencedSegments

instance : Decidable c.Referenced := inferInstanceAs (Decidable (∀ _ ∈ _, _))

end Collection

/-- A call that replaces the working set does so while versions refer to all of it. -/
def Call.Spares (c : Collection) : Call → Prop
  | restore v => (c.versions.get v).isSome → c.Referenced
  | compact => 1 < c.working.length → c.Referenced
  | _ => True

instance {k : Call} : Decidable (k.Spares c) := by
  unfold Call.Spares
  split <;> infer_instance

namespace Collection

/-- The segments a commit refers to are those referred to before, and some that work. -/
theorem mem_allReferencedSegments_commitNow {trigger : String} {message tag : Option String}
    (h : c.Sound) {id : SegmentId} :
    id ∈ (c.commitNow trigger message tag).versions.allReferencedSegments ↔
      id ∈ c.versions.allReferencedSegments ∨
        id ∈ (c.sealNow.working.filterMap segmentRef).map SegmentRef.id := by
  simp only [VersionStore.mem_allReferencedSegments]
  constructor
  · rintro ⟨v, m, hm, hid⟩
    change (VersionStore.commit ..).2.get v = some m at hm
    rw [VersionStore.get_commit, sealNow_versions] at hm
    split at hm
    · cases hm
      exact .inr hid
    · exact .inl ⟨v, m, hm, hid⟩
  · rintro (⟨v, m, hm, hid⟩ | hid)
    · refine ⟨v, m, VersionStore.get_commit.trans ?_, hid⟩
      rw [sealNow_versions, if_neg (h.store.below v m hm).ne, hm]
    · exact ⟨_, _, VersionStore.get_commit.trans (if_pos rfl), hid⟩

theorem clean_sealNow_iff (h : c.Sound) : c.sealNow.Clean ↔ c.Clean := by
  unfold sealNow
  split
  · rfl
  refine ⟨fun hc id hid => ?_, fun hc id hid => ?_⟩
  · have hne : id ≠ c.nextSegmentId := (h.below id hid).ne
    refine (hc id (isSome_insertSegments.mpr (.inl hid))).imp_left fun hw => ?_
    rw [List.map_append, List.mem_append] at hw
    exact hw.resolve_right fun hw => hne (List.mem_singleton.mp hw)
  · rw [List.map_append, List.mem_append]
    rcases isSome_insertSegments.mp hid with hid | hid
    · exact (hc id hid).imp_left .inl
    · exact .inl (.inr hid)

theorem clean_commitNow_iff (h : c.Sound) {trigger : String} {message tag : Option String} :
    (c.commitNow trigger message tag).Clean ↔ c.Clean := by
  rw [← clean_sealNow_iff h]
  refine forall_congr' fun id => imp_congr_right fun _ => ?_
  rw [mem_allReferencedSegments_commitNow h, sealNow_versions]
  refine ⟨fun hid => ?_, Or.imp_right .inl⟩
  rcases hid with hid | hid | hid
  · exact .inl hid
  · exact .inr hid
  · obtain ⟨s, hs, rfl⟩ := exists_of_mem_segmentRef hid
    exact .inl (List.mem_map_of_mem hs)

/-- Where the working set is replaced: what worked and is in no version is left behind. -/
theorem clean_iff_of_replaced (h : c.Sound) {w : SegmentSet}
    {reg : SegmentId → Option SealedSegment}
    (hreg : ∀ id, (reg id).isSome ↔
      (c.allSegments id).isSome ∨ id ∈ w.map SealedSegment.id)
    (hw : ∀ id ∈ w.map SealedSegment.id, (c.allSegments id).isSome →
      id ∈ c.versions.allReferencedSegments) :
    (∀ id, (reg id).isSome →
      id ∈ w.map SealedSegment.id ∨ id ∈ c.versions.allReferencedSegments) ↔
        c.Clean ∧ c.Referenced := by
  constructor
  · intro hc
    have hall : ∀ id, (c.allSegments id).isSome → id ∈ c.versions.allReferencedSegments :=
      fun id hid => (hc id ((hreg id).mpr (.inl hid))).elim (fun hm => hw id hm hid) fun hr => hr
    exact ⟨fun id hid => .inr (hall id hid), fun s hs => hall s.id (h.working s hs ▸ rfl)⟩
  · rintro ⟨hc, href⟩ id hid
    rcases (hreg id).mp hid with hid | hid
    · refine .inr ((hc id hid).elim (fun hm => ?_) fun hr => hr)
      obtain ⟨s, hs, rfl⟩ := List.mem_map.mp hm
      exact href s hs
    · exact .inl hid

theorem clean_gcNow_iff : (c.gcNow rules).Clean ↔ c.Clean := by
  have hreg (id : SegmentId) : ((c.gcNow rules).allSegments id).isSome ↔
      (c.allSegments id).isSome ∧ id ∉ c.dropped rules := by
    change (if _ then none else c.allSegments id).isSome ↔ _
    split
    · exact iff_of_false (by simp) fun hid => hid.2 ‹_›
    · exact (and_iff_left ‹_›).symm
  refine ⟨fun hc id hid => ?_, fun hc id hid => ?_⟩
  · by_cases hd : id ∈ c.dropped rules
    · exact .inr (VersionStore.mem_orphanSegments.mp (of_mem_dropped hd).1).1
    · exact (hc id ((hreg id).mpr ⟨hid, hd⟩)).imp_right fun hr =>
        (VersionStore.of_mem_allReferencedSegments_gc hr).1
  · obtain ⟨hid, hd⟩ := (hreg id).mp hid
    by_cases hw : id ∈ c.working.map SealedSegment.id
    · exact .inl hw
    refine .inr ?_
    by_contra hr
    refine hd (List.mem_filter.mpr ⟨List.mem_filter.mpr ⟨?_, decide_eq_true hw⟩, hid⟩)
    exact VersionStore.mem_orphanSegments.mpr ⟨(hc id hid).resolve_left hw, hr⟩

theorem clean_congr (ha : c'.allSegments = c.allSegments) (hw : c'.working = c.working)
    (hv : c'.versions.commits = c.versions.commits) : c'.Clean ↔ c.Clean := by
  rw [Clean, Clean, ha, hw, VersionStore.allReferencedSegments, VersionStore.manifests_congr hv]
  rfl

/-- The step lemma: only a call that replaces the working set leaves anything behind. -/
theorem clean_after_iff (h : c.Sound) (k : Call) :
    (c.after P cfg k).Clean ↔ c.Clean ∧ k.Spares c := by
  have hkept {p : Prop} (hp : p ↔ c.Clean) : p ↔ c.Clean ∧ True := hp.trans (and_true _).symm.to_iff
  cases k with
  | insert v =>
    refine hkept ?_
    rw [after]
    split <;> exact clean_congr rfl rfl rfl
  | insertWithIdAndPayload id v p =>
    refine hkept ?_
    rw [after]
    split <;> exact clean_congr rfl rfl rfl
  | insertBatch vs =>
    refine hkept ?_
    rw [after]
    split <;> exact clean_congr rfl rfl rfl
  | delete id =>
    exact hkept (clean_congr remove_allSegments remove_working (by rw [after, remove_versions]))
  | sealAppendable => exact hkept (clean_sealNow_iff h)
  | commit => exact hkept (clean_commitNow_iff h)
  | restore v =>
    rw [after, Call.Spares]
    cases hv : c.versions.get v with
    | none => simp
    | some m =>
      have hmem : ∀ id ∈ (m.segmentIds.filterMap c.allSegments).map SealedSegment.id,
          id ∈ m.segmentIds := by
        intro id hid
        obtain ⟨s, hs, rfl⟩ := List.mem_map.mp hid
        obtain ⟨id, hid, hs⟩ := List.mem_filterMap.mp hs
        rwa [h.keyed id s hs]
      refine (clean_commitNow_iff h.repoint).trans ?_
      simp only [Option.isSome_some, forall_const]
      refine clean_iff_of_replaced h (fun id =>
        ⟨.inl, fun hid => hid.elim (fun hs => hs) fun hm => ?_⟩)
        fun id hid _ => VersionStore.mem_allReferencedSegments.mpr ⟨v, m, hv, hmem id hid⟩
      exact h.isSome_of_mem_segmentIds hv (hmem id hm)
  | compact =>
    rw [after, Call.Spares]
    split
    · simp only [‹1 < _›, forall_const]
      refine clean_iff_of_replaced h (fun id => isSome_insertSegments) fun id hid hreg => ?_
      obtain rfl : id = c.nextSegmentId := List.mem_singleton.mp hid
      exact absurd (h.below _ hreg) (lt_irrefl _)
    · simp [‹¬ _›]
  | createTag name v =>
    refine hkept (clean_congr rfl rfl ?_)
    rw [after]
    cases hs : c.versions.setTag name v with
    | ok vs => exact (VersionStore.commits_of_setTag hs).1
    | error => rfl
  | createBranch name v =>
    refine hkept (clean_congr rfl rfl ?_)
    rw [after]
    cases hs : c.versions.setBranch name v with
    | ok vs => exact (VersionStore.commits_of_setBranch hs).1
    | error => rfl
  | gc rules => exact hkept clean_gcNow_iff

end Collection

/-- The run lemma: a history leaves nothing behind exactly if none of its calls does. -/
theorem History.clean_iff {tr : List (Collection × Call)} (hist : History P cfg c tr c')
    (h : c.Sound) : c'.Clean ↔ c.Clean ∧ ∀ e ∈ tr, e.2.Spares e.1 := by
  induction hist with
  | nil => simp
  | @snoc c₁ c₂ tr t k r hist hrun ih =>
    have hs := hist.sound h
    have hstep : c₂.Clean ↔ c₁.Clean ∧ k.Spares c₁ := by
      rw [hs.eq_after hrun]
      exact (Collection.clean_congr rfl rfl rfl).trans (Collection.clean_after_iff hs k)
    rw [hstep, ih, List.forall_mem_append, List.forall_mem_singleton, and_assoc]

/-- **After a pass, every registered segment works or is in a version** exactly if, earlier, no
compaction or restore replaced a working segment that was in no version. -/
theorem clean_gc_iff {tr : List (Collection × Call)} (hist : History P cfg .create tr c)
    {d : List SegmentId}
    (hrun : run (Collection.step P cfg) t (Collection.gc rules) c = some (d, c')) :
    (∀ id, (c'.allSegments id).isSome →
      id ∈ c'.working.map SealedSegment.id ∨ id ∈ c'.versions.allReferencedSegments) ↔
        ∀ e ∈ tr, e.2.Spares e.1 := by
  rw [Collection.run_gc] at hrun
  cases hrun
  refine Collection.clean_gcNow_iff.trans ((hist.clean_iff Collection.sound_create).trans ?_)
  exact and_iff_right fun id hid => by cases hid

/-- Two committed segments are merged, and found once their versions are gone. -/
theorem clean_gc_iff_sample : ∃ tr c, History Sample.platform (Sample.config none) .create tr c ∧
    tr.length = 6 ∧ ∀ id, ((c.gcNow .newestOnly).allSegments id).isSome →
      id ∈ (c.gcNow .newestOnly).working.map SealedSegment.id ∨
        id ∈ (c.gcNow .newestOnly).versions.allReferencedSegments := by
  have h : Collection.create.Leads Sample.platform (Sample.config none)
      [.insert [0], .commit "manual" none none, .insert [1], .commit "manual" none none, .compact,
        .commit "manual" none none]
      fun tr _ => tr.length = 6 ∧ ∀ e ∈ tr, e.2.Spares e.1 := by decide +kernel
  obtain ⟨tr, c, hist, hlen, hspares⟩ := h.exists_history
  exact ⟨tr, c, hist, hlen, (clean_gc_iff hist (Collection.run_gc (t := 0))).mpr hspares⟩

/-- Two segments are merged before any version refers to them: no pass finds them. -/
theorem sealed_and_merged_left_behind :
    ∃ tr c d c', History Sample.platform (Sample.config none) .create tr c ∧
      run (Collection.step Sample.platform (Sample.config none)) 0 (Collection.gc .newestOnly) c =
        some (d, c') ∧
      (c'.allSegments 0).isSome ∧ 0 ∉ c'.working.map SealedSegment.id ∧
        0 ∉ c'.versions.allReferencedSegments := by
  have h : Collection.create.Leads Sample.platform (Sample.config none)
      [.insert [0], .sealAppendable, .insert [1], .sealAppendable, .compact]
      fun _ c => ((c.gcNow .newestOnly).allSegments 0).isSome ∧
        0 ∉ (c.gcNow .newestOnly).working.map SealedSegment.id ∧
          0 ∉ (c.gcNow .newestOnly).versions.allReferencedSegments := by decide +kernel
  obtain ⟨tr, c, hist, hc⟩ := h.exists_history
  exact ⟨tr, c, _, _, hist, Collection.run_gc, hc⟩

/-! ## What a pass leaves dangling -/

/-- By any selector, reads of any collection with this store get past their `expect`. -/
def VersionStore.ReadsGetThrough (s : VersionStore) : Prop :=
  ∀ (S : SegmentSearch) (P : Platform) (cfg : CollectionConfig) (t : ℕ) (c : Collection)
    (sel : VersionSelector), c.versions = s →
      (∀ offset limit x, run (Collection.step P cfg) t
        (Collection.scroll (some sel) offset limit) c =
        some x → x.1 ≠ .error (.aborted "resolved version exists")) ∧
      ∀ query k filter x,
        run (Collection.step P cfg) t (Collection.searchAt S cfg sel query k filter) c =
          some x → x.1 ≠ .error (.aborted "resolved version exists")

theorem VersionStore.Resolves.readsGetThrough {s : VersionStore} (h : s.Resolves) :
    s.ReadsGetThrough := by
  rintro S P cfg t c sel rfl
  have hsel : (c.versions.resolve sel).map c.versions.get ≠ some none := by
    cases hr : c.versions.resolve sel with
    | none => simp
    | some v =>
      have := h sel v hr
      rw [Option.map_some, ne_eq, Option.some_inj]
      exact fun hn => by simp [hn] at this
  refine ⟨fun offset limit x hx => ?_, fun query k filter x hx =>
    Collection.run_searchAt_ne_aborted hsel hx _⟩
  rw [Collection.run_scroll_selector] at hx
  cases hx
  cases hr : (c.versions.resolve sel).map c.versions.get with
  | none => simp
  | some m =>
    cases m with
    | none => exact absurd hr hsel
    | some m => simp

/-- **Selectors resolve to versions that are there**, at every point of a run of a store, exactly if
each collection pass of the run keeps the versions that tags and branches name. -/
theorem resolves_iff_keepsPointed (ks : List VersionCall) :
    (∀ l, l <+: ks → let s := l.foldl VersionStore.perform .new
      (∀ sel v, s.resolve sel = some v → (s.get v).isSome) ∧ s.ReadsGetThrough) ↔
      ∀ l rules, l ++ [.gc rules] <+: ks →
        (l.foldl VersionStore.perform .new).KeepsPointed rules := by
  rw [← VersionStore.resolves_foldl_iff VersionStore.wellFormed_new VersionStore.resolves_new]
  exact ⟨fun h l hl => (h l hl).1, fun h l hl => ⟨h l hl, (h l hl).readsGetThrough⟩⟩

/-- A tag outlives its version, and a read by it aborts. -/
theorem tag_outlives_version :
    ¬ (∀ sel v, (([.commit "manual" none none [] ∅, .setTag "a" 0, .commit "manual" none none [] ∅,
        .gc .newestOnly] : List VersionCall).foldl VersionStore.perform .new).resolve sel = some v →
      ((([.commit "manual" none none [] ∅, .setTag "a" 0, .commit "manual" none none [] ∅,
        .gc .newestOnly] : List VersionCall).foldl VersionStore.perform .new).get v).isSome) ∧
    ∃ tr c c', History Sample.platform (Sample.config none) .create tr c ∧
      run (Collection.step Sample.platform (Sample.config none)) 0
        (Collection.scroll (some (.tag "a")) 0 10) c =
          some (.error (.aborted "resolved version exists"), c') := by
  constructor
  · intro h
    exact absurd (h (.tag "a") 0 (by decide +kernel)) (by decide +kernel)
  · have h : Collection.create.Leads Sample.platform (Sample.config none)
        [.insert [0], .commit "manual" none none, .createTag "a" 0, .insert [1],
          .commit "manual" none none, .gc .newestOnly]
        fun _ c => c.versions.resolve (.tag "a") = some 0 ∧ c.versions.get 0 = none := by
      decide +kernel
    obtain ⟨tr, c, hist, hres, hget⟩ := h.exists_history
    have hrun := @Collection.run_scroll_selector Sample.platform (Sample.config none) c 0
      (.tag "a") 0 10
    rw [hres, Option.map_some, hget] at hrun
    exact ⟨tr, c, _, hist, hrun⟩

end Vecvec
