import Vecvec.Version.Store

/-!
# Version/Retention — what a collection pass keeps, and what it leaves dangling

A pass keeps the head, the newest versions, and — each behind a switch of its own — tagged versions
and branch heads (`mem_removedVersions`); the segments it reports are those that lose their last
manifest (`mem_orphanSegments`).  With a switch off, a tag or a branch may outlive the version it
points at, and then it resolves to a version that is not there (`resolves_gc_iff`).
-/

namespace Vecvec

namespace VersionStore

variable {s : VersionStore} {v : VersionId} {rules : RetentionRules}

/-! ## The versions a pass removes -/

/-- In a descending list, the first `k` are those with fewer than `k` above them. -/
theorem mem_take_iff_of_descending {l : List ℕ} (hl : l.Pairwise (· > ·)) {k i : ℕ} :
    i ∈ l.take k ↔ i ∈ l ∧ (l.filter (i < ·)).length < k := by
  induction l generalizing k with
  | nil => simp
  | cons x l ih =>
    rw [List.pairwise_cons] at hl
    cases k with
    | zero => simp
    | succ k =>
      rw [List.take_succ_cons, List.mem_cons, List.mem_cons, ih hl.2]
      by_cases hix : i < x
      · rw [List.filter_cons_of_pos (by simpa using hix), List.length_cons,
          Nat.add_lt_add_iff_right]
        simp [hix.ne]
      · have hni : i ∉ l := fun hi => hix (hl.1 i hi)
        rw [List.filter_cons_of_neg (by simpa using hix)]
        refine ⟨fun h => ⟨h.imp_right And.left, ?_⟩, fun h => h.1.imp_right fun hi => absurd hi hni⟩
        obtain rfl : i = x := h.resolve_right fun hi => hni hi.1
        rw [List.filter_eq_nil_iff.mpr fun j hj => by simpa using (hl.1 j hj).le]
        exact Nat.succ_pos k

/-- The versions above `v`. -/
def newer (s : VersionStore) (v : VersionId) : List VersionId := s.commits.keys.filter (v < ·)

theorem mem_keys_iff : v ∈ s.commits.keys ↔ (s.get v).isSome := by
  rw [Std.ExtTreeMap.mem_keys, Std.ExtTreeMap.mem_iff_isSome_getElem?]
  rfl

/-- **The newest `k` versions** are those with fewer than `k` newer ones. -/
theorem mem_take_reverse_keys {k : ℕ} :
    v ∈ s.commits.keys.reverse.take k ↔ (s.get v).isSome ∧ (s.newer v).length < k := by
  have hdesc : s.commits.keys.reverse.Pairwise (· > ·) :=
    List.pairwise_reverse.mpr (s.commits.ordered_keys.imp Nat.compare_eq_lt.mp)
  rw [mem_take_iff_of_descending hdesc, List.mem_reverse, mem_keys_iff, List.filter_reverse,
    List.length_reverse]
  rfl

/-- What the rules keep of the newest versions: all of them, without a number to keep. -/
def RetainsNewest (s : VersionStore) (rules : RetentionRules) (v : VersionId) : Prop :=
  ∀ k, rules.keepLast = some k → (s.newer v).length < k

/-- **The versions a pass keeps.** -/
theorem mem_retainedVersions (hv : (s.get v).isSome) : v ∈ s.retainedVersions rules ↔
    s.head = some v ∨ s.RetainsNewest rules v ∨
      (rules.keepTagged ∧ ∃ p ∈ s.tags, p.2 = v) ∨
      (rules.keepBranchHeads ∧ ∃ p ∈ s.branches, p.2 = v) := by
  have hpointers (b : Bool) (ps : List (String × VersionId)) :
      v ∈ (if b then ps.map Prod.snd else []) ↔ b ∧ ∃ p ∈ ps, p.2 = v := by
    cases b <;> simp
  rw [retainedVersions, List.mem_append, List.mem_append, List.mem_append, hpointers, hpointers,
    Option.mem_toList]
  refine (or_congr_right (c := s.RetainsNewest rules v) ?_).trans ?_
  · rw [RetainsNewest]
    cases rules.keepLast with
    | none => exact iff_of_true (mem_keys_iff.mpr hv) (by simp)
    | some k => simp [mem_take_reverse_keys, hv]
  rw [or_assoc, or_assoc]
  exact or_congr_right (or_comm.trans ((or_congr_left or_comm).trans or_assoc))

theorem mem_removedVersions_iff : v ∈ (s.planGc rules).removedVersions ↔
    (s.get v).isSome ∧ v ∉ s.retainedVersions rules := by
  rw [planGc, List.mem_filter, mem_keys_iff, decide_eq_true_eq]

/-- **The versions a pass removes** are those that no rule keeps. -/
theorem mem_removedVersions : v ∈ (s.planGc rules).removedVersions ↔
    (s.get v).isSome ∧ s.head ≠ some v ∧ ¬ s.RetainsNewest rules v ∧
      ¬ (rules.keepTagged ∧ ∃ p ∈ s.tags, p.2 = v) ∧
      ¬ (rules.keepBranchHeads ∧ ∃ p ∈ s.branches, p.2 = v) := by
  rw [mem_removedVersions_iff]
  refine and_congr_right fun hv => ?_
  rw [mem_retainedVersions hv, not_or, not_or, not_or]

/-- The head is never removed. -/
theorem notMem_removedVersions_of_head (h : s.head = some v) :
    v ∉ (s.planGc rules).removedVersions := fun hv => (mem_removedVersions.mp hv).2.1 h

theorem isSome_get_gc : ((s.gc rules).2.get v).isSome ↔
    (s.get v).isSome ∧ v ∈ s.retainedVersions rules := by
  rw [get_gc]
  by_cases hv : v ∈ (s.planGc rules).removedVersions
  · rw [if_pos hv]
    exact iff_of_false (by simp) fun h => (mem_removedVersions_iff.mp hv).2 h.2
  · rw [if_neg hv]
    refine ⟨fun h => ⟨h, ?_⟩, And.left⟩
    by_contra hret
    exact hv (mem_removedVersions_iff.mpr ⟨h, hret⟩)

/-- **The orphans of a pass** are the segments that some manifest refers to before it and none
after it. -/
theorem mem_orphanSegments {id : SegmentId} : id ∈ (s.planGc rules).orphanSegments ↔
    id ∈ s.allReferencedSegments ∧ id ∉ (s.gc rules).2.allReferencedSegments := by
  refine ⟨fun h => ⟨?_, fun h' => (of_mem_allReferencedSegments_gc h').2 h⟩, fun ⟨h, h'⟩ => ?_⟩
  · rw [planGc, mem_sortedIds, List.mem_filter, List.mem_flatMap] at h
    obtain ⟨⟨m, hm, hid⟩, -⟩ := h
    obtain ⟨v, -, hv⟩ := List.mem_filterMap.mp hm
    exact mem_allReferencedSegments.mpr ⟨v, m, hv, hid⟩
  · obtain ⟨v, m, hm, hid⟩ := mem_allReferencedSegments.mp h
    have hgone : ∀ u m', s.get u = some m' → id ∈ m'.segmentIds →
        u ∈ (s.planGc rules).removedVersions := by
      intro u m' hu hid'
      by_contra hn
      exact h' (mem_allReferencedSegments.mpr ⟨u, m', by rw [get_gc, if_neg hn, hu], hid'⟩)
    rw [planGc, mem_sortedIds, List.mem_filter, decide_eq_true_eq, List.mem_flatMap,
      List.mem_flatMap]
    refine ⟨⟨m, List.mem_filterMap.mpr ⟨v, hgone v m hm hid, hm⟩, hid⟩, ?_⟩
    rintro ⟨m', hm', hid'⟩
    obtain ⟨u, hu, hum⟩ := List.mem_filterMap.mp hm'
    exact (mem_removedVersions_iff.mp (hgone u m' hum hid')).2 hu

/-! ## The versions pointers name -/

/-- Some pointer of the store names the version: its head, a tag or a branch. -/
inductive Points (s : VersionStore) (v : VersionId) : Prop
  | head (h : s.head = some v)
  | tag (name : String) (h : s.tags.lookup name = some v)
  | branch (name : String) (h : s.branches.lookup name = some v)

/-- Every selector that resolves names a version that is there. -/
def Resolves (s : VersionStore) : Prop := ∀ sel v, s.resolve sel = some v → (s.get v).isSome

/-- The rules keep every version a pointer names. -/
def KeepsPointed (s : VersionStore) (rules : RetentionRules) : Prop :=
  ∀ v, s.Points v → v ∈ s.retainedVersions rules

theorem resolves_iff : s.Resolves ↔ ∀ v, s.Points v → (s.get v).isSome := by
  refine ⟨fun h v hv => ?_, fun h sel v hv => ?_⟩
  · rcases hv with hv | ⟨name, hv⟩ | ⟨name, hv⟩
    · exact h .head v hv
    · exact h (.tag name) v hv
    · exact h (.branch name) v hv
  · cases sel with
    | version u =>
      rw [resolve, Option.ite_none_right_eq_some] at hv
      obtain ⟨hu, hv⟩ := hv
      cases hv
      rwa [Std.ExtTreeMap.contains_eq_isSome_getElem?] at hu
    | tag name => exact h v (.tag name hv)
    | branch name => exact h v (.branch name hv)
    | head => exact h v (.head hv)

theorem lookup_movePointer {name name' : String} {ps : List (String × VersionId)} :
    (movePointer name v ps).lookup name' = if name' = name then some v else ps.lookup name' := by
  by_cases hn : name' = name
  · simp [movePointer, hn]
  · rw [movePointer, List.lookup_cons, beq_false_of_ne hn, if_neg hn]
    induction ps with
    | nil => rfl
    | cons p ps ih =>
      by_cases hp : p.1 = name
      · rw [List.filter_cons_of_neg (by simpa using hp), List.lookup_cons,
          beq_false_of_ne (hp ▸ hn)]
        exact ih
      · rw [List.filter_cons_of_pos (by simpa using hp), List.lookup_cons, List.lookup_cons]
        cases name' == p.1 with
        | true => rfl
        | false => exact ih

/-- A pointer moved to a version names it; the others name what they did. -/
theorem of_lookup_movePointer {name name' : String} {u : VersionId} {ps : List (String × VersionId)}
    (h : (movePointer name v ps).lookup name' = some u) : u = v ∨ ps.lookup name' = some u := by
  rw [lookup_movePointer] at h
  split at h
  · exact .inl (Option.some.inj h).symm
  · exact .inr h

end VersionStore

/-! ## Runs of a store -/

/-- The calls that change a store. -/
inductive VersionCall
  | commit (trigger : String) (message tag : Option String) (segments : List SegmentRef)
      (deletions : DeletionVector)
  | setTag (name : String) (v : VersionId)
  | setBranch (name : String) (v : VersionId)
  | gc (rules : RetentionRules)
  /-- `snapshot`, then `from_snapshot` -/
  | reload

namespace VersionStore

variable {s s' : VersionStore} {v : VersionId} {rules : RetentionRules}

/-- What a call leaves; a pointer to a version that does not exist is refused. -/
def perform (s : VersionStore) : VersionCall → VersionStore
  | .commit trigger message tag segments deletions =>
    (s.commit trigger message tag segments deletions).2
  | .setTag name v => (s.setTag name v).toOption.getD s
  | .setBranch name v => (s.setBranch name v).toOption.getD s
  | .gc rules => (s.gc rules).2
  | .reload => fromSnapshot s.snapshot

theorem resolves_new : new.Resolves := by
  refine resolves_iff.mpr fun v hv => ?_
  rcases hv with hv | ⟨name, hv⟩ | ⟨name, hv⟩ <;> cases hv

theorem Resolves.commit (h : s.Resolves) {trigger : String} {message tag : Option String}
    {segs : List SegmentRef} {d : DeletionVector} :
    (s.commit trigger message tag segs d).2.Resolves := by
  rw [resolves_iff] at h ⊢
  intro v hv
  have hold : v = s.nextVersion ∨ s.Points v := by
    rcases hv with hv | ⟨name, hv⟩ | ⟨name, hv⟩
    · exact .inl (Option.some.inj hv).symm
    · cases tag with
      | none => exact .inr (.tag name hv)
      | some tag => exact (of_lookup_movePointer hv).imp_right (.tag name)
    · exact .inr (.branch name hv)
  rw [get_commit]
  split
  · rfl
  · exact h v (hold.resolve_left ‹_›)

/-- Pointing at a version that exists keeps every pointer good. -/
theorem Resolves.point (h : s.Resolves) (hc : s'.commits = s.commits) (hv : (s.get v).isSome)
    (hp : ∀ u, s'.Points u → u = v ∨ s.Points u) : s'.Resolves := by
  rw [resolves_iff] at h ⊢
  intro u hu
  rw [get_congr hc]
  rcases hp u hu with rfl | hu
  · exact hv
  · exact h u hu

theorem Resolves.setTag (h : s.Resolves) {name : String} (hs : s.setTag name v = .ok s') :
    s'.Resolves := by
  refine h.point (commits_of_setTag hs).1 (v := v) ?_ fun u hu => ?_
  all_goals
    unfold VersionStore.setTag at hs
    split at hs
  · rwa [Std.ExtTreeMap.contains_eq_isSome_getElem?] at *
  · cases hs
  · cases hs
    rcases hu with hu | ⟨name, hu⟩ | ⟨name, hu⟩
    · exact .inr (.head hu)
    · exact (of_lookup_movePointer hu).imp_right (.tag name)
    · exact .inr (.branch name hu)
  · cases hs

theorem Resolves.setBranch (h : s.Resolves) {name : String} (hs : s.setBranch name v = .ok s') :
    s'.Resolves := by
  refine h.point (commits_of_setBranch hs).1 (v := v) ?_ fun u hu => ?_
  all_goals
    unfold VersionStore.setBranch at hs
    split at hs
  · rwa [Std.ExtTreeMap.contains_eq_isSome_getElem?] at *
  · cases hs
  · cases hs
    rcases hu with hu | ⟨name, hu⟩ | ⟨name, hu⟩
    · exact .inr (.head hu)
    · exact .inr (.tag name hu)
    · exact (of_lookup_movePointer hu).imp_right (.branch name)
  · cases hs

/-- **A pass keeps every pointer good** exactly if the rules keep every version pointed at. -/
theorem resolves_gc_iff (h : s.Resolves) : (s.gc rules).2.Resolves ↔ s.KeepsPointed rules := by
  rw [resolves_iff] at h ⊢
  have hpoints : ∀ v, (s.gc rules).2.Points v ↔ s.Points v := fun v =>
    ⟨fun hv => by rcases hv with hv | ⟨name, hv⟩ | ⟨name, hv⟩
                  exacts [.head hv, .tag name hv, .branch name hv],
      fun hv => by rcases hv with hv | ⟨name, hv⟩ | ⟨name, hv⟩
                   exacts [.head hv, .tag name hv, .branch name hv]⟩
  refine forall_congr' fun v => ?_
  rw [hpoints, isSome_get_gc]
  exact imp_congr_right fun hv => and_iff_right (h v hv)

theorem Resolves.reload (h : s.Resolves) (hw : s.WellFormed) :
    (fromSnapshot s.snapshot).Resolves := by
  rw [resolves_iff] at h ⊢
  intro v hv
  rw [get_fromSnapshot_snapshot hw]
  rcases hv with hv | ⟨name, hv⟩ | ⟨name, hv⟩
  exacts [h v (.head hv), h v (.tag name hv), h v (.branch name hv)]

theorem WellFormed.perform (h : s.WellFormed) (k : VersionCall) : (s.perform k).WellFormed := by
  cases k with
  | commit => exact h.commit
  | setTag name v =>
    rw [VersionStore.perform]
    cases hs : s.setTag name v with
    | ok s' => exact h.congr (commits_of_setTag hs).1 (commits_of_setTag hs).2
    | error => exact h
  | setBranch name v =>
    rw [VersionStore.perform]
    cases hs : s.setBranch name v with
    | ok s' => exact h.congr (commits_of_setBranch hs).1 (commits_of_setBranch hs).2
    | error => exact h
  | gc => exact h.gc
  | reload => exact h.fromSnapshot_snapshot

/-- The step lemma: only a pass can leave a pointer dangling. -/
theorem resolves_perform_iff (hw : s.WellFormed) (h : s.Resolves) (k : VersionCall) :
    (s.perform k).Resolves ↔ ∀ rules, k = .gc rules → s.KeepsPointed rules := by
  cases k with
  | gc rules =>
    refine (resolves_gc_iff h).trans ⟨fun hk rules' hr => ?_, fun hk => hk rules rfl⟩
    cases hr
    exact hk
  | commit => exact iff_of_true h.commit (by simp)
  | setTag name v =>
    refine iff_of_true ?_ (by simp)
    rw [perform]
    cases hs : s.setTag name v with
    | ok s' => exact h.setTag hs
    | error => exact h
  | setBranch name v =>
    refine iff_of_true ?_ (by simp)
    rw [perform]
    cases hs : s.setBranch name v with
    | ok s' => exact h.setBranch hs
    | error => exact h
  | reload => exact iff_of_true (h.reload hw) (by simp)

/-- The run lemma: a store stays good through a run exactly if each pass of the run keeps the
versions pointed at. -/
theorem resolves_foldl_iff (hw : s.WellFormed) (h : s.Resolves) (ks : List VersionCall) :
    (∀ l, l <+: ks → (l.foldl perform s).Resolves) ↔
      ∀ l rules, l ++ [.gc rules] <+: ks → (l.foldl perform s).KeepsPointed rules := by
  induction ks generalizing s with
  | nil =>
    refine iff_of_true (fun l hl => ?_) fun l rules hl => ?_
    · rw [List.prefix_nil.mp hl]
      exact h
    · simp at hl
  | cons k ks ih =>
    refine ⟨fun hall l rules hl => ?_, fun hall => ?_⟩
    · have hk : (s.perform k).Resolves := hall [k] (List.prefix_append [k] ks)
      cases l with
      | nil =>
        rw [List.nil_append, List.cons_prefix_cons] at hl
        exact (resolves_perform_iff hw h k).mp hk rules hl.1.symm
      | cons k' l =>
        rw [List.cons_append, List.cons_prefix_cons] at hl
        obtain ⟨rfl, hl⟩ := hl
        refine (ih (hw.perform _) hk).mp (fun l' hl' => ?_) l rules hl
        exact hall (_ :: l') (List.cons_prefix_cons.mpr ⟨rfl, hl'⟩)
    · have hk : (s.perform k).Resolves := (resolves_perform_iff hw h k).mpr fun rules hr =>
        hall [] rules (by rw [List.nil_append, hr]; exact List.prefix_append _ _)
      have hrest := (ih (hw.perform k) hk).mpr fun l rules hl =>
        hall (k :: l) rules (List.cons_prefix_cons.mpr ⟨rfl, hl⟩)
      intro l hl
      cases l with
      | nil => exact h
      | cons k' l =>
        obtain ⟨rfl, hl'⟩ := List.cons_prefix_cons.mp hl
        exact hrest l hl'

end VersionStore

end Vecvec
