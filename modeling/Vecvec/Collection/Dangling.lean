import Vecvec.Machinery.Ghost
import Vecvec.Collection.Growth

/-!
# Collection/Dangling — passes that race commits and restores

A commit has its segments in hand from loading the working set to recording the version, and a
restore puts those of a manifest back to work before it commits.  A pass decides which segments are
orphans under one lock, reads the working set, and removes them under another; a segment that was in
somebody's hands or put back to work meanwhile may be on its way into a manifest.  If no pass
removes such a segment, no manifest ever dangles.

The notes beside the state: what is in hand, what has been in hand or put back to work since a
caller's last pass began, and the segment ids given out and not yet published.
-/

namespace Vecvec

open Machinery CollectionOp

variable {P : Platform} {cfg : CollectionConfig} {c c' : Collection} {t : ℕ}
  {calls : ℕ → Option Call}

/-! ## Notes -/

/-- What callers have in hand. -/
structure Hands where
  /-- Per caller, the segments it has loaded and not yet handed on. -/
  held : List (ℕ × List SegmentId)
  /-- Per caller, the segment id it was given and has not published. -/
  fresh : ℕ → Option SegmentId
  /-- Per caller, the segments in somebody's hands or put back to work since its last pass began. -/
  touched : ℕ → List SegmentId

namespace Hands

/-- Nothing is in hand. -/
def empty : Hands := ⟨[], fun _ => none, fun _ => []⟩

/-- The caller has nothing in hand any more. -/
def drop (g : Hands) (t : ℕ) : Hands := { g with held := g.held.filter fun e => e.1 ≠ t }

/-- The caller takes segments in hand. -/
def take (g : Hands) (t : ℕ) (ids : List SegmentId) : Hands where
  held := (t, ids) :: (g.drop t).held
  fresh := g.fresh
  touched u := ids ++ g.touched u

/-- Segments are put back to work. -/
def touch (g : Hands) (ids : List SegmentId) : Hands :=
  { g with touched := fun u => ids ++ g.touched u }

/-- The caller is given a segment id, or has published it. -/
def setFresh (g : Hands) (t : ℕ) (id : Option SegmentId) : Hands :=
  { g with fresh := Function.update g.fresh t id }

/-- The caller begins a pass. -/
def beginPass (g : Hands) (t : ℕ) : Hands :=
  { g with touched := Function.update g.touched t (g.held.flatMap Prod.snd) }

theorem of_mem_drop {g : Hands} {e : ℕ × List SegmentId} (h : e ∈ (g.drop t).held) :
    e ∈ g.held ∧ e.1 ≠ t := by
  rw [drop, List.mem_filter, decide_eq_true_eq] at h
  exact h

theorem mem_drop {g : Hands} {e : ℕ × List SegmentId} (h : e ∈ g.held) (ht : e.1 ≠ t) :
    e ∈ (g.drop t).held := List.mem_filter.mpr ⟨h, decide_eq_true ht⟩

end Hands

/-- The call records a version of what it has in hand. -/
def Call.records : Call → Bool
  | commit .. | restore _ => true
  | _ => false

namespace Collection

/-- What a caller notes. -/
def noteHands (calls : ℕ → Option Call) (t : ℕ) : (o : CollectionOp) → o.Ret → Hands → Hands
  | .loadWorking, w, g =>
    if (calls t).any Call.records then g.take t (w.map SealedSegment.id) else g
  | .restoreWorking ids, _, g => g.touch ids
  | .storeWorking _, _, g => (g.drop t).setFresh t none
  | .recordVersion .., _, g => g.drop t
  | .takeAppendable, some sealed, g => g.setFresh t (some sealed.id)
  | .allocSegmentId, id, g => g.setFresh t (some id)
  | .publishSegment _, _, g => g.setFresh t none
  | .collectVersions _, _, g => g.beginPass t
  | _, _, g => g

/-- A pass removes no segment that has been in somebody's hands or put back to work since it
began. -/
def SparesHands (t : ℕ) : CollectionOp → Collection × Hands → Prop
  | .removeSegments ids, s => ∀ id ∈ ids, (s.1.allSegments id).isSome → id ∉ s.2.touched t
  | _, _ => True

instance {o : CollectionOp} {s : Collection × Hands} : Decidable (SparesHands t o s) := by
  unfold SparesHands
  split <;> infer_instance

end Collection

/-- The action touches neither segments nor manifests, and nothing is noted of it. -/
def CollectionOp.Idle : CollectionOp → Prop
  | allocGlobalId | appendRow .. | appendRows _ | bumpGlobalId _ | insertPayload .. |
    appendableContains _ | loadDeletions | tombstone _ | storeDeletions _ | resetAppendable |
    manifestOf _ | setTag .. | setBranch .. => True
  | _ => False

theorem CollectionOp.Inserts.idle {o : CollectionOp} (h : o.Inserts) : o.Idle := by
  cases o <;> trivial

namespace Collection

/-! ## The invariant -/

/-- A manifest, or somebody's hand, names the segment. -/
def Named (s : Collection × Hands) (id : SegmentId) : Prop :=
  id ∈ s.1.versions.allReferencedSegments ∨ ∃ e ∈ s.2.held, id ∈ e.2

/-- The segment is in the working set. -/
def Works (s : Collection × Hands) (id : SegmentId) : Prop :=
  id ∈ s.1.working.map SealedSegment.id

/-- The segment id has not been published. -/
def New (s : Collection × Hands) (id : SegmentId) : Prop :=
  (∃ u, s.2.fresh u = some id) ∨ s.1.nextSegmentId ≤ id

/-- What the calls keep. -/
structure Kept (s : Collection × Hands) : Prop where
  /-- Segments are registered under their own ids. -/
  keyed : s.1.Keyed
  /-- Those ids have been given out. -/
  below : ∀ id, (s.1.allSegments id).isSome → id < s.1.nextSegmentId
  /-- What is named is registered. -/
  named : ∀ id, Named s id → (s.1.allSegments id).isSome
  /-- The working set is registered. -/
  works : ∀ id, Works s id → (s.1.allSegments id).isSome
  /-- An id that was given out and not published is nowhere yet. -/
  fresh : ∀ u id, s.2.fresh u = some id →
    id < s.1.nextSegmentId ∧ ¬ Named s id ∧ ¬ Works s id
  /-- No two callers were given one id. -/
  distinct : ∀ u u' id, s.2.fresh u = some id → s.2.fresh u' = some id → u = u'
  /-- What is in hand is noted for every pass. -/
  touched : ∀ e ∈ s.2.held, ∀ id ∈ e.2, ∀ u, id ∈ s.2.touched u

/-- What a caller relies on. -/
structure Minds (t : ℕ) (s s' : Collection × Hands) : Prop where
  /-- Ids are given out in order. -/
  next : s.1.nextSegmentId ≤ s'.1.nextSegmentId
  /-- The id it was given is its own. -/
  own : s'.2.fresh t = s.2.fresh t
  /-- What it has in hand stays there. -/
  held : ∀ e ∈ s.2.held, e.1 = t → e ∈ s'.2.held
  /-- Nobody is given an id that has been published. -/
  fresh : ∀ u id, s'.2.fresh u = some id → New s id
  /-- Its notes of what has been in hand only grow. -/
  touched : ∀ id ∈ s.2.touched t, id ∈ s'.2.touched t
  /-- What becomes named has been in hand. -/
  named : ∀ id, Named s' id → Named s id ∨ id ∈ s'.2.touched t
  /-- What becomes working has been in hand, or is new. -/
  works : ∀ id, Works s' id → Works s id ∨ id ∈ s'.2.touched t ∨ New s id
  /-- What it has registered under its own id stays registered. -/
  registered : ∀ id, s.2.fresh t = some id → (s.1.allSegments id).isSome →
    (s'.1.allSegments id).isSome

theorem minds_refl (t : ℕ) (s : Collection × Hands) : Minds t s s where
  next := le_rfl
  own := rfl
  held _ h _ := h
  fresh u _ h := .inl ⟨u, h⟩
  touched _ h := h
  named _ h := .inl h
  works _ h := .inl h
  registered _ _ h := h

theorem Minds.new {s s' : Collection × Hands} (h : Minds t s s') {id : SegmentId}
    (hid : New s' id) : New s id :=
  hid.elim (fun ⟨u, hu⟩ => h.fresh u id hu) fun hle => .inr (h.next.trans hle)

theorem minds_trans (t : ℕ) (s s' s'' : Collection × Hands) (h : Minds t s s')
    (h' : Minds t s' s'') : Minds t s s'' where
  next := h.next.trans h'.next
  own := h'.own.trans h.own
  held e he ht := h'.held e (h.held e he ht) ht
  fresh u id hu := h.new (h'.fresh u id hu)
  touched id hid := h'.touched id (h.touched id hid)
  named id hid := (h'.named id hid).elim
    (fun hid => (h.named id hid).imp_right (h'.touched id)) .inr
  works id hid := by
    rcases h'.works id hid with hid | hid | hid
    · exact (h.works id hid).imp_right (.imp_left (h'.touched id))
    · exact .inr (.inl hid)
    · exact .inr (.inr (h.new hid))
  registered id hid hs := h'.registered id (h.own ▸ hid) (h.registered id hid hs)

/-! ## The actions -/

section Actions

variable {g g' : Hands}

/-- An action that touches neither segments nor manifests. -/
theorem Kept.same (hI : Kept (c, g)) (hc : c'.versions.commits = c.versions.commits)
    (hw : c'.working = c.working) (hs : c'.allSegments = c.allSegments)
    (hn : c'.nextSegmentId = c.nextSegmentId) :
    Kept (c', g) ∧ ∀ u, Minds u (c, g) (c', g) := by
  have hnamed (id : SegmentId) : Named (c', g) id ↔ Named (c, g) id := by
    rw [Named, Named, VersionStore.allReferencedSegments, VersionStore.allReferencedSegments,
      VersionStore.manifests_congr hc]
  have hworks (id : SegmentId) : Works (c', g) id ↔ Works (c, g) id := by rw [Works, Works, hw]
  refine ⟨⟨fun id seg h => hI.keyed id seg (hs ▸ h), fun id h => ?_, fun id h => ?_, fun id h => ?_,
    fun u id h => ?_, hI.distinct, hI.touched⟩, fun u => ⟨hn.ge, rfl, fun _ h _ => h,
    fun u' _ h => .inl ⟨u', h⟩, fun _ h => h, fun id h => .inl ((hnamed id).mp h),
    fun id h => .inl ((hworks id).mp h), fun id _ h => hs ▸ h⟩⟩
  · exact hn ▸ hI.below id (hs ▸ h)
  · exact hs ▸ hI.named id ((hnamed id).mp h)
  · exact hs ▸ hI.works id ((hworks id).mp h)
  · obtain ⟨hlt, hno, hno'⟩ := hI.fresh u id h
    exact ⟨hn ▸ hlt, fun h => hno ((hnamed id).mp h), fun h => hno' ((hworks id).mp h)⟩

/-- Registered segments are taken in hand. -/
theorem Kept.take (hI : Kept (c, g)) (ids : List SegmentId)
    (hids : ∀ id ∈ ids, (c.allSegments id).isSome ∧ ∀ u, g.fresh u ≠ some id) :
    Kept (c, g.take t ids) ∧ ∀ u, u ≠ t → Minds u (c, g) (c, g.take t ids) := by
  have hnamed {id : SegmentId} (h : Named (c, g.take t ids) id) : Named (c, g) id ∨ id ∈ ids := by
    obtain h | ⟨e, he, hid⟩ := h
    · exact .inl (.inl h)
    · rcases List.mem_cons.mp he with rfl | he
      · exact .inr hid
      · exact .inl (.inr ⟨e, (Hands.of_mem_drop he).1, hid⟩)
  refine ⟨⟨hI.keyed, hI.below, fun id h => ?_, hI.works, fun u id h => ?_, hI.distinct,
    fun e he id hid u => ?_⟩, fun u hu => ⟨le_rfl, rfl, fun e he heu => ?_,
    fun u' _ h => .inl ⟨u', h⟩, fun _ h => List.mem_append_right _ h, fun id h => ?_,
    fun _ h => .inl h, fun _ _ h => h⟩⟩
  · exact (hnamed h).elim (hI.named id) fun h => (hids id h).1
  · obtain ⟨hlt, hno, hno'⟩ := hI.fresh u id h
    exact ⟨hlt, fun hn => (hnamed hn).elim hno fun hid => (hids id hid).2 u h, hno'⟩
  · rcases List.mem_cons.mp he with rfl | he
    · exact List.mem_append_left _ hid
    · exact List.mem_append_right _ (hI.touched e (Hands.of_mem_drop he).1 id hid u)
  · exact List.mem_cons_of_mem _ (Hands.mem_drop he (heu ▸ hu))
  · exact (hnamed h).imp_right (List.mem_append_left _)

/-- What is in hand is put down. -/
theorem Kept.drop (hI : Kept (c, g)) : Kept (c, g.drop t) ∧
    ∀ u, u ≠ t → Minds u (c, g) (c, g.drop t) := by
  have hnamed {id : SegmentId} (h : Named (c, g.drop t) id) : Named (c, g) id :=
    h.imp_right fun ⟨e, he, hid⟩ => ⟨e, (Hands.of_mem_drop he).1, hid⟩
  refine ⟨⟨hI.keyed, hI.below, fun id h => hI.named id (hnamed h), hI.works, fun u id h => ?_,
    hI.distinct, fun e he => hI.touched e (Hands.of_mem_drop he).1⟩, fun u hu => ⟨le_rfl, rfl,
    fun e he heu => Hands.mem_drop he (heu ▸ hu), fun u' _ h => .inl ⟨u', h⟩, fun _ h => h,
    fun id h => .inl (hnamed h), fun _ h => .inl h, fun _ _ h => h⟩⟩
  obtain ⟨hlt, hno, hno'⟩ := hI.fresh u id h
  exact ⟨hlt, fun h => hno (hnamed h), hno'⟩

/-- A segment id is given out. -/
theorem Kept.alloc (hI : Kept (c, g)) {a : AppendableSegment} {f : ℕ → Option SealedSegment} :
    Kept ({ c with appendable := a, nextSegmentId := c.nextSegmentId + 1, sealing := f },
        g.setFresh t (some c.nextSegmentId)) ∧
      ∀ u, u ≠ t → Minds u (c, g) ({ c with
        appendable := a, nextSegmentId := c.nextSegmentId + 1, sealing := f },
        g.setFresh t (some c.nextSegmentId)) := by
  have hfresh {u : ℕ} {id : SegmentId} (h : Function.update g.fresh t (some c.nextSegmentId) u =
      some id) : (u = t ∧ id = c.nextSegmentId) ∨ g.fresh u = some id := by
    rw [Function.update_apply] at h
    split at h
    · exact .inl ⟨‹_›, (Option.some.inj h).symm⟩
    · exact .inr h
  have hno {id : SegmentId} (h : (c.allSegments id).isSome) : id ≠ c.nextSegmentId :=
    (hI.below id h).ne
  refine ⟨⟨hI.keyed, fun id h => Nat.lt_succ_of_lt (hI.below id h), hI.named, hI.works,
    fun u id h => ?_, fun u u' id h h' => ?_, hI.touched⟩, fun u hu => ⟨Nat.le_succ _,
    Function.update_of_ne hu .., fun _ h _ => h, fun u' id h => ?_, fun _ h => h,
    fun _ h => .inl h, fun _ h => .inl h, fun _ _ h => h⟩⟩
  · rcases hfresh h with ⟨-, rfl⟩ | h
    · exact ⟨Nat.lt_succ_self _, fun h => hno (hI.named _ h) rfl, fun h => hno (hI.works _ h) rfl⟩
    · obtain ⟨hlt, hno⟩ := hI.fresh u id h
      exact ⟨Nat.lt_succ_of_lt hlt, hno⟩
  · rcases hfresh h with ⟨hu, hid⟩ | hold
    · rcases hfresh h' with ⟨hu', -⟩ | hold'
      · exact hu.trans hu'.symm
      · exact absurd (hI.fresh u' id hold').1 (hid ▸ lt_irrefl _)
    · rcases hfresh h' with ⟨-, hid⟩ | hold'
      · exact absurd (hI.fresh u id hold).1 (hid ▸ lt_irrefl _)
      · exact hI.distinct u u' id hold hold'
  · rcases hfresh h with ⟨-, rfl⟩ | h
    · exact .inr le_rfl
    · exact .inl ⟨u', h⟩

/-- A segment is registered under the id that was given out for it. -/
theorem Kept.register (hI : Kept (c, g)) (seg : SealedSegment) (hf : g.fresh t = some seg.id) :
    Kept ({ c with allSegments := insertSegments c.allSegments [seg] }, g) ∧
      ∀ u, Minds u (c, g) ({ c with allSegments := insertSegments c.allSegments [seg] }, g) := by
  have hmono {id : SegmentId} (h : (c.allSegments id).isSome) :
      (insertSegments c.allSegments [seg] id).isSome := isSome_insertSegments.mpr (.inl h)
  refine ⟨⟨keyed_insertSegments hI.keyed _, fun id h => ?_, fun id h => hmono (hI.named id h),
    fun id h => hmono (hI.works id h), hI.fresh, hI.distinct, hI.touched⟩, fun u => ⟨le_rfl, rfl,
    fun _ h _ => h, fun u' _ h => .inl ⟨u', h⟩, fun _ h => h, fun _ h => .inl h, fun _ h => .inl h,
    fun _ _ h => hmono h⟩⟩
  rcases isSome_insertSegments.mp h with h | h
  · exact hI.below id h
  · rw [List.map_singleton, List.mem_singleton] at h
    exact h ▸ (hI.fresh t _ hf).1

/-- **The working set changes**: to what it was, what is in hand, and the caller's own segment,
which is published with that. -/
theorem Kept.setWorking (hI : Kept (c, g)) {w : SegmentSet} {f : ℕ → Option SealedSegment}
    (hw : ∀ x ∈ w, Works (c, g) x.id ∨ (∃ e ∈ g.held, x.id ∈ e.2) ∨
      g.fresh t = some x.id ∧ (c.allSegments x.id).isSome) :
    Kept ({ c with working := w, sealing := f }, g.setFresh t none) ∧
      ∀ u, u ≠ t → Minds u (c, g) ({ c with working := w, sealing := f }, g.setFresh t none) := by
  have hworks {id : SegmentId} (h : Works ({ c with working := w, sealing := f }, g.setFresh t none)
      id) : Works (c, g) id ∨ (∃ e ∈ g.held, id ∈ e.2) ∨
        g.fresh t = some id ∧ (c.allSegments id).isSome := by
    obtain ⟨x, hx, rfl⟩ := List.mem_map.mp h
    exact hw x hx
  have hfresh {u : ℕ} {id : SegmentId} (h : Function.update g.fresh t none u = some id) :
      u ≠ t ∧ g.fresh u = some id := by
    rw [Function.update_apply] at h
    split at h
    · cases h
    · exact ⟨‹_›, h⟩
  refine ⟨⟨hI.keyed, hI.below, hI.named, fun id h => ?_, fun u id h => ?_, fun u u' id h h' => ?_,
    hI.touched⟩, fun u hu => ⟨le_rfl, Function.update_of_ne hu .., fun _ h _ => h,
    fun u' _ h => .inl ⟨u', (hfresh h).2⟩, fun _ h => h, fun _ h => .inl h, fun id h => ?_,
    fun _ _ h => h⟩⟩
  · rcases hworks h with h | h | h
    · exact hI.works id h
    · exact hI.named id (.inr h)
    · exact h.2
  · obtain ⟨hu, hold⟩ := hfresh h
    obtain ⟨hlt, hno, hno'⟩ := hI.fresh u id hold
    refine ⟨hlt, hno, fun h => ?_⟩
    rcases hworks h with h | h | h
    · exact hno' h
    · exact hno (.inr h)
    · exact hu (hI.distinct u t id hold h.1)
  · exact hI.distinct u u' id (hfresh h).2 (hfresh h').2
  · rcases hworks h with h | ⟨e, he, h⟩ | h
    · exact .inl h
    · exact .inr (.inl (hI.touched e he id h u))
    · exact .inr (.inr (.inl ⟨t, h.1⟩))

/-- **Segments are put back to work**: those that are registered under ids that are not new. -/
theorem Kept.restoreWorking (hI : Kept (c, g)) (ids : List SegmentId)
    (hids : ∀ id ∈ ids, ¬ New (c, g) id) :
    Kept ({ c with working := ids.filterMap c.allSegments }, g.touch ids) ∧
      ∀ u, Minds u (c, g) ({ c with working := ids.filterMap c.allSegments }, g.touch ids) := by
  have hworks {id : SegmentId}
      (h : Works ({ c with working := ids.filterMap c.allSegments }, g.touch ids) id) :
      id ∈ ids ∧ (c.allSegments id).isSome := by
    obtain ⟨x, hx, rfl⟩ := List.mem_map.mp h
    obtain ⟨i, hi, hix⟩ := List.mem_filterMap.mp hx
    obtain rfl := hI.keyed i x hix
    exact ⟨hi, Option.isSome_iff_exists.mpr ⟨x, hix⟩⟩
  refine ⟨⟨hI.keyed, hI.below, hI.named, fun id h => (hworks h).2, fun u id h => ?_, hI.distinct,
    fun e he id hid u => List.mem_append_right _ (hI.touched e he id hid u)⟩,
    fun u => ⟨le_rfl, rfl, fun _ h _ => h, fun u' _ h => .inl ⟨u', h⟩,
      fun _ h => List.mem_append_right _ h, fun _ h => .inl h,
      fun id h => .inr (.inl (List.mem_append_left _ (hworks h).1)), fun _ _ h => h⟩⟩
  obtain ⟨hlt, hno, -⟩ := hI.fresh u id h
  exact ⟨hlt, hno, fun hw => hids id (hworks hw).1 (.inl ⟨u, h⟩)⟩

/-- **A version is recorded** of what is in hand. -/
theorem Kept.record (hI : Kept (c, g)) (trigger : String) (message tag : Option String)
    {segs : List SegmentRef} (d : DeletionVector)
    (hsegs : ∀ r ∈ segs, ∃ e ∈ g.held, r.id ∈ e.2) :
    Kept ({ c with versions := (c.versions.commit trigger message tag segs d).2 }, g) ∧
      ∀ u, Minds u (c, g)
        ({ c with versions := (c.versions.commit trigger message tag segs d).2 }, g) := by
  have hnamed {id : SegmentId} (h : Named
      ({ c with versions := (c.versions.commit trigger message tag segs d).2 }, g) id) :
      Named (c, g) id := by
    rcases h with h | h
    · obtain ⟨v, m, hm, hid⟩ := VersionStore.mem_allReferencedSegments.mp h
      rw [VersionStore.get_commit] at hm
      split at hm
      · cases hm
        obtain ⟨r, hr, rfl⟩ := List.mem_map.mp hid
        exact .inr (hsegs r hr)
      · exact .inl (VersionStore.mem_allReferencedSegments.mpr ⟨v, m, hm, hid⟩)
    · exact .inr h
  refine ⟨⟨hI.keyed, hI.below, fun id h => hI.named id (hnamed h), hI.works, fun u id h => ?_,
    hI.distinct, hI.touched⟩, fun u => ⟨le_rfl, rfl, fun _ h _ => h, fun u' _ h => .inl ⟨u', h⟩,
    fun _ h => h, fun _ h => .inl (hnamed h), fun _ h => .inl h, fun _ _ h => h⟩⟩
  obtain ⟨hlt, hno, hno'⟩ := hI.fresh u id h
  exact ⟨hlt, fun h => hno (hnamed h), hno'⟩

/-- **A pass begins**: versions are dropped, and what is in hand is noted. -/
theorem Kept.collect (hI : Kept (c, g)) (rules : RetentionRules) :
    Kept ({ c with versions := (c.versions.gc rules).2 }, g.beginPass t) ∧
      ∀ u, u ≠ t → Minds u (c, g) ({ c with versions := (c.versions.gc rules).2 },
        g.beginPass t) := by
  have hnamed {id : SegmentId}
      (h : Named ({ c with versions := (c.versions.gc rules).2 }, g.beginPass t) id) :
      Named (c, g) id := h.imp_left fun h => (VersionStore.of_mem_allReferencedSegments_gc h).1
  refine ⟨⟨hI.keyed, hI.below, fun id h => hI.named id (hnamed h), hI.works, fun u id h => ?_,
    hI.distinct, fun e he id hid u => ?_⟩, fun u hu => ⟨le_rfl, rfl, fun _ h _ => h,
    fun u' _ h => .inl ⟨u', h⟩, fun id h => ?_, fun _ h => .inl (hnamed h), fun _ h => .inl h,
    fun _ _ h => h⟩⟩
  · obtain ⟨hlt, hno, hno'⟩ := hI.fresh u id h
    exact ⟨hlt, fun h => hno (hnamed h), hno'⟩
  · change id ∈ Function.update g.touched t _ u
    rw [Function.update_apply]
    split
    · exact List.mem_flatMap.mpr ⟨e, he, hid⟩
    · exact hI.touched e he id hid u
  · change id ∈ Function.update g.touched t _ u
    rwa [Function.update_of_ne hu]

/-- **Segments are removed** that nothing names, works with or was given out for. -/
theorem Kept.remove (hI : Kept (c, g)) (ids : List SegmentId)
    (hids : ∀ id ∈ ids, ¬ Named (c, g) id ∧ ¬ Works (c, g) id ∧ ∀ u, g.fresh u ≠ some id) :
    Kept ({ c with allSegments := fun id => if id ∈ ids then none else c.allSegments id }, g) ∧
      ∀ u, Minds u (c, g)
        ({ c with allSegments := fun id => if id ∈ ids then none else c.allSegments id }, g) := by
  have hkeep {id : SegmentId} (h : id ∉ ids) (hs : (c.allSegments id).isSome) :
      (if id ∈ ids then none else c.allSegments id).isSome := by rwa [if_neg h]
  have hold {id : SegmentId} {seg : SealedSegment}
      (h : (if id ∈ ids then none else c.allSegments id) = some seg) :
      c.allSegments id = some seg := by
    split at h
    · cases h
    · exact h
  refine ⟨⟨fun id seg h => hI.keyed id seg (hold h), fun id h => ?_, fun id h => ?_, fun id h => ?_,
    hI.fresh, hI.distinct, hI.touched⟩, fun u => ⟨le_rfl, rfl, fun _ h _ => h,
    fun u' _ h => .inl ⟨u', h⟩, fun _ h => h, fun _ h => .inl h, fun _ h => .inl h,
    fun id h hs => hkeep (fun hid => (hids id hid).2.2 u h) hs⟩⟩
  · obtain ⟨seg, hseg⟩ := Option.isSome_iff_exists.mp h
    exact hI.below id (Option.isSome_iff_exists.mpr ⟨seg, hold hseg⟩)
  · exact hkeep (fun hid => (hids id hid).1 h) (hI.named id h)
  · exact hkeep (fun hid => (hids id hid).2.1 h) (hI.works id h)

end Actions

/-! ## The calls, one among others -/

section Calls

variable {A : Collection × Hands → Prop}

theorem stable_true : Stable Kept Minds t fun _ => True := fun _ _ _ _ _ _ => trivial

/-- What one caller knows of its own id and hands stays so. -/
theorem stable_fresh (id : SegmentId) : Stable Kept Minds t fun s => s.2.fresh t = some id :=
  fun _ _ _ h hr _ => hr.own.trans h

theorem stable_registered (id : SegmentId) : Stable Kept Minds t fun s =>
    s.2.fresh t = some id ∧ (s.1.allSegments id).isSome :=
  fun _ _ _ h hr _ => ⟨hr.own.trans h.1, hr.registered id h.1 h.2⟩

theorem stable_held (ids : List SegmentId) : Stable Kept Minds t fun s => (t, ids) ∈ s.2.held :=
  fun _ _ _ h hr _ => hr.held _ h rfl

theorem stable_notNew (ids : List SegmentId) :
    Stable Kept Minds t fun s => ∀ id ∈ ids, ¬ New s id :=
  fun _ _ _ h hr _ id hid hn => h id hid (hr.new hn)

/-- What an idle action leaves alone. -/
theorem step_idle {o : CollectionOp} (ho : o.Idle) {r : o.Ret}
    (hs : step P cfg t o c = some (r, c')) :
    c'.versions.commits = c.versions.commits ∧ c'.working = c.working ∧
      c'.allSegments = c.allSegments ∧ c'.nextSegmentId = c.nextSegmentId := by
  cases o with
  | insertPayload =>
    rw [step] at hs
    split at hs
    · cases hs
      exact ⟨rfl, rfl, rfl, rfl⟩
    · cases hs
  | setTag name v =>
    rw [step] at hs
    split at hs
    · cases hs
      exact ⟨(VersionStore.commits_of_setTag ‹_›).1, rfl, rfl, rfl⟩
    · cases hs
      exact ⟨rfl, rfl, rfl, rfl⟩
  | setBranch name v =>
    rw [step] at hs
    split at hs
    · cases hs
      exact ⟨(VersionStore.commits_of_setBranch ‹_›).1, rfl, rfl, rfl⟩
    · cases hs
      exact ⟨rfl, rfl, rfl, rfl⟩
  | allocGlobalId | appendRow | appendRows | bumpGlobalId | appendableContains | loadDeletions |
    tombstone | storeDeletions | resetAppendable | manifestOf =>
    cases hs
    exact ⟨rfl, rfl, rfl, rfl⟩
  | _ => exact ho.elim

theorem note_idle {o : CollectionOp} (ho : o.Idle) (r : o.Ret) (g : Hands) :
    noteHands calls t o r g = g := by
  cases o <;> first | rfl | exact ho.elim

/-- An idle action keeps what is known. -/
theorem owes_idle (hA : Stable Kept Minds t A) {o : CollectionOp} (ho : o.Idle) :
    Owes ((step P cfg).noting (noteHands calls)) SparesHands Kept Minds t A o fun _ => A := by
  rintro ⟨c, g⟩ r ⟨c', g'⟩ hI ha - hs
  obtain ⟨hst, hg⟩ := Handler.of_noting hs
  obtain rfl : g' = g := hg.trans (note_idle ho r g)
  obtain ⟨hc, hw, hseg, hn⟩ := step_idle ho hst
  obtain ⟨hK, hM⟩ := hI.same hc hw hseg hn
  exact ⟨hK, fun u _ => hM u, hA _ _ hI ha (hM t) hK⟩

/-- The working set is loaded; a call that is to record it has it in hand. -/
theorem owes_loadWorking : Owes ((step P cfg).noting (noteHands calls)) SparesHands Kept Minds t
    (fun _ => True) .loadWorking fun w s => (calls t).any Call.records →
      (t, w.map SealedSegment.id) ∈ s.2.held := by
  rintro ⟨c, g⟩ r ⟨c', g'⟩ hI - - hs
  obtain ⟨hst, rfl⟩ := Handler.of_noting hs
  cases hst
  rw [noteHands]
  split
  · obtain ⟨hK, hM⟩ := hI.take (t := t) (c.working.map SealedSegment.id) fun id hid =>
      ⟨hI.works id hid, fun u hu => (hI.fresh u id hu).2.2 hid⟩
    exact ⟨hK, hM, fun _ => List.mem_cons_self⟩
  · exact ⟨hI, fun u _ => minds_refl u _, fun h => absurd h ‹_›⟩

theorem triple_idle {α : Type} {p : CollectionProg α}
    (hp : p.Only fun o : CollectionOp => o.Idle ∨ o = .loadWorking) :
    Triple ((step P cfg).noting (noteHands calls)) SparesHands Kept Minds t (fun _ => True) p
      fun _ _ => True := by
  refine .only hp fun o ho => ?_
  rcases ho with ho | rfl
  · exact owes_idle stable_true ho
  · intro s r s' hI hA ha hs
    obtain ⟨hK, hM, -⟩ := owes_loadWorking s r s' hI hA ha hs
    exact ⟨hK, hM, trivial⟩

theorem triple_seal : Triple ((step P cfg).noting (noteHands calls)) SparesHands Kept Minds t
    (fun _ => True) sealAppendable fun _ _ => True := by
  refine .act stable_true (M := fun r s => ∀ seg, r = some seg → s.2.fresh t = some seg.id) ?_
    fun r => ?_
  · rintro ⟨c, g⟩ r ⟨c', g'⟩ hI - - hs
    obtain ⟨hst, rfl⟩ := Handler.of_noting hs
    change (if c.appendable.rows = [] then _ else _) = _ at hst
    split at hst
    · cases hst
      exact ⟨hI, fun u _ => minds_refl u _, nofun⟩
    · cases hst
      obtain ⟨hK, hM⟩ := hI.alloc (t := t) (a := .new) (f := Function.update c.sealing t
        (some (c.appendable.sealAs c.nextSegmentId)))
      refine ⟨hK, hM, fun seg hseg => ?_⟩
      cases hseg
      exact Function.update_self ..
  cases r with
  | none => exact .ret (fun _ _ _ _ _ _ => nofun) fun _ _ _ => trivial
  | some seg =>
    refine Triple.conseq (.act (stable_fresh seg.id) (M := fun _ s =>
      s.2.fresh t = some seg.id ∧ (s.1.allSegments seg.id).isSome) ?_ fun _ =>
        .act (stable_registered seg.id) (M := fun _ _ => True) ?_ fun _ =>
          .ret stable_true fun _ _ _ => trivial) (fun _ _ h => h seg rfl) fun _ _ _ h => h
    · rintro ⟨c, g⟩ r ⟨c', g'⟩ hI hf - hs
      obtain ⟨hst, rfl⟩ := Handler.of_noting hs
      cases hst
      obtain ⟨hK, hM⟩ := hI.register _ hf
      exact ⟨hK, fun u _ => hM u, hf, isSome_insertSegments.mpr (.inr List.mem_cons_self)⟩
    · rintro ⟨c, g⟩ r ⟨c', g'⟩ hI hf - hs
      obtain ⟨hst, rfl⟩ := Handler.of_noting hs
      cases hst
      have hw : ∀ x ∈ c.working ++ [seg], Works (c, g) x.id ∨ (∃ e ∈ g.held, x.id ∈ e.2) ∨
          g.fresh t = some x.id ∧ (c.allSegments x.id).isSome := by
        intro x hx
        rcases List.mem_append.mp hx with hx | hx
        · exact .inl (List.mem_map_of_mem hx)
        · rw [List.mem_singleton.mp hx]
          exact .inr (.inr hf)
      obtain ⟨hK, hM⟩ := hI.setWorking hw (f := Function.update c.sealing t none)
      exact ⟨hK, hM, trivial⟩

/-- **A commit** records what it has in hand. -/
theorem triple_commit_inHand (hrec : (calls t).any Call.records) {trigger : String}
    {message tag : Option String} :
    Triple ((step P cfg).noting (noteHands calls)) SparesHands Kept Minds t (fun _ => True)
      (commit trigger message tag) fun _ _ => True := by
  refine .bind (minds_refl t) triple_seal fun _ => ?_
  refine .act stable_true (M := fun w s => (t, w.map SealedSegment.id) ∈ s.2.held) ?_ fun w => ?_
  · intro s r s' hI hA ha hs
    obtain ⟨hK, hM, hheld⟩ := owes_loadWorking s r s' hI hA ha hs
    exact ⟨hK, hM, hheld hrec⟩
  refine .act (stable_held _) (owes_idle (stable_held _) trivial) fun d =>
    .act (stable_held (w.map SealedSegment.id)) (M := fun _ _ => True) ?_ fun _ =>
      .ret stable_true fun _ _ _ => trivial
  rintro ⟨c, g⟩ r ⟨c', g'⟩ hI hheld - hs
  obtain ⟨hst, rfl⟩ := Handler.of_noting hs
  cases hst
  have hsegs : ∀ ref ∈ w.filterMap segmentRef, ∃ e ∈ g.held, ref.id ∈ e.2 := by
    intro ref href
    obtain ⟨x, hx, hxr⟩ := List.mem_filterMap.mp href
    exact ⟨_, hheld, segmentRef_id hxr ▸ List.mem_map_of_mem hx⟩
  obtain ⟨hK, hM⟩ := hI.record trigger message tag d hsegs
  obtain ⟨hK', hM'⟩ := hK.drop (t := t)
  exact ⟨hK', fun u hu => minds_trans u _ _ _ (hM u) (hM' u hu), trivial⟩

/-- **A restore** puts the segments of a manifest back to work, and commits. -/
theorem triple_restore (hrec : (calls t).any Call.records) (v : VersionId) :
    Triple ((step P cfg).noting (noteHands calls)) SparesHands Kept Minds t (fun _ => True)
      (restore v) fun _ _ => True := by
  refine .act stable_true (M := fun r s => ∀ m, r = some m → ∀ id ∈ m.segmentIds, ¬ New s id) ?_
    fun r => ?_
  · rintro ⟨c, g⟩ r ⟨c', g'⟩ hI - - hs
    obtain ⟨hst, rfl⟩ := Handler.of_noting hs
    cases hst
    refine ⟨hI, fun u _ => minds_refl u _, fun m hm id hid hnew => ?_⟩
    have hnamed : Named (c, g') id :=
      .inl (VersionStore.mem_allReferencedSegments.mpr ⟨v, m, hm, hid⟩)
    rcases hnew with ⟨u, hu⟩ | hle
    · exact (hI.fresh u id hu).2.1 hnamed
    · exact absurd (hI.below id (hI.named id hnamed)) (not_lt.mpr hle)
  cases r with
  | none => exact .ret (fun _ _ _ _ _ _ => nofun) fun _ _ _ => trivial
  | some m =>
    have hcommit : Triple ((step P cfg).noting (noteHands calls)) SparesHands Kept Minds t
        (fun _ => True) (commit "restore" (some s!"restore of v{v}") none >>= fun w =>
          (return .ok w : CollectionProg (Except CoreError VersionId))) fun _ _ => True :=
      .bind (minds_refl t) (triple_commit_inHand hrec) fun _ =>
        .ret stable_true fun _ _ _ => trivial
    refine Triple.conseq (.act (stable_notNew m.segmentIds) (M := fun _ _ => True) ?_ fun _ =>
      .act stable_true (owes_idle stable_true trivial) fun _ =>
      .act stable_true (owes_idle stable_true trivial) fun _ => hcommit)
      (fun _ _ h => h m rfl) fun _ _ _ h => h
    rintro ⟨c, g⟩ r ⟨c', g'⟩ hI hnew - hs
    obtain ⟨hst, rfl⟩ := Handler.of_noting hs
    cases hst
    obtain ⟨hK, hM⟩ := hI.restoreWorking m.segmentIds hnew
    exact ⟨hK, fun u _ => hM u, trivial⟩

/-- **A compaction** publishes a segment of its own. -/
theorem triple_compact : Triple ((step P cfg).noting (noteHands calls)) SparesHands Kept Minds t
    (fun _ => True) (compact P cfg) fun _ _ => True := by
  refine .act stable_true (M := fun _ _ => True) (fun s r s' hI hA ha hs => ?_) fun working => ?_
  · obtain ⟨hK, hM, -⟩ := owes_loadWorking s r s' hI hA ha hs
    exact ⟨hK, hM, trivial⟩
  change Triple _ _ _ _ _ _ (if working.length ≤ 1 then _ else _) _
  split
  · exact .ret stable_true fun _ _ _ => trivial
  refine .act stable_true (M := fun id s => s.2.fresh t = some id) ?_ fun id =>
    .act (stable_fresh id) (M := fun _ s => s.2.fresh t = some id ∧ (s.1.allSegments id).isSome)
      ?_ fun _ => .act (stable_registered id) (M := fun _ _ => True) ?_ fun _ =>
        .ret stable_true fun _ _ _ => trivial
  · rintro ⟨c, g⟩ r ⟨c', g'⟩ hI - - hs
    obtain ⟨hst, rfl⟩ := Handler.of_noting hs
    cases hst
    obtain ⟨hK, hM⟩ := hI.alloc (t := t) (a := c.appendable) (f := c.sealing)
    exact ⟨hK, hM, Function.update_self ..⟩
  · rintro ⟨c, g⟩ r ⟨c', g'⟩ hI hf - hs
    obtain ⟨hst, rfl⟩ := Handler.of_noting hs
    cases hst
    obtain ⟨hK, hM⟩ := hI.register ((mergedRows P cfg working).sealAs id) hf
    exact ⟨hK, fun u _ => hM u, hf, isSome_insertSegments.mpr (.inr List.mem_cons_self)⟩
  · rintro ⟨c, g⟩ r ⟨c', g'⟩ hI hf - hs
    obtain ⟨hst, rfl⟩ := Handler.of_noting hs
    cases hst
    have hw : ∀ x ∈ [(mergedRows P cfg working).sealAs id], Works (c, g) x.id ∨
        (∃ e ∈ g.held, x.id ∈ e.2) ∨ g.fresh t = some x.id ∧ (c.allSegments x.id).isSome := by
      intro x hx
      rw [List.mem_singleton.mp hx]
      exact .inr (.inr hf)
    obtain ⟨hK, hM⟩ := hI.setWorking hw (f := c.sealing)
    obtain ⟨hK', hM'⟩ := hK.drop (t := t)
    exact ⟨hK', fun u hu => minds_trans u _ _ _ (hM u hu) (hM' u hu), trivial⟩

/-- What a pass reports as an orphan is not new, and is named only if it has been in hand. -/
def OrphanedFor (t : ℕ) (ids : List SegmentId) (s : Collection × Hands) : Prop :=
  ∀ id ∈ ids, ¬ New s id ∧ (id ∉ s.2.touched t → ¬ Named s id)

theorem stable_orphanedFor (ids : List SegmentId) : Stable Kept Minds t (OrphanedFor t ids) := by
  intro s s' _ h hr _ id hid
  obtain ⟨hnew, hno⟩ := h id hid
  refine ⟨fun hn => hnew (hr.new hn), fun htouch hnamed => ?_⟩
  rcases hr.named id hnamed with hnamed | htouched
  · exact hno (fun h => htouch (hr.touched id h)) hnamed
  · exact htouch htouched

/-- Nor is it in the working set, unless it has been in hand or the pass has seen it there. -/
theorem stable_unworked (ids : List SegmentId) : Stable Kept Minds t fun s =>
    ∀ id ∈ ids, ¬ New s id ∧ (id ∉ s.2.touched t → ¬ Named s id ∧ ¬ Works s id) := by
  intro s s' _ h hr _ id hid
  obtain ⟨hnew, hno⟩ := h id hid
  refine ⟨fun hn => hnew (hr.new hn), fun htouch => ⟨fun hnamed => ?_, fun hworks => ?_⟩⟩
  · rcases hr.named id hnamed with hnamed | htouched
    · exact (hno fun h => htouch (hr.touched id h)).1 hnamed
    · exact htouch htouched
  · rcases hr.works id hworks with hworks | htouched | hn
    · exact (hno fun h => htouch (hr.touched id h)).2 hworks
    · exact htouch htouched
    · exact hnew hn

/-- **A pass** removes nothing that is needed, sparing what has been in hand since it began. -/
theorem triple_pass (hrec : (calls t).any Call.records = false) (rules : RetentionRules) :
    Triple ((step P cfg).noting (noteHands calls)) SparesHands Kept Minds t (fun _ => True)
      (gc rules) fun _ _ => True := by
  refine .act stable_true (M := fun report => OrphanedFor t report.orphanSegments) ?_
    fun report => ?_
  · rintro ⟨c, g⟩ r ⟨c', g'⟩ hI - - hs
    obtain ⟨hst, rfl⟩ := Handler.of_noting hs
    cases hst
    obtain ⟨hK, hM⟩ := hI.collect (t := t) rules
    refine ⟨hK, hM, fun id hid => ?_⟩
    have hnamed : Named (c, g) id := .inl (VersionStore.mem_orphanSegments.mp hid).1
    refine ⟨fun hnew => ?_, fun htouch hn => ?_⟩
    · rcases hnew with ⟨u, hu⟩ | hle
      · exact (hI.fresh u id hu).2.1 hnamed
      · exact absurd (hI.below id (hI.named id hnamed)) (not_lt.mpr hle)
    · rcases hn with hn | ⟨e, he, hn⟩
      · exact (VersionStore.of_mem_allReferencedSegments_gc hn).2 hid
      · refine htouch ?_
        change id ∈ Function.update g.touched t _ t
        rw [Function.update_self]
        exact List.mem_flatMap.mpr ⟨e, he, hn⟩
  refine .act (stable_orphanedFor _) (M := fun working s =>
    ∀ id ∈ report.orphanSegments.filter fun id => id ∉ working.map SealedSegment.id,
      ¬ New s id ∧ (id ∉ s.2.touched t → ¬ Named s id ∧ ¬ Works s id)) ?_ fun working =>
    .act (stable_unworked _) (M := fun _ _ => True) ?_ fun _ =>
      .ret stable_true fun _ _ _ => trivial
  · rintro ⟨c, g⟩ r ⟨c', g'⟩ hI ho - hs
    obtain ⟨hst, hg⟩ := Handler.of_noting hs
    cases hst
    rw [noteHands, hrec, if_neg Bool.false_ne_true] at hg
    subst hg
    refine ⟨hI, fun u _ => minds_refl u _, fun id hid => ?_⟩
    obtain ⟨hid, hw⟩ := List.mem_filter.mp hid
    obtain ⟨hnew, hno⟩ := ho id hid
    have hw : id ∉ c.working.map SealedSegment.id := of_decide_eq_true hw
    exact ⟨hnew, fun htouch => ⟨hno htouch, hw⟩⟩
  · rintro ⟨c, g⟩ r ⟨c', g'⟩ hI ho hspare hs
    obtain ⟨hst, rfl⟩ := Handler.of_noting hs
    cases hst
    obtain ⟨hK, hM⟩ := hI.remove (report.orphanSegments.filter fun id =>
      id ∉ working.map SealedSegment.id) fun id hid => by
        obtain ⟨hnew, hno⟩ := ho id hid
        refine and_assoc.mp ⟨?_, fun u hu => hnew (.inl ⟨u, hu⟩)⟩
        by_cases hreg : (c.allSegments id).isSome
        · exact hno (hspare id hid hreg)
        · -- Nothing is removed under an id that nothing is registered under.
          exact ⟨fun h => hreg (hI.named id h), fun h => hreg (hI.works id h)⟩
    exact ⟨hK, fun u _ => hM u, trivial⟩

theorem only_delete (id : GlobalId) :
    (delete id).Only fun o : CollectionOp => o.Idle ∨ o = .loadWorking := by
  refine ⟨.inl trivial, fun b => ?_⟩
  cases b with
  | true => exact ⟨.inl trivial, fun _ => trivial⟩
  | false =>
    refine ⟨.inr rfl, fun w => ?_⟩
    change (if (w.any fun s => containsId s.rows id) = true then _ else _ :
      CollectionProg Bool).Only _
    split
    · exact ⟨.inl trivial, fun _ => trivial⟩
    · trivial

/-- **Every call**, among any others. -/
theorem triple_call {k : Call} (hk : calls t = some k) :
    Triple ((step P cfg).noting (noteHands calls)) SparesHands Kept Minds t (fun _ => True)
      (k.prog P cfg) fun _ _ => True := by
  have hrec : (calls t).any Call.records = k.records := by rw [hk]; rfl
  cases k with
  | insert v => exact triple_idle (only_insertVector.mono fun o ho => .inl ho.idle)
  | insertWithIdAndPayload id v p =>
    exact triple_idle (only_insertWithIdAndPayload.mono fun o ho => .inl ho.idle)
  | insertBatch vs => exact triple_idle (only_insertBatch.mono fun o ho => .inl ho.idle)
  | delete id => exact triple_idle (only_delete id)
  | sealAppendable => exact triple_seal
  | commit => exact triple_commit_inHand hrec
  | restore v => exact triple_restore hrec v
  | compact => exact triple_compact
  | createTag name v =>
    exact triple_idle ⟨.inl trivial, fun r => by cases r <;> trivial⟩
  | createBranch name v =>
    exact triple_idle ⟨.inl trivial, fun r => by cases r <;> trivial⟩
  | gc rules => exact triple_pass hrec rules

end Calls

theorem kept_of_sound (h : c.Sound) : Kept (c, .empty) where
  keyed := h.keyed
  below := h.below
  named id hid := by
    rcases hid with hid | ⟨e, he, -⟩
    · obtain ⟨v, m, hm, hid⟩ := VersionStore.mem_allReferencedSegments.mp hid
      exact h.isSome_of_mem_segmentIds hm hid
    · cases he
  works id hid := by
    obtain ⟨s, hs, rfl⟩ := List.mem_map.mp hid
    exact Option.isSome_iff_exists.mpr ⟨s, h.working s hs⟩
  fresh u id hu := by cases hu
  distinct u u' id hu := by cases hu
  touched e he := by cases he

end Collection

/-- **Manifests never dangle** in any interleaving of calls, if no pass removes a segment that has
been in the hands of a commit, or put back to work by a restore, since the pass began. -/
theorem registered_of_sparesHands {c₀ : Collection} (hs : c₀.Sound) {calls : ℕ → Option Call}
    {x : Config collectionInterface (Collection × Hands) Unit}
    (hsteps : Config.Steps ((Collection.step P cfg).noting (Collection.noteHands calls))
      Collection.SparesHands ⟨(c₀, .empty), Collection.pool P cfg calls⟩ x)
    {v : VersionId} {m : Manifest} (hm : x.shared.1.versions.get v = some m) {id : SegmentId}
    (hid : id ∈ m.segmentIds) : (x.shared.1.allSegments id).isSome := by
  have hsafe : Config.Safe ((Collection.step P cfg).noting (Collection.noteHands calls))
      Collection.SparesHands Collection.Kept Collection.Minds (fun _ _ _ => True) x := by
    refine Config.safe_of_steps Collection.minds_refl Collection.minds_trans
      ⟨Collection.kept_of_sound hs, fun t => ?_⟩ hsteps
    change Safe _ _ _ _ t _ (Collection.pool P cfg calls t) _
    rw [Collection.pool]
    cases hk : calls t with
    | none => exact fun _ _ _ => trivial
    | some k =>
      exact Triple.bind (Collection.minds_refl t) (Collection.triple_call hk)
        (fun _ => .ret Collection.stable_true fun _ _ _ => trivial) _
        (Collection.kept_of_sound hs) trivial
  exact hsafe.inv.named id (.inl (VersionStore.mem_allReferencedSegments.mpr ⟨v, m, hm, hid⟩))

/-! ## Two schedules -/

/-- A restore of version 0, and a pass that keeps the newest version only. -/
def Collection.racingRestore : ℕ → Option Call
  | 0 => some (.restore 0)
  | 1 => some (.gc ⟨some 1, false, false⟩)
  | _ => none

/-- The pass drops version 0; the restore puts its segment back to work before the pass reads the
working set, and commits it. -/
theorem registered_of_sparesHands_sample : ∃ c₀ x m,
    Config.Steps (Collection.step Sample.platform (Sample.config none)) Config.anyOrder
      ⟨c₀, Collection.pool Sample.platform (Sample.config none) Collection.racingRestore⟩ x ∧
    x.shared.versions.get 2 = some m ∧ m.segmentIds = [0] ∧
    ∀ id ∈ m.segmentIds, (x.shared.allSegments id).isSome := by
  have h : Collection.create.Leads Sample.platform (Sample.config none)
      [.insert [0], .commit "manual" none none, .insert [1], .sealAppendable, .compact,
        .commit "manual" none none]
      fun _ c₀ => Config.Leads ((Collection.step Sample.platform (Sample.config none)).noting
          (Collection.noteHands Collection.racingRestore)) Collection.SparesHands
        [0, 1, 0, 1, 1, 0, 0, 0, 0, 0, 0]
        ⟨(c₀, .empty),
          Collection.pool Sample.platform (Sample.config none) Collection.racingRestore⟩
        fun x => (x.shared.1.versions.get 2).map Manifest.segmentIds = some [0] := by
    decide +kernel
  obtain ⟨tr, c₀, hist, h⟩ := h.exists_history
  obtain ⟨x, hsteps, hget⟩ := h.exists_steps
  obtain ⟨m, hm, hids⟩ := Option.map_eq_some_iff.mp hget
  exact ⟨c₀, x.forget, m, hsteps.forget, hm, hids, fun id hid =>
    registered_of_sparesHands (hist.sound Collection.sound_create) hsteps hm hid⟩

/-- The restore puts a segment back to work between the pass's reading the working set and its
removing that segment: the version it commits dangles. -/
theorem manifest_dangles : ∃ tr c₀ x m id,
    History Sample.platform (Sample.config none) .create tr c₀ ∧
    Config.Steps (Collection.step Sample.platform (Sample.config none)) Config.anyOrder
      ⟨c₀, Collection.pool Sample.platform (Sample.config none) Collection.racingRestore⟩ x ∧
    x.shared.versions.get 2 = some m ∧ id ∈ m.segmentIds ∧ x.shared.allSegments id = none := by
  have h : Collection.create.Leads Sample.platform (Sample.config none)
      [.insert [0], .commit "manual" none none, .insert [1], .sealAppendable, .compact,
        .commit "manual" none none]
      fun _ c₀ => Config.Leads (Collection.step Sample.platform (Sample.config none))
        Config.anyOrder [0, 1, 1, 0, 0, 1, 0, 0, 0, 0, 0]
        ⟨c₀, Collection.pool Sample.platform (Sample.config none) Collection.racingRestore⟩
        fun x => (x.shared.versions.get 2).map Manifest.segmentIds = some [0] ∧
          (x.shared.allSegments 0).isNone := by
    decide +kernel
  obtain ⟨tr, c₀, hist, h⟩ := h.exists_history
  obtain ⟨x, hsteps, hget, hnone⟩ := h.exists_steps
  obtain ⟨m, hm, hids⟩ := Option.map_eq_some_iff.mp hget
  exact ⟨tr, c₀, x, m, 0, hist, hsteps, hm, hids ▸ List.mem_cons_self,
    Option.isNone_iff_eq_none.mp hnone⟩

end Vecvec
