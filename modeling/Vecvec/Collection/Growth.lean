import Vecvec.Machinery.RelyGuarantee
import Vecvec.Collection.Difference

/-!
# Collection/Growth — inserts and commits that interleave

Calls that only insert, seal and commit append to the working set and never take a segment out of
it, so the working sets that commits load are prefixes of one another.  A commit records what it
loaded some actions before: if another commit that loaded a longer working set has recorded its
version in between, history goes backwards.  If every commit records on top of a shorter version, it
never does.
-/

namespace Vecvec

open Machinery

variable {P : Platform} {cfg : CollectionConfig} {c c' : Collection} {t : ℕ}

/-! ## The calls -/

/-- The call only adds points, seals or commits. -/
def Call.Grows : Call → Prop
  | insert _ | insertWithIdAndPayload .. | insertBatch _ | sealAppendable | commit .. => True
  | _ => False

/-- What the callers of a pool do: each its call, if it has one. -/
def Collection.pool (P : Platform) (cfg : CollectionConfig) (calls : ℕ → Option Call) (t : ℕ) :
    CollectionProg Unit :=
  match calls t with
  | some k => k.prog P cfg >>= fun _ => return ()
  | none => return ()

/-- The action puts a point in. -/
def CollectionOp.Inserts : CollectionOp → Prop
  | allocGlobalId | appendRow .. | appendRows _ | bumpGlobalId _ | insertPayload .. => True
  | _ => False

/-- The action adds to the collection and records no version. -/
def CollectionOp.Adds : CollectionOp → Prop
  | allocGlobalId | appendRow .. | appendRows _ | bumpGlobalId _ | insertPayload .. |
    takeAppendable | registerSegments _ | publishSegment _ => True
  | _ => False

theorem CollectionOp.Inserts.adds {o : CollectionOp} (h : o.Inserts) : o.Adds := by
  cases o <;> trivial

namespace Collection

theorem only_insertWithIdAndPayload {id : GlobalId} {v : List F32} {p : Option Payload} :
    (insertWithIdAndPayload cfg id v p).Only CollectionOp.Inserts := by
  unfold insertWithIdAndPayload
  split
  · trivial
  · cases p with
    | none => exact ⟨trivial, fun _ => ⟨trivial, fun _ => trivial⟩⟩
    | some p => exact ⟨trivial, fun _ => ⟨trivial, fun _ => ⟨trivial, fun _ => trivial⟩⟩⟩

theorem only_insertVector {v : List F32} : (insertVector cfg v).Only CollectionOp.Inserts := by
  refine ⟨trivial, fun id => only_insertWithIdAndPayload.bind fun r => ?_⟩
  cases r <;> trivial

theorem only_allocMany (n : ℕ) : (allocMany n).Only CollectionOp.Inserts := by
  induction n with
  | zero => trivial
  | succ n ih => exact ⟨trivial, fun _ => ih.bind fun _ => trivial⟩

theorem only_insertBatch {vs : List (List F32)} :
    (insertBatch cfg vs).Only CollectionOp.Inserts := by
  unfold insertBatch
  split
  · trivial
  · exact (only_allocMany _).bind fun _ => ⟨trivial, fun _ => ⟨trivial, fun _ => trivial⟩⟩

theorem only_sealAppendable : sealAppendable.Only CollectionOp.Adds := by
  refine ⟨trivial, fun r => ?_⟩
  cases r with
  | none => trivial
  | some sealed => exact ⟨trivial, fun _ => ⟨trivial, fun _ => trivial⟩⟩

/-- What adding leaves: the working set grows at its end, nothing is tombstoned or recorded. -/
theorem step_adds {o : CollectionOp} (ho : o.Adds) {r : o.Ret}
    (hs : step P cfg t o c = some (r, c')) :
    c.working <+: c'.working ∧ c'.workingDeletions = c.workingDeletions ∧
      c'.versions = c.versions := by
  cases o with
  | allocGlobalId | appendRow | appendRows | bumpGlobalId | registerSegments =>
    cases hs
    exact ⟨List.prefix_rfl, rfl, rfl⟩
  | publishSegment =>
    cases hs
    exact ⟨List.prefix_append _ _, rfl, rfl⟩
  | insertPayload =>
    rw [step] at hs
    split at hs
    · cases hs
      exact ⟨List.prefix_rfl, rfl, rfl⟩
    · cases hs
  | takeAppendable =>
    rw [step] at hs
    split at hs
    all_goals
      cases hs
      exact ⟨List.prefix_rfl, rfl, rfl⟩
  | _ => exact ho.elim

/-! ## The condition -/

/-- A commit records on top of a version that references no more segments than it has loaded. -/
def InLoadOrder (_ : ℕ) : CollectionOp → Collection → Prop
  | .recordVersion _ _ _ segments _, c => ∀ v ∈ c.versions.head, ∀ m ∈ c.versions.get v,
      m.segments.length ≤ segments.length
  | _, _ => True

instance {o : CollectionOp} : Decidable (InLoadOrder t o c) := by
  unfold InLoadOrder
  split <;> infer_instance

/-! ## The invariant -/

/-- Every version holds a prefix of the working set, and later ones longer prefixes. -/
structure Ordered (c : Collection) : Prop where
  /-- Nothing is tombstoned. -/
  deletions : c.workingDeletions = ∅
  /-- The store is well formed. -/
  store : c.versions.WellFormed
  /-- The head is the newest version. -/
  head : ∀ v m, c.versions.get v = some m →
    ∃ h mh, c.versions.head = some h ∧ c.versions.get h = some mh ∧ v ≤ h
  /-- A version references a prefix of the working set. -/
  loaded : ∀ v m, c.versions.get v = some m →
    m.deletions = ∅ ∧ ∃ w, w <+: c.working ∧ m.segments = w.filterMap segmentRef
  /-- Later versions reference more. -/
  chain : ∀ v v' m m', v ≤ v' → c.versions.get v = some m → c.versions.get v' = some m' →
    m.segments <+: m'.segments

/-- What a caller relies on: the working set grows at its end. -/
def Extends (_ : ℕ) (c c' : Collection) : Prop := c.working <+: c'.working

theorem extends_refl (t : ℕ) (c : Collection) : Extends t c c := List.prefix_rfl

theorem extends_trans (t : ℕ) (c c' c'' : Collection) (h : Extends t c c')
    (h' : Extends t c' c'') : Extends t c c'' := h.trans h'

theorem ordered_create : create.Ordered := by
  have hget (v : VersionId) : create.versions.get v = none := by
    simp [create, VersionStore.new, VersionStore.get]
  exact ⟨rfl, VersionStore.wellFormed_new, fun v m h => by simp [hget] at h,
    fun v m h => by simp [hget] at h, fun v _ m _ _ h => by simp [hget] at h⟩

theorem Ordered.extend (h : c.Ordered) (hw : c.working <+: c'.working)
    (hd : c'.workingDeletions = c.workingDeletions) (hv : c'.versions = c.versions) :
    c'.Ordered where
  deletions := hd.trans h.deletions
  store := hv ▸ h.store
  head := hv ▸ h.head
  loaded v m hm := by
    obtain ⟨hdel, w, hpre, hseg⟩ := h.loaded v m (hv ▸ hm)
    exact ⟨hdel, w, hpre.trans hw, hseg⟩
  chain := hv ▸ h.chain

/-- **Recording in order** keeps the versions in order. -/
theorem Ordered.record (h : c.Ordered) {trigger : String} {message tag : Option String}
    {w : SegmentSet} (hw : w <+: c.working)
    (hlen : ∀ v ∈ c.versions.head, ∀ m ∈ c.versions.get v,
      m.segments.length ≤ (w.filterMap segmentRef).length) :
    ({ c with
      versions := (c.versions.commit trigger message tag (w.filterMap segmentRef) ∅).2
        }).Ordered := by
  have hnew {v : VersionId} {m : Manifest} (hm : c.versions.get v = some m) :
      m.segments <+: w.filterMap segmentRef := by
    obtain ⟨hd, mh, hhead, hmh, hle⟩ := h.head v m hm
    refine (h.chain v hd m mh hle hm hmh).trans ?_
    -- Both were loaded from the working set, so one is a prefix of the other; the lengths say
    -- which.
    obtain ⟨-, wh, hwh, hseg⟩ := h.loaded hd mh hmh
    have hlen := hlen hd hhead mh hmh
    rw [hseg] at hlen ⊢
    rcases List.prefix_or_prefix_of_prefix hwh hw with hp | hp
    · exact hp.filterMap _
    · rw [(hp.filterMap segmentRef).eq_of_length_le hlen]
  refine ⟨h.deletions, h.store.commit, fun v m hm => ?_, fun v m hm => ?_,
    fun v v' m m' hle hm hm' => ?_⟩
  · refine ⟨c.versions.nextVersion, _, rfl, VersionStore.get_commit.trans (if_pos rfl), ?_⟩
    rw [VersionStore.get_commit] at hm
    split at hm
    · exact le_of_eq ‹_›
    · exact (h.store.below v m hm).le
  · rw [VersionStore.get_commit] at hm
    split at hm
    · cases hm
      exact ⟨rfl, w, hw, rfl⟩
    · exact h.loaded v m hm
  · rw [VersionStore.get_commit] at hm hm'
    split at hm'
    · cases hm'
      split at hm
      · cases hm
        exact List.prefix_rfl
      · exact hnew hm
    · rw [if_neg (hle.trans_lt (h.store.below v' m' hm')).ne] at hm
      exact h.chain v v' m m' hle hm hm'

/-! ## One call among others -/

theorem owes_adds {o : CollectionOp} (ho : o.Adds) :
    Owes (step P cfg) InLoadOrder Ordered Extends t (fun _ => True) o fun _ _ => True := by
  intro c r c' hI _ _ hs
  obtain ⟨hw, hd, hv⟩ := step_adds ho hs
  exact ⟨hI.extend hw hd hv, fun _ _ => hw, trivial⟩

/-- **A commit among others.**  What it loaded stays a prefix of the working set. -/
theorem triple_commit {trigger : String} {message tag : Option String} :
    Triple (step P cfg) InLoadOrder Ordered Extends t (fun _ => True)
      (commit trigger message tag) fun _ _ => True := by
  have htrue : Stable Ordered Extends t fun _ => True := fun _ _ _ _ _ _ => trivial
  have hloaded (w : SegmentSet) : Stable Ordered Extends t fun c => w <+: c.working :=
    fun _ _ _ hw hr _ => hw.trans hr
  refine .bind (extends_refl t) (.only only_sealAppendable fun o => owes_adds) fun _ => ?_
  refine .act htrue (M := fun w c => w <+: c.working) ?_ fun w => ?_
  · intro c r c' hI _ _ hs
    cases hs
    exact ⟨hI, fun _ _ => List.prefix_rfl, List.prefix_rfl⟩
  refine .act (hloaded w) (M := fun d c => d = ∅ ∧ w <+: c.working) ?_ fun d => ?_
  · intro c r c' hI hw _ hs
    cases hs
    exact ⟨hI, fun _ _ => List.prefix_rfl, hI.deletions, hw⟩
  refine .of_pure fun hd => .act (hloaded w) (M := fun _ _ => True) ?_ fun _ =>
    .ret htrue fun _ _ _ => trivial
  intro c r c' hI hw ha hs
  cases hs
  exact ⟨hd ▸ hI.record hw ha, fun _ _ => List.prefix_rfl, trivial⟩

/-- Every call of the pool. -/
theorem triple_grows {k : Call} (hk : k.Grows) :
    Triple (step P cfg) InLoadOrder Ordered Extends t (fun _ => True) (k.prog P cfg)
      fun _ _ => True := by
  cases k with
  | insert => exact .only only_insertVector fun o ho => owes_adds ho.adds
  | insertWithIdAndPayload => exact .only only_insertWithIdAndPayload fun o ho => owes_adds ho.adds
  | insertBatch => exact .only only_insertBatch fun o ho => owes_adds ho.adds
  | sealAppendable => exact .only only_sealAppendable fun o => owes_adds
  | commit => exact triple_commit
  | _ => exact hk.elim

theorem safe_pool {calls : ℕ → Option Call} (hcalls : ∀ t k, calls t = some k → k.Grows) :
    Config.Safe (step P cfg) InLoadOrder Ordered Extends (fun _ _ _ => True)
      ⟨create, pool P cfg calls⟩ := by
  refine ⟨ordered_create, fun t => ?_⟩
  have htrue : Stable Ordered Extends t fun _ => True := fun _ _ _ _ _ _ => trivial
  change Safe _ _ _ _ t _ (pool P cfg calls t) create
  rw [pool]
  cases hk : calls t with
  | none => exact fun _ _ _ => trivial
  | some k =>
    exact Triple.bind (extends_refl t) (triple_grows (hcalls t k hk))
      (fun _ => .ret htrue fun _ _ _ => trivial) create ordered_create trivial

/-! ## What is listed -/

variable (P cfg) in
/-- A scroll of the version, with a limit that covers it, lists the id. -/
def Lists (c : Collection) (v : VersionId) (id : GlobalId) : Prop :=
  ∃ limit x c', run (step P cfg) 0 (scroll (some (.version v)) 0 limit) c = some (.ok x, c') ∧
    x.2 ≤ limit ∧ id ∈ x.1.map PointRecord.id

theorem lists_iff {v : VersionId} {id : GlobalId} : c.Lists P cfg v id ↔
    ∃ m, c.versions.get v = some m ∧ id ∈ (c.versionRows m).map Prod.fst := by
  have hres : (c.versions.resolve (.version v)).map c.versions.get =
      (c.versions.get v).map some := by
    rw [VersionStore.resolve, Std.ExtTreeMap.contains_eq_isSome_getElem?]
    change (if (c.versions.get v).isSome = true then some v else none).map _ = _
    cases hm : c.versions.get v with
    | none => rfl
    | some m => simp [hm]
  constructor
  · rintro ⟨limit, x, c', hrun, hlen, hid⟩
    rw [run_scroll_selector, hres] at hrun
    cases hm : c.versions.get v with
    | none => rw [hm] at hrun; cases hrun
    | some m =>
      rw [hm] at hrun
      cases hrun
      exact ⟨m, rfl, (mem_ids_page hlen).mp hid⟩
  · rintro ⟨m, hm, hid⟩
    rw [hm] at hres
    refine ⟨(c.versionRows m).length, _, _, by rw [run_scroll_selector, hres]; rfl, le_rfl, ?_⟩
    exact (mem_ids_page le_rfl).mpr hid

variable (P cfg) in
/-- Every version lists what the versions before it list. -/
def Forward (c : Collection) : Prop :=
  ∀ v v' id, v < v' → (c.versions.get v').isSome → c.Lists P cfg v id → c.Lists P cfg v' id

theorem Ordered.forward (h : c.Ordered) : c.Forward P cfg := by
  intro v v' id hlt hv' hid
  obtain ⟨m, hm, hid⟩ := lists_iff.mp hid
  obtain ⟨m', hm'⟩ := Option.isSome_iff_exists.mp hv'
  refine lists_iff.mpr ⟨m', hm', ?_⟩
  obtain ⟨rest, hseg⟩ := h.chain v v' m m' hlt.le hm hm'
  have hdel : m'.deletions = m.deletions :=
    (h.loaded v' m' hm').1.trans (h.loaded v m hm).1.symm
  rw [versionRows, Manifest.segmentIds, ← hseg, hdel, List.map_append, List.filterMap_append,
    SegmentSet.rows_append, liveRows, List.filter_append, List.map_append]
  exact List.mem_append_left _ hid

end Collection

/-- **Committed history never goes backwards** in any interleaving of inserts, seals and commits
whose commits record their versions in the order in which they loaded the working set. -/
theorem forward_of_inLoadOrder {calls : ℕ → Option Call}
    (hcalls : ∀ t k, calls t = some k → k.Grows) {x : Config collectionInterface Collection Unit}
    (hsteps : Config.Steps (Collection.step P cfg) Collection.InLoadOrder
      ⟨.create, Collection.pool P cfg calls⟩ x) : x.shared.Forward P cfg := by
  have hsafe : Config.Safe (Collection.step P cfg) Collection.InLoadOrder Collection.Ordered
      Collection.Extends (fun _ _ _ => True) x :=
    Config.safe_of_steps Collection.extends_refl Collection.extends_trans
      (Collection.safe_pool hcalls) hsteps
  exact hsafe.inv.forward

/-- Two inserts and two commits. -/
def Collection.racingCalls : ℕ → Option Call
  | 0 => some (.insert [0])
  | 1 => some (.commit "manual" none none)
  | 2 => some (.insert [1])
  | 3 => some (.commit "manual" none none)
  | _ => none

theorem Collection.grows_racingCalls (t : ℕ) (k : Call) (hk : racingCalls t = some k) :
    k.Grows := by
  unfold racingCalls at hk
  split at hk <;> cases hk <;> trivial

/-- The second commit seals while the first is under way, and records after it. -/
theorem forward_of_inLoadOrder_sample : ∃ x,
    Config.Steps (Collection.step Sample.platform (Sample.config none)) Collection.InLoadOrder
      ⟨.create, Collection.pool Sample.platform (Sample.config none) Collection.racingCalls⟩ x ∧
    (x.shared.versions.get 1).isSome ∧
    x.shared.Forward Sample.platform (Sample.config none) := by
  have h : Config.Leads (Collection.step Sample.platform (Sample.config none))
      Collection.InLoadOrder [0, 0, 0, 1, 1, 1, 1, 2, 2, 2, 3, 3, 3, 1, 1, 3, 3, 3]
      ⟨.create, Collection.pool Sample.platform (Sample.config none) Collection.racingCalls⟩
      fun x => (x.shared.versions.get 1).isSome := by
    decide +kernel
  obtain ⟨x, hsteps, hv⟩ := h.exists_steps
  exact ⟨x, hsteps, hv, forward_of_inLoadOrder Collection.grows_racingCalls hsteps⟩

/-- A commit that loaded the working set first and records last takes history backwards. -/
theorem backwards : ∃ x,
    Config.Steps (Collection.step Sample.platform (Sample.config none)) Config.anyOrder
      ⟨.create, Collection.pool Sample.platform (Sample.config none) Collection.racingCalls⟩ x ∧
    ¬ x.shared.Forward Sample.platform (Sample.config none) := by
  have h : Config.Leads (Collection.step Sample.platform (Sample.config none))
      Config.anyOrder [0, 0, 0, 1, 1, 1, 1, 1, 2, 2, 2, 3, 3, 3, 3, 3, 3, 1]
      ⟨.create, Collection.pool Sample.platform (Sample.config none) Collection.racingCalls⟩
      fun x => (x.shared.versions.get 1).isSome ∧
        (∃ m ∈ x.shared.versions.get 0, 1 ∈ (x.shared.versionRows m).map Prod.fst) ∧
        ∀ m ∈ x.shared.versions.get 1, 1 ∉ (x.shared.versionRows m).map Prod.fst := by
    decide +kernel
  obtain ⟨x, hsteps, hv, ⟨m, hm, hid⟩, hno⟩ := h.exists_steps
  refine ⟨x, hsteps, fun hf => ?_⟩
  obtain ⟨m', hm', hid'⟩ := Collection.lists_iff.mp
    (hf 0 1 1 Nat.zero_lt_one hv (Collection.lists_iff.mpr ⟨m, hm, hid⟩))
  exact hno m' hm' hid'

end Vecvec
