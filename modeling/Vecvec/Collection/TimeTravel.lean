import Vecvec.Hnsw.Indexed
import Vecvec.Machinery.Ghost
import Vecvec.Machinery.RelyGuarantee
import Vecvec.Collection.Isolation

/-!
# Collection/TimeTravel — reads of a version while a pass removes segments

A read of a version resolves its manifest under one lock and looks the segments up under another.
Between the two it names segments that nothing keeps: a pass that drops the version removes them,
and the look-up skips what is missing.  A read is complete if no pass removes a segment a read
under way has resolved; the note of what that is stands beside the state.
-/

namespace Vecvec

open Machinery CollectionOp

variable {S : SegmentSearch} {P : Platform} {cfg : CollectionConfig} {c c' : Collection} {t : ℕ}

/-! ## The calls -/

/-- A read of a version, or a collection pass. -/
inductive Travel
  | scroll (selector : VersionSelector) (offset limit : ℕ)
  | searchAt (selector : VersionSelector) (query : List F32) (k : ℕ)
      (filter : Option (Option Payload → Bool))
  | gc (rules : RetentionRules)

/-- What a read or a pass returns. -/
inductive Travel.Answer
  | page (x : Except CoreError (List Collection.PointRecord × ℕ))
  | hits (x : Except CoreError (List (GlobalId × F32)))
  | swept (ids : List SegmentId)

namespace Travel

/-- The program of a read or a pass. -/
def prog (S : SegmentSearch) (cfg : CollectionConfig) : Travel → CollectionProg Answer
  | scroll selector offset limit =>
    Collection.scroll (some selector) offset limit >>= fun x => return .page x
  | searchAt selector query k filter =>
    Collection.searchAt S cfg selector query k filter >>= fun x => return .hits x
  | gc rules => Collection.gc rules >>= fun ids => return .swept ids

/-- The selector a read is given. -/
def selector : Travel → Option VersionSelector
  | scroll selector .. | searchAt selector .. => some selector
  | gc _ => none

/-- The read returned `Ok`. -/
def Answer.IsOk : Answer → Prop
  | page (.ok _) | hits (.ok _) => True
  | _ => False

end Travel

namespace Collection

/-! ## What reads under way have resolved -/

/-- What a caller notes: the segment ids of a manifest it resolves, until it looks them up. -/
def noteResolved (t : ℕ) : (o : CollectionOp) → o.Ret → List (ℕ × List SegmentId) →
    List (ℕ × List SegmentId)
  | .resolveManifest _, some (some m), notes => (t, m.segmentIds) :: notes
  | .registeredSegments _, _, notes => notes.filter fun n => n.1 ≠ t
  | _, _, notes => notes

/-- A pass removes no segment that a read under way has resolved. -/
def SparesReads (_ : ℕ) : CollectionOp → Collection × List (ℕ × List SegmentId) → Prop
  | .removeSegments ids, s => ∀ n ∈ s.2, ∀ id ∈ n.2, id ∉ ids
  | _, _ => True

/-- The segments an action takes out of the registry. -/
def removed : CollectionOp → List SegmentId
  | .removeSegments ids => ids
  | _ => []

theorem sparesReads_iff {o : CollectionOp} {s : Collection × List (ℕ × List SegmentId)} :
    SparesReads t o s ↔ ∀ n ∈ s.2, ∀ id ∈ n.2, id ∉ removed o := by
  cases o with
  | removeSegments ids => exact Iff.rfl
  | _ => exact iff_of_true trivial fun _ _ _ _ => List.not_mem_nil

instance {o : CollectionOp} {s : Collection × List (ℕ × List SegmentId)} :
    Decidable (SparesReads t o s) := decidable_of_iff _ sparesReads_iff.symm

/-! ## The invariant -/

/-- Of the collection `c₀`, passes leave the pointers, the payloads, the manifests they keep, and
the segments these or the notes name. -/
structure Passed (c₀ : Collection) (s : Collection × List (ℕ × List SegmentId)) : Prop where
  /-- The payloads. -/
  payloads : s.1.payloads = c₀.payloads
  /-- The head and the pointers. -/
  pointers : s.1.versions.head = c₀.versions.head ∧ s.1.versions.tags = c₀.versions.tags ∧
    s.1.versions.branches = c₀.versions.branches
  /-- The manifests that are left. -/
  manifests : ∀ v m, s.1.versions.get v = some m → c₀.versions.get v = some m
  /-- The segments they reference. -/
  segments : ∀ id ∈ s.1.versions.allReferencedSegments, s.1.allSegments id = c₀.allSegments id
  /-- The segments reads under way have resolved. -/
  resolved : ∀ n ∈ s.2, ∀ id ∈ n.2, s.1.allSegments id = c₀.allSegments id

/-- What a caller relies on: manifests only go away, and what it has noted stays noted. -/
def Passing (t : ℕ) (s s' : Collection × List (ℕ × List SegmentId)) : Prop :=
  (∀ id ∈ s'.1.versions.allReferencedSegments, id ∈ s.1.versions.allReferencedSegments) ∧
    ∀ n ∈ s.2, n.1 = t → n ∈ s'.2

theorem passing_refl (t : ℕ) (s : Collection × List (ℕ × List SegmentId)) : Passing t s s :=
  ⟨fun _ h => h, fun _ h _ => h⟩

theorem passing_trans (t : ℕ) (s s' s'' : Collection × List (ℕ × List SegmentId))
    (h : Passing t s s') (h' : Passing t s' s'') : Passing t s s'' :=
  ⟨fun id hid => h.1 id (h'.1 id hid), fun n hn ht => h'.2 n (h.2 n hn ht) ht⟩

variable {c₀ : Collection}

theorem passed_refl (c₀ : Collection) : c₀.Passed (c₀, []) :=
  ⟨rfl, ⟨rfl, rfl, rfl⟩, fun _ _ h => h, fun _ _ => rfl, fun _ h => (List.not_mem_nil h).elim⟩

theorem Passed.resolve_eq {s : Collection × List (ℕ × List SegmentId)} (h : c₀.Passed s)
    {sel : VersionSelector} {m : Manifest}
    (hm : (s.1.versions.resolve sel).map s.1.versions.get = some (some m)) :
    ∃ v, c₀.versions.resolve sel = some v ∧ c₀.versions.get v = some m := by
  obtain ⟨v, hv, hget⟩ := Option.map_eq_some_iff.mp hm
  have hget₀ := h.manifests v m hget
  refine ⟨v, ?_, hget₀⟩
  obtain ⟨hhead, htags, hbranches⟩ := h.pointers
  cases sel with
  | version u =>
    rw [VersionStore.resolve] at hv
    split at hv
    · cases hv
      rw [VersionStore.resolve, if_pos]
      rw [Std.ExtTreeMap.contains_eq_isSome_getElem?]
      exact (congrArg Option.isSome hget₀).trans rfl
    · cases hv
  | tag name => rwa [VersionStore.resolve, htags] at hv
  | branch name => rwa [VersionStore.resolve, hbranches] at hv
  | head => rwa [VersionStore.resolve, hhead] at hv

/-! ## A pass among others -/

/-- What a pass reports as orphans, no manifest references. -/
def Orphaned (report : GcReport) (s : Collection × List (ℕ × List SegmentId)) : Prop :=
  ∀ id ∈ report.orphanSegments, id ∉ s.1.versions.allReferencedSegments

theorem stable_orphaned (report : GcReport) : Stable c₀.Passed Passing t (Orphaned report) :=
  fun _ _ _ ho hr _ id hid hm => ho id hid (hr.1 id hm)

theorem triple_gc (rules : RetentionRules) :
    Triple ((step P cfg).noting noteResolved) SparesReads c₀.Passed Passing t (fun _ => True)
      (gc rules) fun _ _ => True := by
  have htrue : Stable c₀.Passed Passing t fun _ => True := fun _ _ _ _ _ _ => trivial
  refine .act htrue (M := Orphaned) ?_ fun report => ?_
  · rintro ⟨c, g⟩ r ⟨c', g'⟩ hI - - hs
    obtain ⟨hs, rfl⟩ := Handler.of_noting hs
    cases hs
    refine ⟨⟨hI.payloads, hI.pointers, fun v m hm => ?_, fun id hid => ?_, hI.resolved⟩,
      fun _ _ => ⟨fun id hid => ?_, fun _ hn _ => hn⟩, fun id hid hm => ?_⟩
    · exact hI.manifests v m (VersionStore.get_of_get_gc hm).2
    · exact hI.segments id (VersionStore.of_mem_allReferencedSegments_gc hid).1
    · exact (VersionStore.of_mem_allReferencedSegments_gc hid).1
    · exact (VersionStore.of_mem_allReferencedSegments_gc hm).2 hid
  refine .act (stable_orphaned report) (M := fun _ => Orphaned report) ?_ fun working => ?_
  · rintro ⟨c, g⟩ r ⟨c', g'⟩ hI ho - hs
    obtain ⟨hs, rfl⟩ := Handler.of_noting hs
    cases hs
    exact ⟨hI, fun _ _ => passing_refl _ _, ho⟩
  refine .act (stable_orphaned report) (M := fun _ _ => True) ?_ fun _ =>
    .ret htrue fun _ _ _ => trivial
  rintro ⟨c, g⟩ r ⟨c', g'⟩ hI ho hspare hs
  obtain ⟨hs, rfl⟩ := Handler.of_noting hs
  cases hs
  refine ⟨⟨hI.payloads, hI.pointers, hI.manifests, fun id hid => ?_, fun n hn id hid => ?_⟩,
    fun _ _ => passing_refl _ _, trivial⟩
  · exact (if_neg fun h => ho id (List.mem_filter.mp h).1 hid).trans (hI.segments id hid)
  · exact (if_neg (hspare n hn id hid)).trans (hI.resolved n hn id hid)

/-! ## A read among passes -/

/-- The hits of a search over some segments (`search_at`). -/
def segmentHits (S : SegmentSearch) (cfg : CollectionConfig) (query : List F32) (k : ℕ)
    (filter : Option (Option Payload → Bool)) (deletions : DeletionVector) (segs : SegmentSet)
    (payloads : PayloadMap) : List (GlobalId × F32) :=
  mergeFinalize (segs.foldl (fun (b : BoundedTopK GlobalId) s =>
    b.offerAll (S.find s query k deletions (filterQuery filter payloads)))
    (.new GlobalId k cfg.metric.higherIsBetter))

theorem run_searchAt {sel : VersionSelector} {m : Manifest}
    (hm : (c.versions.resolve sel).map c.versions.get = some (some m)) {query : List F32}
    (hdim : query.length = cfg.dim) (k : ℕ) (filter : Option (Option Payload → Bool)) :
    run (step P cfg) t (searchAt S cfg sel query k filter) c =
      some (.ok (segmentHits S cfg query k filter m.deletions
        (m.segmentIds.filterMap c.allSegments) c.payloads),
        { c with payloadReaders := (insert t c.payloadReaders).erase t }) := by
  unfold searchAt
  rw [if_neg (not_not_intro hdim)]
  refine (run_perform_bind rfl).trans ?_
  dsimp only
  rw [hm]
  exact (run_perform_bind rfl).trans ((run_perform_bind rfl).trans (run_perform_bind rfl))

/-- The selector names a version of `c₀`, whose manifest this is. -/
def Names (c₀ : Collection) (sel : VersionSelector) (m : Manifest) : Prop :=
  ∃ v, c₀.versions.resolve sel = some v ∧ c₀.versions.get v = some m

section Read

variable {α : Type} {Q : α → Collection × List (ℕ × List SegmentId) → Prop}

/-- The payload lock is taken: the payloads are as they were. -/
theorem triple_lock {f : PayloadMap → CollectionProg α}
    {A : Collection × List (ℕ × List SegmentId) → Prop} (hA : Stable c₀.Passed Passing t A)
    (hA' : ∀ c g r, A (c, g) → A ({ c with payloadReaders := r }, g))
    (hf : Triple ((step P cfg).noting noteResolved) SparesReads c₀.Passed Passing t A
      (f c₀.payloads) Q) :
    Triple ((step P cfg).noting noteResolved) SparesReads c₀.Passed Passing t A
      (perform lockPayloads >>= f) Q := by
  refine .act hA (M := fun p s => p = c₀.payloads ∧ A s) ?_ fun p => .of_pure fun hp => hp ▸ hf
  rintro ⟨c, g⟩ r ⟨c', g'⟩ hI ha - hs
  obtain ⟨hs, rfl⟩ := Handler.of_noting hs
  cases hs
  exact ⟨⟨hI.1, hI.2, hI.3, hI.4, hI.5⟩, fun _ _ => passing_refl _ _, hI.payloads, hA' _ _ _ ha⟩

/-- The payload lock is given back, and the call returns. -/
theorem triple_unlock {a : α} (ha : ∀ s, Q a s) :
    Triple ((step P cfg).noting noteResolved) SparesReads c₀.Passed Passing t (fun _ => True)
      (perform unlockPayloads >>= fun _ => .ret a) Q := by
  have htrue : Stable c₀.Passed Passing t fun _ => True := fun _ _ _ _ _ _ => trivial
  refine .act htrue (M := fun _ _ => True) ?_ fun _ => .ret htrue fun s _ _ => ha s
  rintro ⟨c, g⟩ r ⟨c', g'⟩ hI - - hs
  obtain ⟨hs, rfl⟩ := Handler.of_noting hs
  cases hs
  exact ⟨⟨hI.1, hI.2, hI.3, hI.4, hI.5⟩, fun _ _ => passing_refl _ _, trivial⟩

/-- **Resolve, then look up**: the segments found are those of a manifest of `c₀`, all of them. -/
theorem triple_resolve {sel : VersionSelector}
    {f : Option (Option Manifest) → CollectionProg α}
      {f' : Manifest → SegmentSet → CollectionProg α}
    (hnone : Triple ((step P cfg).noting noteResolved) SparesReads c₀.Passed Passing t
      (fun _ => True) (f none) Q)
    (hmissing : Triple ((step P cfg).noting noteResolved) SparesReads c₀.Passed Passing t
      (fun _ => True) (f (some none)) Q)
    (hsome : ∀ m, f (some (some m)) = perform (registeredSegments m.segmentIds) >>= f' m)
    (hf : ∀ m, c₀.Names sel m → Triple ((step P cfg).noting noteResolved) SparesReads c₀.Passed
      Passing t (fun _ => True) (f' m (m.segmentIds.filterMap c₀.allSegments)) Q) :
    Triple ((step P cfg).noting noteResolved) SparesReads c₀.Passed Passing t (fun _ => True)
      (perform (resolveManifest sel) >>= f) Q := by
  have htrue : Stable c₀.Passed Passing t fun _ => True := fun _ _ _ _ _ _ => trivial
  refine .act htrue (M := fun r s => ∀ m, r = some (some m) →
    c₀.Names sel m ∧ (t, m.segmentIds) ∈ s.2) ?_ fun r => ?_
  · rintro ⟨c, g⟩ r ⟨c', g'⟩ hI - - hs
    obtain ⟨hs, rfl⟩ := Handler.of_noting hs
    cases hs
    have hnoted : noteResolved t (.resolveManifest sel)
        ((c.versions.resolve sel).map c.versions.get) g =
        ((c.versions.resolve sel).map c.versions.get).elim g fun m =>
          m.elim g fun m => (t, m.segmentIds) :: g := by
      cases (c.versions.resolve sel).map c.versions.get with
      | none => rfl
      | some m => cases m <;> rfl
    rw [hnoted]
    cases hm : (c.versions.resolve sel).map c.versions.get with
    | none => exact ⟨hI, fun _ _ => passing_refl _ _, nofun⟩
    | some m =>
      cases m with
      | none => exact ⟨hI, fun _ _ => passing_refl _ _, nofun⟩
      | some m =>
        obtain ⟨v, hv, hget⟩ := hI.resolve_eq hm
        refine ⟨⟨hI.1, hI.2, hI.3, hI.4, List.forall_mem_cons.mpr ⟨fun id hid => ?_, hI.5⟩⟩,
          fun _ _ => ⟨fun _ h => h, fun _ hn _ => List.mem_cons_of_mem _ hn⟩, fun m' hm' => ?_⟩
        · obtain ⟨u, hu, hget'⟩ := Option.map_eq_some_iff.mp hm
          exact hI.segments id (VersionStore.mem_allReferencedSegments.mpr ⟨u, m, hget', hid⟩)
        · cases hm'
          exact ⟨⟨v, hv, hget⟩, List.mem_cons_self⟩
  · match r with
    | none => exact hnone.conseq (fun _ _ _ => trivial) fun _ _ _ h => h
    | some none => exact hmissing.conseq (fun _ _ _ => trivial) fun _ _ _ h => h
    | some (some m) =>
      change Triple _ _ _ _ _ _ (f (some (some m))) _
      rw [hsome]
      have hlook (hnames : c₀.Names sel m) : Triple ((step P cfg).noting noteResolved) SparesReads
          c₀.Passed Passing t (fun s => (t, m.segmentIds) ∈ s.2)
          (perform (registeredSegments m.segmentIds) >>= f' m) Q := by
        refine .act (M := fun segs _ => segs = m.segmentIds.filterMap c₀.allSegments ∧ True)
          (fun _ _ _ hn hr _ => hr.2 _ hn rfl) ?_ fun segs => .of_pure fun hsegs => ?_
        · rintro ⟨c, g⟩ r ⟨c', g'⟩ hI hn - hs
          obtain ⟨hs, rfl⟩ := Handler.of_noting hs
          cases hs
          refine ⟨⟨hI.1, hI.2, hI.3, hI.4, fun n hn => hI.5 n (List.mem_filter.mp hn).1⟩,
            fun u hu => ⟨fun _ h => h, fun n hn hnu => List.mem_filter.mpr ⟨hn, ?_⟩⟩,
            List.filterMap_congr fun id hid => hI.resolved _ hn id hid, trivial⟩
          exact decide_eq_true (hnu ▸ hu)
        · rw [hsegs]
          exact hf m hnames
      exact (Triple.of_pure hlook).conseq (fun _ _ h => h m rfl) fun _ _ _ h => h

end Read

theorem triple_scroll {sel : VersionSelector} {offset limit : ℕ} :
    Triple ((step P cfg).noting noteResolved) SparesReads c₀.Passed Passing t (fun _ => True)
      (scroll (some sel) offset limit) fun x _ => ∀ y, x = .ok y → ∃ m, c₀.Names sel m ∧
        y = page (c₀.versionRows m) c₀.payloads offset limit := by
  have htrue : Stable c₀.Passed Passing t fun _ => True := fun _ _ _ _ _ _ => trivial
  refine triple_lock htrue (fun _ _ _ h => h)
    (triple_resolve (triple_unlock fun _ _ h => by cases h)
    (triple_unlock fun _ _ h => by cases h) (fun m => rfl) fun m hm =>
      triple_unlock fun _ y hy => ?_)
  cases hy
  exact ⟨m, hm, rfl⟩

theorem triple_searchAt {sel : VersionSelector} {query : List F32} {k : ℕ}
    {filter : Option (Option Payload → Bool)} :
    Triple ((step P cfg).noting noteResolved) SparesReads c₀.Passed Passing t (fun _ => True)
      (searchAt S cfg sel query k filter) fun x _ => ∀ y, x = .ok y → query.length = cfg.dim ∧
        ∃ m, c₀.Names sel m ∧ y = segmentHits S cfg query k filter m.deletions
          (m.segmentIds.filterMap c₀.allSegments) c₀.payloads := by
  have htrue : Stable c₀.Passed Passing t fun _ => True := fun _ _ _ _ _ _ => trivial
  unfold searchAt
  split
  · exact .ret htrue fun _ _ _ y hy => by cases hy
  · rename_i hdim
    refine triple_resolve (.ret htrue fun _ _ _ y hy => by cases hy)
      (.ret htrue fun _ _ _ y hy => by cases hy) (fun m => rfl) fun m hm =>
      triple_lock htrue (fun _ _ _ h => h) (triple_unlock fun _ y hy => ?_)
    cases hy
    exact ⟨not_not.mp hdim, m, hm, rfl⟩

end Collection

/-! ## Complete reads -/

namespace Travel

/-- What the callers of a pool do: each its read or pass, if it has one. -/
def pool (S : SegmentSearch) (cfg : CollectionConfig) (calls : ℕ → Option Travel) (t : ℕ) :
    CollectionProg Answer :=
  match calls t with
  | some k => k.prog S cfg
  | none => return .swept []

/-- The read is of a version `c₀` holds, segments and all, and it answers what it answers in
`c₀`. -/
def Complete (S : SegmentSearch) (P : Platform) (cfg : CollectionConfig) (c₀ : Collection) (t : ℕ)
    (k : Travel) (a : Answer) : Prop :=
  ∃ sel v m, k.selector = some sel ∧ c₀.versions.resolve sel = some v ∧
    c₀.versions.get v = some m ∧ (∀ id ∈ m.segmentIds, (c₀.allSegments id).isSome) ∧
    ∃ c', run (Collection.step P cfg) t (k.prog S cfg) c₀ = some (a, c')

variable {c₀ : Collection}

theorem triple_prog (hs : c₀.Sound) (k : Travel) :
    Triple ((Collection.step P cfg).noting Collection.noteResolved) Collection.SparesReads
      c₀.Passed Collection.Passing t (fun _ => True) (k.prog S cfg)
      fun a _ => a.IsOk → k.Complete S P cfg c₀ t a := by
  have hfull {sel : VersionSelector} {m : Manifest} (hm : c₀.Names sel m) :
      (c₀.versions.resolve sel).map c₀.versions.get = some (some m) := by
    obtain ⟨v, hv, hget⟩ := hm
    rw [hv, Option.map_some, hget]
  have hpure {α : Type} {Q : α → Prop} {f : α → Answer} {R : Answer → Prop}
    (hQ : ∀ x, Q x → R (f x))
      (x : α) : Triple ((Collection.step P cfg).noting Collection.noteResolved)
        Collection.SparesReads c₀.Passed Collection.Passing t (fun _ => Q x) (.ret (f x))
        fun a _ => R a :=
    .ret (fun _ _ _ h _ _ => h) fun _ _ h => hQ x h
  cases k with
  | scroll sel offset limit =>
    refine .bind (Collection.passing_refl t) Collection.triple_scroll (hpure fun x hx hok => ?_)
    match x, hok with
    | .ok y, _ =>
      obtain ⟨m, ⟨v, hv, hget⟩, rfl⟩ := hx y rfl
      have hrun := @Collection.run_scroll_selector P cfg c₀ t sel offset limit
      rw [hfull ⟨v, hv, hget⟩] at hrun
      exact ⟨sel, v, m, rfl, hv, hget, fun id => hs.isSome_of_mem_segmentIds hget, _,
        (run_bind_of_eq hrun).trans rfl⟩
  | searchAt sel query k filter =>
    refine .bind (Collection.passing_refl t) Collection.triple_searchAt
      (hpure fun x hx hok => ?_)
    match x, hok with
    | .ok y, _ =>
      obtain ⟨hdim, m, ⟨v, hv, hget⟩, rfl⟩ := hx y rfl
      exact ⟨sel, v, m, rfl, hv, hget, fun id => hs.isSome_of_mem_segmentIds hget, _,
        (run_bind_of_eq (Collection.run_searchAt (hfull ⟨v, hv, hget⟩) hdim k filter)).trans rfl⟩
  | gc rules =>
    exact .bind (Collection.passing_refl t) (Collection.triple_gc rules)
      fun x => .ret (fun _ _ _ _ _ _ => trivial) fun _ _ _ h => h.elim

end Travel

/-- **A read of a version is complete**, in any interleaving of reads and passes that removes no
segment a read under way has resolved: if it returns `Ok`, it answers what it would have answered
before the passes. -/
theorem complete_of_sparesReads {c₀ : Collection} (hs : c₀.Sound) {calls : ℕ → Option Travel}
    {x : Config collectionInterface (Collection × List (ℕ × List SegmentId)) Travel.Answer}
    (hsteps : Config.Steps ((Collection.step P cfg).noting Collection.noteResolved)
      Collection.SparesReads ⟨(c₀, []), Travel.pool S cfg calls⟩ x)
    {k : Travel} (hk : calls t = some k) {a : Travel.Answer} (ha : x.pool t = .ret a)
    (hok : a.IsOk) : k.Complete S P cfg c₀ t a := by
  have hsafe : Config.Safe ((Collection.step P cfg).noting Collection.noteResolved)
      Collection.SparesReads c₀.Passed Collection.Passing
      (fun t a _ => ∀ k, calls t = some k → a.IsOk → k.Complete S P cfg c₀ t a) x := by
    refine Config.safe_of_steps Collection.passing_refl Collection.passing_trans
      ⟨Collection.passed_refl c₀, fun t => ?_⟩ hsteps
    change Safe _ _ _ _ t _ (Travel.pool S cfg calls t) _
    rw [Travel.pool]
    cases hk : calls t with
    | none => exact fun _ _ _ _ h => by cases h
    | some k =>
      refine (Travel.triple_prog hs k).conseq (fun _ _ h => h) (fun a _ _ h k' hk' => ?_) _
        (Collection.passed_refl c₀) trivial
      cases hk'
      exact h
  exact hsafe.returned Collection.passing_refl ha k hk hok

/-! ## Two schedules -/

/-- A scroll and a search of version 0, and a pass that keeps the newest version only. -/
def Travel.sampleCalls : ℕ → Option Travel
  | 0 => some (.scroll (.version 0) 0 10)
  | 1 => some (.gc ⟨some 1, false, false⟩)
  | 2 => some (.searchAt (.version 0) [0] 10 none)
  | _ => none

/-- What they do, where segments are searched through their indexes. -/
noncomputable def Travel.samplePool : ℕ → CollectionProg Travel.Answer :=
  Travel.pool Hnsw.fewRows.search (Sample.config none) Travel.sampleCalls

/-- How many points a read returned. -/
def Travel.Answer.total : Travel.Answer → Option ℕ
  | .page (.ok x) => some x.2
  | .hits (.ok x) => some x.length
  | _ => none

theorem Travel.Answer.isOk_of_total {a : Travel.Answer} {n : ℕ} (h : a.total = some n) :
    a.IsOk := by
  unfold total at h
  split at h
  · trivial
  · trivial
  · cases h

/-- What the call of a caller returned, once it has. -/
def Travel.answerOf (p : CollectionProg Travel.Answer) : Option Travel.Answer :=
  match p with
  | .ret a => some a
  | .act .. => none

theorem Travel.eq_ret_of_answerOf {p : CollectionProg Travel.Answer} {a : Travel.Answer}
    (h : answerOf p = some a) : p = .ret a := by
  cases p <;> cases h
  rfl

/-- A version whose one segment a compaction has merged away. -/
def Collection.mergedAway : List Call :=
  [.insert [0], .commit "manual" none none, .insert [1], .sealAppendable, .compact,
    .commit "manual" none none]

theorem complete_of_sparesReads_sample : ∃ c₀ x a a',
    Config.Steps (Collection.step Sample.platform (Sample.config none)) Config.anyOrder
      ⟨c₀, Travel.samplePool⟩ x ∧
    x.pool 0 = .ret a ∧ x.pool 2 = .ret a' ∧ a.total = some 1 ∧ a'.total = some 1 ∧
    (Travel.scroll (.version 0) 0 10).Complete Hnsw.fewRows.search Sample.platform
      (Sample.config none) c₀ 0 a ∧
    (Travel.searchAt (.version 0) [0] 10 none).Complete Hnsw.fewRows.search Sample.platform
      (Sample.config none) c₀ 2 a' := by
  have h : Collection.create.Leads Sample.platform (Sample.config none) Collection.mergedAway
      fun _ c₀ => Config.Leads ((Collection.step Sample.platform (Sample.config none)).noting
          Collection.noteResolved) Collection.SparesReads [0, 0, 2, 1, 1, 0, 2, 1, 0, 2, 2]
        ⟨(c₀, []), Travel.samplePool⟩
        fun x => (Travel.answerOf (x.pool 0) >>= Travel.Answer.total) = some 1 ∧
          (Travel.answerOf (x.pool 2) >>= Travel.Answer.total) = some 1 := by
    decide +kernel
  obtain ⟨tr, c₀, hist, h⟩ := h.exists_history
  obtain ⟨x, hsteps, htotal, htotal'⟩ := h.exists_steps
  obtain ⟨a, ha, htotal⟩ := Option.bind_eq_some_iff.mp htotal
  obtain ⟨a', ha', htotal'⟩ := Option.bind_eq_some_iff.mp htotal'
  have hs := hist.sound Collection.sound_create
  exact ⟨c₀, x.forget, a, a', hsteps.forget, Travel.eq_ret_of_answerOf ha,
    Travel.eq_ret_of_answerOf ha', htotal, htotal',
    complete_of_sparesReads hs hsteps rfl (Travel.eq_ret_of_answerOf ha)
      (Travel.Answer.isOk_of_total htotal),
    complete_of_sparesReads hs hsteps rfl (Travel.eq_ret_of_answerOf ha')
      (Travel.Answer.isOk_of_total htotal')⟩

/-- A pass between resolving the version and looking its segment up: the read returns `Ok`, and
misses the one row of the version. -/
theorem read_misses_swept : ∃ tr c₀ x a,
    History Sample.platform (Sample.config none) .create tr c₀ ∧
    Config.Steps (Collection.step Sample.platform (Sample.config none)) Config.anyOrder
      ⟨c₀, Travel.samplePool⟩ x ∧
    x.pool 0 = .ret a ∧ a.IsOk ∧
    ¬ (Travel.scroll (.version 0) 0 10).Complete Hnsw.fewRows.search Sample.platform
      (Sample.config none) c₀ 0 a := by
  have h : Collection.create.Leads Sample.platform (Sample.config none) Collection.mergedAway
      fun _ c₀ => ((run (Collection.step Sample.platform (Sample.config none)) 0
          ((Travel.scroll (.version 0) 0 10).prog Hnsw.fewRows.search (Sample.config none))
            c₀).bind fun x => x.1.total) = some 1 ∧
      Config.Leads (Collection.step Sample.platform (Sample.config none)) Config.anyOrder
        [0, 0, 1, 1, 1, 0, 0] ⟨c₀, Travel.samplePool⟩
        fun x => (Travel.answerOf (x.pool 0) >>= Travel.Answer.total) = some 0 := by
    decide +kernel
  obtain ⟨tr, c₀, hist, hbefore, h⟩ := h.exists_history
  obtain ⟨x, hsteps, htotal⟩ := h.exists_steps
  obtain ⟨a, ha, htotal⟩ := Option.bind_eq_some_iff.mp htotal
  refine ⟨tr, c₀, x, a, hist, hsteps, Travel.eq_ret_of_answerOf ha,
    Travel.Answer.isOk_of_total htotal, ?_⟩
  rintro ⟨-, -, -, -, -, -, -, c', hrun⟩
  rw [hrun, Option.bind_some, htotal] at hbefore
  cases hbefore

end Vecvec
