import Vecvec.Collection.Calls
import Vecvec.Hnsw.Indexed
import Vecvec.Machinery.Ghost
import Vecvec.Machinery.RelyGuarantee
import Vecvec.Payload
import Vecvec.Persist.Sample

/-!
# Collection/Filtered — filtered searches among inserts

An insert appends its row under one lock and stores its payload under another, and a search holds
the second for the whole of its scan.  A row whose payload is still to come is a candidate without
one: a filter that passes a missing payload finds it, whatever the payload will be.

The note of an insert is what it has still to store.
-/

namespace Vecvec

open Machinery CollectionOp

variable {S : SegmentSearch} {P : Platform} {cfg : CollectionConfig} {c c' : Collection} {t : ℕ}

/-! ## The calls -/

/-- An insert under a given id, or a filtered search. -/
inductive FilteredCall
  | insert (id : GlobalId) (vector : List F32) (payload : Option Payload)
  | search (query : List F32) (k : ℕ) (filter : Filter)

/-- What an insert or a search returns. -/
inductive FilteredCall.Answer
  | inserted (x : Except CoreError Unit)
  | hits (x : Except CoreError (List (GlobalId × F32)))
  | idle

namespace FilteredCall

/-- The program of an insert or a search. -/
def prog (S : SegmentSearch) (P : Platform) (cfg : CollectionConfig) :
    FilteredCall → CollectionProg Answer
  | insert id vector payload =>
    Collection.insertWithIdAndPayload cfg id vector payload >>= fun x => return .inserted x
  | search query k filter =>
    Collection.search S P cfg query k (some filter.eval) >>= fun x => return .hits x

/-- What the callers of a pool do: each its call, if it has one. -/
def pool (S : SegmentSearch) (P : Platform) (cfg : CollectionConfig)
    (calls : ℕ → Option FilteredCall) (t : ℕ) : CollectionProg Answer :=
  match calls t with
  | some k => k.prog S P cfg
  | none => return .idle

end FilteredCall

namespace Collection

/-- The ids that have a row. -/
def rowed (c : Collection) : List GlobalId := (c.working.rows ++ c.appendable.rows).map Prod.fst

/-- What is attached to an id: its payload in `c₀`, or none if it is there without one; or what one
of the inserts attaches, a payload or none. -/
def Attached (c₀ : Collection) (calls : ℕ → Option FilteredCall) (id : GlobalId)
    (payload : Option Payload) : Prop :=
  c₀.payloads id = payload ∧ (payload.isSome ∨ id ∈ c₀.rowed) ∨
    ∃ t vector, calls t = some (.insert id vector payload)

/-- The hits of a filtered search have, each, an attached payload that the filter passes. -/
def Honours (c₀ : Collection) (calls : ℕ → Option FilteredCall) (filter : Filter)
    (hits : List (GlobalId × F32)) : Prop :=
  ∀ r ∈ hits, ∃ payload, c₀.Attached calls r.1 payload ∧ filter.eval payload

/-! ## What inserts under way have still to store -/

section Notes

variable (calls : ℕ → Option FilteredCall)

/-- An insert notes its payload when it appends its row, until it stores it. -/
def noteAppended (t : ℕ) : (o : CollectionOp) → o.Ret → List (ℕ × GlobalId × Payload) →
    List (ℕ × GlobalId × Payload)
  | .appendRow _ _, _, notes => match calls t with
      | some (.insert id _ (some payload)) => (t, id, payload) :: notes
      | _ => notes
  | .insertPayload _ _, _, notes => notes.filter fun n => n.1 ≠ t
  | _, _, notes => notes

/-- No search scans past a row whose payload is still to come if its filter, which passes a missing
payload, would not pass that one. -/
def SparesHalfInserts (t : ℕ) : CollectionOp → Collection × List (ℕ × GlobalId × Payload) → Prop
  | .appendableRows, s => match calls t with
      | some (.search _ _ filter) => ∀ n ∈ s.2, s.1.payloads n.2.1 = none → filter.eval none →
          filter.eval (some n.2.2)
      | _ => True
  | _, _ => True

instance {o : CollectionOp} {s : Collection × List (ℕ × GlobalId × Payload)} :
    Decidable (SparesHalfInserts calls t o s) := by
  unfold SparesHalfInserts
  split
  · split <;> infer_instance
  · infer_instance

end Notes

/-! ## The invariant -/

variable {calls : ℕ → Option FilteredCall} {c₀ : Collection}

/-- Where the payloads and the rows of the appendable are from. -/
structure Fed (c₀ : Collection) (calls : ℕ → Option FilteredCall)
    (s : Collection × List (ℕ × GlobalId × Payload)) : Prop where
  /-- Nothing is sealed. -/
  working : s.1.working = c₀.working
  /-- Payloads are not lost. -/
  kept : ∀ id, s.1.payloads id = none → c₀.payloads id = none
  /-- A payload was attached. -/
  attached : ∀ id p, s.1.payloads id = some p → c₀.Attached calls id (some p)
  /-- An id with a row has a payload, has one to come, has none attached, or had a row before. -/
  rows : ∀ id v, (id, v) ∈ s.1.appendable.rows → s.1.payloads id = none →
    (∃ n ∈ s.2, n.2.1 = id) ∨ (∃ u w, calls u = some (.insert id w none)) ∨ id ∈ c₀.rowed
  /-- Notes are of inserts. -/
  notes : ∀ n ∈ s.2, ∃ v, calls n.1 = some (.insert n.2.1 v (some n.2.2))

/-- What a caller relies on: no payload is stored while it holds the payload lock. -/
def Holding (t : ℕ) (s s' : Collection × List (ℕ × GlobalId × Payload)) : Prop :=
  t ∈ s.1.payloadReaders → s'.1.payloads = s.1.payloads ∧ t ∈ s'.1.payloadReaders

theorem holding_refl (t : ℕ) (s : Collection × List (ℕ × GlobalId × Payload)) : Holding t s s :=
  fun h => ⟨rfl, h⟩

theorem holding_trans (t : ℕ) (s s' s'' : Collection × List (ℕ × GlobalId × Payload))
    (h : Holding t s s') (h' : Holding t s' s'') : Holding t s s'' :=
  fun ht => ⟨(h' (h ht).2).1.trans (h ht).1, (h' (h ht).2).2⟩

theorem fed_refl (c₀ : Collection) (calls : ℕ → Option FilteredCall) : c₀.Fed calls (c₀, []) :=
  ⟨rfl, fun _ h => h, fun _ _ h => .inl ⟨h, .inl rfl⟩,
    fun _ _ h _ => .inr (.inr (List.mem_map_of_mem (List.mem_append_right _ h))),
    fun _ h => absurd h List.not_mem_nil⟩

/-- **A candidate has an attached payload that the filter passes**, if the filter passes what the
searcher sees of it, and no payload to come makes a difference. -/
theorem Fed.passes {s : Collection × List (ℕ × GlobalId × Payload)} (h : c₀.Fed calls s)
    {filter : Filter}
    (hspare : ∀ n ∈ s.2, s.1.payloads n.2.1 = none → filter.eval none → filter.eval (some n.2.2))
    {id : GlobalId} (hid : id ∈ (c₀.working.rows ++ s.1.appendable.rows).map Prod.fst)
    (hpass : FilterQuery.matches ⟨filter, s.1.payloads⟩ id) :
    ∃ payload, c₀.Attached calls id payload ∧ filter.eval payload := by
  change filter.eval (s.1.payloads id) at hpass
  cases hp : s.1.payloads id with
  | some p => exact ⟨some p, h.attached id p hp, hp ▸ hpass⟩
  | none =>
    have hnone : filter.eval none := by rwa [hp] at hpass
    have hold (hr : id ∈ c₀.rowed) : ∃ payload, c₀.Attached calls id payload ∧
        filter.eval payload := ⟨none, .inl ⟨h.kept id hp, .inr hr⟩, hnone⟩
    obtain ⟨⟨g, v⟩, hrow, rfl⟩ := List.mem_map.mp hid
    rcases List.mem_append.mp hrow with hrow | hrow
    · exact hold (List.mem_map_of_mem (List.mem_append_left _ hrow))
    · rcases h.rows g v hrow hp with ⟨n, hn, rfl⟩ | ⟨u, w, hu⟩ | hr
      · obtain ⟨w, hw⟩ := h.notes n hn
        exact ⟨some n.2.2, .inr ⟨n.1, w, hw⟩, hspare n hn hp hnone⟩
      · exact ⟨none, .inr ⟨u, w, hu⟩, hnone⟩
      · exact hold hr

/-! ## An insert among others -/

theorem owes_appendRow {id : GlobalId} {v : List F32} {p : Option Payload}
    (hcall : calls t = some (.insert id v p)) :
    Owes ((step P cfg).noting (noteAppended calls)) (SparesHalfInserts calls) (c₀.Fed calls) Holding
      t (fun _ => True) (.appendRow id v) fun _ _ => True := by
  rintro ⟨c, g⟩ r ⟨c', g'⟩ hI - - hs
  obtain ⟨hst, rfl⟩ := Handler.of_noting hs
  cases hst
  rw [noteAppended, hcall]
  have hrow {i : GlobalId} {w : List F32}
      (h : (i, w) ∈ (c.appendable.append P cfg.metric id v).rows) :
      (i, w) ∈ c.appendable.rows ∨ i = id := by
    rw [AppendableSegment.append_rows] at h
    exact (List.mem_append.mp h).imp_right fun h => congrArg Prod.fst (List.mem_singleton.mp h)
  refine ⟨?_, fun u _ hu => ⟨rfl, hu⟩, trivial⟩
  cases p with
  | none =>
    refine ⟨hI.working, hI.kept, hI.attached, fun i w h hp => ?_, hI.notes⟩
    rcases hrow h with h | rfl
    · exact hI.rows i w h hp
    · exact .inr (.inl ⟨t, v, hcall⟩)
  | some p =>
    refine ⟨hI.working, hI.kept, hI.attached, fun i w h hp => ?_,
      List.forall_mem_cons.mpr ⟨⟨v, hcall⟩, hI.notes⟩⟩
    rcases hrow h with h | rfl
    · exact (hI.rows i w h hp).imp_left fun ⟨n, hn, hni⟩ => ⟨n, List.mem_cons_of_mem _ hn, hni⟩
    · exact .inl ⟨_, List.mem_cons_self, rfl⟩

theorem owes_insertPayload {id : GlobalId} {v : List F32} {p : Payload}
    (hcall : calls t = some (.insert id v (some p))) :
    Owes ((step P cfg).noting (noteAppended calls)) (SparesHalfInserts calls) (c₀.Fed calls) Holding
      t (fun _ => True) (.insertPayload id p) fun _ _ => True := by
  rintro ⟨c, g⟩ r ⟨c', g'⟩ hI - - hs
  obtain ⟨hst, rfl⟩ := Handler.of_noting hs
  rw [step] at hst
  split at hst
  · rename_i hfree
    cases hst
    have hother {i : GlobalId} (h : Function.update c.payloads id (some p) i = none) :
        i ≠ id ∧ c.payloads i = none := by
      rw [Function.update_apply] at h
      split at h
      · cases h
      · exact ⟨‹_›, h⟩
    refine ⟨⟨hI.working, fun i h => hI.kept i (hother h).2, fun i q h => ?_, fun i w h hp => ?_,
      fun n hn => hI.notes n (List.mem_filter.mp hn).1⟩, fun u _ hu => ?_, trivial⟩
    · change Function.update c.payloads id (some p) i = some q at h
      rw [Function.update_apply] at h
      split at h
      · subst i
        exact .inr ⟨t, v, hcall.trans (h ▸ rfl)⟩
      · exact hI.attached i q h
    · obtain ⟨hi, hp⟩ := hother hp
      refine (hI.rows i w h hp).imp_left fun ⟨n, hn, hni⟩ => ⟨n, List.mem_filter.mpr ⟨hn, ?_⟩, hni⟩
      refine decide_eq_true fun hnt => hi ?_
      obtain ⟨w, hw⟩ := hI.notes n hn
      rw [hnt, hcall] at hw
      cases hw
      exact hni.symm
    · rw [show c.payloadReaders = ∅ from hfree] at hu
      exact absurd hu (Finset.notMem_empty u)
  · cases hst

theorem triple_insert {id : GlobalId} {v : List F32} {p : Option Payload}
    (hcall : calls t = some (.insert id v p)) :
    Triple ((step P cfg).noting (noteAppended calls)) (SparesHalfInserts calls) (c₀.Fed calls)
      Holding t (fun _ => True) (insertWithIdAndPayload cfg id v p) fun _ _ => True := by
  have htrue : Stable (c₀.Fed calls) Holding t fun _ => True := fun _ _ _ _ _ _ => trivial
  unfold insertWithIdAndPayload
  split
  · exact .ret htrue fun _ _ _ => trivial
  refine .act htrue (owes_appendRow hcall) fun _ => .act htrue (M := fun _ _ => True) ?_ fun _ => ?_
  · rintro ⟨c, g⟩ r ⟨c', g'⟩ hI - - hs
    obtain ⟨hst, rfl⟩ := Handler.of_noting hs
    cases hst
    exact ⟨⟨hI.1, hI.2, hI.3, hI.4, hI.5⟩, fun u _ hu => ⟨rfl, hu⟩, trivial⟩
  · cases p with
    | none => exact .ret htrue fun _ _ _ => trivial
    | some p => exact .act htrue (owes_insertPayload hcall) fun _ => .ret htrue fun _ _ _ => trivial

/-! ## A search among inserts -/

/-- The candidates a search has seen: those of the working set and of the appendable. -/
theorem mem_rows_of_hit {higher : Bool} {score : List F32 → F32} {query : List F32} {k : ℕ}
    {deletions : DeletionVector} {fq : Option (GlobalId → Bool)} {working : SegmentSet}
    {app : List Row} {r : GlobalId × F32}
    (h : r ∈ mergeFinalize ((working.foldl (fun (b : BoundedTopK GlobalId) s =>
      b.offerAll (S.find s query k deletions fq)) (.new GlobalId k higher)).offerAll
        (searchLocal score higher app k (segmentLiveFilter deletions fq)))) :
    segmentLiveFilter deletions fq r.1 ∧ r.1 ∈ (working.rows ++ app).map Prod.fst := by
  have hfold {l : SegmentSet} {b : BoundedTopK GlobalId} {key : F32 × GlobalId}
      (hkey : key ∈ (l.foldl (fun (b : BoundedTopK GlobalId) s =>
        b.offerAll (S.find s query k deletions fq)) b).heap) :
      key ∈ b.heap ∨ segmentLiveFilter deletions fq key.2 ∧ key.2 ∈ l.rows.map Prod.fst := by
    induction l generalizing b with
    | nil => exact .inl hkey
    | cons s l ih =>
      rw [SegmentSet.rows_cons, List.map_append]
      rcases ih hkey with hkey | ⟨hk, hkey⟩
      · rcases BoundedTopK.mem_heap_offerAll hkey with hkey | ⟨p, hp, hpk⟩
        · exact .inl hkey
        · obtain ⟨hk, hp⟩ := S.admitted s query k deletions fq p hp
          exact .inr (hpk ▸ ⟨hk, List.mem_append_left _ hp⟩)
      · exact .inr ⟨hk, List.mem_append_right _ hkey⟩
  obtain ⟨key, hkey, hid⟩ := BoundedTopK.exists_of_mem_intoSorted (mem_of_mem_keepFirst h)
  rw [List.map_append, ← hid]
  rcases BoundedTopK.mem_heap_offerAll hkey with hkey | ⟨p, hp, hpk⟩
  · rcases hfold hkey with hkey | ⟨hk, hkey⟩
    · exact absurd hkey List.not_mem_nil
    · exact ⟨hk, List.mem_append_left _ hkey⟩
  · obtain ⟨hk, hp⟩ := of_mem_searchLocal hp
    exact hpk ▸ ⟨hk, List.mem_append_right _ hp⟩

/-- An action that reads what no call of the pool changes. -/
theorem owes_read {o : CollectionOp} {r₀ : Collection → o.Ret}
    {A : Collection × List (ℕ × GlobalId × Payload) → Prop}
    {M : o.Ret → Collection × List (ℕ × GlobalId × Payload) → Prop}
    (hstep : ∀ c, step P cfg t o c = some (r₀ c, c))
    (hnote : ∀ r g, noteAppended calls t o r g = g)
    (hM : ∀ s, c₀.Fed calls s → A s → SparesHalfInserts calls t o s → M (r₀ s.1) s) :
    Owes ((step P cfg).noting (noteAppended calls)) (SparesHalfInserts calls) (c₀.Fed calls) Holding
      t A o M := by
  rintro ⟨c, g⟩ r ⟨c', g'⟩ hI hA ha hs
  obtain ⟨hst, hg⟩ := Handler.of_noting hs
  rw [hstep] at hst
  cases hst
  obtain rfl : g' = g := hg.trans (hnote _ _)
  exact ⟨hI, fun u _ => holding_refl u _, hM _ hI hA ha⟩

/-- **A search** has its candidates' payloads in hand while it scans the appendable. -/
theorem triple_search {query : List F32} {k : ℕ} {filter : Filter}
    (hcall : calls t = some (.search query k filter)) :
    Triple ((step P cfg).noting (noteAppended calls)) (SparesHalfInserts calls) (c₀.Fed calls)
      Holding t (fun _ => True) (search S P cfg query k (some filter.eval))
      fun x _ => ∀ hits, x = .ok hits → c₀.Honours calls filter hits := by
  have htrue : Stable (c₀.Fed calls) Holding t fun _ => True := fun _ _ _ _ _ _ => trivial
  unfold search
  split
  · exact .ret htrue fun _ _ _ _ h => by cases h
  refine .act htrue (M := fun _ _ => True) (owes_read (fun _ => rfl) (fun _ _ => rfl)
    fun _ _ _ _ => trivial) fun deletions => ?_
  refine .act htrue (M := fun working _ => working = c₀.working ∧ True)
    (owes_read (fun _ => rfl) (fun _ _ => rfl) fun s hs _ _ => ⟨hs.working, trivial⟩)
    fun working => .of_pure fun hw => ?_
  subst hw
  -- the payloads the search looks into are those of the shared state until it gives the lock back
  refine .act htrue (M := fun payloads s => s.1.payloads = payloads ∧ t ∈ s.1.payloadReaders) ?_
    fun payloads => .act (M := fun app _ => ∀ id ∈ (c₀.working.rows ++ app).map Prod.fst,
      FilterQuery.matches ⟨filter, payloads⟩ id →
        ∃ payload, c₀.Attached calls id payload ∧ filter.eval payload) ?_ ?_ fun app => ?_
  · rintro ⟨c, g⟩ r ⟨c', g'⟩ hI - - hs
    obtain ⟨hst, rfl⟩ := Handler.of_noting hs
    cases hst
    exact ⟨⟨hI.1, hI.2, hI.3, hI.4, hI.5⟩, fun u _ hu => ⟨rfl, Finset.mem_insert_of_mem hu⟩, rfl,
      Finset.mem_insert_self t _⟩
  · exact fun s s' _ h hr _ => ⟨(hr h.2).1.trans h.1, (hr h.2).2⟩
  · refine owes_read (fun _ => rfl) (fun _ _ => rfl) fun s hs h hspare id hid hpass => ?_
    rw [SparesHalfInserts, hcall] at hspare
    exact hs.passes hspare hid (h.1 ▸ hpass)
  · refine .act (fun _ _ _ h _ _ => h) (M := fun _ _ =>
      ∀ id ∈ (c₀.working.rows ++ app).map Prod.fst,
      FilterQuery.matches ⟨filter, payloads⟩ id →
        ∃ payload, c₀.Attached calls id payload ∧ filter.eval payload) ?_ fun _ =>
      .ret (fun _ _ _ h _ _ => h) fun s _ h hits hhits r hr => ?_
    · rintro ⟨c, g⟩ r ⟨c', g'⟩ hI h - hs
      obtain ⟨hst, rfl⟩ := Handler.of_noting hs
      cases hst
      exact ⟨⟨hI.1, hI.2, hI.3, hI.4, hI.5⟩,
        fun u hu hm => ⟨rfl, Finset.mem_erase_of_ne_of_mem hu hm⟩, h⟩
    · cases hhits
      obtain ⟨hkeep, hid⟩ := mem_rows_of_hit hr
      exact h r.1 hid ((Bool.and_eq_true ..).mp hkeep).2

end Collection

/-! ## Searches that honour their filter -/

/-- **A filtered search honours its filter**, in any interleaving of inserts and searches where no
search scans past a row whose payload is still to come, and would decide otherwise. -/
theorem honours_of_sparesHalfInserts (c₀ : Collection) {calls : ℕ → Option FilteredCall}
    {x : Config collectionInterface (Collection × List (ℕ × GlobalId × Payload))
      FilteredCall.Answer}
    (hsteps : Config.Steps ((Collection.step P cfg).noting (Collection.noteAppended calls))
      (Collection.SparesHalfInserts calls) ⟨(c₀, []), FilteredCall.pool S P cfg calls⟩ x)
    {query : List F32} {k : ℕ} {filter : Filter} (hcall : calls t = some (.search query k filter))
    {hits : List (GlobalId × F32)} (hx : x.pool t = .ret (.hits (.ok hits))) :
    c₀.Honours calls filter hits := by
  have hsafe : Config.Safe ((Collection.step P cfg).noting (Collection.noteAppended calls))
      (Collection.SparesHalfInserts calls) (c₀.Fed calls) Collection.Holding
      (fun t a _ => ∀ query k filter hits, calls t = some (.search query k filter) →
        a = .hits (.ok hits) → c₀.Honours calls filter hits) x := by
    refine Config.safe_of_steps Collection.holding_refl Collection.holding_trans
      ⟨Collection.fed_refl c₀ calls, fun t => ?_⟩ hsteps
    change Safe _ _ _ _ t _ (FilteredCall.pool S P cfg calls t) _
    rw [FilteredCall.pool]
    cases hk : calls t with
    | none => exact fun _ _ _ _ _ _ _ h => by cases h
    | some call =>
      cases call with
      | insert id v p =>
        refine Triple.bind (Collection.holding_refl t) (Collection.triple_insert hk)
          (fun a => .ret (fun _ _ _ h _ _ => h) fun _ _ _ _ _ _ _ _ h => by cases h) _
          (Collection.fed_refl c₀ calls) trivial
      | search query k filter =>
        refine Triple.bind (Collection.holding_refl t) (Collection.triple_search hk)
          (fun a => .ret (fun _ _ _ h _ _ => h) fun _ _ h _ _ _ hits hcall ha => ?_) _
          (Collection.fed_refl c₀ calls) trivial
        cases hcall
        cases ha
        exact h hits rfl
  exact hsafe.returned Collection.holding_refl hx query k filter hits hcall rfl

/-! ## Two schedules -/

/-- Two points are inserted, one of them tagged `hidden`, and a search excludes those that are. -/
def FilteredCall.sampleCalls : ℕ → Option FilteredCall
  | 0 => some (.insert 0 [0] (some (.object [("tag", .string "hidden")])))
  | 1 => some (.search [0] 10 { mustNot := [{ key := "tag", match' := some (.string "hidden") }] })
  | 2 => some (.insert 1 [0] (some (.object [("tag", .string "shown")])))
  | _ => none

/-- What they do, where segments are searched through their indexes. -/
noncomputable def FilteredCall.samplePool : ℕ → CollectionProg FilteredCall.Answer :=
  FilteredCall.pool Hnsw.fewRows.search Sample.platform (Sample.config none)
    FilteredCall.sampleCalls

/-- The ids a search returned. -/
def FilteredCall.Answer.ids : FilteredCall.Answer → Option (List GlobalId)
  | .hits (.ok l) => some (l.map Prod.fst)
  | _ => none

/-- The ids the call of a caller returned, once it has. -/
def FilteredCall.found : CollectionProg FilteredCall.Answer → Option (List GlobalId)
  | .ret a => a.ids
  | .act .. => none

theorem FilteredCall.of_found {p : CollectionProg FilteredCall.Answer} {ids : List GlobalId}
    (h : found p = some ids) :
    ∃ hits : List (GlobalId × F32), p = .ret (.hits (.ok hits)) ∧ hits.map Prod.fst = ids := by
  unfold found at h
  split at h
  · unfold Answer.ids at h
    split at h
    · cases h
      exact ⟨_, rfl, rfl⟩
    · cases h
  · cases h

/-- Both inserts are over when the search scans: it finds the one point that is not hidden. -/
theorem honours_of_sparesHalfInserts_sample : ∃ x, ∃ hits : List (GlobalId × F32),
    Config.Steps (Collection.step Sample.platform (Sample.config none)) Config.anyOrder
      ⟨.create, FilteredCall.samplePool⟩ x ∧
    x.pool 1 = .ret (.hits (.ok hits)) ∧ hits.map Prod.fst = [1] ∧
    Collection.create.Honours FilteredCall.sampleCalls
      { mustNot := [{ key := "tag", match' := some (.string "hidden") }] } hits := by
  have h : Config.Leads ((Collection.step Sample.platform (Sample.config none)).noting
      (Collection.noteAppended FilteredCall.sampleCalls))
      (Collection.SparesHalfInserts FilteredCall.sampleCalls) [0, 2, 1, 1, 0, 0, 2, 2, 1, 1, 1]
      ⟨(.create, []), FilteredCall.samplePool⟩
      fun x => FilteredCall.found (x.pool 1) = some [1] := by
    decide +kernel
  obtain ⟨x, hsteps, hfound⟩ := h.exists_steps
  obtain ⟨hits, hx, hids⟩ := FilteredCall.of_found hfound
  exact ⟨x.forget, hits, hsteps.forget, hx, hids,
    honours_of_sparesHalfInserts .create hsteps rfl hx⟩

/-- The search scans while the payload of the hidden point waits for its lock: the point is
found. -/
theorem search_finds_hidden : ∃ x, ∃ hits : List (GlobalId × F32),
    Config.Steps (Collection.step Sample.platform (Sample.config none)) Config.anyOrder
      ⟨.create, FilteredCall.samplePool⟩ x ∧
    x.pool 1 = .ret (.hits (.ok hits)) ∧
    ¬ Collection.create.Honours FilteredCall.sampleCalls
      { mustNot := [{ key := "tag", match' := some (.string "hidden") }] } hits := by
  have h : Config.Leads (Collection.step Sample.platform (Sample.config none)) Config.anyOrder
      [0, 1, 1, 1, 1, 1]
      ⟨.create, FilteredCall.samplePool⟩
      fun x => FilteredCall.found (x.pool 1) = some [0] := by
    decide +kernel
  obtain ⟨x, hsteps, hfound⟩ := h.exists_steps
  obtain ⟨hits, hx, hids⟩ := FilteredCall.of_found hfound
  refine ⟨x, hits, hsteps, hx, fun hh => ?_⟩
  obtain ⟨r, hr, hr0⟩ : ∃ r ∈ hits, r.1 = 0 :=
    List.mem_map.mp (hids ▸ List.mem_singleton_self 0)
  obtain ⟨payload, ⟨rfl, hrow⟩ | ⟨t, v, hcall⟩, hpass⟩ := hh r hr
  · rcases hrow with hrow | hrow
    · cases hrow
    · exact List.not_mem_nil hrow
  · rw [hr0] at hcall
    unfold FilteredCall.sampleCalls at hcall
    split at hcall <;> cases hcall
    exact absurd hpass (by decide +kernel)

end Vecvec
