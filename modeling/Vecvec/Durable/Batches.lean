import Vecvec.Collection.Counts
import Vecvec.Collection.Difference
import Vecvec.Durable.Script
import Vecvec.Durable.Writes
import Vecvec.Machinery.RelyGuarantee

/-!
# Durable/Batches — a write batch and the readers beside it

A batch applies its deletes and its upserts one at a time, each under locks of its own, and a scroll
looks at the collection between any two of them.  The effects of a batch are the points it changes:
every action of it changes at most one, so a batch with two effects has a state between the first
and the second, and a scroll of that state shows one of them without the other.
-/

namespace Vecvec

open Machinery DurableOp

variable {P : Platform} {cfg : CollectionConfig} {c c' : Collection} {w w' : World} {t : ℕ}

/-! ## Live points -/

namespace Collection

/-- A row carries the id, and it is not tombstoned. -/
def Live (c : Collection) (id : GlobalId) : Prop := c.holds id = true ∧ id ∉ c.workingDeletions

instance : DecidablePred c.Live := fun _ => inferInstanceAs (Decidable (_ ∧ _))

theorem mem_map_liveRows {id : GlobalId} :
    id ∈ (liveRows (c.working.rows ++ c.appendable.rows) c.workingDeletions).map Prod.fst ↔
      c.Live id := by
  have hrow : id ∈ (c.working.rows ++ c.appendable.rows).map Prod.fst ↔ c.holds id = true := by
    rw [holds, Bool.or_eq_true, List.any_eq_true, containsId_iff, List.map_append, List.mem_append,
      or_comm]
    refine or_congr ?_ ?_
    · simp
    · simp [SegmentSet.rows, containsId_iff]
      tauto
  simp only [Live, liveRows, List.mem_map, List.mem_filter, decide_eq_true_eq] at hrow ⊢
  constructor
  · rintro ⟨r, ⟨hr, hd⟩, rfl⟩
    exact ⟨hrow.mp ⟨r, hr, rfl⟩, hd⟩
  · rintro ⟨hh, hd⟩
    obtain ⟨r, hr, rfl⟩ := hrow.mpr hh
    exact ⟨r, ⟨hr, hd⟩, rfl⟩

end Collection

/-- The action logs or applies a record. -/
def CollectionOp.Applies : CollectionOp → Prop
  | allocGlobalId | appendRow .. | bumpGlobalId _ | insertPayload .. | appendableContains _ |
    loadWorking | tombstone _ => True
  | _ => False

/-- The action logs or applies a record. -/
def DurableOp.Applies : DurableOp → Prop
  | .collection o => o.Applies
  | .lockWal | .walAppend _ | .walFlush => True
  | _ => False

namespace Collection

/-- **Applying is one point at a time**: an action changes whether one id is live, at most. -/
theorem live_step {o : CollectionOp} (ho : o.Applies) {r : o.Ret}
    (hs : step P cfg t o c = some (r, c')) : ∃ i, ∀ id, id ≠ i → (c'.Live id ↔ c.Live id) := by
  cases o with
  | appendRow i v =>
    cases hs
    refine ⟨i, fun id hid => ?_⟩
    have hne : (i == id) = false := beq_eq_false_iff_ne.mpr (Ne.symm hid)
    simp [Live, holds, containsId, hne]
  | tombstone i =>
    cases hs
    exact ⟨i, fun id hid => and_congr_right' (by simp [hid])⟩
  | insertPayload =>
    rw [step] at hs
    split at hs
    · cases hs
      exact ⟨0, fun _ _ => Iff.rfl⟩
    · cases hs
  | allocGlobalId | bumpGlobalId | appendableContains | loadWorking =>
    cases hs
    exact ⟨0, fun _ _ => Iff.rfl⟩
  | _ => exact ho.elim

end Collection

theorem World.live_step {o : DurableOp} (ho : o.Applies) {r : o.Ret}
    (hs : World.step P cfg t o w = some (r, w')) :
    ∃ i, ∀ id, id ≠ i → (w'.collection.Live id ↔ w.collection.Live id) := by
  cases o with
  | collection o =>
    obtain ⟨x, hx, hxs⟩ := Option.map_eq_some_iff.mp hs
    cases hxs
    exact Collection.live_step ho hx
  | lockWal =>
    rw [World.step] at hs
    split at hs
    · cases hs
      exact ⟨0, fun _ _ => Iff.rfl⟩
    · cases hs
  | walAppend => cases hs; exact ⟨0, fun _ _ => Iff.rfl⟩
  | walFlush =>
    rw [World.step] at hs
    split at hs
    all_goals
      cases hs
      exact ⟨0, fun _ _ => Iff.rfl⟩
  | _ => exact ho.elim

/-! ## The batch -/

/-- A write batch. -/
structure Batch where
  /-- The vectors to insert, with their payloads. -/
  upserts : List (List F32 × Option Payload)
  /-- The ids to delete. -/
  deletes : List GlobalId
  /-- The message and the tag of an explicit commit. -/
  commit : Option (Option String × Option String)

/-- What a batch or a scroll returns. -/
inductive Batch.Answer
  | batch (x : Except CoreError Durable.WriteBatchResult)
  | page (x : Except CoreError (List Collection.PointRecord × ℕ))

namespace Batch

variable (b : Batch)

/-- The batch passes the dimension check. -/
def Fits (cfg : CollectionConfig) : Prop := ∀ u ∈ b.upserts, u.1.length = cfg.dim

instance : Decidable (b.Fits cfg) := List.decidableBAll _ _

/-- The ids the batch inserts into a collection: the allocator's next ones. -/
def upserted (cfg : CollectionConfig) (c : Collection) : List GlobalId :=
  if b.Fits cfg then List.range' c.nextGlobalId b.upserts.length else []

/-- The live ids the batch deletes from a collection. -/
def deleted (cfg : CollectionConfig) (c : Collection) : List GlobalId :=
  if b.Fits cfg then b.deletes.filter fun id => c.Live id else []

/-- The points the batch changes. -/
def effects (cfg : CollectionConfig) (c : Collection) : Finset GlobalId :=
  (b.upserted cfg c ++ b.deleted cfg c).toFinset

/-- The ids show none of the effects. -/
def ShowsNone (cfg : CollectionConfig) (c : Collection) (shown : GlobalId → Prop) : Prop :=
  (∀ id ∈ b.upserted cfg c, ¬ shown id) ∧ ∀ id ∈ b.deleted cfg c, shown id

/-- The ids show all of the effects. -/
def ShowsAll (cfg : CollectionConfig) (c : Collection) (shown : GlobalId → Prop) : Prop :=
  (∀ id ∈ b.upserted cfg c, shown id) ∧ ∀ id ∈ b.deleted cfg c, ¬ shown id

/-- The batch, by caller 0, and scrolls of the working state by everyone else. -/
def pool (cfg : CollectionConfig) (limits : ℕ → ℕ) (t : ℕ) : DurableProg Answer :=
  if t = 0 then
    Durable.writeBatch cfg b.upserts b.deletes b.commit >>= fun x => return .batch x
  else Durable.inMemory (Collection.scroll none 0 (limits t)) >>= fun x => return .page x

/-- **The batch is indivisible to readers**: in every interleaving with scrolls, a scroll that was
not cut short by its limit shows none of the effects, or all of them. -/
def Indivisible (P : Platform) (cfg : CollectionConfig) (w : World) : Prop :=
  ∀ limits x, Config.Steps (World.step P cfg) Config.anyOrder ⟨w, b.pool cfg limits⟩ x →
    ∀ t points n, x.pool t = .ret (.page (.ok (points, n))) → n ≤ limits t →
      b.ShowsNone cfg w.collection (· ∈ points.map Collection.PointRecord.id) ∨
        b.ShowsAll cfg w.collection (· ∈ points.map Collection.PointRecord.id)

/-- What `write_batch` does up to its commit. -/
def apply (cfg : CollectionConfig) : DurableProg (List GlobalId × ℕ × Except CoreError Unit) := do
  Durable.perform lockWal
  b.deletes.forM fun id => Durable.perform (walAppend (.delete id))
  let ids ← Durable.logUpserts b.upserts
  Durable.perform walFlush
  let deleted ← Durable.applyDeletes b.deletes
  let x ← Durable.applyUpserts cfg (ids.zip b.upserts)
  return (ids, deleted, x)

/-- What `write_batch` does once its records are applied. -/
def conclude (x : List GlobalId × ℕ × Except CoreError Unit) :
    DurableProg (Except CoreError Durable.WriteBatchResult) :=
  match x.2.2 with
  | .error e => do
    Durable.perform unlockWal
    return .error e
  | .ok () => do
    let explicit ← match b.commit with
      | some (message, tag) => do
        let v ← Durable.inMemory (Collection.commit "batch" message tag)
        Durable.persistVersions
        pure (some v)
      | none => pure none
    Durable.perform unlockWal
    let version ← Durable.afterBatch x.1.length explicit
    return .ok ⟨x.1, x.2.1, version⟩

variable {b}

theorem writeBatch_eq (hb : b.Fits cfg) :
    Durable.writeBatch cfg b.upserts b.deletes b.commit = b.apply cfg >>= b.conclude := by
  have hfind : b.upserts.find? (fun u => decide (u.1.length ≠ cfg.dim)) = none :=
    List.find?_eq_none.mpr fun u hu => by simpa using hb u hu
  rw [Durable.writeBatch, hfind, apply]
  simp only [bind_assoc, pure_bind]
  rfl

theorem writeBatch_eq_error (hb : ¬ b.Fits cfg) : ∃ e,
    Durable.writeBatch cfg b.upserts b.deletes b.commit = .ret (.error e) := by
  cases hf : b.upserts.find? fun u => u.1.length ≠ cfg.dim with
  | some u =>
    refine ⟨.dimensionMismatch cfg.dim u.1.length, ?_⟩
    rw [Durable.writeBatch, hf]
    rfl
  | none =>
    refine absurd (fun u hu => ?_) hb
    simpa using List.find?_eq_none.mp hf u hu

/-! ## Applying it -/

theorem only_inMemory {α : Type} {p : CollectionProg α} (hp : p.Only CollectionOp.Applies) :
    (Durable.inMemory p).Only DurableOp.Applies := by
  refine Prog.Only.lift ?_ hp
  exact fun _ ho => ho

theorem only_delete (id : GlobalId) : (Collection.delete id).Only CollectionOp.Applies := by
  refine Prog.Only.bind ⟨trivial, fun found => ?_⟩ fun found => ?_
  · cases found with
    | false => exact ⟨trivial, fun _ => trivial⟩
    | true => trivial
  · cases found with
    | false => trivial
    | true => exact ⟨trivial, fun _ => trivial⟩

theorem only_insert {id : GlobalId} {v : List F32} {p : Option Payload} :
    (Collection.insertWithIdAndPayload cfg id v p).Only CollectionOp.Applies := by
  unfold Collection.insertWithIdAndPayload
  split
  · trivial
  · cases p with
    | none => exact ⟨trivial, fun _ => ⟨trivial, fun _ => trivial⟩⟩
    | some p => exact ⟨trivial, fun _ => ⟨trivial, fun _ => ⟨trivial, fun _ => trivial⟩⟩⟩

theorem only_forM {ι : Type} {φ : DurableOp → Prop} {f : ι → DurableProg PUnit}
    (hf : ∀ i, (f i).Only φ) (l : List ι) : (l.forM f).Only φ := by
  induction l with
  | nil => trivial
  | cons i l ih => exact (hf i).bind fun _ => ih

theorem only_logUpserts (ups : List (List F32 × Option Payload)) :
    (Durable.logUpserts ups).Only DurableOp.Applies := by
  induction ups with
  | nil => trivial
  | cons u ups ih => exact ⟨trivial, fun _ => ⟨trivial, fun _ => ih.bind fun _ => trivial⟩⟩

theorem only_applyDeletes (ids : List GlobalId) :
    (Durable.applyDeletes ids).Only DurableOp.Applies := by
  induction ids with
  | nil => trivial
  | cons id ids ih => exact (only_inMemory (only_delete id)).bind fun _ => ih.bind fun _ => trivial

theorem only_applyUpserts (ups : List (GlobalId × List F32 × Option Payload)) :
    (Durable.applyUpserts cfg ups).Only DurableOp.Applies := by
  induction ups with
  | nil => trivial
  | cons u ups ih =>
    refine (only_inMemory only_insert).bind fun x => ?_
    cases x with
    | error e => trivial
    | ok => exact ih

/-- **Up to its commit, a batch only logs and applies records.** -/
theorem only_apply : (b.apply cfg).Only DurableOp.Applies :=
  have hlog (id : GlobalId) : (Durable.perform (walAppend (.delete id))).Only Applies :=
    ⟨trivial, fun _ => trivial⟩
  ⟨trivial, fun _ => (only_forM hlog _).bind fun _ => (only_logUpserts _).bind fun _ =>
    ⟨trivial, fun _ => (only_applyDeletes _).bind fun _ => (only_applyUpserts _).bind fun _ =>
      trivial⟩⟩

/-- **Applied, a batch has replayed its records.** -/
theorem exists_apply (hq : w.collection.Quiet) (hfree : w.walHolder = none) (hb : b.Fits cfg) :
    ∃ x w', run (World.step P cfg) t (b.apply cfg) w = some (x, w') ∧ w'.collection =
      (batchRecords w.collection.nextGlobalId b.upserts b.deletes).foldl (Collection.replay P cfg)
        w.collection := by
  obtain ⟨n, hdel⟩ := @performs_batchDeletes P cfg t b.deletes w.collection
    (w.collection.nextGlobalId + b.upserts.length) (Function.update w.collection.inserting t
      (List.range' w.collection.nextGlobalId b.upserts.length).reverse)
  have hins : w.collection.inserting t = [] := by rw [hq.inserting]
  have hlog := @performs_logUpserts P cfg t { w with
    walHolder := some t
    disk := w.disk.performAll P cfg ((b.deletes.map .delete).map (.append w.generation)) } b.upserts
  simp only [hins, List.append_nil] at hlog
  have hflush (w : World) :
      ∃ d, World.step P cfg t .walFlush w = some ((), { w with disk := d }) := by
    rw [World.step]
    split <;> exact ⟨_, rfl⟩
  have hrest {w₁ : World} (hw : w₁.collection = { w.collection with
      nextGlobalId := w.collection.nextGlobalId + b.upserts.length
      inserting := Function.update w.collection.inserting t
        (List.range' w.collection.nextGlobalId b.upserts.length).reverse }) :
      run (World.step P cfg) t (do
        let deleted ← Durable.applyDeletes b.deletes
        let x ← Durable.applyUpserts cfg
          ((List.range' w.collection.nextGlobalId b.upserts.length).zip b.upserts)
        return (List.range' w.collection.nextGlobalId b.upserts.length, deleted, x)) w₁ =
      some ((List.range' w.collection.nextGlobalId b.upserts.length, n, .ok ()), { w₁ with
        collection := (batchRecords w.collection.nextGlobalId b.upserts b.deletes).foldl
          (Collection.replay P cfg) w.collection }) := by
    have hdel := (hdel w₁).run
    rw [← hw] at hdel
    exact (run_bind_of_eq hdel).trans
      ((run_bind_of_eq (performs_batchUpserts (w := w₁) hq hb).run).trans rfl)
  exact ⟨_, _, (run_perform_bind (if_pos hfree)).trans
    ((run_bind_of_eq (performs_forM_walAppend rfl).run).trans ((run_bind_of_eq hlog.run).trans
      ((run_perform_bind (hflush _).choose_spec).trans (hrest rfl)))), rfl⟩

end Batch

/-! ## What is acknowledged -/

/-- The points of a batch, entered: its upserts are there, and of the others those it does not
delete. -/
theorem Ledger.isSome_applyAll_upserts {M : Ledger} {n : GlobalId}
    {ups : List (List F32 × Option Payload)} {id : GlobalId} :
    (M.applyAll (upsertRecords n ups) id).isSome ↔
      id ∈ List.range' n ups.length ∨ (M id).isSome := by
  induction ups generalizing M n with
  | nil => simp [upsertRecords]
  | cons u ups ih =>
    rw [upsertRecords, applyAll, List.foldl_cons]
    refine ih.trans ?_
    rw [List.length_cons, List.range'_succ, List.mem_cons, apply]
    by_cases hid : id = n
    · simp [hid]
    · simp [hid]

theorem Ledger.applyAll_deletes {M : Ledger} {dels : List GlobalId} {id : GlobalId} :
    M.applyAll (dels.map .delete) id = if id ∈ dels then none else M id := by
  induction dels generalizing M with
  | nil => simp
  | cons d dels ih =>
    rw [List.map_cons, applyAll, List.foldl_cons]
    refine ih.trans ?_
    rw [apply]
    by_cases hd : id = d
    · simp [hd]
    · simp [hd]

namespace Batch

variable {b : Batch}

theorem live_iff_ledger (L : GlobalId → List F32) {id : GlobalId} :
    c.Live id ↔ (c.standing.ledger L id).isSome := by
  rw [Standing.ledger, Collection.Live]
  change _ ↔ (if c.holds id = true ∧ id ∉ c.workingDeletions then _ else _ : Option _).isSome
  split <;> simp [*]

/-- **A batch that has been applied shows all of its effects.** -/
theorem live_foldl_replay (hbound : c.standing.Bounded) (hb : b.Fits cfg) {id : GlobalId} :
    ((batchRecords c.nextGlobalId b.upserts b.deletes).foldl (Collection.replay P cfg) c).Live id ↔
      id ∈ List.range' c.nextGlobalId b.upserts.length ∨ id ∉ b.deletes ∧ c.Live id := by
  have hnum : Numbered cfg c.standing.next (batchRecords c.nextGlobalId b.upserts b.deletes) :=
    numbered_batchRecords hb
  have hledger := hbound.ledger_learn (L := fun _ => []) hnum
  rw [live_iff_ledger, Collection.standing_foldl_replay]
  have happend (M : Ledger) : M.applyAll (batchRecords c.nextGlobalId b.upserts b.deletes) =
      (M.applyAll (b.deletes.map .delete)).applyAll (upsertRecords c.nextGlobalId b.upserts) :=
    List.foldl_append
  rw [hledger, happend, Ledger.isSome_applyAll_upserts, Ledger.applyAll_deletes,
    live_iff_ledger fun _ => []]
  by_cases hid : id ∈ b.deletes
  · simp [hid]
  · simp [hid]

/-! ## What readers see -/

/-- **A batch that goes from none of its effects to all of them in one action** has at most one. -/
theorem card_effects_of_step {w₀ : World} {o : DurableOp} (ho : o.Applies) {r : o.Ret}
    (hs : World.step P cfg t o w = some (r, w'))
    (hnone : b.ShowsNone cfg w₀.collection w.collection.Live)
    (hall : b.ShowsAll cfg w₀.collection w'.collection.Live) :
    (b.effects cfg w₀.collection).card ≤ 1 := by
  obtain ⟨i, hi⟩ := World.live_step ho hs
  have heq {id : GlobalId} (hid : id ∈ b.effects cfg w₀.collection) : id = i := by
    by_contra hne
    rcases List.mem_append.mp (List.mem_toFinset.mp hid) with hid | hid
    · exact hnone.1 id hid ((hi id hne).mp (hall.1 id hid))
    · exact hall.2 id hid ((hi id hne).mpr (hnone.2 id hid))
  exact Finset.card_le_one.mpr fun a ha a' ha' => (heq ha).trans (heq ha').symm

theorem mem_effects_iff (hb : b.Fits cfg) {id : GlobalId} : id ∈ b.effects cfg c ↔
    id ∈ List.range' c.nextGlobalId b.upserts.length ∨ id ∈ b.deletes ∧ c.Live id := by
  rw [effects, List.mem_toFinset, List.mem_append, upserted, deleted, if_pos hb, if_pos hb,
    List.mem_filter, decide_eq_true_eq]

theorem le_of_mem_upserted {id : GlobalId} (h : id ∈ b.upserted cfg c) : c.nextGlobalId ≤ id := by
  rw [upserted] at h
  split at h
  · exact (List.mem_range'_1.mp h).1
  · exact absurd h List.not_mem_nil

theorem live_of_mem_deleted {id : GlobalId} (h : id ∈ b.deleted cfg c) : c.Live id := by
  rw [deleted] at h
  split at h
  · exact of_decide_eq_true (List.mem_filter.mp h).2
  · exact absurd h List.not_mem_nil

/-- A batch with two effects can be stopped where it shows neither none of them nor all. -/
theorem exists_shows_some (hq : w.collection.Quiet) (hfree : w.walHolder = none)
    (hbound : w.collection.standing.Bounded) (hcard : 1 < (b.effects cfg w.collection).card) :
    b.Fits cfg ∧ ∃ os q w', Steps (World.step P cfg) t (b.apply cfg) w os q w' ∧
      ¬ b.ShowsNone cfg w.collection w'.collection.Live ∧
      ¬ b.ShowsAll cfg w.collection w'.collection.Live := by
  have hb : b.Fits cfg := by
    by_contra hb
    simp [effects, upserted, deleted, hb] at hcard
  have hstart : b.ShowsNone cfg w.collection w.collection.Live :=
    ⟨fun id hid h => (hbound.held id h.1).not_ge (le_of_mem_upserted hid),
      fun id => live_of_mem_deleted⟩
  obtain ⟨x, w', hrun, hw'⟩ := exists_apply (P := P) (t := t) hq hfree hb
  obtain ⟨os, hst⟩ := run_eq_some_iff.mp hrun
  have hend : ¬ b.ShowsNone cfg w.collection w'.collection.Live := by
    rw [ShowsNone, upserted, deleted, if_pos hb, if_pos hb, hw']
    rintro ⟨hups, hdels⟩
    obtain ⟨id, hid⟩ := Finset.card_pos.mp (Nat.zero_lt_of_lt hcard)
    rcases (mem_effects_iff hb).mp hid with hid | ⟨hid, hl⟩
    · exact hups id hid ((live_foldl_replay hbound hb).mpr (.inl hid))
    · have := hdels id (List.mem_filter.mpr ⟨hid, decide_eq_true hl⟩)
      rcases (live_foldl_replay hbound hb).mp this with h | h
      · exact (hbound.held id hl.1).not_ge (List.mem_range'_1.mp h).1
      · exact h.1 hid
  obtain ⟨os₁, q, w₁, w₂, o, ho, r, hst₂, hnone, hs, hsome⟩ := hst.exists_turn
    (φ := fun s : World => b.ShowsNone cfg w.collection s.collection.Live) hstart hend
  exact ⟨hb, os₁, q, w₂, hst₂, hsome, fun hall =>
    (card_effects_of_step (only_apply.of_steps hst o ho) hs hnone hall).not_gt hcard⟩

/-- **A scroll of a stopped batch**: caller 1 sees the live points of the state it stopped in. -/
theorem exists_scroll (hb : b.Fits cfg) {os : List DurableOp}
    {q : DurableProg (List GlobalId × ℕ × Except CoreError Unit)}
    (hst : Steps (World.step P cfg) 0 (b.apply cfg) w os q w') :
    ∃ limits x points n, Config.Steps (World.step P cfg) Config.anyOrder ⟨w, b.pool cfg limits⟩ x ∧
      x.pool 1 = .ret (.page (.ok (points, n))) ∧ n ≤ limits 1 ∧
      (fun id => id ∈ points.map Collection.PointRecord.id) = w'.collection.Live := by
  let rows := Collection.liveRows (w'.collection.working.rows ++ w'.collection.appendable.rows)
    w'.collection.workingDeletions
  let limits : ℕ → ℕ := fun _ => rows.length
  have hf := writeBatch_eq hb
  have hbatch := (hst.bind b.conclude).bind fun x => (.ret (.batch x) : DurableProg Answer)
  rw [← hf] at hbatch
  have hscroll := run_bind_of_eq (f := fun x => (.ret (.page x) : DurableProg Answer))
    (@performs_inMemory P cfg _ 1 _ w' _ _ (Collection.run_scroll_working 0 rows.length)).run
  obtain ⟨os', hst'⟩ := run_eq_some_iff.mp hscroll
  have hbatch := Config.steps_of_call (b.pool cfg limits) hbatch
  have hscroll := Config.steps_of_call (Function.update (b.pool cfg limits) 0
    (q >>= b.conclude >>= fun x => .ret (.batch x))) hst'
  refine ⟨limits, _, (Collection.page rows w'.collection.payloads 0 rows.length).1,
    (Collection.page rows w'.collection.payloads 0 rows.length).2, hbatch.trans hscroll, ?_, le_rfl,
    funext fun id => propext ((Collection.mem_ids_page le_rfl).trans Collection.mem_map_liveRows)⟩
  dsimp only
  rw [Function.update_self]

/-- **A batch is indivisible to readers exactly if it changes one point at most.** -/
theorem indivisible_iff (hq : w.collection.Quiet) (hfree : w.walHolder = none)
    (hbound : w.collection.standing.Bounded) :
    b.Indivisible P cfg w ↔ (b.effects cfg w.collection).card ≤ 1 := by
  constructor
  · intro hind
    by_contra hcard
    obtain ⟨hb, os, q, w', hst, hnone, hall⟩ :=
      exists_shows_some (P := P) (t := 0) hq hfree hbound (not_le.mp hcard)
    obtain ⟨limits, x, points, n, hsteps, hx, hn, hshown⟩ := exists_scroll hb hst
    have h := hind limits x hsteps 1 points n hx hn
    rw [hshown] at h
    exact h.elim hnone hall
  · intro hcard limits x _ t points n _ _
    have hone {a a' : GlobalId} (ha : a ∈ b.upserted cfg w.collection ++ b.deleted cfg w.collection)
        (ha' : a' ∈ b.upserted cfg w.collection ++ b.deleted cfg w.collection) : a = a' :=
      Finset.card_le_one.mp hcard a (List.mem_toFinset.mpr ha) a' (List.mem_toFinset.mpr ha')
    have hdisj {a a' : GlobalId} (ha : a ∈ b.upserted cfg w.collection)
        (ha' : a' ∈ b.deleted cfg w.collection) : a ≠ a' :=
      ((hbound.held a' (live_of_mem_deleted ha').1).trans_le (le_of_mem_upserted ha)).ne'
    by_cases hups : ∃ a ∈ b.upserted cfg w.collection, a ∈ points.map Collection.PointRecord.id
    · obtain ⟨a, ha, hshown⟩ := hups
      refine .inr ⟨fun id hid => ?_, fun id hid => ?_⟩
      · rwa [hone (List.mem_append_left _ hid) (List.mem_append_left _ ha)]
      · exact absurd (hone (List.mem_append_left _ ha) (List.mem_append_right _ hid)) (hdisj ha hid)
    · by_cases hdels : ∀ a ∈ b.deleted cfg w.collection, a ∈ points.map Collection.PointRecord.id
      · exact .inl ⟨fun id hid h => hups ⟨id, hid, h⟩, hdels⟩
      · push Not at hdels
        obtain ⟨a, ha, hhidden⟩ := hdels
        refine .inr ⟨fun id hid => ?_, fun id hid => ?_⟩
        · exact absurd (hone (List.mem_append_left _ hid) (List.mem_append_right _ ha))
            (hdisj hid ha)
        · rwa [hone (List.mem_append_right _ hid) (List.mem_append_right _ ha)]

/-! ## Two batches -/

/-- A batch of one upsert, with a commit, is indivisible. -/
theorem indivisible_iff_sample : ∃ w,
    run (World.step Sample.platform (Sample.config none)) 0
      (Durable.openCollection (Sample.config none))
      (.boot .empty (Sample.config none) .sync fun _ => 0) = some (.ok (), w) ∧
    (Batch.mk [([0], none)] [] (some (none, none))).Indivisible Sample.platform
      (Sample.config none) w := by
  obtain ⟨w, hw, hc, hfree⟩ : ∃ w, run (World.step Sample.platform (Sample.config none)) 0
      (Durable.openCollection (Sample.config none))
      (.boot .empty (Sample.config none) .sync fun _ => 0) = some (.ok (), w) ∧
      w.collection = .create ∧ w.walHolder = none := ⟨_, rfl, rfl, rfl⟩
  refine ⟨w, hw, (indivisible_iff (hc ▸ Collection.quiet_create) hfree ?_).mpr ?_⟩
  · rw [hc]
    exact ⟨fun _ h => absurd h Bool.false_ne_true, fun _ h => absurd h (Finset.notMem_empty _),
      fun _ _ => rfl⟩
  · rw [hc]
    decide +kernel

instance {shown : GlobalId → Prop} [DecidablePred shown] :
    Decidable (b.ShowsNone cfg c shown) := inferInstanceAs (Decidable (_ ∧ _))

instance {shown : GlobalId → Prop} [DecidablePred shown] :
    Decidable (b.ShowsAll cfg c shown) := inferInstanceAs (Decidable (_ ∧ _))

/-- The ids a scroll returned, and the total. -/
def seen : DurableProg Answer → Option (List GlobalId × ℕ)
  | .ret (.page (.ok (points, n))) => some (points.map Collection.PointRecord.id, n)
  | _ => none

theorem eq_ret_of_seen {p : DurableProg Answer} {ids : List GlobalId} {n : ℕ}
    (h : seen p = some (ids, n)) :
    ∃ points, p = .ret (.page (.ok (points, n))) ∧ points.map Collection.PointRecord.id = ids := by
  unfold seen at h
  split at h
  · cases h
    exact ⟨_, rfl, rfl⟩
  · cases h

/-- A schedule after which caller 1 has seen some of the effects without the others. -/
def Splits (P : Platform) (cfg : CollectionConfig) (b : Batch) (ts : List ℕ) (w : World) : Prop :=
  Config.Leads (World.step P cfg) Config.anyOrder ts ⟨w, b.pool cfg fun _ => 10⟩ fun x =>
    ∃ s ∈ seen (x.pool 1), s.2 ≤ 10 ∧ ¬ b.ShowsNone cfg w.collection (· ∈ s.1) ∧
      ¬ b.ShowsAll cfg w.collection (· ∈ s.1)

instance {ts : List ℕ} : DecidablePred (Splits P cfg b ts) :=
  fun _ => inferInstanceAs (Decidable (Config.Leads _ _ _ _ _))

/-- The world of a running collection. -/
def running? : Node → Option World
  | .running w => some w
  | .stopped _ => none

/-- A batch replaces point 0 by point 1: a scroll between its delete and its upsert sees neither. -/
theorem replaced_unseen : ∃ evs w,
    Runs Sample.platform (Sample.config none) (.stopped .empty) evs (.running w) ∧
    ¬ (Batch.mk [([1], none)] [0] none).Indivisible Sample.platform (Sample.config none) w := by
  have h : Node.Leads Sample.platform (Sample.config none) (.stopped .empty)
      [.open, .call (.upsert [([0], none)])] fun _ n => ∃ w ∈ running? n,
        Splits Sample.platform (Sample.config none) (.mk [([1], none)] [0] none)
          [0, 0, 0, 0, 0, 0, 0, 1, 1, 1, 1, 1] w := by
    decide +kernel
  obtain ⟨evs, n, hr, w, hw, hsplit⟩ := h.exists_runs
  obtain ⟨x, hsteps, ⟨ids, n'⟩, hs, hn, hnone, hall⟩ := hsplit.exists_steps
  obtain ⟨points, hx, rfl⟩ := eq_ret_of_seen hs
  match n, hw with
  | .running _, rfl =>
    exact ⟨evs, _, hr, fun hind => (hind _ x hsteps 1 points n' hx hn).elim hnone hall⟩

end Batch

end Vecvec
