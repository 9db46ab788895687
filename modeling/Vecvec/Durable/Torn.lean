import Vecvec.Durable.Acked
import Vecvec.Durable.Batches

/-!
# Durable/Torn — a batch, cut off

A batch is logged record by record and flushed once, so what a crash leaves of it is any first
records of it (`World.Durable.exists_torn`).  Recovery shows all of the batch or none of it,
wherever it is cut off, exactly if the batch changes one point at most.
-/

namespace Vecvec

open Machinery

variable {P : Platform} {cfg : CollectionConfig} {w : World} {evs : List Event} {d : Disk}
  {L : GlobalId → List F32} {l : List WalOp} {b : Batch} {M : Ledger} {n : GlobalId}

/-! ## The points a batch changes -/

namespace Batch

variable (b)

/-- The request that makes the batch. -/
def request : Request := .writeBatch b.upserts b.deletes b.commit

/-- How many points the batch changes: those it inserts, and the live ones it deletes. -/
def changes (M : Ledger) : ℕ :=
  b.upserts.length + (b.deletes.toFinset.filter fun id => (M id).isSome).card

/-- The records of the batch. -/
abbrev records (n : GlobalId) : List WalOp := batchRecords n b.upserts b.deletes

variable {b}

theorem logs_request (hb : b.Fits cfg) :
    b.request.logs cfg w = b.records w.collection.nextGlobalId := if_pos hb

theorem logs_request_of_not (hb : ¬ b.Fits cfg) : b.request.logs cfg w = [] := if_neg hb

theorem applyAll_records :
    M.applyAll (b.records n) =
      (M.applyAll (b.deletes.map .delete)).applyAll (upsertRecords n b.upserts) :=
  List.foldl_append

end Batch

namespace Ledger

/-- Deleting what is not live changes nothing. -/
theorem applyAll_deletes_of_none {dels : List GlobalId} (h : ∀ id ∈ dels, M id = none) :
    M.applyAll (dels.map .delete) = M := by
  funext id
  rw [applyAll_deletes]
  split
  · exact (h id ‹_›).symm
  · rfl

end Ledger

namespace Batch

/-- The live points of a ledger that the batch deletes. -/
theorem mem_live {id : GlobalId} :
    id ∈ b.deletes.toFinset.filter (fun id => (M id).isSome) ↔ id ∈ b.deletes ∧ (M id).isSome := by
  rw [Finset.mem_filter, List.mem_toFinset]

/-- **A batch that changes one point at most** has no state between before and after. -/
theorem applyAll_of_prefix (hone : b.changes M ≤ 1) (hl : l <+: b.records n) :
    M.applyAll l = M ∨ M.applyAll l = M.applyAll (b.records n) := by
  rw [changes] at hone
  match hups : b.upserts with
  | [] =>
    -- Deletes only: the prefix has the one that counts, or not.
    rw [hups, List.length_nil, Nat.zero_add] at hone
    rw [records, batchRecords, hups, upsertRecords, List.append_nil] at hl ⊢
    obtain ⟨pre, hpre, rfl⟩ := List.prefix_map_iff.mp hl
    by_cases h : ∃ a ∈ pre, (M a).isSome
    · obtain ⟨a, ha, hlive⟩ := h
      refine .inr (funext fun id => ?_)
      rw [Ledger.applyAll_deletes, Ledger.applyAll_deletes]
      by_cases hid : id ∈ pre
      · rw [if_pos hid, if_pos (hpre.subset hid)]
      · rw [if_neg hid]
        split
        · by_contra hne
          have hid' := mem_live.mpr ⟨‹_›, Option.isSome_iff_ne_none.mpr hne⟩
          have ha' := mem_live.mpr ⟨hpre.subset ha, hlive⟩
          exact hid (Finset.card_le_one.mp hone _ hid' _ ha' ▸ ha)
        · rfl
    · exact .inl (Ledger.applyAll_deletes_of_none fun id hid => by
        simpa using fun hlive => h ⟨id, hid, hlive⟩)
  | [u] =>
    -- One upsert: the deletes before it change nothing.
    rw [hups, List.length_singleton] at hone
    have hzero := Finset.card_eq_zero.mp (Nat.le_zero.mp (Nat.le_of_add_le_add_left hone))
    have hnone : ∀ id ∈ b.deletes, M id = none := fun id hid => by
      by_contra hne
      have := mem_live.mpr ⟨hid, Option.isSome_iff_ne_none.mpr hne⟩
      rw [hzero] at this
      exact absurd this (Finset.notMem_empty _)
    rw [records, batchRecords, hups] at hl ⊢
    rcases List.prefix_concat_iff.mp hl with rfl | hl
    · exact .inr rfl
    · obtain ⟨pre, hpre, rfl⟩ := List.prefix_map_iff.mp hl
      exact .inl (Ledger.applyAll_deletes_of_none fun id hid => hnone id (hpre.subset hid))
  | u :: u' :: us =>
    rw [hups, List.length_cons, List.length_cons] at hone
    omega

/-- **A batch that changes two points** has a state between before and after: the ledger after some
first records of it has other points than either. -/
theorem exists_between (hM : ∀ id, n ≤ id → M id = none) (htwo : 1 < b.changes M) :
    ∃ l, l <+: b.records n ∧ (∃ id, (M.applyAll l id).isSome ≠ (M id).isSome) ∧
      ∃ id, (M.applyAll l id).isSome ≠ (M.applyAll (b.records n) id).isSome := by
  rw [changes] at htwo
  match hups : b.upserts with
  | [] =>
    rw [hups, List.length_nil, Nat.zero_add] at htwo
    obtain ⟨a, ha, c, hc, hac⟩ := Finset.one_lt_card.mp htwo
    obtain ⟨ha, halive⟩ := mem_live.mp ha
    obtain ⟨hc, hclive⟩ := mem_live.mp hc
    obtain ⟨pre, post, hdels, hpre⟩ := List.eq_append_cons_of_mem ha
    have hall : b.records n = b.deletes.map .delete := by
      rw [records, batchRecords, hups, upsertRecords, List.append_nil]
    rw [hall]
    by_cases hcpre : c ∈ pre
    · -- The records before the first delete of `a` have `c` deleted.
      refine ⟨pre.map .delete, (hdels ▸ List.prefix_append _ _ : pre <+: b.deletes).map _, ⟨c, ?_⟩,
        a, ?_⟩
      · rw [Ledger.applyAll_deletes, if_pos hcpre, hclive]
        simp
      · rw [Ledger.applyAll_deletes, Ledger.applyAll_deletes, if_neg hpre, if_pos ha, halive]
        simp
    · -- The first delete of `a` leaves `c`.
      have hc' : c ∉ pre ++ [a] := by simp [hcpre, Ne.symm hac]
      have hpre' : pre ++ [a] <+: b.deletes := by
        rw [hdels, List.prefix_append_right_inj]
        exact List.prefix_append [a] post
      refine ⟨(pre ++ [a]).map .delete, hpre'.map _, ⟨a, ?_⟩, c, ?_⟩
      · rw [Ledger.applyAll_deletes, if_pos (by simp), halive]
        simp
      · rw [Ledger.applyAll_deletes, Ledger.applyAll_deletes, if_neg hc', if_pos hc, hclive]
        simp
  | [u] =>
    rw [hups, List.length_singleton, Nat.lt_add_right_iff_pos, Finset.card_pos] at htwo
    obtain ⟨a, ha⟩ := htwo
    obtain ⟨ha, halive⟩ := mem_live.mp ha
    refine ⟨b.deletes.map .delete, List.prefix_append _ _, ⟨a, ?_⟩, n, ?_⟩
    · rw [Ledger.applyAll_deletes, if_pos ha, halive]
      simp
    · have hall : (M.applyAll (b.records n) n).isSome = true := by
        rw [applyAll_records, Ledger.isSome_applyAll_upserts, hups]
        exact .inl (by simp)
      have hdel : M.applyAll (b.deletes.map .delete) n = none := by
        rw [Ledger.applyAll_deletes, hM n le_rfl, ite_self]
      rw [hall, hdel]
      simp
  | u :: u' :: us =>
    have hdel (id : GlobalId) (hid : n ≤ id) : M.applyAll (b.deletes.map .delete) id = none := by
      rw [Ledger.applyAll_deletes, hM id hid, ite_self]
    have hpre : b.deletes.map .delete ++ upsertRecords n [u] <+: b.records n := by
      rw [records, batchRecords, hups]
      exact (List.prefix_append_right_inj _).mpr (List.prefix_append [_] _)
    have hsome (id : GlobalId) : (M.applyAll
      (b.deletes.map .delete ++ upsertRecords n [u]) id).isSome
        ↔ id = n ∨ (M.applyAll (b.deletes.map .delete) id).isSome := by
      rw [Ledger.applyAll, List.foldl_append]
      exact Ledger.isSome_applyAll_upserts.trans (by simp)
    refine ⟨_, hpre, ⟨n, ?_⟩, n + 1, ?_⟩
    · rw [(hsome n).mpr (.inl rfl), hM n le_rfl]
      simp
    · have hall : (M.applyAll (b.records n) (n + 1)).isSome = true := by
        rw [applyAll_records, Ledger.isSome_applyAll_upserts, hups]
        exact .inl (by simp)
      have hnone : ¬ (M.applyAll (b.deletes.map .delete ++ upsertRecords n [u])
        (n + 1)).isSome := by
        rw [hsome, hdel _ (Nat.le_succ n)]
        simp
      rw [hall]
      exact hnone

end Batch

/-! ## Cut off behind a record -/

/-- What is left when every byte written survives. -/
def Disk.allWritten (d : Disk) : Disk :=
  { d with wals := fun g => (d.wals g).map WalFile.flush }

theorem Disk.survives_allWritten (d : Disk) : d.Survives d.allWritten := by
  refine ⟨rfl, rfl, rfl, rfl, fun g => ?_⟩
  cases hg : d.wals g with
  | none => exact .inl ⟨rfl, by simp [allWritten, hg]⟩
  | some f => exact .inr ⟨f, f.flush, rfl, by simp [allWritten, hg], _, List.prefix_rfl, rfl⟩

/-- **A batch can be cut off behind any of its records**: they are in the log, and the directory
stands for them. -/
theorem World.Durable.exists_torn (h : w.Durable P cfg L) (hb : b.Fits cfg)
    (hfit : ∀ op ∈ b.records w.collection.nextGlobalId, op.Fits P)
    (hl : l <+: b.records w.collection.nextGlobalId) :
    ∃ os d, Node.Step P cfg (.running w) (.crash w b.request os) (.stopped d) ∧
      (w.disk.Reads P → d.Reads P) ∧ d.Known P cfg (l.foldl learn L) (d.allocator P cfg) ∧
      d.standing P cfg = l.foldl (Standing.replay cfg) (w.disk.standing P cfg) := by
  obtain ⟨n, v, ms, es, w', hp, hms, -⟩ := @performs_writeBatch P cfg 0 w b.upserts b.deletes
    b.commit h.idle hb
  have hcall : Performs (World.persistence P cfg) 0 (b.request.call P cfg) w es _ w' :=
    hp.bind_ret rfl
  -- The appends of these records are the first effects of the call.
  have hlogged : l.map (.append w.generation) <+:
      w.logEffects (b.records w.collection.nextGlobalId) :=
    (hl.map _).trans (List.prefix_append _ _)
  obtain ⟨es', hes⟩ : l.map (.append w.generation) <+: es := by
    cases hms with
    | cons hm hrest => exact hlogged.trans (List.prefix_append _ _)
  obtain ⟨os, p, w₁, hst, hw₁⟩ := hcall.exists_steps DurableOp.length_effects_le_one _ _ hes.symm
  have hdisk : w₁.disk = w.disk.performAll P cfg (l.map (.append w.generation)) := hw₁
  have hk : Disk.Keeps P cfg L w.collection.nextGlobalId w.disk w₁.disk := by
    rw [hdisk]
    exact h.keeps (m := .log b.upserts b.deletes) hb trivial hlogged
  obtain ⟨f, hf, hwhole⟩ := h.synced.log
  rw [Disk.performAll_appends, h.synced.generation, hf, Option.map_some] at hdisk
  have hhead : w₁.disk.allWritten.head = w.disk.head := by
    rw [hdisk]
    rfl
  have hfile : w₁.disk.allWritten.wals w₁.disk.allWritten.generation =
      some (l.foldl (WalFile.append P) f).flush := by
    rw [Disk.generation_congr hhead, hdisk]
    simp [Disk.allWritten, Disk.setWal]
  have hreads : w.disk.Reads P → w₁.disk.allWritten.Reads P := fun h => by
    rw [hdisk]
    exact h
  refine ⟨os, _, .crash hst (Disk.survives_allWritten _), hreads, ?_⟩
  refine h.logged (m := .log b.upserts b.deletes) hb (hk.survives (Disk.survives_allWritten _))
    hhead hl ?_
  rw [Disk.records_eq hfile, Disk.records_eq hf, WalFile.records_flush]
  exact hwhole.records_foldl_append fun op hop => hfit op (hl.subset hop)

/-! ## All or none -/

variable (P cfg) in
/-- **The batch is indivisible to recovery**: wherever it is cut off, the next opening shows the
points as they were, or as they are after all of it, if the directory's files decode. -/
def Batch.AllOrNone (b : Batch) (w : World) (M : Ledger) : Prop :=
  ∀ os d, Node.Step P cfg (.running w) (.crash w b.request os) (.stopped d) → d.Reads P →
    d.Reopens P cfg M ∨ d.Reopens P cfg (M.applyAll (b.request.logs cfg w))

/-- A history, with a crash at its end. -/
theorem Runs.reopens_crash (h : Runs P cfg (.stopped .empty) evs (.running w))
    (hreg : ∀ e ∈ evs, e.Regular P cfg) {os : List DurableOp}
    (hs : Node.Step P cfg (.running w) (.crash w b.request os) (.stopped d)) : d.Complete :=
  (h.snoc hs).complete (List.forall_mem_append.mpr ⟨fun e he => (hreg e he).spares,
    List.forall_mem_singleton.mpr (hs.sparesNamed (h.idle trivial) trivial)⟩)

/-- A batch that changes two points can be cut off between them. -/
theorem Batch.not_allOrNone (h : Runs P cfg (.stopped .empty) evs (.running w))
    (hreg : ∀ e ∈ evs, e.Regular P cfg) (hw : w.Durable P cfg L) (hreads : w.disk.Reads P)
    (hb : b.Fits cfg) (hfit : ∀ op ∈ b.records w.collection.nextGlobalId, op.Fits P)
    (htwo : 1 < b.changes ((w.disk.standing P cfg).ledger L)) :
    ¬ b.AllOrNone P cfg w ((w.disk.standing P cfg).ledger L) := by
  have hnext : (w.disk.standing P cfg).next = w.collection.nextGlobalId :=
    (Disk.standing_next _).trans hw.allocator
  have hbound := hw.disk.standing_bounded
  obtain ⟨l, hl, ⟨x, hx⟩, y, hy⟩ := @exists_between b _ w.collection.nextGlobalId
    (fun id hid => hbound.ledger_eq_none (hnext ▸ hid)) htwo
  obtain ⟨os, d, hs, hd, hk, hst⟩ := hw.exists_torn hb hfit hl
  have hnum : Numbered cfg (w.disk.standing P cfg).next l := by
    rw [hnext]
    exact (numbered_batchRecords hb).of_isPrefix hl
  have hd := hd hreads
  have hre := hk.opensAgain hd (h.reopens_crash hreg hs)
  rw [hst, hbound.ledger_learn hnum] at hre
  intro hall
  rcases hall os d hs hd with hM | hM
  · exact hx (hre.isSome_eq hM x)
  · rw [logs_request hb] at hM
    exact hy (hre.isSome_eq hM y)

/-- Stopped before the batch, the next opening shows the points as they were. -/
theorem Runs.reopens_stop (h : Runs P cfg (.stopped .empty) evs (.running w))
    (hreg : ∀ e ∈ evs, e.Regular P cfg) (hw : w.Durable P cfg L) (hreads : w.disk.Reads P)
    (hd : w.disk.Survives d) : d.Reopens P cfg ((w.disk.standing P cfg).ledger L) := by
  obtain ⟨⟨-, hk⟩, hst⟩ := hw.disk.survives hw.synced.settled hd
  rw [← hst]
  exact hk.opensAgain (hreads.survives hd) ((h.snoc (.stop hd)).complete (List.forall_mem_append.mpr
    ⟨fun e he => (hreg e he).spares, List.forall_mem_singleton.mpr trivial⟩))

/-- **A batch, cut off anywhere.**  In every reachable state, the next opening shows all of the
batch or none of it, wherever it is cut off, exactly if the batch is refused or changes one point at
most; `HEAD` and the versions file are to decode. -/
theorem Runs.allOrNone_iff (h : Runs P cfg (.stopped .empty) evs (.running w))
    (hreg : ∀ e ∈ evs, e.Regular P cfg) (hreads : w.disk.Reads P) (b : Batch)
    (hfit : ∀ op ∈ b.request.logs cfg w, op.Fits P) :
    ∃ M, (∀ d, w.disk.Survives d → d.Reopens P cfg M) ∧
      (b.AllOrNone P cfg w M ↔ (b.Fits cfg → b.changes M ≤ 1)) := by
  obtain ⟨L, hw, -⟩ := h.durable hreg
  have hw : w.Durable P cfg L := hw
  refine ⟨(w.disk.standing P cfg).ledger L, fun d hd => h.reopens_stop hreg hw hreads hd,
    fun hall hb => ?_, fun hone os d hs hd => ?_⟩
  · by_contra htwo
    rw [Batch.logs_request hb] at hfit
    exact Batch.not_allOrNone h hreg hw hreads hb hfit (not_le.mp htwo) hall
  · have hcut : (Event.crash w b.request os).Regular P cfg :=
      ⟨hfit, hs.sparesNamed (h.idle trivial) trivial, trivial⟩
    obtain ⟨l, hf⟩ := @Node.Durable.step P cfg L (.running w) _ _ hw hcut hs
    have hl : l <+: b.request.logs cfg w := hf.enters
    have hledger := hf.ledger (n := .running w) hw (.inr id)
    have hd := @Disk.Known.opensAgain P cfg _ _ _ hf.durable.2 hd (h.reopens_crash hreg hs)
    rw [show d.standing P cfg = (Node.stopped d).standing P cfg from rfl, hledger] at hd
    by_cases hb : b.Fits cfg
    · rw [Batch.logs_request hb] at hl ⊢
      rcases Batch.applyAll_of_prefix (hone hb) hl with heq | heq
      · exact .inl (heq ▸ hd)
      · exact .inr (heq ▸ hd)
    · rw [Batch.logs_request_of_not hb, List.prefix_nil] at hl
      subst hl
      exact .inl hd

/-- A collection with one point, running. -/
theorem exists_runs_one : ∃ evs w L,
    Runs Sample.platform (Sample.config none) (.stopped .empty) evs (.running w) ∧
      (∀ e ∈ evs, e.Regular Sample.platform (Sample.config none)) ∧
      w.Durable Sample.platform (Sample.config none) L ∧ w.collection.nextGlobalId = 1 := by
  have h : Node.Leads Sample.platform (Sample.config none) (.stopped .empty)
      [.open, .call (.upsert [([0], none)])] fun evs n =>
        (∀ e ∈ evs, e.Regular Sample.platform (Sample.config none)) ∧
          n.shows 0 ∧ (n.standing Sample.platform (Sample.config none)).next = 1 := by
    decide +kernel
  obtain ⟨evs, n, hr, hreg, hn, hnext⟩ := h.exists_runs
  cases n with
  | stopped d => cases hn
  | running w =>
    obtain ⟨L, hw, -⟩ := hr.durable hreg
    have hw : w.Durable Sample.platform (Sample.config none) L := hw
    exact ⟨evs, w, L, hr, hreg, hw, hw.allocator.symm.trans
      ((Disk.standing_next _).symm.trans hnext)⟩

/-- One upsert, beside a collection with one point. -/
theorem allOrNone_sample : ∃ evs w M,
    Runs Sample.platform (Sample.config none) (.stopped .empty) evs (.running w) ∧
    (∀ d, w.disk.Survives d → d.Reopens Sample.platform (Sample.config none) M) ∧
    Batch.AllOrNone Sample.platform (Sample.config none) ⟨[([1], none)], [], none⟩ w M := by
  obtain ⟨evs, w, L, hr, hreg, -, hnext⟩ := exists_runs_one
  obtain ⟨M, hM, hiff⟩ := hr.allOrNone_iff hreg (Sample.reads _) ⟨[([1], none)], [], none⟩ (by
    rw [Batch.logs_request (by decide), hnext]
    decide +kernel)
  exact ⟨evs, w, M, hr, hM, hiff.mpr fun _ => by simp [Batch.changes]⟩

/-- **A batch of three, torn**: of a delete and two upserts, with a commit, a crash leaves some. -/
theorem batch_torn : ∃ evs w M os d,
    Runs Sample.platform (Sample.config none) (.stopped .empty) evs (.running w) ∧
    (∀ d, w.disk.Survives d → d.Reopens Sample.platform (Sample.config none) M) ∧
    Node.Step Sample.platform (Sample.config none) (.running w)
      (.crash w (.writeBatch [([1], none), ([2], none)] [0] (some (none, none))) os) (.stopped d) ∧
    ¬ d.Reopens Sample.platform (Sample.config none) M ∧
    ¬ d.Reopens Sample.platform (Sample.config none)
      (M.applyAll (Request.logs (Sample.config none) w
      (.writeBatch [([1], none), ([2], none)] [0] (some (none, none))))) := by
  obtain ⟨evs, w, L, hr, hreg, hw, hnext⟩ := exists_runs_one
  have hnot := Batch.not_allOrNone (b := ⟨[([1], none), ([2], none)], [0], some (none, none)⟩)
    hr hreg hw (Sample.reads _) (by decide) (by
      rw [hnext]
      decide +kernel) (Nat.lt_of_lt_of_le Nat.one_lt_two (Nat.le_add_right _ _))
  simp only [Batch.AllOrNone, not_forall, not_or] at hnot
  obtain ⟨os, d, hs, -, hM, hM'⟩ := hnot
  exact ⟨evs, w, _, os, d, hr, fun d hd => hr.reopens_stop hreg hw (Sample.reads _) hd, hs, hM, hM'⟩

end Vecvec
