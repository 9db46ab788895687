import Vecvec.Durable.Entries

/-!
# Durable/Acked — what a restart shows

A client is answered once the records of its write are flushed.  Whatever stops the process, and
however often, the next opening shows the points acknowledged, and of a request cut off the points
of some first records of it (`Runs.shows_acked`) — as long as every record fits its header, no
version is restored and none is collected.
-/

namespace Vecvec

open Machinery

variable {P : Platform} {cfg : CollectionConfig} {w w' : World} {m : Move} {ms : List Move}
  {es : List DiskEffect} {n n' : Node} {e : Event} {evs : List Event} {d : Disk}

/-! ## Requests that go forward -/

/-- The request neither restores a version nor collects any. -/
def Request.Forward : Request → Prop
  | .restore _ | .gc _ => False
  | _ => True

/-- The event is a request, answered or cut off, that goes forward, or has to do with a restart. -/
def Event.Forward : Event → Prop
  | .call _ r _ | .crash _ r _ => r.Forward
  | _ => True

instance : DecidablePred Request.Forward := fun r => by
  unfold Request.Forward
  split <;> infer_instance

instance : DecidablePred Event.Forward := fun e => by
  unfold Event.Forward
  split <;> infer_instance

theorem Event.Forward.not_restores (h : e.Forward) : ¬ e.Restores := by
  intro hr
  unfold Event.Restores at hr
  split at hr
  exacts [hr, h, hr]

/-- Only a collection pass deletes segment files. -/
theorem Move.removeSegment_notMem (hm : ¬ m.IsGc) (id : SegmentId) :
    .removeSegment id ∉ m.effects P cfg w := by
  cases m with
  | gc => exact absurd trivial hm
  | _ => simp [Move.effects, World.logEffects, World.persistEffects, World.checkpointEffects]

theorem Moves.removeSegment_notMem (h : Moves P cfg w ms es w') (hms : ∀ m ∈ ms, ¬ m.IsGc)
    (id : SegmentId) : .removeSegment id ∉ es := by
  induction h with
  | nil => exact List.not_mem_nil
  | cons _ _ ih =>
    obtain ⟨hm, hms⟩ := List.forall_mem_cons.mp hms
    exact List.not_mem_append (Move.removeSegment_notMem hm id) (ih hms)

/-- **A request that goes forward** spares the segment files there are, cut off or not. -/
theorem Node.Step.sparesNamed (hs : Node.Step P cfg n e n') (hn : n.Idle) (he : e.Forward) :
    e.SparesNamed := by
  cases hs with
  | @call w w' r resp hr =>
    cases r with
    | gc => exact he.elim
    | _ => exact fun id hid => absurd hid List.not_mem_nil
  | @crash w w' r os p d hst hd =>
    intro hos
    obtain ⟨o, ho, hrem⟩ := List.any_eq_true.mp hos
    obtain ⟨d, resp, ms, es, es', w', -, hms, hmk, -, -, hmem⟩ :=
      (Node.Step.crash hst hd).of_crash hn
    obtain ⟨s, hs⟩ := hmem o ho
    cases o with
    | removeSegment id =>
      refine absurd (List.mem_append_left es' (hs _ List.mem_cons_self))
        (hms.removeSegment_notMem (fun m hm hgc => ?_) id)
      rcases hmk.kinds with ⟨rules, rfl, -⟩ | ⟨v, m', rfl, -⟩ | hplain
      exacts [he, he, (hplain m hm).1 hgc]
    | _ => cases hrem
  | stop | opened | openCrash => trivial

theorem Event.Forward.placed (h : e.Forward) : e.Placed := by
  unfold Event.Placed
  split
  exacts [h.elim, trivial]

/-- **Histories that go forward are regular**, if their records fit. -/
theorem Runs.regular (h : Runs P cfg n evs n') (hn : n.Idle) (hforward : ∀ e ∈ evs, e.Forward)
    (hfit : ∀ e ∈ evs, e.Fits P cfg) : ∀ e ∈ evs, e.Regular P cfg := by
  induction h with
  | nil => exact fun e he => absurd he List.not_mem_nil
  | snoc hr hs ih =>
    obtain ⟨hforward, he⟩ := List.forall_mem_append.mp hforward
    obtain ⟨hfit, hefit⟩ := List.forall_mem_append.mp hfit
    rw [List.forall_mem_singleton] at he hefit
    exact List.forall_mem_append.mpr ⟨ih hforward hfit, List.forall_mem_singleton.mpr
      ⟨hefit, hs.sparesNamed (hr.idle hn) he, he.placed⟩⟩

/-! ## What is shown -/

/-- **A restart shows what was acknowledged.**  After any history of writes, commits, tags,
branches, checkpoints, compactions, crashes between any two effects and restarts, whose records fit,
the directory's `HEAD` and versions file being such as decode: opening the directory succeeds, and
the live points are those of the answered requests' records, in order, and of some first records of
each request that was cut off. -/
theorem Runs.shows_acked (hidem : ∀ v, P.l2Normalize (P.l2Normalize v) = P.l2Normalize v)
    (h : Runs P cfg (.stopped .empty) evs (.stopped d)) (hforward : ∀ e ∈ evs, e.Forward)
    (hfit : ∀ e ∈ evs, e.Fits P cfg) (hreads : d.Reads P) (clock : ℕ → ℕ) :
    ∃ M w, Acknowledged cfg (fun _ => none) evs M ∧
      run (World.step P cfg) 0 (Durable.openCollection cfg) (.boot d cfg .sync clock) =
        some (.ok (), w) ∧
      w.collection.liveMap = fun id => (M id).map fun a => (cfg.metric.stored P a.1, a.2) := by
  have hreg := h.regular trivial hforward hfit
  obtain ⟨L, hd, -, hack⟩ := h.durable hreg
  have hcomplete := h.complete fun e he => (hreg e he).spares
  obtain ⟨w, hw, hstands⟩ := Disk.Known.opensAgain hd.2 hreads hcomplete clock
  exact ⟨_, w, hack fun e he => (hforward e he).not_restores, hw,
    hstands.liveMap_eq (Metric.stored_stored hidem _)⟩

/-- A batch is cut off before it is flushed, a checkpoint before `HEAD` is swung. -/
theorem shows_acked_sample : ∃ evs d M w,
    Runs Sample.platform (Sample.config none) (.stopped .empty) evs (.stopped d) ∧
    Acknowledged (Sample.config none) (fun _ => none) evs M ∧
    run (World.step Sample.platform (Sample.config none)) 0
      (Durable.openCollection (Sample.config none))
      (.boot d (Sample.config none) .sync fun _ => 0) = some (.ok (), w) ∧
    w.collection.liveMap =
      fun id => (M id).map fun a => ((Sample.config none).metric.stored Sample.platform
        a.1, a.2) := by
  obtain ⟨evs, d, h, hforward, hfit⟩ : ∃ evs d,
      Runs Sample.platform (Sample.config none) (.stopped .empty) evs (.stopped d) ∧
        (∀ e ∈ evs, e.Forward) ∧ ∀ e ∈ evs, e.Fits Sample.platform (Sample.config none) := by
    refine @Ends.exists_runs _ _ [.open, .call (.upsert [([0], none), ([1], none)]),
      .call (.commit none none), .call (.delete 0), .crash (.upsert [([2], none)]) 3, .open,
      .call (.upsert [([3], none)]), .call (.commit none none), .call .compact,
      .crash .checkpoint 9, .open, .call (.upsert [([4], none)]), .stop] _ ?_
    decide +kernel
  obtain ⟨M, w, hack, hopen, hlive⟩ := h.shows_acked (fun _ => rfl) hforward hfit
    (Sample.reads d) fun _ => 0
  exact ⟨evs, d, M, w, h, hack, hopen, hlive⟩

/-- **An acknowledged point is gone**: its record is as long as its header cannot say. -/
theorem acked_lost : ∃ evs d,
    Runs Sample.platform (Sample.config none) (.stopped .empty) evs (.stopped d) ∧
    (∀ e ∈ evs, e.Forward) ∧ ∀ clock, ¬ ∃ M w,
      Acknowledged (Sample.config none) (fun _ => none) evs M ∧
      run (World.step Sample.platform (Sample.config none)) 0
        (Durable.openCollection (Sample.config none))
        (.boot d (Sample.config none) .sync clock) = some (.ok (), w) ∧
      w.collection.liveMap = fun id =>
        (M id).map fun a => ((Sample.config none).metric.stored Sample.platform a.1, a.2) := by
  obtain ⟨w₀, w₁, d, points, hopen, hcall, hstop, ⟨payload, hlogs⟩, hh, hv, hr⟩ := exists_lost
  refine ⟨_, d, .cons hopen (.cons hcall (.cons hstop (.nil _))), by simp [Event.Forward,
    Request.Forward], ?_⟩
  rintro clock ⟨M, w, hack, hrun, hlive⟩
  obtain ⟨M₁, l, hack, rfl, rfl⟩ := (@acknowledged_snoc _ [_, _] _ _ _).mp hack
  obtain ⟨M₂, l, -, rfl, rfl⟩ := (@acknowledged_snoc _ [_] _ _ _).mp hack
  -- The ledger has the point, and the directory stands for nothing.
  have hsome : M₂.applyAll ((Event.call w₀ (.upsert points) (.ids [0])).acked
      (Sample.config none)) 0 = some ([0], payload) := by
    rw [show (Event.call w₀ (.upsert points) (.ids [0])).acked (Sample.config none) = _ from hlogs]
    exact Function.update_self 0 _ M₂
  have hrec := @recover_bare Sample.platform (Sample.config none) d hh hv hr
  have hboot := (@performs_open Sample.platform (Sample.config none) 0 d .sync clock _ hrec).run
  rw [hrun] at hboot
  cases hboot
  have hnone : (d.base []).liveMap 0 = none := by
    unfold Collection.liveMap
    split <;> rfl
  have hzero := hnone.symm.trans (congrFun hlive 0)
  rw [hsome] at hzero
  cases hzero

end Vecvec
