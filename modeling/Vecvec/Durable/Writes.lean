import Vecvec.Durable.Allocator

/-!
# Durable/Writes — what answered writes add to the log

A write that is answered has appended its records to the open log and flushed it, whatever that file
held before: also behind bytes that no reader gets past.  The ids of its upserts are the allocator's
next, and any records so numbered are those of some writes.
-/

namespace Vecvec

open Machinery

variable {P : Platform} {cfg : CollectionConfig} {w w' w₀ : World}

/-! ## Writes -/

/-- A write: a batch, an upsert or a delete. -/
def Request.IsWrite : Request → Prop
  | .writeBatch .. | .upsert _ | .delete _ => True
  | _ => False

/-- The records an answered request has logged. -/
def Event.logs (cfg : CollectionConfig) : Event → List WalOp
  | .call w r _ => r.logs cfg w
  | _ => []

/-- A write, answered, whose records fit. -/
def Event.IsWrite (P : Platform) (cfg : CollectionConfig) : Event → Prop
  | .call w r _ => r.IsWrite ∧ ∀ op ∈ r.logs cfg w, op.Fits P
  | _ => False

/-- The moves log the records of the request, and do nothing else to the log. -/
inductive Request.LogsFirst (cfg : CollectionConfig) (w : World) (r : Request) : List Move → Prop
  | none (h : r.logs cfg w = []) : LogsFirst cfg w r []
  | log {ups : List (List F32 × Option Payload)} {dels : List GlobalId} {ms : List Move}
      (h : r.logs cfg w = batchRecords w.collection.nextGlobalId ups dels)
      (hms : ∀ m ∈ ms, m.OffLog) : LogsFirst cfg w r (.log ups dels :: ms)

/-- **What a write does**: it logs its records, flushes them, and stays off the log. -/
theorem Request.performs_write {t : ℕ} {r : Request} (hr : r.IsWrite) (hi : w.Idle) :
    ∃ resp ms es w', Performs (World.persistence P cfg) t (r.call P cfg) w es resp w' ∧
      Moves P cfg w ms es w' ∧ r.LogsFirst cfg w ms := by
  cases r with
  | writeBatch ups dels explicit =>
    by_cases hdim : ∀ u ∈ ups, u.1.length = cfg.dim
    · obtain ⟨n, v, ms, es, w', hp, hm, ht⟩ := performs_writeBatch (t := t) hi hdim
      exact ⟨_, _, _, _, hp.bind_ret rfl, hm, .log (if_pos hdim) ht.offLog⟩
    · obtain ⟨e, hp⟩ := performs_writeBatch_error (P := P) (t := t) hdim
      exact ⟨_, _, _, _, hp.bind_ret rfl, .nil w, .none (if_neg hdim)⟩
  | upsert points =>
    by_cases hdim : ∀ u ∈ points, u.1.length = cfg.dim
    · obtain ⟨n, v, ms, es, w', hp, hm, ht⟩ := performs_writeBatch (t := t) hi hdim
      have hu : Performs (World.persistence P cfg) t (Durable.upsert cfg points) w es
        (.ok (List.range' w.collection.nextGlobalId points.length)) w' := hp.bind_ret rfl
      exact ⟨_, _, _, _, hu.bind_ret rfl, hm, .log (if_pos hdim) ht.offLog⟩
    · obtain ⟨e, hp⟩ := performs_writeBatch_error (P := P) (t := t) hdim
      have hu : Performs (World.persistence P cfg) t (Durable.upsert cfg points) w []
        (.error e) w := hp.bind_ret rfl
      exact ⟨_, _, _, _, hu.bind_ret rfl, .nil w, .none (if_neg hdim)⟩
  | delete id =>
    obtain ⟨newly, hp⟩ := @performs_delete P cfg t w id hi
    exact ⟨_, _, _, _, hp.bind_ret rfl, .single (fun _ h => by cases h),
      .log rfl fun _ h => by cases h⟩
  | _ => exact hr.elim

/-! ## The ids of the records -/

theorem numbered_upsertRecords {ups : List (List F32 × Option Payload)} {n : GlobalId}
    (hdim : ∀ u ∈ ups, u.1.length = cfg.dim) : Numbered cfg n (upsertRecords n ups) := by
  induction ups generalizing n with
  | nil => trivial
  | cons u ups ih =>
    exact ⟨rfl, hdim u List.mem_cons_self, ih fun u hu => hdim u (List.mem_cons_of_mem _ hu)⟩

theorem numbered_deletes (ids : List GlobalId) (n : GlobalId) :
    Numbered cfg n (ids.map .delete) := by
  induction ids with
  | nil => trivial
  | cons id ids ih => exact ih

theorem foldl_bump_deletes (ids : List GlobalId) (n : GlobalId) :
    (ids.map .delete).foldl (bump cfg) n = n := by
  induction ids with
  | nil => rfl
  | cons id ids ih => exact ih

theorem foldl_bump_upsertRecords {ups : List (List F32 × Option Payload)} {n : GlobalId}
    (hdim : ∀ u ∈ ups, u.1.length = cfg.dim) :
    (upsertRecords n ups).foldl (bump cfg) n = n + ups.length := by
  induction ups generalizing n with
  | nil => rfl
  | cons u ups ih =>
    rw [upsertRecords, List.foldl_cons, bump_upsert (hdim u List.mem_cons_self),
      ih fun u hu => hdim u (List.mem_cons_of_mem _ hu), List.length_cons, Nat.add_right_comm,
      Nat.add_assoc]

/-- The records of a batch take the allocator's next ids. -/
theorem numbered_batchRecords {ups : List (List F32 × Option Payload)} {dels : List GlobalId}
    {n : GlobalId} (hdim : ∀ u ∈ ups, u.1.length = cfg.dim) :
    Numbered cfg n (batchRecords n ups dels) :=
  numbered_append.mpr ⟨numbered_deletes dels n, by
    rw [foldl_bump_deletes]
    exact numbered_upsertRecords hdim⟩

/-! ## Behind a file -/

variable (P cfg) in
/-- Since `w₀`, whose log file was `f₀`, the records `ops` have been appended to it and flushed, and
nothing else was done to the log. -/
structure World.Behind (w₀ : World) (f₀ : WalFile) (ops : List WalOp) (w : World) : Prop where
  /-- No call is in progress. -/
  idle : w.Idle
  /-- The same log is open. -/
  generation : w.generation = w₀.generation
  /-- The same `HEAD` is in place. -/
  head : w.disk.head = w₀.disk.head
  /-- The records are in the file, flushed; if there are none it is as it was. -/
  log : ∃ f, w.disk.wals w₀.generation = some f ∧ f.bytes = f₀.bytes ++ walFrames P ops ∧
    (f = f₀ ∧ ops = [] ∨ f.pending = [])
  /-- Their ids are the allocator's. -/
  numbered : Numbered cfg w₀.collection.nextGlobalId ops
  /-- The allocator has passed them. -/
  next : w.collection.nextGlobalId = ops.foldl (bump cfg) w₀.collection.nextGlobalId

variable {f₀ : WalFile} {ops : List WalOp} {ms : List Move} {es : List DiskEffect}

theorem World.behind_refl (hi : w₀.Idle) (hf : w₀.disk.wals w₀.generation = some f₀) :
    w₀.Behind P cfg f₀ [] w₀ :=
  ⟨hi, rfl, rfl, ⟨f₀, hf, by simp, .inl ⟨rfl, rfl⟩⟩, trivial, rfl⟩

/-- A move off the log hands out no id. -/
theorem Move.nextGlobalId_offLog {m : Move} (hm : m.OffLog) :
    (m.result P cfg w).collection.nextGlobalId = w.collection.nextGlobalId := by
  cases m with
  | log | checkpoint => exact hm.elim
  | commit => exact Collection.sealNow_nextGlobalId
  | restore v m => exact @Collection.sealNow_nextGlobalId (w.collection.repoint m)
  | point | compact | gc | tick => rfl

theorem World.Behind.offLog {m : Move} (h : w₀.Behind P cfg f₀ ops w) (hm : m.OffLog) :
    w₀.Behind P cfg f₀ ops (m.result P cfg w) := by
  obtain ⟨hh, hw⟩ := Move.result_offLog (P := P) (w := w) hm
  exact ⟨Move.idle h.idle m, (Move.result_generation hm).trans h.generation, hh.trans h.head,
    hw ▸ h.log, h.numbered, (Move.nextGlobalId_offLog hm).trans h.next⟩

theorem World.Behind.moves_offLog (h : w₀.Behind P cfg f₀ ops w) (hms : Moves P cfg w ms es w')
    (hm : ∀ m ∈ ms, m.OffLog) : w₀.Behind P cfg f₀ ops w' := by
  induction hms with
  | nil => exact h
  | cons _ _ ih =>
    exact ih (h.offLog (hm _ List.mem_cons_self)) fun m hm' => hm m (List.mem_cons_of_mem _ hm')

/-- A batch, behind the records before it. -/
theorem World.Behind.logged (h : w₀.Behind P cfg f₀ ops w)
    {ups : List (List F32 × Option Payload)} {dels : List GlobalId}
    (hdim : ∀ u ∈ ups, u.1.length = cfg.dim) :
    w₀.Behind P cfg f₀ (ops ++ batchRecords w.collection.nextGlobalId ups dels)
      ((Move.log ups dels).result P cfg w) := by
  obtain ⟨f, hf, hb, -⟩ := h.log
  have hdisk : ((Move.log ups dels).result P cfg w).disk = w.disk.setWal w₀.generation
      (some
        ((batchRecords w.collection.nextGlobalId ups dels).foldl (WalFile.append P) f).flush) := by
    rw [Move.result, World.logged, World.logEffects, h.generation, Disk.performAll_log, hf,
      Option.map_some]
  refine ⟨Move.idle h.idle _, h.generation, ?_, ?_, numbered_append.mpr ⟨h.numbered, ?_⟩, ?_⟩
  · rw [hdisk]
    exact h.head
  · rw [hdisk]
    refine ⟨_, (Disk.setWal_apply ..).trans (if_pos rfl), ?_, .inr rfl⟩
    rw [WalFile.bytes_flush, WalFile.bytes_foldl_append, hb, walFrames_append, List.append_assoc]
  · rw [← h.next]
    exact numbered_batchRecords hdim
  · rw [List.foldl_append, ← h.next]
    exact Collection.foldl_replay_nextGlobalId _ _

/-- A write, answered. -/
theorem World.Behind.write (h : w₀.Behind P cfg f₀ ops w) {r : Request}
    (hms : Moves P cfg w ms es w') (hl : r.LogsFirst cfg w ms) :
    w₀.Behind P cfg f₀ (ops ++ r.logs cfg w) w' := by
  cases hl with
  | none hr =>
    cases hms
    rwa [hr, List.append_nil]
  | log hr hoff =>
    cases hms with
    | cons hm rest =>
      rw [hr]
      exact (h.logged hm).moves_offLog rest hoff

/-- **A run of writes** appends their records behind the file, in order. -/
theorem Runs.behind {evs : List Event} {n : Node} (h : Runs P cfg (.running w₀) evs n)
    (hi : w₀.Idle) (hf : w₀.disk.wals w₀.generation = some f₀)
    (hevs : ∀ e ∈ evs, e.IsWrite P cfg) :
    ∃ w, n = .running w ∧ w₀.Behind P cfg f₀ (evs.flatMap (Event.logs cfg)) w := by
  refine @Runs.invariant_past P cfg (fun evs n => ∃ w, n = .running w ∧
    w₀.Behind P cfg f₀ (evs.flatMap (Event.logs cfg)) w) (fun e => e.IsWrite P cfg) ?_ _ _ _ h
    ⟨w₀, rfl, World.behind_refl hi hf⟩ hevs
  rintro evs n e n' ⟨w, rfl, hw⟩ he hs
  cases hs with
  | @call _ w' r resp hr =>
    obtain ⟨resp', ms, es, w'', hp, hms, hl⟩ :=
      Request.performs_write (P := P) (t := 0) he.1 hw.idle
    obtain ⟨rfl, rfl⟩ := hp.of_run hr
    refine ⟨w', rfl, ?_⟩
    rw [List.flatMap_append, List.flatMap_singleton]
    exact hw.write hms hl
  | crash | stop => exact he.elim

/-- One record more, if its id is the allocator's. -/
theorem exists_write (hi : w.Idle) (hf : w.disk.wals w.generation = some f₀) {op : WalOp}
    (hn : Numbered cfg w.collection.nextGlobalId [op]) (hop : op.Fits P) :
    ∃ e w', Node.Step P cfg (.running w) e (.running w') ∧ e.IsWrite P cfg ∧
      e.logs cfg = [op] ∧ w.Behind P cfg f₀ [op] w' := by
  obtain ⟨r, hr, hlogs⟩ : ∃ r : Request, r.IsWrite ∧ r.logs cfg w = [op] := by
    cases op with
    | delete id => exact ⟨.delete id, trivial, rfl⟩
    | upsert id v p =>
      obtain ⟨rfl, hv, -⟩ := hn
      exact ⟨.upsert [(v, p)], trivial, if_pos (by simpa using hv)⟩
  obtain ⟨resp, ms, es, w', hp, hms, hl⟩ := Request.performs_write (P := P) (t := 0) hr hi
  refine ⟨.call w r resp, w', .call hp.run, ⟨hr, by simpa [hlogs] using hop⟩, hlogs, ?_⟩
  have hb := (World.behind_refl hi hf).write hms hl
  rwa [hlogs] at hb

/-- **Any records that are numbered so are logged by some run of writes.** -/
theorem exists_writes {ops : List WalOp} (hi : w.Idle) (hf : w.disk.wals w.generation = some f₀)
    (hn : Numbered cfg w.collection.nextGlobalId ops) (hops : ∀ op ∈ ops, op.Fits P) :
    ∃ evs w', Runs P cfg (.running w) evs (.running w') ∧ (∀ e ∈ evs, e.IsWrite P cfg) ∧
      evs.flatMap (Event.logs cfg) = ops := by
  induction ops generalizing w f₀ with
  | nil => exact ⟨[], w, .nil _, by simp, rfl⟩
  | cons op ops ih =>
    obtain ⟨hone, hn⟩ := numbered_cons.mp hn
    obtain ⟨e, w₁, hs, he, hlogs, hb⟩ := exists_write hi hf hone (hops op List.mem_cons_self)
    obtain ⟨f₁, hf₁, -⟩ := hb.log
    obtain ⟨evs, w', h, hevs, hrest⟩ := ih hb.idle (hb.generation ▸ hf₁)
      (by rw [hb.next]; exact hn) fun o ho => hops o (List.mem_cons_of_mem _ ho)
    refine ⟨e :: evs, w', .cons hs h, List.forall_mem_cons.mpr ⟨he, hevs⟩, ?_⟩
    rw [List.flatMap_cons, hlogs, hrest]
    rfl

/-- What a crash leaves behind a run of writes: the file with their records — or, if there are none,
what it leaves of the file. -/
theorem World.Behind.survives {d : Disk} (h : w₀.Behind P cfg f₀ ops w)
    (hg : w₀.generation = w₀.disk.generation) (hd : w.disk.Survives d) :
    d.head = w₀.disk.head ∧ ∃ f, d.wals d.generation = some f ∧
      (ops = [] ∧ f₀.Survives f ∨ f.bytes = f₀.bytes ++ walFrames P ops) := by
  obtain ⟨-, hh, -, -, hw⟩ := hd
  have hhead : d.head = w₀.disk.head := hh.trans h.head
  refine ⟨hhead, ?_⟩
  rw [Disk.generation_congr hhead, ← hg]
  obtain ⟨f, hf, hb, hor⟩ := h.log
  rcases hw w₀.generation with ⟨hn, -⟩ | ⟨f₁, f', hf₁, hf', hs⟩
  · rw [hf] at hn
    cases hn
  · obtain rfl := Option.some.inj (hf.symm.trans hf₁)
    refine ⟨f', hf', ?_⟩
    rcases hor with ⟨rfl, hops⟩ | hp
    · exact .inl ⟨hops, hs⟩
    · rw [WalFile.survives_of_flushed hp hs]
      exact .inr hb

end Vecvec
