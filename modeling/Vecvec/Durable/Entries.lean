import Vecvec.Durable.Ledger

/-!
# Durable/Entries — what each event enters in the directory's ledger

An answered request enters its records, one that is cut off a prefix of them, and nothing else
enters any: that is what reopening the directory shows, as long as the collection and its directory
agree — they do unless a version was restored since it was opened or last checkpointed.
-/

namespace Vecvec

open Machinery

variable {P : Platform} {cfg : CollectionConfig} {w w' : World} {m : Move} {ms ms' : List Move}
  {es es' : List DiskEffect} {L : GlobalId → List F32} {n : GlobalId} {d : Disk} {l : List WalOp}

/-! ## The moves of a request -/

variable (P cfg) in
/-- The records the moves log. -/
def logsOf : World → List Move → List WalOp
  | _, [] => []
  | w, m :: ms => m.logs w ++ logsOf (m.result P cfg w) ms

variable (P cfg) in
/-- The moves spare the files `HEAD` names, restore versions whose segment ids have been given out,
and log records that fit. -/
def Sparing : World → List Move → Prop
  | _, [] => True
  | w, m :: ms => m.SparesNamed w ∧ m.Placed w ∧ (∀ op ∈ m.logs w, op.Fits P) ∧
      Sparing (m.result P cfg w) ms

/-- The move is a restore. -/
def Move.IsRestore : Move → Prop
  | .restore .. => True
  | _ => False

/-- The move is a collection pass. -/
def Move.IsGc : Move → Prop
  | .gc _ => True
  | _ => False

/-- Only a restore changes what a collection stands for otherwise than by its records. -/
theorem Move.standing_result (hm : ¬ m.IsRestore) : (m.result P cfg w).collection.standing =
    (m.logs w).foldl (Standing.replay cfg) w.collection.standing := by
  cases m with
  | log => exact Collection.standing_foldl_replay _ _
  | commit => exact Collection.standing_commitNow
  | compact => exact Collection.standing_compactNow
  | checkpoint => exact Collection.standing_sealNow
  | restore => exact absurd trivial hm
  | point | gc | tick => rfl

/-- What some moves do: their records are learned, and entered in memory unless a version is
restored, on disk unless a checkpoint is made; and if the two agreed, they still do. -/
structure Entered (P : Platform) (cfg : CollectionConfig) (L : GlobalId → List F32) (w : World)
    (ms : List Move) (w' : World) : Prop where
  /-- The end stands for known points. -/
  durable : w'.Durable P cfg ((logsOf P cfg w ms).foldl learn L)
  /-- The ids of the records are the allocator's. -/
  numbered : Numbered cfg w.collection.nextGlobalId (logsOf P cfg w ms)
  /-- The allocator passes them. -/
  next : w'.collection.nextGlobalId =
    (logsOf P cfg w ms).foldl (bump cfg) w.collection.nextGlobalId
  /-- On disk. -/
  disk : .checkpoint ∉ ms → w'.disk.standing P cfg =
    (logsOf P cfg w ms).foldl (Standing.replay cfg) (w.disk.standing P cfg)
  /-- In memory. -/
  memory : (∀ m ∈ ms, ¬ m.IsRestore) → w'.collection.standing =
    (logsOf P cfg w ms).foldl (Standing.replay cfg) w.collection.standing
  /-- Agreement is kept. -/
  agrees : (∀ m ∈ ms, ¬ m.IsRestore) → w.disk.standing P cfg = w.collection.standing →
    w'.disk.standing P cfg = w'.collection.standing

/-- One move. -/
theorem World.Durable.entered (h : w.Durable P cfg L) (hm : m.Enabled cfg w)
    (ht : m.SparesNamed w) (hp : m.Placed w) (hfit : ∀ op ∈ m.logs w, op.Fits P) :
    (m.result P cfg w).Durable P cfg ((m.logs w).foldl learn L) ∧
      (m ≠ .checkpoint → (m.result P cfg w).disk.standing P cfg =
        (m.logs w).foldl (Standing.replay cfg) (w.disk.standing P cfg)) ∧
      (¬ m.IsRestore → w.disk.standing P cfg = w.collection.standing →
        (m.result P cfg w).disk.standing P cfg = (m.result P cfg w).collection.standing) := by
  by_cases hck : m = .checkpoint
  · subst hck
    obtain ⟨hd, hs⟩ := h.checkpoint
    exact ⟨hd, fun hn => absurd rfl hn, fun hr _ => hs.trans (Move.standing_result hr).symm⟩
  · obtain ⟨hd, hs⟩ := h.move hm ht hp hfit hck
    refine ⟨hd, fun _ => hs, fun hr ha => ?_⟩
    rw [hs, ha, Move.standing_result hr]

/-- **The run lemma**: what the moves of a request enter. -/
theorem Moves.entered (h : Moves P cfg w ms es w') (hw : w.Durable P cfg L)
    (hs : Sparing P cfg w ms) : Entered P cfg L w ms w' := by
  induction h generalizing L with
  | nil w => exact ⟨hw, trivial, rfl, fun _ => rfl, fun _ => rfl, fun _ ha => ha⟩
  | @cons w w' m ms es hm hrest ih =>
    obtain ⟨hspare, hplaced, hfit, hs⟩ := hs
    obtain ⟨hd, hdisk, hagree⟩ := hw.entered hm hspare hplaced hfit
    obtain ⟨hd', hn', hnext, hdisk', hmem', hagree'⟩ := ih hd hs
    rw [hw.nextGlobalId_result hm hspare] at hn' hnext
    refine ⟨?_, numbered_append.mpr ⟨Move.numbered_logs hm, hn'⟩, ?_, fun hck => ?_, fun hr => ?_,
      fun hr ha => ?_⟩
    · rw [logsOf, List.foldl_append]
      exact hd'
    · rw [logsOf, List.foldl_append]
      exact hnext
    · obtain ⟨hne, hck⟩ := not_or.mp (mt List.mem_cons.mpr hck)
      rw [hdisk' hck, hdisk (Ne.symm hne), logsOf, List.foldl_append]
    · obtain ⟨hm', hr⟩ := List.forall_mem_cons.mp hr
      rw [hmem' hr, Move.standing_result hm', logsOf, List.foldl_append]
    · obtain ⟨hm', hr⟩ := List.forall_mem_cons.mp hr
      exact hagree' hr (hagree hm' ha)

/-- Plain moves: neither collection passes nor restores. -/
theorem sparing_of_plain (hfit : Fitting P w ms) (hplain : ∀ m ∈ ms, ¬ m.IsGc ∧ ¬ m.IsRestore) :
    Sparing P cfg w ms := by
  induction ms generalizing w with
  | nil => trivial
  | cons m ms ih =>
    obtain ⟨hm, hplain⟩ := List.forall_mem_cons.mp hplain
    refine ⟨?_, ?_, hfit.1, ih (hfit.tail _) hplain⟩
    · cases m with
      | gc => exact absurd trivial hm.1
      | _ => trivial
    · cases m with
      | restore => exact absurd trivial hm.2
      | _ => trivial

/-- **What a request makes**: a collection pass, a restore, or plain moves. -/
theorem Request.Makes.kinds {r : Request} {resp : Response} (h : r.Makes w resp ms) :
    (∃ rules, r = .gc rules ∧ ms = [.gc rules]) ∨ (∃ v m, r = .restore v ∧ ms = [.restore v m]) ∨
      ∀ m ∈ ms, ¬ m.IsGc ∧ ¬ m.IsRestore := by
  cases h with
  | gc rules ids => exact .inl ⟨rules, rfl, rfl⟩
  | restore v m => exact .inr (.inl ⟨v, m, rfl, rfl⟩)
  | batch ht =>
    obtain ⟨trigger, ticks, rfl | ⟨tr, message, tag, rfl⟩⟩ := ht.eq_or <;>
      exact .inr (.inr (by simp [Move.IsGc, Move.IsRestore]))
  | upsert ht =>
    obtain ⟨trigger, ticks, rfl | ⟨tr, message, tag, rfl⟩⟩ := ht.eq_or <;>
      exact .inr (.inr (by simp [Move.IsGc, Move.IsRestore]))
  | _ => exact .inr (.inr (by simp [Move.IsGc, Move.IsRestore]))

/-- The records an answered request has entered: none, if it failed. -/
def Event.acked (cfg : CollectionConfig) : Event → List WalOp
  | .call _ _ (.failed _) => []
  | .call w r _ => r.logs cfg w
  | _ => []

theorem BatchTail.logsOf {next : VersionId} {fires : Bool}
    {commit : Option (Option String × Option String)} {v : Option VersionId}
    (ht : BatchTail next fires commit v ms) : Vecvec.logsOf P cfg w ms = [] := by
  obtain ⟨trigger, ticks, rfl | ⟨tr, message, tag, rfl⟩⟩ := ht.eq_or <;> rfl

/-- **The moves of an answered request** log its records. -/
theorem Request.Makes.logsOf {r : Request} {resp : Response} (h : r.Makes w resp ms)
    (hms : Moves P cfg w ms es w') : Vecvec.logsOf P cfg w ms =
      (Event.call w r resp).acked cfg := by
  cases h with
  | failed | compactNone | createTag | createBranch | checkpoint | compact | gc | commit
  | restore | delete => rfl
  | batch ht =>
    cases hms with
    | cons hm _ =>
      rw [Vecvec.logsOf, ht.logsOf, List.append_nil]
      exact (if_pos hm).symm
  | upsert ht =>
    cases hms with
    | cons hm _ =>
      rw [Vecvec.logsOf, ht.logsOf, List.append_nil]
      exact (if_pos hm).symm

theorem Event.acked_isPrefix (w : World) (r : Request) (resp : Response) :
    (Event.call w r resp).acked cfg <+: r.logs cfg w := by
  cases resp with
  | failed => exact List.nil_prefix
  | _ => exact List.prefix_rfl

/-! ## Events -/

/-- A version is restored only if its segment ids have been given out. -/
def Event.Placed : Event → Prop
  | .call w (.restore v) _ => ∀ m, w.collection.versions.get v = some m →
      ∀ id ∈ m.segmentIds, id < w.collection.nextSegmentId
  | _ => True

variable (P cfg) in
/-- Its records fit, it deletes no segment file that is named, and it restores no version with a
segment id that has not been given out. -/
structure Event.Regular (e : Event) : Prop where
  /-- The records fit. -/
  fits : e.Fits P cfg
  /-- No segment file that is named is deleted. -/
  spares : e.SparesNamed
  /-- The version restored has segment ids that have been given out. -/
  placed : e.Placed

/-- The request makes a checkpoint. -/
def Request.Checkpoints : Request → Prop
  | .checkpoint | .compact => True
  | _ => False

/-- The request made is to make a checkpoint. -/
def Event.Checkpoints : Event → Prop
  | .call _ r _ | .crash _ r _ => r.Checkpoints
  | _ => False

/-- A version is restored. -/
def Event.Restores : Event → Prop
  | .call _ (.restore _) (.failed _) => False
  | .call _ (.restore _) _ => True
  | _ => False

/-- A checkpoint is made, or a directory opened. -/
def Event.Settles : Event → Prop
  | .call _ .checkpoint .done => True
  | .call _ .compact (.compacted (some _)) => True
  | .opened _ => True
  | _ => False

instance : DecidablePred Event.Placed := fun e => by
  unfold Event.Placed
  split
  · rename_i w v _
    exact inferInstanceAs (Decidable (∀ m ∈ w.collection.versions.get v,
      ∀ id ∈ m.segmentIds, id < w.collection.nextSegmentId))
  · exact .isTrue trivial

instance [DecidablePred (WalOp.Fits P)] (e : Event) : Decidable (e.Regular P cfg) :=
  decidable_of_iff (e.Fits P cfg ∧ e.SparesNamed ∧ e.Placed)
    ⟨fun h => ⟨h.1, h.2.1, h.2.2⟩, fun h => ⟨h.fits, h.spares, h.placed⟩⟩

instance : DecidablePred Event.Restores := fun e => by
  unfold Event.Restores
  split <;> infer_instance

/-- A version was restored, and since then the collection was neither checkpointed nor opened. -/
def Unsettled (evs : List Event) : Prop :=
  evs.foldl (fun b e => (b ∨ e.Restores) ∧ ¬ e.Settles) False

/-- The records an event enters: those of an answered request, or some first ones of a request cut
off. -/
def Event.Enters (cfg : CollectionConfig) (l : List WalOp) : Event → Prop
  | .call w r resp => l = (Event.call w r resp).acked cfg
  | .crash w r _ => l <+: r.logs cfg w
  | _ => l = []

theorem Request.Makes.checkpoints {r : Request} {resp : Response} (h : r.Makes w resp ms)
    (hck : .checkpoint ∈ ms) : r.Checkpoints := by
  cases h with
  | checkpoint | compact => trivial
  | batch ht =>
    obtain ⟨trigger, ticks, rfl | ⟨tr, message, tag, rfl⟩⟩ := ht.eq_or <;> simp at hck
  | upsert ht =>
    obtain ⟨trigger, ticks, rfl | ⟨tr, message, tag, rfl⟩⟩ := ht.eq_or <;> simp at hck
  | _ => simp at hck

theorem Request.Makes.restores {r : Request} {resp : Response} (h : r.Makes w resp ms)
    (hm : m ∈ ms) (hr : m.IsRestore) : (Event.call w r resp).Restores := by
  rcases h.kinds with ⟨rules, rfl, rfl⟩ | ⟨v, m', rfl, rfl⟩ | hplain
  · rw [List.mem_singleton.mp hm] at hr
    exact hr.elim
  · cases h with
    | restore => trivial
  · exact absurd hr (hplain m hm).2

/-- A request that settles the collection ends in a checkpoint. -/
theorem Request.Makes.settles {r : Request} {resp : Response} (h : r.Makes w resp ms)
    (he : (Event.call w r resp).Settles) : ∃ ms', ms = ms' ++ [.checkpoint] := by
  cases h with
  | checkpoint => exact ⟨[], rfl⟩
  | compact id => exact ⟨[.compact], rfl⟩
  | failed r e => cases r <;> exact he.elim
  | _ => exact he.elim

/-- After a checkpoint, the two agree. -/
theorem Moves.agrees (h : Moves P cfg w (ms ++ [.checkpoint]) es w') (hw : w.Durable P cfg L)
    (hs : Sparing P cfg w (ms ++ [.checkpoint])) :
    w'.disk.standing P cfg = w'.collection.standing := by
  induction ms generalizing w L es with
  | nil =>
    cases h with
    | cons hm hrest =>
      cases hrest
      exact (hw.checkpoint.2).trans (Move.standing_result (m := .checkpoint) (by exact id)).symm
  | cons m ms ih =>
    cases h with
    | cons hm hrest =>
      obtain ⟨hspare, hplaced, hfit, hs⟩ := hs
      exact ih hrest (hw.entered hm hspare hplaced hfit).1 hs

/-- **The moves of an answered request** are sparing, if the event is regular. -/
theorem Request.Makes.sparing {r : Request} {resp : Response} (h : r.Makes w resp ms)
    (hms : Moves P cfg w ms es w') (he : (Event.call w r resp).Regular P cfg) :
    Sparing P cfg w ms := by
  rcases h.kinds with ⟨rules, rfl, rfl⟩ | ⟨v, m, rfl, rfl⟩ | hplain
  · exact ⟨he.spares, trivial, fun op hop => (by cases hop), trivial⟩
  · cases hms with
    | cons hm _ => exact ⟨trivial, he.placed m hm, fun op hop => (by cases hop), trivial⟩
  · exact sparing_of_plain (h.fitting hms he.fits) hplain

theorem Moves.of_single (h : Moves P cfg w [m] es w') :
    m.Enabled cfg w ∧ es = m.effects P cfg w := by
  cases h with
  | cons hm rest =>
    cases rest
    exact ⟨hm, List.append_nil _⟩

/-- The moves before one another move is cut off in log no more than all of them. -/
theorem logsOf_isPrefix (h : ms ++ [m] <+: ms') (hms : Moves P cfg w ms es w') :
    logsOf P cfg w ms ++ m.logs w' <+: logsOf P cfg w ms' := by
  induction hms generalizing ms' with
  | nil w =>
    obtain ⟨rest, rfl⟩ := h
    exact List.prefix_append _ _
  | cons _ _ ih =>
    obtain ⟨rest, rfl⟩ := h
    rw [logsOf, List.append_assoc]
    exact (List.prefix_append_right_inj _).mpr (ih (List.prefix_append _ _))

/-- A collection pass that drops a file `HEAD` names, cut off in a regular event, has done
nothing. -/
theorem nil_of_gc_cut {rules : RetentionRules} {os : List DurableOp}
    (he : (Event.crash w (.gc rules) os).Regular P cfg)
    (heff : es ++ es' = (Move.gc rules).effects P cfg w)
    (hes : ∀ e ∈ es, ∃ o ∈ os, ∃ s : World, e ∈ o.effects s)
    (hdrops : ¬ ∀ id ∈ w.collection.dropped rules, id ∉ w.disk.headNamed) : es = [] := by
  cases hdrop : w.collection.dropped rules with
  | nil => exact absurd (by simp [hdrop]) hdrops
  | cons id ids =>
    cases es with
    | nil => rfl
    | cons e es =>
      rw [Move.effects, hdrop] at heff
      obtain ⟨rfl, -⟩ := List.cons_eq_cons.mp heff
      obtain ⟨o, ho, s, hos⟩ := hes _ List.mem_cons_self
      exact absurd (he.spares (List.any_eq_true.mpr
        ⟨o, ho, (DurableOp.eq_of_removeSegment_mem hos) ▸ rfl⟩)).1 hdrops

/-- **A request cut off**: some plain moves, and then one that it is cut off in. -/
theorem Node.Step.of_crash_regular {r : Request} {os : List DurableOp} {n : Node}
    (hs : Node.Step P cfg (.running w) (.crash w r os) n) (hi : w.Idle)
    (he : (Event.crash w r os).Regular P cfg) :
    ∃ (d : Disk) (ms : List Move) (es₁ : List DiskEffect) (w₁ : World) (m : Move)
      (es₂ : List DiskEffect), n = .stopped d ∧ Moves P cfg w ms es₁ w₁ ∧ Sparing P cfg w ms ∧
      (∀ m ∈ ms, ¬ m.IsRestore) ∧ m.Enabled cfg w₁ ∧ m.SparesNamed w₁ ∧
      (∀ op ∈ m.logs w₁, op.Fits P) ∧ es₂ <+: m.effects P cfg w₁ ∧
      (w₁.disk.performAll P cfg es₂).Survives d ∧
      logsOf P cfg w ms ++ m.logs w₁ <+: r.logs cfg w ∧
      (.checkpoint ∈ ms ++ [m] → r.Checkpoints) := by
  obtain ⟨d, resp, ms, es, es', w', rfl, hms, hmk, hd, hes, hos⟩ := hs.of_crash hi
  rcases hmk.kinds with ⟨rules, rfl, rfl⟩ | ⟨v, m, rfl, rfl⟩ | hplain
  · obtain ⟨-, heff⟩ := hms.of_single
    by_cases hspare : ∀ id ∈ w.collection.dropped rules, id ∉ w.disk.headNamed
    · exact ⟨d, [], [], w, .gc rules, es, rfl, .nil w, trivial, by simp, trivial, hspare,
        fun op hop => (by cases hop), ⟨es', heff⟩, hd, List.nil_prefix, by simp⟩
    · -- Nothing has been deleted, so nothing has been done.
      obtain rfl := nil_of_gc_cut he heff hes hspare
      exact ⟨d, [], [], w, .tick w.trigger w.ticks, [], rfl, .nil w, trivial, by simp, trivial,
        trivial, fun op hop => (by cases hop), List.prefix_rfl, hd, List.nil_prefix, by simp⟩
  · obtain ⟨hm, heff⟩ := hms.of_single
    exact ⟨d, [], [], w, .restore v m, es, rfl, .nil w, trivial, by simp, hm, trivial,
      fun op hop => (by cases hop), ⟨es', heff⟩, hd, List.nil_prefix, by simp⟩
  · have hfit := hmk.fitting hms he.fits
    have hall : logsOf P cfg w ms <+: r.logs cfg w :=
      (hmk.logsOf hms) ▸ Event.acked_isPrefix w r resp
    obtain ⟨ms₁, es₁, w₁, m, es₂, hms₁, hm, rfl, hes₂, hpre⟩ := hms.of_append
    rw [Disk.performAll_append, ← hms₁.disk_eq] at hd
    rcases hpre with hpre | ⟨rfl, rfl⟩
    · have hfit₁ := hfit.of_isPrefix hpre
      have hsub : ∀ m' ∈ ms₁ ++ [m], m' ∈ ms := fun m' hm' => hpre.subset hm'
      have hplain₁ : ∀ m' ∈ ms₁, ¬ m'.IsGc ∧ ¬ m'.IsRestore := fun m' hm' =>
        hplain m' (hsub m' (List.mem_append_left _ hm'))
      refine ⟨d, ms₁, es₁, w₁, m, es₂, rfl, hms₁,
        sparing_of_plain (hfit₁.of_isPrefix (List.prefix_append _ _)) hplain₁,
        fun m' hm' => (hplain₁ m' hm').2, hm, ?_, hfit₁.of_append hms₁, hes₂, hd,
        (logsOf_isPrefix hpre hms₁).trans hall, fun hck => hmk.checkpoints (hsub _ hck)⟩
      have hgc := (hplain m (hsub m (by simp))).1
      cases m with
      | gc => exact absurd trivial hgc
      | _ => trivial
    · refine ⟨d, ms₁, es₁, w₁, _, es₂, rfl, hms₁, sparing_of_plain hfit hplain,
        fun m' hm' => (hplain m' hm').2, hm, trivial, fun op hop => (by cases hop), hes₂, hd, ?_,
        fun hck => hmk.checkpoints (by simpa using hck)⟩
      exact (List.append_nil _).symm ▸ hall

/-! ## Nodes -/

namespace Node

variable (P cfg)

/-- A process and its directory, or a directory, standing for known points. -/
def Durable (L : GlobalId → List F32) : Node → Prop
  | .running w => w.Durable P cfg L
  | .stopped d => d.Settled ∧ d.Known P cfg L (d.allocator P cfg)

/-- What the directory stands for. -/
def standing : Node → Standing
  | .running w => w.disk.standing P cfg
  | .stopped d => d.standing P cfg

/-- A process and its directory stand for the same. -/
def Agrees : Node → Prop
  | .running w => w.disk.standing P cfg = w.collection.standing
  | .stopped _ => True

variable {P cfg} {n n' : Node}

/-- What holds of a directory after an event: records entered, unless a checkpoint made it agree. -/
structure Follows (P : Platform) (cfg : CollectionConfig) (L : GlobalId → List F32) (n : Node)
    (e : Event) (l : List WalOp) (n' : Node) : Prop where
  /-- The records are those of the event. -/
  enters : e.Enters cfg l
  /-- The end stands for known points. -/
  durable : n'.Durable P cfg (l.foldl learn L)
  /-- The ids of the records are the allocator's. -/
  numbered : Numbered cfg (n.standing P cfg).next l
  /-- The records are entered on disk. -/
  standing : n.Agrees P cfg ∨ ¬ e.Checkpoints →
    n'.standing P cfg = l.foldl (Standing.replay cfg) (n.standing P cfg)
  /-- Agreement is kept, unless a version is restored. -/
  agrees : n.Agrees P cfg → ¬ e.Restores → n'.Agrees P cfg
  /-- A checkpoint, or a restart, brings it about. -/
  settles : e.Settles → n'.Agrees P cfg

end Node

/-- A directory that differs in nothing recovery looks at. -/
theorem Disk.Known.congr {d' : Disk} (h : d.Known P cfg L n) (hh : d'.head = d.head)
    (hs : d'.segments = d.segments) (hv : d'.versions = d.versions)
    (hr : d'.records P = d.records P) :
    d'.Known P cfg L n ∧ d'.standing P cfg = d.standing P cfg :=
  h.keep hh (fun i _ => congrFun hs i) (h.filed.congr hs hv) hr

/-- **A crash between two requests** leaves the directory standing for what it did. -/
theorem Disk.Known.survives {d' : Disk} (h : d.Known P cfg L n) (hs : d.Settled)
    (hd : d.Survives d') :
    (d'.Settled ∧ d'.Known P cfg L n) ∧ d'.standing P cfg = d.standing P cfg := by
  obtain ⟨hh, hw⟩ := hs.survives hd
  obtain ⟨-, -, hv, hsegs, -⟩ := hd
  obtain ⟨hk, hst⟩ := h.congr hh hsegs hv (Disk.records_congr hh (congrFun hw _))
  exact ⟨⟨hs.congr hh hw, hk⟩, hst⟩

/-- **Along the opening of a directory** it stands for what it did. -/
theorem Disk.Known.along_open (h : d.Known P cfg L n) (hs : d.Settled) :
    Along (Disk.perform P cfg) (fun d₁ => (d₁.Settled ∧ d₁.Known P cfg L n) ∧
      d₁.standing P cfg = d.standing P cfg) [.writeConfig, .openLog d.generation] d := by
  obtain ⟨⟨-, hh₁, hr₁⟩, ⟨hs₂, hh₂, hr₂⟩, hs₃, hh₃, hr₃⟩ := @Disk.Settled.along_open P cfg d hs
  obtain ⟨hk₂, hst₂⟩ := @congr P cfg L n d (d.perform P cfg .writeConfig) h hh₂ rfl rfl hr₂
  obtain ⟨hk₃, hst₃⟩ := @congr P cfg L n d
    ((d.perform P cfg .writeConfig).perform P cfg (.openLog d.generation)) h hh₃ rfl rfl hr₃
  exact ⟨⟨⟨hs, h⟩, rfl⟩, ⟨⟨hs₂, hk₂⟩, hst₂⟩, ⟨hs₃, hk₃⟩, hst₃⟩

/-- What stands for the same has the same allocator. -/
theorem Disk.allocator_of_standing {d' : Disk} (h : d'.standing P cfg = d.standing P cfg) :
    d'.allocator P cfg = d.allocator P cfg :=
  (Disk.standing_next _).symm.trans ((congrArg Standing.next h).trans (Disk.standing_next _))

/-- **A directory, opened**: process and directory stand for the same. -/
theorem durable_opened {c : Collection} (h : d.Known P cfg L (d.allocator P cfg)) (hs : d.Settled)
    (hc : d.recover P cfg = some c) (clock : ℕ → ℕ) :
    (World.opened P cfg d .sync clock c).Durable P cfg L ∧
      (World.opened P cfg d .sync clock c).disk.standing P cfg = d.standing P cfg := by
  obtain ⟨⟨-, hk⟩, hst⟩ := (h.along_open hs).end
  have hnext : c.nextGlobalId = d.allocator P cfg := Disk.nextGlobalId_recover hc
  have halloc := Disk.allocator_of_standing hst
  refine ⟨⟨⟨idle_opened hc, hnext ▸ h.recover hc, h.placed_recover hc, hnext ▸ hk.filed,
    fun i hi => ?_⟩, synced_opened hs, halloc ▸ hk, halloc.trans hnext.symm⟩, hst⟩
  · obtain ⟨segs, hsegs, rfl⟩ := Disk.of_recover hc
    have hi : i ∈ d.workingIds := hi
    obtain ⟨hids, hfiles⟩ := Disk.load_eq_some hsegs
    have hnamed : i ∈ d.named := Disk.mem_named.mpr (.inl (Disk.workingIds_subset_headNamed hi))
    rw [← hids] at hnamed
    obtain ⟨s, hmem, rfl⟩ := List.mem_map.mp hnamed
    have hnodup : (segs.map SealedSegment.id).Nodup := hids ▸ d.nodup_named
    refine ⟨?_, s, ?_, hfiles s hmem⟩
    · have hlt := h.placed_recover hc s (by
        rw [Collection.foldl_replay_working]
        exact List.mem_filter.mpr ⟨hmem, decide_eq_true hi⟩)
      exact hlt
    · exact (congrFun (Collection.foldl_replay_allSegments _) _).trans (fill_of_mem hnodup hmem)

/-- **Every regular event** enters its records in the directory's ledger. -/
theorem Node.Durable.step {n n' : Node} {e : Event} (h : n.Durable P cfg L)
    (he : e.Regular P cfg) (hs : Node.Step P cfg n e n') :
    ∃ l, Node.Follows P cfg L n e l n' := by
  cases hs with
  | @call w w' r resp hr =>
    obtain ⟨ms, es, _, hw, hms, hmk⟩ := (Node.Step.call hr).of_call h.idle
    cases hw
    obtain ⟨hd, hn, -, hdisk, hmem, hagree⟩ := hms.entered h (hmk.sparing hms he)
    have hl := hmk.logsOf hms
    have hrestore : ¬ (Event.call w r resp).Restores → ∀ m ∈ ms, ¬ m.IsRestore :=
      fun hnr m hm hr => hnr (hmk.restores hm hr)
    refine ⟨_, hl, hd, ?_, ?_, fun ha hnr => hagree (hrestore hnr) ha, fun hset => ?_⟩
    · rw [show ((Node.running w).standing P cfg).next = w.collection.nextGlobalId from
        (Disk.standing_next _).trans h.allocator]
      exact hn
    · rintro (ha | hck)
      · by_cases hckm : .checkpoint ∈ ms
        · have hnr : ¬ (Event.call w r resp).Restores := by
            have hck := hmk.checkpoints hckm
            cases r with
            | checkpoint | compact => exact fun hf => hf
            | _ => exact hck.elim
          have ha : w.disk.standing P cfg = w.collection.standing := ha
          refine (hagree (hrestore hnr) ha).trans ((hmem (hrestore hnr)).trans ?_)
          rw [← ha]
          rfl
        · exact hdisk hckm
      · exact hdisk fun hckm => hck (hmk.checkpoints hckm)
    · obtain ⟨ms', rfl⟩ := hmk.settles hset
      exact hms.agrees h (hmk.sparing hms he)
  | @crash w w' r os p d hst hsv =>
    obtain ⟨_, ms, es₁, w₁, m, es₂, hw, hms, hsp, hnr, hm, hspare, hfit, hes, hd, hl, hck⟩ :=
      (Node.Step.crash hst hsv).of_crash_regular h.idle he
    cases hw
    obtain ⟨hd₁, hn, hnext₁, hdisk, hmem, hagree⟩ := hms.entered h hsp
    have hnext : ((Node.running w).standing P cfg).next = w.collection.nextGlobalId :=
      (Disk.standing_next _).trans h.allocator
    have hset := (Move.survives hd₁.synced hfit hes hd).1
    have hnum := Move.numbered_logs hm
    rw [hnext₁] at hnum
    rcases hd₁.survives hm hspare hfit hes hd with ⟨l, hpre, hk, hst₁⟩ | ⟨rfl, hk, hst₁⟩
    · refine ⟨logsOf P cfg w ms ++ l, ((List.prefix_append_right_inj _).mpr hpre).trans hl,
        ⟨hset, ?_⟩, ?_, fun hor => ?_, fun _ _ => trivial, fun _ => trivial⟩
      · rw [List.foldl_append]
        exact hk
      · rw [hnext]
        exact numbered_append.mpr ⟨hn, hnum.of_isPrefix hpre⟩
      · rw [List.foldl_append]
        refine hst₁.trans (congrArg (l.foldl (Standing.replay cfg)) ?_)
        by_cases hckm : .checkpoint ∈ ms
        · have ha : w.disk.standing P cfg = w.collection.standing :=
            hor.resolve_right (not_not_intro (hck (List.mem_append_left _ hckm)))
          rw [hagree hnr ha, hmem hnr, ← ha]
          rfl
        · exact hdisk hckm
    · refine ⟨logsOf P cfg w ms, (List.prefix_append _ _).trans hl, ⟨hset, hk⟩, hnext ▸ hn,
        fun hor => ?_, fun _ _ => trivial, fun _ => trivial⟩
      have ha : w.disk.standing P cfg = w.collection.standing :=
        hor.resolve_right (not_not_intro (hck (by simp)))
      refine hst₁.trans ((hmem hnr).trans ?_)
      rw [← ha]
      rfl
  | @stop w d hsv =>
    obtain ⟨hk, hst⟩ := h.disk.survives h.synced.settled hsv
    exact ⟨[], rfl, ⟨hk.1, Disk.allocator_of_standing hst ▸ hk.2⟩, trivial, fun _ => hst,
      fun _ _ => trivial, fun _ => trivial⟩
  | @opened d w clock hr =>
    obtain ⟨c, clock, hrec, hw⟩ := (Node.Step.opened hr).of_opened
    cases hw
    obtain ⟨hd, hst⟩ := durable_opened h.2 h.1 hrec clock
    have hagree := hst.trans (Disk.standing_recover hrec).symm
    exact ⟨[], rfl, hd, trivial, fun _ => hst, fun _ _ => hagree, fun _ => hagree⟩
  | openCrash hst hsv =>
    obtain ⟨_, es, hw, hes, hd⟩ := (Node.Step.openCrash hst hsv).of_openCrash
    cases hw
    obtain ⟨⟨hset, hk⟩, hst₁⟩ := (h.2.along_open h.1).upto hes
    obtain ⟨hk', hst'⟩ := hk.survives hset hd
    have hst := hst'.trans hst₁
    exact ⟨[], rfl, ⟨hk'.1, Disk.allocator_of_standing hst ▸ hk'.2⟩, trivial, fun _ => hst,
      fun _ _ => trivial, fun _ => trivial⟩

/-! ## Histories -/

/-- The ledger after what the events of a history entered, in order. -/
inductive Acknowledged (cfg : CollectionConfig) (M₀ : Ledger) : List Event → Ledger → Prop
  | nil : Acknowledged cfg M₀ [] M₀
  | snoc {evs : List Event} {e : Event} {M : Ledger} {l : List WalOp}
      (h : Acknowledged cfg M₀ evs M) (hl : e.Enters cfg l) :
      Acknowledged cfg M₀ (evs ++ [e]) (M.applyAll l)

theorem acknowledged_nil {M₀ M : Ledger} (h : Acknowledged cfg M₀ [] M) : M = M₀ := by
  generalize hevs : ([] : List Event) = evs at h
  cases h with
  | nil => rfl
  | snoc => simp at hevs

theorem acknowledged_snoc {evs : List Event} {e : Event} {M₀ M : Ledger} :
    Acknowledged cfg M₀ (evs ++ [e]) M ↔
      ∃ M₁ l, Acknowledged cfg M₀ evs M₁ ∧ e.Enters cfg l ∧ M = M₁.applyAll l := by
  refine ⟨fun h => ?_, ?_⟩
  · generalize hevs : evs ++ [e] = evs' at h
    cases h with
    | nil => simp at hevs
    | snoc h hl =>
      obtain ⟨rfl, he⟩ := List.append_inj' hevs rfl
      cases he
      exact ⟨_, _, h, hl, rfl⟩
  · rintro ⟨M₁, l, h, hl, rfl⟩
    exact .snoc h hl

theorem Disk.known_empty : Disk.empty.Known P cfg L (Disk.empty.allocator P cfg) :=
  ⟨⟨fun _ _ h => (by cases h), fun _ h => (by cases h)⟩, le_rfl,
    ⟨fun _ h => (by cases h), fun _ h => (by cases h), fun _ _ => rfl⟩, trivial,
    fun _ _ _ h => (by cases h), fun _ h => (by cases h)⟩

theorem Node.Durable.bounded {n : Node} (h : n.Durable P cfg L) : (n.standing P cfg).Bounded := by
  cases n with
  | running w => exact h.disk.standing_bounded
  | stopped d => exact h.2.standing_bounded

/-- What an event enters in the directory's ledger. -/
theorem Node.Follows.ledger {n n' : Node} {e : Event} (hf : Node.Follows P cfg L n e l n')
    (h : n.Durable P cfg L) (ha : n.Agrees P cfg ∨ ¬ e.Checkpoints) :
    (n'.standing P cfg).ledger (l.foldl learn L) = ((n.standing P cfg).ledger L).applyAll l := by
  rw [hf.standing ha]
  exact h.bounded.ledger_learn hf.numbered

theorem not_unsettled {evs : List Event} (h : ∀ e ∈ evs, ¬ e.Restores) : ¬ Unsettled evs := by
  induction evs using List.reverseRecOn with
  | nil => exact id
  | append_singleton evs e ih =>
    obtain ⟨h, he⟩ := List.forall_mem_append.mp h
    rw [Unsettled, List.foldl_append]
    exact fun hb => hb.1.elim (ih h) (he e (List.mem_singleton_self e))

/-- **In every regular history**, process and directory stand for known points; if they agreed at
first they agree unless a restore is unsettled; and without restores they stand for what was
acknowledged. -/
theorem Runs.durable_from {n₀ n : Node} {evs : List Event} (h : Runs P cfg n₀ evs n)
    (hn₀ : n₀.Durable P cfg L) (ha : n₀.Agrees P cfg) (hreg : ∀ e ∈ evs, e.Regular P cfg) :
    ∃ L', n.Durable P cfg L' ∧ (¬ Unsettled evs → n.Agrees P cfg) ∧
      ((∀ e ∈ evs, ¬ e.Restores) → Acknowledged cfg ((n₀.standing P cfg).ledger L) evs
        ((n.standing P cfg).ledger L')) := by
  refine @Runs.invariant_past P cfg (fun evs n => ∃ L', n.Durable P cfg L' ∧
    (¬ Unsettled evs → n.Agrees P cfg) ∧ ((∀ e ∈ evs, ¬ e.Restores) →
      Acknowledged cfg ((n₀.standing P cfg).ledger L) evs ((n.standing P cfg).ledger L')))
    (fun e => e.Regular P cfg) ?_ _ _ _ h ⟨L, hn₀, fun _ => ha, fun _ => .nil⟩ hreg
  rintro evs n e n' ⟨L, hn, hagree, hack⟩ he hs
  obtain ⟨l, hf⟩ := hn.step he hs
  refine ⟨_, hf.durable, fun hun => ?_, fun hnr => ?_⟩
  · by_cases hset : e.Settles
    · exact hf.settles hset
    · rw [Unsettled, List.foldl_append] at hun
      have hor := fun hb => hun ⟨hb, hset⟩
      exact hf.agrees (hagree fun hb => hor (.inl hb)) fun hr => hor (.inr hr)
  · obtain ⟨hnr, he'⟩ := List.forall_mem_append.mp hnr
    rw [hf.ledger hn (.inl (hagree (not_unsettled hnr)))]
    exact .snoc (hack hnr) hf.enters

/-- **In every regular history from an empty directory.** -/
theorem Runs.durable {n : Node} {evs : List Event} (h : Runs P cfg (.stopped .empty) evs n)
    (hreg : ∀ e ∈ evs, e.Regular P cfg) : ∃ L, n.Durable P cfg L ∧
      (¬ Unsettled evs → n.Agrees P cfg) ∧ ((∀ e ∈ evs, ¬ e.Restores) →
        Acknowledged cfg (fun _ => none) evs ((n.standing P cfg).ledger L)) :=
  h.durable_from (L := fun _ => []) ⟨Disk.settled_empty, Disk.known_empty⟩ trivial hreg

/-! ## Reopening -/

variable (P cfg) in
/-- Opening the directory gives a collection that stands for the ledger. -/
def Disk.Reopens (M : Ledger) (d : Disk) : Prop :=
  ∀ clock, ∃ w, run (World.step P cfg) 0 (Durable.openCollection cfg) (.boot d cfg .sync clock) =
    some (.ok (), w) ∧ w.collection.Stands P cfg M

/-- The collection the directory opens to stands for the ledger. -/
theorem Disk.Reopens.stands {M : Ledger} (h : d.Reopens P cfg M) {clock : ℕ → ℕ} {w : World}
    (hw : run (World.step P cfg) 0 (Durable.openCollection cfg) (.boot d cfg .sync clock) =
      some (.ok (), w)) : w.collection.Stands P cfg M := by
  obtain ⟨w', hw', hs⟩ := h clock
  rw [hw] at hw'
  cases hw'
  exact hs

/-- Opening a directory gives the points of one ledger. -/
theorem Disk.Reopens.isSome_eq {M M' : Ledger} (h : d.Reopens P cfg M) (h' : d.Reopens P cfg M')
    (id : GlobalId) : (M id).isSome = (M' id).isSome := by
  obtain ⟨w, hw, hs⟩ := h fun _ => 0
  exact hs.isSome_eq (h'.stands hw) id

/-- **A directory stands for what it gives when it is opened.** -/
theorem Disk.Known.opensAgain (h : d.Known P cfg L n) (hr : d.Reads P) (hc : d.Complete) :
    d.Reopens P cfg ((d.standing P cfg).ledger L) := by
  obtain ⟨c, hc⟩ := Option.isSome_iff_exists.mp ((@Disk.isSome_recover P cfg d).mpr ⟨hr, hc⟩)
  refine fun clock => ⟨_, (performs_open hc).run, ?_⟩
  rw [← Disk.standing_recover hc]
  exact (h.recover hc).stands

end Vecvec
