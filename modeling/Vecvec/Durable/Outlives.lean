import Vecvec.Durable.Secured
import Vecvec.Durable.Shown

/-!
# Durable/Outlives — what an acked write outlives

As long as the log is not adrift, a power loss leaves of a directory what a recovery reads of it:
`HEAD`, the versions file, the files of the working set and the active log (`Disk.Secured.spared`).
So an acked write is recovered after it (`acked_outlives_powerLoss`): the directory opens, and shows
what it did before the write, with the write's records on top.

## Histories

* `NameEvent.Regular` — the events of the results on crashes, and power losses that strike when the
  names are synced.
* `Node.Held` — what holds between two events of such a history.
-/

namespace Vecvec

open Machinery

variable {P : Platform} {cfg : CollectionConfig} {dir : List FileName} {N N' : DirNames}
  {d d' : Disk} {w w' : World} {b : Bool} {es es' : List DiskEffect} {ms : List Move}
  {L : GlobalId → List F32}

/-! ## Power losses -/

/-- The versions and segments named are the same, so a directory stays complete. -/
theorem Disk.Complete.of_named (h : d.Complete) (hh : d'.head = d.head)
    (hv : d'.versions = d.versions)
    (hs : ∀ id ∈ d.named, (d.segments id).isSome → (d'.segments id).isSome) : d'.Complete := by
  have hhead : d'.headNamed = d.headNamed := by rw [headNamed, headNamed, hh]
  have href : d'.referenced = d.referenced := by rw [referenced, referenced, hv]
  obtain ⟨h₁, h₂⟩ := complete_iff.mp h
  rw [complete_iff, hhead, href]
  exact ⟨fun id hid => hs id (mem_named.mpr (.inl hid)) (h₁ id hid),
    fun id hid => hs id (mem_named.mpr (.inr hid)) (h₂ id hid)⟩

namespace Disk.Secured

/-- The path of a segment file that is named is durable. -/
theorem durable_segment (h : d.Secured dir N false) (hpath : N.Durable dir) {id : SegmentId}
    (hid : id ∈ d.named) (hm : segmentPath dir id ∈ N.made) : N.Durable (segmentPath dir id) :=
  (hpath.concat (h.store rfl ⟨id, hid, hm⟩)).concat (h.named id hid hm)

/-- `HEAD` and the versions file are found as they are. -/
theorem files_root (h : d.Secured dir N false) (hpath : N.Durable dir) (hl : N.Loses N')
    {name : FileName} (hname : name ∈ [FileName.head, .versions]) :
    N'.files (dir ++ [name]) = N.files (dir ++ [name]) :=
  hl.files_eq (by simp) (fun hf => hpath.concat (h.synced rfl name hname
    ((h.filled _ (isWhole_of_mem hname)).mpr hf))) (h.single rfl name hname)

/-- **What a power loss spares of a directory whose log is not adrift**: `HEAD`, the versions file,
the files of the working set; and a file under every name it refers to. -/
theorem spared (h : d.Secured dir N false) (hpath : N.Durable dir)
    (hl : PowerLoss dir d N d' N') : d'.head = d.head ∧ d'.versions = d.versions ∧
      (∀ id ∈ d.workingIds, d'.segments id = d.segments id) ∧
      ∀ id ∈ d.named, (d.segments id).isSome → (d'.segments id).isSome := by
  have hseg (id : SegmentId) : segmentPath dir id ≠ [] := by simp [segmentPath]
  refine ⟨?_, ?_, fun id hid => ?_, fun id hid hsome => ?_⟩
  · refine Option.map_injective (fun _ _ => WholeFile.head.inj) ?_
    rw [← hl.tracks.head, ← h.tracks.head, h.files_root hpath hl.names (by simp)]
  · refine Option.map_injective (fun _ _ => WholeFile.versions.inj) ?_
    rw [← hl.tracks.versions, ← h.tracks.versions, h.files_root hpath hl.names (by simp)]
  · have hnamed : id ∈ d.named := Disk.mem_named.mpr (.inl (Disk.workingIds_subset_headNamed hid))
    refine Option.map_injective (fun _ _ => WholeFile.segment.inj) ?_
    rw [← hl.tracks.segments id]
    cases hd : d.segments id with
    | none =>
      have hnil : N.files (segmentPath dir id) = [] := by
        rw [← List.head?_eq_none_iff, h.tracks.segments id, hd]
        rfl
      rw [hl.names.files_eq (hseg id) (fun hf => absurd hnil hf) (by simp [hnil]), hnil]
      rfl
    | some rows =>
      have hm := h.mem_made_segment.mpr (by rw [hd]; rfl)
      rw [hl.names.files_of_durable (h.durable_segment hpath hnamed hm) (hseg id)
        ((h.filled _ isWhole_segmentPath).mp hm) fun x hx => ?_]
      · rfl
      · have := h.working id hid x hx
        rw [hd] at this
        exact Option.some_inj.mp this
  · have hm := h.mem_made_segment.mpr hsome
    have hm' := hl.names.spares _ (hseg id) (h.durable_segment hpath hid hm)
    have htracks := hl.tracks.segments id
    rcases hl.names.left _ hm' with ⟨-, hnil⟩ | ⟨x, -, hx⟩
    · exact absurd hnil ((h.filled _ isWhole_segmentPath).mp hm)
    · rw [hx] at htracks
      rw [← Option.isSome_map, ← htracks]
      rfl

end Disk.Secured

/-- **…and the active log**, flushed. -/
theorem Disk.Named.log_spared (h : d.Named dir N false) (hs : d.Settled)
    (hl : PowerLoss dir d N d' N') : d'.wals d.generation = d.wals d.generation := by
  rcases hl.wals d.generation with ⟨hm', hw'⟩ | ⟨-, f, f', hf, hf', hsv⟩
  · rw [hw']
    cases hw : d.wals d.generation with
    | none => rfl
    | some f =>
      have hm := (h.wals _).mp (by rw [hw]; rfl)
      exact absurd (hl.names.spares _ (by simp) (h.path.concat (h.log rfl hm))) hm'
  · rw [hf, hf', WalFile.survives_of_flushed (hs.flushed _ f hf) hsv]

/-- What is left of a directory when every name that was not synced goes, and every byte that was
not flushed. -/
def Disk.synced (dir : List FileName) (N : DirNames) (d : Disk) : Disk where
  config := if dir ++ [.config] ∈ N.kept then d.config else none
  head := if dir ++ [.head] ∈ N.kept then d.head else none
  versions := if dir ++ [.versions] ∈ N.kept then d.versions else none
  segments id := if segmentPath dir id ∈ N.kept then d.segments id else none
  wals g := if walPath dir g ∈ N.kept then (d.wals g).map fun f => ⟨f.durable, []⟩ else none

/-- **A power loss may leave just that.** -/
theorem Disk.powerLoss_synced (hroot : N.Rooted) (ht : d.Tracks dir N)
    (hw : ∀ g, (d.wals g).isSome ↔ walPath dir g ∈ N.made) :
    PowerLoss dir d N (d.synced dir N) N.synced := by
  have hhead {α : Type} {o : Option α} {f : α → WholeFile} {p : List FileName}
      (hf : (N.files p).head? = o.map f) :
      (N.synced.files p).head? = (if p ∈ N.kept then o else none).map f := by
    change (if p ∈ N.kept then (N.files p).take 1 else []).head? = _
    split
    · rw [← hf]
      cases N.files p <;> rfl
    · rfl
  refine ⟨hroot.loses, ⟨hhead ht.head, hhead ht.versions, fun id => hhead (ht.segments id)⟩, rfl,
    fun g => ?_⟩
  by_cases hg : walPath dir g ∈ N.kept
  · obtain ⟨f, hf⟩ := Option.isSome_iff_exists.mp ((hw g).mpr (hroot.1 hg))
    refine .inr ⟨hg, f, ⟨f.durable, []⟩, hf, (if_pos hg).trans (by rw [hf]; rfl), [],
      List.nil_prefix, ?_⟩
    rw [List.append_nil]
  · exact .inl ⟨hg, if_neg hg⟩

/-! ## Regular histories -/

variable (P cfg dir) in
/-- The event is regular (`Event.Regular`); or it is a power loss that strikes when all names have
been synced but those of old logs, and under each there is but one file. -/
def NameEvent.Regular : NameEvent → Prop
  | .event e => e.Regular P cfg
  | .torn w r os o => (Event.crash w r (os ++ [o])).Regular P cfg
  | .tornOpen _ => True
  | .powerLoss d N =>
    (∀ p ∈ N.made, p ∈ N.kept ∨ ∃ g, g ≠ d.generation ∧ p = walPath dir g) ∧
      ∀ p, (N.files p).length ≤ 1

/-- **Without its names**, an event that is no power loss is one of a history. -/
theorem NameStep.exists_step {n n' : Node × DirNames} {e : NameEvent}
    (hs : NameStep P cfg dir n e n') (he : e.Regular P cfg dir) :
    (∃ e', e'.Regular P cfg ∧ Node.Step P cfg n.1 e' n'.1) ∨
      ∃ d d', n.1 = .stopped d ∧ n'.1 = .stopped d' ∧ e = .powerLoss d n.2 ∧
        PowerLoss dir d n.2 d' n'.2 := by
  cases hs with
  | call hr => exact .inl ⟨_, he, .call (Persistence.run_of_shadowed _ hr)⟩
  | crash hst hd => exact .inl ⟨_, he, .crash (Persistence.steps_of_shadowed _ hst) hd⟩
  | torn hst hs hd =>
    exact .inl ⟨_, he, .crash ((Persistence.steps_of_shadowed _ hst).append
      (.cons hs (.refl _ _))) hd⟩
  | stop hd => exact .inl ⟨_, he, .stop hd⟩
  | opened hr => exact .inl ⟨_, he, .opened (Persistence.run_of_shadowed _ hr)⟩
  | openCrash hst hd =>
    exact .inl ⟨_, he, .openCrash (Persistence.steps_of_shadowed _ hst) hd⟩
  | @tornOpen d d' w₁ w N N₁ clock os o x k hst hs hd =>
    exact .inl ⟨.openCrash d, ⟨trivial, trivial, trivial⟩,
      .openCrash ((Persistence.steps_of_shadowed _ hst).append (.cons hs (.refl _ _))) hd⟩
  | powerLoss hd => exact .inr ⟨_, _, rfl, rfl, rfl, hd⟩

/-! ### What holds between two events -/

/-- The names of a node's files are secured. -/
def Node.Secured (dir : List FileName) (N : DirNames) (b : Bool) : Node → Prop
  | .running w => w.disk.Secured dir N b ∧ w.Cached dir N
  | .stopped d => d.Secured dir N b

/-- The invariant of regular histories with names. -/
structure Node.Held (P : Platform) (cfg : CollectionConfig) (dir : List FileName) (N : DirNames)
    (b : Bool) (n : Node) : Prop where
  /-- It stands for known points. -/
  durable : ∃ L, n.Durable P cfg L
  /-- Its directory can be opened. -/
  supplied : n.Supplied
  /-- Its logs are found under their names. -/
  named : n.Named dir N b
  /-- So are its other files. -/
  secured : n.Secured dir N b

/-- **What a request cut off has done** was safe. -/
theorem Request.Makes.safeAhead_cut {r : Request} {resp : Response} {os : List DurableOp}
    (hmk : r.Makes w resp ms) (hms : Moves P cfg w ms (es ++ es') w')
    (he : (Event.crash w r os).Regular P cfg)
    (hes : ∀ e ∈ es, ∃ o ∈ os, ∃ s : World, e ∈ o.effects s)
    (h : (Node.running w).Held P cfg dir N b) : SafeAhead P cfg dir w.disk N es := by
  obtain ⟨⟨L, hw⟩, ⟨-, hst, hd⟩, -, hsec, hc⟩ := h
  rcases hmk.kinds with ⟨rules, rfl, rfl⟩ | ⟨v, m, rfl, rfl⟩ | hplain
  · obtain ⟨hm, heff⟩ := hms.of_single
    by_cases hspare : ∀ id ∈ w.collection.dropped rules, id ∉ w.disk.headNamed
    · obtain ⟨hsafe, -⟩ := hw.safeAhead hst hd hsec hc hm hspare
      rw [← heff] at hsafe
      exact (safeAhead_append.mp hsafe).1
    · rw [nil_of_gc_cut he heff hes hspare]
      trivial
  · obtain ⟨hm, heff⟩ := hms.of_single
    obtain ⟨hsafe, -⟩ := hw.safeAhead hst hd hsec hc hm trivial
    rw [← heff] at hsafe
    exact (safeAhead_append.mp hsafe).1
  · have hs : Sparing P cfg w ms := sparing_of_plain (hmk.fitting hms he.fits) hplain
    exact (safeAhead_append.mp (hms.safeAhead hw hs hst hd hsec hc).1).1

/-- **A call, answered.** -/
theorem NameStep.secured_call {r : Request} {resp : Response}
    (hr : run (World.named P cfg dir) 0 (r.call P cfg) (w, N) = some (resp, (w', N')))
    (he : (Event.call w r resp).Regular P cfg) (h : (Node.running w).Held P cfg dir N b) :
    (Node.running w').Secured dir N' (b && !r.syncsDir w resp) := by
  obtain ⟨⟨L, hw⟩, ⟨hi, hst, hd⟩, -, hsec, hc⟩ := h
  obtain ⟨resp', ms, es, w'', hp, hm, hmk⟩ := r.performs (P := P) (t := 0) hi
  obtain ⟨rfl, hs⟩ := (hp.shadow (DiskEffect.follow dir) N).of_run hr
  cases hs
  obtain ⟨hsafe, hc'⟩ := hm.safeAhead hw (hmk.sparing hm he) hst hd hsec hc
  refine ⟨?_, hc'⟩
  rw [hm.disk_eq]
  exact (hsec.performAll hsafe).mono (cleared fun hs => hm.any_syncsDir (hmk.any_syncsDir hs))

/-- **A call cut off**, between two actions. -/
theorem NameStep.secured_crash {r : Request} {os : List DurableOp} {p : DurableProg Response}
    (hst : Steps (World.named P cfg dir) 0 (r.call P cfg) (w, N) os p (w', N'))
    (he : (Event.crash w r os).Regular P cfg) (h : (Node.running w).Held P cfg dir N b) :
    w'.disk.Secured dir N' (b && !os.any DurableOp.syncsDir) := by
  obtain ⟨resp, ms, es, w'', hp, hm, hmk⟩ := r.performs (P := P) (t := 0) h.supplied.1
  obtain ⟨es₁, es₂, rfl, -, hdisk, rfl, hes, hos⟩ := Performs.named_of_steps hp hst
  rw [hdisk]
  exact (h.secured.1.performAll (hmk.safeAhead_cut hm he hes h)).mono (cleared hos)

/-- An action cut off before its sync. -/
theorem Disk.Secured.torn_effects {w₁ : World} {N₁ : DirNames} {o : DurableOp} {x : o.Ret}
    (hd : w₁.disk.Secured dir N₁ b) (ho : SafeAhead P cfg dir w₁.disk N₁ (o.effects w₁))
    (hs : World.step P cfg 0 o w₁ = some (x, w')) :
    w'.disk.Secured dir ((o.effects w₁).foldl (DiskEffect.followTorn dir) N₁)
      (b || o.syncsDir) := by
  have hdisk : w'.disk = w₁.disk.performAll P cfg (o.effects w₁) :=
    (World.persistence P cfg).view_step hs
  rw [hdisk, ← o.any_syncsDir_effects w₁]
  match he : o.effects w₁ with
  | [] => exact hd.mono fun hb => (Bool.or_eq_false_iff.mp hb).1
  | [e] =>
    rw [he] at ho
    exact (hd.performTorn ho.1).mono fun hb => by simpa using hb
  | _ :: _ :: _ =>
    have := o.length_effects_le_one w₁
    simp [he] at this

/-- **A call cut off inside an action.** -/
theorem NameStep.secured_torn {r : Request} {os : List DurableOp} {o : DurableOp} {x : o.Ret}
    {k : o.Ret → DurableProg Response} {w₁ : World} {N₁ : DirNames}
    (hst : Steps (World.named P cfg dir) 0 (r.call P cfg) (w, N) os (.act o k) (w₁, N₁))
    (hs : World.step P cfg 0 o w₁ = some (x, w'))
    (he : (Event.crash w r (os ++ [o])).Regular P cfg) (h : (Node.running w).Held P cfg dir N b) :
    w'.disk.Secured dir ((o.effects w₁).foldl (DiskEffect.followTorn dir) N₁)
      (NameEvent.adrift b (.torn w r os o)) := by
  obtain ⟨resp, ms, es, w'', hp, hm, hmk⟩ := r.performs (P := P) (t := 0) h.supplied.1
  obtain ⟨es₁, es₂, rfl, hp', hdisk, rfl, hes, hos⟩ := Performs.named_of_steps hp hst
  obtain ⟨es₃, rfl⟩ : ∃ es₃, es₂ = o.effects w₁ ++ es₃ := by
    cases hp' with
    | act => exact ⟨_, rfl⟩
  rw [← List.append_assoc] at hm
  have hsafe := hmk.safeAhead_cut hm he (fun e he => ?_) h
  · obtain ⟨hsafe₁, hsafe₂⟩ := safeAhead_append.mp hsafe
    rw [← hdisk] at hsafe₂
    have hsec := (h.secured.1.performAll hsafe₁).mono (cleared hos)
    rw [← hdisk] at hsec
    refine (hsec.torn_effects hsafe₂ hs).mono ?_
    cases o with
    | writeHead | writeVersions => exact fun hf => Bool.noConfusion hf
    | _ => exact fun hb => Bool.or_eq_false_iff.mpr ⟨hb, rfl⟩
  · rcases List.mem_append.mp he with he | he
    · obtain ⟨o', ho', hs'⟩ := hes e he
      exact ⟨o', List.mem_append_left _ ho', hs'⟩
    · exact ⟨o, List.mem_append_right _ (List.mem_singleton_self o), w₁, he⟩

/-- **Along an open**, everything is safe. -/
theorem safeAhead_open (hes : es <+: [.writeConfig, .openLog d.generation]) :
    SafeAhead P cfg dir d N es :=
  safeAhead_of_forall fun e he => by
    have he := hes.subset he
    simp only [List.mem_cons, List.not_mem_nil, or_false] at he
    rcases he with rfl | rfl <;> exact fun _ _ => trivial

theorem Disk.Secured.createDirAll (h : d.Secured dir N b) :
    d.Secured dir (N.performAll (NameOp.createDirAll dir)) b :=
  h.same (SameWhole.performAll (offWhole_createDirAll (List.prefix_append _ _))) rfl rfl rfl

/-- **An open stopped anywhere**, between two actions or inside one. -/
theorem NameStep.secured_open {clock : ℕ → ℕ} {os : List DurableOp}
    {p : DurableProg (Except CoreError Unit)} {w₁ : World} {N₁ : DirNames}
    (hst : Steps (World.named P cfg dir) 0 (Durable.openCollection cfg)
      (.boot d cfg .sync clock, N) os p (w₁, N₁)) (h : d.Secured dir N b) :
    w₁.disk.Secured dir N₁ b ∧
      ∀ o k x w', p = .act o k → World.step P cfg 0 o w₁ = some (x, w') →
        w'.disk.Secured dir ((o.effects w₁).foldl (DiskEffect.followTorn dir) N₁) b := by
  obtain ⟨es, r, w'', hp, hes⟩ := @exists_performs_open P cfg d clock
  obtain ⟨es₁, es₂, rfl, hp', hdisk, rfl, -, -⟩ := Performs.named_of_steps hp hst
  have hdisk : w₁.disk = d.performAll P cfg es₁ := hdisk
  have hsec : w₁.disk.Secured dir (es₁.foldl (DiskEffect.follow dir) N) b := by
    rw [hdisk]
    exact (h.performAll (safeAhead_open ((List.prefix_append _ _).trans hes))).mono
      fun hb => by simp [hb]
  refine ⟨hsec, fun o k x w' hpk hs => ?_⟩
  subst hpk
  cases hp' with
  | act hs' rest =>
    rw [← List.append_assoc] at hes
    have hpre := (List.prefix_append _ _).trans hes
    have hsafe := (safeAhead_append.mp (@safeAhead_open P cfg dir N d _ hpre)).2
    rw [← hdisk] at hsafe
    refine (hsec.torn_effects hsafe hs).mono fun hb => Bool.or_eq_false_iff.mpr ⟨hb, ?_⟩
    rw [← o.any_syncsDir_effects w₁, List.any_eq_false]
    intro e he
    have he := hpre.subset (List.mem_append_right _ he)
    simp only [List.mem_cons, List.not_mem_nil, or_false] at he
    rcases he with rfl | rfl <;> exact Bool.false_ne_true

/-- **A directory opened**: what it names has been synced. -/
theorem NameStep.secured_opened {clock : ℕ → ℕ}
    (hr : run (World.named P cfg dir) 0 (Durable.openCollection cfg)
      (.boot d cfg .sync clock, N.performAll (NameOp.createDirAll dir)) = some (.ok (), (w, N')))
    (h : d.Secured dir N b) (hd : d.Complete) : (Node.running w).Secured dir N' b := by
  obtain ⟨c, -, hc, -⟩ := (Node.Step.opened (Persistence.run_of_shadowed _ hr)).of_opened
  obtain ⟨-, hw⟩ := ((performs_open hc).shadow (DiskEffect.follow dir) _).of_run hr
  cases hw
  refine ⟨(h.createDirAll.performAll (safeAhead_open List.prefix_rfl)).mono fun hb => by
    simp [hb], fun id hid => ?_⟩
  have hid : id ∈ d.named := List.mem_toFinset.mp hid
  have hsome : (d.segments id).isSome := (Disk.mem_named.mp hid).elim
    ((Disk.complete_iff.mp hd).1 id) ((Disk.complete_iff.mp hd).2 id)
  exact mem_kept_foldl (by simp)
    (h.createDirAll.named id hid (h.createDirAll.mem_made_segment.mpr hsome))

/-- **A power loss** that strikes when the names are synced and there is one file under each leaves
the whole files as they are, and secured. -/
theorem Disk.Secured.powerLoss (h : d.Secured dir N b) (hpath : N.Durable dir)
    (hkept : ∀ p ∈ N.made, (∀ g, p ≠ walPath dir g) → p ∈ N.kept)
    (hlen : ∀ p, (N.files p).length ≤ 1) (hl : PowerLoss dir d N d' N') :
    d'.Secured dir N' false ∧ d'.head = d.head ∧ d'.versions = d.versions ∧
      d'.segments = d.segments := by
  have hstore {id : SegmentId} (hm : segmentPath dir id ∈ N.made) : segmentsPath dir ∈ N.kept :=
    hkept _ (h.under id hm) fun _ => walPath_ne_segmentsPath.symm
  have hdurable {p : List FileName} (hp : IsWhole dir p) (hm : p ∈ N.made) : N.Durable p := by
    have hpk := hkept p hm fun g hg => walPath_not_isWhole (hg ▸ hp)
    rcases hp with rfl | rfl | ⟨id, rfl⟩
    · exact hpath.concat hpk
    · exact hpath.concat hpk
    · exact (hpath.concat (hstore hm)).concat hpk
  have hne {p : List FileName} (hp : IsWhole dir p) : p ≠ [] := by
    rintro rfl
    rcases hp with hp | hp | ⟨id, hp⟩ <;> simp [segmentPath] at hp
  have hfiles {p : List FileName} (hp : IsWhole dir p) : N'.files p = N.files p :=
    hl.names.files_eq (hne hp) (fun hf => hdurable hp ((h.filled p hp).mpr hf)) (hlen p)
  have hhead : d'.head = d.head := by
    refine Option.map_injective (fun _ _ => WholeFile.head.inj) ?_
    rw [← hl.tracks.head, ← h.tracks.head, hfiles (.inl rfl)]
  have hversions : d'.versions = d.versions := by
    refine Option.map_injective (fun _ _ => WholeFile.versions.inj) ?_
    rw [← hl.tracks.versions, ← h.tracks.versions, hfiles (.inr (.inl rfl))]
  have hsegments : d'.segments = d.segments := funext fun id => by
    refine Option.map_injective (fun _ _ => WholeFile.segment.inj) ?_
    rw [← hl.tracks.segments id, ← h.tracks.segments id, hfiles isWhole_segmentPath]
  refine ⟨⟨hl.tracks, fun p hp => ?_, fun id hm => ?_, fun id hm => hl.names.kept ▸ hm,
    fun id _ hm => hl.names.kept.symm ▸ hm, fun id hid x hx => ?_,
    fun _ name _ hm => hl.names.kept.symm ▸ hm, fun _ name hname => ?_, fun _ hex => ?_⟩,
    hhead, hversions, hsegments⟩
  · rw [hfiles hp, ← h.filled p hp]
    exact ⟨fun hm => hl.names.made hm, fun hm => hl.names.spares p (hne hp) (hdurable hp hm)⟩
  · exact hl.names.closed _ hm _ (by simp [segmentPath]) (by simp [segmentsPath])
  · rw [hfiles isWhole_segmentPath] at hx
    rw [hsegments]
    exact h.working id (by rwa [Disk.workingIds, hhead] at hid) x hx
  · rw [hfiles (isWhole_of_mem hname)]
    exact hlen _
  · obtain ⟨id, -, hm⟩ := hex
    rw [hl.names.kept]
    exact hl.names.closed _ hm _ (by simp [segmentPath]) (by simp [segmentsPath])

/-- Flushed logs that are left are what they were. -/
theorem Disk.Settled.powerLoss (h : d.Settled) (hl : PowerLoss dir d N d' N')
    (hh : d'.head = d.head) : d'.Settled := by
  have hwals {g : ℕ} {f : WalFile} (hf : d'.wals g = some f) : d.wals g = some f := by
    rcases hl.wals g with ⟨-, hnone⟩ | ⟨-, f₀, f', hf₀, hf', hsv⟩
    · rw [hnone] at hf
      cases hf
    · cases hf.symm.trans hf'
      rw [hf₀, WalFile.survives_of_flushed (h.flushed g f₀ hf₀) hsv]
  exact ⟨fun g f hf => h.flushed g f (hwals hf), fun g f hg hf =>
    h.later g f (by rwa [Disk.generation_congr hh] at hg) (hwals hf)⟩

/-- **A power loss** that strikes when the names are synced takes nothing that matters. -/
theorem Node.Held.powerLoss (h : (Node.stopped d).Held P cfg dir N b)
    (hreg : (NameEvent.powerLoss d N).Regular P cfg dir) (hl : PowerLoss dir d N d' N') :
    (Node.stopped d').Held P cfg dir N' false := by
  obtain ⟨⟨L, hset, hk⟩, hd, hn, hsec⟩ := h
  obtain ⟨hkept, hlen⟩ := hreg
  have hothers : ∀ p ∈ N.made, (∀ g, p ≠ walPath dir g) → p ∈ N.kept := fun p hm hp => by
    refine (hkept p hm).resolve_right ?_
    rintro ⟨g, -, hg⟩
    exact hp g hg
  obtain ⟨hsec', hh, hv, hs⟩ := hsec.powerLoss hn.path hothers hlen hl
  have hn' : d.Named dir N false := by
    refine ⟨hn.path, hn.wals, fun _ hm => (hkept _ hm).resolve_right ?_⟩
    rintro ⟨g, hg, hp⟩
    exact hg (walPath_inj.mp hp).symm
  obtain ⟨hk', hst⟩ := hk.congr hh hs hv (Disk.records_congr hh (hn'.log_spared hset hl))
  exact ⟨⟨L, hset.powerLoss hl hh, Disk.allocator_of_standing hst ▸ hk'⟩,
    hd.of_named hh hv fun id _ hid => hs ▸ hid, hn.powerLoss hl, hsec'⟩

/-- **One regular event keeps the invariant.** -/
theorem NameStep.held {n n' : Node × DirNames} {e : NameEvent} (hs : NameStep P cfg dir n e n')
    (he : e.Regular P cfg dir) (h : n.1.Held P cfg dir n.2 b) :
    n'.1.Held P cfg dir n'.2 (e.adrift b) := by
  rcases hs.exists_step he with ⟨e', he', hstep⟩ | ⟨d, d', hn, hn', rfl, hl⟩
  · obtain ⟨L, hdur⟩ := h.durable
    obtain ⟨l, hf⟩ := hdur.step he' hstep
    refine ⟨⟨_, hf.durable⟩, supplied_step h.supplied he'.spares hstep, hs.named h.named, ?_⟩
    cases hs with
    | call hr => exact NameStep.secured_call hr he h
    | crash hst hd => exact (NameStep.secured_crash hst he h).survives hd
    | torn hst hs hd => exact (NameStep.secured_torn hst hs he h).survives hd
    | stop hd => exact h.secured.1.survives hd
    | opened hr =>
      exact NameStep.secured_opened hr (h.secured.mono fun hb => (Bool.or_eq_false_iff.mp hb).1)
        h.supplied
    | openCrash hst hd =>
      exact ((NameStep.secured_open hst h.secured.createDirAll).1.survives hd).mono
        fun hb => (Bool.or_eq_false_iff.mp hb).1
    | tornOpen hst hs hd =>
      exact (((NameStep.secured_open hst h.secured.createDirAll).2 _ _ _ _ rfl hs).survives hd).mono
        fun hb => (Bool.or_eq_false_iff.mp hb).1
    | powerLoss hl => exact (h.powerLoss he hl).secured
  · rw [hn] at h
    rw [hn']
    exact h.powerLoss he hl

/-- **A regular history keeps the invariant.** -/
theorem NameRuns.held {n n' : Node × DirNames} {evs : List NameEvent}
    (h : NameRuns P cfg dir n evs n') (hreg : ∀ e ∈ evs, e.Regular P cfg dir)
    (hn : n.1.Held P cfg dir n.2 false) : n'.1.Held P cfg dir n'.2 (adriftAfter evs) := by
  induction h with
  | nil => exact hn
  | snoc _ hs ih =>
    obtain ⟨hreg, he⟩ := List.forall_mem_append.mp hreg
    rw [adriftAfter, List.foldl_append]
    exact hs.held (he _ (List.mem_singleton_self _)) (ih hreg)

/-! ## Acked writes -/

/-- Moves off the log leave it as it is. -/
theorem Moves.offLog {ms : List Move} (h : Moves P cfg w ms es w') (hoff : ∀ m ∈ ms, m.OffLog) :
    w'.disk.wals = w.disk.wals ∧ w'.generation = w.generation := by
  induction h with
  | nil => exact ⟨rfl, rfl⟩
  | cons _ _ ih =>
    obtain ⟨hm, hoff⟩ := List.forall_mem_cons.mp hoff
    obtain ⟨hw, hg⟩ := ih hoff
    exact ⟨hw.trans (Move.result_offLog hm).2, hg.trans (Move.result_generation hm)⟩

/-- **Records logged** are flushed, behind what the log held. -/
theorem Moves.flushed {ups : List (List F32 × Option Payload)} {dels : List GlobalId}
    {ms : List Move} (h : Moves P cfg w (.log ups dels :: ms) es w') (hoff : ∀ m ∈ ms, m.OffLog)
    (hw : w.OnLog) : ∃ f, w'.disk.wals w'.generation = some f ∧ f.pending = [] ∧
      walFrames P (batchRecords w.collection.nextGlobalId ups dels) <:+ f.durable := by
  obtain ⟨hgen, hlog⟩ := hw
  obtain ⟨f, hf⟩ := Option.isSome_iff_exists.mp hlog
  cases h with
  | cons _ rest =>
    obtain ⟨hwals, hg⟩ := rest.offLog hoff
    have hdisk : ((Move.log ups dels).result P cfg w).disk = _ :=
      Disk.performAll_log w.disk w.generation (batchRecords w.collection.nextGlobalId ups dels)
    have hg : w'.generation = w.generation := hg
    refine ⟨((batchRecords w.collection.nextGlobalId ups dels).foldl (WalFile.append P) f).flush,
      ?_, rfl, ?_⟩
    · rw [hwals, hg, hdisk, Disk.setWal_apply, if_pos rfl, hgen, hf, Option.map_some]
    · change _ <:+ WalFile.bytes _
      rw [WalFile.bytes_foldl_append]
      exact List.suffix_append _ _

/-- The request is a write — a batch, an upsert or a delete — and was acked. -/
def Request.Acked : Request → Response → Prop
  | .writeBatch .., .batch _ | .upsert _, .ids _ | .delete _, .deleted _ => True
  | _, _ => False

/-- **An acked write** has its records flushed, behind what the log held. -/
theorem Request.Makes.flushed {r : Request} {resp : Response} {ms : List Move}
    (hmk : r.Makes w resp ms) (hack : r.Acked resp) (hm : Moves P cfg w ms es w')
    (hw : w.OnLog) : ∃ f, w'.disk.wals w'.generation = some f ∧ f.pending = [] ∧
      walFrames P (r.logs cfg w) <:+ f.durable := by
  cases hmk with
  | failed r e => cases r <;> exact hack.elim
  | batch ht =>
    cases hm with
    | cons hdim rest =>
      rw [Request.logs, if_pos (by exact hdim)]
      exact (Moves.cons hdim rest).flushed ht.offLog hw
  | upsert ht =>
    cases hm with
    | cons hdim rest =>
      rw [Request.logs, if_pos (by exact hdim)]
      exact (Moves.cons hdim rest).flushed ht.offLog hw
  | delete id newly => exact hm.flushed (fun m hm => by cases hm) hw
  | _ => exact hack.elim

/-- The data directory has nothing below it yet. -/
def Bare (dir : List FileName) (N : DirNames) : Prop :=
  ∀ p, dir <+: p → p ≠ dir → p ∉ N.made ∧ p ∉ N.kept ∧ N.files p = []

theorem Bare.concat (h : Bare dir N) {name : FileName} :
    dir ++ [name] ∉ N.made ∧ N.files (dir ++ [name]) = [] := by
  obtain ⟨hm, -, hf⟩ := h (dir ++ [name]) (List.prefix_append _ _) (by simp)
  exact ⟨hm, hf⟩

theorem Bare.segment (h : Bare dir N) {id : SegmentId} : segmentPath dir id ∉ N.made ∧
    segmentPath dir id ∉ N.kept ∧ N.files (segmentPath dir id) = [] :=
  h _ ((List.prefix_append _ _).trans (List.prefix_append _ _)) fun hp => by
    have := congrArg List.length hp
    simp [segmentPath, segmentsPath] at this

/-- A collection that was never opened is secured. -/
theorem secured_empty (h : Bare dir N) : Disk.empty.Secured dir N false := by
  have hnamed {id : SegmentId} : id ∉ Disk.empty.named := List.not_mem_nil
  have hfilled (p : List FileName) (hm : p ∉ N.made) (hf : N.files p = []) :
      p ∈ N.made ↔ N.files p ≠ [] := iff_of_false hm fun hne => hne hf
  refine ⟨⟨?_, ?_, fun id => ?_⟩, ?_, fun id hm => absurd hm h.segment.1,
    fun id hm => absurd hm h.segment.2.1, fun id hid => absurd hid hnamed,
    fun id hid => absurd hid List.not_mem_nil, fun _ name _ hm => absurd hm h.concat.1,
    fun _ name _ => ?_, fun _ hex => absurd hex.choose_spec.1 hnamed⟩
  · rw [h.concat.2]
    rfl
  · rw [h.concat.2]
    rfl
  · rw [h.segment.2.2]
    rfl
  · rintro p (rfl | rfl | ⟨id, rfl⟩)
    · exact hfilled _ h.concat.1 h.concat.2
    · exact hfilled _ h.concat.1 h.concat.2
    · exact hfilled _ h.segment.1 h.segment.2.2
  · rw [h.concat.2]
    exact Nat.zero_le _

theorem held_empty (hpath : N.Durable dir) (h : Bare dir N) :
    (Node.stopped .empty).Held P cfg dir N false :=
  ⟨⟨fun _ => [], Disk.settled_empty, Disk.known_empty⟩, complete_empty,
    named_empty hpath fun _ => h.concat.1, secured_empty h⟩

/-- **A write, acked, is recovered** from what a power loss spares: the directory shows what it did
before the write, with the write's records on top. -/
theorem Request.Makes.shows_spared {r : Request} {resp : Response} (hmk : r.Makes w resp ms)
    (hack : r.Acked resp) (hms : Moves P cfg w ms es w')
    (he : (Event.call w r resp).Regular P cfg) (hw : w.Durable P cfg L)
    (h : (Node.running w').Held P cfg dir N false) (hl : PowerLoss dir w'.disk N d N')
    (hreads : d.Reads P) : d.Shows P cfg
      (Ledger.applyAll (w.disk.liveMap P cfg) ((r.logs cfg w).map (WalOp.stored P cfg))) := by
  have hs := hmk.sparing hms he
  obtain ⟨hh, hv, hworking, hnamed⟩ := h.secured.1.spared h.named.2.2.path hl
  have hw' : w'.Durable P cfg _ := (hms.entered hw hs).durable
  have hlogs : Vecvec.logsOf P cfg w ms = r.logs cfg w := by
    rw [hmk.logsOf hms]
    cases resp with
    | failed => cases r <;> exact hack.elim
    | _ => rfl
  have hck : .checkpoint ∉ ms := fun hck => by
    have := hmk.checkpoints hck
    cases r with
    | checkpoint | compact => exact hack.elim
    | _ => exact this
  rw [← hlogs, ← hms.liveMap_disk hw hs hck]
  exact hw'.disk.shows_of_same hh hworking
    (Disk.records_congr hh (h.named.2.2.log_spared hw'.synced.settled hl)) hreads
    (h.supplied.2.2.of_named hh hv hnamed)

/-- **An acked write outlives a power loss**, if the log is not adrift.  Its name is durable, and so
is every name on the way to it; the log a power loss leaves is the log that was there, the write's
records at its end; and if the history is regular, and `HEAD` and the versions file decode, the
directory opens, and shows what it did before the write with the write's records on top. -/
theorem acked_outlives_powerLoss (hpath : N.Durable dir) (hnew : Bare dir N)
    {evs : List NameEvent} {N₁ N₂ : DirNames} {r : Request} {resp : Response}
    (h : NameRuns P cfg dir (.stopped .empty, N) evs (.running w, N₁))
    (hs : NameStep P cfg dir (.running w, N₁) (.event (.call w r resp)) (.running w', N₂))
    (hack : r.Acked resp) (hlog : adriftAfter evs = false ∨ r.syncsDir w resp = true) :
    N₂.Durable (walPath dir w'.generation) ∧
      ∀ d N₃, PowerLoss dir w'.disk N₂ d N₃ → N₃.Durable (walPath dir w'.generation) ∧
        (∃ f, w'.disk.wals w'.generation = some f ∧ d.wals w'.generation = some f ∧
          walFrames P (r.logs cfg w) <:+ f.durable) ∧
        ((∀ e ∈ evs ++ [.event (.call w r resp)], e.Regular P cfg dir) → d.Reads P →
          d.Shows P cfg (Ledger.applyAll (w.disk.liveMap P cfg)
            ((r.logs cfg w).map (WalOp.stored P cfg)))) := by
  obtain ⟨hi, hw, hd⟩ := h.named (named_empty hpath fun _ => hnew.concat.1)
  obtain ⟨-, ⟨hgen, hthere⟩, hd'⟩ := NameStep.named hs ⟨hi, hw, hd⟩
  have hb : NameEvent.adrift (adriftAfter evs) (.event (.call w r resp)) = false := by
    rcases hlog with hlog | hlog
    · exact Bool.and_eq_false_iff.mpr (.inl hlog)
    · exact Bool.and_eq_false_iff.mpr (.inr (by rw [hlog]; rfl))
  have hkept : N₂.Durable (walPath dir w'.generation) := by
    refine hd'.path.concat ?_
    rw [hgen]
    exact hd'.log hb ((hd'.wals _).mp hthere)
  have hstep := hs
  cases hs with
  | call hr =>
    obtain ⟨resp', ms, es, w'', hp, hm, hmk⟩ := r.performs (P := P) (t := 0) hi
    obtain ⟨rfl, hs⟩ := (hp.shadow (DiskEffect.follow dir) N₁).of_run hr
    cases hs
    obtain ⟨f, hf, hpend, hsuf⟩ := hmk.flushed hack hm hw
    refine ⟨hkept, fun d N₃ hloss => ⟨hkept.loses hloss.names, ⟨f, hf, ?_, hsuf⟩,
      fun hreg hreads => ?_⟩⟩
    · have hmade : walPath dir w'.generation ∈ N₃.made :=
        hloss.names.spares _ (by simp [walPath]) hkept
      rcases hloss.wals w'.generation with ⟨hn, -⟩ | ⟨-, f₁, f', hf₁, hf', hsv⟩
      · exact absurd hmade hn
      · cases hf.symm.trans hf₁
        rw [hf', WalFile.survives_of_flushed hpend hsv]
    · obtain ⟨hreg, he⟩ := List.forall_mem_append.mp hreg
      have he := he _ (List.mem_singleton_self _)
      have hheld := h.held hreg (held_empty hpath hnew)
      obtain ⟨L, hdur⟩ := hheld.durable
      have hheld' := hstep.held he hheld
      rw [hb] at hheld'
      exact hmk.shows_spared hack hm he hdur hheld' hloss hreads

/-! ## Histories computed -/

/-- The process of a node, if there is one. -/
def Node.world : Node → Option World
  | .running w => some w
  | .stopped _ => none

theorem Node.eq_running {n : Node} (h : w ∈ n.world) : n = .running w := by
  cases n with
  | running w' =>
    cases h
    rfl
  | stopped d => cases h

variable (P cfg dir) in
/-- What a line of a script does, with the names. -/
def NameStep.exec : Node × DirNames → Command → Option (NameEvent × Node × DirNames)
  | (.running w, N), .call r => (run (World.named P cfg dir) 0 (r.call P cfg) (w, N)).map fun x =>
      (.event (.call w r x.1), .running x.2.1, x.2.2)
  | (.stopped d, N), .open =>
      match run (World.named P cfg dir) 0 (Durable.openCollection cfg)
          (.boot d cfg .sync fun _ => 0, N.performAll (NameOp.createDirAll dir)) with
      | some (.ok (), w, N') => some (.event (.opened d), .running w, N')
      | _ => none
  | _, _ => none

variable (P cfg dir) in
/-- What a script does, with the names. -/
def NameStep.script (n : Node × DirNames) (evs : List NameEvent) :
    List Command → Option (List NameEvent × Node × DirNames)
  | [] => some (evs, n)
  | c :: cs => (exec P cfg dir n c).bind fun x => script x.2 (evs ++ [x.1]) cs

theorem NameStep.of_exec {n n' : Node × DirNames} {c : Command} {e : NameEvent}
    (h : exec P cfg dir n c = some (e, n')) : NameStep P cfg dir n e n' := by
  unfold exec at h
  split at h
  · obtain ⟨⟨resp, w', N'⟩, hx, hxe⟩ := Option.map_eq_some_iff.mp h
    cases hxe
    exact .call hx
  · split at h
    · cases h
      exact .opened ‹_›
    · cases h
  · cases h

theorem NameRuns.of_script {n₀ n n' : Node × DirNames} {cs : List Command}
    {evs evs' : List NameEvent} (h : NameRuns P cfg dir n₀ evs n)
    (hs : NameStep.script P cfg dir n evs cs = some (evs', n')) :
      NameRuns P cfg dir n₀ evs' n' := by
  induction cs generalizing n evs with
  | nil =>
    cases hs
    exact h
  | cons c cs ih =>
    obtain ⟨x, hx, hs⟩ := Option.bind_eq_some_iff.mp hs
    exact ih (h.snoc (NameStep.of_exec hx)) hs

variable (P cfg dir) in
/-- A script from an empty directory goes through, a request after it is answered, and all that has
a property. -/
def Serves (N : DirNames) (cs : List Command) (r : Request)
    (Q : List NameEvent → World → DirNames → Response → World → DirNames → Prop) :
    Prop :=
  ∃ x ∈ NameStep.script P cfg dir (.stopped .empty, N) [] cs, ∃ w ∈ x.2.1.world,
    ∃ y ∈ run (World.named P cfg dir) 0 (r.call P cfg) (w, x.2.2),
      Q x.1 w x.2.2 y.1 y.2.1 y.2.2

theorem Serves.exists_steps {cs : List Command} {r : Request}
    {Q : List NameEvent → World → DirNames → Response → World → DirNames → Prop}
    (h : Serves P cfg dir N cs r Q) : ∃ evs w N₁ resp w' N₂,
      NameRuns P cfg dir (.stopped .empty, N) evs (.running w, N₁) ∧
      NameStep P cfg dir (.running w, N₁) (.event (.call w r resp)) (.running w', N₂) ∧
      Q evs w N₁ resp w' N₂ := by
  obtain ⟨⟨evs, n, N₁⟩, hx, w, hw, ⟨resp, w', N₂⟩, hy, hq⟩ := h
  obtain rfl := Node.eq_running hw
  exact ⟨evs, w, N₁, resp, w', N₂, .of_script (.nil _) hx, .call hy, hq⟩

instance {cs : List Command} {r : Request}
    {Q : List NameEvent → World → DirNames → Response → World → DirNames → Prop}
    [∀ evs w N₁ resp w' N₂, Decidable (Q evs w N₁ resp w' N₂)] :
    Decidable (Serves P cfg dir N cs r Q) := by
  unfold Serves
  infer_instance

variable (P cfg dir) in
/-- A directory opens, and the point is not live. -/
def OpensWithout (n : Node × DirNames) (id : GlobalId) : Prop :=
  ∃ x ∈ NameStep.exec P cfg dir n .open, ∃ w ∈ x.2.1.world, (w.collection.liveMap id).isNone

instance {n : Node × DirNames} {id : GlobalId} : Decidable (OpensWithout P cfg dir n id) := by
  unfold OpensWithout
  infer_instance

theorem OpensWithout.exists_step {n : Node × DirNames} {id : GlobalId}
    (h : OpensWithout P cfg dir n id) : ∃ e w N', NameStep P cfg dir n e (.running w, N') ∧
      w.collection.liveMap id = none := by
  obtain ⟨⟨e, n', N'⟩, hx, w, hw, hnone⟩ := h
  obtain rfl := Node.eq_running hw
  exact ⟨e, w, N', NameStep.of_exec hx, Option.isNone_iff_eq_none.mp hnone⟩

instance {r : Request} {resp : Response} : Decidable (r.Acked resp) := by
  unfold Request.Acked
  split <;> infer_instance

/-- The event of a history without names. -/
def NameEvent.plain : NameEvent → Option Event
  | .event e => some e
  | _ => none

theorem NameEvent.regular_of_plain {evs : List NameEvent}
    (h : ∀ e ∈ evs, ∃ e' ∈ e.plain, e'.Regular P cfg) : ∀ e ∈ evs, e.Regular P cfg dir :=
  fun e he => by
    obtain ⟨e', he', hreg⟩ := h e he
    cases e with
    | event e =>
      cases he'
      exact hreg
    | _ => cases he'

/-- The names of a data directory `c` that is there, and on the disk. -/
def Sample.names : DirNames := ⟨{[.dir "c"]}, {[.dir "c"]}, fun _ => []⟩

theorem Sample.bare_names : Bare [.dir "c"] names := fun _ _ hne =>
  ⟨fun h => hne (Finset.mem_singleton.mp h), fun h => hne (Finset.mem_singleton.mp h), rfl⟩

/-- After a commit the log is no longer adrift.  A batch that replaces the committed point outlives
the loss of every name that was not synced. -/
theorem acked_outlives_powerLoss_sample : ∃ (N : DirNames) (w w' : World) (d : Disk)
    (N' : DirNames), N.Durable (walPath [.dir "c"] w'.generation) ∧
    PowerLoss [.dir "c"] w'.disk N d N' ∧ N'.Durable (walPath [.dir "c"] w'.generation) ∧
    (∃ f, w'.disk.wals w'.generation = some f ∧ d.wals w'.generation = some f ∧
      walFrames Sample.platform ((Request.writeBatch [([0], none)] [0] none).logs
        (Sample.config none) w) <:+ f.durable) ∧
    d.Shows Sample.platform (Sample.config none)
      (Ledger.applyAll (w.disk.liveMap Sample.platform (Sample.config none))
        (((Request.writeBatch [([0], none)] [0] none).logs (Sample.config none) w).map
          (WalOp.stored Sample.platform (Sample.config none)))) := by
  have h : Serves Sample.platform (Sample.config none) [.dir "c"] Sample.names
      [.open, .call (.upsert [([1], none)]), .call (.commit none none)]
      (.writeBatch [([0], none)] [0] none)
      fun evs w _ resp _ N₂ => (Request.writeBatch [([0], none)] [0] none).Acked resp ∧
        adriftAfter evs = false ∧ N₂.Rooted ∧
        ∀ e ∈ evs ++ [.event (.call w (.writeBatch [([0], none)] [0] none) resp)],
          ∃ e' ∈ e.plain, e'.Regular Sample.platform (Sample.config none) := by
    decide +kernel
  obtain ⟨evs, w, N₁, resp, w', N₂, hr, hs, hack, hlog, hroot, hreg⟩ := h.exists_steps
  have hreg := @NameEvent.regular_of_plain _ _ [.dir "c"] _ hreg
  have hheld := (hr.snoc hs).held hreg (held_empty (by decide) Sample.bare_names)
  have hloss := Disk.powerLoss_synced hroot hheld.secured.1.tracks hheld.named.2.2.wals
  obtain ⟨hkept, hall⟩ :=
    acked_outlives_powerLoss (by decide) Sample.bare_names hr hs hack (.inl hlog)
  obtain ⟨hkept', hf, hshows⟩ := hall _ _ hloss
  exact ⟨N₂, w, w', _, _, hkept, hloss, hkept', hf, hshows hreg (Sample.reads _)⟩

/-- **An acked write is lost with the name of its log.**  The directory is there before it is opened
for the first time, and on the disk; a batch is answered, its bytes flushed; after a power loss the
point is gone. -/
theorem acked_lost_with_name : ∃ evs w N₁ resp w' N₂ evs' w₃ N₃,
    NameRuns Sample.platform (Sample.config none) [.dir "c"] (.stopped .empty, Sample.names) evs
      (.running w, N₁) ∧
    NameStep Sample.platform (Sample.config none) [.dir "c"] (.running w, N₁)
      (.event (.call w (.writeBatch [([0], none)] [] none) resp)) (.running w', N₂) ∧
    (Request.writeBatch [([0], none)] [] none).Acked resp ∧
    ¬ N₂.Durable (walPath [.dir "c"] w'.generation) ∧ w'.collection.liveMap 0 ≠ none ∧
    NameRuns Sample.platform (Sample.config none) [.dir "c"] (.running w', N₂) evs'
      (.running w₃, N₃) ∧ w₃.collection.liveMap 0 = none := by
  have h : Serves Sample.platform (Sample.config none) [.dir "c"] Sample.names [.open]
      (.writeBatch [([0], none)] [] none) fun evs w _ resp w' N₂ =>
        (Request.writeBatch [([0], none)] [] none).Acked resp ∧
        ¬ N₂.Durable (walPath [.dir "c"] w'.generation) ∧ (w'.collection.liveMap 0).isSome ∧
        N₂.Rooted ∧
        (∀ e ∈ evs ++ [.event (.call w (.writeBatch [([0], none)] [] none) resp)],
          ∃ e' ∈ e.plain, e'.Regular Sample.platform (Sample.config none)) ∧
        OpensWithout Sample.platform (Sample.config none) [.dir "c"]
          (.stopped (w'.disk.flushedOnly.synced [.dir "c"] N₂), N₂.synced) 0 := by
    decide +kernel
  obtain ⟨evs, w, N₁, resp, w', N₂, hr, hs, hack, hlost, hlive, hroot, hreg, hopens⟩ :=
    h.exists_steps
  obtain ⟨e, w₃, N₃, ho, hnone⟩ := hopens.exists_step
  have hstop : NameStep Sample.platform (Sample.config none) [.dir "c"] (.running w', N₂)
    (.event .stop) (.stopped w'.disk.flushedOnly, N₂) := .stop (Disk.survives_flushedOnly _)
  have hheld := hstop.held (P := Sample.platform) ⟨trivial, trivial, trivial⟩
    ((hr.snoc hs).held (NameEvent.regular_of_plain hreg)
      (held_empty (by decide) Sample.bare_names))
  exact ⟨evs, w, N₁, resp, w', N₂, _, w₃, N₃, hr, hs, hack, hlost,
    Option.isSome_iff_ne_none.mp hlive, .snoc (.snoc (.snoc (.nil _) hstop) (.powerLoss
      (Disk.powerLoss_synced hroot hheld.secured.tracks hheld.named.wals))) ho, hnone⟩

end Vecvec
