import Vecvec.Durable.Log
import Vecvec.Machinery.Names

/-!
# Durable/Names — the names of a collection's files

A flush makes the bytes of a log durable, not its name.  Here the names are followed beside the
disk: `write_atomic` syncs the directory it renames in, `create_dir_all`, `Wal::open` and
`remove_file` sync nothing.  A process may die between the rename and the sync of a `write_atomic`
(`torn`): then a power loss may bring the old file back.
-/

namespace Vecvec

open Machinery

/-- A name on the way from the data directory to a file of a collection. -/
inductive FileName
  /-- a directory above the collection's files -/
  | dir (name : String)
  /-- `config` -/
  | config
  /-- `HEAD` -/
  | head
  /-- `versions` -/
  | versions
  /-- the directory `segments` -/
  | segments
  /-- `{id}.seg` -/
  | segment (id : SegmentId)
  /-- `wal.{generation}.log` -/
  | wal (generation : ℕ)
  deriving DecidableEq

/-- A file that is replaced as a whole, by the value encoded in it. -/
inductive WholeFile
  /-- `HEAD` -/
  | head (h : CheckpointHead)
  /-- `versions` -/
  | versions (s : VersionStoreSnapshot)
  /-- a segment file -/
  | segment (rows : List Row)

/-- The names of a collection's files. -/
abbrev DirNames := Names FileName WholeFile

/-- What is done to them. -/
abbrev DirOp := NameOp FileName WholeFile

variable (P : Platform) (cfg : CollectionConfig) (dir : List FileName)

/-- `wal_path`. -/
def walPath (generation : ℕ) : List FileName := dir ++ [.wal generation]

/-- The segment store's directory. -/
def segmentsPath : List FileName := dir ++ [.segments]

/-- `segment_path`. -/
def segmentPath (id : SegmentId) : List FileName := segmentsPath dir ++ [.segment id]

/-- `write_atomic`, of the file's name: renamed into place, and its directory synced.  (The
temporary file's own name is left out.) -/
def writeAtomic (parent : List FileName) (name : FileName) (x : WholeFile) : List DirOp :=
  [.replace (parent ++ [name]) x, .sync parent]

/-- What an effect on a collection's directory does to names.  (`config` is never replaced.) -/
def DiskEffect.nameOps (N : DirNames) : DiskEffect → List DirOp
  | .append .. | .flush _ => []
  | .openLog g => NameOp.createDirAll dir ++ [.create (walPath dir g)]
  | .removeLog g => [.remove (walPath dir g)]
  | .writeSegment seg => NameOp.createDirAll (segmentsPath dir) ++
      writeAtomic (segmentsPath dir) (.segment seg.id) (.segment seg.rows)
  | .removeSegment id => [.remove (segmentPath dir id)]
  | .writeVersions s => writeAtomic dir .versions (.versions s)
  | .writeHead h => writeAtomic dir .head (.head h)
  | .writeConfig =>
    if dir ++ [.config] ∈ N.made then [] else [.create (dir ++ [.config]), .sync dir]

/-- The names after an effect. -/
def DiskEffect.follow (N : DirNames) (e : DiskEffect) : DirNames :=
  N.performAll (e.nameOps dir N)

/-- The names after an effect whose process died before the sync. -/
def DiskEffect.followTorn (N : DirNames) (e : DiskEffect) : DirNames :=
  N.performAll ((e.nameOps dir N).filter fun op => !op.isSync)

/-- The handler of a durable collection, with the names beside its state. -/
def World.named : Handler durableInterface (World × DirNames) :=
  (World.persistence P cfg).shadowed (DiskEffect.follow dir)

/-! ## Histories -/

/-- What happens to a collection and its names. -/
inductive NameEvent
  /-- a request, an open or a stop; a process that dies does so between two actions -/
  | event (e : Event)
  /-- a process that dies inside an action of a request, between a rename and its sync -/
  | torn (w : World) (r : Request) (os : List DurableOp) (o : DurableOp)
  /-- a process that dies so while it opens a directory -/
  | tornOpen (d : Disk)
  /-- a power loss -/
  | powerLoss (d : Disk) (N : DirNames)

/-- The whole files of a directory are the last ones renamed to their names. -/
structure Disk.Tracks (d : Disk) (N : DirNames) : Prop where
  /-- `HEAD`. -/
  head : (N.files (dir ++ [.head])).head? = d.head.map .head
  /-- The versions file. -/
  versions : (N.files (dir ++ [.versions])).head? = d.versions.map .versions
  /-- The segment files. -/
  segments : ∀ id, (N.files (segmentPath dir id)).head? = (d.segments id).map .segment

/-- What a power loss may leave of a directory: under the names that are left, one of the whole
files each may have, or a log with its flushed bytes. -/
structure PowerLoss (d : Disk) (N : DirNames) (d' : Disk) (N' : DirNames) : Prop where
  /-- The names. -/
  names : N.Loses N'
  /-- The whole files. -/
  tracks : d'.Tracks dir N'
  /-- `config`, which is never replaced. -/
  config : d'.config = if dir ++ [.config] ∈ N'.made then d.config else none
  /-- The logs. -/
  wals : ∀ g, (walPath dir g ∉ N'.made ∧ d'.wals g = none) ∨
    walPath dir g ∈ N'.made ∧ ∃ f f', d.wals g = some f ∧ d'.wals g = some f' ∧ f.Survives f'

/-- One event, with the names.  Writes are flushed (`FsyncMode::Sync`). -/
inductive NameStep : Node × DirNames → NameEvent → Node × DirNames → Prop
  | call {w w' : World} {N N' : DirNames} {r : Request} {resp : Response}
      (hr : run (World.named P cfg dir) 0 (r.call P cfg) (w, N) = some (resp, (w', N'))) :
      NameStep (.running w, N) (.event (.call w r resp)) (.running w', N')
  | crash {w w' : World} {N N' : DirNames} {r : Request} {os : List DurableOp}
      {p : DurableProg Response} {d : Disk}
      (hst : Steps (World.named P cfg dir) 0 (r.call P cfg) (w, N) os p (w', N'))
      (hd : w'.disk.Survives d) : NameStep (.running w, N) (.event (.crash w r os)) (.stopped d, N')
  | torn {w w₁ w' : World} {N N₁ : DirNames} {r : Request} {os : List DurableOp}
      {o : DurableOp} {x : o.Ret} {k : o.Ret → DurableProg Response} {d : Disk}
      (hst : Steps (World.named P cfg dir) 0 (r.call P cfg) (w, N) os (.act o k) (w₁, N₁))
      (hs : World.step P cfg 0 o w₁ = some (x, w')) (hd : w'.disk.Survives d) :
      NameStep (.running w, N) (.torn w r os o)
        (.stopped d, (o.effects w₁).foldl (DiskEffect.followTorn dir) N₁)
  | stop {w : World} {N : DirNames} {d : Disk} (hd : w.disk.Survives d) :
      NameStep (.running w, N) (.event .stop) (.stopped d, N)
  | opened {d : Disk} {w : World} {N N' : DirNames} {clock : ℕ → ℕ}
      (hr : run (World.named P cfg dir) 0 (Durable.openCollection cfg)
        (.boot d cfg .sync clock, N.performAll (NameOp.createDirAll dir))
          = some (.ok (), (w, N'))) :
      NameStep (.stopped d, N) (.event (.opened d)) (.running w, N')
  | openCrash {d d' : Disk} {w : World} {N N' : DirNames} {clock : ℕ → ℕ}
      {os : List DurableOp} {p : DurableProg (Except CoreError Unit)}
      (hst : Steps (World.named P cfg dir) 0 (Durable.openCollection cfg)
        (.boot d cfg .sync clock, N.performAll (NameOp.createDirAll dir)) os p (w, N'))
      (hd : w.disk.Survives d') : NameStep (.stopped d, N) (.event (.openCrash d)) (.stopped d', N')
  | tornOpen {d d' : Disk} {w₁ w : World} {N N₁ : DirNames} {clock : ℕ → ℕ}
      {os : List DurableOp} {o : DurableOp} {x : o.Ret}
      {k : o.Ret → DurableProg (Except CoreError Unit)}
      (hst : Steps (World.named P cfg dir) 0 (Durable.openCollection cfg)
        (.boot d cfg .sync clock, N.performAll (NameOp.createDirAll dir)) os (.act o k) (w₁, N₁))
      (hs : World.step P cfg 0 o w₁ = some (x, w)) (hd : w.disk.Survives d') :
      NameStep (.stopped d, N) (.tornOpen d)
        (.stopped d', (o.effects w₁).foldl (DiskEffect.followTorn dir) N₁)
  | powerLoss {d d' : Disk} {N N' : DirNames} (hd : PowerLoss dir d N d' N') :
      NameStep (.stopped d, N) (.powerLoss d N) (.stopped d', N')

/-- A history with names. -/
inductive NameRuns : Node × DirNames → List NameEvent → Node × DirNames → Prop
  | nil (n : Node × DirNames) : NameRuns n [] n
  | snoc {n n' n'' : Node × DirNames} {evs : List NameEvent} {e : NameEvent}
      (h : NameRuns n evs n') (hs : NameStep P cfg dir n' e n'') : NameRuns n (evs ++ [e]) n''

/-! ## Logs that no sync has reached -/

/-- The action syncs the collection's directory. -/
def DurableOp.syncsDir : DurableOp → Bool
  | .writeVersions _ | .writeHead _ => true
  | _ => false

/-- The request, so answered, has written `versions` or `HEAD`. -/
def Request.syncsDir (w : World) : Request → Response → Bool
  | .writeBatch ups _ explicit, .batch _ => explicit.isSome || w.fires ups.length
  | .upsert points, .ids _ => w.fires points.length
  | .commit .., .version _ | .restore _, .version _ => true
  | .createTag .., .done | .createBranch .., .done => true
  | .checkpoint, .done | .compact, .compacted (some _) | .gc _, .collected _ => true
  | _, _ => false

/-- Whether the log is **adrift** after an event: an open had to make it, or a process died after it
had renamed `HEAD` or `versions` into place and before it had synced the directory, and neither has
been written since. -/
def NameEvent.adrift (b : Bool) : NameEvent → Bool
  | .event (.call w r resp) => b && !r.syncsDir w resp
  | .event (.crash _ _ os) => b && !os.any DurableOp.syncsDir
  | .event .stop => b
  | .event (.opened d) | .event (.openCrash d) | .tornOpen d =>
    b || (d.wals d.generation).isNone
  | .torn _ _ _ (.writeHead _) | .torn _ _ _ (.writeVersions _) => true
  | .torn _ _ os _ => b && !os.any DurableOp.syncsDir
  | .powerLoss .. => false

/-- Whether the log is adrift after a history. -/
def adriftAfter (evs : List NameEvent) : Bool := evs.foldl NameEvent.adrift false

/-! ## What each effect keeps -/

variable {P cfg dir} {N N' : DirNames} {d d' : Disk} {b : Bool} {e : DiskEffect}
  {es : List DiskEffect}

/-- The effect writes `versions` or `HEAD`. -/
def DiskEffect.syncsDir : DiskEffect → Bool
  | .writeVersions _ | .writeHead _ => true
  | _ => false

/-- The directory's own path is durable; a log file is there under its name; and the active log's
name has been synced, unless it is adrift. -/
structure Disk.Named (dir : List FileName) (N : DirNames) (b : Bool) (d : Disk) : Prop where
  /-- The path of the directory. -/
  path : N.Durable dir
  /-- The log files. -/
  wals : ∀ g, (d.wals g).isSome ↔ walPath dir g ∈ N.made
  /-- The active log. -/
  log : b = false → walPath dir d.generation ∈ N.made → walPath dir d.generation ∈ N.kept

theorem walPath_inj {g g' : ℕ} : walPath dir g = walPath dir g' ↔ g = g' := by
  simp [walPath]

theorem not_prefix_walPath {g : ℕ} : ¬ walPath dir g <+: dir := fun h => by
  have := h.length_le
  simp only [walPath, List.length_append, List.length_singleton] at this
  omega

theorem not_prefix_segment {id : SegmentId} : ¬ segmentPath dir id <+: dir := fun h => by
  have := h.length_le
  simp only [segmentPath, segmentsPath, List.length_append, List.length_singleton] at this
  omega

/-- `create_dir_all` removes nothing, -/
theorem remove_notMem_createDirAll {p q : List FileName} :
    (.remove p : DirOp) ∉ NameOp.createDirAll q := fun h => by
  obtain ⟨_, _, h⟩ := NameOp.of_mem_createDirAll h
  cases h

/-- and makes the path and those above it. -/
theorem makes_createDirAll {p q : List FileName} (hq : ¬ p <+: q) :
    ∀ op ∈ (NameOp.createDirAll q : List DirOp), ¬ op.Makes p := fun op hop hm => by
  obtain ⟨r, hr, rfl⟩ := NameOp.of_mem_createDirAll hop
  obtain rfl : r = p := hm
  exact hq hr

/-- What the steps of an effect remove: the file of a log or of a segment. -/
theorem remove_mem_nameOps {p : List FileName} : .remove p ∈ e.nameOps dir N ↔
    (∃ g, e = .removeLog g ∧ p = walPath dir g) ∨
      ∃ id, e = .removeSegment id ∧ p = segmentPath dir id := by
  cases e with
  | removeLog g => simp [DiskEffect.nameOps]
  | removeSegment id => simp [DiskEffect.nameOps]
  | writeConfig =>
    rw [DiskEffect.nameOps]
    split <;> simp
  | _ => simp [DiskEffect.nameOps, writeAtomic, remove_notMem_createDirAll]

/-- No step of an effect removes a name on the way to the directory. -/
theorem remove_notMem_nameOps {p : List FileName} (hp : p <+: dir) :
    .remove p ∉ e.nameOps dir N := by
  rw [remove_mem_nameOps]
  rintro (⟨g, -, rfl⟩ | ⟨id, -, rfl⟩)
  · exact not_prefix_walPath hp
  · exact not_prefix_segment hp

/-- The steps of an effect remove the name of a log only if it removes the log. -/
theorem remove_walPath_mem_nameOps {g : ℕ} :
    .remove (walPath dir g) ∈ e.nameOps dir N ↔ e = .removeLog g := by
  rw [remove_mem_nameOps]
  constructor
  · rintro (⟨g', rfl, h⟩ | ⟨id, -, h⟩)
    · rw [walPath_inj.mp h]
    · have := congrArg List.length h
      simp [walPath, segmentPath, segmentsPath] at this
  · rintro rfl
    exact .inl ⟨g, rfl, rfl⟩

/-- The steps of an effect make the name of a log only if it opens the log. -/
theorem makes_walPath_nameOps {g : ℕ} :
    (∃ op ∈ e.nameOps dir N, op.Makes (walPath dir g)) ↔ e = .openLog g := by
  have hsegs : ¬ walPath dir g <+: segmentsPath dir := fun h => by
    have := h.eq_of_length (by simp [walPath, segmentsPath])
    simp [walPath, segmentsPath] at this
  have hmk : ∀ op ∈ (NameOp.createDirAll dir : List DirOp), ¬ op.Makes (walPath dir g) :=
    makes_createDirAll not_prefix_walPath
  cases e with
  | openLog g' =>
    simp only [DiskEffect.nameOps, List.mem_append, or_and_right, exists_or, List.mem_singleton,
      exists_eq_left, DiskEffect.openLog.injEq]
    refine (or_iff_right ?_).trans walPath_inj
    rintro ⟨op, hop, hm⟩
    exact hmk op hop hm
  | writeConfig =>
    refine iff_of_false ?_ (fun h => by cases h)
    rintro ⟨op, hop, hm⟩
    rw [DiskEffect.nameOps] at hop
    split at hop
    · cases hop
    · simp only [List.mem_cons, List.not_mem_nil, or_false] at hop
      rcases hop with rfl | rfl
      · simp [NameOp.Makes, walPath] at hm
      · exact hm
  | writeSegment seg =>
    refine iff_of_false ?_ (fun h => by cases h)
    rintro ⟨op, hop, hm⟩
    rcases List.mem_append.mp hop with hop | hop
    · exact makes_createDirAll hsegs op hop hm
    · simp only [writeAtomic, List.mem_cons, List.not_mem_nil, or_false] at hop
      rcases hop with rfl | rfl
      · have := congrArg List.length hm
        simp [walPath, segmentsPath] at this
      · exact hm
  | writeVersions | writeHead =>
    refine iff_of_false ?_ (fun h => by cases h)
    rintro ⟨op, hop, hm⟩
    simp only [DiskEffect.nameOps, writeAtomic, List.mem_cons, List.not_mem_nil, or_false] at hop
    rcases hop with rfl | rfl
    · simp [NameOp.Makes, walPath] at hm
    · exact hm
  | append | flush | removeLog | removeSegment => simp [DiskEffect.nameOps, NameOp.Makes]

/-! ## One effect -/

/-- What an effect does to the logs that are there. -/
theorem Disk.isSome_wals_perform (g : ℕ) : ((d.perform P cfg e).wals g).isSome ↔
    e = .openLog g ∨ (d.wals g).isSome ∧ e ≠ .removeLog g := by
  have hset {g' : ℕ} {o : Option WalFile} (ho : o.isSome = (d.wals g').isSome) :
      ((d.setWal g' o).wals g).isSome = (d.wals g).isSome := by
    rw [setWal_apply]
    split
    · subst g
      exact ho
    · rfl
  cases e with
  | append g' op => simp [Disk.perform, hset]
  | flush g' => simp [Disk.perform, hset]
  | openLog g' =>
    rw [Disk.perform, setWal_apply]
    by_cases hg : g = g'
    · exact iff_of_true (by rw [if_pos hg]; rfl) (.inl (hg ▸ rfl))
    · simp [hg, Ne.symm hg]
  | removeLog g' =>
    rw [Disk.perform, setWal_apply]
    by_cases hg : g = g'
    · simp [hg]
    · simp [hg, Ne.symm hg]
  | _ => simp [Disk.perform, Disk.setSegment]

/-- …and to the active one. -/
theorem Disk.generation_perform (he : ∀ h, e ≠ .writeHead h) :
    (d.perform P cfg e).generation = d.generation := by
  cases e with
  | writeHead h => exact absurd rfl (he h)
  | _ => rfl

variable (P cfg) in
/-- **The names follow the files**, whatever of an effect is synced. -/
theorem Disk.Named.files (h : d.Named dir N b) {ops : List DirOp}
    (hsub : ∀ op ∈ ops, op ∈ e.nameOps dir N)
    (hsup : ∀ op ∈ e.nameOps dir N, op.isSync = false → op ∈ ops) :
    (N.performAll ops).Durable dir ∧
      ∀ g, ((d.perform P cfg e).wals g).isSome ↔ walPath dir g ∈ (N.performAll ops).made := by
  refine ⟨h.path.performAll fun q hq hmem => remove_notMem_nameOps hq (hsub _ hmem), fun g => ?_⟩
  rw [Disk.isSome_wals_perform]
  by_cases ho : e = .openLog g
  · obtain ⟨op, hop, hm⟩ := makes_walPath_nameOps.mpr ho
    have hsync : op.isSync = false := by
      cases op with
      | sync => cases hm
      | _ => rfl
    refine iff_of_true (.inl ho)
      (Names.mem_made_performAll_of (.inr ⟨op, hsup op hop hsync, hm⟩) fun hr => ?_)
    cases ho.symm.trans (remove_walPath_mem_nameOps.mp (hsub _ hr))
  · have hc : ∀ op ∈ ops, ¬ op.Makes (walPath dir g) := fun op hop hm =>
      ho (makes_walPath_nameOps.mp ⟨op, hsub op hop, hm⟩)
    by_cases hr : e = .removeLog g
    · refine iff_of_false (fun hor => hor.elim ho fun hor => hor.2 hr)
        (Names.notMem_made_of_remove (hsup _ (remove_walPath_mem_nameOps.mpr hr) rfl) hc)
    · rw [Names.mem_made_performAll hc fun hmem =>
        hr (remove_walPath_mem_nameOps.mp (hsub _ hmem)), ← h.wals g]
      simp [ho, hr]

/-- **The log's name keeps its sync** through an effect that does not open it, or write `HEAD`. -/
theorem Disk.Named.log_kept (h : d.Named dir N b) (hopen : e ≠ .openLog d.generation)
    {ops : List DirOp} (hsub : ∀ op ∈ ops, op ∈ e.nameOps dir N) (hb : b = false)
    (hmade : walPath dir d.generation ∈ (N.performAll ops).made) :
    walPath dir d.generation ∈ (N.performAll ops).kept := by
  have hc : ∀ op ∈ ops, ¬ op.Makes (walPath dir d.generation) := fun op hop hm =>
    hopen (makes_walPath_nameOps.mp ⟨op, hsub op hop, hm⟩)
  have hr : .remove (walPath dir d.generation) ∉ ops := fun hr =>
    Names.notMem_made_of_remove hr hc hmade
  exact Names.mem_kept_performAll hr (h.log hb ((Names.mem_made_performAll hc hr).mp hmade))

/-- **One effect.** -/
theorem Disk.Named.perform (h : d.Named dir N b) (hopen : e ≠ .openLog d.generation) :
    (d.perform P cfg e).Named dir (e.follow dir N) (b && !e.syncsDir) := by
  obtain ⟨hpath, hwals⟩ := h.files P cfg (fun op (hop : op ∈ e.nameOps dir N) => hop)
    fun _ hop _ => hop
  refine ⟨hpath, hwals, fun hb hmade => ?_⟩
  cases hs : e.syncsDir with
  | false =>
    have hgen : (d.perform P cfg e).generation = d.generation :=
      Disk.generation_perform fun hd he => by simp [he, DiskEffect.syncsDir] at hs
    rw [hgen] at hmade ⊢
    exact h.log_kept hopen (fun _ hop => hop) (by simpa [hs] using hb) hmade
  | true =>
    obtain ⟨name, x, hops⟩ : ∃ name x, e.nameOps dir N = writeAtomic dir name x := by
      cases e with
      | writeVersions | writeHead => exact ⟨_, _, rfl⟩
      | _ => simp [DiskEffect.syncsDir] at hs
    rw [DiskEffect.follow, hops] at hmade ⊢
    exact Names.mem_kept_perform_sync hmade

/-- **One effect whose process dies before the sync.** -/
theorem Disk.Named.performTorn (h : d.Named dir N b) (hopen : e ≠ .openLog d.generation)
    (hhead : ∀ x, e = .writeHead x → b = true) :
    (d.perform P cfg e).Named dir (e.followTorn dir N) b := by
  have hsub : ∀ op ∈ (e.nameOps dir N).filter fun op => !op.isSync, op ∈ e.nameOps dir N :=
    fun _ hop => (List.mem_filter.mp hop).1
  have hsup : ∀ op ∈ e.nameOps dir N, op.isSync = false →
      op ∈ (e.nameOps dir N).filter fun op => !op.isSync := fun _ hop hs =>
    List.mem_filter.mpr ⟨hop, by rw [hs]; rfl⟩
  obtain ⟨hpath, hwals⟩ := h.files P cfg hsub hsup
  refine ⟨hpath, hwals, fun hb hmade => ?_⟩
  have hgen : (d.perform P cfg e).generation = d.generation :=
    Disk.generation_perform fun x hx => by simp [hhead x hx] at hb
  rw [hgen] at hmade ⊢
  exact h.log_kept hopen hsub hb hmade

/-- An adrift log need not have been synced. -/
theorem Disk.Named.mono (h : d.Named dir N b) {b' : Bool} (hb : b' = false → b = false) :
    d.Named dir N b' :=
  ⟨h.path, h.wals, fun hb' => h.log (hb hb')⟩

variable (P cfg) in
/-- **The active log opened**: if it was not there, it is adrift. -/
theorem Disk.Named.openActive (h : d.Named dir N b) :
    (d.perform P cfg (.openLog d.generation)).Named dir
      (DiskEffect.follow dir N (.openLog d.generation)) (b || (d.wals d.generation).isNone) := by
  obtain ⟨hpath, hwals⟩ := h.files P cfg
    (fun op (hop : op ∈ DiskEffect.nameOps dir N (.openLog d.generation)) => hop)
    fun _ hop _ => hop
  refine ⟨hpath, hwals, fun hb _ => ?_⟩
  obtain ⟨hb, hsome⟩ := Bool.or_eq_false_iff.mp hb
  refine Names.mem_kept_performAll (fun hr => ?_) (h.log hb ((h.wals _).mp ?_))
  · cases remove_walPath_mem_nameOps.mp hr
  · cases hw : d.wals d.generation with
    | none => simp [hw] at hsome
    | some f => rfl

/-- What a crash leaves has the same names. -/
theorem Disk.Named.survives (h : d.Named dir N b) (hd : d.Survives d') : d'.Named dir N b := by
  obtain ⟨-, hh, -, -, hw⟩ := hd
  refine ⟨h.path, fun g => ?_, by rw [Disk.generation_congr hh]; exact h.log⟩
  rw [← h.wals g]
  rcases hw g with ⟨hg, hg'⟩ | ⟨f, f', hg, hg', -⟩ <;> simp [hg, hg']

/-- **A power loss** spares the directory, and leaves no log adrift. -/
theorem Disk.Named.powerLoss (h : d.Named dir N b) (hd : PowerLoss dir d N d' N') :
    d'.Named dir N' false := by
  refine ⟨h.path.loses hd.names, fun g => ?_, fun _ hmade => hd.names.kept ▸ hmade⟩
  rcases hd.wals g with ⟨hg, hg'⟩ | ⟨hg, f, f', -, hg', -⟩ <;> simp [hg, hg']

/-- The directories on the way are made first. -/
theorem Disk.Named.createDirAll (h : d.Named dir N b) :
    d.Named dir (N.performAll (NameOp.createDirAll dir)) b := by
  have hr {q : List FileName} : (.remove q : DirOp) ∉ NameOp.createDirAll dir :=
    remove_notMem_createDirAll
  have hc (g : ℕ) : ∀ op ∈ (NameOp.createDirAll dir : List DirOp), ¬ op.Makes (walPath dir g) :=
    makes_createDirAll not_prefix_walPath
  refine ⟨h.path.performAll fun _ _ => hr, fun g => ?_, fun hb hmade => ?_⟩
  · rw [Names.mem_made_performAll (hc g) hr, h.wals g]
  · rw [Names.mem_made_performAll (hc _) hr] at hmade
    exact Names.mem_kept_performAll hr (h.log hb hmade)

/-! ## Lists of effects -/

variable (P cfg) in
/-- No effect opens the log that is active when it is performed. -/
def OpensAhead : Disk → List DiskEffect → Prop
  | _, [] => True
  | d, e :: es => e ≠ .openLog d.generation ∧ OpensAhead (d.perform P cfg e) es

theorem OpensAhead.append {es' : List DiskEffect} (h : OpensAhead P cfg d es)
    (h' : OpensAhead P cfg (d.performAll P cfg es) es') : OpensAhead P cfg d (es ++ es') := by
  induction es generalizing d with
  | nil => exact h'
  | cons e es ih => exact ⟨h.1, ih h.2 h'⟩

theorem OpensAhead.of_append {es' : List DiskEffect} (h : OpensAhead P cfg d (es ++ es')) :
    OpensAhead P cfg d es ∧ OpensAhead P cfg (d.performAll P cfg es) es' := by
  induction es generalizing d with
  | nil => exact ⟨trivial, h⟩
  | cons e es ih => exact ⟨⟨h.1, (ih h.2).1⟩, (ih h.2).2⟩

theorem opensAhead_of_forall (h : ∀ e ∈ es, ∀ g, e ≠ .openLog g) : OpensAhead P cfg d es := by
  induction es generalizing d with
  | nil => trivial
  | cons e es ih =>
    exact ⟨h e List.mem_cons_self _, ih fun e he => h e (List.mem_cons_of_mem _ he)⟩

/-- **A list of effects**, performed to its end. -/
theorem Disk.Named.performAll (h : d.Named dir N b) (ho : OpensAhead P cfg d es) :
    (d.performAll P cfg es).Named dir (es.foldl (DiskEffect.follow dir) N)
      (b && !es.any DiskEffect.syncsDir) := by
  induction es generalizing d N b with
  | nil => simpa using h
  | cons e es ih =>
    refine (ih (h.perform ho.1) ho.2).mono fun hb => ?_
    simpa [and_assoc] using hb

end Vecvec
