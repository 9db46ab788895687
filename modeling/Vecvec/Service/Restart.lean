import Vecvec.Service.Calls

/-!
# Service/Restart — what a restarted service finds

`recover_all` goes over the entries of the collections directory in the order they are listed, and
opens each that is a directory with the config it finds there.  The first that does not open stops
it, and the service with it.  So a collection comes back just when every directory beside it opens
too (`reopens_iff`).
-/

namespace Vecvec

open Machinery FileTree

namespace Service

/-! ## What recovery asks of a directory -/

section

variable (os : Os) (t : FileTree String File) (p : List String)

/-- The log of this name in the directory can be opened, or made. -/
def LogOpens (log : String) : Prop :=
  os.naming.passes log = true ∧
    (t (p ++ [log]) = none ∧ os.naming.admits log = true ∨ ∃ f, t (p ++ [log]) = some (.file f))

/-- The name of the active log: what `HEAD` says, or that of the first. -/
def ActiveLog (log : String) : Prop :=
  t (p ++ ["HEAD"]) = none ∧ log = "wal.0.log" ∨ t (p ++ ["HEAD"]) = some (.file (.head log))

/-- The config file holds this config. -/
def HasConfig (cfg : CollectionConfig) : Prop :=
  t (p ++ ["config"]) = some (.file (.config cfg))

/-- The versions file, if there is one, can be read, and so can `HEAD`; the log opens. -/
structure Recovers : Prop where
  versions : t (p ++ ["versions"]) = none ∨ t (p ++ ["versions"]) = some (.file .versions)
  log : ∃ log, ActiveLog t p log ∧ LogOpens os t p log

/-- An entry of a directory is opened as a collection: it is a directory found under its name. -/
def Entered (m : String) : Prop := os.naming.passes m = true ∧ t.isDir (p ++ [m]) = true

/-- **An entry opens**, or is passed over. -/
def Opens (m : String) : Prop :=
  Entered os t p m → (∃ cfg, HasConfig t (p ++ [m]) cfg) ∧ Recovers os t (p ++ [m])

end

/-- **A restart reopens the collection** with this config: on a fresh registry and the tree as it
is, `recover_all` succeeds, and registers it under its name. -/
def Reopens (os : Os) (dataDir : List String) (t : FileTree String File) (name : String)
    (cfg : CollectionConfig) : Prop :=
  ∃ s', run (ServiceState.step os) 0 (recoverAll dataDir) ⟨fun _ => none, t⟩ = some (.ok (), s') ∧
    (s'.registry name).map Handle.config = some cfg

variable {os : Os} {t t' : FileTree String File} {p : List String} {m m' : String}

/-- Whether an entry opens is a matter of what is in it. -/
theorem opens_congr (h : t' (p ++ [m]) = t (p ++ [m]))
    (h' : ∀ n, t' (p ++ [m] ++ [n]) = t (p ++ [m] ++ [n])) : Opens os t' p m ↔ Opens os t p m := by
  have hlog : ∀ log, LogOpens os t' (p ++ [m]) log ↔ LogOpens os t (p ++ [m]) log := fun log => by
    rw [LogOpens, LogOpens, h']
  have hactive : ∀ log, ActiveLog t' (p ++ [m]) log ↔ ActiveLog t (p ++ [m]) log := fun log => by
    rw [ActiveLog, ActiveLog, h']
  have hrec : Recovers os t' (p ++ [m]) ↔ Recovers os t (p ++ [m]) :=
    ⟨fun ⟨hv, log, ha, ho⟩ => ⟨by rwa [← h'], log, (hactive log).mp ha, (hlog log).mp ho⟩,
      fun ⟨hv, log, ha, ho⟩ => ⟨by rwa [h'], log, (hactive log).mpr ha, (hlog log).mpr ho⟩⟩
  rw [Opens, Opens, Entered, Entered, isDir_congr h, hrec]
  simp only [HasConfig, h']

/-! ## What opening a directory leaves alone -/

/-- What is known after a directory has been opened: directories are still there, and so is all that
is not in it. -/
structure Within (p : List String) (t t' : FileTree String File) : Prop where
  isDir : ∀ q, t.isDir q = true → t'.isDir q = true
  elsewhere : ∀ q, q ≠ p → (∀ n, q ≠ p ++ [n]) → t' q = t q

variable {s s' s'' : ServiceState} {u : ℕ} {path : PathBuf String} {n : String}

theorem Within.refl (p : List String) (t : FileTree String File) : Within p t t :=
  ⟨fun _ h => h, fun _ _ _ => rfl⟩

theorem within_add {f : File} (hn : t (p ++ [n]) = none) : Within p t (t.add p n (.file f)) where
  isDir _ hq := isDir_add_of_none hn hq
  elsewhere _ hq hq' := add_of_ne hq (hq' n)

theorem within_replace {f g : File} (hg : t (p ++ [n]) = some (.file g)) :
    Within p t (t.replace (p ++ [n]) f) where
  isDir _ hq := isDir_replace hg hq
  elsewhere _ _ hq' := replace_of_ne (hq' n)

/-- Other entries of the same directory are as before. -/
theorem Within.other (h : Within (p ++ [m]) t t') (hm : m' ≠ m) :
    t' (p ++ [m']) = t (p ++ [m']) ∧ ∀ n, t' (p ++ [m'] ++ [n]) = t (p ++ [m'] ++ [n]) := by
  have hne : p ++ [m'] ≠ p ++ [m] := fun he => hm (append_singleton_inj.mp he).2
  refine ⟨h.elsewhere _ hne fun n he => ?_, fun n => h.elsewhere _ (fun he => ?_)
    fun n' he => hne (append_singleton_inj.mp he).1⟩
  · have := congrArg List.length he
    simp at this
  · have := congrArg List.length he
    simp at this

/-! ## The parts of opening, run -/

/-- A call run by itself. -/
abbrev Runs {α : Type} (os : Os) (u : ℕ) (q : ServiceProg α) (s : ServiceState) (r : α)
    (s' : ServiceState) : Prop :=
  run (ServiceState.step os) u q s = some (r, s')

/-- The first call of two. -/
theorem Runs.attempt {α : Type} {q : ServiceProg (Except ServiceError Unit)}
    {q' : ServiceProg (Except ServiceError α)} {r : Except ServiceError Unit}
    (h : Runs os u q s r s') :
    run (ServiceState.step os) u (attempt q q') s = match r with
      | .error e => some (.error e, s')
      | .ok () => run (ServiceState.step os) u q' s' := by
  rw [Service.attempt, run_bind_of_eq h]
  cases r <;> rfl

/-- An action that only looks, and what is done with what it sees. -/
theorem runs_look {α : Type} {o : ServiceOp} {x : o.Ret} {k : o.Ret → ServiceProg α} {r : α}
    (ho : ServiceState.step os u o s = some (x, s)) (hk : Runs os u (k x) s r s) :
    Runs os u (Service.perform o >>= k) s r s :=
  (run_perform_bind ho).trans hk

theorem step_readFile (os : Os) (u : ℕ) (s : ServiceState) (path : PathBuf String) :
    ServiceState.step os u (.readFile path) s = some (s.tree.readFile os.naming path, s) := rfl

theorem step_present (os : Os) (u : ℕ) (s : ServiceState) (path : PathBuf String) :
    ServiceState.step os u (.present path) s = some (s.tree.present os.naming path, s) := rfl

/-- In a directory that is there, `create_dir_all` does nothing. -/
theorem runs_createDirAll (h : s.tree.isDirectory os.naming path = true) :
    Runs os u (createDirAll path) s (.ok ()) s := by
  obtain ⟨cs, dot⟩ := path
  rw [createDirAll]
  rcases List.eq_nil_or_concat cs with rfl | ⟨cs, c, rfl⟩
  · rfl
  · rw [List.concat_eq_append] at h ⊢
    have hrev : (c :: cs.reverse).reverse = cs ++ [c] := by
      rw [List.reverse_cons, List.reverse_reverse]
    have hmkdir : ServiceState.step os u (.mkdir ⟨cs ++ [c], dot⟩) s =
        some (.error .alreadyExists, s) := by
      change some (s.onTree _) = _
      rw [mkdir_of_isDirectory h]
      rfl
    have hthere : ServiceState.step os u (.isDirectory ⟨cs ++ [c], dot⟩) s = some (true, s) := by
      change some (s.tree.isDirectory _ _, s) = _
      rw [h]
    dsimp only
    rw [List.reverse_append, List.reverse_singleton, List.singleton_append, createDirs, hrev]
    exact runs_look hmkdir (runs_look hthere rfl)

section

variable (os u) (hdir : s.tree.isDirectory os.naming path = true)

include hdir

theorem runs_readConfig : ∃ r, Runs os u (readConfig path) s r s ∧
    ∀ cfg, r = .ok cfg ↔ HasConfig s.tree path.location cfg := by
  have hread : ∀ cfg, s.tree.readFile os.naming (path.join "config") = .ok (.config cfg) ↔
      HasConfig s.tree path.location cfg := fun cfg => by
    rw [readFile_join_iff hdir, and_iff_right (Os.passes os (by decide)), HasConfig]
  simp only [← hread]
  have hlook := step_readFile os u s (path.join "config")
  generalize s.tree.readFile os.naming (path.join "config") = x at hlook ⊢
  rcases x with e | f
  · exact ⟨_, runs_look hlook rfl, fun cfg => by simp⟩
  · cases f <;> exact ⟨_, runs_look hlook rfl, fun cfg => by simp⟩

/-- The versions are recovered if there are none, or they can be read. -/
theorem runs_recoverVersions : ∃ r, Runs os u (recoverVersions path) s r s ∧
    (r = .ok () ↔ s.tree (path.location ++ ["versions"]) = none ∨
      s.tree (path.location ++ ["versions"]) = some (.file .versions)) := by
  have hp := Os.passes os (n := "versions") (by decide)
  have hread := readFile_join_iff (a := File.versions) (s := "versions") hdir
  rw [and_iff_right hp] at hread
  rw [← hread, ← Option.not_isSome_iff_eq_none, ← present_join hdir hp]
  have hlook := step_present os u s (path.join "versions")
  have hlook' := step_readFile os u s (path.join "versions")
  generalize s.tree.present os.naming (path.join "versions") = b at hlook ⊢
  generalize s.tree.readFile os.naming (path.join "versions") = x at hlook' ⊢
  cases b with
  | false => exact ⟨_, runs_look hlook rfl, by simp⟩
  | true =>
    rcases x with e | f
    · exact ⟨_, runs_look hlook (runs_look hlook' rfl), by simp⟩
    · cases f <;> exact ⟨_, runs_look hlook (runs_look hlook' rfl), by simp⟩

/-- The active log is known if there is no `HEAD`, or it can be read. -/
theorem runs_activeLog : ∃ r, Runs os u (activeLog path) s r s ∧
    ∀ log, r = .ok log ↔ ActiveLog s.tree path.location log := by
  have hp := Os.passes os (n := "HEAD") (by decide)
  have hlook := step_present os u s (path.join "HEAD")
  rw [present_join hdir hp] at hlook
  have hread : ∀ log, s.tree.readFile os.naming (path.join "HEAD") = .ok (.head log) ↔
      s.tree (path.location ++ ["HEAD"]) = some (.file (.head log)) := fun log => by
    rw [readFile_join_iff hdir, and_iff_right hp]
  simp only [ActiveLog]
  match ht : s.tree (path.location ++ ["HEAD"]) with
  | none =>
    rw [ht] at hlook
    exact ⟨_, runs_look hlook rfl, fun log => by simp [eq_comm]⟩
  | some x =>
    rw [ht] at hlook hread
    simp only [← hread, reduceCtorEq, false_and, false_or]
    have hlook' := step_readFile os u s (path.join "HEAD")
    generalize s.tree.readFile os.naming (path.join "HEAD") = x at hlook' ⊢
    rcases x with e | f
    · exact ⟨_, runs_look hlook (runs_look hlook' rfl), fun log => by simp⟩
    · cases f <;> exact ⟨_, runs_look hlook (runs_look hlook' rfl), fun log => by simp⟩

/-- The log file put, and read back. -/
theorem runs_openLogFile {log : String} {t' : FileTree String File}
    (hp : os.naming.passes log = true)
    (hput : s.tree.writeFile os.naming (path.join log) .log = .ok t')
    (ht' : t' (path.location ++ [log]) = some (.file .log))
    (hw : Within path.location s.tree t') :
    Runs os u (openLogFile (path.join log)) s (.ok ()) { s with tree := t' } := by
  have hstep : ServiceState.step os u (.putFile (path.join log) .log) s =
      some (.ok (), { s with tree := t' }) := by
    change some (s.onTree _) = _
    rw [hput]
    rfl
  have hread := step_readFile os u { s with tree := t' } (path.join log)
  rw [readFile_join_of_file (isDirectory_mono hw.isDir hdir) hp ht'] at hread
  exact (run_perform_bind hstep).trans (runs_look hread rfl)

/-- **Opening the log**: it is there or can be made; nothing outside the directory changes. -/
theorem runs_openWal (hdot : path.dot = false) (log : String) :
    ∃ r s', Runs os u (openWal (path.join log)) s r s' ∧
      (r = .ok () ↔ LogOpens os s.tree path.location log) ∧ Within path.location s.tree s'.tree ∧
      s'.registry = s.registry := by
  have hmake : Runs os u (createDirAll (path.join log).parent) s (.ok ()) s := by
    rw [PathBuf.parent_join, ← hdot]
    exact runs_createDirAll hdir
  have hlook := step_readFile os u s (path.join log)
  -- what is read decides whether the file is opened
  have hopen : ∀ {f r s'}, s.tree.readFile os.naming (path.join log) = .ok f ∨
      s.tree.readFile os.naming (path.join log) = .error .notFound →
      Runs os u (openLogFile (path.join log)) s r s' →
        Runs os u (openWal (path.join log)) s r s' := by
    intro f r s' hx hr
    rw [Runs, openWal, run_bind_of_eq hmake]
    rcases hx with hx | hx
    all_goals
      rw [hx] at hlook
      refine (run_perform_bind hlook).trans ?_
      exact hr
  have hfail : ∀ e, e ≠ .notFound → s.tree.readFile os.naming (path.join log) = .error e →
      Runs os u (openWal (path.join log)) s (.error (.io (some (path.join log)) e)) s ∧
        ¬ LogOpens os s.tree path.location log := by
    intro e he hx
    constructor
    · rw [Runs, openWal, run_bind_of_eq hmake]
      rw [hx] at hlook
      cases e with
      | notFound => exact absurd rfl he
      | alreadyExists | other => exact (run_perform_bind hlook).trans rfl
    · rintro ⟨hp, ⟨ht, -⟩ | ⟨f, ht⟩⟩
      · cases hx.symm.trans ((readFile_join_eq_notFound hdir).mpr ⟨hp, ht⟩)
        exact he rfl
      · cases hx.symm.trans ((readFile_join_iff hdir).mpr ⟨hp, ht⟩)
  match hx : s.tree.readFile os.naming (path.join log) with
  | .ok f =>
    obtain ⟨hp, ht⟩ := (readFile_join_iff hdir).mp hx
    have hw := within_replace (f := .log) ht
    exact ⟨_, _, hopen (.inl hx) (runs_openLogFile os u hdir hp (writeFile_join_of_file hdir hp ht)
      replace_self hw), iff_of_true rfl ⟨hp, .inr ⟨f, ht⟩⟩, hw, rfl⟩
  | .error .notFound =>
    obtain ⟨hp, ht⟩ := (readFile_join_eq_notFound hdir).mp hx
    have hlog : LogOpens os s.tree path.location log ↔ os.naming.admits log = true := by
      rw [LogOpens, ht, and_iff_right hp]
      simp
    rw [hlog]
    cases ha : os.naming.admits log with
    | true =>
      have hw := within_add (f := .log) ht
      exact ⟨_, _, hopen (f := .log) (.inr hx) (runs_openLogFile os u hdir hp
        (writeFile_join_of_none hdir hp ha ht) add_self hw), iff_of_true rfl rfl, hw, rfl⟩
    | false =>
      have hstep : ServiceState.step os u (.putFile (path.join log) .log) s =
          some (.error .other, s) := by
        change some (s.onTree _) = _
        rw [writeFile_join_of_refused hdir hp ha ht]
        rfl
      have hrun : Runs os u (openLogFile (path.join log)) s
          (.error (.io (some (path.join log)) .other)) s := (run_perform_bind hstep).trans rfl
      exact ⟨_, s, hopen (f := .log) (.inr hx) hrun,
        iff_of_false (fun h => by cases h) fun h => Bool.false_ne_true h, .refl _ _, rfl⟩
  | .error .alreadyExists | .error .other =>
    obtain ⟨hr, hlog⟩ := hfail _ (fun h => by cases h) hx
    exact ⟨_, s, hr, iff_of_false (fun h => by cases h) hlog, .refl _ _, rfl⟩

/-- **The recovery of a directory.** -/
theorem runs_recoverDir (hdot : path.dot = false) :
    ∃ r s', Runs os u (recoverDir path) s r s' ∧
      (r = .ok () ↔ Recovers os s.tree path.location) ∧ Within path.location s.tree s'.tree ∧
      s'.registry = s.registry := by
  obtain ⟨r₁, hr₁, hv⟩ := runs_recoverVersions os u hdir
  obtain ⟨r₂, hr₂, ha⟩ := runs_activeLog os u hdir
  simp only [Runs, recoverDir]
  rw [Runs.attempt hr₁]
  cases r₁ with
  | error e =>
    refine ⟨_, s, rfl, iff_of_false (fun h => by cases h) fun h => ?_, .refl _ _, rfl⟩
    cases hv.mpr h.versions
  | ok v =>
    dsimp only
    rw [run_bind_of_eq hr₂]
    cases r₂ with
    | error e =>
      refine ⟨_, s, rfl, iff_of_false (fun h => by cases h) fun ⟨_, log, h, _⟩ => ?_,
        .refl _ _, rfl⟩
      cases (ha log).mpr h
    | ok log =>
      obtain ⟨r, s', hr, hok, hw⟩ := runs_openWal os u hdir hdot log
      refine ⟨r, s', hr, hok.trans ⟨fun h => ⟨hv.mp rfl, log, (ha log).mp rfl, h⟩,
        fun ⟨_, log', h, ho⟩ => ?_⟩, hw⟩
      obtain rfl : log = log' := Except.ok.inj ((ha log').mpr h)
      exact ho

/-- **Opening a collection** whose config file is there. -/
theorem runs_openCollection (hdot : path.dot = false) {cfg : CollectionConfig}
    (hcfg : HasConfig s.tree path.location cfg) :
    ∃ r s', Runs os u (openCollection path cfg) s r s' ∧
      (r = .ok () ↔ Recovers os s.tree path.location) ∧ Within path.location s.tree s'.tree ∧
      s'.registry = s.registry := by
  obtain ⟨r, s', hr, hok, hw⟩ := runs_recoverDir os u hdir hdot
  refine ⟨r, s', (run_bind_of_eq (runs_createDirAll hdir)).trans ?_, hok, hw⟩
  have hthere : Runs os u (writeConfigIfAbsent path cfg) s (.ok ()) s := by
    have hlook := step_present os u s (path.join "config")
    rw [present_join hdir (Os.passes os (by decide)), hcfg] at hlook
    exact runs_look hlook rfl
  exact (Runs.attempt hthere).trans hr

end

/-! ## The entries, one after another -/

/-- An insert in the registry, of a name that may be taken. -/
theorem step_registryInsertNew (os : Os) (u : ℕ) (s : ServiceState) (m : String)
    (cfg : CollectionConfig) :
    ∃ (b : Bool) (s' : ServiceState),
      ServiceState.step os u (.registryInsertNew m cfg) s = some (b, s') ∧ s'.tree = s.tree ∧
      (∀ k, k ≠ m → s'.registry k = s.registry k) ∧
      (s.registry m = none → s'.registry m = some ⟨u, cfg⟩) := by
  rw [ServiceState.step]
  split
  · rename_i h
    exact ⟨_, _, rfl, rfl, fun _ _ => rfl, fun hn => by
      rw [hn] at h
      cases h⟩
  · exact ⟨_, _, rfl, rfl, fun k hk => Function.update_of_ne hk .., fun _ =>
      Function.update_self ..⟩

variable {dataDir : List String}

/-- What the recovery of an entry leaves: the rest of the directory, the rest of the registry, and
under its name the config it has, if it is opened. -/
structure EntryRecovered (os : Os) (p : List String) (m : String) (r : Except ServiceError Unit)
    (s s' : ServiceState) : Prop where
  ok_iff : r = .ok () ↔ Opens os s.tree p m
  within : Within (p ++ [m]) s.tree s'.tree
  others : ∀ k, k ≠ m → s'.registry k = s.registry k
  registered : r = .ok () → s.registry m = none → ∀ cfg,
    (s'.registry m).map Handle.config = some cfg ↔
      Entered os s.tree p m ∧ HasConfig s.tree (p ++ [m]) cfg

/-- **One entry recovered.** -/
theorem runs_recoverEntry (hdir : s.tree.isDirectory os.naming (collectionsDir dataDir) = true)
    (m : String) : ∃ r s', Runs os u (recoverEntry dataDir m) s r s' ∧
      EntryRecovered os (collectionsDir dataDir).location m r s s' := by
  have hentered : s.tree.isDirectory os.naming ((collectionsDir dataDir).join m) = true ↔
      Entered os s.tree (collectionsDir dataDir).location m := isDirectory_join_iff hdir
  have hlook : ServiceState.step os u (.isDirectory ((collectionsDir dataDir).join m)) s =
      some (s.tree.isDirectory os.naming ((collectionsDir dataDir).join m), s) := rfl
  by_cases hm : s.tree.isDirectory os.naming ((collectionsDir dataDir).join m) = true
  · rw [hm] at hlook
    have he := hentered.mp hm
    have hloc := PathBuf.location_join (collectionsDir dataDir) m
    obtain ⟨r₁, hr₁, hcfg⟩ := runs_readConfig os u hm
    simp only [Runs, recoverEntry]
    rw [run_perform_bind hlook, if_pos rfl]
    rw [run_bind_of_eq hr₁]
    rw [hloc] at hcfg
    cases r₁ with
    | error e =>
      have hno : ¬ Opens os s.tree (collectionsDir dataDir).location m := fun h => by
        obtain ⟨⟨cfg, hc⟩, -⟩ := h he
        cases (hcfg cfg).mpr hc
      exact ⟨_, s, rfl, iff_of_false (fun h => by cases h) hno, .refl _ _, fun _ _ => rfl,
        fun h => by cases h⟩
    | ok config =>
      have hc := (hcfg config).mp rfl
      have hc' : HasConfig s.tree ((collectionsDir dataDir).join m).location config := by rwa [hloc]
      obtain ⟨r₂, s₂, hr₂, hok, hw, hreg⟩ := runs_openCollection os u hm rfl hc'
      rw [hloc] at hok hw
      have hopens : r₂ = .ok () ↔ Opens os s.tree (collectionsDir dataDir).location m :=
        hok.trans ⟨fun h _ => ⟨⟨_, hc⟩, h⟩, fun h => (h he).2⟩
      dsimp only
      rw [Runs.attempt hr₂]
      cases r₂ with
      | error e =>
        refine ⟨_, s₂, rfl, iff_of_false (fun h => by cases h) fun h => ?_, hw,
          fun k _ => by rw [hreg], fun h => by cases h⟩
        cases hopens.mpr h
      | ok v =>
        obtain ⟨b, s₃, hins, htree, hkeep, hnew⟩ := step_registryInsertNew os u s₂ m
          config
        rw [hreg] at hkeep hnew
        refine ⟨.ok (), s₃, run_perform_bind hins, iff_of_true rfl (hopens.mp rfl),
          htree ▸ hw, hkeep,
          fun _ hn cfg => ?_⟩
        rw [hnew hn, Option.map_some, Option.some.injEq, and_iff_right he, ← hcfg, Except.ok.injEq]
  · have hne := mt hentered.mpr hm
    rw [Bool.eq_false_iff.mpr hm] at hlook
    refine ⟨.ok (), s, runs_look hlook rfl, iff_of_true rfl fun h => absurd h hne, .refl _ _,
      fun _ _ => rfl, fun _ hn cfg => ?_⟩
    rw [hn]
    exact iff_of_false (fun h => by cases h) fun h => hne h.1

/-- **The entries recovered**: each has to open. -/
theorem runs_recoverEach {names : List String} (hnodup : names.Nodup)
    (hdir : s.tree.isDirectory os.naming (collectionsDir dataDir) = true) :
    ∃ r s', Runs os u (recoverEach dataDir names) s r s' ∧
      (r = .ok () ↔ ∀ m ∈ names, Opens os s.tree (collectionsDir dataDir).location m) ∧
      (∀ k ∉ names, s'.registry k = s.registry k) ∧
      (r = .ok () → ∀ m ∈ names, s.registry m = none → ∀ cfg,
        (s'.registry m).map Handle.config = some cfg ↔
          Entered os s.tree (collectionsDir dataDir).location m ∧
            HasConfig s.tree ((collectionsDir dataDir).location ++ [m]) cfg) := by
  induction names generalizing s with
  | nil =>
    exact ⟨.ok (), s, rfl, iff_of_true rfl (List.forall_mem_nil _), fun _ _ => rfl,
      fun _ m hm => absurd hm List.not_mem_nil⟩
  | cons m names ih =>
    obtain ⟨hm, hnodup⟩ := List.nodup_cons.mp hnodup
    obtain ⟨r₁, s₁, hr₁, he⟩ := runs_recoverEntry (u := u) hdir m
    have hother : ∀ m' ∈ names, m' ≠ m := fun m' h => ne_of_mem_of_not_mem h hm
    simp only [Runs, recoverEach]
    rw [Runs.attempt hr₁]
    cases r₁ with
    | error e =>
      refine ⟨_, s₁, rfl, iff_of_false (fun h => by cases h) fun h => ?_, fun k hk =>
        ?_, fun h => by
        cases h⟩
      · cases he.ok_iff.mpr (h m List.mem_cons_self)
      · exact he.others k fun heq => hk (heq ▸ List.mem_cons_self)
    | ok v =>
      obtain ⟨r₂, s₂, hr₂, hok, hkeep, hnew⟩ := ih hnodup (isDirectory_mono he.within.isDir hdir)
      have hopens : ∀ m' ∈ names, Opens os s₁.tree (collectionsDir dataDir).location m' ↔
          Opens os s.tree (collectionsDir dataDir).location m' := fun m' hm' =>
        opens_congr (he.within.other (hother m' hm')).1 (he.within.other (hother m' hm')).2
      refine ⟨r₂, s₂, hr₂, ?_, fun k hk => ?_, fun h m' hm' hn cfg => ?_⟩
      · rw [hok, forall₂_congr hopens, List.forall_mem_cons, and_iff_right (he.ok_iff.mp rfl)]
      · rw [List.mem_cons, not_or] at hk
        rw [hkeep k hk.2, he.others k hk.1]
      · rcases List.mem_cons.mp hm' with rfl | hm'
        · rw [hkeep m' hm]
          exact he.registered rfl hn cfg
        · obtain ⟨hat, hin⟩ := he.within.other (hother m' hm')
          rw [hnew h m' hm' (by rw [he.others _ (hother m' hm'), hn]), Entered, Entered,
            isDir_congr hat, HasConfig, HasConfig, hin]

/-- **When a restart reopens a collection**: every entry beside it opens, and it is one, with this
config. -/
theorem reopens_iff {name : String} {cfg : CollectionConfig} (hw : t.WellFormed)
    (hdir : t.isDirectory os.naming (collectionsDir dataDir) = true) :
    Reopens os dataDir t name cfg ↔
      (∀ m ∈ t.entries (collectionsDir dataDir).location,
        Opens os t (collectionsDir dataDir).location m) ∧
      Entered os t (collectionsDir dataDir).location name ∧
      HasConfig t ((collectionsDir dataDir).location ++ [name]) cfg := by
  have hperm := os.order_perm (t.entries (collectionsDir dataDir).location)
  obtain ⟨r, s', hr, hok, hkeep, hnew⟩ := runs_recoverEach (u := 0) (s := ⟨fun _ => none, t⟩)
    (hperm.nodup_iff.mpr (hw.nodup _)) hdir
  have hpresent : ServiceState.step os 0 (.present (collectionsDir dataDir)) ⟨fun _ => none, t⟩ =
      some (true, ⟨fun _ => none, t⟩) := by
    change some (t.present _ _, _) = _
    rw [present_of_isDirectory hdir]
  have hlist : ServiceState.step os 0 (.readDir (collectionsDir dataDir)) ⟨fun _ => none, t⟩ =
      some (.ok (os.order (t.entries (collectionsDir dataDir).location)), ⟨fun _ => none, t⟩) := by
    change some ((t.openDir _ _).map _, _) = _
    rw [openDir_of_isDirectory hdir]
    rfl
  have hrun : Runs os 0 (recoverAll dataDir) ⟨fun _ => none, t⟩ r s' := by
    simp only [Runs, recoverAll]
    rw [run_perform_bind hpresent, if_pos rfl, run_perform_bind hlist]
    exact hr
  simp only [hperm.mem_iff] at hok hkeep hnew
  have hmem : Entered os t (collectionsDir dataDir).location name →
      name ∈ t.entries (collectionsDir dataDir).location := fun h => by
    rw [hw.mem_entries, eq_dir_entries h.2]
    rfl
  constructor
  · rintro ⟨s'', hrun', hcfg⟩
    obtain ⟨rfl, rfl⟩ : r = .ok () ∧ s' = s'' := by
      cases hrun.symm.trans hrun'
      exact ⟨rfl, rfl⟩
    have hin : name ∈ t.entries (collectionsDir dataDir).location := by
      by_contra hin
      rw [hkeep name hin] at hcfg
      cases hcfg
    exact ⟨hok.mp rfl, (hnew rfl name hin trivial cfg).mp hcfg⟩
  · rintro ⟨hopens, hname, hcfg⟩
    obtain rfl := hok.mpr hopens
    exact ⟨s', hrun, (hnew rfl name (hmem hname) trivial cfg).mpr ⟨hname, hcfg⟩⟩

/-- A restart that reopens something has found the collections directory. -/
theorem Reopens.isDirectory {name : String} {cfg : CollectionConfig}
    (h : Reopens os dataDir t name cfg) :
    t.isDirectory os.naming (collectionsDir dataDir) = true := by
  obtain ⟨s', hrun, hcfg⟩ := h
  have hpresent : ServiceState.step os 0 (.present (collectionsDir dataDir)) ⟨fun _ => none, t⟩ =
      some (t.present os.naming (collectionsDir dataDir), ⟨fun _ => none, t⟩) := rfl
  have hlist : ServiceState.step os 0 (.readDir (collectionsDir dataDir)) ⟨fun _ => none, t⟩ =
      some ((t.openDir os.naming (collectionsDir dataDir)).map fun p => os.order (t.entries p),
        ⟨fun _ => none, t⟩) := rfl
  rw [recoverAll] at hrun
  cases hp : t.present os.naming (collectionsDir dataDir) with
  | false =>
    rw [hp] at hpresent
    rw [run_perform_bind hpresent] at hrun
    cases hrun
    cases hcfg
  | true =>
    rw [hp] at hpresent
    rw [run_perform_bind hpresent, if_pos rfl] at hrun
    match ho : t.openDir os.naming (collectionsDir dataDir) with
    | .ok p => exact isDirectory_of_openDir ho
    | .error e =>
      rw [ho] at hlist
      rw [run_perform_bind hlist] at hrun
      cases hrun

end Service

end Vecvec
