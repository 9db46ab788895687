import Vecvec.Machinery.Frame
import Vecvec.Service.Calls

/-!
# Service/Touches — what a create may change

A create makes directories on the way to its own, and puts files in it: nothing else in the tree
changes, whatever the calls beside it do (`alikeBut_of_steps`), and every entry it makes has a plain
name (`plainEntries_of_steps`).
-/

namespace Vecvec

open Machinery FileTree

namespace Service

/-! ## The actions of a create -/

/-- The actions that change the tree at most on the way to a directory, or in it. -/
def Touches (dir : PathBuf String) : ServiceOp → Prop
  | .mkdir path => path.steps <+: dir.steps
  | .putFile path _ => ∃ n, path = dir.join n
  | _ => True

variable {dir path : PathBuf String} {name : String}

theorem only_attempt {φ : ServiceOp → Prop} {α : Type}
    {p : ServiceProg (Except ServiceError Unit)} {q : ServiceProg (Except ServiceError α)}
    (hp : @Prog.Only serviceInterface _ φ p) (hq : @Prog.Only serviceInterface _ φ q) :
    @Prog.Only serviceInterface _ φ (attempt p q) :=
  hp.bind fun r => by
    cases r with
    | error e => trivial
    | ok v => exact hq

/-- A call whose actions touch at most the directory. -/
abbrev OnlyTouches {α : Type} (dir : PathBuf String) (p : ServiceProg α) : Prop :=
  @Prog.Only serviceInterface _ (Touches dir) p

theorem touches_orIsDirectory (path : PathBuf String) (e : IoError) :
    OnlyTouches dir (orIsDirectory path e) :=
  ⟨trivial, fun b => by cases b <;> trivial⟩

theorem touches_mkdirIn (h : path.steps <+: dir.steps) : OnlyTouches dir (mkdirIn path) :=
  ⟨h, fun r => by
    cases r with
    | error e => exact touches_orIsDirectory path e
    | ok v => trivial⟩

theorem touches_createDirs (cs : List (Component String)) (dot : Bool)
    (h : cs.reverse <+: dir.steps) : OnlyTouches dir (createDirs cs dot) := by
  induction cs generalizing dot with
  | nil => trivial
  | cons c cs ih =>
    refine ⟨h, fun r => ?_⟩
    match r with
    | .ok () => trivial
    | .error .notFound =>
      refine (ih false ?_).bind fun r => ?_
      · rw [List.reverse_cons] at h
        exact (List.prefix_append _ _).trans h
      · cases r with
        | error e => trivial
        | ok v => exact touches_mkdirIn h
    | .error .alreadyExists | .error .other => exact touches_orIsDirectory _ _

theorem touches_createDirAll (h : path.steps <+: dir.steps) :
    OnlyTouches dir (createDirAll path) :=
  touches_createDirs _ _ (by rwa [List.reverse_reverse])

theorem touches_writeConfigIfAbsent (cfg : CollectionConfig) :
    OnlyTouches dir (writeConfigIfAbsent dir cfg) :=
  ⟨trivial, fun b => by
    cases b with
    | true => trivial
    | false =>
      refine ⟨trivial, fun r => ?_⟩
      cases r with
      | error e => trivial
      | ok v => exact ⟨⟨_, rfl⟩, fun r => by cases r <;> trivial⟩⟩

theorem touches_openWal (log : String) : OnlyTouches dir (openWal (dir.join log)) := by
  refine (touches_createDirAll ?_).bind fun r => ?_
  · rw [PathBuf.parent_join]
  · cases r with
    | error e => trivial
    | ok v =>
      have hopen : OnlyTouches dir (openLogFile (dir.join log)) :=
        ⟨⟨_, rfl⟩, fun r => by
          cases r with
          | error e => trivial
          | ok v => exact ⟨trivial, fun r => by rcases r with (_ | _ | _) | _ <;> trivial⟩⟩
      refine ⟨trivial, fun r => ?_⟩
      match r with
      | .ok _ | .error .notFound => exact hopen
      | .error .alreadyExists | .error .other => trivial

theorem touches_recoverDir : OnlyTouches dir (recoverDir dir) := by
  refine only_attempt ⟨trivial, fun b => ?_⟩ (Prog.Only.bind (p := activeLog dir)
    ⟨trivial, fun b => ?_⟩ fun r => ?_)
  · cases b with
    | false => trivial
    | true => exact ⟨trivial, fun r => by rcases r with _ | (_ | _ | _ | _) <;> trivial⟩
  · cases b with
    | false => trivial
    | true => exact ⟨trivial, fun r => by rcases r with _ | (_ | _ | _ | _) <;> trivial⟩
  · cases r with
    | error e => trivial
    | ok log => exact touches_openWal log

theorem touches_openCollection (cfg : CollectionConfig) :
    OnlyTouches dir (openCollection dir cfg) :=
  (touches_createDirAll (List.prefix_refl _)).bind fun r => by
    cases r with
    | error e => trivial
    | ok v => exact only_attempt (touches_writeConfigIfAbsent cfg) touches_recoverDir

/-- **A whole create.** -/
theorem touches_createCollection (dataDir : List String) (name : String) (dim : ℕ)
    (metric : Metric) :
    OnlyTouches (joinName (collectionsDir dataDir) name)
      (createCollection dataDir name dim metric) := by
  rw [createCollection]
  split
  · trivial
  · refine ⟨trivial, fun r => ?_⟩
    cases r with
    | some x => trivial
    | none =>
      exact only_attempt (touches_openCollection _) ⟨trivial, fun b => by cases b <;> trivial⟩

/-! ## What they change -/

variable {os : Os} {s s' : ServiceState} {t : ℕ} {o : ServiceOp} {r : o.Ret}

/-- **What an action does to the tree**: nothing, a new entry of a directory under an admitted name,
or a file in the place of another. -/
theorem tree_step_cases (hst : ServiceState.step os t o s = some (r, s')) :
    s'.tree = s.tree ∨ ∃ path, (o = .mkdir path ∨ ∃ f, o = .putFile path f) ∧
      ((∃ q n x, path.location = q ++ [n] ∧ s.tree.isDir q = true ∧ os.naming.admits n = true ∧
          s'.tree = s.tree.add q n x) ∨
        ∃ f g, s.tree path.location = some (.file g) ∧
          s'.tree = s.tree.replace path.location f) := by
  cases o with
  | mkdir path =>
    obtain ⟨-, rfl⟩ := Prod.ext_iff.mp (Option.some.inj hst)
    match hmk : s.tree.mkdir os.naming path with
    | .error e => exact .inl rfl
    | .ok t' =>
      obtain ⟨q, n, hres, hd, -, hn, rfl⟩ := mkdir_cases hmk
      exact .inr ⟨path, .inl rfl, .inl ⟨q, n, _, (location_of_resolve hres).symm, hd, hn, rfl⟩⟩
  | putFile path f =>
    obtain ⟨-, rfl⟩ := Prod.ext_iff.mp (Option.some.inj hst)
    match hput : s.tree.writeFile os.naming path f with
    | .error e => exact .inl rfl
    | .ok t' =>
      obtain ⟨p, hres, ⟨g, hg, rfl⟩ | ⟨q, n, rfl, hd, -, hn, rfl⟩⟩ := writeFile_cases hput
      · obtain rfl := location_of_resolve hres
        exact .inr ⟨path, .inr ⟨f, rfl⟩, .inr ⟨f, g, hg, rfl⟩⟩
      · exact .inr ⟨path, .inr ⟨f, rfl⟩, .inl ⟨q, n, _, (location_of_resolve hres).symm, hd, hn,
          rfl⟩⟩
  | registryInsertNew name cfg =>
    rw [ServiceState.step] at hst
    split at hst <;> cases hst <;> exact .inl rfl
  | registryGet | present | isDirectory | createTemp | readFile | readDir =>
    cases hst
    exact .inl rfl

/-- Every entry of the tree has a plain name. -/
def PlainEntries (t : FileTree String File) : Prop := ∀ p n, (t (p ++ [n])).isSome = true → Plain n

theorem plainEntries_step (hp : PlainEntries s.tree)
    (hst : ServiceState.step os t o s = some (r, s')) : PlainEntries s'.tree := by
  intro p m hm
  rcases tree_step_cases hst with h | ⟨path, -, ⟨q, n, x, -, hd, hn, h⟩ | ⟨f, g, hg, h⟩⟩
  · rw [h] at hm
    exact hp p m hm
  · rw [h] at hm
    by_cases hnew : p ++ [m] = q ++ [n]
    · obtain ⟨rfl, rfl⟩ := append_singleton_inj.mp hnew
      exact os.admits_plain m hn
    · by_cases hq : p ++ [m] = q
      · exact hp p m (by rw [hq, eq_dir_entries hd]; rfl)
      · rw [add_of_ne hq hnew] at hm
        exact hp p m hm
  · rw [h] at hm
    by_cases he : p ++ [m] = path.location
    · exact hp p m (by rw [he, hg]; rfl)
    · rw [replace_of_ne he] at hm
      exact hp p m hm

/-- The trees are alike but on the way to a location, and in it. -/
def AlikeBut (ns : List String) (t t' : FileTree String File) : Prop :=
  ∀ l, ¬ l <+: ns → (∀ n, l ≠ ns ++ [n]) → t' l = t l

variable {ns : List String} {t₀ : FileTree String File}

theorem alikeBut_step (ho : Touches ⟨ns.map .name, false⟩ o) (h : AlikeBut ns t₀ s.tree)
    (hst : ServiceState.step os t o s = some (r, s')) : AlikeBut ns t₀ s'.tree := by
  intro l hl hl'
  rw [← h l hl hl']
  -- where the action leads
  have hwhere : ∀ path : PathBuf String, (o = .mkdir path ∨ ∃ f, o = .putFile path f) →
      path.location <+: ns ∨ ∃ n, path.location = ns ++ [n] := by
    rintro path (rfl | ⟨f, rfl⟩)
    · obtain ⟨ns', hns, hsteps⟩ := List.prefix_map_iff.mp ho
      refine .inl ?_
      rw [PathBuf.location, hsteps, PathBuf.foldl_move_names, List.nil_append]
      exact hns
    · obtain ⟨n, rfl⟩ := ho
      exact .inr ⟨n, by rw [PathBuf.location_join, PathBuf.location_names]⟩
  rcases tree_step_cases hst with h | ⟨path, hpath, ⟨q, n, x, hq, -, -, h⟩ | ⟨f, g, -, h⟩⟩
  · rw [h]
  · rw [h]
    rcases hwhere path hpath with hin | ⟨m, hin⟩
    · rw [hq] at hin
      exact add_of_ne (fun he => hl (he ▸ (List.prefix_append q [n]).trans hin))
        fun he => hl (he ▸ hin)
    · rw [hq] at hin
      obtain ⟨rfl, rfl⟩ := append_singleton_inj.mp hin
      exact add_of_ne (fun he => hl (he ▸ List.prefix_refl _)) (hl' n)
  · rw [h]
    rcases hwhere path hpath with hin | ⟨m, hin⟩
    · exact replace_of_ne fun he => hl (he ▸ hin)
    · exact replace_of_ne fun he => hl' m (he.trans hin)

variable {ρ : Type} {c c' : Config serviceInterface ServiceState ρ}

/-- **Whatever the calls, the entries stay plain.** -/
theorem plainEntries_of_steps (hst : Config.Steps (ServiceState.step os) Config.anyOrder c c')
    (hp : PlainEntries c.shared.tree) : PlainEntries c'.shared.tree :=
  Config.invariant_of_only (φ := fun _ => True) (J := fun s => PlainEntries s.tree)
    (fun _ _ _ _ _ _ hp hs => plainEntries_step hp hs) (fun _ => Prog.only_true _) hp hst

/-- **What is elsewhere stays as it was**, whatever the interleaving. -/
theorem alikeBut_of_steps (hst : Config.Steps (ServiceState.step os) Config.anyOrder c c')
    (hc : ∀ t, OnlyTouches ⟨ns.map .name, false⟩ (c.pool t)) :
    AlikeBut ns c.shared.tree c'.shared.tree :=
  Config.invariant_of_only (J := fun s => AlikeBut ns c.shared.tree s.tree)
    (fun _ _ _ _ _ ho h hs => alikeBut_step ho h hs) hc (fun _ _ _ => rfl) hst

end Service

end Vecvec
