import Vecvec.Machinery.RelyGuarantee
import Vecvec.Service.Calls

/-!
# Service/Creates — concurrent creates of one name

Calls of `create_collection` for a free name race twice: for the config file, which only the check
before it keeps from being written again, and for the registry, where the first to insert wins.  The
two races need not have the same winner.
-/

namespace Vecvec

open Machinery FileTree

namespace Service

/-! ## A directory being made into a collection -/

/-- A path that ends in its last component, and does not lead below its own end on the way. -/
structure Straight (dir : PathBuf String) : Prop where
  no_dot : dir.dot = false
  not_below : ∀ cs, cs <+: dir.steps → ∀ n, cs.foldl Component.move [] ≠ dir.location ++ [n]

variable (os : Os) (dir : PathBuf String) (name : String) (files : CollectionConfig → Prop)
  (asked : Handle → Prop)

/-- **What creates of a name keep**: the way to its directory is clear, and in the directory is
nothing but a config among `files` and a log; the collection registered is among those `asked`
for. -/
structure Opening (s : ServiceState) : Prop where
  wf : s.tree.WellFormed
  clear : Clear os.naming s.tree dir.steps
  inside : ∀ n, s.tree (dir.location ++ [n]) = none ∨
    (n = "config" ∧ ∃ cfg, files cfg ∧
      s.tree (dir.location ++ [n]) = some (.file (.config cfg))) ∨
    n = "wal.0.log" ∧ s.tree (dir.location ++ [n]) = some (.file .log)
  registered : ∀ h, s.registry name = some h → asked h

/-- The collection's config is on the disk. -/
def ConfigThere (s : ServiceState) : Prop :=
  ∃ cfg, s.tree (dir.location ++ ["config"]) = some (.file (.config cfg))

/-- What a create relies on: directories stay, a config is at most replaced, the registry entry
stays, and nobody else inserts in its name. -/
structure Rely (t : ℕ) (s s' : ServiceState) : Prop where
  dirs : ∀ p, s.tree.isDir p = true → s'.tree.isDir p = true
  config : ConfigThere dir s → ConfigThere dir s'
  kept : ∀ h, s.registry name = some h → s'.registry name = some h
  own : ∀ h, s'.registry name = some h → h.opener = t → s.registry name = some h

variable {os dir name files asked} {t : ℕ} {s s' s'' : ServiceState}

theorem Rely.refl (t : ℕ) (s : ServiceState) : Rely dir name t s s :=
  ⟨fun _ h => h, fun h => h, fun _ h => h, fun _ h _ => h⟩

theorem Rely.trans (h : Rely dir name t s s') (h' : Rely dir name t s' s'') :
    Rely dir name t s s'' :=
  ⟨fun p hp => h'.dirs p (h.dirs p hp), fun hc => h'.config (h.config hc),
    fun x hx => h'.kept x (h.kept x hx), fun x hx ho => h.own x (h'.own x hx ho) ho⟩

/-- A step that leaves the registry alone, and the tree's directories and config. -/
theorem Rely.of_registry (hr : s'.registry = s.registry)
    (hd : ∀ p, s.tree.isDir p = true → s'.tree.isDir p = true)
    (hc : ConfigThere dir s → ConfigThere dir s') : Rely dir name t s s' :=
  ⟨hd, hc, fun _ h => by rwa [hr], fun _ h _ => by rwa [hr] at h⟩

/-- The directory is there. -/
def Made (os : Os) (path : PathBuf String) (s : ServiceState) : Prop :=
  s.tree.isDirectory os.naming path = true

/-- The caller has registered nothing. -/
def Unregistered (name : String) (t : ℕ) (s : ServiceState) : Prop :=
  ∀ h, s.registry name = some h → h.opener ≠ t

theorem Made.rely {path : PathBuf String} (h : Made os path s) (hr : Rely dir name t s s') :
    Made os path s' := isDirectory_mono hr.dirs h

theorem Unregistered.rely (h : Unregistered name t s) (hr : Rely dir name t s s') :
    Unregistered name t s' := fun x hx ho => h x (hr.own x hx ho) ho

section

variable (os dir name files asked)

/-- The triples of a create: any interleaving, with the others as `Rely` says. -/
abbrev CreateTriple {α : Type} (t : ℕ) (P : ServiceState → Prop) (p : ServiceProg α)
    (Q : α → ServiceState → Prop) : Prop :=
  Triple (ServiceState.step os) Config.anyOrder (Opening os dir name files asked) (Rely dir name)
    t P p Q

/-- What one action of a create owes. -/
abbrev CreateOwes (t : ℕ) (P : ServiceState → Prop) (o : ServiceOp)
    (Q : o.Ret → ServiceState → Prop) : Prop :=
  @Owes serviceInterface ServiceState (ServiceState.step os) Config.anyOrder
    (Opening os dir name files asked) (Rely dir name) t P o Q

/-- An assertion the others keep. -/
abbrev CreateStable (t : ℕ) (P : ServiceState → Prop) : Prop :=
  Stable (Opening os dir name files asked) (Rely dir name) t P

end

theorem stable_made {path : PathBuf String} :
    CreateStable os dir name files asked t (Made os path) :=
  fun _ _ _ h hr _ => h.rely hr

theorem stable_unregistered : CreateStable os dir name files asked t (Unregistered name t) :=
  fun _ _ _ h hr _ => h.rely hr

theorem stable_configThere : CreateStable os dir name files asked t (ConfigThere dir) :=
  fun _ _ _ h hr _ => hr.config h

/-- Two assertions the others keep. -/
theorem stable_and {P P' : ServiceState → Prop} (h : CreateStable os dir name files asked t P)
    (h' : CreateStable os dir name files asked t P') :
    CreateStable os dir name files asked t fun s => P s ∧ P' s :=
  fun s s' hI hs hr hI' => ⟨h s s' hI hs.1 hr hI', h' s s' hI hs.2 hr hI'⟩

/-- An action that only looks. -/
theorem owes_looking {P : ServiceState → Prop} {o : ServiceOp} {f : ServiceState → o.Ret}
    {Q : o.Ret → ServiceState → Prop}
    (ho : ∀ s, ServiceState.step os t o s = some (f s, s))
    (hq : ∀ s, Opening os dir name files asked s → P s → Q (f s) s) :
    CreateOwes os dir name files asked t P o Q := by
  intro s r s' hI hP _ hst
  rw [ho] at hst
  cases hst
  exact ⟨hI, fun u _ => .refl u _, hq s hI hP⟩

/-! ## New nodes -/

/-- A node under a new name, on the way or in the directory. -/
theorem Opening.add {q : List String} {n : String} {x : Inode String File}
    (hI : Opening os dir name files asked s) (hd : s.tree.isDir q = true)
    (hn : s.tree (q ++ [n]) = none) (hl : Leaf x)
    (hway : ∀ cs c, cs ++ [c] <+: dir.steps → ∀ f, (cs ++ [c]).foldl Component.move [] = q ++ [n] →
      x ≠ .file f)
    (hin : ∀ m, dir.location ++ [m] = q ++ [n] →
      (m = "config" ∧ ∃ cfg, files cfg ∧ x = .file (.config cfg)) ∨
        m = "wal.0.log" ∧ x = .file .log) :
    Opening os dir name files asked { s with tree := s.tree.add q n x } ∧
      ∀ u, Rely dir name u s { s with tree := s.tree.add q n x } := by
  have hadd : ∀ p, p ≠ q ++ [n] → s.tree.add q n x p = none → s.tree p = none := by
    intro p hp hnone
    by_cases hpq : p = q
    · subst hpq
      rw [add_parent] at hnone
      cases hnone
    · rwa [add_of_ne hpq hp] at hnone
  refine ⟨⟨hI.wf.add hd hn hl, hI.clear.mono ?_ ?_, fun m => ?_, hI.registered⟩, fun u =>
    .of_registry rfl (fun p hp => isDir_add_of_none hn hp) fun ⟨cfg, hc⟩ =>
      ⟨cfg, add_of_file hd hn hc⟩⟩
  · intro cs c hp f hf
    change s.tree.add q n x _ = _ at hf
    by_cases he : (cs ++ [c]).foldl Component.move [] = q ++ [n]
    · rw [he, add_self] at hf
      cases hf
      exact absurd rfl (hway cs c hp f he)
    · by_cases he' : (cs ++ [c]).foldl Component.move [] = q
      · rw [he', add_parent] at hf
        cases hf
      · rw [add_of_ne he' he] at hf
        exact ⟨f, hf⟩
  · intro p hp
    by_cases he : p = q ++ [n]
    · subst he
      exact hn
    · exact hadd p he hp
  · change s.tree.add q n x _ = _ ∨ _
    by_cases he : dir.location ++ [m] = q ++ [n]
    · rcases hin m he with ⟨rfl, cfg, hcfg, rfl⟩ | ⟨rfl, rfl⟩
      · exact .inr (.inl ⟨rfl, cfg, hcfg, by rw [he]; exact add_self⟩)
      · exact .inr (.inr ⟨rfl, by rw [he]; exact add_self⟩)
    · rcases hI.inside m with h | ⟨rfl, cfg, hcfg, h⟩ | ⟨rfl, h⟩
      · by_cases he' : dir.location ++ [m] = q
        · rw [he'] at h
          obtain ⟨es, hes⟩ := isDir_iff.mp hd
          rw [h] at hes
          cases hes
        · exact .inl (by rw [add_of_ne he' he]; exact h)
      · exact .inr (.inl ⟨rfl, cfg, hcfg, add_of_file hd hn h⟩)
      · exact .inr (.inr ⟨rfl, add_of_file hd hn h⟩)

/-! ## Making the directory -/

theorem append_singleton_ne_location {cs : List (Component String)} (hdir : Straight dir)
    (hp : cs <+: dir.steps) {q : List String} {n : String}
    (hq : cs.foldl Component.move [] = q ++ [n]) {m : String} :
    dir.location ++ [m] ≠ q ++ [n] := fun h => hdir.not_below cs hp m (hq.trans h.symm)

/-- **`mkdir` on the way**: the directory is there afterwards, unless what is to hold it may not
be. -/
theorem owes_mkdir {cs : List (Component String)} {c : Component String} {φ : Prop}
    (hdir : Straight dir) (hp : cs ++ [c] <+: dir.steps) :
    CreateOwes os dir name files asked t
      (fun s => Unregistered name t s ∧ (φ → Made os ⟨cs, false⟩ s)) (.mkdir ⟨cs ++ [c], false⟩)
      fun r s => Unregistered name t s ∧
        (r = .ok () ∧ Made os ⟨cs ++ [c], false⟩ s ∨
          r = .error .alreadyExists ∧ Made os ⟨cs ++ [c], false⟩ s ∨
            r = .error .notFound ∧ ¬ φ) := by
  rintro s r s' hI ⟨hun, hmade⟩ - hst
  obtain ⟨hr, rfl⟩ := Prod.ext_iff.mp (Option.some.inj hst)
  rcases hI.clear.mkdir hI.wf hp with ⟨t', ht'⟩ | ⟨he, hthere⟩ | ⟨he, hnone⟩
  · rw [ht'] at hr ⊢
    obtain ⟨q, n, hres, hd, hn, -, rfl⟩ := mkdir_cases ht'
    have hq : (cs ++ [c]).foldl Component.move [] = q ++ [n] := (location_of_resolve hres).symm
    obtain ⟨hI', hrel⟩ := hI.add (x := .dir []) hd hn rfl (fun _ _ _ f _ h => by cases h)
      fun m hm => absurd hm (append_singleton_ne_location hdir hp hq)
    refine ⟨hI', fun u _ => hrel u, hun, .inl ⟨hr.symm, isDirectory_iff.mpr ⟨q ++ [n], ?_, ?_⟩⟩⟩
    · exact resolve_mono (fun p hp => isDir_add_of_none hn hp) hres
    · exact isDir_iff.mpr ⟨[], add_self⟩
  · rw [he] at hr ⊢
    exact ⟨hI, fun u _ => .refl u s, hun, .inr (.inl ⟨hr.symm, hthere⟩)⟩
  · rw [he] at hr ⊢
    refine ⟨hI, fun u _ => .refl u s, hun, .inr (.inr ⟨hr.symm, fun hφ => ?_⟩)⟩
    rw [hmade hφ] at hnone
    cases hnone

/-- What is known between two actions of a create: it has registered nothing, and the directory is
there. -/
def Ready (os : Os) (dir : PathBuf String) (name : String) (t : ℕ) (s : ServiceState) : Prop :=
  Unregistered name t s ∧ Made os dir s

theorem stable_ready {path : PathBuf String} :
    CreateStable os dir name files asked t (Ready os path name t) :=
  stable_and stable_unregistered stable_made

theorem triple_orIsDirectory {path : PathBuf String} {e : IoError} :
    CreateTriple os dir name files asked t (Ready os path name t) (orIsDirectory path e)
      fun r s => r = .ok () ∧ Ready os path name t s := by
  refine .act stable_ready (owes_looking (f := fun s => s.tree.isDirectory os.naming path)
    (Q := fun (b : Bool) s => b = true ∧ Ready os path name t s)
    (fun _ => rfl) fun s _ hs => ⟨hs.2, hs⟩) fun b => .of_pure fun hb => ?_
  subst hb
  exact .ret stable_ready fun s _ hs => ⟨rfl, hs⟩

theorem triple_mkdirIn {cs : List (Component String)} {c : Component String}
    (hdir : Straight dir) (hp : cs ++ [c] <+: dir.steps) :
    CreateTriple os dir name files asked t (Ready os ⟨cs, false⟩ name t)
      (mkdirIn ⟨cs ++ [c], false⟩)
      fun r s => r = .ok () ∧ Ready os ⟨cs ++ [c], false⟩ name t s := by
  refine .act stable_ready (fun s r s' hI hs => owes_mkdir (φ := True) hdir hp s r s' hI
    ⟨hs.1, fun _ => hs.2⟩) fun r => ?_
  match r with
  | .ok () =>
    refine Triple.conseq (P := Ready os ⟨cs ++ [c], false⟩ name t)
      (.ret stable_ready fun s _ hs => ⟨rfl, hs⟩) ?_ fun _ _ _ h => h
    rintro s - ⟨hun, ⟨-, h⟩ | ⟨h, -⟩ | ⟨h, -⟩⟩
    · exact ⟨hun, h⟩
    · cases h
    · cases h
  | .error e =>
    refine triple_orIsDirectory.conseq ?_ fun _ _ _ h => h
    rintro s - ⟨hun, ⟨h, -⟩ | ⟨-, h⟩ | ⟨-, h⟩⟩
    · cases h
    · exact ⟨hun, h⟩
    · exact absurd trivial h

/-- **`create_dir_all` on the way**, racing the others: the directory is there. -/
theorem triple_createDirs (hdir : Straight dir) (cs : List (Component String))
    (hp : cs.reverse <+: dir.steps) :
    CreateTriple os dir name files asked t (Unregistered name t) (createDirs cs false)
      fun r s => r = .ok () ∧ Ready os ⟨cs.reverse, false⟩ name t s := by
  induction cs with
  | nil =>
    exact .ret stable_unregistered fun s hI hs =>
      ⟨rfl, hs, isDirectory_iff.mpr ⟨[], rfl, hI.wf.root⟩⟩
  | cons c cs ih =>
    have hrev : (c :: cs).reverse = cs.reverse ++ [c] := List.reverse_cons ..
    rw [hrev] at hp
    rw [createDirs, hrev]
    refine .act stable_unregistered (fun s r s' hI hs => owes_mkdir (φ := False) hdir hp s r s' hI
      ⟨hs, False.elim⟩) fun r => ?_
    match r with
    | .ok () =>
      refine Triple.conseq (P := Ready os ⟨cs.reverse ++ [c], false⟩ name t)
        (.ret stable_ready fun s _ hs => ⟨rfl, hs⟩) ?_ fun _ _ _ h => h
      rintro s - ⟨hun, ⟨-, h⟩ | ⟨h, -⟩ | ⟨h, -⟩⟩
      · exact ⟨hun, h⟩
      · cases h
      · cases h
    | .error .notFound =>
      change CreateTriple os dir name files asked t _ (createDirs cs false >>= _) _
      refine Triple.conseq (P := Unregistered name t) (.bind (fun s => .refl t s)
        (ih ((List.prefix_append ..).trans hp)) fun r => .of_pure fun hr => ?_)
        (fun s _ hs => hs.1) fun _ _ _ h => h
      subst hr
      exact triple_mkdirIn hdir hp
    | .error .alreadyExists =>
      refine triple_orIsDirectory.conseq ?_ fun _ _ _ h => h
      rintro s - ⟨hun, ⟨h, -⟩ | ⟨-, h⟩ | ⟨h, -⟩⟩
      · cases h
      · exact ⟨hun, h⟩
      · cases h
    | .error .other =>
      refine triple_orIsDirectory.conseq ?_ fun _ _ _ h => h
      rintro s - ⟨-, ⟨h, -⟩ | ⟨h, -⟩ | ⟨h, -⟩⟩ <;> cases h

/-! ## Filling it -/

theorem Straight.eq (hdir : Straight dir) : (⟨dir.steps, false⟩ : PathBuf String) = dir := by
  rw [← hdir.no_dot]

/-- A file of the directory, replaced. -/
theorem Opening.replace {n : String} {f g : File} (hI : Opening os dir name files asked s)
    (hg : s.tree (dir.location ++ [n]) = some (.file g))
    (hf : (n = "config" ∧ ∃ cfg, files cfg ∧ f = .config cfg) ∨ n = "wal.0.log" ∧ f = .log) :
    Opening os dir name files asked { s with tree := s.tree.replace (dir.location ++ [n]) f } ∧
      ∀ u, Rely dir name u s { s with tree := s.tree.replace (dir.location ++ [n]) f } := by
  refine ⟨⟨hI.wf.replace hg, hI.clear.mono ?_ ?_, fun m => ?_, hI.registered⟩, fun u =>
    .of_registry rfl (fun p hp => isDir_replace hg hp) fun ⟨cfg, hc⟩ => ?_⟩
  · intro cs c hp x hx
    change s.tree.replace (dir.location ++ [n]) f _ = _ at hx
    by_cases he : (cs ++ [c]).foldl Component.move [] = dir.location ++ [n]
    · exact ⟨g, he ▸ hg⟩
    · rw [replace_of_ne he] at hx
      exact ⟨x, hx⟩
  · intro p hp
    change s.tree.replace (dir.location ++ [n]) f _ = _ at hp
    by_cases he : p = dir.location ++ [n]
    · rw [he, replace_self] at hp
      cases hp
    · rwa [replace_of_ne he] at hp
  · dsimp only
    by_cases hm : m = n
    · subst hm
      rcases hf with ⟨rfl, cfg, hcfg, rfl⟩ | ⟨rfl, rfl⟩
      · exact .inr (.inl ⟨rfl, cfg, hcfg, replace_self⟩)
      · exact .inr (.inr ⟨rfl, replace_self⟩)
    · have hne : dir.location ++ [m] ≠ dir.location ++ [n] :=
        fun h => hm (append_singleton_inj.mp h).2
      rw [replace_of_ne hne]
      exact hI.inside m
  · by_cases hn : n = "config"
    · subst hn
      rcases hf with ⟨-, cfg', -, rfl⟩ | ⟨h, -⟩
      · exact ⟨cfg', replace_self⟩
      · exact absurd h (by decide)
    · exact ⟨cfg, (replace_of_ne fun h => hn (append_singleton_inj.mp h).2.symm).trans hc⟩

/-- **A file put in the directory**: the config, or the log. -/
theorem owes_putFile {n : String} {f : File} (hdir : Straight dir)
    (hf : (n = "config" ∧ ∃ cfg, files cfg ∧ f = .config cfg) ∨ n = "wal.0.log" ∧ f = .log) :
    CreateOwes os dir name files asked t (Ready os dir name t) (.putFile (dir.join n) f)
      fun r s => r = .ok () ∧ Ready os dir name t s ∧
        s.tree (dir.location ++ [n]) = some (.file f) := by
  rintro s r s' hI hs - hst
  have hn : n ∈ ownNames := by
    rcases hf with ⟨rfl, -⟩ | ⟨rfl, -⟩ <;> decide
  obtain ⟨hr, rfl⟩ := Prod.ext_iff.mp (Option.some.inj hst)
  have hkeep : ∀ {t' : FileTree String File}, (∀ p, s.tree.isDir p = true → t'.isDir p = true) →
      Ready os dir name t { s with tree := t' } :=
    fun h => ⟨hs.1, isDirectory_mono h hs.2⟩
  have hfile : s.tree (dir.location ++ [n]) = none ∨
      ∃ g, s.tree (dir.location ++ [n]) = some (.file g) := by
    rcases hI.inside n with h | ⟨-, cfg, -, h⟩ | ⟨-, h⟩
    · exact .inl h
    · exact .inr ⟨_, h⟩
    · exact .inr ⟨_, h⟩
  rcases hfile with hnone | ⟨g, hg⟩
  · have hd := isDir_location hs.2
    rw [writeFile_join_of_none hs.2 (Os.passes os hn) (Os.admits os hn) hnone] at hr ⊢
    obtain ⟨hI', hrel⟩ := hI.add (x := .file f) hd hnone trivial
      (fun cs c hp g h => absurd h (hdir.not_below _ hp n)) fun m hm => by
        obtain rfl := (append_singleton_inj.mp hm).2
        rcases hf with ⟨rfl, cfg, hcfg, rfl⟩ | ⟨rfl, rfl⟩
        · exact .inl ⟨rfl, cfg, hcfg, rfl⟩
        · exact .inr ⟨rfl, rfl⟩
    exact ⟨hI', fun u _ => hrel u, hr.symm, hkeep fun p hp => isDir_add_of_none hnone hp, add_self⟩
  · rw [writeFile_join_of_file hs.2 (Os.passes os hn) hg] at hr ⊢
    obtain ⟨hI', hrel⟩ := hI.replace hg hf
    exact ⟨hI', fun u _ => hrel u, hr.symm, hkeep fun p hp => isDir_replace hg hp, replace_self⟩

/-- Looking for a file of the directory. -/
theorem owes_present {n : String} (hn : n ∈ ownNames) :
    CreateOwes os dir name files asked t (Ready os dir name t) (.present (dir.join n))
      fun (b : Bool) s => (b = (s.tree (dir.location ++ [n])).isSome ∧
        Opening os dir name files asked s) ∧ Ready os dir name t s :=
  owes_looking (f := fun s => s.tree.present os.naming (dir.join n)) (fun _ => rfl) fun _ hI hs =>
    ⟨⟨present_join hs.2 (Os.passes os hn), hI⟩, hs⟩

theorem triple_createDirAll (hdir : Straight dir) :
    CreateTriple os dir name files asked t (Unregistered name t) (createDirAll dir)
      fun r s => r = .ok () ∧ Ready os dir name t s := by
  have h := @triple_createDirs os dir name files asked t hdir dir.steps.reverse
    (by rw [List.reverse_reverse])
  rw [List.reverse_reverse, hdir.eq, ← hdir.no_dot] at h
  exact h

/-- What is known once the config is there. -/
def Filled (os : Os) (dir : PathBuf String) (name : String) (t : ℕ) (s : ServiceState) : Prop :=
  Ready os dir name t s ∧ ConfigThere dir s

theorem stable_filled : CreateStable os dir name files asked t (Filled os dir name t) :=
  stable_and stable_ready stable_configThere

/-- A temporary file can be made in the directory. -/
theorem owes_createTemp :
    CreateOwes os dir name files asked t (Ready os dir name t) (.createTemp dir)
      fun (r : Except IoError Unit) s => r = .ok () ∧ Ready os dir name t s :=
  owes_looking (f := fun s => (s.tree.openDir os.naming dir).map fun _ => ()) (fun _ => rfl)
    fun s _ hs => ⟨by rw [openDir_of_isDirectory hs.2]; rfl, hs⟩

theorem triple_writeConfig (hdir : Straight dir) {cfg : CollectionConfig} (hcfg : files cfg) :
    CreateTriple os dir name files asked t (Ready os dir name t)
      (writeAtomic (dir.join "config") (.config cfg))
      fun r s => r = .ok () ∧ Filled os dir name t s := by
  rw [writeAtomic, PathBuf.parent_join, hdir.eq]
  refine .act stable_ready owes_createTemp fun r => .of_pure fun hr => ?_
  subst hr
  refine .act stable_ready (owes_putFile hdir (.inl ⟨rfl, cfg, hcfg, rfl⟩)) fun r =>
    .of_pure fun hr => ?_
  subst hr
  exact Triple.conseq (.ret stable_filled fun s _ hs => ⟨rfl, hs⟩)
    (fun s _ hs => ⟨hs.1, cfg, hs.2⟩) fun _ _ _ h => h

/-- The config is written if it is not there. -/
theorem triple_writeConfigIfAbsent (hdir : Straight dir) {cfg : CollectionConfig}
    (hcfg : files cfg) :
    CreateTriple os dir name files asked t (Ready os dir name t) (writeConfigIfAbsent dir cfg)
      fun r s => r = .ok () ∧ Filled os dir name t s := by
  refine .act (M := fun (b : Bool) s => Ready os dir name t s ∧ (b = true → ConfigThere dir s))
    stable_ready (fun s r s' hI hs ha hst => ?_) fun b => ?_
  · obtain ⟨hI', hg, ⟨hb, -⟩, hs'⟩ := owes_present (n := "config") (by decide) s r s' hI hs ha hst
    refine ⟨hI', hg, hs', fun hr => ?_⟩
    rw [hr] at hb
    rcases hI'.inside "config" with h | ⟨-, cfg', -, h⟩ | ⟨h, -⟩
    · rw [h] at hb
      cases hb
    · exact ⟨cfg', h⟩
    · exact absurd h (by decide)
  · cases b with
    | true =>
      exact Triple.conseq (.ret stable_filled fun s _ hs => ⟨rfl, hs⟩)
        (fun s _ hs => ⟨hs.1, hs.2 rfl⟩) fun _ _ _ h => h
    | false =>
      exact Triple.conseq (triple_writeConfig hdir hcfg) (fun s _ hs => hs.1) fun _ _ _ h => h

/-- Reading the log: it is there, or not yet. -/
theorem owes_readLog :
    CreateOwes os dir name files asked t (Ready os dir name t) (.readFile (dir.join "wal.0.log"))
      fun (r : Except IoError File) s =>
        (r = .error .notFound ∨ ∃ f, r = .ok f) ∧ Ready os dir name t s := by
  refine owes_looking (f := fun s => s.tree.readFile os.naming (dir.join "wal.0.log"))
    (fun _ => rfl) fun s hI hs => ⟨?_, hs⟩
  rcases hI.inside "wal.0.log" with h | ⟨h, -⟩ | ⟨-, h⟩
  · exact .inl (readFile_join_of_none hs.2 (Os.passes os (by decide)) h)
  · exact absurd h (by decide)
  · exact .inr ⟨_, readFile_join_of_file hs.2 (Os.passes os (by decide)) h⟩

theorem triple_openLogFile (hdir : Straight dir) :
    CreateTriple os dir name files asked t (Ready os dir name t)
      (openLogFile (dir.join "wal.0.log")) fun r s => r = .ok () ∧ Ready os dir name t s := by
  refine .act stable_ready (owes_putFile hdir (.inr ⟨rfl, rfl⟩)) fun r => .of_pure fun hr => ?_
  subst hr
  refine Triple.conseq (P := Ready os dir name t) ?_ (fun s _ hs => hs.1) fun _ _ _ h => h
  refine .act stable_ready owes_readLog fun r => .of_pure fun hr => ?_
  rcases hr with rfl | ⟨f, rfl⟩
  · exact .ret stable_ready fun s _ hs => ⟨rfl, hs⟩
  · exact .ret stable_ready fun s _ hs => ⟨rfl, hs⟩

/-- The log is opened. -/
theorem triple_openWal (hdir : Straight dir) :
    CreateTriple os dir name files asked t (Ready os dir name t) (openWal (dir.join "wal.0.log"))
      fun r s => r = .ok () ∧ Ready os dir name t s := by
  rw [openWal, PathBuf.parent_join, hdir.eq]
  refine .bind (fun s => .refl t s) (Triple.conseq (triple_createDirAll hdir)
    (fun s _ hs => hs.1) fun _ _ _ h => h) fun r => .of_pure fun hr => ?_
  subst hr
  refine .act stable_ready owes_readLog fun r => .of_pure fun hr => ?_
  rcases hr with rfl | ⟨f, rfl⟩
  · exact triple_openLogFile hdir
  · exact triple_openLogFile hdir

/-! ## A whole create -/

/-- No `versions` and no `HEAD` is there: none is ever written. -/
theorem owes_absent {n : String} (hn : n ∈ ownNames) (hc : n ≠ "config") (hw : n ≠ "wal.0.log") :
    CreateOwes os dir name files asked t (Ready os dir name t) (.present (dir.join n))
      fun (b : Bool) s => b = false ∧ Ready os dir name t s := by
  refine fun s r s' hI hs ha hst => ?_
  obtain ⟨hI', hg, ⟨hb, -⟩, hs'⟩ := owes_present hn s r s' hI hs ha hst
  refine ⟨hI', hg, ?_, hs'⟩
  rcases hI'.inside n with h | ⟨h, -⟩ | ⟨h, -⟩
  · rw [hb, h]
    rfl
  · exact absurd h hc
  · exact absurd h hw

theorem triple_recoverDir (hdir : Straight dir) :
    CreateTriple os dir name files asked t (Ready os dir name t) (recoverDir dir)
      fun r s => r = .ok () ∧ Ready os dir name t s := by
  refine .act stable_ready (owes_absent (by decide) (by decide) (by decide)) fun b =>
    .of_pure fun hb => ?_
  subst hb
  refine .act stable_ready (owes_absent (by decide) (by decide) (by decide)) fun b =>
    .of_pure fun hb => ?_
  subst hb
  exact triple_openWal hdir

theorem triple_recoverFilled (hdir : Straight dir) :
    CreateTriple os dir name files asked t (Filled os dir name t) (recoverDir dir)
      fun r s => r = .ok () ∧ Filled os dir name t s :=
  Triple.conseq (Triple.frame (fun _ => stable_configThere) (triple_recoverDir hdir))
    (fun _ _ h => h) fun _ _ _ h => ⟨h.1.1, h.1.2, h.2⟩

/-- How a create ends: with its collection registered and a config in its directory, or with
another's registered. -/
def Created (os : Os) (dir : PathBuf String) (name : String) (t : ℕ) (cfg : CollectionConfig)
    (r : Except ServiceError Unit) (s : ServiceState) : Prop :=
  (r = .ok () ∧ s.registry name = some ⟨t, cfg⟩ ∧ Made os dir s ∧ ConfigThere dir s) ∨
    ∃ e, r = .error e ∧ ∃ h, s.registry name = some h ∧ h.opener ≠ t

theorem stable_created {cfg : CollectionConfig} {r : Except ServiceError Unit} :
    CreateStable os dir name files asked t (Created os dir name t cfg r) := by
  rintro s s' - (⟨hr, hreg, hm, hc⟩ | ⟨e, hr, h, hreg, ho⟩) hrel -
  · exact .inl ⟨hr, hrel.kept _ hreg, hm.rely hrel, hrel.config hc⟩
  · exact .inr ⟨e, hr, h, hrel.kept _ hreg, ho⟩

/-- **The race for the registry**: the first to insert wins. -/
theorem triple_register {cfg : CollectionConfig} (ha : asked ⟨t, cfg⟩) :
    CreateTriple os dir name files asked t (Filled os dir name t) (register name cfg)
      (Created os dir name t cfg) := by
  refine .act (M := fun (b : Bool) s => Created os dir name t cfg
    (if b then .ok () else .error (.alreadyExists name)) s) stable_filled ?_ fun b => ?_
  · rintro s r s' hI ⟨⟨hun, hmade⟩, hc⟩ - hst
    rw [ServiceState.step] at hst
    split at hst
    · cases hst
      obtain ⟨h, hh⟩ := Option.isSome_iff_exists.mp ‹_›
      exact ⟨hI, fun u _ => .refl u s, .inr ⟨_, rfl, h, hh, hun h hh⟩⟩
    · cases hst
      have hnone : s.registry name = none := Option.not_isSome_iff_eq_none.mp ‹_›
      have hself : Function.update s.registry name (some ⟨t, cfg⟩) name = some ⟨t, cfg⟩ :=
        Function.update_self ..
      refine ⟨⟨hI.wf, hI.clear, hI.inside, fun h hh => ?_⟩, fun u hu =>
        ⟨fun _ h => h, fun h => h, fun h hh => ?_, fun h hh ho => ?_⟩, .inl ⟨rfl, hself, hmade, hc⟩⟩
      · dsimp only at hh
        rw [hself] at hh
        cases hh
        exact ha
      · rw [hnone] at hh
        cases hh
      · dsimp only at hh
        rw [hself] at hh
        cases hh
        exact absurd ho.symm hu
  · cases b with
    | true => exact .ret stable_created fun _ _ h => h
    | false => exact .ret stable_created fun _ _ h => h

theorem triple_attempt {α : Type} {P M : ServiceState → Prop}
    {p : ServiceProg (Except ServiceError Unit)} {q : ServiceProg (Except ServiceError α)}
    {Q : Except ServiceError α → ServiceState → Prop}
    (hp : CreateTriple os dir name files asked t P p fun r s => r = .ok () ∧ M s)
    (hq : CreateTriple os dir name files asked t M q Q) :
    CreateTriple os dir name files asked t P (attempt p q) Q :=
  .bind (fun s => .refl t s) hp fun r => .of_pure fun hr => by
    subst hr
    exact hq

/-- **A whole create**, racing the others. -/
theorem triple_createCollection {dataDir : List String} {dim : ℕ} {metric : Metric}
    (hdir : Straight (joinName (collectionsDir dataDir) name)) (hdim : dim ≠ 0)
    (hcfg : files (newConfig dim metric)) (ha : asked ⟨t, newConfig dim metric⟩) :
    CreateTriple os (joinName (collectionsDir dataDir) name) name files asked t
      (Unregistered name t) (createCollection dataDir name dim metric)
      (Created os (joinName (collectionsDir dataDir) name) name t (newConfig dim metric)) := by
  rw [createCollection, if_neg hdim]
  refine .act (M := fun r s => s.registry name = r ∧ Unregistered name t s) stable_unregistered
    (fun s r s' hI hs _ hst => ?_) fun r => ?_
  · cases hst
    exact ⟨hI, fun u _ => .refl u s, rfl, hs⟩
  · cases r with
    | some h =>
      refine Triple.conseq (.ret stable_created fun _ _ h => h) (fun s _ hs => ?_) fun _ _ _ h => h
      exact .inr ⟨_, rfl, h, hs.1, hs.2 h hs.1⟩
    | none =>
      refine Triple.conseq (P := Unregistered name t) (triple_attempt ?_ (triple_register ha))
        (fun s _ hs => hs.2) fun _ _ _ h => h
      refine .bind (fun s => .refl t s) (triple_createDirAll hdir) fun r => .of_pure fun hr => ?_
      subst hr
      exact triple_attempt (triple_writeConfigIfAbsent hdir hcfg) (triple_recoverFilled hdir)

end Service

end Vecvec
