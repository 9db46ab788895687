import Vecvec.Service.Creates
import Vecvec.Service.Restart
import Vecvec.Service.Touches

/-!
# Service/Agreement — when concurrent creates agree with the disk

The winner of the registry is the one whose config the others find in memory; the config file is
whatever the last of those wrote that saw none.  Where every call asks for the same dimension and
metric the two cannot differ; where two calls ask for different ones, some interleaving has them
differ.  A restart then finds what the file says, if the name is that of an entry and every entry
beside it opens.
-/

namespace Vecvec

open Machinery FileTree

namespace Service

/-- The directory of a name. -/
abbrev nameDir (dataDir : List String) (name : String) : PathBuf String :=
  joinName (collectionsDir dataDir) name

/-- **A free name**, in a file system whose entries have plain names: it is not registered, and its
path leads, over directories that are there or can be made, to one with nothing in it. -/
structure Free (os : Os) (dataDir : List String) (name : String) (s : ServiceState) : Prop where
  unregistered : s.registry name = none
  straight : Straight (nameDir dataDir name)
  wf : s.tree.WellFormed
  plain : PlainEntries s.tree
  clear : Clear os.naming s.tree (nameDir dataDir name).steps
  empty : ∀ n, s.tree ((nameDir dataDir name).location ++ [n]) = none

variable (os : Os) (dataDir : List String) (name : String) (calls : List (ℕ × Metric))

/-- Calls of `create_collection` for one name, each with its dimension and metric. -/
def creates (t : ℕ) : ServiceProg (Except ServiceError Unit) :=
  match calls[t]? with
  | some (dim, metric) => createCollection dataDir name dim metric
  | none => .ret (.error (.notFound name))

/-- Every call has returned. -/
def Returned (c : Config serviceInterface ServiceState (Except ServiceError Unit)) : Prop :=
  ∀ t, ∃ r, c.pool t = .ret r

/-- **Agreement with the disk**: exactly one call has succeeded, and what it asked for is what is
registered, what the config file says, and what a restart reopens the collection with. -/
def Agrees (c : Config serviceInterface ServiceState (Except ServiceError Unit)) : Prop :=
  ∃ t dim metric, calls[t]? = some (dim, metric) ∧
    (∀ u, c.pool u = .ret (.ok ()) ↔ u = t) ∧
    (c.shared.registry name).map Handle.config = some (newConfig dim metric) ∧
    c.shared.tree.readFile os.naming ((nameDir dataDir name).join "config") =
      .ok (.config (newConfig dim metric)) ∧
    Reopens os dataDir c.shared.tree name (newConfig dim metric)

variable {os dataDir name calls} {s : ServiceState} {t : ℕ}

theorem Free.opening (h : Free os dataDir name s) (files : CollectionConfig → Prop)
    (asked : Handle → Prop) : Opening os (nameDir dataDir name) name files asked s :=
  ⟨h.wf, h.clear, fun n => .inl (h.empty n), fun x hx => by
    rw [h.unregistered] at hx
    cases hx⟩

theorem Free.unregisteredBy (h : Free os dataDir name s) (t : ℕ) : Unregistered name t s :=
  fun x hx => by
    rw [h.unregistered] at hx
    cases hx

/-! ## Calls that ask for the same -/

/-- The collections the calls ask for. -/
def Asked (calls : List (ℕ × Metric)) (h : Handle) : Prop :=
  ∃ dim metric, calls[h.opener]? = some (dim, metric) ∧ dim ≠ 0 ∧ h.config = newConfig dim metric

/-- How a call of the pool ends. -/
def Ended (os : Os) (dataDir : List String) (name : String) (calls : List (ℕ × Metric)) (t : ℕ)
    (r : Except ServiceError Unit) (s : ServiceState) : Prop :=
  ((∃ e, r = .error e) ∧ ∀ dim metric, calls[t]? = some (dim, metric) → dim = 0) ∨
    ∃ dim metric, calls[t]? = some (dim, metric) ∧ dim ≠ 0 ∧
      Created os (nameDir dataDir name) name t (newConfig dim metric) r s

/-- The pool of creates of a free name, before it starts. -/
theorem safe_creates (hfree : Free os dataDir name s) (files : CollectionConfig → Prop)
    (hfiles : ∀ x ∈ calls, x.1 ≠ 0 → files (newConfig x.1 x.2)) :
    Config.Safe (ServiceState.step os) Config.anyOrder
      (Opening os (nameDir dataDir name) name files (Asked calls))
        (Rely (nameDir dataDir name) name)
      (Ended os dataDir name calls) ⟨s, creates dataDir name calls⟩ where
  inv := hfree.opening _ _
  calls t := by
    dsimp only
    rw [creates]
    match hcall : calls[t]? with
    | none =>
      exact fun _ _ _ => .inl ⟨⟨_, rfl⟩, fun dim metric h => by
        rw [hcall] at h
        cases h⟩
    | some (dim, metric) =>
      by_cases hdim : dim = 0
      · dsimp only
        rw [createCollection, if_pos hdim]
        exact fun _ _ _ => .inl ⟨⟨_, rfl⟩, fun dim' metric' h => by
          rw [hcall] at h
          cases h
          exact hdim⟩
      · refine (triple_createCollection hfree.straight hdim
          (hfiles _ (List.mem_of_getElem? hcall) hdim) ⟨dim, metric, hcall, hdim, rfl⟩).conseq
          (fun _ _ (h : Unregistered name t _) => h) (fun r s' _ h => ?_) s (hfree.opening _ _)
          (hfree.unregisteredBy t)
        exact .inr ⟨dim, metric, hcall, hdim, h⟩

/-- The directories beside the collection's own open. -/
def OthersOpen (os : Os) (dataDir : List String) (name : String) (t : FileTree String File) :
    Prop :=
  ∀ m ∈ t.entries (dataDir ++ ["collections"]), m ≠ name →
    Opens os t (dataDir ++ ["collections"]) m

theorem nameDir_of_plain (hname : Plain name) :
    nameDir dataDir name = ⟨(dataDir ++ ["collections"] ++ [name]).map .name, false⟩ := by
  rw [nameDir, hname.joinName, collectionsDir, PathBuf.join]
  simp

/-- **The directories beside it are as they were**, after any part of the creates. -/
theorem othersOpen_iff (hname : Plain name) (hw : s.tree.WellFormed)
    {c : Config serviceInterface ServiceState (Except ServiceError Unit)}
    (hw' : c.shared.tree.WellFormed)
    (hst : Config.Steps (ServiceState.step os) Config.anyOrder ⟨s, creates dataDir name calls⟩ c) :
    OthersOpen os dataDir name c.shared.tree ↔ OthersOpen os dataDir name s.tree := by
  have halike : AlikeBut (dataDir ++ ["collections"] ++ [name]) s.tree c.shared.tree :=
    alikeBut_of_steps hst fun t => by
      rw [← nameDir_of_plain hname]
      dsimp only
      rw [creates]
      split
      · exact touches_createCollection ..
      · trivial
  have hother : ∀ m, m ≠ name →
      c.shared.tree (dataDir ++ ["collections"] ++ [m]) =
        s.tree (dataDir ++ ["collections"] ++ [m]) ∧
      ∀ n, c.shared.tree (dataDir ++ ["collections"] ++ [m] ++ [n]) =
        s.tree (dataDir ++ ["collections"] ++ [m] ++ [n]) := by
    intro m hm
    have hne : dataDir ++ ["collections"] ++ [m] ≠ dataDir ++ ["collections"] ++ [name] :=
      fun he => hm (append_singleton_inj.mp he).2
    refine ⟨halike _ (fun hp => hne (hp.eq_of_length (by simp))) fun n he => ?_,
      fun n => halike _ (fun hp => ?_) fun n' he => hne (append_singleton_inj.mp he).1⟩
    · have := congrArg List.length he
      simp at this
    · have := hp.length_le
      simp at this
  refine forall_congr' fun m => ?_
  rw [hw.mem_entries, hw'.mem_entries]
  by_cases hm : m = name
  · simp only [hm, ne_eq, not_true_eq_false, false_implies, implies_true]
  · obtain ⟨hat, hin⟩ := hother m hm
    rw [hat, opens_congr hat hin]

/-- **The collection's own directory reopens**, with the config it has. -/
theorem reopens_of_made {files : CollectionConfig → Prop} {asked : Handle → Prop}
    {cfg : CollectionConfig} (hname : Plain name)
    (hI : Opening os (nameDir dataDir name) name files asked s)
    (hmade : Made os (nameDir dataDir name) s)
    (hcfg : s.tree ((nameDir dataDir name).location ++ ["config"]) = some (.file (.config cfg)))
    (hothers : OthersOpen os dataDir name s.tree) : Reopens os dataDir s.tree name cfg := by
  have hloc : (nameDir dataDir name).location = dataDir ++ ["collections"] ++ [name] := by
    rw [nameDir_of_plain hname, PathBuf.location_names]
  have hcoll : (collectionsDir dataDir).location = dataDir ++ ["collections"] :=
    PathBuf.location_names _ _
  rw [Made, nameDir, hname.joinName] at hmade
  have hdir : s.tree.isDirectory os.naming (collectionsDir dataDir) = true :=
    isDirectory_of_concat hmade
  have hin := hI.inside
  rw [hloc] at hin hcfg
  have habsent : ∀ n, n ≠ "config" → n ≠ "wal.0.log" →
      s.tree (dataDir ++ ["collections"] ++ [name] ++ [n]) = none := fun n hc hw => by
    rcases hin n with h | ⟨h, -⟩ | ⟨h, -⟩
    · exact h
    · exact absurd h hc
    · exact absurd h hw
  rw [reopens_iff hI.wf hdir, hcoll]
  refine ⟨fun m hm => ?_, hcoll ▸ (isDirectory_join_iff hdir).mp hmade, hcfg⟩
  by_cases hmn : m = name
  · subst hmn
    refine fun _ => ⟨⟨cfg, hcfg⟩, .inl (habsent _ (by decide) (by decide)), "wal.0.log",
      .inl ⟨habsent _ (by decide) (by decide), rfl⟩, Os.passes os (by decide), ?_⟩
    rcases hin "wal.0.log" with h | ⟨h, -⟩ | ⟨-, h⟩
    · exact .inl ⟨h, Os.admits os (by decide)⟩
    · exact absurd h (by decide)
    · exact .inr ⟨_, h⟩
  · exact hothers m hm hmn

/-- **Calls that ask for the same agree with the disk.** -/
theorem agrees_of_same (hfree : Free os dataDir name s) (hsome : ∃ x ∈ calls, x.1 ≠ 0)
    (hsame : ∀ x ∈ calls, ∀ y ∈ calls, x.1 ≠ 0 → y.1 ≠ 0 → x = y) (hname : Plain name)
    (hothers : OthersOpen os dataDir name s.tree)
    {c : Config serviceInterface ServiceState (Except ServiceError Unit)}
    (hst : Config.Steps (ServiceState.step os) Config.anyOrder ⟨s, creates dataDir name calls⟩ c)
    (hret : Returned c) : Agrees os dataDir name calls c := by
  have hsafe := Config.safe_of_steps (fun t s => .refl t s) (fun t _ _ _ h h' => h.trans h')
    (safe_creates hfree (fun cfg => ∀ x ∈ calls, x.1 ≠ 0 → cfg = newConfig x.1 x.2)
      fun x hx hx0 y hy hy0 => by rw [hsame x hx y hy hx0 hy0]) hst
  have hended : ∀ t r, c.pool t = .ret r → Ended os dataDir name calls t r c.shared :=
    fun t r hr => hsafe.returned (fun t s => .refl t s) hr
  -- some call asked for a collection, so one is registered
  obtain ⟨h, hreg⟩ : ∃ h, c.shared.registry name = some h := by
    obtain ⟨⟨dim, metric⟩, hx, hdim⟩ := hsome
    obtain ⟨t, ht⟩ := List.getElem?_of_mem hx
    obtain ⟨r, hr⟩ := hret t
    rcases hended t r hr with ⟨-, h0⟩ | ⟨_, _, -, -, ⟨-, hreg, -⟩ | ⟨-, -, h, hreg, -⟩⟩
    · exact absurd (h0 _ _ ht) hdim
    · exact ⟨_, hreg⟩
    · exact ⟨h, hreg⟩
  -- its opener has succeeded, and nobody else has
  obtain ⟨dim, metric, hcall, hdim, hcfg⟩ := hsafe.inv.registered h hreg
  obtain ⟨r, hr⟩ := hret h.opener
  rcases hended _ r hr with ⟨-, h0⟩ | ⟨_, _, hcall', -, hcr⟩
  · exact absurd (h0 _ _ hcall) hdim
  rw [hcall] at hcall'
  cases hcall'
  rcases hcr with ⟨rfl, -, hmade, cfg, hfile⟩ | ⟨-, -, h', hreg', ho⟩
  · have hfile : c.shared.tree ((nameDir dataDir name).location ++ ["config"]) =
        some (.file (.config (newConfig dim metric))) := by
      rcases hsafe.inv.inside "config" with hn | ⟨-, cfg', hcfg', hfile'⟩ | ⟨hw, -⟩
      · rw [hfile] at hn
        cases hn
      · rw [hfile', hcfg' _ (List.mem_of_getElem? hcall) hdim]
      · exact absurd hw (by decide)
    refine ⟨h.opener, dim, metric, hcall, fun u => ⟨fun hu => ?_, fun hu => hu ▸ hr⟩, ?_,
      readFile_join_of_file hmade (Os.passes os (by decide)) hfile,
      reopens_of_made hname hsafe.inv hmade hfile
        ((othersOpen_iff hname hfree.wf hsafe.inv.wf hst).mpr hothers)⟩
    · rcases hended u _ hu with ⟨⟨e, he⟩, -⟩ | ⟨_, _, -, -, ⟨-, hregu, -⟩ | ⟨e, he, -⟩⟩
      · cases he
      · rw [hreg] at hregu
        cases hregu
        rfl
      · cases he
    · rw [hreg, Option.map_some, hcfg]
  · rw [hreg] at hreg'
    cases hreg'
    exact absurd rfl ho

/-! ## Calls that ask for different things -/

theorem step_isSome (os : Os) (t : ℕ) (o : ServiceOp) (s : ServiceState) :
    (ServiceState.step os t o s).isSome = true := by
  cases o with
  | registryInsertNew name cfg =>
    rw [ServiceState.step]
    split <;> rfl
  | _ => rfl

/-- A call by itself, from its triple. -/
theorem exists_steps_of_triple {α : Type} {files : CollectionConfig → Prop} {asked : Handle → Prop}
    {dir : PathBuf String} {P : ServiceState → Prop} {p : ServiceProg α}
    {Q : α → ServiceState → Prop} (hp : CreateTriple os dir name files asked t P p Q)
    (hI : Opening os dir name files asked s) (hP : P s) :
    ∃ os' r s', Steps (ServiceState.step os) t p s os' (.ret r) s' ∧
      Opening os dir name files asked s' ∧ Q r s' ∧ ∀ u, u ≠ t → Rely dir name u s s' := by
  obtain ⟨os', r, s', hst⟩ := exists_steps_ret (h := ServiceState.step os) (t := t)
    (step_isSome os t) p s
  exact ⟨os', r, s', hst, Safe.of_steps (fun t s => .refl t s) (fun t _ _ _ h h' => h.trans h')
    (fun _ _ => trivial) (hp s hI hP) hI hst⟩

/-- A create that has found no config. -/
def unchecked (dataDir : List String) (name : String) (cfg : CollectionConfig) :
    ServiceProg (Except ServiceError Unit) :=
  attempt (attempt (writeAtomic ((nameDir dataDir name).join "config") (.config cfg))
    (recoverDir (nameDir dataDir name))) (register name cfg)

/-- **A create up to its check**: it makes the directory and finds no config in it. -/
theorem exists_steps_unchecked (t) {dim : ℕ} (metric : Metric)
    (hdir : Straight (nameDir dataDir name)) (hdim : dim ≠ 0)
    (hI : Opening os (nameDir dataDir name) name (fun _ => False) (fun _ => False) s) :
    ∃ os' s', Steps (ServiceState.step os) t (createCollection dataDir name dim metric) s os'
        (unchecked dataDir name (newConfig dim metric)) s' ∧
      Opening os (nameDir dataDir name) name (fun _ => False) (fun _ => False) s' ∧
      Made os (nameDir dataDir name) s' := by
  have hnone : ∀ {s}, Opening os (nameDir dataDir name) name (fun _ => False) (fun _ => False) s →
      s.registry name = none := fun hI =>
    Option.eq_none_iff_forall_not_mem.mpr fun x hx => hI.registered x hx
  obtain ⟨os₁, r, s₁, hst, hI₁, ⟨rfl, -, hmade⟩, -⟩ := exists_steps_of_triple (t := t)
    (triple_createDirAll hdir) hI fun x hx => (hI.registered x hx).elim
  have hget : ServiceState.step os t (.registryGet name) s = some (none, s) := by
    rw [ServiceState.step, hnone hI]
  have hpresent : ServiceState.step os t (.present ((nameDir dataDir name).join "config")) s₁ =
      some (false, s₁) := by
    have hno : s₁.tree ((nameDir dataDir name).location ++ ["config"]) = none := by
      rcases hI₁.inside "config" with h | ⟨-, _, h, -⟩ | ⟨h, -⟩
      · exact h
      · exact h.elim
      · exact absurd h (by decide)
    rw [ServiceState.step, present_join hmade (Os.passes os (by decide)), hno]
    rfl
  have hmake : Steps (ServiceState.step os) t
      (attempt (openCollection (nameDir dataDir name) (newConfig dim metric))
        (register name (newConfig dim metric))) s os₁
      (attempt (attempt (writeConfigIfAbsent (nameDir dataDir name) (newConfig dim metric))
        (recoverDir (nameDir dataDir name))) (register name (newConfig dim metric))) s₁ :=
    (hst.bind _).bind _
  have hcheck : Steps (ServiceState.step os) t
      (attempt (attempt (writeConfigIfAbsent (nameDir dataDir name) (newConfig dim metric))
        (recoverDir (nameDir dataDir name))) (register name (newConfig dim metric))) s₁
      [.present ((nameDir dataDir name).join "config")]
      (unchecked dataDir name (newConfig dim metric)) s₁ := .cons hpresent (.refl _ _)
  rw [createCollection, if_neg hdim]
  exact ⟨_, s₁, .cons hget (hmake.append hcheck), hI₁, hmade⟩

theorem Opening.mono {files files' : CollectionConfig → Prop} {asked asked' : Handle → Prop}
    {dir : PathBuf String} (hI : Opening os dir name files asked s)
    (hfiles : ∀ cfg, files cfg → files' cfg) (hasked : ∀ h, asked h → asked' h) :
    Opening os dir name files' asked' s :=
  ⟨hI.wf, hI.clear, fun n => (hI.inside n).imp_right fun h => h.imp_left fun ⟨hn, cfg, hc, ht⟩ =>
    ⟨hn, cfg, hfiles cfg hc, ht⟩, fun h hh => hasked h (hI.registered h hh)⟩

/-- From a config on the disk to the registry. -/
theorem triple_afterConfig {files : CollectionConfig → Prop} {asked : Handle → Prop}
    {cfg : CollectionConfig} (hdir : Straight (nameDir dataDir name)) (ha : asked ⟨t, cfg⟩) :
    CreateTriple os (nameDir dataDir name) name files asked t
      (Filled os (nameDir dataDir name) name t)
      (attempt (recoverDir (nameDir dataDir name)) (register name cfg))
      (Created os (nameDir dataDir name) name t cfg) :=
  triple_attempt (triple_recoverFilled hdir) (triple_register ha)

theorem triple_unchecked {files : CollectionConfig → Prop} {asked : Handle → Prop}
    {cfg : CollectionConfig} (hdir : Straight (nameDir dataDir name)) (hcfg : files cfg)
    (ha : asked ⟨t, cfg⟩) :
    CreateTriple os (nameDir dataDir name) name files asked t
      (Ready os (nameDir dataDir name) name t) (unchecked dataDir name cfg)
      (Created os (nameDir dataDir name) name t cfg) :=
  triple_attempt (triple_attempt (triple_writeConfig hdir hcfg) (triple_recoverFilled hdir))
    (triple_register ha)

/-- **The rest of a create that found no config**, while nothing is registered: it registers its
collection. -/
theorem exists_steps_registered (t) (cfg : CollectionConfig)
    (hdir : Straight (nameDir dataDir name))
    (hI : Opening os (nameDir dataDir name) name (fun _ => False) (fun _ => False) s)
    (hmade : Made os (nameDir dataDir name) s) :
    ∃ os' r s', Steps (ServiceState.step os) t (unchecked dataDir name cfg) s os' (.ret r) s' ∧
      Opening os (nameDir dataDir name) name (fun _ => True) (· = ⟨t, cfg⟩) s' ∧
      Made os (nameDir dataDir name) s' ∧ s'.registry name = some ⟨t, cfg⟩ := by
  have hI₀ : Opening os (nameDir dataDir name) name (fun _ => True) (· = ⟨t, cfg⟩) s :=
    hI.mono (fun _ _ => trivial) fun _ h => h.elim
  have hp : CreateTriple os (nameDir dataDir name) name (fun _ => True) (· = ⟨t, cfg⟩) t _
      (unchecked dataDir name cfg) _ := triple_unchecked hdir trivial rfl
  obtain ⟨os₁, r, s₁, hst, hI₁, hcr, hrel⟩ := exists_steps_of_triple hp hI₀
    ⟨fun x hx => (hI.registered x hx).elim, hmade⟩
  refine ⟨os₁, r, s₁, hst, hI₁, hmade.rely (hrel (t + 1) (Nat.succ_ne_self t)), ?_⟩
  rcases hcr with ⟨-, hreg, -⟩ | ⟨-, -, h, hreg, ho⟩
  · exact hreg
  · exact absurd (congrArg Handle.opener (hI₁.registered h hreg)) ho

/-- **The rest of a create that found no config**, with another's collection registered: the config
file is its own. -/
theorem exists_steps_overwritten (t) (cfg : CollectionConfig) {h : Handle}
    (hdir : Straight (nameDir dataDir name)) (ho : h.opener ≠ t)
    (hI : Opening os (nameDir dataDir name) name (fun _ => True) (· = h) s)
    (hmade : Made os (nameDir dataDir name) s) (hreg : s.registry name = some h) :
    ∃ os' r s', Steps (ServiceState.step os) t (unchecked dataDir name cfg) s os' (.ret r) s' ∧
      s'.registry name = some h ∧ Made os (nameDir dataDir name) s' ∧
      s'.tree ((nameDir dataDir name).location ++ ["config"]) = some (.file (.config cfg)) := by
  have hready : Ready os (nameDir dataDir name) name t s := ⟨fun x hx => by
    rw [hreg] at hx
    cases hx
    exact ho, hmade⟩
  -- the config file is put
  have htemp : ServiceState.step os t (.createTemp (nameDir dataDir name)) s =
      some (.ok (), s) := by
    rw [ServiceState.step, openDir_of_isDirectory hmade]
    rfl
  obtain ⟨⟨r, s₁⟩, hput⟩ := Option.isSome_iff_exists.mp
    (step_isSome os t (.putFile ((nameDir dataDir name).join "config") (.config cfg)) s)
  have howes : CreateOwes os (nameDir dataDir name) name (fun _ => True) (· = h) t _ _ _ :=
    owes_putFile hdir (.inl ⟨rfl, cfg, trivial, rfl⟩)
  obtain ⟨hI₁, hrel₁, rfl, hready₁, hfile₁⟩ := howes s r s₁ hI hready trivial hput
  have hwrite : Steps (ServiceState.step os) t
      (writeAtomic ((nameDir dataDir name).join "config") (.config cfg)) s
      [.createTemp (nameDir dataDir name),
        .putFile ((nameDir dataDir name).join "config") (.config cfg)] (.ret (.ok ())) s₁ := by
    rw [writeAtomic, PathBuf.parent_join, hdir.eq]
    exact .cons htemp (.cons hput (.refl _ _))
  -- from here on no other config is in the directory
  have hI₁' : Opening os (nameDir dataDir name) name (· = cfg)
    (fun x => x = h ∨ x = ⟨t, cfg⟩) s₁ := by
    refine ⟨hI₁.wf, hI₁.clear, fun n => ?_, fun x hx => .inl (hI₁.registered x hx)⟩
    rcases hI₁.inside n with hn | ⟨rfl, -⟩ | hn
    · exact .inl hn
    · exact .inr (.inl ⟨rfl, cfg, rfl, hfile₁⟩)
    · exact .inr (.inr hn)
  obtain ⟨os₂, r, s₂, hst₂, hI₂, -, hrel₂⟩ := exists_steps_of_triple (triple_afterConfig hdir
    (.inr rfl)) hI₁' ⟨hready₁, cfg, hfile₁⟩
  have hrel₂ := hrel₂ (t + 1) (Nat.succ_ne_self t)
  refine ⟨_, r, s₂, ((hwrite.bind _).bind _).append hst₂,
    hrel₂.kept h ((hrel₁ (t + 1) (Nat.succ_ne_self t)).kept h hreg), hready₁.2.rely hrel₂, ?_⟩
  obtain ⟨cfg', hfile⟩ := hrel₂.config ⟨cfg, hfile₁⟩
  rcases hI₂.inside "config" with hn | ⟨-, _, rfl, hn⟩ | ⟨hn, -⟩
  · rw [hfile] at hn
    cases hn
  · exact hn
  · exact absurd hn (by decide)

/-- With a collection registered, a create that has not started changes nothing. -/
theorem exists_steps_create {h : Handle} (hreg : s.registry name = some h) (t : ℕ) :
    ∃ r os', Steps (ServiceState.step os) t (creates dataDir name calls t) s os' (.ret r) s := by
  rw [creates]
  match calls[t]? with
  | none => exact ⟨_, [], .refl _ _⟩
  | some (dim, metric) =>
    dsimp only
    rw [createCollection]
    split
    · exact ⟨_, [], .refl _ _⟩
    · have hget : ServiceState.step os t (.registryGet name) s = some (some h, s) := by
        rw [ServiceState.step, hreg]
      exact ⟨.error (.alreadyExists name), _, .cons hget (.refl _ _)⟩

/-- **With a collection registered, the calls that are left** are refused one by one. -/
theorem exists_steps_rest (os : Os) {h : Handle} (hreg : s.registry name = some h)
    (pool : ℕ → ServiceProg (Except ServiceError Unit))
    (hpool : ∀ v, (∃ r, pool v = .ret r) ∨ pool v = creates dataDir name calls v) :
    ∃ pool', Config.Steps (ServiceState.step os) Config.anyOrder ⟨s, pool⟩ ⟨s, pool'⟩ ∧
      Returned ⟨s, pool'⟩ := by
  refine Config.exists_steps_returned calls.length pool (fun v => ?_) fun v hv => ?_
  · rcases hpool v with ⟨r, hr⟩ | hv
    · exact ⟨r, [], by rw [hr]; exact .refl _ _⟩
    · rw [hv]
      exact exists_steps_create hreg v
  · rcases hpool v with hr | hr
    · exact hr
    · rw [hr, creates, List.getElem?_eq_none hv]
      exact ⟨_, rfl⟩

/-- **Some run comes to its end**: one call by itself, and then the others. -/
theorem exists_steps_complete (hfree : Free os dataDir name s) (hsome : ∃ x ∈ calls, x.1 ≠ 0) :
    ∃ c, Config.Steps (ServiceState.step os) Config.anyOrder ⟨s, creates dataDir name calls⟩ c ∧
      Returned c ∧ c.shared.tree.WellFormed := by
  obtain ⟨⟨dim, metric⟩, hx, hdim⟩ := hsome
  obtain ⟨t, ht⟩ := List.getElem?_of_mem hx
  have hpt : creates dataDir name calls t = createCollection dataDir name dim metric := by
    rw [creates, ht]
  have hcreate : CreateTriple os (nameDir dataDir name) name (fun _ => True) (fun _ => True) t
      (Unregistered name t) (createCollection dataDir name dim metric)
      (Created os (nameDir dataDir name) name t (newConfig dim metric)) :=
    triple_createCollection hfree.straight hdim trivial trivial
  obtain ⟨_, r, s₁, hst, hI, hcr, -⟩ := exists_steps_of_triple hcreate (hfree.opening _ _)
    (hfree.unregisteredBy t)
  obtain ⟨h, hreg⟩ : ∃ h, s₁.registry name = some h := by
    rcases hcr with ⟨-, hreg, -⟩ | ⟨-, -, h, hreg, -⟩
    · exact ⟨_, hreg⟩
    · exact ⟨h, hreg⟩
  obtain ⟨pool', hrest, hret⟩ := exists_steps_rest os hreg
    (Function.update (creates dataDir name calls) t (.ret r)) fun v => by
      by_cases hv : v = t
      · exact .inl ⟨r, by rw [hv, Function.update_self]⟩
      · exact .inr (Function.update_of_ne hv ..)
  exact ⟨_, (Config.steps_of_pool_eq hpt hst).trans hrest, hret, hI.wf⟩

/-- **Two calls that ask for different things** can be run so that one registers its collection and
the other writes the config file: both check for the config before either writes it, the first runs
to its end, and then the second. -/
theorem exists_steps_disagree (hfree : Free os dataDir name s) {t u : ℕ} {dim dim' : ℕ}
    {metric metric' : Metric} (htu : t ≠ u) (ht : calls[t]? = some (dim, metric))
    (hu : calls[u]? = some (dim', metric')) (hdim : dim ≠ 0) (hdim' : dim' ≠ 0) :
    ∃ c, Config.Steps (ServiceState.step os) Config.anyOrder ⟨s, creates dataDir name calls⟩ c ∧
      Returned c ∧ (c.shared.registry name).map Handle.config = some (newConfig dim metric) ∧
      c.shared.tree.readFile os.naming ((nameDir dataDir name).join "config") =
        .ok (.config (newConfig dim' metric')) := by
  have hdir := hfree.straight
  have hpt : creates dataDir name calls t = createCollection dataDir name dim metric := by
    rw [creates, ht]
  have hpu : creates dataDir name calls u = createCollection dataDir name dim' metric' := by
    rw [creates, hu]
  obtain ⟨_, s₁, hst₁, hI₁, -⟩ := exists_steps_unchecked t metric hdir hdim
    (hfree.opening _ _)
  obtain ⟨_, s₂, hst₂, hI₂, hmade₂⟩ := exists_steps_unchecked u metric' hdir hdim' hI₁
  obtain ⟨_, r, s₃, hst₃, hI₃, hmade₃, hreg₃⟩ := exists_steps_registered t (newConfig dim metric)
    hdir hI₂ hmade₂
  obtain ⟨_, r', s₄, hst₄, hreg₄, hmade₄, hfile₄⟩ := exists_steps_overwritten u
    (newConfig dim' metric') hdir htu hI₃ hmade₃ hreg₃
  -- the pool, as the four stretches leave it
  let pool₁ := Function.update (creates dataDir name calls) t
    (unchecked dataDir name (newConfig dim metric))
  let pool₂ := Function.update pool₁ u (unchecked dataDir name (newConfig dim' metric'))
  let pool₃ := Function.update pool₂ t (.ret r)
  let pool₄ := Function.update pool₃ u (.ret r')
  have hu₁ : pool₁ u = createCollection dataDir name dim' metric' :=
    (Function.update_of_ne htu.symm ..).trans hpu
  have ht₂ : pool₂ t = unchecked dataDir name (newConfig dim metric) :=
    (Function.update_of_ne htu ..).trans (Function.update_self ..)
  have hu₃ : pool₃ u = unchecked dataDir name (newConfig dim' metric') :=
    (Function.update_of_ne htu.symm ..).trans (Function.update_self ..)
  have ht₄ : pool₄ t = .ret r := (Function.update_of_ne htu ..).trans (Function.update_self ..)
  have hu₄ : pool₄ u = .ret r' := Function.update_self ..
  have hother : ∀ v, v ≠ t → v ≠ u → pool₄ v = creates dataDir name calls v := fun v hvt hvu => by
    simp only [pool₄, pool₃, pool₂, pool₁, Function.update_of_ne hvt, Function.update_of_ne hvu]
  have hsteps : Config.Steps (ServiceState.step os) Config.anyOrder
      ⟨s, creates dataDir name calls⟩ ⟨s₄, pool₄⟩ :=
    (((Config.steps_of_pool_eq hpt hst₁).trans (Config.steps_of_pool_eq hu₁ hst₂)).trans
      (Config.steps_of_pool_eq ht₂ hst₃)).trans (Config.steps_of_pool_eq hu₃ hst₄)
  obtain ⟨pool', hrest, hret⟩ := exists_steps_rest os hreg₄ pool₄ fun v => by
      by_cases hvt : v = t
      · exact .inl ⟨r, by rw [hvt, ht₄]⟩
      · by_cases hvu : v = u
        · exact .inl ⟨r', by rw [hvu, hu₄]⟩
        · exact .inr (hother v hvt hvu)
  refine ⟨⟨s₄, pool'⟩, hsteps.trans hrest, hret, ?_,
    readFile_join_of_file hmade₄ (Os.passes os (by decide)) hfile₄⟩
  rw [hreg₄, Option.map_some]

theorem newConfig_inj {dim dim' : ℕ} {metric metric' : Metric}
    (h : newConfig dim metric = newConfig dim' metric') : (dim, metric) = (dim', metric') := by
  cases h
  rfl

/-- **Creates of a free name agree with the disk**, in every interleaving and after a restart, just
when some call asks for a dimension, all that do ask for the same dimension and metric, the name is
that of an entry, and the directories beside the collection's own open. -/
theorem creates_agree_iff (hfree : Free os dataDir name s) :
    (∀ c, Config.Steps (ServiceState.step os) Config.anyOrder ⟨s, creates dataDir name calls⟩ c →
      Returned c → Agrees os dataDir name calls c) ↔
    (∃ x ∈ calls, x.1 ≠ 0) ∧ (∀ x ∈ calls, ∀ y ∈ calls, x.1 ≠ 0 → y.1 ≠ 0 → x = y) ∧
      Plain name ∧ OthersOpen os dataDir name s.tree := by
  refine ⟨fun hagree => ?_, fun h c => agrees_of_same hfree h.1 h.2.1 h.2.2.1 h.2.2.2⟩
  have hsome : ∃ x ∈ calls, x.1 ≠ 0 := by
    by_contra hnone
    have hpool : ∀ t, ∃ e, creates dataDir name calls t = .ret (.error e) := fun t => by
      rw [creates]
      match hcall : calls[t]? with
      | none => exact ⟨_, rfl⟩
      | some (dim, metric) =>
        have hdim : dim = 0 := by
          by_contra hdim
          exact hnone ⟨_, List.mem_of_getElem? hcall, hdim⟩
        dsimp only
        rw [createCollection, if_pos hdim]
        exact ⟨_, rfl⟩
    obtain ⟨t, -, -, -, hok, -⟩ := hagree _ .refl fun t => (hpool t).imp' _ fun _ he => he
    obtain ⟨e, he⟩ := hpool t
    have hret := (hok t).mpr rfl
    dsimp only at hret
    rw [he] at hret
    cases hret
  refine ⟨hsome, ?_, ?_⟩
  · rintro ⟨dim, metric⟩ hx ⟨dim', metric'⟩ hy hdim hdim'
    by_contra hne
    obtain ⟨t, ht⟩ := List.getElem?_of_mem hx
    obtain ⟨u, hu⟩ := List.getElem?_of_mem hy
    have htu : t ≠ u := fun h => by
      rw [h, hu] at ht
      cases ht
      exact hne rfl
    obtain ⟨c, hst, hret, hreg, hfile⟩ := exists_steps_disagree hfree htu ht hu hdim hdim'
    obtain ⟨_, dim₁, metric₁, -, -, hreg₁, hfile₁, -⟩ := hagree c hst hret
    rw [hreg] at hreg₁
    rw [hfile] at hfile₁
    have h₁ := newConfig_inj (Option.some.inj hreg₁)
    have h₂ : (dim', metric') = (dim₁, metric₁) := by
      cases hfile₁
      rfl
    exact hne (h₁.trans h₂.symm)
  · -- a run that comes to its end tells what a restart needs
    obtain ⟨c, hst, hret, hw⟩ := exists_steps_complete hfree hsome
    obtain ⟨_, dim, metric, -, -, -, -, hreopens⟩ := hagree c hst hret
    obtain ⟨hopens, hname, -⟩ := (reopens_iff hw hreopens.isDirectory).mp hreopens
    rw [collectionsDir, PathBuf.location_names] at hopens hname
    have hplain : Plain name := plainEntries_of_steps hst hfree.plain _ name (by
      rw [eq_dir_entries hname.2]
      rfl)
    exact ⟨hplain, (othersOpen_iff hplain hfree.wf hw hst).mp fun m hm _ => hopens m hm⟩

/-! ## Names that are free -/

/-- A path of names does not lead below its own end. -/
theorem straight_names (ns : List String) : Straight ⟨ns.map .name, false⟩ where
  no_dot := rfl
  not_below cs hcs n h := by
    obtain ⟨ns', hns, rfl⟩ := List.prefix_map_iff.mp hcs
    rw [PathBuf.foldl_move_names, List.nil_append, PathBuf.location_names] at h
    have hlen := hns.length_le
    rw [h, List.length_append] at hlen
    exact Nat.not_succ_le_self _ hlen

/-- **On an empty file system every plain name is free.** -/
theorem free_empty (hname : Plain name)
    (hnames : ∀ n ∈ dataDir ++ ["collections", name],
      os.naming.passes n = true ∧ os.naming.admits n = true) :
    Free os dataDir name ⟨fun _ => none, emptyTree⟩ where
  unregistered := rfl
  straight := by
    rw [nameDir_of_plain hname]
    exact straight_names _
  wf := wellFormed_emptyTree
  plain p n h := by
    have hnone : emptyTree (p ++ [n]) = none := if_neg (by simp)
    change (emptyTree (p ++ [n])).isSome = true at h
    rw [hnone] at h
    cases h
  clear cs c hcs := by
    have hne : (cs ++ [c]).foldl Component.move [] ≠ [] := by
      rw [nameDir_of_plain hname] at hcs
      obtain ⟨ns, -, heq⟩ := List.prefix_map_iff.mp hcs
      rw [heq, PathBuf.foldl_move_names, List.nil_append]
      rintro rfl
      simp at heq
    have hnone : emptyTree ((cs ++ [c]).foldl Component.move []) = none := if_neg hne
    obtain ⟨n, hn, rfl⟩ : ∃ n ∈ dataDir ++ ["collections", name], Component.name n = c := by
      rw [nameDir_of_plain hname, List.append_assoc] at hcs
      exact List.mem_map.mp (hcs.subset List.mem_concat_self)
    refine ⟨(hnames n hn).1, fun a ha => ?_, fun s hs _ => ?_⟩
    · cases hnone.symm.trans ha
    · cases hs
      exact (hnames n hn).2
  empty n := if_neg (by simp)

/-- Creates on a fresh server, one of them refused: they can be run to their end, and then one of
the other two has succeeded, and a restart reopens its collection. -/
theorem creates_agree_iff_fresh :
    ∃ c, Config.Steps (ServiceState.step .unix) Config.anyOrder
        ⟨⟨fun _ => none, emptyTree⟩,
          creates ["data"] "docs" [(2, .cosine), (0, .dot), (2, .cosine)]⟩ c ∧
      Returned c ∧ Agrees .unix ["data"] "docs" [(2, .cosine), (0, .dot), (2, .cosine)] c := by
  have hfree : Free .unix ["data"] "docs" ⟨fun _ => none, emptyTree⟩ :=
    free_empty (by decide) (by decide)
  have hsome : ∃ x ∈ [(2, Metric.cosine), (0, .dot), (2, .cosine)], x.1 ≠ 0 := by decide
  obtain ⟨c, hst, hret, -⟩ := exists_steps_complete hfree hsome
  refine ⟨c, hst, hret, (creates_agree_iff hfree).mpr ⟨hsome, by decide, by decide, ?_⟩ c hst hret⟩
  intro m hm
  rw [entries_emptyTree] at hm
  exact absurd hm List.not_mem_nil

/-- **Two creates for different dimensions**: both find no config, the first registers two
dimensions, and the second leaves three in the config file. -/
theorem creates_disagree :
    ∃ c, Config.Steps (ServiceState.step .unix) Config.anyOrder
        ⟨⟨fun _ => none, emptyTree⟩, creates ["data"] "docs" [(2, .cosine), (3, .cosine)]⟩ c ∧
      Returned c ∧ ¬ Agrees .unix ["data"] "docs" [(2, .cosine), (3, .cosine)] c := by
  have hfree : Free .unix ["data"] "docs" ⟨fun _ => none, emptyTree⟩ :=
    free_empty (by decide) (by decide)
  have ht : [(2, Metric.cosine), (3, .cosine)][0]? = some (2, .cosine) := rfl
  have hu : [(2, Metric.cosine), (3, .cosine)][1]? = some (3, .cosine) := rfl
  obtain ⟨c, hst, hret, hreg, hfile⟩ := exists_steps_disagree hfree (by decide) ht hu (by decide)
    (by decide)
  refine ⟨c, hst, hret, ?_⟩
  rintro ⟨_, dim, metric, -, -, hreg', hfile', -⟩
  rw [hreg] at hreg'
  rw [hfile] at hfile'
  cases hreg'
  cases hfile'

end Service

end Vecvec
