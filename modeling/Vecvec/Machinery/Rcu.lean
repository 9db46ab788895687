import Vecvec.Machinery.Prog

/-!
# Machinery/Rcu — an update that retries is one action

A value behind a pointer is updated by **read, copy, update**: load the pointer, compute the next
value, and install it if the pointer is still the one loaded; otherwise load again.  Between these
steps the other callers may do anything.  **A pool of callers that update so does what some pool of
atomic updates does** (`Racing.Steps.atomic`): no update is lost, and what an update answers is
computed from the very value it replaces.

Pointers are told apart by version numbers: a new one is never an old one that is still held.
-/

namespace Machinery

variable {S : Interface} {σ α ρ : Type}

/-- A value behind a pointer, and the actions that update it by retrying. -/
structure RcuCell (S : Interface) (σ α : Type) where
  /-- The value. -/
  get : σ → α
  /-- Installs a value. -/
  set : α → σ → σ
  /-- The value an update computes and what it answers; `none` for the other actions. -/
  update : (o : S.Op) → Option (α → α × S.Ret o)

/-- The atomic actions the retrying updates stand for. -/
structure RcuCell.Lawful (cell : RcuCell S σ α) (h : Handler S σ) : Prop where
  get_set : ∀ x s, cell.get (cell.set x s) = x
  handler : ∀ t o f s, cell.update o = some f →
    h t o s = some ((f (cell.get s)).2, cell.set (f (cell.get s)).1 s)

/-- A pointer that has been loaded, and what it points to. -/
structure Versioned (α : Type) where
  version : ℕ
  value : α

/-- A caller: between two actions, or at an update it has not finished. -/
inductive Caller (S : Interface) (α ρ : Type)
  | calm (p : Prog S ρ)
  /-- The pointer is loaded. -/
  | loaded (o : S.Op) (k : S.Ret o → Prog S ρ) (current : Versioned α)
  /-- The next value is computed, and what to answer is noted. -/
  | computed (o : S.Op) (k : S.Ret o → Prog S ρ) (version : ℕ) (next : α) (answer : S.Ret o)

/-- Callers that share a state. -/
structure Racing (S : Interface) (σ α ρ : Type) where
  /-- The state they share. -/
  shared : σ
  /-- The pointer to the value. -/
  version : ℕ
  /-- What each is at. -/
  pool : ℕ → Caller S α ρ

namespace Racing

/-- The pointer, loaded. -/
def load (cell : RcuCell S σ α) (c : Racing S σ α ρ) : Versioned α :=
  ⟨c.version, cell.get c.shared⟩

/-- One step of one caller. -/
inductive Step (h : Handler S σ) (cell : RcuCell S σ α) : Racing S σ α ρ → Racing S σ α ρ → Prop
  /-- Another action; if it stores a value, the pointer is a new one. -/
  | act {c : Racing S σ α ρ} {t : ℕ} {o : S.Op} {k : S.Ret o → Prog S ρ} {r : S.Ret o} {s' : σ}
      {version : ℕ} (hp : c.pool t = .calm (.act o k)) (ho : cell.update o = none)
      (hs : h t o c.shared = some (r, s')) (hle : c.version ≤ version)
      (hsame : version = c.version → cell.get s' = cell.get c.shared) :
      Step h cell c ⟨s', version, Function.update c.pool t (.calm (k r))⟩
  | load {c : Racing S σ α ρ} {t : ℕ} {o : S.Op} {k : S.Ret o → Prog S ρ}
      (hp : c.pool t = .calm (.act o k)) (ho : (cell.update o).isSome = true) :
      Step h cell c
        ⟨c.shared, c.version, Function.update c.pool t (.loaded o k (c.load cell))⟩
  | compute {c : Racing S σ α ρ} {t : ℕ} {o : S.Op} {k : S.Ret o → Prog S ρ}
      {current : Versioned α} {f : α → α × S.Ret o} (hp : c.pool t = .loaded o k current)
      (ho : cell.update o = some f) :
      Step h cell c ⟨c.shared, c.version, Function.update c.pool t
        (.computed o k current.version (f current.value).1 (f current.value).2)⟩
  /-- The pointer is still the one loaded. -/
  | install {c : Racing S σ α ρ} {t : ℕ} {o : S.Op} {k : S.Ret o → Prog S ρ} {next : α}
      {answer : S.Ret o} (hp : c.pool t = .computed o k c.version next answer) :
      Step h cell c ⟨cell.set next c.shared, c.version + 1,
        Function.update c.pool t (.calm (k answer))⟩
  /-- It is not: the present one is loaded. -/
  | retry {c : Racing S σ α ρ} {t : ℕ} {o : S.Op} {k : S.Ret o → Prog S ρ} {version : ℕ} {next : α}
      {answer : S.Ret o} (hp : c.pool t = .computed o k version next answer)
      (hne : version ≠ c.version) :
      Step h cell c
        ⟨c.shared, c.version, Function.update c.pool t (.loaded o k (c.load cell))⟩

/-- Any interleaving of the steps. -/
abbrev Steps (h : Handler S σ) (cell : RcuCell S σ α) :
    Racing S σ α ρ → Racing S σ α ρ → Prop :=
  Relation.ReflTransGen (Step h cell)

/-- Nobody has begun. -/
def start (s : σ) (pool : ℕ → Prog S ρ) : Racing S σ α ρ := ⟨s, 0, fun t => .calm (pool t)⟩

end Racing

/-! ## The atomic pool -/

namespace Caller

/-- What is left to do, an update that is not finished still included. -/
def rest : Caller S α ρ → Prog S ρ
  | calm p => p
  | loaded o k _ => .act o k
  | computed o k _ _ _ => .act o k

/-- A pointer held is not ahead of the present one, and as long as it is the present one the value
computed is the one to install. -/
def Sound (cell : RcuCell S σ α) (version : ℕ) (value : α) : Caller S α ρ → Prop
  | calm _ => True
  | loaded _ _ current =>
    current.version ≤ version ∧ (current.version = version → current.value = value)
  | computed o _ v next answer =>
    ∃ f, cell.update o = some f ∧ v ≤ version ∧ (v = version → (next, answer) = f value)

variable {cell : RcuCell S σ α} {v v' : ℕ} {x x' : α} {caller : Caller S α ρ}

/-- Another pointer may be installed at any time. -/
theorem Sound.mono (h : caller.Sound cell v x) (hle : v ≤ v') (hsame : v' = v → x' = x) :
    caller.Sound cell v' x' := by
  cases caller with
  | calm p => trivial
  | loaded o k current =>
    obtain ⟨hv, hx⟩ := h
    refine ⟨Nat.le_trans hv hle, fun heq => ?_⟩
    have hv' : v' = v := by omega
    rw [hx (heq.trans hv'), hsame hv']
  | computed o k version next answer =>
    obtain ⟨f, hf, hv, hx⟩ := h
    refine ⟨f, hf, Nat.le_trans hv hle, fun heq => ?_⟩
    have hv' : v' = v := by omega
    rw [hx (heq.trans hv'), hsame hv']

end Caller

namespace Racing

variable {h : Handler S σ} {cell : RcuCell S σ α} {c c' : Racing S σ α ρ}

/-- The pool of atomic actions. -/
def atomic (c : Racing S σ α ρ) : Config S σ ρ := ⟨c.shared, Caller.rest ∘ c.pool⟩

/-- Every pointer held is what it should be. -/
def Sound (cell : RcuCell S σ α) (c : Racing S σ α ρ) : Prop :=
  ∀ t, (c.pool t).Sound cell c.version (cell.get c.shared)

theorem sound_start (s : σ) (pool : ℕ → Prog S ρ) : (start s pool).Sound cell := fun _ => trivial

/-- One caller goes on, and the others hold what they held. -/
theorem Sound.move (hc : c.Sound cell) {t : ℕ} {caller : Caller S α ρ} {s' : σ} {version : ℕ}
    (hle : c.version ≤ version) (hsame : version = c.version → cell.get s' = cell.get c.shared)
    (hcaller : caller.Sound cell version (cell.get s')) :
    Sound cell ⟨s', version, Function.update c.pool t caller⟩ := by
  intro u
  dsimp only
  by_cases hu : u = t
  · subst hu
    rwa [Function.update_self]
  · rw [Function.update_of_ne hu]
    exact (hc u).mono hle hsame

theorem atomic_move {t : ℕ} {caller : Caller S α ρ} {s' : σ} {version : ℕ} :
    atomic ⟨s', version, Function.update c.pool t caller⟩ =
      ⟨s', Function.update c.atomic.pool t caller.rest⟩ := by
  rw [atomic, Function.comp_update]
  rfl

/-- A caller that is still at the same action. -/
theorem atomic_stutter {t : ℕ} {caller : Caller S α ρ} {version : ℕ}
    (hrest : caller.rest = (c.pool t).rest) :
    atomic ⟨c.shared, version, Function.update c.pool t caller⟩ = c.atomic := by
  rw [atomic_move, hrest]
  exact congrArg (Config.mk c.shared) (Function.update_eq_self t c.atomic.pool)

/-- **One step**: nothing happens to the atomic pool, or one action does. -/
theorem Step.atomic (hlaw : cell.Lawful h) (hc : c.Sound cell) (hst : Step h cell c c') :
    c'.Sound cell ∧ (c'.atomic = c.atomic ∨ Config.Step h Config.anyOrder c.atomic c'.atomic) := by
  cases hst with
  | @act t o k r s' version hp ho hs hle hsame =>
    refine ⟨hc.move hle hsame trivial, .inr ?_⟩
    rw [atomic_move]
    exact .mk (congrArg Caller.rest hp) trivial hs
  | @load t o k hp ho =>
    exact ⟨hc.move (Nat.le_refl _) (fun _ => rfl) ⟨(Nat.le_refl _), fun _ => rfl⟩,
      .inl (atomic_stutter (congrArg Caller.rest hp).symm)⟩
  | @compute t o k current f hp ho =>
    have hcurrent := hc t
    rw [hp] at hcurrent
    refine ⟨hc.move (Nat.le_refl _) (fun _ => rfl) ⟨f, ho, hcurrent.1, fun heq => ?_⟩,
      .inl (atomic_stutter (congrArg Caller.rest hp).symm)⟩
    rw [hcurrent.2 heq]
  | @install t o k next answer hp =>
    have hcomputed := hc t
    rw [hp] at hcomputed
    obtain ⟨f, hf, -, hnext⟩ := hcomputed
    obtain ⟨rfl, rfl⟩ := Prod.mk.inj (hnext rfl)
    refine ⟨hc.move (Nat.le_succ _) (fun heq => absurd heq (Nat.succ_ne_self _)) trivial, .inr ?_⟩
    rw [atomic_move]
    exact .mk (congrArg Caller.rest hp) trivial (hlaw.handler t o f c.shared hf)
  | @retry t o k version next answer hp hne =>
    exact ⟨hc.move (Nat.le_refl _) (fun _ => rfl) ⟨(Nat.le_refl _), fun _ => rfl⟩,
      .inl (atomic_stutter (congrArg Caller.rest hp).symm)⟩

/-- **A retrying pool is an atomic one**, however its steps interleave. -/
theorem Steps.atomic (hlaw : cell.Lawful h) (hc : c.Sound cell) (hst : Steps h cell c c') :
    c'.Sound cell ∧ Config.Steps h Config.anyOrder c.atomic c'.atomic := by
  induction hst with
  | refl => exact ⟨hc, .refl⟩
  | tail _ hst ih =>
    obtain ⟨hc', hstep⟩ := hst.atomic hlaw ih.1
    refine ⟨hc', ?_⟩
    rcases hstep with heq | hstep
    exacts [heq ▸ ih.2, ih.2.tail hstep]

end Racing

end Machinery
