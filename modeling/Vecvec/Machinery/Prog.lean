import Mathlib.Logic.Relation
import Mathlib.Logic.Function.Basic
import Mathlib.Data.Nat.Notation

/-!
# Machinery/Prog — programs made of atomic actions

A call of a concurrent, crash-prone component is a tree of **atomic actions**: each node performs
one action on the shared state and branches on its answer.  One tree is read in two ways.

* alone (`Steps`, `run`): its actions in order, stopped anywhere by a crash;
* in a pool of calls (`Config.Step`): any call may perform its next action.

Nothing here knows what the actions are.
-/

namespace Machinery

/-- An interface of atomic actions: the actions, and the type each one answers with. -/
structure Interface where
  /-- The actions. -/
  Op : Type
  /-- What an action answers. -/
  Ret : Op → Type

/-- A call: perform an action and continue on its answer, or return. -/
inductive Prog (S : Interface) (α : Type) : Type
  | ret (a : α)
  | act (o : S.Op) (k : S.Ret o → Prog S α)

namespace Prog

variable {S : Interface} {α β γ : Type}

/-- Sequencing: the second call starts on the value the first returns. -/
def bind : Prog S α → (α → Prog S β) → Prog S β
  | ret a, f => f a
  | act o k, f => act o fun r => (k r).bind f

/-- One action, returning its answer. -/
def perform (o : S.Op) : Prog S (S.Ret o) := act o ret

instance : Monad (Prog S) where
  pure := ret
  bind := bind

@[simp] theorem pure_eq (a : α) : (pure a : Prog S α) = ret a := rfl

@[simp] theorem ret_bind (a : α) (f : α → Prog S β) : (ret a : Prog S α) >>= f = f a := rfl

@[simp] theorem act_bind (o : S.Op) (k : S.Ret o → Prog S α) (f : α → Prog S β) :
    act o k >>= f = act o fun r => k r >>= f := rfl

@[simp] theorem perform_bind (o : S.Op) (f : S.Ret o → Prog S β) :
    perform o >>= f = act o f := rfl

theorem bind_ret (p : Prog S α) : p >>= ret = p := by
  induction p with
  | ret a => rfl
  | act o k ih => rw [act_bind]; exact congrArg _ (funext ih)

theorem bind_assoc (p : Prog S α) (f : α → Prog S β) (g : β → Prog S γ) :
    p >>= f >>= g = p >>= fun a => f a >>= g := by
  induction p with
  | ret a => rfl
  | act o k ih => simp only [act_bind]; exact congrArg _ (funext ih)

instance : LawfulMonad (Prog S) :=
  LawfulMonad.mk' _ (fun p => bind_ret p) (fun _ _ => rfl) bind_assoc

/-- What a call has returned, if it has. -/
def result : Prog S α → Option α
  | ret a => some a
  | act _ _ => none

theorem eq_ret_of_result {p : Prog S α} {a : α} (h : p.result = some a) : p = ret a := by
  cases p with
  | ret b => exact congrArg ret (Option.some.inj h)
  | act o k => cases h

/-- Renaming the actions: a call of one component, performed inside a larger one. -/
def lift {T : Interface} (i : S.Op → T.Op) (e : ∀ o, T.Ret (i o) → S.Ret o) :
    Prog S α → Prog T α
  | ret a => ret a
  | act o k => act (i o) fun r => (k (e o r)).lift i e

@[simp] theorem lift_ret {T : Interface} (i : S.Op → T.Op) (e : ∀ o, T.Ret (i o) → S.Ret o)
    (a : α) : (ret a : Prog S α).lift i e = ret a := rfl

@[simp] theorem lift_act {T : Interface} (i : S.Op → T.Op) (e : ∀ o, T.Ret (i o) → S.Ret o)
    (o : S.Op) (k : S.Ret o → Prog S α) :
    (act o k).lift i e = act (i o) fun r => (k (e o r)).lift i e := rfl

theorem lift_bind {T : Interface} (i : S.Op → T.Op) (e : ∀ o, T.Ret (i o) → S.Ret o)
    (p : Prog S α) (f : α → Prog S β) :
    (p >>= f).lift i e = p.lift i e >>= fun a => (f a).lift i e := by
  induction p with
  | ret a => rfl
  | act o k ih =>
    rw [act_bind, lift_act, lift_act, act_bind]
    exact congrArg _ (funext fun r => ih (e o r))

end Prog

/-- What an action of caller `t` does to the state; `none` when it has to wait. -/
abbrev Handler (S : Interface) (σ : Type) : Type :=
  ℕ → (o : S.Op) → σ → Option (S.Ret o × σ)

variable {S : Interface} {σ α β : Type}

/-! ## One call by itself -/

/-- `Steps h t p s os p' s'`: running `p` from `s`, caller `t` has performed the actions `os`,
reached the state `s'` and has `p'` left to do. -/
inductive Steps (h : Handler S σ) (t : ℕ) : Prog S α → σ → List S.Op → Prog S α → σ → Prop
  | refl (p : Prog S α) (s : σ) : Steps h t p s [] p s
  | cons {o : S.Op} {k : S.Ret o → Prog S α} {s s' s'' : σ} {r : S.Ret o} {os : List S.Op}
      {p' : Prog S α} (hs : h t o s = some (r, s')) (rest : Steps h t (k r) s' os p' s'') :
      Steps h t (.act o k) s (o :: os) p' s''

/-- The first `n` actions of a call, or all of them if it has fewer: the actions, what is left to
do, and the state. -/
def firstSteps (h : Handler S σ) (t : ℕ) : ℕ → Prog S α → σ → List S.Op × Prog S α × σ
  | n + 1, .act o k, s =>
    match h t o s with
    | some (r, s') =>
      let x := firstSteps h t n (k r) s'
      (o :: x.1, x.2)
    | none => ([], .act o k, s)
  | _, p, s => ([], p, s)

/-- A whole call, performed without interruption. -/
def run (h : Handler S σ) (t : ℕ) : Prog S α → σ → Option (α × σ)
  | .ret a, s => some (a, s)
  | .act o k, s => (h t o s).bind fun rs => run h t (k rs.1) rs.2

variable {h : Handler S σ} {t : ℕ}

@[simp] theorem run_ret (a : α) (s : σ) : run h t (.ret a) s = some (a, s) := rfl

theorem steps_firstSteps (n : ℕ) (p : Prog S α) (s : σ) :
    Steps h t p s (firstSteps h t n p s).1 (firstSteps h t n p s).2.1
      (firstSteps h t n p s).2.2 := by
  induction n generalizing p s with
  | zero => cases p <;> exact .refl _ _
  | succ n ih =>
    cases p with
    | ret a => exact .refl _ _
    | act o k =>
      rw [firstSteps]
      split
      · exact .cons ‹_› (ih _ _)
      · exact .refl _ _

theorem run_act (o : S.Op) (k : S.Ret o → Prog S α) (s : σ) :
    run h t (.act o k) s = (h t o s).bind fun rs => run h t (k rs.1) rs.2 := rfl

theorem run_act_of_eq {o : S.Op} {k : S.Ret o → Prog S α} {s s' : σ} {r : S.Ret o}
    (hs : h t o s = some (r, s')) : run h t (.act o k) s = run h t (k r) s' := by
  rw [run_act, hs]; rfl

theorem run_perform_bind {o : S.Op} {f : S.Ret o → Prog S α} {s s' : σ} {r : S.Ret o}
    (hs : h t o s = some (r, s')) : run h t (Prog.perform o >>= f) s = run h t (f r) s' := by
  rw [Prog.perform_bind, run_act_of_eq hs]

theorem run_bind (p : Prog S α) (f : α → Prog S β) (s : σ) :
    run h t (p >>= f) s = (run h t p s).bind fun as => run h t (f as.1) as.2 := by
  induction p generalizing s with
  | ret a => rfl
  | act o k ih =>
    rw [Prog.act_bind, run_act, run_act]
    cases h t o s with
    | none => rfl
    | some rs => exact ih rs.1 rs.2

theorem run_bind_of_eq {p : Prog S α} {f : α → Prog S β} {s s' : σ} {a : α}
    (hp : run h t p s = some (a, s')) : run h t (p >>= f) s = run h t (f a) s' := by
  rw [run_bind, hp]; rfl

/-- A completed call is one whose steps reach a return. -/
theorem run_eq_some_iff {p : Prog S α} {s s' : σ} {a : α} :
    run h t p s = some (a, s') ↔ ∃ os, Steps h t p s os (.ret a) s' := by
  constructor
  · intro hr
    induction p generalizing s with
    | ret b =>
      obtain ⟨rfl, rfl⟩ : b = a ∧ s = s' := by simpa using hr
      exact ⟨[], .refl _ _⟩
    | act o k ih =>
      rw [run_act, Option.bind_eq_some_iff] at hr
      obtain ⟨⟨r, s₁⟩, hs, hr⟩ := hr
      obtain ⟨os, hos⟩ := ih r hr
      exact ⟨o :: os, .cons hs hos⟩
  · rintro ⟨os, hos⟩
    generalize hq : (Prog.ret a : Prog S α) = q at hos
    induction hos with
    | refl p s => subst hq; rfl
    | cons hs _ ih => rw [run_act_of_eq hs]; exact ih hq

/-- One stretch of a call after another. -/
theorem Steps.append {p p' p'' : Prog S α} {s s' s'' : σ} {os os' : List S.Op}
    (hst : Steps h t p s os p' s') (hst' : Steps h t p' s' os' p'' s'') :
    Steps h t p s (os ++ os') p'' s'' := by
  induction hst with
  | refl => exact hst'
  | cons hs _ ih => exact .cons hs (ih hst')

/-- A stretch of a call, as one of a longer call. -/
theorem Steps.bind {p p' : Prog S α} {s s' : σ} {os : List S.Op} (hst : Steps h t p s os p' s')
    (f : α → Prog S β) : Steps h t (p >>= f) s os (p' >>= f) s' := by
  induction hst with
  | refl => exact .refl _ _
  | cons hs _ ih => exact .cons hs ih

/-- Where no action has to wait, a call by itself comes to its end. -/
theorem exists_steps_ret (htotal : ∀ o s, (h t o s).isSome = true) (p : Prog S α) (s : σ) :
    ∃ os a s', Steps h t p s os (.ret a) s' := by
  induction p generalizing s with
  | ret a => exact ⟨[], a, s, .refl _ _⟩
  | act o k ih =>
    obtain ⟨⟨r, s₁⟩, hs⟩ := Option.isSome_iff_exists.mp (htotal o s)
    obtain ⟨os, a, s', hst⟩ := ih r s₁
    exact ⟨o :: os, a, s', .cons hs hst⟩

/-- **What holds when a call starts and not when it stops** is lost at one of its actions. -/
theorem Steps.exists_turn {φ : σ → Prop} {p p' : Prog S α} {s s' : σ} {os : List S.Op}
    (hst : Steps h t p s os p' s') (hφ : φ s) (hφ' : ¬ φ s') :
    ∃ os₁ q s₁ s₂, ∃ o ∈ os, ∃ r : S.Ret o, Steps h t p s os₁ q s₂ ∧ φ s₁ ∧
      h t o s₁ = some (r, s₂) ∧ ¬ φ s₂ := by
  induction hst with
  | refl => exact absurd hφ hφ'
  | @cons o k s s₁ s' r os p' hs _ ih =>
    by_cases hφ₁ : φ s₁
    · obtain ⟨os₁, q, s₂, s₃, o', ho', r', hst', hturn⟩ := ih hφ₁ hφ'
      exact ⟨o :: os₁, q, s₂, s₃, o', List.mem_cons_of_mem _ ho', r', .cons hs hst', hturn⟩
    · exact ⟨[o], k r, s, s₁, o, List.mem_cons_self, r, .cons hs (.refl _ _), hφ, hs, hφ₁⟩

/-! ## Many calls at once -/

/-- A pool of calls in progress over one shared state; a call is named by its caller. -/
structure Config (S : Interface) (σ ρ : Type) where
  /-- The state the calls share. -/
  shared : σ
  /-- What each call still has to do. -/
  pool : ℕ → Prog S ρ

namespace Config

variable {ρ : Type}

/-- One call of the pool performs its next action.  `allow` restricts the interleavings under
study: it may forbid an action of a call in a state. -/
inductive Step (h : Handler S σ) (allow : ℕ → S.Op → σ → Prop) :
    Config S σ ρ → Config S σ ρ → Prop
  | mk {c : Config S σ ρ} {t : ℕ} {o : S.Op} {k : S.Ret o → Prog S ρ} {r : S.Ret o} {s' : σ}
      (hp : c.pool t = .act o k) (ha : allow t o c.shared) (hs : h t o c.shared = some (r, s')) :
      Step h allow c ⟨s', Function.update c.pool t (k r)⟩

/-- Any interleaving of the calls of a pool. -/
abbrev Steps (h : Handler S σ) (allow : ℕ → S.Op → σ → Prop) :
    Config S σ ρ → Config S σ ρ → Prop :=
  Relation.ReflTransGen (Step h allow)

/-- No restriction on the interleavings. -/
abbrev anyOrder : ℕ → S.Op → σ → Prop := fun _ _ _ => True

/-- A call that has returned does nothing more. -/
theorem pool_eq_ret {h : Handler S σ} {allow : ℕ → S.Op → σ → Prop} {c c' : Config S σ ρ}
    (hst : Steps h allow c c') {t : ℕ} {a : ρ} (ht : c.pool t = .ret a) : c'.pool t = .ret a := by
  induction hst with
  | refl => exact ht
  | tail _ hs ih =>
    obtain ⟨hp, -, -⟩ := hs
    rename_i u o k r s'
    have hne : t ≠ u := by
      rintro rfl
      cases ih.symm.trans hp
    exact (Function.update_of_ne hne ..).trans ih

/-- Fewer restrictions allow more interleavings. -/
theorem Steps.mono {h : Handler S σ} {allow allow' : ℕ → S.Op → σ → Prop}
    (hle : ∀ t o s, allow t o s → allow' t o s) {c c' : Config S σ ρ} (hst : Steps h allow c c') :
    Steps h allow' c c' := by
  induction hst with
  | refl => exact .refl
  | tail _ hs ih =>
    obtain ⟨hp, ha, hs⟩ := hs
    exact ih.tail ⟨hp, hle _ _ _ ha, hs⟩

/-- A call of the pool, by itself for a while. -/
theorem steps_of_call {h : Handler S σ} {t : ℕ} {p' : Prog S ρ} {s s' : σ} {os : List S.Op}
    (pool : ℕ → Prog S ρ) (hst : Machinery.Steps h t (pool t) s os p' s') :
    Steps h anyOrder ⟨s, pool⟩ ⟨s', Function.update pool t p'⟩ := by
  generalize hp : pool t = p at hst
  induction hst generalizing pool with
  | refl p s => rw [← hp, Function.update_eq_self]
  | @cons o k s s₁ s' r os p' hs _ ih =>
    have hrest := ih (Function.update pool t (k r)) (Function.update_self ..)
    rw [Function.update_idem] at hrest
    exact .head (.mk hp trivial hs) hrest

/-- A call of the pool, known by what it has left to do. -/
theorem steps_of_pool_eq {h : Handler S σ} {t : ℕ} {pool : ℕ → Prog S ρ} {p p' : Prog S ρ}
    {s s' : σ} {os : List S.Op} (hp : pool t = p) (hst : Machinery.Steps h t p s os p' s') :
    Steps h anyOrder ⟨s, pool⟩ ⟨s', Function.update pool t p'⟩ :=
  steps_of_call pool (hp ▸ hst)

/-- **Calls that change nothing by themselves** may all be finished. -/
theorem exists_steps_returned {h : Handler S σ} {s : σ} (n : ℕ) (pool : ℕ → Prog S ρ)
    (hquiet : ∀ t, ∃ a os, Machinery.Steps h t (pool t) s os (.ret a) s)
    (hn : ∀ t, n ≤ t → ∃ a, pool t = .ret a) :
    ∃ pool', Steps h anyOrder ⟨s, pool⟩ ⟨s, pool'⟩ ∧ ∀ t, ∃ a, pool' t = .ret a := by
  induction n generalizing pool with
  | zero => exact ⟨pool, .refl, fun t => hn t (Nat.zero_le t)⟩
  | succ n ih =>
    obtain ⟨a, os, hst⟩ := hquiet n
    obtain ⟨pool', hsteps, hret⟩ := ih (Function.update pool n (.ret a))
      (fun t => by
        by_cases ht : t = n
        · subst ht
          exact ⟨a, [], by rw [Function.update_self]; exact .refl _ _⟩
        · rw [Function.update_of_ne ht]
          exact hquiet t)
      (fun t ht => by
        by_cases ht' : t = n
        · subst ht'
          exact ⟨a, Function.update_self ..⟩
        · rw [Function.update_of_ne ht']
          exact hn t (Nat.succ_le_of_lt (Nat.lt_of_le_of_ne ht (Ne.symm ht'))))
    exact ⟨pool', (steps_of_call pool hst).trans hsteps, hret⟩

section Replay

variable (h : Handler S σ) (allow : ℕ → S.Op → σ → Prop) [∀ t o s, Decidable (allow t o s)]

/-- The call `t` performs its next action, computed: how a given schedule is replayed. -/
def advance (t : ℕ) (c : Config S σ ρ) : Option (Config S σ ρ) :=
  match c.pool t with
  | .ret _ => none
  | .act o k =>
    if allow t o c.shared then
      (h t o c.shared).map fun rs => ⟨rs.2, Function.update c.pool t (k rs.1)⟩
    else none

/-- Replays a schedule: the callers in the order in which they act. -/
def replay : List ℕ → Config S σ ρ → Option (Config S σ ρ)
  | [], c => some c
  | t :: ts, c => (advance h allow t c).bind (replay ts)

variable {h allow}

theorem step_of_advance {t : ℕ} {c c' : Config S σ ρ} (ha : advance h allow t c = some c') :
    Step h allow c c' := by
  unfold advance at ha
  split at ha
  · cases ha
  · rename_i o k hp
    split at ha
    · obtain ⟨⟨r, s'⟩, hs, rfl⟩ := Option.map_eq_some_iff.mp ha
      exact .mk hp ‹_› hs
    · cases ha

/-- A replayed schedule is an interleaving. -/
theorem steps_of_replay {ts : List ℕ} {c c' : Config S σ ρ}
    (hr : replay h allow ts c = some c') : Steps h allow c c' := by
  induction ts generalizing c with
  | nil => cases hr; exact .refl
  | cons t ts ih =>
    obtain ⟨c₁, h₁, h₂⟩ := Option.bind_eq_some_iff.mp hr
    exact .head (step_of_advance h₁) (ih h₂)

/-- The schedule goes through, and what it leads to has a property. -/
def Leads (h : Handler S σ) (allow : ℕ → S.Op → σ → Prop) [∀ t o s, Decidable (allow t o s)]
    (ts : List ℕ) (c : Config S σ ρ) (Q : Config S σ ρ → Prop) : Prop :=
  match replay h allow ts c with
  | some c' => Q c'
  | none => False

instance {ts : List ℕ} {c : Config S σ ρ} {Q : Config S σ ρ → Prop} [∀ c', Decidable (Q c')] :
    Decidable (Leads h allow ts c Q) := by
  unfold Leads
  split <;> infer_instance

theorem Leads.exists_steps {ts : List ℕ} {c : Config S σ ρ} {Q : Config S σ ρ → Prop}
    (hl : Leads h allow ts c Q) : ∃ c', Steps h allow c c' ∧ Q c' := by
  unfold Leads at hl
  split at hl
  · exact ⟨_, steps_of_replay ‹_›, hl⟩
  · cases hl

end Replay

end Config

end Machinery
