import Vecvec.Machinery.Sequential

/-!
# Machinery/Faults — a call that gives up

An action may fail: it does part of its work, none or all of it, and reports an error; the calls
here return at the first error they are told of.  `GivesUp` says what such a call had done, which
action failed, and what was left.
-/

namespace Machinery

variable {S : Interface} {σ δ ε ξ α β : Type}

/-- `GivesUp h fault t p s os o x s'`: run alone from `s`, the call `p` of `t` performs the actions
`os`; then `o` fails, the damage being `x`, and leaves `s'`. -/
inductive GivesUp (h : Handler S σ) (fault : ℕ → S.Op → ξ → σ → σ → Prop) (t : ℕ) :
    Prog S α → σ → List S.Op → S.Op → ξ → σ → Prop
  | here {o : S.Op} {k : S.Ret o → Prog S α} {s s' : σ} {x : ξ} (hf : fault t o x s s') :
      GivesUp h fault t (.act o k) s [] o x s'
  | later {o o' : S.Op} {k : S.Ret o → Prog S α} {s s₁ s' : σ} {r : S.Ret o}
      {os : List S.Op} {x : ξ}
      (hs : h t o s = some (r, s₁)) (rest : GivesUp h fault t (k r) s₁ os o' x s') :
      GivesUp h fault t (.act o k) s (o :: os) o' x s'

namespace GivesUp

variable {h : Handler S σ} {fault : ℕ → S.Op → ξ → σ → σ → Prop} {t : ℕ} {p : Prog S α}
  {s s' : σ} {os : List S.Op} {o : S.Op} {x : ξ}

/-- Where a call of two parts gives up: in the first, or in the second. -/
theorem of_bind {f : α → Prog S β} (hg : GivesUp h fault t (p >>= f) s os o x s') :
    GivesUp h fault t p s os o x s' ∨
      ∃ a s₁ os₁ os₂, Steps h t p s os₁ (.ret a) s₁ ∧ GivesUp h fault t (f a) s₁ os₂ o x s' ∧
        os = os₁ ++ os₂ := by
  induction p generalizing s os with
  | ret a => exact .inr ⟨a, s, [], os, .refl _ _, hg, rfl⟩
  | act o' k ih =>
    rw [Prog.act_bind] at hg
    cases hg with
    | here hf => exact .inl (.here hf)
    | later hs rest =>
      rcases ih _ rest with hk | ⟨a, s₁, os₁, os₂, hst, hf, rfl⟩
      · exact .inl (.later hs hk)
      · exact .inr ⟨a, s₁, _, os₂, .cons hs hst, hf, rfl⟩

/-- After a first part that is known, a call gives up in its second. -/
theorem of_bind_performs {pe : Persistence h δ ε} {f : α → Prog S β} {a : α} {s₁ : σ} {es : List ε}
    (hg : GivesUp h fault t (p >>= f) s os o x s') (hp : Performs pe t p s es a s₁) :
    GivesUp h fault t p s os o x s' ∨ ∃ os₁ os₂, Steps h t p s os₁ (.ret a) s₁ ∧
      GivesUp h fault t (f a) s₁ os₂ o x s' ∧ os = os₁ ++ os₂ := by
  rcases hg.of_bind with hg | ⟨b, s₂, os₁, os₂, hst, hf, hos⟩
  · exact .inl hg
  · obtain ⟨rfl, rfl⟩ := hp.of_run (run_eq_some_iff.mpr ⟨os₁, hst⟩)
    exact .inr ⟨os₁, os₂, hst, hf, hos⟩

/-- An action that cannot fail, before the rest of a call. -/
theorem of_perform_bind {o' : S.Op} {f : S.Ret o' → Prog S β} {r : S.Ret o'} {s₁ : σ}
    (hg : GivesUp h fault t (Prog.perform o' >>= f) s os o x s') (hs : h t o' s = some (r, s₁))
    (hno : ∀ x s', ¬ fault t o' x s s') :
    ∃ os', GivesUp h fault t (f r) s₁ os' o x s' ∧ os = o' :: os' := by
  rw [Prog.perform_bind] at hg
  cases hg with
  | here hf => exact absurd hf (hno _ _)
  | later hs' rest =>
    rw [hs] at hs'
    cases hs'
    exact ⟨_, rest, rfl⟩

/-- A call that gives up at the action its first ones lead to. -/
theorem of_steps {k : S.Ret o → Prog S α} {s₁ : σ} (hst : Steps h t p s os (.act o k) s₁)
    (hf : fault t o x s₁ s') : GivesUp h fault t p s os o x s' := by
  generalize hq : Prog.act o k = q at hst
  induction hst with
  | refl =>
    subst hq
    exact .here hf
  | cons hs _ ih => exact .later hs (ih hf hq)

theorem not_ret {a : α} : ¬ GivesUp h fault t (.ret a) s os o x s' := fun hg => by cases hg

/-- **What outlives a call that gives up**: a prefix of its effects, and the damage. -/
theorem of_performs {pe : Persistence h δ ε} {a : α} {s₁ : σ} {es : List ε}
    (hg : GivesUp h fault t p s os o x s') (hp : Performs pe t p s es a s₁) :
    ∃ es₁ es₂ s₂, es = es₁ ++ (pe.emit o s₂ ++ es₂) ∧ fault t o x s₂ s' ∧
      pe.view s₂ = es₁.foldl pe.apply (pe.view s) := by
  induction hg generalizing es with
  | here hf =>
    cases hp with
    | act hs rest => exact ⟨[], _, _, rfl, hf, rfl⟩
  | @later o _ _ s₀ _ _ _ _ _ hs rest ih =>
    cases hp with
    | act hs' rest' =>
      rw [hs] at hs'
      cases hs'
      obtain ⟨es₁, es₂, s₂, rfl, hf, hv⟩ := ih rest'
      refine ⟨pe.emit o s₀ ++ es₁, es₂, s₂, (List.append_assoc ..).symm, hf, ?_⟩
      rw [hv, pe.view_step hs, List.foldl_append]

end GivesUp

end Machinery
