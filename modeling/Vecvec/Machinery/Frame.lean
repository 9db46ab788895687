import Vecvec.Machinery.RelyGuarantee

/-!
# Machinery/Frame — what a call returns, and what it leaves alone

Two facts about a call that need no account of what it does in between: its actions are all of a
kind that leaves a part of the state alone (`Prog.Only.run_frame`), and whatever it is answered it
returns a value with a property (`Prog.Returns`).
-/

namespace Machinery

variable {S : Interface} {σ α β γ : Type} {h : Handler S σ} {t : ℕ}

/-- A call of two parts, performed: first the one, then the other. -/
theorem run_bind_eq_some_iff {p : Prog S α} {f : α → Prog S β} {s s'' : σ} {b : β} :
    run h t (p >>= f) s = some (b, s'') ↔
      ∃ a s', run h t p s = some (a, s') ∧ run h t (f a) s' = some (b, s'') := by
  rw [run_bind, Option.bind_eq_some_iff]
  exact ⟨fun ⟨x, hx, hf⟩ => ⟨x.1, x.2, hx, hf⟩, fun ⟨a, s', hp, hf⟩ => ⟨(a, s'), hp, hf⟩⟩

namespace Prog

variable {φ : S.Op → Prop}

theorem only_true (p : Prog S α) : p.Only fun _ => True := by
  induction p with
  | ret a => trivial
  | act o k ih => exact ⟨trivial, ih⟩

/-- **The frame rule.**  A call of actions that leave a part of the state alone leaves it alone. -/
theorem Only.run_frame {f : σ → γ}
    (hf : ∀ o s r s', φ o → h t o s = some (r, s') → f s' = f s) {p : Prog S α} (hp : p.Only φ)
    {s s' : σ} {a : α} (hrun : run h t p s = some (a, s')) : f s' = f s := by
  induction p generalizing s with
  | ret b =>
    cases hrun
    rfl
  | act o k ih =>
    obtain ⟨⟨r, s₁⟩, hs, hrun⟩ := Option.bind_eq_some_iff.mp hrun
    exact (ih r (hp.2 r) hrun).trans (hf o s r s₁ hp.1 hs)

/-- Whatever it is answered, the call returns a value with the property. -/
def Returns (Q : α → Prop) : Prog S α → Prop
  | ret a => Q a
  | act _ k => ∀ r, (k r).Returns Q

theorem Returns.bind {Q : α → Prop} {R : β → Prop} {p : Prog S α} {f : α → Prog S β}
    (hp : p.Returns Q) (hf : ∀ a, Q a → (f a).Returns R) : (p >>= f).Returns R := by
  induction p with
  | ret a => exact hf a hp
  | act o k ih => exact fun r => ih r (hp r)

theorem Returns.lift {T : Interface} {Q : α → Prop} {i : S.Op → T.Op}
    {e : ∀ o, T.Ret (i o) → S.Ret o} {p : Prog S α} (hp : p.Returns Q) :
    (p.lift i e).Returns Q := by
  induction p with
  | ret a => exact hp
  | act o k ih => exact fun r => ih (e o r) (hp _)

theorem Returns.of_run {Q : α → Prop} {p : Prog S α} (hp : p.Returns Q) {s s' : σ} {a : α}
    (hrun : run h t p s = some (a, s')) : Q a := by
  induction p generalizing s with
  | ret b =>
    cases hrun
    exact hp
  | act o k ih =>
    obtain ⟨⟨r, s₁⟩, -, hrun⟩ := Option.bind_eq_some_iff.mp hrun
    exact ih r (hp r) hrun

end Prog

end Machinery
