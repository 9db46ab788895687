import Vecvec.Machinery.Prog

/-!
# Machinery/Ghost — notes kept beside the state

A condition on an interleaving may have to speak of what calls in progress have seen.  A **note** is
a value kept beside the shared state, written by the actions and read by none of them: a noted
interleaving is an interleaving.
-/

namespace Machinery

variable {S : Interface} {σ γ ρ : Type} {h : Handler S σ}
  {note : ℕ → (o : S.Op) → S.Ret o → γ → γ} {allow : ℕ → S.Op → σ × γ → Prop}

/-- The handler, with a note beside the state; `note t o r` is what caller `t` writes when its
action `o` is answered `r`. -/
def Handler.noting (h : Handler S σ) (note : ℕ → (o : S.Op) → S.Ret o → γ → γ) :
    Handler S (σ × γ) :=
  fun t o s => (h t o s.1).map fun x => (x.1, x.2, note t o x.1 s.2)

theorem Handler.of_noting {t : ℕ} {o : S.Op} {s s' : σ} {g g' : γ} {r : S.Ret o}
    (hs : h.noting note t o (s, g) = some (r, s', g')) :
    h t o s = some (r, s') ∧ g' = note t o r g := by
  obtain ⟨x, hx, hxs⟩ := Option.map_eq_some_iff.mp hs
  cases hxs
  exact ⟨hx, rfl⟩

namespace Config

/-- The pool without its note. -/
def forget (c : Config S (σ × γ) ρ) : Config S σ ρ := ⟨c.shared.1, c.pool⟩

/-- **A noted interleaving is an interleaving.** -/
theorem Steps.forget {c c' : Config S (σ × γ) ρ} (hst : Steps (h.noting note) allow c c') :
    Steps h anyOrder c.forget c'.forget := by
  induction hst with
  | refl => exact .refl
  | tail _ hs ih =>
    obtain ⟨hp, -, hs⟩ := hs
    exact ih.tail (.mk hp trivial (Handler.of_noting hs).1)

end Config

end Machinery
