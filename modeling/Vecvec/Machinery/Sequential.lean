import Vecvec.Machinery.Prog

/-!
# Machinery/Sequential — a call run alone, stopped anywhere

Part of a state may outlive the process: a disk.  Run alone, a call is deterministic, and what it
does to that part is a fixed list of **effects** (`Performs`).  Stopped anywhere, it has done a
prefix of them (`Performs.of_steps`) — so a property of every crash point is a property of every
prefix of a list (`Along`).
-/

namespace Machinery

variable {S : Interface} {σ δ ε α β : Type}

/-! ## Lists of effects -/

section Along

variable (apply : δ → ε → δ)

/-- `D` holds after every prefix of the effects `es`, the empty one and `es` itself included. -/
def Along (D : δ → Prop) : List ε → δ → Prop
  | [], d => D d
  | e :: es, d => D d ∧ Along D es (apply d e)

variable {apply} {D D' : δ → Prop} {es es' : List ε} {d : δ}

@[simp] theorem along_nil : Along apply D [] d ↔ D d := Iff.rfl

@[simp] theorem along_cons {e : ε} :
    Along apply D (e :: es) d ↔ D d ∧ Along apply D es (apply d e) := Iff.rfl

theorem Along.start (h : Along apply D es d) : D d := by
  cases es with
  | nil => exact h
  | cons e es => exact h.1

theorem Along.end (h : Along apply D es d) : D (es.foldl apply d) := by
  induction es generalizing d with
  | nil => exact h
  | cons e es ih => exact ih h.2

theorem Along.mono (h : Along apply D es d) (hD : ∀ d, D d → D' d) : Along apply D' es d := by
  induction es generalizing d with
  | nil => exact hD d h
  | cons e es ih => exact ⟨hD d h.1, ih h.2⟩

/-- One list of effects after another. -/
theorem Along.append (h : Along apply D es d) (h' : Along apply D es' (es.foldl apply d)) :
    Along apply D (es ++ es') d := by
  induction es generalizing d with
  | nil => exact h'
  | cons e es ih => exact ⟨h.1, ih h.2 h'⟩

/-- One more effect. -/
theorem Along.snoc {e : ε} (h : Along apply D es d) (he : D ((es ++ [e]).foldl apply d)) :
    Along apply D (es ++ [e]) d :=
  h.append ⟨h.end, by rwa [List.foldl_append] at he⟩

theorem Along.upto (h : Along apply D es d) (hp : es' <+: es) : D (es'.foldl apply d) := by
  obtain ⟨es'', rfl⟩ := hp
  induction es' generalizing d with
  | nil => exact h.start
  | cons e es' ih => exact ih h.2

/-- `D` holds along the effects as soon as it holds after each prefix. -/
theorem along_of_forall_cut (h : ∀ es', es' <+: es → D (es'.foldl apply d)) :
    Along apply D es d := by
  induction es generalizing d with
  | nil => exact h [] List.prefix_rfl
  | cons e es ih =>
    exact ⟨h [] List.nil_prefix, ih fun es' hp =>
      h (e :: es') (List.cons_prefix_cons.mpr ⟨rfl, hp⟩)⟩

/-- An invariant of each effect of a list holds along it. -/
theorem along_of_invariant (hd : D d) (hstep : ∀ e ∈ es, ∀ d, D d → D (apply d e)) :
    Along apply D es d := by
  induction es generalizing d with
  | nil => exact hd
  | cons e es ih =>
    exact ⟨hd, ih (hstep e List.mem_cons_self d hd) fun e he => hstep e (List.mem_cons_of_mem _ he)⟩

end Along

/-! ## The effects of a call -/

/-- What of a state outlives the process, and the effects by which actions change it. -/
structure Persistence (h : Handler S σ) (δ ε : Type) where
  /-- The part of a state that persists. -/
  view : σ → δ
  /-- The effects of an action. -/
  emit : S.Op → σ → List ε
  /-- What an effect does. -/
  apply : δ → ε → δ
  /-- An action changes the persistent part by its effects, and by nothing else. -/
  view_step : ∀ {t o s r s'}, h t o s = some (r, s') → view s' = (emit o s).foldl apply (view s)

variable {h : Handler S σ} {pe : Persistence h δ ε} {t : ℕ}

/-- `Performs pe t p s es a s'`: run alone from `s`, the call `p` of `t` performs the effects `es`
and returns `a` in the state `s'`. -/
inductive Performs (pe : Persistence h δ ε) (t : ℕ) : Prog S α → σ → List ε → α → σ → Prop
  | ret (a : α) (s : σ) : Performs pe t (.ret a) s [] a s
  | act {o : S.Op} {k : S.Ret o → Prog S α} {s s' s'' : σ} {r : S.Ret o} {es : List ε} {a : α}
      (hs : h t o s = some (r, s')) (rest : Performs pe t (k r) s' es a s'') :
      Performs pe t (.act o k) s (pe.emit o s ++ es) a s''

namespace Performs

variable {p : Prog S α} {s s' s'' : σ} {es es' : List ε} {a : α}

/-- An action without effects, before the rest of a call. -/
theorem perform_silent {o : S.Op} {f : S.Ret o → Prog S α} {r : S.Ret o}
    (hs : h t o s = some (r, s')) (he : pe.emit o s = []) (rest : Performs pe t (f r) s' es a s'') :
    Performs pe t (Prog.perform o >>= f) s es a s'' := by
  rw [Prog.perform_bind]
  have := Performs.act hs rest
  rwa [he] at this

/-- An action with one effect, before the rest of a call. -/
theorem perform_effect {o : S.Op} {f : S.Ret o → Prog S α} {r : S.Ret o} {e : ε}
    (hs : h t o s = some (r, s')) (he : pe.emit o s = [e])
      (rest : Performs pe t (f r) s' es a s'') :
    Performs pe t (Prog.perform o >>= f) s (e :: es) a s'' := by
  rw [Prog.perform_bind]
  have := Performs.act hs rest
  rwa [he] at this

/-- **Sequencing**: the effects of two calls in sequence. -/
theorem bind {f : α → Prog S β} {b : β} (hp : Performs pe t p s es a s')
    (hf : Performs pe t (f a) s' es' b s'') : Performs pe t (p >>= f) s (es ++ es') b s'' := by
  induction hp with
  | ret a s => exact hf
  | act hs _ ih =>
    rw [List.append_assoc]
    exact .act hs (ih hf)

/-- A call without effects, followed by another. -/
theorem bind_silent {f : α → Prog S β} {b : β} (hp : Performs pe t p s [] a s')
    (hf : Performs pe t (f a) s' es b s'') : Performs pe t (p >>= f) s es b s'' :=
  hp.bind hf

/-- A call followed by one without effects. -/
theorem then_silent {f : α → Prog S β} {b : β} (hp : Performs pe t p s es a s')
    (hf : Performs pe t (f a) s' [] b s'') : Performs pe t (p >>= f) s es b s'' := by
  have := hp.bind hf
  rwa [List.append_nil] at this

/-- A call followed by a return. -/
theorem bind_ret {f : α → Prog S β} {b : β} (hp : Performs pe t p s es a s') (hf : f a = .ret b) :
    Performs pe t (p >>= f) s es b s' :=
  hp.then_silent (hf ▸ .ret b s')

/-- The last action of a call, with one effect. -/
theorem last_effect {o : S.Op} {k : S.Ret o → Prog S α} {r : S.Ret o} {e : ε}
    (hs : h t o s = some (r, s')) (he : pe.emit o s = [e]) (hk : k r = .ret a) :
    Performs pe t (.act o k) s [e] a s' := by
  have := Performs.act hs (hk ▸ .ret a s' : Performs pe t (k r) s' [] a s')
  rwa [he] at this

/-- The last action of a call, without effects. -/
theorem last_silent {o : S.Op} {k : S.Ret o → Prog S α} {r : S.Ret o}
    (hs : h t o s = some (r, s')) (he : pe.emit o s = []) (hk : k r = .ret a) :
    Performs pe t (.act o k) s [] a s' := by
  have := Performs.act hs (hk ▸ .ret a s' : Performs pe t (k r) s' [] a s')
  rwa [he] at this

theorem run (hp : Performs pe t p s es a s') : Machinery.run h t p s = some (a, s') := by
  induction hp with
  | ret a s => rfl
  | act hs _ ih => rw [run_act_of_eq hs]; exact ih

/-- A completed call is this one. -/
theorem of_run {b : α} (hp : Performs pe t p s es a s')
    (hr : Machinery.run h t p s = some (b, s'')) : b = a ∧ s'' = s' := by
  rw [hp.run] at hr
  cases hr
  exact ⟨rfl, rfl⟩

/-- **Stopped anywhere, a call has performed a prefix of its effects** — those of the actions it
has performed. -/
theorem of_steps {p' : Prog S α} {s₁ : σ} {os : List S.Op} (hp : Performs pe t p s es a s')
    (hst : Steps h t p s os p' s₁) :
    ∃ es₁ es₂, es = es₁ ++ es₂ ∧ Performs pe t p' s₁ es₂ a s' ∧
      pe.view s₁ = es₁.foldl pe.apply (pe.view s) ∧
      (∀ e ∈ es₁, ∃ o ∈ os, ∃ s, e ∈ pe.emit o s) ∧
      ∀ o ∈ os, ∃ s, ∀ e ∈ pe.emit o s, e ∈ es₁ := by
  induction hst generalizing es with
  | refl => exact ⟨[], es, rfl, hp, rfl, by simp, by simp⟩
  | @cons o k s₀ _ _ _ os _ hs _ ih =>
    cases hp with
    | act hs' rest =>
      rw [hs] at hs'
      cases hs'
      obtain ⟨es₁, es₂, rfl, hp', hv, hes, hos⟩ := ih rest
      refine ⟨pe.emit o s₀ ++ es₁, es₂, (List.append_assoc _ _ _).symm, hp', ?_, ?_, ?_⟩
      · rw [hv, pe.view_step hs, List.foldl_append]
      · intro e he
        rcases List.mem_append.mp he with he | he
        · exact ⟨o, List.mem_cons_self, s₀, he⟩
        · obtain ⟨o', ho', hs'⟩ := hes e he
          exact ⟨o', List.mem_cons_of_mem _ ho', hs'⟩
      · intro o' ho'
        rcases List.mem_cons.mp ho' with rfl | ho'
        · exact ⟨s₀, fun e he => List.mem_append_left _ he⟩
        · obtain ⟨s', hs'⟩ := hos o' ho'
          exact ⟨s', fun e he => List.mem_append_right _ (hs' e he)⟩

/-- **A call can be stopped after any prefix of its effects**, if no action has two. -/
theorem exists_steps (hone : ∀ o s, (pe.emit o s).length ≤ 1)
    (hp : Performs pe t p s es a s') : ∀ es₁ es₂, es = es₁ ++ es₂ →
    ∃ os p' s₁, Steps h t p s os p' s₁ ∧ pe.view s₁ = es₁.foldl pe.apply (pe.view s) := by
  induction hp with
  | ret a s =>
    intro es₁ es₂ hes
    obtain ⟨rfl, -⟩ := List.append_eq_nil_iff.mp hes.symm
    exact ⟨[], .ret a, s, .refl _ _, rfl⟩
  | @act o k s₀ s₁ s₂ r es₂ a hs rest ih =>
    intro es₁ es' hes
    cases es₁ with
    | nil => exact ⟨[], _, s₀, .refl _ _, rfl⟩
    | cons e es₁ =>
      obtain ⟨es₃, hes, he⟩ : ∃ es₃, es₂ = es₃ ++ es' ∧ e :: es₁ = pe.emit o s₀ ++ es₃ := by
        have hlen := hone o s₀
        match hem : pe.emit o s₀ with
        | [] => exact ⟨e :: es₁, by rw [hem] at hes; exact hes, rfl⟩
        | [e'] =>
          rw [hem] at hes
          obtain ⟨rfl, htail⟩ := List.cons_eq_cons.mp hes
          exact ⟨es₁, htail, rfl⟩
        | _ :: _ :: _ => simp [hem] at hlen
      obtain ⟨os, p', s₃, hst, hv⟩ := ih es₃ es' hes
      refine ⟨o :: os, p', s₃, .cons hs hst, ?_⟩
      rw [hv, he, pe.view_step hs, List.foldl_append]

end Performs

/-! ## Shadows -/

section Shadow

variable {γ : Type} (f : γ → ε → γ) {p : Prog S α} {s s' : σ} {es : List ε} {a : α}

/-- The handler, with a **shadow** beside the state that follows the effects. -/
def Persistence.shadowed (pe : Persistence h δ ε) : Handler S (σ × γ) :=
  fun t o s => (h t o s.1).map fun x => (x.1, x.2, (pe.emit o s.1).foldl f s.2)

/-- The shadow persists. -/
def Persistence.shadow (pe : Persistence h δ ε) : Persistence (pe.shadowed f) (δ × γ) ε where
  view s := (pe.view s.1, s.2)
  emit o s := pe.emit o s.1
  apply d e := (pe.apply d.1 e, f d.2 e)
  view_step := by
    intro t o s r s' hs
    obtain ⟨x, hx, hxs⟩ := Option.map_eq_some_iff.mp hs
    cases hxs
    rw [pe.view_step hx]
    generalize pe.view s.1 = d, s.2 = g
    induction pe.emit o s.1 generalizing d g with
    | nil => rfl
    | cons e es ih => exact ih _ _

theorem Persistence.shadowed_eq {o : S.Op} {r : S.Ret o} (hs : h t o s = some (r, s')) (g : γ) :
    pe.shadowed f t o (s, g) = some (r, s', (pe.emit o s).foldl f g) := by
  rw [Persistence.shadowed, hs]
  rfl

theorem Persistence.of_shadowed {o : S.Op} {r : S.Ret o} {g g' : γ}
    (hs : pe.shadowed f t o (s, g) = some (r, s', g')) : h t o s = some (r, s') := by
  obtain ⟨x, hx, hxs⟩ := Option.map_eq_some_iff.mp hs
  cases hxs
  exact hx

/-- **A call goes as if it had no shadow**, -/
theorem Persistence.run_of_shadowed {g g' : γ}
    (hr : run (pe.shadowed f) t p (s, g) = some (a, s', g')) : run h t p s = some (a, s') := by
  induction p generalizing s g with
  | ret b =>
    cases hr
    rfl
  | act o k ih =>
    obtain ⟨⟨r, s₁, g₁⟩, hs, hr⟩ := Option.bind_eq_some_iff.mp hr
    exact Option.bind_eq_some_iff.mpr ⟨(r, s₁), pe.of_shadowed f hs, ih r hr⟩

/-- as far as it goes. -/
theorem Persistence.steps_of_shadowed {p' : Prog S α} {os : List S.Op} {x y : σ × γ}
    (hst : Steps (pe.shadowed f) t p x os p' y) : Steps h t p x.1 os p' y.1 := by
  induction hst with
  | refl => exact .refl _ _
  | cons hs _ ih => exact .cons (pe.of_shadowed f hs) ih

/-- The two halves of a shadowed list of effects. -/
theorem Persistence.foldl_shadow (es : List ε) (d : δ) (g : γ) :
    es.foldl (pe.shadow f).apply (d, g) = (es.foldl pe.apply d, es.foldl f g) := by
  induction es generalizing d g with
  | nil => rfl
  | cons e es ih => exact ih _ _

/-- **The shadow of a call** follows its effects. -/
theorem Performs.shadow (hp : Performs pe t p s es a s') (g : γ) :
    Performs (pe.shadow f) t p (s, g) es a (s', es.foldl f g) := by
  induction hp generalizing g with
  | ret a s => exact .ret _ _
  | @act o _ s _ _ _ _ _ hs _ ih =>
    rw [List.foldl_append]
    exact Performs.act (Persistence.shadowed_eq f hs g) (ih _)

end Shadow

end Machinery
