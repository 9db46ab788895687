import Vecvec.Machinery.Prog

/-!
# Machinery/RelyGuarantee — calls that interleave

Each call `t` of a pool proves its part against a **rely** `R t`: whatever the other calls do to the
shared state between two of its actions.  In return each of its actions keeps the shared invariant
and stays within what every other call relies on.  If every call of a pool does so (`Safe`), then
the invariant and every call's own conclusion hold in each state of every interleaving
(`Config.safe_of_steps`).

The rules (`Triple`) are Hoare's, with one more duty: an assertion held between two actions has to
survive the rely (`Stable`).
-/

namespace Machinery

variable {S : Interface} {σ α β ρ : Type}

/-- Every action the call may perform has the property, whatever it is answered. -/
def Prog.Only (φ : S.Op → Prop) : Prog S α → Prop
  | .ret _ => True
  | .act o k => φ o ∧ ∀ r, (k r).Only φ

theorem Prog.Only.mono {φ ψ : S.Op → Prop} (h : ∀ o, φ o → ψ o) {p : Prog S α} (hp : p.Only φ) :
    p.Only ψ := by
  induction p with
  | ret a => trivial
  | act o k ih => exact ⟨h o hp.1, fun r => ih r (hp.2 r)⟩

theorem Prog.Only.bind {φ : S.Op → Prop} {p : Prog S α} {f : α → Prog S β} (hp : p.Only φ)
    (hf : ∀ a, (f a).Only φ) : (p >>= f).Only φ := by
  induction p with
  | ret a => exact hf a
  | act o k ih => exact ⟨hp.1, fun r => ih r (hp.2 r)⟩

/-- A call performed inside a larger component. -/
theorem Prog.Only.lift {T : Interface} {φ : S.Op → Prop} {ψ : T.Op → Prop} {i : S.Op → T.Op}
    {e : ∀ o, T.Ret (i o) → S.Ret o} (h : ∀ o, φ o → ψ (i o)) {p : Prog S α} (hp : p.Only φ) :
    (p.lift i e).Only ψ := by
  induction p with
  | ret a => trivial
  | act o k ih => exact ⟨h o hp.1, fun r => ih (e o r) (hp.2 _)⟩

/-- The actions a call has performed. -/
theorem Prog.Only.of_steps {φ : S.Op → Prop} {h : Handler S σ} {t : ℕ} {p p' : Prog S α} {s s' : σ}
    {os : List S.Op} (hp : p.Only φ) (hst : Steps h t p s os p' s') : ∀ o ∈ os, φ o := by
  induction hst with
  | refl => exact fun _ h => absurd h List.not_mem_nil
  | cons _ _ ih => exact List.forall_mem_cons.mpr ⟨hp.1, ih (hp.2 _)⟩

section Rules

variable (h : Handler S σ) (allow : ℕ → S.Op → σ → Prop) (I : σ → Prop) (R : ℕ → σ → σ → Prop)

/-- The call keeps the invariant and every other call's rely, and returns with `Q`, whatever the
others do within `R t`. -/
def Safe (t : ℕ) (Q : α → σ → Prop) : Prog S α → σ → Prop
  | .ret a, s => ∀ s', R t s s' → I s' → Q a s'
  | .act o k, s => ∀ s₁, R t s s₁ → I s₁ → allow t o s₁ → ∀ r s₂, h t o s₁ = some (r, s₂) →
      I s₂ ∧ (∀ u, u ≠ t → R u s₁ s₂) ∧ Safe t Q (k r) s₂

/-- An assertion no other call can falsify. -/
def Stable (t : ℕ) (P : σ → Prop) : Prop :=
  ∀ s s', I s → P s → R t s s' → I s' → P s'

/-- From any state with the invariant and `P`, the call is safe and ends with `Q`. -/
def Triple (t : ℕ) (P : σ → Prop) (p : Prog S α) (Q : α → σ → Prop) : Prop :=
  ∀ s, I s → P s → Safe h allow I R t Q p s

/-- What one action of `t` owes: the invariant, the others' relies, and its own result. -/
def Owes (t : ℕ) (P : σ → Prop) (o : S.Op) (Q : S.Ret o → σ → Prop) : Prop :=
  ∀ s r s', I s → P s → allow t o s → h t o s = some (r, s') →
    I s' ∧ (∀ u, u ≠ t → R u s s') ∧ Q r s'

variable {h allow I R} {t : ℕ} {P P' : σ → Prop} {Q : α → σ → Prop}

namespace Triple

theorem ret {a : α} (hP : Stable I R t P) (hQ : ∀ s, I s → P s → Q a s) :
    Triple h allow I R t P (.ret a) Q :=
  fun s hI hs s' hr hI' => hQ s' hI' (hP s s' hI hs hr hI')

/-- **One action**, between a stable assertion and the assertions its answers lead to. -/
theorem act {o : S.Op} {k : S.Ret o → Prog S α} {M : S.Ret o → σ → Prop}
    (hP : Stable I R t P) (ho : Owes h allow I R t P o M)
    (hk : ∀ r, Triple h allow I R t (M r) (k r) Q) :
    Triple h allow I R t P (.act o k) Q := by
  intro s hI hs s₁ hr hI₁ ha r s₂ hst
  obtain ⟨hI₂, hg, hm⟩ := ho s₁ r s₂ hI₁ (hP s s₁ hI hs hr hI₁) ha hst
  exact ⟨hI₂, hg, hk r s₂ hI₂ hm⟩

theorem conseq {p : Prog S α} {Q' : α → σ → Prop} (hp : Triple h allow I R t P p Q)
    (hP : ∀ s, I s → P' s → P s) (hQ : ∀ a s, I s → Q a s → Q' a s) :
    Triple h allow I R t P' p Q' := by
  intro s hI hs
  have := hp s hI (hP s hI hs)
  clear hp hP hs
  induction p generalizing s with
  | ret a => exact fun s' hr hI' => hQ a s' hI' (this s' hr hI')
  | act o k ih =>
    intro s₁ hr hI₁ ha r s₂ hst
    obtain ⟨hI₂, hg, hk⟩ := this s₁ hr hI₁ ha r s₂ hst
    exact ⟨hI₂, hg, ih r s₂ hI₂ hk⟩

/-- **Sequencing.** -/
theorem bind (hrefl : ∀ s, R t s s) {p : Prog S α} {f : α → Prog S β} {Q' : β → σ → Prop}
    (hp : Triple h allow I R t P p Q) (hf : ∀ a, Triple h allow I R t (Q a) (f a) Q') :
    Triple h allow I R t P (p >>= f) Q' := by
  intro s hI hs
  have := hp s hI hs
  clear hp hs
  induction p generalizing s with
  | ret a => exact hf a s hI (this s (hrefl s) hI)
  | act o k ih =>
    intro s₁ hr hI₁ ha r s₂ hst
    obtain ⟨hI₂, hg, hk⟩ := this s₁ hr hI₁ ha r s₂ hst
    exact ⟨hI₂, hg, ih r s₂ hI₂ hk⟩

/-- **A call none of whose actions does harm** needs to know nothing. -/
theorem only {φ : S.Op → Prop} {p : Prog S α} (hp : p.Only φ)
    (ho : ∀ o, φ o → Owes h allow I R t (fun _ => True) o fun _ _ => True) :
    Triple h allow I R t (fun _ => True) p fun _ _ => True := by
  induction p with
  | ret a => exact ret (fun _ _ _ _ _ _ => trivial) fun _ _ _ => trivial
  | act o k ih => exact act (fun _ _ _ _ _ _ => trivial) (ho o hp.1) fun r => ih r (hp.2 r)

/-- **The frame**: an assertion that nobody's steps falsify is kept by a call. -/
theorem frame {C : σ → Prop} (hC : ∀ u, Stable I R u C) {p : Prog S α}
    (hp : Triple h allow I R t P p Q) :
    Triple h allow I R t (fun s => P s ∧ C s) p fun a s => Q a s ∧ C s := by
  intro s hI ⟨hs, hc⟩
  have := hp s hI hs
  clear hp hs
  induction p generalizing s with
  | ret a => exact fun s' hr hI' => ⟨this s' hr hI', hC t s s' hI hc hr hI'⟩
  | act o k ih =>
    intro s₁ hr hI₁ ha r s₂ hst
    obtain ⟨hI₂, hg, hk⟩ := this s₁ hr hI₁ ha r s₂ hst
    exact ⟨hI₂, hg, ih r s₂ hI₂
      (hC (t + 1) s₁ s₂ hI₁ (hC t s s₁ hI hc hr hI₁) (hg _ (Nat.succ_ne_self t)) hI₂) hk⟩

/-- A case split on what is known when the call starts. -/
theorem of_forall {ι : Type} {P : ι → σ → Prop} {p : Prog S α}
    (hp : ∀ i, Triple h allow I R t (P i) p Q) :
    Triple h allow I R t (fun s => ∃ i, P i s) p Q :=
  fun s hI ⟨i, hi⟩ => hp i s hI hi

/-- A fact about no state at all may be kept aside. -/
theorem of_pure {φ : Prop} {p : Prog S α} (hp : φ → Triple h allow I R t P p Q) :
    Triple h allow I R t (fun s => φ ∧ P s) p Q :=
  fun s hI ⟨hφ, hs⟩ => hp hφ s hI hs

end Triple

/-- Safety survives whatever the call relies on. -/
theorem Safe.rely (htrans : ∀ s s' s'', R t s s' → R t s' s'' → R t s s'') {p : Prog S α}
    {s s' : σ} (hp : Safe h allow I R t Q p s) (hr : R t s s') :
    Safe h allow I R t Q p s' := by
  cases p with
  | ret a => exact fun s'' hr' hI => hp s'' (htrans _ _ _ hr hr') hI
  | act o k => exact fun s₁ hr' => hp s₁ (htrans _ _ _ hr hr')

theorem Safe.ret_holds (hrefl : ∀ s, R t s s) {a : α} {s : σ}
    (hp : Safe h allow I R t Q (.ret a) s) (hI : I s) : Q a s := hp s (hrefl s) hI

/-- **A safe call by itself**: at its end the invariant and its conclusion hold, and it has done
nothing the others do not expect. -/
theorem Safe.of_steps (hrefl : ∀ t s, R t s s)
    (htrans : ∀ t s s' s'', R t s s' → R t s' s'' → R t s s'') {p : Prog S α} {s s' : σ}
    {os : List S.Op} {a : α} (hallow : ∀ o s, allow t o s) (hp : Safe h allow I R t Q p s)
    (hI : I s) (hst : Steps h t p s os (.ret a) s') :
    I s' ∧ Q a s' ∧ ∀ u, u ≠ t → R u s s' := by
  generalize hq : (Prog.ret a : Prog S α) = q at hst
  induction hst with
  | refl p s =>
    subst hq
    exact ⟨hI, hp.ret_holds (hrefl t) hI, fun u _ => hrefl u s⟩
  | cons hs _ ih =>
    obtain ⟨hI', hg, hk⟩ := hp _ (hrefl t _) hI (hallow _ _) _ _ hs
    obtain ⟨hI'', hQ, hrest⟩ := ih hk hI' hq
    exact ⟨hI'', hQ, fun u hu => htrans u _ _ _ (hg u hu) (hrest u hu)⟩

end Rules

namespace Config

variable {h : Handler S σ} {allow : ℕ → S.Op → σ → Prop} {I : σ → Prop} {R : ℕ → σ → σ → Prop}
  {Q : ℕ → ρ → σ → Prop}

/-- A pool in a safe state: the invariant holds and every call keeps its part. -/
structure Safe (h : Handler S σ) (allow : ℕ → S.Op → σ → Prop) (I : σ → Prop)
    (R : ℕ → σ → σ → Prop) (Q : ℕ → ρ → σ → Prop) (c : Config S σ ρ) : Prop where
  /-- The shared invariant. -/
  inv : I c.shared
  /-- Every call is safe. -/
  calls : ∀ t, Machinery.Safe h allow I R t (Q t) (c.pool t) c.shared

theorem Safe.step (hrefl : ∀ t s, R t s s)
    (htrans : ∀ t s s' s'', R t s s' → R t s' s'' → R t s s'') {c c' : Config S σ ρ}
    (hc : Safe h allow I R Q c) (hst : Step h allow c c') : Safe h allow I R Q c' := by
  obtain ⟨hp, ha, hs⟩ := hst
  rename_i t o k r s'
  have ht := hc.calls t
  rw [hp] at ht
  obtain ⟨hI, hg, hk⟩ := ht c.shared (hrefl t _) hc.inv ha r s' hs
  refine ⟨hI, fun u => ?_⟩
  change Machinery.Safe h allow I R u (Q u) (Function.update c.pool t (k r) u) s'
  by_cases hu : u = t
  · subst hu
    rw [Function.update_self]
    exact hk
  · rw [Function.update_of_ne hu]
    exact (hc.calls u).rely (htrans u) (hg u hu)

/-- **The soundness of rely–guarantee**: a safe pool stays safe under every interleaving. -/
theorem safe_of_steps (hrefl : ∀ t s, R t s s)
    (htrans : ∀ t s s' s'', R t s s' → R t s' s'' → R t s s'') {c c' : Config S σ ρ}
    (hc : Safe h allow I R Q c) (hst : Steps h allow c c') : Safe h allow I R Q c' := by
  induction hst with
  | refl => exact hc
  | tail _ hs ih => exact ih.step hrefl htrans hs

/-- **What every action of a kind keeps** holds in every interleaving of calls of such actions. -/
theorem invariant_of_only {φ : S.Op → Prop} {J : σ → Prop} {c c' : Config S σ ρ}
    (hkeep : ∀ t o s r s', φ o → J s → h t o s = some (r, s') → J s')
    (hc : ∀ t, (c.pool t).Only φ) (hJ : J c.shared) (hst : Steps h allow c c') : J c'.shared := by
  have hsafe : Safe h allow J (fun _ _ _ => True) (fun _ _ _ => True) c :=
    ⟨hJ, fun t => Triple.only (hc t) (fun o ho s r s' hI _ _ hs =>
      ⟨hkeep t o s r s' ho hI hs, fun _ _ => trivial, trivial⟩) _ hJ trivial⟩
  exact (safe_of_steps (fun _ _ => trivial) (fun _ _ _ _ _ _ => trivial) hsafe hst).inv

/-- What a call that has returned guarantees, now and later. -/
theorem Safe.returned (hrefl : ∀ t s, R t s s) {c : Config S σ ρ} (hc : Safe h allow I R Q c)
    {t : ℕ} {a : ρ} (ha : c.pool t = .ret a) : Q t a c.shared := by
  have ht := hc.calls t
  rw [ha] at ht
  exact ht.ret_holds (hrefl t) hc.inv

end Config

end Machinery
