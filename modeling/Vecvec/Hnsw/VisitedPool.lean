import Vecvec.Hnsw.Visited

/-!
# Hnsw/VisitedPool — visited lists, handed out and taken back

Searches check visited lists out of a pool and put them back with whatever stamps they have.  A list
is cleared on its way out, so **a visit tells whether the point was visited since the list was last
cleared or checked out** (`visit_iff_of_proper`): for any number of holders, any order of their
calls, and also where the generation wraps around.
-/

namespace Vecvec.Hnsw

namespace VisitedList

variable {v : VisitedList} {n : ℕ}

/-- Makes room for `n` points (`resize`). -/
def ensureCapacity (v : VisitedList) (n : ℕ) : VisitedList :=
  if v.stamps.length < n then
    { v with
      stamps := v.stamps ++ List.replicate (n - v.stamps.length) 0
      stamped := fun s hs => (List.mem_append.mp hs).elim (v.stamped s) fun h =>
        (List.eq_of_mem_replicate h).trans_le (Nat.zero_le _) }
  else v

theorem le_length_ensureCapacity : n ≤ (v.ensureCapacity n).stamps.length := by
  rw [ensureCapacity]
  split
  · rw [List.length_append, List.length_replicate]
    omega
  · omega

theorem length_new : (new n).stamps.length = n := List.length_replicate

theorem not_marked_new {i : ℕ} : ¬ (new n).Marked i := fun h =>
  absurd (List.eq_of_mem_replicate (List.mem_of_getElem? h)) Nat.one_ne_zero

end VisitedList

/-! ## The pool -/

/-- A pool of visited lists for graphs of `n` points. -/
structure VisitedPool where
  /-- The number of points. -/
  n : ℕ
  /-- The lists to hand out, the last one first. -/
  free : List VisitedList

namespace VisitedPool

/-- A pool with no lists yet. -/
def new (n : ℕ) : VisitedPool := ⟨n, []⟩

/-- Checks out a cleared list, a new one if the pool has none. -/
def get (p : VisitedPool) : VisitedList × VisitedPool :=
  match p.free.getLast? with
  | some list => ((list.ensureCapacity p.n).clear, { p with free := p.free.dropLast })
  | none => (.new p.n, p)

/-- Takes a list back. -/
def put (p : VisitedPool) (list : VisitedList) : VisitedPool := { p with free := p.free ++ [list] }

variable {p : VisitedPool}

@[simp] theorem n_put (list : VisitedList) : (p.put list).n = p.n := rfl

@[simp] theorem n_get : p.get.2.n = p.n := by
  rw [get]
  split <;> rfl

/-- **What is checked out** has room for every point. -/
theorem le_length_get : p.n ≤ p.get.1.stamps.length := by
  rw [get]
  split
  · exact VisitedList.le_length_ensureCapacity.trans_eq VisitedList.length_clear.symm
  · exact VisitedList.length_new.ge

/-- …and no marks, whoever used it before. -/
theorem not_marked_get {i : ℕ} : ¬ p.get.1.Marked i := by
  rw [get]
  split
  exacts [VisitedList.not_marked_clear, VisitedList.not_marked_new]

end VisitedPool

/-! ## Its holders -/

/-- What a holder does: a search, by the number of its thread. -/
inductive VisitedOp
  /-- `pool.get()` -/
  | get (holder : ℕ)
  /-- `pool.put(list)` -/
  | put (holder : ℕ)
  /-- `list.clear()` -/
  | clear (holder : ℕ)
  /-- `list.visit(i)` -/
  | visit (holder i : ℕ)
  deriving DecidableEq

/-- A pool, and the list each holder has checked out. -/
structure VisitedLists where
  pool : VisitedPool
  held : ℕ → Option VisitedList

namespace VisitedLists

/-- One call, and what a visit answers; `none` is a panic, or a call without a list. -/
def step (s : VisitedLists) : VisitedOp → Option (Option Bool × VisitedLists)
  | .get h =>
    some (none, { pool := s.pool.get.2, held := Function.update s.held h (some s.pool.get.1) })
  | .put h => do
    let list ← s.held h
    return (none, { pool := s.pool.put list, held := Function.update s.held h none })
  | .clear h => do
    let list ← s.held h
    return (none, { s with held := Function.update s.held h (some list.clear) })
  | .visit h i => do
    let list ← s.held h
    let (first, list) ← list.visit i
    return (some first, { s with held := Function.update s.held h (some list) })

/-- The calls in the order in which they come, with their answers. -/
def run (s : VisitedLists) : List VisitedOp → Option (List (Option Bool) × VisitedLists)
  | [] => some ([], s)
  | op :: ops => do
    let (answer, s) ← s.step op
    let (answers, s) ← s.run ops
    return (answer :: answers, s)

/-- Nobody has a list yet. -/
def start (p : VisitedPool) : VisitedLists := ⟨p, fun _ => none⟩

end VisitedLists

/-- Calls on lists checked out and not put back, and visits of the points of the graph; `holders`
have a list when the first call comes. -/
def VisitedOp.Proper (n : ℕ) (holders : Finset ℕ) : List VisitedOp → Prop
  | [] => True
  | .get h :: ops => Proper n (insert h holders) ops
  | .put h :: ops => h ∈ holders ∧ Proper n (holders.erase h) ops
  | .clear h :: ops => h ∈ holders ∧ Proper n holders ops
  | .visit h i :: ops => h ∈ holders ∧ i < n ∧ Proper n holders ops

/-- Who calls. -/
def VisitedOp.holder : VisitedOp → ℕ
  | .get h | .put h | .clear h | .visit h _ => h

/-- The calls after which a holder's list has no marks. -/
def VisitedOp.Resets (h : ℕ) (op : VisitedOp) : Prop := op = .get h ∨ op = .clear h

/-- In some calls, the holder visited the point, and reset its list no more. -/
def VisitedSince (h i : ℕ) (ops : List VisitedOp) : Prop :=
  ∃ before after, ops = before ++ .visit h i :: after ∧ ∀ op ∈ after, ¬ op.Resets h

section

variable {h i : ℕ} {ops : List VisitedOp} {op : VisitedOp}

/-- **One more call.** -/
theorem visitedSince_concat :
    VisitedSince h i (ops ++ [op]) ↔ op = .visit h i ∨ ¬ op.Resets h ∧ VisitedSince h i ops := by
  constructor
  · rintro ⟨before, after, heq, hafter⟩
    rcases List.eq_nil_or_concat after with rfl | ⟨after, op', rfl⟩
    · exact .inl (List.singleton_inj.mp (List.append_inj' heq rfl).2)
    · rw [List.concat_eq_append, ← List.cons_append, ← List.append_assoc] at heq
      obtain ⟨rfl, hop⟩ := List.append_inj' heq rfl
      rw [List.concat_eq_append] at hafter
      refine .inr ⟨?_, before, after, rfl, fun o ho => hafter o (List.mem_append_left _ ho)⟩
      rw [List.singleton_inj.mp hop]
      exact hafter op' (List.mem_append_right _ (List.mem_singleton_self op'))
  · rintro (rfl | ⟨hop, before, after, rfl, hafter⟩)
    · exact ⟨ops, [], rfl, fun _ h => absurd h List.not_mem_nil⟩
    · refine ⟨before, after ++ [op], by rw [List.append_assoc, List.cons_append], fun o ho => ?_⟩
      rcases List.mem_append.mp ho with ho | ho
      exacts [hafter o ho, List.mem_singleton.mp ho ▸ hop]

/-- The calls of the others do not matter. -/
theorem visitedSince_concat_of_ne (hop : op.holder ≠ h) :
    VisitedSince h i (ops ++ [op]) ↔ VisitedSince h i ops := by
  have hresets : ¬ op.Resets h := by
    rintro (rfl | rfl) <;> exact hop rfl
  have hvisit : op ≠ .visit h i := by
    rintro rfl
    exact hop rfl
  rw [visitedSince_concat, or_iff_right hvisit, and_iff_right hresets]

theorem not_visitedSince_of_resets (hop : op.Resets h) : ¬ VisitedSince h i (ops ++ [op]) := by
  rw [visitedSince_concat]
  rintro (rfl | ⟨hresets, -⟩)
  · rcases hop with hop | hop <;> cases hop
  · exact hresets hop

theorem visitedSince_visit {j : ℕ} :
    VisitedSince h j (ops ++ [.visit h i]) ↔ j = i ∨ VisitedSince h j ops := by
  have hresets : ¬ (VisitedOp.visit h i).Resets h := by
    rintro (hop | hop) <;> cases hop
  rw [visitedSince_concat, and_iff_right hresets, VisitedOp.visit.injEq, and_iff_right rfl,
    eq_comm]

end

namespace VisitedLists

/-- After the calls `ops`: the holders have lists with a place for every point, and the marks on
them are the points visited since. -/
structure Tracks (n : ℕ) (holders : Finset ℕ) (ops : List VisitedOp) (s : VisitedLists) : Prop where
  pool : s.pool.n = n
  held : ∀ h ∈ holders, ∃ v, s.held h = some v ∧ n ≤ v.stamps.length ∧
    ∀ i, v.Marked i ↔ VisitedSince h i ops

variable {n : ℕ} {holders : Finset ℕ} {ops rest : List VisitedOp} {s : VisitedLists}

namespace Tracks

/-- The caller's list has changed. -/
theorem hold (t : Tracks n holders ops s) (op : VisitedOp) {pool : VisitedPool} {v : VisitedList}
    (hpool : pool.n = n) (hroom : n ≤ v.stamps.length)
    (hmarked : ∀ i, v.Marked i ↔ VisitedSince op.holder i (ops ++ [op])) :
    Tracks n (insert op.holder holders) (ops ++ [op])
      ⟨pool, Function.update s.held op.holder (some v)⟩ := by
  refine ⟨hpool, fun h hh => ?_⟩
  dsimp only
  by_cases heq : h = op.holder
  · subst heq
    exact ⟨v, Function.update_self .., hroom, hmarked⟩
  · obtain ⟨w, hw, hwroom, hwmarked⟩ := t.held h (Finset.mem_of_mem_insert_of_ne hh heq)
    refine ⟨w, (Function.update_of_ne heq ..).trans hw, hwroom, fun i => ?_⟩
    rw [hwmarked, visitedSince_concat_of_ne (Ne.symm heq)]

/-- **One call** does not panic, tells what it should, and keeps the marks right. -/
theorem step (t : Tracks n holders ops s) {op : VisitedOp}
    (hproper : VisitedOp.Proper n holders (op :: rest)) :
    ∃ answer s' holders', s.step op = some (answer, s') ∧
      (∀ h i, op = .visit h i → ∃ b, answer = some b ∧ (b = true ↔ ¬ VisitedSince h i ops)) ∧
      Tracks n holders' (ops ++ [op]) s' ∧ VisitedOp.Proper n holders' rest := by
  cases op with
  | get h =>
    refine ⟨_, _, _, rfl, nofun, ?_, hproper⟩
    refine t.hold (.get h) (VisitedPool.n_get.trans t.pool)
      (t.pool.ge.trans VisitedPool.le_length_get) fun i => ?_
    exact iff_of_false VisitedPool.not_marked_get (not_visitedSince_of_resets (.inl rfl))
  | put h =>
    obtain ⟨hh, hproper⟩ := hproper
    obtain ⟨v, hv, -, -⟩ := t.held h hh
    have hstep : s.step (.put h) =
        some (none, ⟨s.pool.put v, Function.update s.held h none⟩) := by
      rw [VisitedLists.step, hv]
      rfl
    refine ⟨none, _, _, hstep, nofun, ⟨t.pool, fun h' hh' => ?_⟩, hproper⟩
    obtain ⟨hne, hh'⟩ := Finset.mem_erase.mp hh'
    obtain ⟨w, hw, hwroom, hwmarked⟩ := t.held h' hh'
    refine ⟨w, (Function.update_of_ne hne ..).trans hw, hwroom, fun i => ?_⟩
    rw [hwmarked, visitedSince_concat_of_ne (Ne.symm hne)]
  | clear h =>
    obtain ⟨hh, hproper⟩ := hproper
    obtain ⟨v, hv, hroom, -⟩ := t.held h hh
    have hstep : s.step (.clear h) =
        some (none, ⟨s.pool, Function.update s.held h (some v.clear)⟩) := by
      rw [VisitedLists.step, hv]
      rfl
    refine ⟨none, _, _, hstep, nofun, ?_, (Finset.insert_eq_of_mem hh).symm ▸ hproper⟩
    refine t.hold (.clear h) t.pool (hroom.trans_eq VisitedList.length_clear.symm) fun i => ?_
    exact iff_of_false VisitedList.not_marked_clear (not_visitedSince_of_resets (.inr rfl))
  | visit h i =>
    obtain ⟨hh, hi, hproper⟩ := hproper
    obtain ⟨v, hv, hroom, hmarked⟩ := t.held h hh
    obtain ⟨first, v', hvisit, hfirst, hlen, hmarked'⟩ := VisitedList.visit_eq (hi.trans_le hroom)
    have hstep : s.step (.visit h i) =
        some (some first, ⟨s.pool, Function.update s.held h (some v')⟩) := by
      rw [VisitedLists.step, hv, Option.bind_eq_bind, Option.bind_some, hvisit]
      rfl
    refine ⟨some first, _, _, hstep, ?_, ?_, (Finset.insert_eq_of_mem hh).symm ▸ hproper⟩
    · rintro _ _ ⟨⟩
      exact ⟨first, rfl, hfirst.trans (not_congr (hmarked i))⟩
    · refine t.hold (.visit h i) t.pool (hroom.trans_eq hlen.symm) fun j => ?_
      rw [hmarked', hmarked]
      exact visitedSince_visit.symm

/-- **Any calls.** -/
theorem run (t : Tracks n holders ops s) (hproper : VisitedOp.Proper n holders rest) :
    ∃ answers s', s.run rest = some (answers, s') ∧ answers.length = rest.length ∧
      ∀ before h i after, rest = before ++ .visit h i :: after →
        ∃ b, answers[before.length]? = some (some b) ∧
          (b = true ↔ ¬ VisitedSince h i (ops ++ before)) := by
  induction rest generalizing ops holders s with
  | nil =>
    refine ⟨[], s, rfl, rfl, fun before h i after heq => ?_⟩
    cases before <;> cases heq
  | cons op rest ih =>
    obtain ⟨answer, s₁, holders₁, hstep, hanswer, h₁, hproper₁⟩ := t.step hproper
    obtain ⟨answers, s₂, hrun, hlen, hanswers⟩ := ih h₁ hproper₁
    refine ⟨answer :: answers, s₂, ?_, congrArg (· + 1) hlen, fun before h i after heq => ?_⟩
    · rw [VisitedLists.run, hstep]
      exact congrArg (Option.bind · _) hrun
    · rcases before with _ | ⟨op', before⟩
      · obtain ⟨rfl, rfl⟩ := List.cons.inj heq
        obtain ⟨b, rfl, hb⟩ := hanswer h i rfl
        exact ⟨b, rfl, by rwa [List.append_nil]⟩
      · obtain ⟨rfl, hrest⟩ := List.cons.inj heq
        obtain ⟨b, hget, hb⟩ := hanswers before h i after hrest
        exact ⟨b, hget, by rwa [List.append_assoc] at hb⟩

end Tracks

theorem tracks_start (p : VisitedPool) : Tracks p.n ∅ [] (start p) :=
  ⟨rfl, fun _ hh => absurd hh (Finset.notMem_empty _)⟩

/-- **A visited list is a set**: whatever a pool holds, calls on lists that are checked out do not
panic, and every visit tells whether its holder has visited the point since it last cleared its list
or checked it out. -/
theorem visit_iff_of_proper (p : VisitedPool) (ops : List VisitedOp)
    (hproper : VisitedOp.Proper p.n ∅ ops) :
    ∃ answers s, (start p).run ops = some (answers, s) ∧ answers.length = ops.length ∧
      ∀ before h i after, ops = before ++ .visit h i :: after →
        ∃ b, answers[before.length]? = some (some b) ∧ (b = true ↔ ¬ VisitedSince h i before) :=
  (tracks_start p).run hproper

/-- A list of the last generation before the counter wraps around, and room for one point only. -/
def lastGeneration : VisitedList where
  generation := 2 ^ 32 - 1
  stamps := [1]
  generation_pos := by decide
  generation_lt := by decide
  stamped := by decide

/-- It is checked out by a first holder, and a new list by a second one. -/
def wrapAround : List VisitedOp :=
  [.get 0, .visit 0 0, .get 1, .visit 0 0, .visit 1 0, .put 0, .get 0, .visit 0 0, .visit 0 1]

theorem visit_iff_wrapAround : VisitedOp.Proper 2 ∅ wrapAround ∧
    ∃ answers s, (start ⟨2, [lastGeneration]⟩).run wrapAround = some (answers, s) ∧
      answers[1]? = some (some true) := by
  have hproper : VisitedOp.Proper 2 ∅ wrapAround := by
    simp [wrapAround, VisitedOp.Proper]
  obtain ⟨answers, s, hrun, -, hvisit⟩ :=
    visit_iff_of_proper ⟨2, [lastGeneration]⟩ wrapAround hproper
  obtain ⟨b, hb, hiff⟩ := hvisit [.get 0] 0 0 _ rfl
  refine ⟨hproper, answers, s, hrun, hb.trans (congrArg (some ∘ some) (hiff.mpr ?_))⟩
  rw [← List.nil_append [VisitedOp.get 0]]
  exact not_visitedSince_of_resets (.inl rfl)

end VisitedLists

end Vecvec.Hnsw
