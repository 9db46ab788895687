import Mathlib.Data.Fintype.Basic
import Mathlib.Data.Set.Basic
import Mathlib.Logic.Function.Basic
import Mathlib.Logic.Relation

/-!
# Machinery/Locks — calls that wait for locks

A call holds locks in nested sections; the tree of its sections is its **locking**, whatever else it
does.  A lock is held by one writer or by any number of readers, and a mutex is a lock that is only
written.  A **fair** lock turns new readers away as soon as a writer waits for it: a writer first
shuts the lock and then waits for the readers inside to leave.

Calls that wait for each other in a circle wait forever (`Deadlocked.step`).  **No circle comes
about if the calls respect an order** (`Order`, `Sorted.not_deadlocked`): what is wanted in a
section is above what is held there, and what is held is no lower than what is wanted by those it
keeps waiting.  Readers and writers of one lock may be at different places of the order, as far as
they do not keep each other waiting; that of readers does not matter where nobody writes.
-/

namespace Machinery

/-- How a lock is held. -/
inductive Mode
  | read
  | write
  deriving DecidableEq

/-- The sections of a call. -/
inductive Locking (L : Type)
  /-- Takes no lock. -/
  | skip
  /-- A section under a lock. -/
  | hold (m : Mode) (l : L) (p : Locking L)
  /-- One after the other. -/
  | seq (p q : Locking L)
  /-- The one or the other. -/
  | alt (p q : Locking L)
  /-- Any number of times. -/
  | loop (p : Locking L)
  deriving DecidableEq

/-- What a call has on its stack. -/
inductive Frame (L : Type)
  /-- Sections still to come. -/
  | run (p : Locking L)
  /-- A writer's wait for the readers inside. -/
  | drain (l : L)
  /-- The end of a section. -/
  | release (m : Mode) (l : L)
  deriving DecidableEq

/-- Calls in progress, each on its own thread: their stacks. -/
abbrev Stacks (T L : Type) := T → List (Frame L)

variable {T L : Type} {fair : Bool} {c c' : Stacks T L} {t u : T} {l : L}

/-- A turn of a call: what its uppermost frame gives way to. -/
inductive Turn (fair : Bool) (c : Stacks T L) : Frame L → List (Frame L) → Prop
  | skip : Turn fair c (.run .skip) []
  | seq (p q : Locking L) : Turn fair c (.run (.seq p q)) [.run p, .run q]
  | left (p q : Locking L) : Turn fair c (.run (.alt p q)) [.run p]
  | right (p q : Locking L) : Turn fair c (.run (.alt p q)) [.run q]
  | stop (p : Locking L) : Turn fair c (.run (.loop p)) []
  | again (p : Locking L) : Turn fair c (.run (.loop p)) [.run p, .run (.loop p)]
  /-- A reader enters if no writer is inside, nor waiting if the lock is fair. -/
  | read (l : L) (p : Locking L) (h : ∀ u, .release .write l ∉ c u) :
      Turn fair c (.run (.hold .read l p)) [.run p, .release .read l]
  /-- A writer shuts a fair lock. -/
  | shut (l : L) (p : Locking L) (hfair : fair = true) (h : ∀ u, .release .write l ∉ c u) :
      Turn fair c (.run (.hold .write l p)) [.drain l, .run p, .release .write l]
  /-- The last reader has left. -/
  | drained (l : L) (h : ∀ u, .release .read l ∉ c u) : Turn fair c (.drain l) []
  /-- A writer enters an unfair lock once nobody is inside. -/
  | enter (l : L) (p : Locking L) (hfair : fair = false) (h : ∀ u m, .release m l ∉ c u) :
      Turn fair c (.run (.hold .write l p)) [.run p, .release .write l]
  | release (m : Mode) (l : L) : Turn fair c (.release m l) []

/-- One of the calls takes a turn. -/
inductive Stacks.Step [DecidableEq T] (fair : Bool) (c : Stacks T L) : Stacks T L → Prop
  | mk {t : T} {f : Frame L} {fs k : List (Frame L)} (ht : c t = f :: k)
      (hturn : Turn fair c f fs) :
      Stacks.Step fair c (Function.update c t (fs ++ k))

/-- Any interleaving of the calls. -/
abbrev Stacks.Steps [DecidableEq T] (fair : Bool) : Stacks T L → Stacks T L → Prop :=
  Relation.ReflTransGen (Stacks.Step fair)

/-- The call `t` waits for `u` to leave a section. -/
inductive Waits (fair : Bool) (c : Stacks T L) (t u : T) : Prop
  | read (l : L) (p : Locking L) (k : List (Frame L)) (ht : c t = .run (.hold .read l p) :: k)
      (hu : .release .write l ∈ c u)
  | write (m : Mode) (l : L) (p : Locking L) (k : List (Frame L))
      (ht : c t = .run (.hold .write l p) :: k) (hm : m = .write ∨ fair = false)
      (hu : .release m l ∈ c u)
  | drain (l : L) (k : List (Frame L)) (ht : c t = .drain l :: k) (hu : .release .read l ∈ c u)

/-- **Some calls wait for each other in a circle.** -/
structure Deadlocked (fair : Bool) (c : Stacks T L) (D : Set T) : Prop where
  nonempty : D.Nonempty
  waits : ∀ t ∈ D, ∃ u ∈ D, Waits fair c t u

/-- A call that waits takes no turn. -/
theorem Waits.not_turn {f : Frame L} {fs k : List (Frame L)} (hw : Waits fair c t u)
    (ht : c t = f :: k) : ¬ Turn fair c f fs := by
  intro hturn
  cases hw with
  | read l p k' ht' hu =>
    obtain ⟨rfl, rfl⟩ := List.cons.inj (ht.symm.trans ht')
    cases hturn with
    | read _ _ h => exact h u hu
  | write m l p k' ht' hm hu =>
    obtain ⟨rfl, rfl⟩ := List.cons.inj (ht.symm.trans ht')
    cases hturn with
    | shut _ _ hfair h =>
      obtain rfl := hm.resolve_right fun hunfair => absurd (hfair.symm.trans hunfair) (by decide)
      exact h u hu
    | enter _ _ _ h => exact h u m hu
  | drain l k' ht' hu =>
    obtain ⟨rfl, rfl⟩ := List.cons.inj (ht.symm.trans ht')
    cases hturn with
    | drained _ h => exact h u hu

/-- **Calls that wait in a circle wait forever.** -/
theorem Deadlocked.step [DecidableEq T] {D : Set T} (hd : Deadlocked fair c D)
    (hstep : c.Step fair c') : Deadlocked fair c' D ∧ ∀ t ∈ D, c' t = c t := by
  obtain ⟨ht, hturn⟩ := hstep
  rename_i t f fs k
  have hout : t ∉ D := fun hmem => by
    obtain ⟨u, -, hw⟩ := hd.waits t hmem
    exact hw.not_turn ht hturn
  have hsame : ∀ u ∈ D, Function.update c t (fs ++ k) u = c u := fun u hu =>
    Function.update_of_ne (fun h : u = t => hout (h ▸ hu)) ..
  refine ⟨⟨hd.nonempty, fun u hu => ?_⟩, hsame⟩
  obtain ⟨v, hv, hw⟩ := hd.waits u hu
  refine ⟨v, hv, ?_⟩
  cases hw with
  | read l p k' hu' hv' => exact .read l p k' ((hsame u hu).trans hu') (by rwa [hsame v hv])
  | write m l p k' hu' hm hv' =>
    exact .write m l p k' ((hsame u hu).trans hu') hm (by rwa [hsame v hv])
  | drain l k' hu' hv' => exact .drain l k' ((hsame u hu).trans hu') (by rwa [hsame v hv])

/-- A call that takes no turn waits for another. -/
theorem exists_waits {f : Frame L} {k : List (Frame L)} (ht : c t = f :: k)
    (hstuck : ∀ fs, ¬ Turn fair c f fs) : ∃ u, Waits fair c t u := by
  by_contra hnone
  have hnone (u : T) : ¬ Waits fair c t u := fun h => hnone ⟨u, h⟩
  cases f with
  | release m l => exact hstuck _ (.release m l)
  | drain l => exact hstuck _ (.drained l fun u hu => hnone u (.drain l k ht hu))
  | run p =>
    cases p with
    | skip => exact hstuck _ .skip
    | seq p q => exact hstuck _ (.seq p q)
    | alt p q => exact hstuck _ (.left p q)
    | loop p => exact hstuck _ (.stop p)
    | hold m l p =>
      cases m with
      | read => exact hstuck _ (.read l p fun u hu => hnone u (.read l p k ht hu))
      | write =>
        cases fair with
        | true =>
          exact hstuck _ (.shut l p rfl fun u hu => hnone u (.write .write l p k ht (.inl rfl) hu))
        | false =>
          exact hstuck _ (.enter l p rfl fun u m hu => hnone u (.write m l p k ht (.inr rfl) hu))

/-- **If no call takes a turn**, those that are not over wait in a circle. -/
theorem deadlocked_of_stuck [DecidableEq T] (hstuck : ∀ c', ¬ c.Step fair c') (ht : c t ≠ []) :
    Deadlocked fair c {t | c t ≠ []} := by
  refine ⟨⟨t, ht⟩, fun u hu => ?_⟩
  obtain ⟨f, k, hf⟩ := List.exists_cons_of_ne_nil hu
  have hwaits : ∃ v, Waits fair c u v := exists_waits hf fun fs hturn => hstuck _ (.mk hf hturn)
  obtain ⟨v, hw⟩ := hwaits
  refine ⟨v, fun hv => ?_, hw⟩
  cases hw with
  | read _ _ _ _ hmem => exact List.not_mem_nil (hv ▸ hmem)
  | write _ _ _ _ _ _ hmem => exact List.not_mem_nil (hv ▸ hmem)
  | drain _ _ _ hmem => exact List.not_mem_nil (hv ▸ hmem)

/-! ## Replaying -/

section Replay

variable [DecidableEq L] [Fintype T]

/-- A turn, computed: `go` chooses the one of two, or once more. -/
def turnOf (fair : Bool) (c : Stacks T L) (go : Bool) : Frame L → Option (List (Frame L))
  | .run .skip => some []
  | .run (.seq p q) => some [.run p, .run q]
  | .run (.alt p q) => some [.run (if go then p else q)]
  | .run (.loop p) => some (if go then [.run p, .run (.loop p)] else [])
  | .run (.hold .read l p) =>
    if ∀ u, .release .write l ∉ c u then some [.run p, .release .read l] else none
  | .run (.hold .write l p) =>
    if fair = true ∧ ∀ u, .release .write l ∉ c u then
      some [.drain l, .run p, .release .write l]
    else if fair = false ∧ (∀ u, .release .write l ∉ c u) ∧ ∀ u, .release .read l ∉ c u then
      some [.run p, .release .write l]
    else none
  | .drain l => if ∀ u, .release .read l ∉ c u then some [] else none
  | .release _ _ => some []

theorem turn_of_turnOf {go : Bool} {f : Frame L} {fs : List (Frame L)}
    (h : turnOf fair c go f = some fs) : Turn fair c f fs := by
  cases f with
  | release m l => cases h; exact .release m l
  | drain l =>
    rw [turnOf] at h
    split at h
    · cases h
      exact .drained l ‹_›
    · cases h
  | run p =>
    cases p with
    | skip => cases h; exact .skip
    | seq p q => cases h; exact .seq p q
    | alt p q =>
      cases h
      cases go with
      | true => exact .left p q
      | false => exact .right p q
    | loop p =>
      cases h
      cases go with
      | true => exact .again p
      | false => exact .stop p
    | hold m l p =>
      cases m with
      | read =>
        rw [turnOf] at h
        split at h
        · cases h
          exact .read l p ‹_›
        · cases h
      | write =>
        rw [turnOf] at h
        split at h
        · rename_i hshut
          cases h
          exact .shut l p hshut.1 hshut.2
        · split at h
          · rename_i henter
            cases h
            refine .enter l p henter.1 fun u m => ?_
            cases m with
            | read => exact henter.2.2 u
            | write => exact henter.2.1 u
          · cases h

/-- Replays a schedule: the calls in the order of their turns. -/
def Stacks.replay [DecidableEq T] (fair : Bool) : List (T × Bool) → Stacks T L → Option (Stacks T L)
  | [], c => some c
  | (t, go) :: ts, c =>
    match c t with
    | [] => none
    | f :: k => (turnOf fair c go f).bind fun fs => replay fair ts (Function.update c t (fs ++ k))

/-- **A replayed schedule is an interleaving.** -/
theorem Stacks.steps_of_replay [DecidableEq T] {ts : List (T × Bool)}
    (h : c.replay fair ts = some c') :
    Stacks.Steps fair c c' := by
  induction ts generalizing c with
  | nil => cases h; exact .refl
  | cons x ts ih =>
    obtain ⟨t, go⟩ := x
    rw [replay] at h
    split at h
    · cases h
    · obtain ⟨fs, hturn, hrest⟩ := Option.bind_eq_some_iff.mp h
      exact .head (.mk ‹_› (turn_of_turnOf hturn)) (ih hrest)

end Replay

/-! ## Orders -/

/-- **An order of locks**, for readers and for writers. -/
structure Order (L : Type) (fair : Bool) where
  /-- Whether anybody writes. -/
  written : L → Bool
  /-- Where a lock is to one who wants it. -/
  want : Mode → L → ℕ
  /-- Where a lock is to one who holds it. -/
  held : Mode → L → ℕ
  /-- How far the order goes. -/
  top : ℕ
  want_le_top : ∀ m l, want m l ≤ top
  read_le : ∀ l, written l = true → want .read l ≤ held .write l
  write_le : ∀ m l, written l = true → want .write l ≤ held m l
  fair_le : fair = true → ∀ l, written l = true → want .read l ≤ want .write l

namespace Order

variable (r : Order L fair)

/-- The sections of a call rise from a floor. -/
def Rises : ℕ → Locking L → Prop
  | _, .skip => True
  | n, .hold m l p => (m = .write → r.written l = true) ∧ n ≤ r.want m l ∧
      Rises (max n (r.held m l + 1)) p
  | n, .seq p q => Rises n p ∧ Rises n q
  | n, .alt p q => Rises n p ∧ Rises n q
  | n, .loop p => Rises n p

instance decidableRises : (n : ℕ) → (p : Locking L) → Decidable (r.Rises n p)
  | _, .skip => instDecidableTrue
  | n, .hold m l p =>
    have := decidableRises (max n (r.held m l + 1)) p
    inferInstanceAs (Decidable ((m = .write → r.written l = true) ∧ n ≤ r.want m l ∧ _))
  | n, .seq p q =>
    have := decidableRises n p
    have := decidableRises n q
    inferInstanceAs (Decidable (_ ∧ _))
  | n, .alt p q =>
    have := decidableRises n p
    have := decidableRises n q
    inferInstanceAs (Decidable (_ ∧ _))
  | n, .loop p => decidableRises n p

/-- The floor under what is above a stack: it is above all that is held. -/
def floor : List (Frame L) → ℕ
  | [] => 0
  | .release m l :: k => max (floor k) (r.held m l + 1)
  | .run _ :: k => floor k
  | .drain _ :: k => floor k

/-- The stack of a call whose sections rise. -/
def Sorted : List (Frame L) → Prop
  | [] => True
  | .run p :: k => r.Rises (r.floor k) p ∧ Sorted k
  | .drain l :: k => fair = true ∧ Sorted k ∧
      ∃ p k', k = .run p :: .release .write l :: k' ∧ r.floor k' ≤ r.want .write l
  | .release m l :: k => (m = .write → r.written l = true) ∧ Sorted k

variable {r} {k : List (Frame L)} {m : Mode}

/-- What is held is under the floor. -/
theorem held_lt_floor (h : .release m l ∈ k) : r.held m l < r.floor k := by
  induction k with
  | nil => exact absurd h List.not_mem_nil
  | cons f k ih =>
    rcases List.mem_cons.mp h with rfl | h
    · exact Nat.lt_of_succ_le (le_max_right _ _)
    · have hlt := ih h
      cases f with
      | run _ => exact hlt
      | drain _ => exact hlt
      | release _ _ => exact hlt.trans_le (le_max_left _ _)

/-- Who holds a lock for writing wants to write. -/
theorem written_of_release (hk : r.Sorted k) (hmem : .release .write l ∈ k) :
    r.written l = true := by
  induction k with
  | nil => exact absurd hmem List.not_mem_nil
  | cons f k ih =>
    rcases List.mem_cons.mp hmem with rfl | hmem'
    · exact hk.1 rfl
    · cases f with
      | run _ => exact ih hk.2 hmem'
      | drain _ => exact ih hk.2.1 hmem'
      | release _ _ => exact ih hk.2 hmem'

/-- **A turn keeps a stack sorted.** -/
theorem Sorted.turn {f : Frame L} {fs : List (Frame L)} (h : r.Sorted (f :: k))
    (hturn : Turn fair c f fs) : r.Sorted (fs ++ k) := by
  cases hturn with
  | skip => exact h.2
  | seq p q => exact ⟨h.1.1, h.1.2, h.2⟩
  | left p q => exact ⟨h.1.1, h.2⟩
  | right p q => exact ⟨h.1.2, h.2⟩
  | stop p => exact h.2
  | again p => exact ⟨h.1, h.1, h.2⟩
  | read l p _ => exact ⟨h.1.2.2, nofun, h.2⟩
  | shut l p hfair _ => exact ⟨hfair, ⟨h.1.2.2, h.1.1, h.2⟩, p, k, rfl, h.1.2.1⟩
  | drained l _ => exact h.2.1
  | enter l p _ _ => exact ⟨h.1.2.2, h.1.1, h.2⟩
  | release m l => exact h.2

theorem sorted_of_steps [DecidableEq T] (h : ∀ t, r.Sorted (c t)) (hst : Stacks.Steps fair c c') :
    ∀ t, r.Sorted (c' t) := by
  induction hst with
  | refl => exact h
  | tail _ hs ih =>
    obtain ⟨ht, hturn⟩ := hs
    rename_i t f fs k
    intro u
    rcases eq_or_ne u t with rfl | hne
    · rw [Function.update_self]
      exact (ht ▸ ih u).turn hturn
    · rw [Function.update_of_ne hne]
      exact ih u

/-! ## No circles -/

variable (r) in
/-- How far a call that waits has come. -/
def reached : List (Frame L) → ℕ
  | .run (.hold m l _) :: _ => 2 * r.want m l
  | .drain l :: _ => 2 * r.want .write l + 1
  | _ => 0

/-- **A call that holds a lock and waits** has come further than the lock, unless it waits for the
readers of that lock to leave. -/
theorem held_lt_reached (hsorted : r.Sorted (c t)) (hw : Waits fair c t u)
    (hl : .release m l ∈ c t) :
    2 * r.held m l + 1 < r.reached (c t) ∨
      m = .write ∧ fair = true ∧ r.reached (c t) = 2 * r.want .write l + 1 := by
  have hrun {m' : Mode} {l' : L} {p : Locking L} {k : List (Frame L)}
      (ht : c t = .run (.hold m' l' p) :: k) : 2 * r.held m l + 1 < r.reached (c t) := by
    rw [ht] at hsorted hl ⊢
    have hlt := held_lt_floor (r := r) ((List.mem_cons.mp hl).resolve_left nofun)
    have hle := hsorted.1.2.1
    rw [reached]
    omega
  cases hw with
  | read l' p k ht _ => exact .inl (hrun ht)
  | write _ l' p k ht _ _ => exact .inl (hrun ht)
  | drain l' k ht _ =>
    rw [ht] at hsorted hl ⊢
    obtain ⟨hfair, -, p, k', rfl, hle⟩ := hsorted
    have hl := (List.mem_cons.mp hl).resolve_left nofun
    have hl := (List.mem_cons.mp hl).resolve_left nofun
    rcases List.mem_cons.mp hl with heq | hl
    · obtain ⟨rfl, rfl⟩ := Frame.release.inj heq
      exact .inr ⟨rfl, hfair, rfl⟩
    · have hlt := held_lt_floor (r := r) hl
      rw [reached]
      exact .inl (by omega)

/-- **Who is waited for** has come further, if it waits itself. -/
theorem reached_lt {v : T} (hsorted : ∀ t, r.Sorted (c t)) (hw : Waits fair c t u)
    (hw' : Waits fair c u v) : r.reached (c t) < r.reached (c u) := by
  cases hw with
  | read l p k ht hu =>
    have hwritten := written_of_release (hsorted u) hu
    have hread := r.read_le l hwritten
    rw [ht, reached]
    rcases held_lt_reached (hsorted u) hw' hu with h | ⟨-, hfair, h⟩
    · omega
    · have := r.fair_le hfair l hwritten
      omega
  | write m l p k ht hm hu =>
    have hwritten : r.written l = true := by
      have := ht ▸ hsorted t
      exact this.1.1 rfl
    have hwrite := r.write_le m l hwritten
    rw [ht, reached]
    rcases held_lt_reached (hsorted u) hw' hu with h | ⟨-, -, h⟩
    · omega
    · omega
  | drain l k ht hu =>
    have hwritten : r.written l = true := by
      have hsort := ht ▸ hsorted t
      obtain ⟨-, hsort, p, k', rfl, -⟩ := hsort
      exact hsort.2.1 rfl
    have hwrite := r.write_le .read l hwritten
    rw [ht, reached]
    rcases held_lt_reached (hsorted u) hw' hu with h | ⟨h, -⟩
    · omega
    · cases h

/-- **Calls that respect an order** never wait for each other in a circle. -/
theorem not_deadlocked {D : Set T} (hsorted : ∀ t, r.Sorted (c t)) : ¬ Deadlocked fair c D := by
  rintro ⟨⟨t, ht⟩, hwaits⟩
  have hclimb (n : ℕ) : ∃ u ∈ D, n ≤ r.reached (c u) := by
    induction n with
    | zero => exact ⟨t, ht, Nat.zero_le _⟩
    | succ n ih =>
      obtain ⟨u, hu, hn⟩ := ih
      obtain ⟨v, hv, hw⟩ := hwaits u hu
      obtain ⟨w, -, hw'⟩ := hwaits v hv
      exact ⟨v, hv, hn.trans_lt (reached_lt hsorted hw hw')⟩
  obtain ⟨u, hu, hn⟩ := hclimb (2 * r.top + 2)
  obtain ⟨v, -, hw⟩ := hwaits u hu
  have htop : r.reached (c u) ≤ 2 * r.top + 1 := by
    cases hw with
    | read l p k ht _ =>
      have := r.want_le_top .read l
      rw [ht, reached]
      omega
    | write m l p k ht _ _ =>
      have := r.want_le_top .write l
      rw [ht, reached]
      omega
    | drain l k ht _ =>
      have := r.want_le_top .write l
      rw [ht, reached]
      omega
  omega

end Order

end Machinery
