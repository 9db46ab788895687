import Mathlib.Algebra.BigOperators.Group.Finset.Basic
import Mathlib.Algebra.Order.BigOperators.Group.Finset
import Mathlib.Data.Fintype.Card
import Mathlib.Tactic.NormNum

/-!
# Service/Bridge — work off the reactor

`BlockingBridge::run` takes a permit, hands a closure to a thread pool and waits on a channel for
its result; the closure holds the permit until it is over.  Callers come at any time and may drop
the future they wait on; a closure may panic; the semaphore may be closed, and the pool may drop a
closure it has not started.  Which of the closures handed to it a pool starts, and when, is the
pool's affair (`BridgePool`): it is only relied on to start one while none runs.

**No permit is lost or made** (`permits_add_held`), so that never more closures are queued or run
than permitted; and **whatever is called is answered** (`drains`): left alone, the bridge takes
boundedly many more steps, after which no caller waits and all permits are back.  The answer is that
of the caller's own closure, or `Cancelled` if the closure was refused a permit or dropped.
-/

namespace Vecvec

/-- The errors of the bridge. -/
inductive BridgeError
  | cancelled
  | panicked
  deriving DecidableEq

/-- Where the work of a call is. -/
inductive BridgeJob
  /-- not called -/
  | idle
  /-- waiting for a permit -/
  | acquiring
  /-- its future dropped before it had a permit -/
  | withdrawn
  /-- refused a permit by a closed semaphore -/
  | refused
  /-- handed to the pool -/
  | queued
  /-- dropped by the pool before it was started -/
  | discarded
  | running
  /-- its result sent, its permit not yet released -/
  | sent
  | finished
  deriving DecidableEq

/-- Where the caller is. -/
inductive BridgeCaller (V : Type)
  | idle
  | waiting
  | answered (r : Except BridgeError V)
  /-- has dropped the future -/
  | gone

/-- A bridge, the work it was handed and its callers. -/
structure Bridge (J V : Type) where
  /-- The width of the pool. -/
  threads : ℕ
  /-- The permits of the semaphore. -/
  permits : ℕ
  /-- The semaphore has been closed. -/
  closed : Bool
  job : J → BridgeJob
  caller : J → BridgeCaller V

namespace Bridge

variable {J V : Type} [Fintype J] [DecidableEq J]

/-- `new` -/
def new (threads maxInflight : ℕ) : Bridge J V :=
  ⟨max threads 1, max maxInflight 1, false, fun _ => .idle, fun _ => .idle⟩

/-- What the caller makes of the closure's result; `none` is a panic. -/
def received : Option V → Except BridgeError V
  | some v => .ok v
  | none => .error .panicked

/-- The calls whose work is at some places. -/
def count (p : BridgeJob → Bool) (job : J → BridgeJob) : ℕ := ∑ j, (p (job j)).toNat

end Bridge

/-- The work has a permit. -/
def BridgeJob.holds : BridgeJob → Bool
  | queued | running | sent => true
  | _ => false

/-- The work is on a thread. -/
def BridgeJob.runs : BridgeJob → Bool
  | running => true
  | _ => false

/-- What the caller can receive: the result sent, or that there will be none — the permit refused,
or the channel's other end dropped with the closure. -/
def BridgeJob.outcome {V : Type} (result : Option V) : BridgeJob → Option (Except BridgeError V)
  | sent | finished => some (Bridge.received result)
  | refused | discarded => some (.error .cancelled)
  | _ => none

/-- The turns a piece of work takes from where it is. -/
def BridgeJob.rank : BridgeJob → ℕ
  | acquiring => 4
  | queued => 3
  | running => 2
  | sent => 1
  | _ => 0

/-- The turns a caller takes. -/
def BridgeCaller.rank {V : Type} : BridgeCaller V → ℕ
  | waiting => 1
  | _ => 0

/-- A thread pool, as far as the bridge can tell (`rayon::ThreadPool`): which queued work it may
start.  A thread whose work waits for work of its own may take up more than one piece. -/
structure BridgePool (J : Type) where
  /-- A pool of so many threads may start the work. -/
  MayStart (threads : ℕ) (job : J → BridgeJob) (j : J) : Prop
  /-- A pool with a thread, all of them free, starts some of what is queued. -/
  exists_mayStart : ∀ {threads job}, 0 < threads → (∃ j, job j = .queued) →
    (∀ j, job j ≠ .running) → ∃ j, job j = .queued ∧ MayStart threads job j

namespace Bridge

variable {J V : Type} [Fintype J] [DecidableEq J]

/-- A step of `run`, of the pool or of a closure. -/
inductive Turn (pool : BridgePool J) (work : J → Option V) (s : Bridge J V) : Bridge J V → Prop
  | acquire {j : J} (hj : s.job j = .acquiring) (hclosed : s.closed = false)
      (hpermits : 0 < s.permits) : Turn pool work s
        { s with permits := s.permits - 1, job := Function.update s.job j .queued }
  | refuse {j : J} (hj : s.job j = .acquiring) (hclosed : s.closed = true) :
      Turn pool work s { s with job := Function.update s.job j .refused }
  | start {j : J} (hj : s.job j = .queued) (hpool : pool.MayStart s.threads s.job j) :
      Turn pool work s { s with job := Function.update s.job j .running }
  /-- the closure returns or panics, and its result is sent -/
  | send {j : J} (hj : s.job j = .running) :
      Turn pool work s { s with job := Function.update s.job j .sent }
  | release {j : J} (hj : s.job j = .sent) :
      Turn pool work s { s with permits := s.permits + 1, job := Function.update s.job j .finished }
  | receive {j : J} {r : Except BridgeError V} (hj : (s.job j).outcome (work j) = some r)
      (hcaller : s.caller j = .waiting) :
      Turn pool work s { s with caller := Function.update s.caller j (.answered r) }

/-- A turn, or something done to the bridge. -/
inductive Step (pool : BridgePool J) (work : J → Option V) (s : Bridge J V) : Bridge J V → Prop
  | turn {s' : Bridge J V} (h : Turn pool work s s') : Step pool work s s'
  | call {j : J} (hj : s.job j = .idle) :
      Step pool work s { s with job := Function.update s.job j .acquiring,
                                caller := Function.update s.caller j .waiting }
  /-- the future is dropped; one that waits for a permit leaves the queue -/
  | drop {j : J} (hcaller : s.caller j = .waiting) :
      Step pool work s { s with
        job := Function.update s.job j (if s.job j = .acquiring then .withdrawn else s.job j),
        caller := Function.update s.caller j .gone }
  /-- the semaphore is closed -/
  | close : Step pool work s { s with closed := true }
  /-- the pool drops a closure unstarted, and with it the permit and its end of the channel -/
  | discard {j : J} (hj : s.job j = .queued) : Step pool work s
      { s with permits := s.permits + 1, job := Function.update s.job j .discarded }

/-! ## Counting -/

/-- A sum over all calls after one has changed. -/
theorem sum_update {P : Type} (w : P → ℕ) (f : J → P) (j : J) (x : P) :
    ∑ i, w (Function.update f j x i) + w (f j) = ∑ i, w (f i) + w x := by
  have hrest : ∑ i ∈ Finset.univ.erase j, w (Function.update f j x i) =
      ∑ i ∈ Finset.univ.erase j, w (f i) :=
    Finset.sum_congr rfl fun i hi => by rw [Function.update_of_ne (Finset.ne_of_mem_erase hi)]
  rw [← Finset.add_sum_erase _ _ (Finset.mem_univ j), hrest, Function.update_self,
    ← Finset.add_sum_erase Finset.univ (fun i => w (f i)) (Finset.mem_univ j)]
  omega

variable {pool : BridgePool J} {work : J → Option V} {s s' : Bridge J V} {threads maxInflight : ℕ}
  {j : J} {x y : BridgeJob}

/-- What a change of one call's work does to a count. -/
theorem count_update (p : BridgeJob → Bool) (hj : s.job j = y) :
    count p (Function.update s.job j x) + (p y).toNat = count p s.job + (p x).toNat :=
  hj ▸ sum_update (fun b => (p b).toNat) s.job j x

omit [DecidableEq J] in
/-- No more work runs than has a permit. -/
theorem count_runs_le (job : J → BridgeJob) :
    count BridgeJob.runs job ≤ count BridgeJob.holds job :=
  Finset.sum_le_sum fun j _ => by cases job j <;> decide

/-! ## Reachable states -/

variable (pool work threads maxInflight) in
/-- The states a new bridge comes to. -/
inductive Reachable : Bridge J V → Prop
  | new : Reachable (new threads maxInflight)
  | step {s s' : Bridge J V} (h : Reachable s) (hs : Step pool work s s') : Reachable s'

variable (work maxInflight) in
/-- What holds of a bridge at any time. -/
structure Sound (s : Bridge J V) : Prop where
  /-- A permit is with the semaphore or with a piece of work. -/
  permits : s.permits + count BridgeJob.holds s.job = max maxInflight 1
  threads : 0 < s.threads
  /-- Who waits has called. -/
  waiting : ∀ j, s.caller j = .waiting → s.job j ≠ .idle
  /-- Who has called waits, is answered or is gone. -/
  called : ∀ j, s.job j ≠ .idle → s.caller j ≠ .idle
  /-- Who has withdrawn is gone. -/
  withdrawn : ∀ j, s.job j = .withdrawn → s.caller j = .gone
  /-- Permits are refused only by a closed semaphore. -/
  refused : ∀ j, s.job j = .refused → s.closed = true
  /-- An answer is the call's own. -/
  answered : ∀ j r, s.caller j = .answered r → (s.job j).outcome (work j) = some r

/-- A piece of work comes to another place. -/
theorem Sound.move (h : Sound work maxInflight s) (x : BridgeJob) (hj : s.job j = y)
    (hcalled : s.caller j ≠ .idle) (hx : x ≠ .idle) (hout : x = .withdrawn → s.caller j = .gone)
    (hclosed : x = .refused → s.closed = true)
    (hkeep : ∀ r, s.caller j = .answered r → x.outcome (work j) = some r) {permits : ℕ}
    (hpermits : permits + x.holds.toNat = s.permits + y.holds.toNat) :
    Sound work maxInflight { s with permits, job := Function.update s.job j x } := by
  have hat {q : J → BridgeJob → Prop} (hself : q j x) (hrest : ∀ i, q i (s.job i)) (i : J) :
      q i (Function.update s.job j x i) := by
    rcases eq_or_ne i j with rfl | hne
    · rwa [Function.update_self]
    · rw [Function.update_of_ne hne]
      exact hrest i
  exact
    { permits := by
        have hcount := count_update (x := x) BridgeJob.holds hj
        have hold := h.permits
        change permits + count BridgeJob.holds (Function.update s.job j x) = _
        omega
      threads := h.threads
      waiting := hat (q := fun i b => s.caller i = .waiting → b ≠ .idle) (fun _ => hx) h.waiting
      called := hat (q := fun i b => b ≠ .idle → s.caller i ≠ .idle) (fun _ => hcalled) h.called
      withdrawn := hat (q := fun i b => b = .withdrawn → s.caller i = .gone) hout h.withdrawn
      refused := hat (q := fun _ b => b = .refused → s.closed = true) hclosed h.refused
      answered := hat (q := fun i b => ∀ r, s.caller i = .answered r →
        b.outcome (work i) = some r) hkeep h.answered }

/-- A caller comes to another place. -/
theorem Sound.call (h : Sound work maxInflight s) {p : BridgeCaller V} (hp : p ≠ .idle)
    (hwaiting : p = .waiting → s.job j ≠ .idle) (hout : s.job j = .withdrawn → p = .gone)
    (hanswered : ∀ r, p = .answered r → (s.job j).outcome (work j) = some r) :
    Sound work maxInflight { s with caller := Function.update s.caller j p } := by
  have hat {q : J → BridgeCaller V → Prop} (hself : q j p) (hrest : ∀ i, q i (s.caller i)) (i : J) :
      q i (Function.update s.caller j p i) := by
    rcases eq_or_ne i j with rfl | hne
    · rwa [Function.update_self]
    · rw [Function.update_of_ne hne]
      exact hrest i
  exact
    { permits := h.permits
      threads := h.threads
      waiting := hat (q := fun i b => b = .waiting → s.job i ≠ .idle) hwaiting h.waiting
      called := hat (q := fun i b => s.job i ≠ .idle → b ≠ .idle) (fun _ => hp) h.called
      withdrawn := hat (q := fun i b => s.job i = .withdrawn → b = .gone) hout h.withdrawn
      refused := h.refused
      answered := hat (q := fun i b => ∀ r, b = .answered r →
        (s.job i).outcome (work i) = some r) hanswered h.answered }

omit [DecidableEq J] in
/-- Who is answered has an outcome. -/
theorem Sound.not_answered (h : Sound work maxInflight s) (hj : s.job j = y)
    (hy : y.outcome (work j) = none) (r : Except BridgeError V) : s.caller j ≠ .answered r :=
  fun hr => by
    have := h.answered j r hr
    rw [hj, hy] at this
    cases this

theorem Sound.turn (h : Sound work maxInflight s) (ht : Turn pool work s s') :
    Sound work maxInflight s' := by
  have hcalled {j : J} {y : BridgeJob} (hj : s.job j = y) (hy : y ≠ .idle) : s.caller j ≠ .idle :=
    h.called j (hj ▸ hy)
  cases ht with
  | acquire hj _ hpos =>
    refine h.move .queued hj (hcalled hj nofun) nofun nofun nofun
      (fun r hr => absurd hr (h.not_answered hj rfl r)) ?_
    simp only [BridgeJob.holds, Bool.toNat_true, Bool.toNat_false]
    omega
  | refuse hj hclosed =>
    exact h.move .refused hj (hcalled hj nofun) nofun nofun (fun _ => hclosed)
      (fun r hr => absurd hr (h.not_answered hj rfl r)) rfl
  | start hj =>
    exact h.move .running hj (hcalled hj nofun) nofun nofun nofun
      (fun r hr => absurd hr (h.not_answered hj rfl r)) rfl
  | send hj =>
    exact h.move .sent hj (hcalled hj nofun) nofun nofun nofun
      (fun r hr => absurd hr (h.not_answered hj rfl r)) rfl
  | @release j hj =>
    refine h.move .finished hj (hcalled hj nofun) nofun nofun nofun (fun r hr => ?_) rfl
    have := h.answered j r hr
    rwa [hj] at this
  | @receive j r hj hcaller =>
    refine h.call nofun nofun (fun hw => ?_) fun r' hr => by cases hr; exact hj
    rw [hw] at hj
    cases hj

theorem Sound.step (h : Sound work maxInflight s) (hs : Step pool work s s') :
    Sound work maxInflight s' := by
  have hgone (j : J) : Sound work maxInflight
      { s with caller := Function.update s.caller j .gone } :=
    h.call nofun nofun (fun _ => rfl) nofun
  have hself (j : J) : Function.update s.caller j .gone j = .gone := Function.update_self ..
  have hmoved {j : J} (x : BridgeJob) (hx : x.holds = (s.job j).holds) (hidle : x ≠ .idle)
      (hne : x ≠ .refused) : Sound work maxInflight
        { s with job := Function.update s.job j x, caller := Function.update s.caller j .gone } :=
    (hgone j).move x rfl (fun hi => by cases (hself j).symm.trans hi) hidle (fun _ => hself j)
      (fun hr => absurd hr hne)
      (fun r hr => by cases (hself j).symm.trans hr) (by rw [hx])
  cases hs with
  | turn ht => exact h.turn ht
  | @call j hj =>
    have hnew := hmoved (j := j) .acquiring (by rw [hj]; rfl) nofun nofun
    have hwaits := hnew.call (j := j) (p := .waiting) nofun (fun _ => ?_) (fun hw => ?_) nofun
    · simpa only [Function.update_idem] using hwaits
    · change Function.update s.job j .acquiring j ≠ .idle
      rw [Function.update_self]
      exact nofun
    · change Function.update s.job j .acquiring j = .withdrawn at hw
      rw [Function.update_self] at hw
      cases hw
  | @drop j hcaller =>
    by_cases hj : s.job j = .acquiring
    · rw [if_pos hj]
      exact hmoved .withdrawn (by rw [hj]; rfl) nofun nofun
    · rw [if_neg hj, Function.update_eq_self]
      exact hgone j
  | close =>
    exact ⟨h.permits, h.threads, h.waiting, h.called, h.withdrawn, fun _ _ => rfl, h.answered⟩
  | discard hj =>
    exact h.move .discarded hj (h.called _ (hj ▸ nofun)) nofun nofun nofun
      (fun r hr => absurd hr (h.not_answered hj rfl r)) rfl

omit [DecidableEq J] in
theorem Sound.new : Sound work maxInflight (Bridge.new threads maxInflight : Bridge J V) where
  permits := by simp [Bridge.new, count, BridgeJob.holds]
  threads := lt_max_of_lt_right Nat.one_pos
  waiting _ h := by cases h
  called _ h := absurd rfl h
  withdrawn _ h := by cases h
  refused _ h := by cases h
  answered _ _ h := by cases h

theorem Reachable.sound (h : Reachable pool work threads maxInflight s) :
    Sound work maxInflight s := by
  induction h with
  | new => exact .new
  | step _ hs ih => exact ih.step hs

/-! ## Left alone -/

/-- The turns until all is over, at most. -/
def rank (s : Bridge J V) : ℕ := ∑ j, (s.job j).rank + ∑ j, (s.caller j).rank

/-- A number of turns. -/
inductive Turns (pool : BridgePool J) (work : J → Option V) :
    ℕ → Bridge J V → Bridge J V → Prop
  | zero (s : Bridge J V) : Turns pool work 0 s s
  | succ {n : ℕ} {s s' s'' : Bridge J V} (h : Turns pool work n s s')
      (ht : Turn pool work s' s'') : Turns pool work (n + 1) s s''

theorem rank_turn (ht : Turn pool work s s') : s'.rank + 1 ≤ s.rank := by
  have hjob {j : J} {x y : BridgeJob} (hj : s.job j = y) :
      ∑ i, (Function.update s.job j x i).rank + y.rank = ∑ i, (s.job i).rank + x.rank :=
    hj ▸ sum_update BridgeJob.rank s.job j x
  cases ht with
  | acquire hj =>
    have := hjob (x := .queued) hj
    simp only [rank, BridgeJob.rank] at this ⊢
    omega
  | refuse hj =>
    have := hjob (x := .refused) hj
    simp only [rank, BridgeJob.rank] at this ⊢
    omega
  | start hj =>
    have := hjob (x := .running) hj
    simp only [rank, BridgeJob.rank] at this ⊢
    omega
  | send hj =>
    have := hjob (x := .sent) hj
    simp only [rank, BridgeJob.rank] at this ⊢
    omega
  | release hj =>
    have := hjob (x := .finished) hj
    simp only [rank, BridgeJob.rank] at this ⊢
    omega
  | @receive j r hj hcaller =>
    have := sum_update BridgeCaller.rank s.caller j (.answered r)
    rw [hcaller] at this
    simp only [rank, BridgeCaller.rank] at this ⊢
    omega

theorem rank_turns {n : ℕ} (h : Turns pool work n s s') : n + s'.rank ≤ s.rank := by
  induction h with
  | zero => exact (Nat.zero_add _).le
  | succ _ ht ih =>
    have := rank_turn ht
    omega

omit [DecidableEq J] in
/-- Work that has no turns left is over, or was never called. -/
theorem outcome_of_rank (h : Sound work maxInflight s) (hj : (s.job j).rank = 0)
    (hcaller : s.caller j ≠ .gone) :
    s.job j = .idle ∨ ((s.job j).outcome (work j)).isSome = true := by
  have hout := mt (h.withdrawn j) hcaller
  cases heq : s.job j with
  | idle => exact .inl rfl
  | withdrawn => exact absurd heq hout
  | refused | discarded | sent | finished => exact .inr rfl
  | acquiring | queued | running => rw [heq] at hj; cases hj

/-- **While something is left to do, a turn is possible.** -/
theorem exists_turn (pool : BridgePool J) (h : Sound work maxInflight s) (hrank : s.rank ≠ 0) :
    ∃ s', Turn pool work s s' := by
  by_contra hnone
  have hno (s' : Bridge J V) : ¬ Turn pool work s s' := fun ht => hnone ⟨s', ht⟩
  have hrunning (j : J) : s.job j ≠ .running := fun hj => hno _ (.send hj)
  have hsent (j : J) : s.job j ≠ .sent := fun hj => hno _ (.release hj)
  have hqueued (j : J) : s.job j ≠ .queued := fun hj => by
    obtain ⟨i, hi, hmay⟩ := pool.exists_mayStart h.threads ⟨j, hj⟩ hrunning
    exact hno _ (.start hi hmay)
  have hheld : count BridgeJob.holds s.job = 0 := Finset.sum_eq_zero fun j _ => by
    cases heq : s.job j with
    | queued => exact absurd heq (hqueued j)
    | running => exact absurd heq (hrunning j)
    | sent => exact absurd heq (hsent j)
    | _ => rfl
  have hacquiring (j : J) : s.job j ≠ .acquiring := fun hj => by
    cases hclosed : s.closed with
    | true => exact hno _ (.refuse hj hclosed)
    | false =>
      refine hno _ (.acquire hj hclosed ?_)
      have := h.permits
      omega
  have hjob (j : J) : (s.job j).rank = 0 := by
    cases heq : s.job j with
    | acquiring => exact absurd heq (hacquiring j)
    | queued => exact absurd heq (hqueued j)
    | running => exact absurd heq (hrunning j)
    | sent => exact absurd heq (hsent j)
    | _ => rfl
  have hcallers : ∑ j, (s.caller j).rank = 0 := Finset.sum_eq_zero fun j _ => by
    cases heq : s.caller j with
    | waiting =>
      rcases outcome_of_rank h (hjob j) (heq ▸ nofun) with hidle | hsome
      · exact absurd hidle (h.waiting j heq)
      · obtain ⟨r, hr⟩ := Option.isSome_iff_exists.mp hsome
        exact absurd (Turn.receive hr heq) (hno _)
    | _ => rfl
  exact hrank (by rw [rank, Finset.sum_eq_zero fun j _ => hjob j, hcallers])

/-- A caller has the result of its own closure, or `Cancelled`: for the permit was refused by a
closed semaphore, or the pool dropped the closure. -/
def Answers (work : J → Option V) (s : Bridge J V) (j : J) : Prop :=
  s.job j = .finished ∧ s.caller j = .answered (received (work j)) ∨
    (s.job j = .refused ∧ s.closed = true ∨ s.job j = .discarded) ∧
      s.caller j = .answered (.error .cancelled)

omit [DecidableEq J] in
/-- **Once nothing is left to do**, all permits are back and every call is answered or gone. -/
theorem over_of_rank (h : Sound work maxInflight s) (hrank : s.rank = 0) :
    s.permits = max maxInflight 1 ∧
      ∀ j, s.job j = .idle ∨ Answers work s j ∨ s.caller j = .gone := by
  obtain ⟨hjobs, hcallers⟩ := Nat.add_eq_zero_iff.mp hrank
  have hjob (j : J) : (s.job j).rank = 0 := Finset.sum_eq_zero_iff.mp hjobs j (Finset.mem_univ j)
  have hcaller (j : J) : (s.caller j).rank = 0 :=
    Finset.sum_eq_zero_iff.mp hcallers j (Finset.mem_univ j)
  constructor
  · have hheld : count BridgeJob.holds s.job = 0 := Finset.sum_eq_zero fun j _ => by
      have := hjob j
      cases heq : s.job j with
      | queued | running | sent => rw [heq] at this; cases this
      | _ => rfl
    have := h.permits
    omega
  · intro j
    by_cases hidle : s.job j = .idle
    · exact .inl hidle
    refine .inr ?_
    cases hc : s.caller j with
    | idle => exact absurd hc (h.called j hidle)
    | waiting => have := hcaller j; rw [hc] at this; cases this
    | gone => exact .inr rfl
    | answered r =>
      have hr := h.answered j r hc
      have hrank := hjob j
      refine .inl ?_
      cases heq : s.job j with
      | finished =>
        rw [heq] at hr
        cases hr
        exact .inl ⟨heq, hc⟩
      | refused =>
        rw [heq] at hr
        cases hr
        exact .inr ⟨.inl ⟨heq, h.refused j heq⟩, hc⟩
      | discarded =>
        rw [heq] at hr
        cases hr
        exact .inr ⟨.inr heq, hc⟩
      | sent => rw [heq] at hrank; cases hrank
      | _ => rw [heq] at hr; cases hr

/-- **No permit is lost or made**, whatever panics, whoever drops a future and whatever the pool
drops; so no more closures than permitted are handed to the pool at a time, or run. -/
theorem permits_add_held (h : Reachable pool work threads maxInflight s) :
    s.permits + count BridgeJob.holds s.job = max maxInflight 1 ∧
      count BridgeJob.runs s.job ≤ max maxInflight 1 := by
  have hpermits := h.sound.permits
  have hruns := count_runs_le s.job
  exact ⟨hpermits, by omega⟩

/-- **A bridge left alone answers**: it takes at most `rank` more turns, whatever their order, and
can take one as long as something is left to do; then every caller that is not gone has an answer,
and all permits are back. -/
theorem drains (h : Reachable pool work threads maxInflight s) {n : ℕ}
    (hn : Turns pool work n s s') :
    n + s'.rank ≤ s.rank ∧ (s'.rank ≠ 0 → ∃ s'', Turn pool work s' s'') ∧
      (s'.rank = 0 → s'.permits = max maxInflight 1 ∧
        ∀ j, s'.job j = .idle ∨ Answers work s' j ∨ s'.caller j = .gone) := by
  have hsound : Sound work maxInflight s' := by
    have hs := h.sound
    clear h
    induction hn with
    | zero => exact hs
    | succ _ ht ih => exact (ih hs).turn ht
  exact ⟨rank_turns hn, exists_turn pool hsound, over_of_rank hsound⟩

/-! ## Two callers -/

/-- A pool that starts work while it has a thread free. -/
def widePool : BridgePool J where
  MayStart threads job j := job j = .queued ∧ count BridgeJob.runs job < threads
  exists_mayStart := fun {threads job} hpos ⟨j, hj⟩ hrunning => by
    refine ⟨j, hj, hj, lt_of_eq_of_lt (Finset.sum_eq_zero fun i _ => ?_) hpos⟩
    cases heq : job i with
    | running => exact absurd heq (hrunning i)
    | _ => rfl

/-- The work of two callers: it panics, or it gives 7. -/
def twoCallers : Bool → Option ℕ := fun j => if j then none else some 7

/-- What is to panic runs, with the only permit; the other call waits for one. -/
def atWork : Bridge Bool ℕ :=
  ⟨2, 0, false, fun j => if j then .running else .acquiring, fun _ => .waiting⟩

theorem reachable_atWork : Reachable widePool twoCallers 2 1 atWork := by
  have h₁ : Reachable widePool twoCallers 2 1 _ := .step .new (.call (j := true) rfl)
  have h₂ := h₁.step (.call (j := false) rfl)
  have h₃ := h₂.step (.turn (.acquire (j := true) rfl rfl Nat.one_pos))
  have h₄ := h₃.step (.turn (.start (j := true) rfl ⟨rfl, by decide⟩))
  convert h₄ using 1
  rw [atWork, Bridge.mk.injEq]
  exact ⟨rfl, rfl, rfl, funext (Bool.forall_bool.mpr ⟨rfl, rfl⟩),
    funext (Bool.forall_bool.mpr ⟨rfl, rfl⟩)⟩

theorem permits_add_held_atWork :
    atWork.permits + count BridgeJob.holds atWork.job = max 1 1 ∧
      count BridgeJob.runs atWork.job ≤ max 1 1 := permits_add_held reachable_atWork

/-- The one closure panics, the other then runs, and both callers are answered. -/
theorem drains_atWork : ∃ s' : Bridge Bool ℕ, Turns widePool twoCallers 8 atWork s' ∧
    s'.rank = 0 ∧ s'.permits = max 1 1 ∧
    ∀ j, s'.job j = .idle ∨ Answers twoCallers s' j ∨ s'.caller j = .gone := by
  have h₁ : Turns widePool twoCallers 1 atWork _ := .succ (.zero _) (.send (j := true) rfl)
  have h₂ := h₁.succ (.release (j := true) rfl)
  have h₃ := h₂.succ (.receive (j := true) rfl rfl)
  have h₄ := h₃.succ (.acquire (j := false) rfl rfl Nat.one_pos)
  have h₅ := h₄.succ (.start (j := false) rfl ⟨rfl, by decide⟩)
  have h₆ := h₅.succ (.send (j := false) rfl)
  have h₇ := h₆.succ (.release (j := false) rfl)
  have h₈ := h₇.succ (.receive (j := false) rfl rfl)
  obtain ⟨hle, -, hover⟩ := drains reachable_atWork h₈
  have hrank : _ = 0 := Nat.eq_zero_of_le_zero (Nat.add_le_add_iff_left.mp
    (hle.trans_eq (show atWork.rank = 8 + 0 by decide)))
  exact ⟨_, h₈, hrank, hover hrank⟩

end Bridge

end Vecvec
